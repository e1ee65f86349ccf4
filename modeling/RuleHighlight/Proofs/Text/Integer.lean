import RuleHighlight.Text.Integer
import Mathlib.Data.List.Basic

namespace RuleHighlight.Text

variable {c d : Char} {n : Nat}

theorem isSpace_of_decimalValue? (h : decimalValue? c = some n) : isSpace c = false := by
  obtain ⟨z, hz, -⟩ := Option.map_eq_some_iff.mp h
  have hzero := List.mem_of_find?_eq_some hz
  have hdigit := List.find?_some hz
  -- The ten digits of a script lie between two neighbouring blanks.
  have hgap : ∀ z ∈ decimalZeros, 32 < z ∧ z + 9 < 133 ∨ 160 < z ∧ z + 9 < 5760 ∨
      5760 < z ∧ z + 9 < 8192 ∨ 12288 < z := by decide
  have := hgap z hzero
  simp only [decide_eq_true_eq] at hdigit
  simp only [isSpace, Bool.or_eq_false_iff, decide_eq_false_iff_not, beq_eq_false_iff_ne]
  omega

theorem isSpace_of_digitValue? (h : digitValue? c = some n) : isSpace c = false := by
  simp only [digitValue?, Char.le_def, UInt32.le_iff_toNat_le] at h
  split_ifs at h with hlower hupper
  · simp [isSpace] at hlower ⊢
    omega
  · simp [isSpace] at hupper ⊢
    omega
  · exact isSpace_of_decimalValue? h

theorem digitValue?_lt (h : digitValue? c = some n) : n < 16 := by
  simp only [digitValue?, Char.le_def, UInt32.le_iff_toNat_le] at h
  split_ifs at h with hlower hupper
  · obtain rfl := Option.some.inj h
    simp at hlower
    omega
  · obtain rfl := Option.some.inj h
    simp at hupper
    omega
  · have := decimalValue?_lt h
    omega

theorem trim_pair (c d : Char) : trim [c, d] =
    if isSpace c then if isSpace d then [] else [d] else if isSpace d then [c] else [c, d] := by
  simp only [trim]
  split_ifs <;> simp [*]

namespace Integer

theorem toList_toString_ofNat (n : Nat) : (toString (Int.ofNat n)).toList = Nat.toDigits 10 n :=
  Nat.toList_repr

theorem toList_toString_negSucc (n : Nat) :
    (toString (Int.negSucc n)).toList = '-' :: Nat.toDigits 10 (n + 1) := by
  rw [← Nat.toList_repr]
  exact String.toList_append

inductive Denotes : Char → Char → Int → Prop
  | digits {c d : Char} {m n : Nat} (hc : digitValue? c = some m) (hd : digitValue? d = some n) :
      Denotes c d (16 * m + n)
  | blankBefore {c d : Char} {n : Nat} (hc : isSpace c = true) (hd : digitValue? d = some n) :
      Denotes c d n
  | blankBehind {c d : Char} {n : Nat} (hc : digitValue? c = some n) (hd : isSpace d = true) :
      Denotes c d n
  | plus {d : Char} {n : Nat} (hd : digitValue? d = some n) : Denotes '+' d n
  | minus {d : Char} {n : Nat} (hd : digitValue? d = some n) : Denotes '-' d (-n)

@[simp]
theorem digitValue?_underscore : digitValue? '_' = none := by decide

theorem readDigits?_singleton (value : Nat) (c : Char) :
    readDigits? 16 value [c] = (digitValue? c).map (16 * value + ·) := by
  rw [readDigits?]
  · cases hd : digitValue? c with
    | none => rfl
    | some n => simp [digitValue?_lt hd, readDigits?, Nat.mul_comm]
  · simp

@[simp]
theorem readUnsigned?_singleton (c : Char) : readUnsigned? 16 [c] = digitValue? c := by
  by_cases hc : c = '_'
  · simp [hc, readUnsigned?]
  · simp [readUnsigned?, readDigits?_singleton]

theorem readUnsigned?_pair (c d : Char) : readUnsigned? 16 [c, d] =
    (digitValue? c).bind (fun m => (digitValue? d).map (16 * m + ·)) := by
  by_cases hc : c = '_'
  · simp [hc, readUnsigned?]
  · rw [readUnsigned?, readDigits?]
    · cases hm : digitValue? c with
      | none => rfl
      | some m => simp [digitValue?_lt hm, readDigits?_singleton]
    · simp [hc]
    · simpa using hc

@[simp]
theorem dropBase_singleton (c : Char) : dropBase 16 [c] = [c] := by
  rw [dropBase]
  simp

theorem readUnsigned?_dropBase_pair (c d : Char) :
    readUnsigned? 16 (dropBase 16 [c, d]) = readUnsigned? 16 [c, d] := by
  by_cases hc : c = '0'
  · subst hc
    rw [dropBase]
    split_ifs with hmark
    · -- The mark of the base leaves nothing to read, and is no digit itself.
      have hd : digitValue? d = none := by
        simp [baseMark] at hmark
        rcases hmark with rfl | rfl <;> decide
      rw [readUnsigned?_pair, hd]
      cases digitValue? '0' <;> rfl
    · rfl
    · simp
  · rw [dropBase]
    simp [hc]

theorem read?_of_trim_singleton {s : List Char} (h : trim s = [c]) :
    read? 16 s = (digitValue? c).map (fun n : Nat => (n : Int)) := by
  rw [read?, h]
  split
  next heq =>
    obtain ⟨rfl, rfl⟩ := List.cons.inj heq
    decide
  next heq =>
    obtain ⟨rfl, rfl⟩ := List.cons.inj heq
    decide
  next =>
    rw [dropBase_singleton, readUnsigned?_singleton]
    cases digitValue? c <;> simp

theorem read?_of_trim_pair {s : List Char} (h : trim s = [c, d]) :
    read? 16 s =
      if c = '-' then (digitValue? d).map (fun n : Nat => -(n : Int))
      else if c = '+' then (digitValue? d).map (fun n : Nat => (n : Int))
      else (digitValue? c).bind (fun m => (digitValue? d).map (fun n : Nat => (16 * m + n : Int))) := by
  rw [read?, h]
  split
  next heq =>
    obtain ⟨rfl, rfl⟩ := List.cons.inj heq
    rw [if_pos rfl, dropBase_singleton, readUnsigned?_singleton]
    cases digitValue? d <;> rfl
  next heq =>
    obtain ⟨rfl, rfl⟩ := List.cons.inj heq
    rw [if_neg (by decide), if_pos rfl, dropBase_singleton, readUnsigned?_singleton]
    cases digitValue? d <;> rfl
  next hminus hplus =>
    have hc : c ≠ '-' := fun h => hminus [d] (by rw [h])
    have hc' : c ≠ '+' := fun h => hplus [d] (by rw [h])
    rw [if_neg hc, if_neg hc', readUnsigned?_dropBase_pair, readUnsigned?_pair]
    cases digitValue? c <;> cases digitValue? d <;> simp

theorem read?_pair_iff {n : Int} : read? 16 [c, d] = some n ↔ Denotes c d n := by
  constructor
  · intro h
    have htrim := trim_pair c d
    split_ifs at htrim with hc hd hd
    · rw [read?, htrim] at h
      cases h
    · rw [read?_of_trim_singleton htrim] at h
      obtain ⟨m, hm, rfl⟩ := Option.map_eq_some_iff.mp h
      exact .blankBefore hc hm
    · rw [read?_of_trim_singleton htrim] at h
      obtain ⟨m, hm, rfl⟩ := Option.map_eq_some_iff.mp h
      exact .blankBehind hm hd
    · rw [read?_of_trim_pair htrim] at h
      split_ifs at h with hminus hplus
      · obtain ⟨m, hm, rfl⟩ := Option.map_eq_some_iff.mp h
        exact hminus ▸ .minus hm
      · obtain ⟨m, hm, rfl⟩ := Option.map_eq_some_iff.mp h
        exact hplus ▸ .plus hm
      · obtain ⟨k, hk, h⟩ := Option.bind_eq_some_iff.mp h
        obtain ⟨m, hm, rfl⟩ := Option.map_eq_some_iff.mp h
        exact .digits hk hm
  · intro h
    have htrim := trim_pair c d
    cases h with
    | digits hc hd =>
      rw [isSpace_of_digitValue? hc, isSpace_of_digitValue? hd] at htrim
      have hminus : c ≠ '-' := by
        rintro rfl
        cases hc
      have hplus : c ≠ '+' := by
        rintro rfl
        cases hc
      rw [read?_of_trim_pair htrim, if_neg hminus, if_neg hplus, hc, hd]
      rfl
    | blankBefore hc hd =>
      rw [hc, isSpace_of_digitValue? hd] at htrim
      rw [read?_of_trim_singleton htrim, hd]
      rfl
    | blankBehind hc hd =>
      rw [hd, isSpace_of_digitValue? hc] at htrim
      rw [read?_of_trim_singleton htrim, hc]
      rfl
    | plus hd =>
      rw [isSpace_of_digitValue? hd] at htrim
      rw [read?_of_trim_pair htrim, hd]
      rfl
    | minus hd =>
      rw [isSpace_of_digitValue? hd] at htrim
      rw [read?_of_trim_pair htrim, hd]
      rfl

theorem Denotes.bounds {n : Int} (h : Denotes c d n) : -15 ≤ n ∧ n ≤ 255 := by
  cases h with
  | digits hc hd =>
    have := digitValue?_lt hc
    have := digitValue?_lt hd
    omega
  | blankBefore hc hd | blankBehind hd hc =>
    have := digitValue?_lt hd
    omega
  | plus hd | minus hd =>
    have := digitValue?_lt hd
    omega

theorem Denotes.exists_natCast {n : Int} (h : Denotes c d n) (hc : c ≠ '-') :
    ∃ m : Nat, n = m := by
  cases h with
  | digits | blankBefore | blankBehind | plus => exact ⟨_, rfl⟩
  | minus => exact absurd rfl hc

-- A digit of another script, and a sign.
example : Denotes '4' '\u0663' 67 := .digits (m := 4) (n := 3) (by decide) (by decide)

theorem not_writable_leastOverlong : ¬ Writable leastOverlong := by
  rw [Writable, Int.natAbs_natCast]
  exact Nat.lt_irrefl _

end Integer

end RuleHighlight.Text
