import RuleHighlight.Text.CharClass
import Mathlib.Data.List.Forall2
import Mathlib.Tactic.SplitIfs

namespace RuleHighlight.CharClass

theorem isLineEnd_iff {c : Char} : isLineEnd c = true ↔ c = '\n' ∨ c = '\r' := by
  simp [isLineEnd]

theorem isBlank_iff {c : Char} : isBlank c = true ↔
    c = ' ' ∨ c = '\t' ∨ c = '\n' ∨ c = '\r' ∨ c = '\x0c' ∨ c = '\x0b' := by
  simp [isBlank, or_assoc]

theorem isBlank_of_isLineEnd {c : Char} (h : isLineEnd c = true) : isBlank c = true := by
  rcases isLineEnd_iff.mp h with rfl | rfl <;> rfl

theorem eq_false_of_isLineEnd {p : Char → Bool} {c : Char} (hn : p '\n' = false) (hr : p '\r' = false)
    (hc : isLineEnd c = true) : p c = false := by
  rcases isLineEnd_iff.mp hc with rfl | rfl
  · exact hn
  · exact hr

theorem isWord_eq_false_of_isBlank {c : Char} (h : isBlank c = true) : isWord c = false := by
  rcases isBlank_iff.mp h with rfl | rfl | rfl | rfl | rfl | rfl <;> rfl

theorem isBlank_eq_false_of_isWord {c : Char} (h : isWord c = true) : isBlank c = false := by
  rw [Bool.eq_false_iff]
  intro hb
  rw [isWord_eq_false_of_isBlank hb] at h
  cases h

theorem isWord_iff {c : Char} : isWord c = true ↔
    ('A' ≤ c ∧ c ≤ 'Z') ∨ ('a' ≤ c ∧ c ≤ 'z') ∨ ('0' ≤ c ∧ c ≤ '9') ∨ c = '_' := by
  change (((decide ('A' ≤ c ∧ c ≤ 'Z') || (decide ('a' ≤ c) && decide (c ≤ 'z'))) ||
    (decide ('0' ≤ c) && decide (c ≤ '9'))) || c == '_') = true ↔ _
  simp only [Bool.or_eq_true, Bool.and_eq_true, decide_eq_true_eq, beq_iff_eq, or_assoc]

theorem isWord_of_isWordStart {c : Char} (h : isWordStart c = true) : isWord c = true := by
  rcases Bool.or_eq_true_iff.mp h with h | h
  · exact Bool.or_eq_true_iff.mpr (Or.inl (Bool.or_eq_true_iff.mpr (Or.inl h)))
  · exact Bool.or_eq_true_iff.mpr (Or.inr h)

theorem isWord_of_isDigit {c : Char} (h : c.isDigit = true) : isWord c = true :=
  Bool.or_eq_true_iff.mpr (Or.inl (Bool.or_eq_true_iff.mpr (Or.inr h)))

theorem isWord_of_isHexDigit {c : Char} (h : isHexDigit c = true) : isWord c = true := by
  simp only [isHexDigit, Bool.or_eq_true, Bool.and_eq_true, decide_eq_true_eq] at h
  rcases h with (h | h) | h
  · exact isWord_of_isDigit h
  · exact isWord_iff.mpr (Or.inr (Or.inl ⟨h.1, Char.le_trans h.2 (by decide)⟩))
  · exact isWord_iff.mpr (Or.inl ⟨h.1, Char.le_trans h.2 (by decide)⟩)

def isBreak (c : Char) : Bool := isLineEnd c || c == '/'

theorem isBreak_of_isLineEnd {c : Char} (h : isLineEnd c = true) : isBreak c = true := by
  rw [isBreak, h, Bool.true_or]

theorem eq_false_of_isBreak {p : Char → Bool} {c : Char} (hn : p '\n' = false) (hr : p '\r' = false)
    (hs : p '/' = false) (hc : isBreak c = true) : p c = false := by
  rcases Bool.or_eq_true_iff.mp hc with hline | hslash
  · exact eq_false_of_isLineEnd hn hr hline
  · rwa [beq_iff_eq.mp hslash]

theorem notMem_of_any_eq_false {p : Char → Bool} {c : Char} {opener : List Char}
    (ho : opener.any p = false) (hc : p c = true) : c ∉ opener := by
  intro hmem
  rw [List.any_eq_false] at ho
  exact ho c hmem hc

def isSpacing (c : Char) : Bool := isBlank c && !isLineEnd c

def isSymbol (c : Char) : Bool :=
  ['$', '#', '"', '\\', '/', '*', '-', '+', '=', '<', '>', ':', '?', '.', '\x7b'].contains c

def isNeutral (c : Char) : Bool := !isWord c && !isBlank c && !isSymbol c

inductive Alike : Char → Char → Prop
  | same (c : Char) : Alike c c
  | lineEnds {a b : Char} (ha : isLineEnd a = true) (hb : isLineEnd b = true) : Alike a b
  | spacings {a b : Char} (ha : isSpacing a = true) (hb : isSpacing b = true) : Alike a b
  | neutrals {a b : Char} (ha : isNeutral a = true) (hb : isNeutral b = true) : Alike a b

def representative (c : Char) : Char :=
  if isLineEnd c then '\n' else if isSpacing c then ' ' else if isNeutral c then '!' else c

theorem isNeutral_iff {c : Char} :
    isNeutral c = true ↔ isWord c = false ∧ isBlank c = false ∧ isSymbol c = false := by
  simp [isNeutral, and_assoc]

theorem isSpacing_iff {c : Char} :
    isSpacing c = true ↔ c = ' ' ∨ c = '\t' ∨ c = '\x0c' ∨ c = '\x0b' := by
  simp only [isSpacing, Bool.and_eq_true, Bool.not_eq_true', isBlank_iff]
  constructor
  · rintro ⟨rfl | rfl | rfl | rfl | rfl | rfl, hl⟩ <;> simp_all [isLineEnd]
  · rintro (rfl | rfl | rfl | rfl) <;> decide

theorem isNeutral_of_le {c : Char} (h : 128 ≤ c.toNat) : isNeutral c = true := by
  have hgt (a : Char) (ha : a.toNat < 128) : ¬ c ≤ a := by
    rw [Char.le_def, UInt32.le_iff_toNat_le]
    change ¬ c.toNat ≤ a.toNat
    omega
  have hne (a : Char) (ha : a.toNat < 128) : c ≠ a := by
    rintro rfl
    omega
  refine isNeutral_iff.mpr ⟨?_, ?_, ?_⟩
  · rw [Bool.eq_false_iff]
    intro hword
    rcases isWord_iff.mp hword with ⟨-, hle⟩ | ⟨-, hle⟩ | ⟨-, hle⟩ | heq
    · exact hgt 'Z' (by decide) hle
    · exact hgt 'z' (by decide) hle
    · exact hgt '9' (by decide) hle
    · exact hne '_' (by decide) heq
  · simp [isBlank, hne]
  · simp [isSymbol, hne]

theorem representative_cases (c : Char) :
    representative c = c ∨ isLineEnd c = true ∧ representative c = '\n' ∨
      isSpacing c = true ∧ representative c = ' ' ∨
      isNeutral c = true ∧ representative c = '!' := by
  unfold representative
  split_ifs with hl hs hn
  · exact Or.inr (Or.inl ⟨hl, rfl⟩)
  · exact Or.inr (Or.inr (Or.inl ⟨hs, rfl⟩))
  · exact Or.inr (Or.inr (Or.inr ⟨hn, rfl⟩))
  · exact Or.inl rfl

theorem isNeutral_eq_false_of_isWord {c : Char} (h : isWord c = true) : isNeutral c = false := by
  simp [isNeutral, h]

theorem isNeutral_eq_false_of_isBlank {c : Char} (h : isBlank c = true) : isNeutral c = false := by
  simp [isNeutral, h]

theorem isNeutral_eq_false_of_isSymbol {c : Char} (h : isSymbol c = true) : isNeutral c = false := by
  simp [isNeutral, h]

theorem isSymbol_eq_false_of_isBlank {c : Char} (h : isBlank c = true) : isSymbol c = false := by
  rcases isBlank_iff.mp h with rfl | rfl | rfl | rfl | rfl | rfl <;> rfl

theorem isSymbol_of_isOperator {c : Char} (h : isOperator c = true) : isSymbol c = true := by
  simp only [isOperator, Bool.or_eq_true, beq_iff_eq, or_assoc] at h
  rcases h with rfl | rfl | rfl | rfl | rfl | rfl | rfl | rfl <;> rfl

theorem apply_representative {p : Char → Bool} (hline : p '\r' = p '\n')
    (hspacing : ['\t', '\x0c', '\x0b'].all (fun c => p c == p ' ') = true)
    (hneutral : ∀ c, p c = true → isNeutral c = false) (c : Char) :
    p (representative c) = p c := by
  have hfalse {c : Char} (hc : isNeutral c = true) : p c = false :=
    Bool.eq_false_iff.mpr (fun hp => by rw [hneutral c hp] at hc; cases hc)
  rcases representative_cases c with h | ⟨hc, h⟩ | ⟨hc, h⟩ | ⟨hc, h⟩
  · rw [h]
  · rcases isLineEnd_iff.mp hc with rfl | rfl
    · rw [h]
    · rw [h, hline]
  · rcases isSpacing_iff.mp hc with rfl | hc
    · rw [h]
    · rw [h, beq_iff_eq.mp (List.all_eq_true.mp hspacing c (by simpa using hc))]
  · rw [h, hfalse hc, hfalse rfl]

@[simp]
theorem isWord_representative (c : Char) : isWord (representative c) = isWord c :=
  apply_representative rfl rfl (fun _ h => isNeutral_eq_false_of_isWord h) c

@[simp]
theorem isWordStart_representative (c : Char) : isWordStart (representative c) = isWordStart c :=
  apply_representative rfl rfl
    (fun _ h => isNeutral_eq_false_of_isWord (isWord_of_isWordStart h)) c

@[simp]
theorem isDigit_representative (c : Char) : (representative c).isDigit = c.isDigit :=
  apply_representative (p := Char.isDigit) rfl rfl
    (fun _ h => isNeutral_eq_false_of_isWord (isWord_of_isDigit h)) c

@[simp]
theorem isBlank_representative (c : Char) : isBlank (representative c) = isBlank c :=
  apply_representative rfl rfl (fun _ h => isNeutral_eq_false_of_isBlank h) c

@[simp]
theorem isLineEnd_representative (c : Char) : isLineEnd (representative c) = isLineEnd c :=
  apply_representative rfl rfl
    (fun _ h => isNeutral_eq_false_of_isBlank (isBlank_of_isLineEnd h)) c

theorem isNibble_representative (c : Char) : isNibble (representative c) = isNibble c := by
  refine apply_representative rfl rfl (fun a h => ?_) c
  rcases Bool.or_eq_true_iff.mp h with h | h
  · exact isNeutral_eq_false_of_isWord (isWord_of_isHexDigit h)
  · obtain rfl := beq_iff_eq.mp h
    rfl

@[simp]
theorem isOperator_representative (c : Char) : isOperator (representative c) = isOperator c :=
  apply_representative rfl rfl
    (fun _ h => isNeutral_eq_false_of_isSymbol (isSymbol_of_isOperator h)) c

theorem blocksBytes_representative (c : Char) : blocksBytes (representative c) = blocksBytes c := by
  refine apply_representative rfl rfl (fun a h => ?_) c
  rcases Bool.or_eq_true_iff.mp h with h | h
  · obtain rfl := beq_iff_eq.mp h
    rfl
  · exact isNeutral_eq_false_of_isWord h

def isMarked (c : Char) : Bool := isWord c || isSymbol c

theorem isMarked_of_isWord {c : Char} (h : isWord c = true) : isMarked c = true :=
  Bool.or_eq_true_iff.mpr (Or.inl h)

theorem isMarked_of_isOperator {c : Char} (h : isOperator c = true) : isMarked c = true :=
  Bool.or_eq_true_iff.mpr (Or.inr (isSymbol_of_isOperator h))

theorem isMarked_of_isNibble {c : Char} (h : isNibble c = true) : isMarked c = true := by
  rcases Bool.or_eq_true_iff.mp h with h | h
  · exact isMarked_of_isWord (isWord_of_isHexDigit h)
  · obtain rfl := beq_iff_eq.mp h
    rfl

theorem representative_eq_iff {c a : Char} (ha : isMarked a = true) :
    representative c = a ↔ c = a := by
  rw [isMarked, Bool.or_eq_true] at ha
  have hblank (b : Char) (hb : isBlank b = true) : (b == a) = false := by
    rw [beq_eq_false_iff_ne]
    rintro rfl
    rcases ha with ha | ha
    · rw [isWord_eq_false_of_isBlank hb] at ha; cases ha
    · rw [isSymbol_eq_false_of_isBlank hb] at ha; cases ha
  have happly : (representative c == a) = (c == a) := by
    refine apply_representative (p := (· == a)) ?_ ?_ (fun b hb => ?_) c
    · rw [hblank '\r' rfl, hblank '\n' rfl]
    · simp only [List.all_cons, List.all_nil, hblank '\t' rfl, hblank '\x0c' rfl,
        hblank '\x0b' rfl, hblank ' ' rfl]
      rfl
    · obtain rfl := beq_iff_eq.mp hb
      exact ha.elim isNeutral_eq_false_of_isWord isNeutral_eq_false_of_isSymbol
  rw [← beq_iff_eq, happly, beq_iff_eq]

theorem map_representative_eq {opener : List Char} (ho : opener.all isMarked = true) {s : List Char} :
    s.map representative = opener ↔ s = opener := by
  induction opener generalizing s with
  | nil => simp
  | cons a opener ih =>
    rw [List.all_cons, Bool.and_eq_true] at ho
    cases s with
    | nil => simp
    | cons c s => rw [List.map_cons, List.cons.injEq, List.cons.injEq, representative_eq_iff ho.1, ih ho.2]

theorem map_representative_of_isMarked {s : List Char} (h : ∀ a ∈ s, isMarked a = true) :
    s.map representative = s := (map_representative_eq (List.all_eq_true.mpr h)).mpr rfl

theorem exists_map_representative (opener : List Char) (ho : opener.all isMarked = true)
    {P Q : List Char → Prop} (hP : ∀ body, P (body.map representative) ↔ Q body) (s : List Char) :
    (∃ body, s.map representative = opener ++ body ∧ P body) ↔
      ∃ body, s = opener ++ body ∧ Q body := by
  constructor
  · rintro ⟨body, hs, hbody⟩
    obtain ⟨front, back, rfl, hfront, rfl⟩ := List.map_eq_append_iff.mp hs
    rw [map_representative_eq ho] at hfront
    exact ⟨back, by rw [hfront], (hP back).mp hbody⟩
  · rintro ⟨body, rfl, hbody⟩
    refine ⟨body.map representative, ?_, (hP body).mpr hbody⟩
    rw [List.map_append, (map_representative_eq ho).mpr rfl]

theorem representative_eq_of_alike {a b : Char} (h : Alike a b) :
    representative a = representative b := by
  have hneutral {c : Char} (hc : isNeutral c = true) : representative c = '!' := by
    have hblank := (isNeutral_iff.mp hc).2.1
    have hline : isLineEnd c = false := Bool.eq_false_iff.mpr
      (fun hl => by rw [isBlank_of_isLineEnd hl] at hblank; cases hblank)
    simp [representative, isSpacing, hline, hblank, hc]
  cases h with
  | same => rfl
  | lineEnds ha hb => simp [representative, ha, hb]
  | spacings ha hb =>
    rcases isSpacing_iff.mp ha with rfl | rfl | rfl | rfl <;>
      rcases isSpacing_iff.mp hb with rfl | rfl | rfl | rfl <;> rfl
  | neutrals ha hb => rw [hneutral ha, hneutral hb]

theorem map_representative {s t : List Char} (h : List.Forall₂ Alike s t) :
    s.map representative = t.map representative := by
  induction h with
  | nil => rfl
  | cons hab _ ih => rw [List.map_cons, List.map_cons, representative_eq_of_alike hab, ih]

end RuleHighlight.CharClass
