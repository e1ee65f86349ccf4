import Mathlib.Data.Nat.Find
import Mathlib.Order.Bounds.Basic
import RuleHighlight.Proofs.Pattern.Endings
import RuleHighlight.Proofs.Search

/-!
Quoted literals by the places of their stops. Behind an opening quote a search goes to the nearest
character that may end the literal. Where this is a backslash with something on its line to take,
the search jumps over the two and goes on to the next such character.
-/

namespace RuleHighlight.Pattern

open CharClass

def isStop (c : Char) : Bool := c == '"' || c == '\\' || isLineEnd c

def NextStop (text : List Char) (i k : Nat) : Prop :=
  IsLeast {k | i ≤ k ∧ text[k]?.any isStop = true} k

/-- Where a literal closes that is read on from a place. -/
inductive LiteralCloses (text : List Char) : Nat → Nat → Prop
  | textEnd {i} (hnone : ∀ k, ¬ NextStop text i k) : LiteralCloses text i text.length
  | quote {i k} (hk : NextStop text i k) (hquote : text[k]? = some '"') :
      LiteralCloses text i (k + 1)
  | escape {i k c stop} (hk : NextStop text i k) (hslash : text[k]? = some '\\')
      (hc : text[k + 1]? = some c) (hline : isLineEnd c = false)
      (hrest : LiteralCloses text (k + 2) stop) : LiteralCloses text i stop
  | dangling {i k} (hk : NextStop text i k) (hslash : text[k]? = some '\\')
      (hline : text[k + 1]?.all isLineEnd = true) : LiteralCloses text i (k + 1)
  | lineEnd {i k} (hk : NextStop text i k) (hline : text[k]?.any isLineEnd = true) :
      LiteralCloses text i k

def literals (text : List Char) : Search Extent where
  Sees e := text[e.start]? = some '"' ∧ LiteralCloses text (e.start + 1) e.stop
  start := Extent.start
  stop := Extent.stop

@[simp]
theorem literalBody_of_isLineEnd {c : Char} (hc : isLineEnd c = true) (rest : List Char) :
    literalBody (c :: rest) = 0 := by
  rcases isLineEnd_iff.mp hc with rfl | rfl <;> rfl

@[simp]
theorem literalBody_dangling {rest : List Char} (hrest : rest.head?.all isLineEnd = true) :
    literalBody ('\\' :: rest) = 1 := by
  cases rest with
  | nil => rfl
  | cons c rest => exact if_pos hrest

@[simp]
theorem literalBody_plain {c : Char} (hc : isStop c = false) (rest : List Char) :
    literalBody (c :: rest) = literalBody rest + 1 := by
  simp only [isStop, Bool.or_eq_false_iff, beq_eq_false_iff_ne] at hc
  rw [literalBody_cons hc.1.2, if_neg hc.1.1, hc.2, if_neg Bool.false_ne_true]

section Stops

variable {text : List Char} {i k stop : Nat}

theorem add_literalBody_eq (hle : i ≤ k) (hk : k ≤ text.length)
    (hplain : ∀ j, i ≤ j → j < k → text[j]?.any isStop = false) :
    i + literalBody (text.drop i) = k + literalBody (text.drop k) := by
  induction k, hle using Nat.le_induction with
  | base => rfl
  | succ k hle ih =>
    have hc := hplain k hle (Nat.lt_succ_self k)
    rw [List.getElem?_eq_getElem hk, Option.any_some] at hc
    rw [ih (Nat.le_of_lt hk) fun j hj hlt => hplain j hj (Nat.lt_succ_of_lt hlt),
      List.drop_eq_getElem_cons hk, literalBody_plain hc]
    omega

theorem exists_nextStop (h : text[k]?.any isStop = true) (hle : i ≤ k) :
    ∃ j, NextStop text i j := by
  have hex : ∃ j, i ≤ j ∧ text[j]?.any isStop = true := ⟨k, hle, h⟩
  exact ⟨Nat.find hex, Nat.find_spec hex, fun j hj => Nat.find_min' hex hj⟩

theorem NextStop.add_literalBody_eq (h : NextStop text i k) :
    i + literalBody (text.drop i) = k + literalBody (text.drop k) := by
  obtain ⟨c, hc, -⟩ := (Option.any_eq_true _ _).mp h.1.2
  refine Pattern.add_literalBody_eq h.1.1 (Nat.le_of_lt (List.getElem?_eq_some_iff.mp hc).1) ?_
  intro j hj hlt
  by_contra hstop
  exact absurd (h.2 ⟨hj, Bool.not_eq_false _ ▸ hstop⟩) (Nat.not_le.mpr hlt)

theorem drop_eq_cons {c : Char} (h : text[k]? = some c) :
    text.drop k = c :: text.drop (k + 1) := by
  obtain ⟨hlt, rfl⟩ := List.getElem?_eq_some_iff.mp h
  exact List.drop_eq_getElem_cons hlt

theorem LiteralCloses.eq_add (h : LiteralCloses text i stop) (hi : i ≤ text.length) :
    stop = i + literalBody (text.drop i) := by
  induction h with
  | @textEnd i hnone =>
    rw [add_literalBody_eq hi (Nat.le_refl _), List.drop_length]
    · rfl
    · intro j hj _
      by_contra hstop
      obtain ⟨k, hk⟩ := exists_nextStop (Bool.not_eq_false _ ▸ hstop) hj
      exact hnone k hk
  | quote hk hquote =>
    rw [hk.add_literalBody_eq, drop_eq_cons hquote]
    rfl
  | @escape i k c stop hk hslash hc hline _ ih =>
    have hrest : stop = k + 1 + 1 + literalBody (text.drop (k + 1 + 1)) :=
      ih (List.getElem?_eq_some_iff.mp hc).1
    rw [hrest, hk.add_literalBody_eq, drop_eq_cons hslash, drop_eq_cons hc, literalBody, hline,
      if_neg Bool.false_ne_true]
    omega
  | dangling hk hslash hline =>
    rw [hk.add_literalBody_eq, drop_eq_cons hslash, literalBody_dangling]
    rw [List.head?_drop]
    exact hline
  | lineEnd hk hline =>
    obtain ⟨c, hc, hend⟩ := (Option.any_eq_true _ _).mp hline
    rw [hk.add_literalBody_eq, drop_eq_cons hc, literalBody_of_isLineEnd hend]
    rfl

-- By induction on what is left of the text: an escape is the only way on.
theorem exists_literalCloses (i : Nat) : ∃ stop, LiteralCloses text i stop := by
  induction hn : text.length - i using Nat.strongRecOn generalizing i with
  | ind n ih =>
    subst hn
    by_cases hnone : ∀ k, ¬ NextStop text i k
    · exact ⟨_, .textEnd hnone⟩
    obtain ⟨k, hk⟩ := not_forall_not.mp hnone
    obtain ⟨c, hc, hstop⟩ := (Option.any_eq_true _ _).mp hk.1.2
    simp only [isStop, Bool.or_eq_true, beq_iff_eq] at hstop
    rcases hstop with (rfl | rfl) | hend
    · exact ⟨_, .quote hk hc⟩
    · cases hline : text[k + 1]?.all isLineEnd with
      | true => exact ⟨_, .dangling hk hc hline⟩
      | false =>
        obtain ⟨d, hd, hplain⟩ := (Option.all_eq_false _ _).mp hline
        have hlt := (List.getElem?_eq_some_iff.mp hd).1
        have hle := hk.1.1
        obtain ⟨stop, hrest⟩ := ih (text.length - (k + 2)) (by omega) (k + 2) rfl
        exact ⟨stop, .escape hk hc hd hplain hrest⟩
    · exact ⟨_, .lineEnd hk (by rw [hc]; exact hend)⟩

theorem literalCloses_iff (hi : i ≤ text.length) :
    LiteralCloses text i stop ↔ stop = i + literalBody (text.drop i) := by
  refine ⟨fun h => h.eq_add hi, ?_⟩
  rintro rfl
  obtain ⟨stop, hstop⟩ : ∃ stop, LiteralCloses text i stop := exists_literalCloses i
  rwa [← hstop.eq_add hi]

end Stops

theorem literals_eq (text : List Char) : literals text =
    .recognised stringLiteral (fun i n => ⟨i, i + n⟩) Extent.start Extent.stop text := by
  rw [literals, Search.recognised, Search.mk.injEq]
  refine ⟨?_, rfl, rfl⟩
  funext ⟨start, stop⟩
  rw [eq_iff_iff]
  constructor
  · rintro ⟨hquote, hcloses⟩
    have hlt := (List.getElem?_eq_some_iff.mp hquote).1
    refine ⟨start, literalBody (text.drop (start + 1)) + 1, ?_, ?_⟩
    · rw [drop_eq_cons hquote]
      rfl
    · rw [Extent.mk.injEq]
      have hstop := hcloses.eq_add hlt
      simp only at hstop
      omega
  · rintro ⟨i, n, hr, heq⟩
    obtain ⟨rfl, rfl⟩ := Extent.mk.inj heq
    obtain ⟨body, hbody, rfl⟩ := (stringLiteral_opens _ _ n).mp hr
    have hquote : text[start]? = some '"' := by rw [← List.head?_drop, hbody]; rfl
    have hlt : start + 1 ≤ text.length := (List.getElem?_eq_some_iff.mp hquote).1
    rw [drop_eq_cons hquote] at hbody
    obtain ⟨-, rfl⟩ := List.cons.inj hbody
    refine ⟨hquote, (literalCloses_iff hlt).mpr ?_⟩
    simp only
    omega

theorem stringLiteral_pos {before rest : List Char} {n : Nat}
    (h : stringLiteral before rest = some n) : 0 < n := by
  obtain ⟨body, -, rfl⟩ := (stringLiteral_opens before rest n).mp h
  exact Nat.succ_pos _

theorem literals_within (text : List Char) : (literals text).Within text.length := by
  rw [literals_eq]
  exact Search.recognised_within (fun _ _ => rfl) (fun _ _ => rfl) stringLiteral_fits
    (fun _ _ _ => stringLiteral_pos) text

theorem literals_decomposes (text : List Char) :
    (literals text).Decomposes (stringLiterals text) := by
  rw [literals_eq]
  exact Search.recognised_decomposes (fun _ _ => rfl) (fun _ _ => rfl) stringLiteral_fits
    (fun _ _ _ => stringLiteral_pos) text

end RuleHighlight.Pattern
