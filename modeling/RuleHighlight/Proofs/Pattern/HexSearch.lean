import RuleHighlight.Proofs.Pattern.RunSearch

/-!
Hexadecimal literals as a regular expression. A search never cuts its digits short, since a digit is
a character of words and no boundary stands between two of them. So it finds the whole words of the
text that are a literal.
-/

namespace RuleHighlight

open CharClass

/-- In regular notation `\b0x[0-9A-Fa-f]+\b`. -/
def Regex.hexNumber : Regex := bounded ((literal ['0', 'x']).seq (.many isHexDigit 1 none))

namespace Pattern

open Regex

theorem isHexLiteral_iff {chars : List Char} : isHexLiteral chars = true ↔
    ∃ digits, chars = '0' :: 'x' :: digits ∧ digits ≠ [] ∧ ∀ d ∈ digits, isHexDigit d = true := by
  rw [isHexLiteral.eq_def]
  split
  · next d ds => simp [List.all_eq_true]
  · next h =>
    constructor
    · intro hfalse
      cases hfalse
    · rintro ⟨digits, rfl, hne, -⟩
      obtain ⟨d, ds, rfl⟩ := List.exists_cons_of_ne_nil hne
      exact absurd rfl (h d ds)

@[simp]
theorem isHexLiteral_cons_cons (digits : List Char) :
    isHexLiteral ('0' :: 'x' :: digits) = (!digits.isEmpty && digits.all isHexDigit) := by
  cases digits <;> rfl

theorem hexDigits_stopped (before rest : List Char) :
    (Regex.many isHexDigit 1 none).stopped before rest =
      if isHexLiteral ('0' :: 'x' :: rest.takeWhile isWord) then
        some (rest.takeWhile isWord).length
      else none := by
  have hword : ∀ c, isHexDigit c = true → isWord c = true := fun _ => isWord_of_isHexDigit
  have hall := Text.all_takeWhile_iff hword rest
  rw [many_one_stopped hword, isHexLiteral_cons_cons]
  cases hafter : (rest.dropWhile isHexDigit).head?.any isWord with
  | true =>
    have hnot : (rest.takeWhile isWord).all isHexDigit = false := by
      rw [← Bool.not_eq_true, hall, hafter]
      exact Bool.noConfusion
    rw [hnot, Bool.and_false, if_neg Bool.false_ne_true]
    split_ifs with hpos
    · rw [stop_whole hword before hpos, hafter, if_pos rfl]
    · rfl
  | false =>
    have htrue := hall.mpr hafter
    rw [htrue, Text.takeWhile_eq_of_all hword htrue, Bool.and_true]
    by_cases hpos : 0 < (rest.takeWhile isHexDigit).length
    · have hempty : (rest.takeWhile isHexDigit).isEmpty = false :=
        List.isEmpty_eq_false_iff.mpr (List.ne_nil_of_length_pos hpos)
      rw [if_pos hpos, stop_whole hword before hpos, hafter, hempty]
      rfl
    · rw [if_neg hpos, List.length_eq_zero_iff.mp (Nat.eq_zero_of_not_pos hpos)]
      rfl

theorem hexNumber_keeps : hexNumber.Keeps isHexLiteral := by
  refine ⟨fun before rest => ?_, rfl⟩
  rw [hexNumber, preferred_bounded, stopped_seq, first_literal]
  by_cases hbegin : ['0', 'x'].isPrefixOf rest
  · obtain ⟨rest, rfl⟩ := List.isPrefixOf_iff_prefix.mp hbegin
    have htake : (['0', 'x'] ++ rest).takeWhile isWord = '0' :: 'x' :: rest.takeWhile isWord := rfl
    rw [if_pos hbegin, htake]
    simp only [List.drop_left, hexDigits_stopped]
    cases before.head?.any isWord <;>
      cases isHexLiteral ('0' :: 'x' :: rest.takeWhile isWord) <;> simp [isWord, Nat.add_comm 2]
  · have hother : isHexLiteral (rest.takeWhile isWord) = false := by
      rw [← Bool.not_eq_true, isHexLiteral_iff]
      rintro ⟨digits, heq, -⟩
      have hprefix : '0' :: 'x' :: digits <+: rest := heq ▸ List.takeWhile_prefix isWord
      exact hbegin (List.isPrefixOf_iff_prefix.mpr ((List.prefix_append _ digits).trans hprefix))
    rw [if_neg hbegin, hother]
    simp

end Pattern

end RuleHighlight
