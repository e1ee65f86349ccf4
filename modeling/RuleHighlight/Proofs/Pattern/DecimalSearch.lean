import RuleHighlight.Proofs.Pattern.NumberPool
import RuleHighlight.Proofs.Regex

/-!
Decimals as a regular expression. Two expressions are known for them, one in which the point and
the digits behind it are optional together, and one in which each is optional on its own. A search
for either finds the decimals: where the digits after the point run into a word, the search falls
back to the point, and from there to the digits before it.
-/

namespace RuleHighlight

open CharClass

namespace Regex

def digits (least : Nat) : Regex := .many Char.isDigit least none

def point : Regex := letter '.'

/-- In regular notation `\b(?:\.\d+|\d+ … )\b`, with what may follow the whole part. -/
def decimalWith (fraction : Regex) : Regex :=
  bounded ((point.seq (digits 1)).alt ((digits 1).seq fraction))

def fraction : Regex := (point.seq (digits 0)).alt empty

def looseFraction : Regex := (Regex.many (· == '.') 0 (some 1)).seq (digits 0)

end Regex

namespace Pattern

open Regex

variable {before rest : List Char}

theorem any_head?_passed {n : Nat} (hpos : 0 < n)
    (hn : n ≤ (rest.takeWhile Char.isDigit).length) :
    (Text.passed n before rest).head?.any isWord = true := by
  have hlength := (List.takeWhile_prefix Char.isDigit (l := rest)).length_le
  obtain ⟨m, rfl⟩ := Nat.exists_eq_add_of_le' hpos
  rw [Text.head?_passed (by omega)]
  exact any_isWord_of_lt (p := Char.isDigit) (fun _ => isWord_of_isDigit) (by omega)

theorem digits_zero_stopped : (digits 0).stopped before rest =
    (stop before rest (rest.takeWhile Char.isDigit).length).or (stop before rest 0) := by
  rw [stopped, digits]
  apply first_many_ends (Nat.zero_le _)
  intro n hpos hn
  obtain ⟨m, rfl⟩ := Nat.exists_eq_add_of_le' hpos
  exact stop_inside (fun _ => isWord_of_isDigit) hn

theorem decimalOfWhole_eq_map (whole : Nat) (rest : List Char) :
    decimalOfWhole whole rest = (decimalOfWhole 0 rest).map (whole + ·) := by
  rw [decimalOfWhole.eq_def, decimalOfWhole.eq_def]
  split
  · simp only
    split_ifs <;> simp [Nat.add_assoc]
  · split_ifs <;> rfl

theorem digits_stopped_after_point (hbefore : before.head?.any isWord = false) :
    (digits 0).stopped before rest =
      if !(rest.takeWhile Char.isDigit).isEmpty && !(rest.dropWhile Char.isDigit).head?.any isWord then
        some (rest.takeWhile Char.isDigit).length
      else if rest.head?.any isWord then some 0 else none := by
  rw [digits_zero_stopped, stop_zero, hbefore]
  cases hdigits : rest.takeWhile Char.isDigit with
  | nil =>
    rw [List.length_nil, stop_zero, hbefore]
    simp
  | cons d ds =>
    have hpos : 0 < (rest.takeWhile Char.isDigit).length := by rw [hdigits]; exact Nat.succ_pos _
    have hstop := stop_whole (fun _ => isWord_of_isDigit) before hpos
    rw [hdigits] at hstop
    rw [hstop]
    cases (rest.dropWhile Char.isDigit).head?.any isWord <;> simp

structure Completes (e : Regex) : Prop where
  behind : ∀ before rest : List Char, before.head?.any isWord = true →
    rest.head?.any Char.isDigit = false → e.stopped before rest = decimalOfWhole 0 rest
  within : ∀ before rest : List Char, before.head?.any isWord = true →
    rest.head?.any Char.isDigit = true → decimalOfWhole 0 (rest.dropWhile Char.isDigit) = none →
    e.stopped before rest = none

theorem point_seq_stopped (e : Regex) (tail : List Char) :
    (point.seq e).stopped before ('.' :: tail) = (e.stopped ('.' :: before) tail).map (1 + ·) := by
  rw [stopped_seq, point, letter, first_one]
  rfl

theorem point_seq_stopped_of_ne {e : Regex} (h : ∀ tail, rest ≠ '.' :: tail) :
    (point.seq e).stopped before rest = none := by
  rw [stopped_seq, point, letter, first_one]
  cases rest with
  | nil => rfl
  | cons c tail =>
    have hc : c ≠ '.' := by
      rintro rfl
      exact h tail rfl
    simp [hc]

theorem decimalOfWhole_point (before tail : List Char) : decimalOfWhole 0 ('.' :: tail) =
    (((digits 0).stopped ('.' :: before) tail).map (1 + ·)).or (some 0) := by
  rw [digits_stopped_after_point rfl, decimalOfWhole.eq_def]
  simp only
  split_ifs <;> simp

theorem isWord_of_decimalOfWhole {whole : Nat} (h : decimalOfWhole whole rest = none) :
    rest.head?.any isWord = true := by
  rw [decimalOfWhole.eq_def] at h
  split at h
  · simp only at h
    split_ifs at h
  · split_ifs at h with hword
    exact hword

theorem length_digits_pos (h : rest.head?.any Char.isDigit = true) :
    0 < (rest.takeWhile Char.isDigit).length := by
  cases rest with
  | nil => cases h
  | cons c rest =>
    rw [List.takeWhile_cons_of_pos (show c.isDigit = true from h)]
    exact Nat.succ_pos _

theorem completes_fraction : Completes fraction := by
  constructor
  · intro before rest hbefore _
    rw [fraction, stopped_alt, stopped_empty, stop_zero, hbefore]
    by_cases hpoint : ∃ tail, rest = '.' :: tail
    · obtain ⟨tail, rfl⟩ := hpoint
      rw [point_seq_stopped, decimalOfWhole_point before]
      rfl
    · have hne := not_exists.mp hpoint
      rw [point_seq_stopped_of_ne hne, decimalOfWhole_stop hne]
      cases rest.head?.any isWord <;> rfl
  · intro before rest hbefore hdigit _
    have hword := any_isWord (fun _ => isWord_of_isDigit) hdigit
    have hne : ∀ tail, rest ≠ '.' :: tail := by
      rintro tail rfl
      cases hdigit
    rw [fraction, stopped_alt, stopped_empty, stop_zero, hbefore, hword, point_seq_stopped_of_ne hne]
    rfl

theorem reach_point (tail : List Char) : reach (· == '.') (some 1) ('.' :: tail) = 1 := by
  simp [reach]

theorem reach_point_of_ne (h : ∀ tail, rest ≠ '.' :: tail) :
    reach (· == '.') (some 1) rest = 0 := by
  cases rest with
  | nil => rfl
  | cons c tail =>
    have hc : c ≠ '.' := by
      rintro rfl
      exact h tail rfl
    simp [reach, hc]

theorem looseFraction_stopped (hne : ∀ tail, rest ≠ '.' :: tail) :
    looseFraction.stopped before rest = (digits 0).stopped before rest := by
  have hreach := reach_point_of_ne hne
  rw [looseFraction, stopped_seq, first_many_greedy (Nat.zero_le _), hreach]
  · simp [Text.passed_zero]
  · intro _ n _ hn
    omega

theorem completes_looseFraction : Completes looseFraction := by
  constructor
  · intro before rest hbefore hdigit
    have hnil := Text.takeWhile_eq_nil hdigit
    have hstop : (digits 0).stopped before rest = if rest.head?.any isWord then none else some 0 := by
      rw [digits_zero_stopped, hnil, List.length_nil, stop_zero, hbefore]
      cases rest.head?.any isWord <;> rfl
    by_cases hpoint : ∃ tail, rest = '.' :: tail
    · obtain ⟨tail, rfl⟩ := hpoint
      rw [looseFraction, stopped_seq, first_many_ends (Nat.zero_le _), reach_point,
        decimalOfWhole_point before]
      · simp only [Text.passed_zero, List.drop_zero, hstop]
        rfl
      · rw [reach_point]
        omega
    · have hne := not_exists.mp hpoint
      rw [looseFraction_stopped hne, hstop, decimalOfWhole_stop hne]
  · intro before rest hbefore hdigit hnone
    have hword := any_isWord (fun _ => isWord_of_isDigit) hdigit
    have hne : ∀ tail, rest ≠ '.' :: tail := by
      rintro tail rfl
      cases hdigit
    rw [looseFraction_stopped hne, digits_zero_stopped,
      stop_whole (fun _ => isWord_of_isDigit) before (length_digits_pos hdigit), isWord_of_decimalOfWhole hnone, stop_zero, hbefore, hword]
    rfl

theorem Completes.whole_stopped {e : Regex} (h : Completes e)
    (hdigit : rest.head?.any Char.isDigit = true) : ((digits 1).seq e).stopped before rest =
      decimalOfWhole (rest.takeWhile Char.isDigit).length (rest.dropWhile Char.isDigit) := by
  have hpos : 1 ≤ reach Char.isDigit none rest := length_digits_pos hdigit
  have hwhole : (e.stopped (Text.passed (reach Char.isDigit none rest) before rest)
      (rest.drop (reach Char.isDigit none rest))) =
      decimalOfWhole 0 (rest.dropWhile Char.isDigit) := by
    change e.stopped (Text.passed (rest.takeWhile Char.isDigit).length before rest)
      (rest.drop (rest.takeWhile Char.isDigit).length) = _
    rw [Text.drop_length_takeWhile]
    exact h.behind _ _ (any_head?_passed hpos (Nat.le_refl _)) (Text.any_head?_dropWhile _ _)
  rw [stopped_seq, digits, first_many_greedy hpos, hwhole, ← decimalOfWhole_eq_map]
  · rfl
  -- Where all the digits fail, what follows is a word, and fewer digits end inside a word too.
  · rw [hwhole]
    intro hnone n hleast hn
    rw [h.within (Text.passed n before rest) (rest.drop n), Option.map_none]
    · exact any_head?_passed hleast (Nat.le_of_lt hn)
    · exact Text.any_head?_drop hn
    · rw [Text.dropWhile_drop (Nat.le_of_lt hn)]
      exact Option.map_eq_none_iff.mp hnone

theorem preferred_decimalWith {e : Regex} (h : Completes e) :
    (decimalWith e).preferred = decimal := by
  funext before rest
  rw [decimalWith, preferred_bounded, stopped_alt]
  by_cases hpoint : ∃ tail, rest = '.' :: tail
  · obtain ⟨tail, rfl⟩ := hpoint
    have hnone : ((digits 1).seq e).stopped before ('.' :: tail) = none := by
      rw [stopped_seq]
      exact first_many_of_lt Nat.one_pos
    rw [hnone, Option.or_none, point_seq_stopped, digits, many_one_stopped (fun _ => isWord_of_isDigit),
      decimal_point]
    by_cases hdigit : tail.head?.any Char.isDigit = true
    · have hpos := length_digits_pos hdigit
      have hempty : (tail.takeWhile Char.isDigit).isEmpty = false :=
        List.isEmpty_eq_false_iff.mpr (List.ne_nil_of_length_pos hpos)
      rw [if_pos hpos, stop_whole (fun _ => isWord_of_isDigit) _ hpos, hempty]
      cases before.head?.any isWord <;> cases (tail.dropWhile Char.isDigit).head?.any isWord <;>
        simp [Nat.add_comm, isWord]
    · rw [Text.takeWhile_eq_nil (Bool.eq_false_iff.mpr hdigit)]
      simp
  · have hne := not_exists.mp hpoint
    rw [point_seq_stopped_of_ne hne, Option.none_or, decimal_whole hne]
    by_cases hdigit : rest.head?.any Char.isDigit = true
    · have hpos := length_digits_pos hdigit
      have hempty : (rest.takeWhile Char.isDigit).isEmpty = false :=
        List.isEmpty_eq_false_iff.mpr (List.ne_nil_of_length_pos hpos)
      rw [any_isWord (fun _ => isWord_of_isDigit) hdigit, hempty, h.whole_stopped hdigit]
      cases before.head?.any isWord <;> rfl
    · have hnil := Text.takeWhile_eq_nil (Bool.eq_false_iff.mpr hdigit)
      have hreach : reach Char.isDigit none rest < 1 := by
        rw [reach, hnil]
        exact Nat.one_pos
      rw [stopped_seq, digits, first_many_of_lt hreach, hnil]
      simp

theorem yields_decimalWith_iff {e : Regex} (h : Completes e) {text : List Char}
    {found : List Extent} :
    ((decimalWith e).search text).Yields found ↔ found = decimals text := by
  rw [yields_search_iff, preferred_decimalWith h, decimals]
  · rw [preferred_decimalWith h]
    exact decimal_fits
  · rw [preferred_decimalWith h]
    exact fun _ _ _ => decimal_pos

/-- The decimals of a text are what a search finds for the expression whose fraction is optional as
a whole, and what one finds for the expression whose point and digits are optional apart. -/
theorem decimals_of_search (text : List Char) :
    (∀ found, ((decimalWith fraction).search text).Yields found ↔ found = decimals text) ∧
    ∀ found, ((decimalWith looseFraction).search text).Yields found ↔ found = decimals text :=
  ⟨fun _ => yields_decimalWith_iff completes_fraction,
    fun _ => yields_decimalWith_iff completes_looseFraction⟩

-- What is left of a fraction that runs into a word.
example : decimals "12.5x 1.2.3".toList = [⟨0, 3⟩, ⟨6, 9⟩, ⟨9, 11⟩] := by decide

end Pattern

end RuleHighlight
