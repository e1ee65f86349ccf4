import Mathlib.Tactic.SplitIfs
import RuleHighlight.Proofs.Search

/-!
Regular expressions under a backtracking search. At a place, an expression matches in several
widths, and these are tried in a fixed order: of two alternatives the first one goes first, and a
repetition takes as much as it can and then less. The preferred match is the first one that lets
all that follows match as well. The search sees the preferred matches of a text; it goes on from
the end of what it has found.

All repetitions are of single characters, and no expression that is searched for matches the empty
text.
-/

namespace RuleHighlight

open CharClass

namespace Text

def passed (n : Nat) (before rest : List Char) : List Char := (rest.take n).reverse ++ before

@[simp]
theorem passed_zero (before rest : List Char) : passed 0 before rest = before := rfl

theorem passed_add (n m : Nat) (before rest : List Char) :
    passed (n + m) before rest = passed m (passed n before rest) (rest.drop n) := by
  rw [passed, passed, passed, List.take_add, List.reverse_append, List.append_assoc]

theorem head?_passed {n : Nat} {rest : List Char} (h : n < rest.length) (before : List Char) :
    (passed (n + 1) before rest).head? = rest[n]? := by
  rw [passed, List.head?_append, List.head?_reverse, List.getLast?_take]
  simp [h]

end Text

inductive Regex
  | look (test : Option Char → Option Char → Bool)
  | many (p : Char → Bool) (least : Nat) (most : Option Nat)
  | seq (first second : Regex)
  | alt (first second : Regex)

namespace Regex

def reach (p : Char → Bool) (most : Option Nat) (rest : List Char) : Nat :=
  most.elim (rest.takeWhile p).length (min (rest.takeWhile p).length)

/-- The widths of the matches at a place, in the order in which they are tried. -/
def widths : Regex → List Char → List Char → List Nat
  | .look test, before, rest => if test before.head? rest.head? then [0] else []
  | .many p least most, _, rest =>
    (List.range (reach p most rest + 1)).reverse.filter (least ≤ ·)
  | .seq a b, before, rest =>
    (a.widths before rest).flatMap fun n =>
      (b.widths (Text.passed n before rest) (rest.drop n)).map (n + ·)
  | .alt a b, before, rest => a.widths before rest ++ b.widths before rest

def preferred (e : Regex) : Recogniser Nat := fun before rest => (e.widths before rest).head?

def search (e : Regex) (text : List Char) : Search Extent :=
  .recognised e.preferred (fun i n => ⟨i, i + n⟩) Extent.start Extent.stop text

theorem yields_search_iff {e : Regex} (hfits : e.preferred.Fits id)
    (hpos : ∀ before rest n, e.preferred before rest = some n → 0 < n) {text : List Char}
    {found : List Extent} :
    (e.search text).Yields found ↔ found = Occurrence.extents e.preferred text :=
  Search.yields_recognised_iff (fun _ _ => rfl) (fun _ _ => rfl) hfits hpos

def empty : Regex := .look fun _ _ => true

def never : Regex := .look fun _ _ => false

def boundary : Regex := .look fun b c => b.any isWord != c.any isWord

def one (p : Char → Bool) : Regex := .many p 1 (some 1)

def letter (c : Char) : Regex := one (· == c)

def literal : List Char → Regex
  | [] => empty
  | c :: cs => (letter c).seq (literal cs)

def alternatives : List Regex → Regex
  | [] => never
  | e :: es => e.alt (alternatives es)

def first {α : Type} (e : Regex) (before rest : List Char) (f : Nat → Option α) : Option α :=
  (e.widths before rest).findSome? f

section First

variable {α : Type} {before rest : List Char} {f : Nat → Option α}

theorem findSome?_flatMap {β γ : Type} (xs : List β) (g : β → List γ) (f : γ → Option α) :
    (xs.flatMap g).findSome? f = xs.findSome? (fun x => (g x).findSome? f) := by
  induction xs with
  | nil => rfl
  | cons x xs ih =>
    rw [List.flatMap_cons, List.findSome?_append, ih, List.findSome?_cons]
    cases (g x).findSome? f <;> rfl

theorem findSome?_eq_of_mem {xs : List Nat} {a : Nat} (ha : a ∈ xs)
    (h : ∀ x ∈ xs, x ≠ a → f x = none) : xs.findSome? f = f a := by
  induction xs with
  | nil => cases ha
  | cons x xs ih =>
    rw [List.findSome?_cons]
    by_cases hx : x = a
    · subst hx
      cases hf : f x with
      | some _ => rfl
      | none =>
        rw [List.findSome?_eq_none_iff]
        intro y hy
        by_cases hyx : y = x
        · rw [hyx, hf]
        · exact h y (List.mem_cons_of_mem x hy) hyx
    · rw [h x List.mem_cons_self hx]
      have ha : a ∈ xs := (List.mem_cons.mp ha).resolve_left fun heq => hx heq.symm
      exact ih ha fun y hy => h y (List.mem_cons_of_mem x hy)

theorem preferred_eq (e : Regex) (before rest : List Char) :
    e.preferred before rest = e.first before rest some := by
  rw [preferred, first]
  cases e.widths before rest <;> rfl

@[simp]
theorem first_look (test : Option Char → Option Char → Bool) :
    (look test).first before rest f = if test before.head? rest.head? then f 0 else none := by
  rw [first, widths]
  split_ifs <;> simp

@[simp]
theorem first_seq (a b : Regex) :
    (a.seq b).first before rest f =
      a.first before rest fun n =>
        b.first (Text.passed n before rest) (rest.drop n) fun m => f (n + m) := by
  simp only [first, widths, findSome?_flatMap, List.findSome?_map, Function.comp_def]

@[simp]
theorem first_alt (a b : Regex) :
    (a.alt b).first before rest f = (a.first before rest f).or (b.first before rest f) :=
  List.findSome?_append

@[simp]
theorem first_one (p : Char → Bool) :
    (one p).first before rest f = if rest.head?.any p then f 1 else none := by
  rw [first, one, widths, reach]
  cases rest with
  | nil => rfl
  | cons c rest =>
    cases hc : p c with
    | false => simp [hc]
    | true =>
      simp [hc, List.range_succ]

@[simp]
theorem mem_widths_many {p : Char → Bool} {least : Nat} {most : Option Nat} {n : Nat} :
    n ∈ (many p least most).widths before rest ↔ least ≤ n ∧ n ≤ reach p most rest := by
  rw [widths, List.mem_filter, List.mem_reverse, List.mem_range, decide_eq_true_eq,
    Nat.lt_succ_iff, and_comm]

theorem widths_many {p : Char → Bool} {least : Nat} {most : Option Nat}
    (h : least ≤ reach p most rest) :
    (many p least most).widths before rest =
      reach p most rest :: ((List.range (reach p most rest)).reverse.filter (least ≤ ·)) := by
  rw [widths, List.range_succ, List.reverse_append]
  simp [h]

theorem first_many_whole {p : Char → Bool} {least : Nat} {most : Option Nat}
    (h : ∀ n, least ≤ n → n < (rest.takeWhile p).length → f n = none) :
    (many p least most).first before rest f =
      if least ≤ (rest.takeWhile p).length ∧ most.all ((rest.takeWhile p).length ≤ ·) then
        f (rest.takeWhile p).length
      else none := by
  have hreach : reach p most rest ≤ (rest.takeWhile p).length := by
    cases most with
    | none => exact Nat.le_refl _
    | some most => exact Nat.min_le_left _ _
  split_ifs with hall
  · have heq : reach p most rest = (rest.takeWhile p).length := by
      cases most with
      | none => rfl
      | some most => exact Nat.min_eq_left (of_decide_eq_true hall.2)
    rw [first]
    apply findSome?_eq_of_mem (mem_widths_many.mpr ⟨hall.1, Nat.le_of_eq heq.symm⟩)
    intro n hn hne
    obtain ⟨hleast, hle⟩ := mem_widths_many.mp hn
    exact h n hleast (by omega)
  · rw [first, List.findSome?_eq_none_iff]
    intro n hn
    obtain ⟨hleast, hle⟩ := mem_widths_many.mp hn
    apply h n hleast
    by_contra hover
    refine hall ⟨by omega, ?_⟩
    cases most with
    | none => rfl
    | some most =>
      apply decide_eq_true
      have hcap : reach p (some most) rest ≤ most := Nat.min_le_right _ _
      omega

theorem first_many_of_lt {p : Char → Bool} {least : Nat} {most : Option Nat}
    (h : reach p most rest < least) : (many p least most).first before rest f = none := by
  rw [first, List.findSome?_eq_none_iff]
  intro n hn
  have hle := mem_widths_many.mp hn
  omega

theorem first_many_greedy {p : Char → Bool} {least : Nat} {most : Option Nat}
    (hle : least ≤ reach p most rest)
    (h : f (reach p most rest) = none → ∀ n, least ≤ n → n < reach p most rest → f n = none) :
    (many p least most).first before rest f = f (reach p most rest) := by
  rw [first, widths_many hle, List.findSome?_cons]
  cases hf : f (reach p most rest) with
  | some a => rfl
  | none =>
    rw [List.findSome?_eq_none_iff]
    intro n hn
    rw [List.mem_filter, List.mem_reverse, List.mem_range, decide_eq_true_eq] at hn
    exact h hf n hn.2 hn.1

theorem first_many_ends {p : Char → Bool} {least : Nat} {most : Option Nat}
    (hle : least ≤ reach p most rest)
    (h : ∀ n, least < n → n < reach p most rest → f n = none) :
    (many p least most).first before rest f = (f (reach p most rest)).or (f least) := by
  cases hf : f (reach p most rest) with
  | some a =>
    rw [first, widths_many hle, List.findSome?_cons, hf]
    rfl
  | none =>
    rw [first, Option.none_or]
    apply findSome?_eq_of_mem (mem_widths_many.mpr ⟨Nat.le_refl _, hle⟩)
    intro n hn hne
    obtain ⟨hleast, hreach⟩ := mem_widths_many.mp hn
    rcases Nat.lt_or_eq_of_le hreach with hlt | rfl
    · exact h n (by omega) hlt
    · exact hf

@[simp]
theorem first_literal (cs : List Char) : (literal cs).first before rest f =
    if cs.isPrefixOf rest then f cs.length else none := by
  induction cs generalizing before rest f with
  | nil => exact first_look _
  | cons c cs ih =>
    rw [literal, first_seq, letter, first_one]
    cases rest with
    | nil => rfl
    | cons d rest =>
      rw [ih, List.isPrefixOf_cons_cons, List.head?_cons, Option.any_some, List.drop_succ_cons,
        List.drop_zero, List.length_cons, Nat.add_comm 1]
      by_cases hd : d = c
      · subst hd
        simp
      · have hc : c ≠ d := fun h => hd h.symm
        simp [hd, hc]

theorem first_map {β : Type} (e : Regex) (g : α → β) :
    e.first before rest (fun n => (f n).map g) = (e.first before rest f).map g := by
  rw [first, first]
  induction e.widths before rest with
  | nil => rfl
  | cons n ns ih =>
    rw [List.findSome?_cons, List.findSome?_cons, ih]
    cases f n <;> rfl

end First

def rows : List Regex → List Char → List Char → List (List Nat)
  | [], _, _ => [[]]
  | e :: es, before, rest =>
    (e.widths before rest).flatMap fun n =>
      (rows es (Text.passed n before rest) (rest.drop n)).map (n :: ·)

def row (es : List Regex) : Recogniser (List Nat) := fun before rest => (rows es before rest).head?

def total (ws : List Nat) : Nat := ws.foldr (· + ·) 0

def rowSearch (es : List Regex) (text : List Char) : Search (Nat × List Nat) :=
  .recognised (row es) Prod.mk Prod.fst (fun x => x.1 + total x.2) text

def part (n : Nat) (x : Nat × List Nat) : Extent :=
  ⟨x.1 + total (x.2.take n), x.1 + total (x.2.take (n + 1))⟩

section Rows

variable {α : Type} {before rest : List Char}

theorem yields_rowSearch_iff {es : List Regex} (hfits : (row es).Fits total)
    (hpos : ∀ before rest ws, row es before rest = some ws → 0 < total ws) {text : List Char}
    {found : List (Nat × List Nat)} :
    (rowSearch es text).Yields found ↔ found = Occurrence.all (row es) total text := by
  rw [rowSearch, Search.yields_recognised_iff (fun _ _ => rfl) (fun _ _ => rfl) hfits hpos]
  exact iff_of_eq (congrArg _ (List.map_id _))

@[simp]
theorem findSome?_rows_nil (f : List Nat → Option α) :
    (rows [] before rest).findSome? f = f [] := by
  rw [rows, List.findSome?_singleton]

@[simp]
theorem findSome?_rows_cons (e : Regex) (es : List Regex) (f : List Nat → Option α) :
    (rows (e :: es) before rest).findSome? f =
      e.first before rest fun n =>
        (rows es (Text.passed n before rest) (rest.drop n)).findSome? fun ws => f (n :: ws) := by
  simp only [first, rows, findSome?_flatMap, List.findSome?_map, Function.comp_def]

theorem row_eq (es : List Regex) (before rest : List Char) :
    row es before rest = (rows es before rest).findSome? some := by
  rw [row]
  cases rows es before rest <;> rfl

end Rows

def bounded (body : Regex) : Regex := boundary.seq (body.seq boundary)

def stop (before rest : List Char) (n : Nat) : Option Nat :=
  if (Text.passed n before rest).head?.any isWord != (rest.drop n).head?.any isWord then some n
  else none

def stopped (e : Regex) : Recogniser Nat := fun before rest => e.first before rest (stop before rest)

section Stopped

variable {before rest : List Char}

theorem preferred_bounded (body : Regex) : (bounded body).preferred before rest =
    if before.head?.any isWord != rest.head?.any isWord then body.stopped before rest
    else none := by
  simp only [preferred_eq, bounded, first_seq, boundary, first_look, Text.passed_zero,
    List.drop_zero, Nat.zero_add, Nat.add_zero]
  rfl

theorem stop_succ {n : Nat} (h : n < rest.length) : stop before rest (n + 1) =
    if rest[n]?.any isWord != rest[n + 1]?.any isWord then some (n + 1) else none := by
  rw [stop, Text.head?_passed h, List.head?_drop]

theorem stop_add (n m : Nat) : stop before rest (n + m) =
    (stop (Text.passed n before rest) (rest.drop n) m).map (n + ·) := by
  rw [stop, stop, Text.passed_add, List.drop_drop]
  split_ifs <;> rfl

theorem stopped_seq (a b : Regex) : (a.seq b).stopped before rest =
    a.first before rest fun n =>
      (b.stopped (Text.passed n before rest) (rest.drop n)).map (n + ·) := by
  simp only [stopped, first_seq, stop_add, first_map]

@[simp]
theorem stopped_alt (a b : Regex) : (a.alt b).stopped before rest =
    (a.stopped before rest).or (b.stopped before rest) := first_alt a b

@[simp]
theorem stopped_empty : empty.stopped before rest = stop before rest 0 := first_look _

theorem stop_zero (before rest : List Char) : stop before rest 0 =
    if before.head?.any isWord != rest.head?.any isWord then some 0 else none := rfl

end Stopped

section Repeated

variable {p : Char → Bool} (hp : ∀ c, p c = true → isWord c = true) {before rest : List Char}

include hp

theorem any_isWord {b : Option Char} (h : b.any p = true) : b.any isWord = true := by
  cases b with
  | none => cases h
  | some c => exact hp c h

theorem any_isWord_of_lt {n : Nat} (h : n < (rest.takeWhile p).length) :
    rest[n]?.any isWord = true := any_isWord hp (Text.any_getElem?_of_lt h)

theorem stop_inside {n : Nat} (h : n + 1 < (rest.takeWhile p).length) :
    stop before rest (n + 1) = none := by
  have hlength := (List.takeWhile_prefix p (l := rest)).length_le
  rw [stop_succ (by omega), any_isWord_of_lt hp h, any_isWord_of_lt hp (by omega)]
  rfl

theorem stop_whole (before : List Char) (h : 0 < (rest.takeWhile p).length) :
    stop before rest (rest.takeWhile p).length =
      if (rest.dropWhile p).head?.any isWord then none
      else some (rest.takeWhile p).length := by
  have hlength := (List.takeWhile_prefix p (l := rest)).length_le
  obtain ⟨n, hn⟩ := Nat.exists_eq_add_of_le' h
  have hlast : rest[n]?.any isWord = true := any_isWord_of_lt hp (by omega)
  have hnext := Text.getElem?_length_takeWhile p rest
  rw [hn] at hnext ⊢
  rw [stop_succ (by omega), hlast, hnext]
  cases (rest.dropWhile p).head?.any isWord <;> rfl

theorem many_one_stopped : (many p 1 none).stopped before rest =
    if 0 < (rest.takeWhile p).length then stop before rest (rest.takeWhile p).length
    else none := by
  rw [stopped, first_many_whole]
  · simp [Nat.one_le_iff_ne_zero, Nat.pos_iff_ne_zero]
  · intro n hleast hn
    obtain ⟨m, rfl⟩ := Nat.exists_eq_add_of_le' hleast
    exact stop_inside hp hn

end Repeated

end Regex

end RuleHighlight
