import Mathlib.Data.List.Infix
import Mathlib.Data.Nat.Find
import Mathlib.Order.Bounds.Basic
import RuleHighlight.Proofs.Pattern.CommentSearch
import RuleHighlight.Proofs.Pattern.Splitting
import RuleHighlight.Proofs.Regex

/-!
Patterns that are found line by line. A text has one splitting into lines at its line ends, where a
carriage return with a line feed behind it is one end. What can be cut at every line end is found
in each line by itself. Line comments and directives are of this kind, and a line without line ends
has at most one of each.
-/

namespace RuleHighlight

open CharClass

structure Line where
  start : Nat
  chars : List Char
  deriving DecidableEq, Repr

namespace Line

def stop (l : Line) : Nat := l.start + l.chars.length

def extent (l : Line) : Extent := ⟨l.start, l.stop⟩

end Line

namespace Text

inductive EndsLine : List Char → List Char → Prop
  | lineFeed (rest : List Char) : EndsLine ['\n'] rest
  | carriageReturn {rest : List Char} (hrest : rest.head? ≠ some '\n') : EndsLine ['\r'] rest
  | both (rest : List Char) : EndsLine ['\r', '\n'] rest

inductive SplitsInto : Nat → List Char → List Line → Prop
  | last {i : Nat} {chars : List Char} (hchars : ∀ c ∈ chars, isLineEnd c = false) :
    SplitsInto i chars [⟨i, chars⟩]
  | line {i : Nat} {chars ending rest : List Char} {ls : List Line}
      (hchars : ∀ c ∈ chars, isLineEnd c = false) (hending : EndsLine ending rest)
      (hrest : SplitsInto (i + (chars.length + ending.length)) rest ls) :
    SplitsInto i (chars ++ (ending ++ rest)) (⟨i, chars⟩ :: ls)

def linesFrom (i : Nat) : List Char → List Char → List Line
  | passed, [] => [⟨i, passed.reverse⟩]
  | passed, '\r' :: '\n' :: rest =>
    ⟨i, passed.reverse⟩ :: linesFrom (i + (passed.length + 2)) [] rest
  | passed, c :: rest =>
    if isLineEnd c then ⟨i, passed.reverse⟩ :: linesFrom (i + (passed.length + 1)) [] rest
    else linesFrom i (c :: passed) rest

def lines (text : List Char) : List Line := linesFrom 0 [] text

theorem linesFrom_append {chars : List Char} (hchars : ∀ c ∈ chars, isLineEnd c = false)
    (i : Nat) (passed rest : List Char) :
    linesFrom i passed (chars ++ rest) = linesFrom i (chars.reverse ++ passed) rest := by
  induction chars generalizing passed with
  | nil => rfl
  | cons c chars ih =>
    obtain ⟨hc, hchars⟩ := List.forall_mem_cons.mp hchars
    have hne : c ≠ '\r' := by
      rintro rfl
      cases hc
    rw [List.cons_append, linesFrom, if_neg (by simp [hc]), ih hchars]
    · simp
    · exact fun _ h _ => hne h

theorem linesFrom_ending {ending rest : List Char} (h : EndsLine ending rest) (i : Nat)
    (passed : List Char) : linesFrom i passed (ending ++ rest) =
      ⟨i, passed.reverse⟩ :: linesFrom (i + (passed.length + ending.length)) [] rest := by
  cases h with
  | lineFeed => rfl
  | both => rfl
  | carriageReturn hrest =>
    rw [List.singleton_append, linesFrom, if_pos (by rfl)]
    · rfl
    · rintro rest' - rfl
      exact hrest rfl

theorem SplitsInto.eq_linesFrom {i : Nat} {text : List Char} {ls : List Line}
    (h : SplitsInto i text ls) : ls = linesFrom i [] text := by
  induction h with
  | @last i chars hchars =>
    have happend := linesFrom_append hchars i [] []
    rw [List.append_nil, List.append_nil] at happend
    rw [happend, linesFrom, List.reverse_reverse]
  | line hchars hending hrest ih =>
    rw [linesFrom_append hchars, linesFrom_ending hending, List.append_nil, List.reverse_reverse,
      List.length_reverse, ← ih]

theorem EndsLine.splitsInto {ending rest passed : List Char} {ls : List Line}
    (h : EndsLine ending rest) (hpassed : ∀ c ∈ passed, isLineEnd c = false) {i : Nat}
    (hrest : SplitsInto (i + (passed.length + ending.length)) rest ls) :
    SplitsInto i (passed.reverse ++ (ending ++ rest)) (⟨i, passed.reverse⟩ :: ls) := by
  have hlength : passed.reverse.length = passed.length := List.length_reverse
  rw [← hlength] at hrest
  exact .line (fun c hc => hpassed c (List.mem_reverse.mp hc)) h hrest

theorem splitsInto_linesFrom {passed : List Char} (hpassed : ∀ c ∈ passed, isLineEnd c = false)
    (i : Nat) (rest : List Char) :
    SplitsInto i (passed.reverse ++ rest) (linesFrom i passed rest) := by
  fun_induction linesFrom i passed rest with
  | case1 i passed =>
    rw [List.append_nil]
    exact .last fun c hc => hpassed c (List.mem_reverse.mp hc)
  | case2 i passed rest ih =>
    exact (EndsLine.both rest).splitsInto hpassed (ih fun _ hc => absurd hc List.not_mem_nil)
  | case3 i passed c rest hne hc ih =>
    have hending : EndsLine [c] rest := by
      rcases isLineEnd_iff.mp hc with rfl | rfl
      · exact .lineFeed rest
      · refine .carriageReturn fun hhead => ?_
        obtain ⟨rest', rfl⟩ := List.head?_eq_some_iff.mp hhead
        exact hne rest' rfl rfl
    exact hending.splitsInto hpassed (ih fun _ hc => absurd hc List.not_mem_nil)
  | case4 i passed c rest hne hc ih =>
    rw [← List.singleton_append, ← List.append_assoc, ← List.reverse_cons]
    exact ih (List.forall_mem_cons.mpr ⟨Bool.eq_false_iff.mpr hc, hpassed⟩)

theorem splitsInto_iff {text : List Char} {ls : List Line} :
    SplitsInto 0 text ls ↔ ls = lines text := by
  refine ⟨SplitsInto.eq_linesFrom, ?_⟩
  rintro rfl
  exact splitsInto_linesFrom (fun _ hc => absurd hc List.not_mem_nil) 0 text

theorem SplitsInto.chars_eq_false {i : Nat} {text : List Char} {ls : List Line}
    (h : SplitsInto i text ls) : ∀ l ∈ ls, ∀ c ∈ l.chars, isLineEnd c = false := by
  induction h with
  | last hchars => exact List.forall_mem_singleton.mpr hchars
  | line hchars _ _ ih => exact List.forall_mem_cons.mpr ⟨hchars, ih⟩

theorem isInfix_iff_hasAt {text marker : List Char} :
    marker <:+: text ↔ ∃ i, HasAt text marker i := by
  simp only [hasAt_iff]
  constructor
  · rintro ⟨front, back, rfl⟩
    exact ⟨front.length, back, by rw [List.append_assoc, List.drop_left]⟩
  · rintro ⟨i, hi⟩
    exact hi.isInfix.trans (List.drop_suffix i text).isInfix

end Text

@[simp]
theorem Extent.shift_comp_shift (d d' : Nat) :
    Extent.shift d ∘ Extent.shift d' = Extent.shift (d' + d) := by
  funext e
  simp only [Function.comp, Extent.shift, Nat.add_assoc]

structure LineLocal (f : List Char → List Extent) : Prop where
  nil : f [] = []
  splitsAt : ∀ front c back, isLineEnd c = true → SplitsAt front c back f

namespace LineLocal

open Text

variable {f : List Char → List Extent}

theorem append_ending (hf : LineLocal f) {ending rest : List Char} (h : EndsLine ending rest)
    (front : List Char) : f (front ++ (ending ++ rest)) =
      f front ++ (f rest).map (Extent.shift (front.length + ending.length)) := by
  cases h with
  | lineFeed => exact hf.splitsAt front '\n' rest rfl
  | carriageReturn => exact hf.splitsAt front '\r' rest rfl
  | both =>
    -- The line between the two characters is empty.
    have hfirst := hf.splitsAt front '\r' ('\n' :: rest) rfl
    have hsecond := hf.splitsAt [] '\n' rest rfl
    rw [SplitsAt, List.nil_append, hf.nil, List.nil_append, List.length_nil, Nat.zero_add] at hsecond
    rw [SplitsAt, hsecond, List.map_map, Extent.shift_comp_shift, Nat.add_left_comm] at hfirst
    exact hfirst

theorem map_shift_eq (hf : LineLocal f) {i : Nat} {text : List Char} {ls : List Line}
    (h : SplitsInto i text ls) : (f text).map (Extent.shift i) =
      ls.flatMap fun l => (f l.chars).map (Extent.shift l.start) := by
  induction h with
  | last => rw [List.flatMap_singleton]
  | line _ hending _ ih =>
    rw [hf.append_ending hending, List.map_append, List.map_map, Extent.shift_comp_shift,
      Nat.add_comm, ih, List.flatMap_cons]

theorem eq_flatMap_lines (hf : LineLocal f) (text : List Char) :
    f text = (lines text).flatMap fun l => (f l.chars).map (Extent.shift l.start) := by
  rw [← hf.map_shift_eq (splitsInto_iff.mpr rfl)]
  exact (List.map_id _).symm

end LineLocal

theorem forall₂_filter_flatMap {α β : Type} {R : α → β → Prop} {p : α → Bool} {g : α → List β}
    {xs : List α} (hone : ∀ x ∈ xs, p x = true → ∃ y, g x = [y] ∧ R x y)
    (hnone : ∀ x ∈ xs, p x = false → g x = []) :
    List.Forall₂ R (xs.filter p) (xs.flatMap g) := by
  induction xs with
  | nil => exact .nil
  | cons x xs ih =>
    obtain ⟨hone', hone⟩ := List.forall_mem_cons.mp hone
    obtain ⟨hnone', hnone⟩ := List.forall_mem_cons.mp hnone
    rw [List.flatMap_cons]
    cases hp : p x with
    | false =>
      rw [List.filter_cons_of_neg (by simp [hp]), hnone' hp]
      exact ih hone hnone
    | true =>
      obtain ⟨y, hy, hR⟩ := hone' hp
      rw [List.filter_cons_of_pos hp, hy]
      exact .cons hR (ih hone hnone)

namespace Occurrence

variable {r : Recogniser Nat} {text : List Char}

theorem extents_eq_singleton (hfits : r.Fits id)
    (hpos : ∀ before rest n, r before rest = some n → 0 < n) {i n : Nat}
    (hr : r (text.take i).reverse (text.drop i) = some n)
    (hall : ∀ j m, r (text.take j).reverse (text.drop j) = some m → i ≤ j ∧ j < i + n) :
    extents r text = [⟨i, i + n⟩] := by
  have hstart (i n : Nat) : Extent.start ⟨i, i + n⟩ = i := rfl
  have hstop (i n : Nat) : Extent.stop ⟨i, i + n⟩ = i + id n := rfl
  refine (Search.recognised_decomposes hstart hstop hfits hpos text).unique
    (Search.recognised_within hstart hstop hfits hpos text) ⟨?_, List.pairwise_singleton _ _, ?_⟩
  · exact List.forall_mem_singleton.mpr ⟨i, n, hr, rfl⟩
  · rintro _ ⟨j, m, hm, rfl⟩
    exact ⟨_, List.mem_singleton_self _, hall j m hm⟩

theorem extents_eq_nil (hnone : ∀ i n, r (text.take i).reverse (text.drop i) ≠ some n) :
    extents r text = [] := by
  rw [extents, List.map_eq_nil_iff, List.eq_nil_iff_forall_not_mem]
  rintro ⟨i, n⟩ hx
  exact hnone i n (recognise_of_mem_all hx)

end Occurrence

namespace Pattern

open Text

theorem lineComment_pos {before rest : List Char} {n : Nat}
    (h : lineComment before rest = some n) : 0 < n := by
  obtain ⟨body, -, rfl⟩ := (lineComment_opens before rest n).mp h
  exact Nat.succ_pos _

theorem directive_pos {before rest : List Char} {n : Nat}
    (h : directive before rest = some n) : 0 < n := by
  obtain ⟨body, -, -, rfl⟩ := (directive_opens before rest n).mp h
  exact Nat.succ_pos _

section Line

variable {chars : List Char} (hchars : ∀ c ∈ chars, isLineEnd c = false)

include hchars

theorem lineWidth_of_line : lineWidth chars = chars.length := by
  rw [lineWidth, List.takeWhile_eq_self_iff.mpr]
  intro c hc
  rw [hchars c hc]
  rfl

theorem lineWidth_of_drop {i : Nat} {passed body : List Char}
    (hdrop : chars.drop i = passed ++ body) :
    lineWidth body + passed.length = chars.length - i := by
  have hbody : ∀ c ∈ body, isLineEnd c = false := by
    intro c hc
    refine hchars c (List.mem_of_mem_drop (i := i) ?_)
    rw [hdrop]
    exact List.mem_append_right _ hc
  rw [lineWidth_of_line hbody, ← List.length_drop, hdrop, List.length_append, Nat.add_comm]

theorem lineComment_drop_iff {before : List Char} {i n : Nat} :
    lineComment before (chars.drop i) = some n ↔
      HasAt chars ['/', '/'] i ∧ n = chars.length - i := by
  rw [lineComment_opens, hasAt_iff]
  constructor
  · rintro ⟨body, hdrop, rfl⟩
    exact ⟨⟨body, hdrop.symm⟩, lineWidth_of_drop hchars hdrop⟩
  · rintro ⟨⟨body, hdrop⟩, rfl⟩
    exact ⟨body, hdrop.symm, (lineWidth_of_drop hchars hdrop.symm).symm⟩

theorem directive_drop_iff {i n : Nat} :
    directive (chars.take i).reverse (chars.drop i) = some n ↔
      i = 0 ∧ chars.head? = some '#' ∧ n = chars.length := by
  rw [directive_opens]
  constructor
  · rintro ⟨body, hdrop, hbefore, rfl⟩
    have hfirst : (chars.take i).reverse = [] := by
      by_contra hne
      obtain ⟨c, passed, hpassed⟩ := List.exists_cons_of_ne_nil hne
      have hmem : c ∈ chars.take i := List.mem_reverse.mp (hpassed ▸ List.mem_cons_self)
      rw [hpassed, List.head?_cons, Option.all_some, hchars c (List.mem_of_mem_take hmem)] at hbefore
      cases hbefore
    rw [List.reverse_eq_nil_iff, List.take_eq_nil_iff] at hfirst
    have hne : chars ≠ [] := by
      rintro rfl
      simp at hdrop
    obtain rfl := hfirst.resolve_right hne
    refine ⟨rfl, ?_, lineWidth_of_drop hchars hdrop⟩
    rw [List.drop_zero] at hdrop
    rw [hdrop]
    rfl
  · rintro ⟨rfl, hhead, rfl⟩
    obtain ⟨body, hbody⟩ := List.head?_eq_some_iff.mp hhead
    have hdrop : chars.drop 0 = ['#'] ++ body := hbody
    exact ⟨body, hdrop, rfl, (lineWidth_of_drop hchars hdrop).symm⟩

theorem lineComments_of_line {i : Nat} (hi : IsLeast {i | HasAt chars ['/', '/'] i} i) :
    lineComments chars = [⟨i, chars.length⟩] := by
  have hr : lineComment (chars.take i).reverse (chars.drop i) = some (chars.length - i) :=
    (lineComment_drop_iff hchars).mpr ⟨hi.1, rfl⟩
  have hlt := lineComment_pos hr
  have hall : ∀ j m, lineComment (chars.take j).reverse (chars.drop j) = some m →
      i ≤ j ∧ j < i + (chars.length - i) := by
    intro j m hm
    have hpos := lineComment_pos hm
    obtain ⟨hat, rfl⟩ := (lineComment_drop_iff hchars).mp hm
    exact ⟨hi.2 hat, by omega⟩
  have hone := Occurrence.extents_eq_singleton lineComment_fits (fun _ _ _ => lineComment_pos) hr hall
  rwa [Nat.add_sub_cancel' (by omega)] at hone

theorem lineComments_of_line_ne (hnone : ∀ i, ¬ HasAt chars ['/', '/'] i) :
    lineComments chars = [] :=
  Occurrence.extents_eq_nil fun i _ hr => hnone i ((lineComment_drop_iff hchars).mp hr).1

theorem directives_of_line (hhead : chars.head? = some '#') :
    directives chars = [⟨0, chars.length⟩] := by
  have hpos : 0 < chars.length := by
    cases chars with
    | nil => cases hhead
    | cons => exact Nat.succ_pos _
  have hall : ∀ j m, directive (chars.take j).reverse (chars.drop j) = some m →
      0 ≤ j ∧ j < 0 + chars.length := by
    intro j m hm
    obtain ⟨rfl, -, -⟩ := (directive_drop_iff hchars).mp hm
    exact ⟨Nat.le_refl 0, by rwa [Nat.zero_add]⟩
  have hone := Occurrence.extents_eq_singleton directive_fits (fun _ _ _ => directive_pos)
    ((directive_drop_iff hchars).mpr ⟨rfl, hhead, rfl⟩) hall
  rwa [Nat.zero_add] at hone

theorem directives_of_line_ne (hhead : chars.head? ≠ some '#') : directives chars = [] :=
  Occurrence.extents_eq_nil fun _ _ hr => hhead ((directive_drop_iff hchars).mp hr).2.1

end Line

theorem lineComments_lineLocal : LineLocal lineComments :=
  ⟨rfl, fun _ _ _ => lineComments_splitsAt⟩

theorem directives_lineLocal : LineLocal directives := ⟨rfl, fun _ _ _ => directives_splitsAt⟩

theorem isLineEnd_of_mem_lines {text : List Char} {l : Line} (hl : l ∈ lines text) :
    ∀ c ∈ l.chars, isLineEnd c = false := (splitsInto_iff.mpr rfl).chars_eq_false l hl

def IsCommentOf (l : Line) (e : Extent) : Prop :=
  ∃ i, IsLeast {i | HasAt l.chars ['/', '/'] i} i ∧ e = ⟨l.start + i, l.stop⟩

theorem lineComments_by_line (text : List Char) :
    List.Forall₂ IsCommentOf ((lines text).filter (fun l => ['/', '/'] <:+: l.chars))
      (lineComments text) := by
  rw [lineComments_lineLocal.eq_flatMap_lines]
  apply forall₂_filter_flatMap
  · intro l hl hcomment
    have hex := isInfix_iff_hasAt.mp (of_decide_eq_true hcomment)
    classical
    have hleast : IsLeast {i | HasAt l.chars ['/', '/'] i} (Nat.find hex) :=
      ⟨Nat.find_spec hex, fun i hi => Nat.find_min' hex hi⟩
    refine ⟨_, ?_, Nat.find hex, hleast, rfl⟩
    rw [lineComments_of_line (isLineEnd_of_mem_lines hl) hleast, List.map_singleton, Extent.shift,
      Nat.add_comm, Nat.add_comm l.chars.length]
    rfl
  · intro l hl hcomment
    have hno := isInfix_iff_hasAt.not.mp (of_decide_eq_false hcomment)
    rw [lineComments_of_line_ne (isLineEnd_of_mem_lines hl) (not_exists.mp hno)]
    rfl

theorem directives_by_line (text : List Char) :
    directives text = ((lines text).filter (fun l => l.chars.head? = some '#')).map Line.extent := by
  have hlines : List.Forall₂ (fun l e => l.extent = e)
      ((lines text).filter (fun l => l.chars.head? = some '#')) (directives text) := by
    rw [directives_lineLocal.eq_flatMap_lines]
    apply forall₂_filter_flatMap
    · intro l hl hhead
      refine ⟨_, ?_, rfl⟩
      rw [directives_of_line (isLineEnd_of_mem_lines hl) (of_decide_eq_true hhead),
        List.map_singleton, Extent.shift, Nat.zero_add, Nat.add_comm]
      rfl
    · intro l hl hhead
      rw [directives_of_line_ne (isLineEnd_of_mem_lines hl) (of_decide_eq_false hhead)]
      rfl
  rw [← List.forall₂_map_left_iff, List.forall₂_eq_eq_eq] at hlines
  exact hlines.symm

def restOfLineRegex : Regex := .many (fun c => !isLineEnd c) 0 none

/-- In regular notation `^|(?<=\r)`, where the first mark stands for the start of the text and for
the places right behind line feeds. -/
def lineStartRegex : Regex :=
  .alt (.look fun b _ => b.all (· == '\n')) (.look fun b _ => b.any (· == '\r'))

def lineCommentRegex : Regex := (Regex.literal ['/', '/']).seq restOfLineRegex

def directiveRegex : Regex := lineStartRegex.seq ((Regex.literal ['#']).seq restOfLineRegex)

theorem first_restOfLine (before rest : List Char) (k : Nat) :
    restOfLineRegex.first before rest (fun n => some (k + n)) = some (k + lineWidth rest) :=
  Regex.first_many_greedy (Nat.zero_le _) fun hnone => absurd hnone (Option.some_ne_none _)

theorem first_lineStart {α : Type} (before rest : List Char) (f : Nat → Option α) :
    lineStartRegex.first before rest f = if before.head?.all isLineEnd then f 0 else none := by
  rw [lineStartRegex, Regex.first_alt, Regex.first_look, Regex.first_look]
  cases before with
  | nil => simp
  | cons c before =>
    rw [List.head?_cons, Option.all_some, Option.any_some, Option.all_some, isLineEnd]
    cases c == '\n' <;> cases c == '\r' <;> simp

theorem first_literal_restOfLine (opener before rest : List Char) :
    ((Regex.literal opener).seq restOfLineRegex).first before rest some =
      if opener.isPrefixOf rest then
        some (opener.length + lineWidth (rest.drop opener.length))
      else none := by
  rw [Regex.first_seq, Regex.first_literal, first_restOfLine]

theorem eq_some_of_opener_iff {opener rest : List Char} {n : Nat} :
    (if opener.isPrefixOf rest then some (opener.length + lineWidth (rest.drop opener.length))
      else none) = some n ↔ ∃ body, rest = opener ++ body ∧ n = lineWidth body + opener.length := by
  split_ifs with hopens
  · obtain ⟨body, rfl⟩ := List.isPrefixOf_iff_prefix.mp hopens
    simp [eq_comm, Nat.add_comm]
  · refine iff_of_false not_false ?_
    rintro ⟨body, rfl, -⟩
    exact hopens (List.isPrefixOf_iff_prefix.mpr (List.prefix_append opener body))

theorem lineCommentRegex_preferred : lineCommentRegex.preferred = lineComment := by
  funext before rest
  apply Option.ext
  intro n
  rw [Regex.preferred_eq, lineCommentRegex, first_literal_restOfLine, eq_some_of_opener_iff,
    lineComment_opens]
  rfl

theorem directiveRegex_preferred : directiveRegex.preferred = directive := by
  funext before rest
  apply Option.ext
  intro n
  rw [Regex.preferred_eq, directiveRegex, Regex.first_seq, first_lineStart, directive_opens]
  simp only [Text.passed_zero, List.drop_zero, Nat.zero_add]
  by_cases hbefore : before.head?.all isLineEnd = true
  · rw [if_pos hbefore, first_literal_restOfLine, eq_some_of_opener_iff]
    simp only [hbefore, true_and]
    rfl
  · rw [if_neg hbefore]
    simp [hbefore]

/-- Line comments and directives in the lines of a text: one for each line with two slashes in it,
from the first two to the end of the line, and one for each line that begins with a hash sign, all
of the line. The searches for their expressions find the same. -/
theorem lineComments_and_directives_of_lines (text : List Char) :
    (∀ ls, SplitsInto 0 text ls ↔ ls = lines text) ∧
    List.Forall₂ IsCommentOf ((lines text).filter (fun l => ['/', '/'] <:+: l.chars))
      (lineComments text) ∧
    directives text = ((lines text).filter (fun l => l.chars.head? = some '#')).map Line.extent ∧
    (∀ found, (lineCommentRegex.search text).Yields found ↔ found = lineComments text) ∧
    ∀ found, (directiveRegex.search text).Yields found ↔ found = directives text := by
  refine ⟨fun _ => splitsInto_iff, lineComments_by_line text, directives_by_line text,
    fun found => ?_, fun found => ?_⟩
  · rw [Regex.yields_search_iff, lineCommentRegex_preferred, lineComments]
    · rw [lineCommentRegex_preferred]
      exact lineComment_fits
    · rw [lineCommentRegex_preferred]
      exact fun _ _ _ => lineComment_pos
  · rw [Regex.yields_search_iff, directiveRegex_preferred, directives]
    · rw [directiveRegex_preferred]
      exact directive_fits
    · rw [directiveRegex_preferred]
      exact fun _ _ _ => directive_pos

-- Three slashes, a line that ends in both characters, an empty one, and a bare carriage return.
example : lineComments "a ///\r\n\r\r#//".toList = [⟨2, 5⟩, ⟨10, 12⟩] ∧
    directives "#a\r\n\r\r#b\n #".toList = [⟨0, 2⟩, ⟨6, 8⟩] := by decide

end Pattern

end RuleHighlight
