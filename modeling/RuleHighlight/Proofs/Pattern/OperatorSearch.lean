import Mathlib.Logic.Basic
import Mathlib.Logic.ExistsUnique
import RuleHighlight.Proofs.Pattern.ByteWindow
import RuleHighlight.Proofs.Pattern.RunSearch

namespace RuleHighlight

open CharClass

namespace Run

structure Longest (p : Char → Bool) (text : List Char) (e : Extent) : Prop where
  start_lt_stop : e.start < e.stop
  any_inside : ∀ i, e.start ≤ i → i < e.stop → text[i]?.any p = true
  any_before : (Text.previous? text e.start).any p = false
  any_after : text[e.stop]?.any p = false

variable {p : Char → Bool} {text : List Char} {e e' : Extent}

theorem Maximal.longest {r : Run} (h : Maximal p text e.start r)
    (hstop : e.stop = e.start + r.chars.length) : Longest p text e := by
  have hpos := h.length_pos
  refine ⟨by omega, fun i hi hlt => ?_, ?_, ?_⟩
  · obtain ⟨j, rfl⟩ := Nat.exists_eq_add_of_le hi
    have hj : j < r.chars.length := by omega
    rw [h.getElem?_eq hj, Option.any_some]
    exact h.chars_eq_true _ (List.getElem_mem hj)
  · rw [h.previous?_eq]
    exact h.any_before
  · rw [hstop, h.getElem?_length]
    exact h.any_after

theorem Longest.lt_length (h : Longest p text e) {i : Nat} (hi : e.start ≤ i) (hlt : i < e.stop) :
    i < text.length := by
  by_contra hout
  have hinside := h.any_inside i hi hlt
  rw [List.getElem?_eq_none (Nat.le_of_not_lt hout)] at hinside
  cases hinside

theorem Longest.exists_maximal (h : Longest p text e) :
    ∃ r, Maximal p text e.start r ∧ e.stop = e.start + r.chars.length := by
  obtain ⟨n, hn⟩ := Nat.exists_eq_add_of_lt h.start_lt_stop
  have hlast : e.start + n < text.length := h.lt_length (Nat.le_add_right _ _) (by omega)
  have hlength : ((text.drop e.start).take (n + 1)).length = n + 1 := by
    rw [List.length_take, List.length_drop]
    omega
  have hpos : 0 < ((text.drop e.start).take (n + 1)).length := by omega
  refine ⟨⟨(text.take e.start).reverse, (text.drop e.start).take (n + 1), text.drop e.stop⟩,
    ⟨?_, ?_, List.ne_nil_of_length_pos hpos, ?_, ?_, ?_⟩, ?_⟩
  · rw [List.reverse_reverse, hn, Nat.add_assoc, ← List.drop_drop, List.take_append_drop,
      List.take_append_drop]
  · rw [List.length_reverse, List.length_take, Nat.min_eq_left (by omega)]
  · intro c hc
    obtain ⟨j, hj, rfl⟩ := List.mem_iff_getElem.mp hc
    rw [hlength] at hj
    have hstop : e.start + j < e.stop := by omega
    have hinside := h.any_inside (e.start + j) (Nat.le_add_right _ _) hstop
    rw [List.getElem?_eq_getElem (h.lt_length (Nat.le_add_right _ _) hstop),
      Option.any_some] at hinside
    rwa [List.getElem_take, List.getElem_drop]
  · rw [← Text.previous?_eq_head?]
    exact h.any_before
  · rw [List.head?_drop]
    exact h.any_after
  · rw [hlength, hn, Nat.add_assoc]

theorem longest_iff : Longest p text e ↔
    ∃ r, Maximal p text e.start r ∧ e.stop = e.start + r.chars.length :=
  ⟨Longest.exists_maximal, fun ⟨_, h, hstop⟩ => h.longest hstop⟩

theorem Longest.eq_of_covers (h : Longest p text e) (h' : Longest p text e') {i : Nat}
    (hi : e.start ≤ i ∧ i < e.stop) (hi' : e'.start ≤ i ∧ i < e'.stop) : e = e' := by
  have hstarts {d d' : Extent} (hd : Longest p text d) (hd' : Longest p text d')
      (hle : d.start ≤ i) (hlt : i < d.stop) (hle' : d'.start ≤ i) : d'.start ≤ d.start := by
    by_contra hafter
    obtain ⟨j, hj⟩ := Nat.exists_eq_add_of_lt (Nat.lt_of_not_le hafter)
    obtain ⟨c, hc⟩ := (Option.any_eq_true _ _).mp (hd.any_inside (d.start + j) (by omega) (by omega))
    have hbefore := hd'.any_before
    rw [hj, Text.previous?_eq_getElem? hc.1, Option.any_some, hc.2] at hbefore
    cases hbefore
  have hstops {d d' : Extent} (hd : Longest p text d) (hd' : Longest p text d')
      (hle : d.start ≤ i) (hlt' : i < d'.stop) : d.stop ≤ d'.stop := by
    by_contra hafter
    have hinside := hd.any_inside d'.stop (by omega) (by omega)
    rw [hd'.any_after] at hinside
    cases hinside
  obtain ⟨start, stop⟩ := e
  obtain ⟨start', stop'⟩ := e'
  rw [Extent.mk.injEq]
  exact ⟨Nat.le_antisymm (hstarts h' h hi'.1 hi'.2 hi.1) (hstarts h h' hi.1 hi.2 hi'.1),
    Nat.le_antisymm (hstops h h' hi.1 hi'.2) (hstops h' h hi'.1 hi.2)⟩

theorem exists_longest {i : Nat} (hi : text[i]?.any p = true) :
    ∃ e, Longest p text e ∧ e.start ≤ i ∧ i < e.stop := by
  obtain ⟨c, hc, hp⟩ := (Option.any_eq_true _ _).mp hi
  obtain ⟨hlt, rfl⟩ := List.getElem?_eq_some_iff.mp hc
  have hall : ∀ c ∈ [text[i]], p c = true := by
    intro c hc
    rwa [List.mem_singleton.mp hc]
  obtain ⟨start, r, hr, hstart, hstop⟩ :=
    Run.exists_maximal (List.cons_ne_nil _ []) hall (text.take i) (text.drop (i + 1))
  rw [List.singleton_append, List.getElem_cons_drop, List.take_append_drop] at hr
  rw [List.length_take, Nat.min_eq_left (Nat.le_of_lt hlt)] at hstart hstop
  exact ⟨⟨start, start + r.chars.length⟩, Maximal.longest hr rfl, hstart, hstop⟩

theorem mem_extents_longest {keep : Run → Bool} (he : e ∈ extents p keep text) :
    Longest p text e := by
  obtain ⟨r, hr, -, hstop⟩ := mem_extents he
  exact hr.longest hstop

theorem extents_separated (keep : Run → Bool) (text : List Char) :
    (extents p keep text).Pairwise (fun a b => a.stop < b.start) := by
  refine (extents_disjoint p keep text).imp_of_mem fun ha hb hle => ?_
  refine Nat.lt_of_le_of_ne hle fun heq => ?_
  have hb := mem_extents_longest hb
  have hinside := hb.any_inside _ (Nat.le_refl _) hb.start_lt_stop
  rw [← heq, (mem_extents_longest ha).any_after] at hinside
  cases hinside

end Run

namespace Text

theorem slice_passed (front body rest : List Char) :
    slice ((front ++ body).reverse ++ rest) body.length (front.length + body.length : Nat) =
      front.reverse := by
  rw [List.reverse_append, List.append_assoc, slice_natCast, Nat.add_sub_cancel,
    List.drop_left' List.length_reverse, List.take_left' List.length_reverse]

theorem any_getElem?_passed {p : Char → Bool} (front body rest : List Char) :
    (body.length = 0 ∨ ((front ++ body).reverse ++ rest)[body.length - 1]?.any p = false) ↔
      body.head?.any p = false := by
  cases body with
  | nil => simp
  | cons c body =>
    rw [List.reverse_append, List.reverse_cons, List.append_assoc, List.append_assoc,
      List.singleton_append, List.length_cons, Nat.add_sub_cancel, getElem?_place List.head?_cons]
    simp

end Text

namespace Pattern

/-- A colon by itself, right behind a section label that is a whole word on its left. -/
structure SectionColon (text : List Char) (i : Nat) : Prop where
  alone : Run.Longest isOperator text ⟨i, i + 1⟩
  colon : text[i]? = some ':'
  label : ∃ label ∈ sectionLabels, label.length ≤ i ∧
    Text.slice text (i - label.length : Nat) i = label.toList ∧
    (i = label.length ∨ text[i - label.length - 1]?.any isWord = false)

section Operators

variable {text : List Char} {e : Extent}

theorem exists_body_iff (before rest w : List Char) :
    (∃ body, before = w.reverse ++ body ∧ body.head?.any isWord = false) ↔
      w.length ≤ before.length ∧
        Text.slice (before.reverse ++ rest) (before.length - w.length : Nat) before.length = w ∧
        (before.length = w.length ∨
          (before.reverse ++ rest)[before.length - w.length - 1]?.any isWord = false) := by
  constructor
  · rintro ⟨body, rfl, hbody⟩
    rw [List.length_append, List.length_reverse, Nat.add_sub_cancel_left]
    refine ⟨Nat.le_add_right _ _, ?_, ?_⟩
    · have hlength : w.reverse.length = w.length := List.length_reverse
      rw [← hlength, Text.slice_passed, List.reverse_reverse]
    · rw [Nat.add_eq_left, Text.any_getElem?_passed]
      exact hbody
  · rintro ⟨hle, hslice, hword⟩
    obtain ⟨front, body, rfl, hfront⟩ : ∃ front body, before = front ++ body ∧
        front.length = w.length := ⟨before.take w.length, before.drop w.length,
      (List.take_append_drop _ _).symm, by rw [List.length_take, Nat.min_eq_left hle]⟩
    rw [List.length_append, ← hfront, Nat.add_sub_cancel_left] at hslice hword
    rw [Text.slice_passed] at hslice
    rw [Nat.add_eq_left, Text.any_getElem?_passed] at hword
    exact ⟨body, by rw [← hslice, List.reverse_reverse], hword⟩

theorem chars_eq_colon_iff {i : Nat} {r : Run} (hr : Run.Maximal isOperator text i r) :
    r.chars = [':'] ↔ Run.Longest isOperator text ⟨i, i + 1⟩ ∧ text[i]? = some ':' := by
  have hplace := hr.getElem?_eq hr.length_pos
  rw [Nat.add_zero] at hplace
  constructor
  · intro hchars
    refine ⟨hr.longest (by rw [hchars]; rfl), ?_⟩
    simp only [hchars, List.getElem_cons_zero] at hplace
    exact hplace
  · rintro ⟨halone, hcolon⟩
    have hlongest : Run.Longest isOperator text ⟨i, i + r.chars.length⟩ := hr.longest rfl
    have hsame := halone.eq_of_covers hlongest ⟨Nat.le_refl i, Nat.lt_succ_self i⟩
      ⟨Nat.le_refl i, Nat.lt_add_of_pos_right hr.length_pos⟩
    have hone : r.chars.length = 1 := by
      have hstop := congrArg Extent.stop hsame
      simp only at hstop
      omega
    obtain ⟨c, hc⟩ := List.length_eq_one_iff.mp hone
    simp only [hc, List.getElem_cons_zero] at hplace
    rw [hc, Option.some.inj (hplace.symm.trans hcolon)]

theorem isSectionColon_iff {i : Nat} {r : Run} (hr : Run.Maximal isOperator text i r) :
    isSectionColon r = true ↔ SectionColon text i := by
  rw [isSectionColon, Bool.and_eq_true, beq_iff_eq, chars_eq_colon_iff hr, followsSectionLabel_iff]
  have hlabels (label : String) := exists_body_iff r.before (r.chars ++ r.after) label.toList
  simp only [← hr.text_eq, ← hr.offset_eq, String.length_toList] at hlabels
  simp only [hlabels]
  constructor
  · rintro ⟨⟨halone, hcolon⟩, hlabel⟩
    exact ⟨halone, hcolon, hlabel⟩
  · rintro ⟨halone, hcolon, hlabel⟩
    exact ⟨⟨halone, hcolon⟩, hlabel⟩

theorem mem_operators_iff :
    e ∈ operators text ↔ Run.Longest isOperator text e ∧ ¬ SectionColon text e.start := by
  rw [operators, Run.mem_extents_iff, Run.longest_iff]
  constructor
  · rintro ⟨r, hr, hkeep, hstop⟩
    rw [Bool.not_eq_true', ← Bool.not_eq_true, isSectionColon_iff hr] at hkeep
    exact ⟨⟨r, hr, hstop⟩, hkeep⟩
  · rintro ⟨⟨r, hr, hstop⟩, hcolon⟩
    refine ⟨r, hr, ?_, hstop⟩
    rwa [Bool.not_eq_true', ← Bool.not_eq_true, isSectionColon_iff hr]

theorem xor_sectionColon {i : Nat} (hi : text[i]?.any isOperator = true) :
    Xor (∃! e, e ∈ operators text ∧ e.start ≤ i ∧ i < e.stop) (SectionColon text i) := by
  obtain ⟨e, he, hcovers⟩ := Run.exists_longest hi
  by_cases hcolon : SectionColon text i
  · refine Or.inr ⟨hcolon, ?_⟩
    rintro ⟨e', ⟨hmem, hcovers'⟩, -⟩
    obtain ⟨he', hnot⟩ := mem_operators_iff.mp hmem
    have hsame := hcolon.alone.eq_of_covers he' ⟨Nat.le_refl i, Nat.lt_succ_self i⟩ hcovers'
    rw [← hsame] at hnot
    exact hnot hcolon
  · refine Or.inl ⟨⟨e, ⟨mem_operators_iff.mpr ⟨he, fun hstart => hcolon ?_⟩, hcovers⟩, ?_⟩, hcolon⟩
    · have hsame := hstart.alone.eq_of_covers he ⟨Nat.le_refl _, Nat.lt_succ_self _⟩
        ⟨Nat.le_refl _, he.start_lt_stop⟩
      have hplace : i = e.start := by
        have hstop := congrArg Extent.stop hsame
        simp only at hstop
        omega
      rwa [hplace]
    · rintro e' ⟨hmem, hcovers'⟩
      exact (mem_operators_iff.mp hmem).1.eq_of_covers he hcovers' hcovers

/-- The operators of a text are its longest runs of operator characters but for the colons of
section headers, so each of these characters is in one operator or is such a colon. A search for the
repetition of such characters finds the runs. -/
theorem operators_of_runs (text : List Char) :
    (operators text).Pairwise (fun a b => a.stop < b.start) ∧
    (∀ e, e ∈ operators text ↔ Run.Longest isOperator text e ∧ ¬ SectionColon text e.start) ∧
    (∀ i, text[i]?.any isOperator = true →
      Xor (∃! e, e ∈ operators text ∧ e.start ≤ i ∧ i < e.stop) (SectionColon text i)) ∧
    ∃ runs, (∀ found, ((Regex.many isOperator 1 none).search text).Yields found ↔ found = runs) ∧
      (∀ e, e ∈ runs ↔ Run.Longest isOperator text e) ∧ (operators text).Sublist runs := by
  refine ⟨Run.extents_separated _ text, fun _ => mem_operators_iff, fun _ => xor_sectionColon,
    Run.extents isOperator (fun _ => true) text, fun _ => Run.yields_many_one_iff isOperator,
    fun e => ?_, ?_⟩
  · rw [Run.mem_extents_iff, Run.longest_iff]
    simp only [true_and]
  · rw [operators, Run.extents, Run.extents, List.filter_true]
    exact List.filter_sublist.map _

-- A label that is no whole word, one at the start of the text, and a run that goes on.
example : operators "xmeta: meta: strings:= condition:".toList = [⟨5, 6⟩, ⟨20, 22⟩] := by decide

end Operators

end Pattern

end RuleHighlight
