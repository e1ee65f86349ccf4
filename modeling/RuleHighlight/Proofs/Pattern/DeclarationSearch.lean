import RuleHighlight.Proofs.DeclarationSpans
import RuleHighlight.Proofs.Regex

namespace RuleHighlight

open CharClass

namespace Declaration

section Parts

variable {d : Declaration} {before rest gap name tail after : List Char}

theorem Parts.recognise_eq (h : d.Parts before rest gap name tail after) :
    recognise before rest = some d := by
  obtain ⟨c, cs, hname, hc⟩ := h.name_cons
  obtain ⟨e, es, htail, he⟩ := h.name_ends
  have hblank : isBlank c = false := isBlank_eq_false_of_isWord hc
  refine (recognise_opens before rest d).mpr
    ⟨gap ++ (name ++ (tail ++ '\x7b' :: after)), h.text, h.boundary, ?_⟩
  have hgap : (gap ++ (name ++ (tail ++ '\x7b' :: after))).takeWhile isBlank = gap := by
    rw [hname, List.cons_append, Text.takeWhile_of_all h.gap_blank hblank]
  have hafter : (gap ++ (name ++ (tail ++ '\x7b' :: after))).dropWhile isBlank =
      name ++ (tail ++ '\x7b' :: after) := by
    rw [hname, List.cons_append, Text.dropWhile_of_all h.gap_blank hblank]
  have hword : (name ++ (tail ++ '\x7b' :: after)).takeWhile isWord = name := by
    rw [htail, Text.takeWhile_of_all h.name_word he]
  have hover : (name ++ (tail ++ '\x7b' :: after)).dropWhile isWord = tail ++ '\x7b' :: after := by
    rw [htail, Text.dropWhile_of_all h.name_word he]
  have hspace : (tail ++ '\x7b' :: after).takeWhile isBlank = tail :=
    Text.takeWhile_of_all h.tail_blank rfl after
  have hbrace : (tail ++ '\x7b' :: after).dropWhile isBlank = '\x7b' :: after :=
    Text.dropWhile_of_all h.tail_blank rfl after
  simp only [reading]
  rw [hgap, hafter, hword, hover, hspace, hbrace, h.name_isName,
    List.isEmpty_eq_false_iff.mpr h.gap_ne_nil, h.widths]
  rfl

theorem Parts.isWord_getElem? (h : d.Parts before rest gap name tail after) {m : Nat} {c : Char}
    (hm : m < d.width) (hc : rest[m]? = some c) :
    isWord c = true ↔ m < 4 ∨ 4 + d.gap ≤ m ∧ m < 4 + d.gap + d.name := by
  have hgap : d.gap = gap.length := congrArg Declaration.gap h.widths
  have hname : d.name = name.length := congrArg Declaration.name h.widths
  have htail : d.tail = tail.length := congrArg Declaration.tail h.widths
  have piece {front piece back : List Char} {i n : Nat} (htext : rest = front ++ (piece ++ back))
      (hi : i = front.length) (hn : n = piece.length) (hstart : i ≤ m) (hstop : m < i + n) :
      c ∈ piece := by
    obtain ⟨b, hb, hplace⟩ := Text.exists_mem_piece htext hi hn hstart hstop
    rwa [Option.some.inj (hc.symm.trans hplace)]
  -- The same characters, split in front of the word, of the gap, of the name and of the tail.
  have hword : rest =
      [] ++ (['r', 'u', 'l', 'e'] ++ (gap ++ (name ++ (tail ++ '\x7b' :: after)))) := h.text
  have hblanks : rest = ['r', 'u', 'l', 'e'] ++ (gap ++ (name ++ (tail ++ '\x7b' :: after))) :=
    h.text
  have hletters : rest = (['r', 'u', 'l', 'e'] ++ gap) ++ (name ++ (tail ++ '\x7b' :: after)) := by
    rw [hblanks, List.append_assoc]
  have hbraces : rest = (['r', 'u', 'l', 'e'] ++ gap ++ name) ++ ((tail ++ ['\x7b']) ++ after) := by
    rw [hletters, List.append_assoc _ name, List.append_assoc tail, List.singleton_append]
  have hlength : 4 + d.gap = (['r', 'u', 'l', 'e'] ++ gap).length := by
    rw [List.length_append, hgap]
    rfl
  have hlength' : 4 + d.gap + d.name = (['r', 'u', 'l', 'e'] ++ gap ++ name).length := by
    rw [hname, hlength, ← List.length_append]
  rcases Nat.lt_or_ge m 4 with hfirst | hfirst
  · have hrule : ∀ x ∈ ['r', 'u', 'l', 'e'], isWord x = true := List.all_eq_true.mp rfl
    have hmem := piece (i := 0) (n := 4) hword rfl rfl (Nat.zero_le _) (by omega)
    exact iff_of_true (hrule c hmem) (Or.inl hfirst)
  rcases Nat.lt_or_ge m (4 + d.gap) with hsecond | hsecond
  · have hmem := piece hblanks rfl hgap hfirst hsecond
    exact iff_of_false (by simp [isWord_eq_false_of_isBlank (h.gap_blank c hmem)]) (by omega)
  rcases Nat.lt_or_ge m (4 + d.gap + d.name) with hthird | hthird
  · have hmem := piece hletters hlength hname hsecond hthird
    exact iff_of_true (h.name_word c hmem) (Or.inr ⟨hsecond, hthird⟩)
  · have hmem := piece (n := d.tail + 1) hbraces hlength' (by simp [htail]) hthird hm
    refine iff_of_false ?_ (by omega)
    rcases List.mem_append.mp hmem with hblank | hbrace
    · simp [isWord_eq_false_of_isBlank (h.tail_blank c hblank)]
    · rw [List.mem_singleton.mp hbrace]
      decide

theorem Parts.start_eq (h : d.Parts before rest gap name tail after) {m : Nat} {b c : Char}
    (hm : m + 1 < d.width) (hb : rest[m]? = some b) (hb' : isWord b = false)
    (hc : rest[m + 1]? = some c) (hc' : isWord c = true) : m + 1 = 4 + d.gap := by
  have hbefore := (h.isWord_getElem? (Nat.lt_of_succ_lt hm) hb).not.mp (Bool.eq_false_iff.mp hb')
  have hstart := (h.isWord_getElem? hm hc).mp hc'
  omega

theorem Parts.drop_eq (h : d.Parts before rest gap name tail after) :
    rest.drop (4 + d.gap) = name ++ (tail ++ '\x7b' :: after) := by
  have hsplit : rest = (['r', 'u', 'l', 'e'] ++ gap) ++ (name ++ (tail ++ '\x7b' :: after)) := by
    rw [h.text, List.append_assoc]
    rfl
  rw [hsplit, List.drop_left']
  rw [List.length_append, h.widths]
  rfl

end Parts

section All

variable {text : List Char} {i : Nat} {d : Declaration}

theorem mem_all_iff :
    (i, d) ∈ all text ↔ recognise (text.take i).reverse (text.drop i) = some d := by
  refine ⟨Occurrence.recognise_of_mem_all, fun hr => ?_⟩
  obtain ⟨gap, name, tail, after, hd⟩ := recognise_eq_some hr
  have hfirst : text[i]? = some 'r' := by
    rw [← Nat.add_zero i, ← List.getElem?_drop, hd.text]
    rfl
  have hi : i < text.length := (List.getElem?_eq_some_iff.mp hfirst).1
  refine (Occurrence.mem_all_or_covered (w := width) hi hr).resolve_right ?_
  -- What is found earlier and reaches over the word would have it as its name.
  rintro ⟨⟨j, d'⟩, hmem, hbefore, hover⟩
  obtain ⟨gap', name', tail', after', hd'⟩ :=
    recognise_eq_some (Occurrence.recognise_of_mem_all hmem)
  obtain ⟨m, rfl⟩ := Nat.exists_eq_add_of_lt hbefore
  simp only at hd' hover hi
  have hb : (text.drop j)[m]? = some text[j + m] := by
    rw [List.getElem?_drop, List.getElem?_eq_getElem]
  have hboundary : isWord text[j + m] = false := by
    have hprevious := Text.previous?_eq_getElem? (List.getElem?_eq_getElem (Nat.lt_of_succ_lt hi))
    rw [Text.previous?_eq_head?] at hprevious
    have hbefore' := hd.boundary
    rwa [hprevious, Option.any_some] at hbefore'
  have hplace : m + 1 = 4 + d'.gap := by
    apply hd'.start_eq (by omega) hb hboundary _ (show isWord 'r' = true by decide)
    rwa [List.getElem?_drop]
  apply hd.rest_ne hd'
  rw [← hd'.drop_eq, List.drop_drop, ← hplace]
  rfl

end All

/-- A word at one place and a name between two others that make a declaration of a text. -/
structure Declares (text : List Char) (word name stop : Nat) : Prop where
  word_eq : Text.slice text word (word + 4 : Nat) = "rule".toList
  boundary : (Text.previous? text word).any isWord = false
  gap_ne_nil : Text.slice text (word + 4 : Nat) name ≠ []
  gap_blank : ∀ c ∈ Text.slice text (word + 4 : Nat) name, isBlank c = true
  name_eq : ∃ c cs, Text.slice text name stop = c :: cs ∧ isWordStart c = true ∧
    cs.length ≤ 127 ∧ ∀ a ∈ cs, isWord a = true
  tail_eq : ∃ tail after, Text.sliceFrom text stop = tail ++ '\x7b' :: after ∧
    ∀ c ∈ tail, isBlank c = true

section Declares

variable {text : List Char}

theorem isName_iff {chars : List Char} : isName chars = true ∧ (∀ c ∈ chars, isWord c = true) ↔
    ∃ c cs, chars = c :: cs ∧ isWordStart c = true ∧ cs.length ≤ 127 ∧ ∀ a ∈ cs, isWord a = true := by
  constructor
  · rintro ⟨hname, hword⟩
    cases chars with
    | nil => cases hname
    | cons c cs =>
      rw [isName, Bool.and_eq_true, decide_eq_true_eq] at hname
      exact ⟨c, cs, rfl, hname.1, Nat.le_of_lt_succ hname.2, (List.forall_mem_cons.mp hword).2⟩
  · rintro ⟨c, cs, rfl, hstart, hlength, hword⟩
    rw [isName, Bool.and_eq_true, decide_eq_true_eq]
    exact ⟨⟨hstart, Nat.lt_succ_of_le hlength⟩,
      List.forall_mem_cons.mpr ⟨isWord_of_isWordStart hstart, hword⟩⟩

theorem Declares.recognise_eq {k a b : Nat} (h : Declares text k a b) :
    ∃ d, recognise (text.take k).reverse (text.drop k) = some d ∧
      a = k + 4 + d.gap ∧ b = k + 4 + d.gap + d.name := by
  obtain ⟨tail, after, htail, hblank⟩ := h.tail_eq
  obtain ⟨hname, hword⟩ := isName_iff.mpr h.name_eq
  rw [Text.sliceFrom_natCast] at htail
  have hgap_lt : k + 4 < a := Text.lt_of_slice_ne_nil h.gap_ne_nil
  have hname_ne : Text.slice text a b ≠ [] := by
    intro hnil
    rw [hnil] at hname
    cases hname
  have hname_lt : a < b := Text.lt_of_slice_ne_nil hname_ne
  have hb : b < text.length := by
    by_contra hover
    rw [List.drop_eq_nil_of_le (Nat.le_of_not_lt hover)] at htail
    simp at htail
  have hd : Parts ⟨a - (k + 4), b - a, tail.length⟩ (text.take k).reverse (text.drop k)
      (Text.slice text (k + 4 : Nat) a) (Text.slice text a b) tail after := by
    refine ⟨?_, ?_, ?_, h.gap_ne_nil, h.gap_blank, hname, hword, hblank⟩
    · rw [← Text.slice_append_drop (Nat.le_add_right k 4), h.word_eq,
        ← Text.slice_append_drop (Nat.le_of_lt hgap_lt),
        ← Text.slice_append_drop (Nat.le_of_lt hname_lt), htail]
      rfl
    · rw [Text.length_slice (by omega), Text.length_slice (Nat.le_of_lt hb)]
    · rw [← Text.previous?_eq_head?]
      exact h.boundary
  refine ⟨_, hd.recognise_eq, ?_, ?_⟩ <;> simp only <;> omega

theorem declares_of_recognise {i : Nat} {d : Declaration}
    (h : recognise (text.take i).reverse (text.drop i) = some d) :
    Declares text i (i + 4 + d.gap) (i + 4 + d.gap + d.name) := by
  obtain ⟨gap, name, tail, after, hd⟩ := recognise_eq_some h
  have hgap : d.gap = gap.length := congrArg Declaration.gap hd.widths
  have hname : d.name = name.length := congrArg Declaration.name hd.widths
  have hrest := hd.text
  have hword : Text.slice text i (i + 4 : Nat) = "rule".toList := by
    rw [Text.slice_natCast, Nat.add_sub_cancel_left, hrest]
    rfl
  have hblank : Text.slice text (i + 4 : Nat) (i + 4 + d.gap : Nat) = gap := by
    rw [Text.slice_natCast, Nat.add_sub_cancel_left, ← List.drop_drop, hrest, hgap]
    exact List.take_left
  have hletters : Text.slice text (i + 4 + d.gap : Nat) (i + 4 + d.gap + d.name : Nat) = name := by
    rw [Text.slice_natCast, Nat.add_sub_cancel_left, Nat.add_assoc, ← List.drop_drop, hd.drop_eq,
      hname, List.take_left]
  refine ⟨hword, ?_, ?_, ?_, ?_, tail, after, ?_, hd.tail_blank⟩
  · rw [Text.previous?_eq_head?]
    exact hd.boundary
  · rw [hblank]
    exact hd.gap_ne_nil
  · rw [hblank]
    exact hd.gap_blank
  · rw [hletters]
    exact isName_iff.mp ⟨hd.name_isName, hd.name_word⟩
  · rw [Text.sliceFrom_natCast, Nat.add_assoc, Nat.add_assoc, ← Nat.add_assoc 4, ← List.drop_drop,
      ← List.drop_drop, hd.drop_eq, hname, List.drop_left]

end Declares

end Declaration

namespace Regex

/-- In regular notation `\b(rule)(\s+)([A-Za-z_]\w{0,127})\s*\{`, part by part. -/
def declaration : List Regex :=
  [boundary, literal "rule".toList, .many isBlank 1 none,
    (one isWordStart).seq (.many isWord 0 (some 127)), .many isBlank 0 none, letter '\x7b']

section Declaration

variable {α : Type} {before rest : List Char} {f : List Nat → Option α}

theorem findSome?_rows_brace : (rows [letter '\x7b'] before rest).findSome? f =
    if rest.head? = some '\x7b' then f [1] else none := by
  cases rest <;> simp [letter]

theorem findSome?_rows_tail :
    (rows [.many isBlank 0 none, letter '\x7b'] before rest).findSome? f =
      if (rest.dropWhile isBlank).head? = some '\x7b' then
        f [(rest.takeWhile isBlank).length, 1]
      else none := by
  simp only [findSome?_rows_cons _ [letter '\x7b'], findSome?_rows_brace]
  rw [first_many_whole]
  · simp [Text.drop_length_takeWhile]
  · intro n _ hn
    have hblank := Text.any_head?_drop hn
    rw [if_neg]
    intro hbrace
    rw [hbrace] at hblank
    cases hblank

theorem any_isWord_eq_false {b : Option Char} (h : b.any isBlank = true) : b.any isWord = false := by
  cases b with
  | none => rfl
  | some c => exact isWord_eq_false_of_isBlank h

theorem head?_dropWhile_ne {n : Nat} (h : n < (rest.takeWhile isWord).length) :
    ((rest.drop n).dropWhile isBlank).head? ≠ some '\x7b' := by
  have hword := Text.any_head?_drop h
  intro hbrace
  cases hdrop : rest.drop n with
  | nil =>
    rw [hdrop] at hword
    cases hword
  | cons c after =>
    rw [hdrop] at hword hbrace
    have hc : isWord c = true := hword
    rw [List.dropWhile_cons_of_neg (Bool.eq_false_iff.mp (isBlank_eq_false_of_isWord hc))] at hbrace
    obtain rfl := Option.some.inj hbrace
    cases hc

theorem findSome?_rows_name :
    (rows [(one isWordStart).seq (.many isWord 0 (some 127)), .many isBlank 0 none, letter '\x7b']
      before rest).findSome? f =
      if Declaration.isName (rest.takeWhile isWord) ∧
          ((rest.dropWhile isWord).dropWhile isBlank).head? = some '\x7b' then
        f [(rest.takeWhile isWord).length, ((rest.dropWhile isWord).takeWhile isBlank).length, 1]
      else none := by
  simp only [findSome?_rows_cons _ [.many isBlank 0 none, letter '\x7b'], findSome?_rows_tail,
    first_seq, first_one]
  cases rest with
  | nil => rfl
  | cons c rest =>
    simp only [List.head?_cons, Option.any_some, Nat.add_comm 1, List.drop_succ_cons, List.drop_zero]
    cases hstart : isWordStart c with
    | false =>
      have hname : Declaration.isName ((c :: rest).takeWhile isWord) = false := by
        rw [List.takeWhile_cons]
        split <;> simp [Declaration.isName, hstart]
      simp [hname]
    | true =>
      have hword := isWord_of_isWordStart hstart
      rw [if_pos rfl, first_many_whole]
      · rw [List.takeWhile_cons_of_pos hword, List.dropWhile_cons_of_pos hword,
          Text.drop_length_takeWhile, Declaration.isName, hstart, List.length_cons]
        by_cases hlength : (rest.takeWhile isWord).length ≤ 127
        · simp [hlength, Declaration.maxNameWidth, Nat.lt_succ_of_le hlength]
        · have hlong : ¬ (rest.takeWhile isWord).length < 128 := by omega
          simp [hlength, Declaration.maxNameWidth, hlong]
      -- A shorter name leaves a character of the word where a brace should be.
      · exact fun n _ hn => if_neg (head?_dropWhile_ne hn)

theorem findSome?_rows_gap :
    (rows [.many isBlank 1 none, (one isWordStart).seq (.many isWord 0 (some 127)),
      .many isBlank 0 none, letter '\x7b'] before rest).findSome? f =
      (Declaration.reading rest).bind fun d => f [d.gap, d.name, d.tail, 1] := by
  simp only [findSome?_rows_cons (.many isBlank 1 none), findSome?_rows_name]
  rw [first_many_whole]
  · rw [Text.drop_length_takeWhile, Declaration.reading]
    cases rest.takeWhile isBlank with
    | nil => simp
    | cons g gs =>
      by_cases hname : Declaration.isName ((rest.dropWhile isBlank).takeWhile isWord)
      · by_cases hbrace : (((rest.dropWhile isBlank).dropWhile isWord).dropWhile isBlank).head? =
          some '\x7b'
        · simp [hname, hbrace]
        · simp [hname, hbrace]
      · simp [hname]
  -- Fewer blanks leave a blank where a name should be.
  · intro n _ hn
    apply if_neg
    rintro ⟨hname, -⟩
    rw [Text.takeWhile_eq_nil (any_isWord_eq_false (Text.any_head?_drop hn))] at hname
    cases hname

end Declaration

end Regex

namespace Declaration

open Regex

def widths (d : Declaration) : List Nat := [0, 4, d.gap, d.name, d.tail, 1]

theorem recognise_rule (before body : List Char) : recognise before ("rule".toList ++ body) =
    if before.head?.any isWord then none else reading body := by
  change recognise before ('r' :: 'u' :: 'l' :: 'e' :: body) = _
  rw [recognise, reading]
  cases before.head?.any isWord <;> simp

theorem recognise_eq_none {before rest : List Char} (h : ¬ "rule".toList <+: rest) :
    recognise before rest = none := by
  rw [Option.eq_none_iff_forall_ne_some]
  intro d hd
  obtain ⟨body, rfl, -⟩ := (recognise_opens before rest d).mp hd
  exact h (List.prefix_append _ _)

theorem row_declaration : row declaration = recognise.view widths := by
  funext before rest
  rw [row_eq, declaration, findSome?_rows_cons, boundary, first_look, findSome?_rows_cons,
    first_literal]
  simp only [findSome?_rows_gap, Recogniser.view]
  by_cases hrule : "rule".toList <+: rest
  · obtain ⟨body, rfl⟩ := hrule
    rw [recognise_rule, List.drop_zero,
      if_pos (List.isPrefixOf_iff_prefix.mpr (List.prefix_append _ _)), List.drop_left]
    have hr : ("rule".toList ++ body).head?.any isWord = true := rfl
    rw [hr]
    cases before.head?.any isWord with
    | true => rfl
    | false => cases reading body <;> rfl
  · rw [recognise_eq_none hrule, List.drop_zero, if_neg (mt List.isPrefixOf_iff_prefix.mp hrule),
      ite_self]
    rfl

@[simp]
theorem total_widths (d : Declaration) : total d.widths = d.width := by
  simp only [total, widths, width, List.foldr]
  omega

theorem fits_row_declaration : (row declaration).Fits total := by
  rw [row_declaration]
  intro before rest ws h
  obtain ⟨d, hd, rfl⟩ := Option.map_eq_some_iff.mp h
  rw [total_widths]
  exact recognise_fits before rest d hd

theorem yields_rowSearch_declaration_iff {text : List Char} {found : List (Nat × List Nat)} :
    (rowSearch declaration text).Yields found ↔ found = (all text).map (Prod.map id widths) := by
  rw [yields_rowSearch_iff fits_row_declaration, row_declaration, Occurrence.all,
    Occurrence.walk_view widths total_widths]
  · rfl
  · rw [row_declaration]
    intro before rest ws h
    obtain ⟨d, -, rfl⟩ := Option.map_eq_some_iff.mp h
    rw [total_widths]
    exact Nat.succ_pos _

theorem words_eq_map_part (text : List Char) :
    words text = ((all text).map (Prod.map id widths)).map (part 1) := by
  rw [List.map_map]
  rfl

theorem names_eq_map_part (text : List Char) :
    names text = ((all text).map (Prod.map id widths)).map (part 3) := by
  rw [List.map_map]
  apply List.map_congr_left
  rintro ⟨i, d⟩ -
  simp only [Function.comp_apply, Prod.map, part, total, widths, List.take, List.foldr, id,
    Extent.mk.injEq]
  omega

theorem mem_zip_iff {text : List Char} {w n : Extent} : (w, n) ∈ (words text).zip (names text) ↔
    ∃ k a b, w = ⟨k, k + 4⟩ ∧ n = ⟨a, b⟩ ∧ Declares text k a b := by
  rw [words, names, List.zip_map', List.mem_map]
  constructor
  · rintro ⟨⟨i, d⟩, hx, heq⟩
    obtain ⟨rfl, rfl⟩ := Prod.mk.inj heq
    exact ⟨i, _, _, rfl, rfl, declares_of_recognise (Occurrence.recognise_of_mem_all hx)⟩
  · rintro ⟨k, a, b, rfl, rfl, h⟩
    obtain ⟨d, hr, rfl, rfl⟩ := h.recognise_eq
    exact ⟨(k, d), mem_all_iff.mpr hr, rfl⟩

/-- The words and the names of the declarations of a text, side by side and in order: all of them,
and those that a search for the expression finds. -/
theorem words_and_names (text : List Char) :
    (words text).length = (names text).length ∧
    ((words text).zip (names text)).Pairwise
      (fun x y => x.1.start < y.1.start ∧ x.2.stop ≤ y.1.start) ∧
    (∀ w n, (w, n) ∈ (words text).zip (names text) ↔
      ∃ k a b, w = ⟨k, k + 4⟩ ∧ n = ⟨a, b⟩ ∧ Declares text k a b) ∧
    ∃ found, (∀ other, (rowSearch declaration text).Yields other ↔ other = found) ∧
      words text = found.map (part 1) ∧ names text = found.map (part 3) := by
  refine ⟨?_, ?_, fun _ _ => mem_zip_iff, _, fun _ => yields_rowSearch_declaration_iff,
    words_eq_map_part text, names_eq_map_part text⟩
  · rw [words, names, List.length_map, List.length_map]
  · rw [words, names, List.zip_map', List.pairwise_map]
    refine (Occurrence.all_pairwise text).imp ?_
    rintro ⟨i, d⟩ ⟨j, d'⟩ ⟨hlt, hle⟩
    simp only [width] at hle ⊢
    exact ⟨hlt, by omega⟩

-- A word that is the name of the word before it, and one that is no name since another follows.
example : ((words "rule rule rule \x7b".toList).zip (names "rule rule rule \x7b".toList)) =
    [(⟨5, 9⟩, ⟨10, 14⟩)] := by decide

end Declaration

end RuleHighlight
