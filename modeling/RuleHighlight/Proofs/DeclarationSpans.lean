import RuleHighlight.Proofs.WholeWords

/-!
The two spans of a declaration. Its word and its name are resolved on their own, and nothing but
the start of the text before the name decides between them: the name stands wherever the word does.
It stands without the word exactly where something that starts before the word ends in between, and
this is either a variable or a line that is over there.
-/

namespace RuleHighlight

open CharClass Candidate Pattern

theorem Text.exists_mem_piece {text front piece back : List Char} {i n j : Nat}
    (htext : text = front ++ (piece ++ back)) (hi : i = front.length) (hn : n = piece.length)
    (hstart : i ≤ j) (hstop : j < i + n) : ∃ c ∈ piece, text[j]? = some c := by
  subst htext hi hn
  obtain ⟨m, rfl⟩ := Nat.exists_eq_add_of_le hstart
  have hm : m < piece.length := Nat.lt_of_add_lt_add_left hstop
  refine ⟨_, List.getElem_mem hm, ?_⟩
  rw [List.getElem?_append_right hstart, Nat.add_sub_cancel_left, List.getElem?_append_left hm,
    List.getElem?_eq_getElem hm]

namespace Declaration

def wordExtent (i : Nat) : Extent := ⟨i, i + 4⟩

def nameExtent (i : Nat) (d : Declaration) : Extent := ⟨i + 4 + d.gap, i + 4 + d.gap + d.name⟩

def wordSpan (i : Nat) : Span := ⟨(wordExtent i).toRange, .keyword⟩

def nameSpan (i : Nat) (d : Declaration) : Span := ⟨(nameExtent i d).toRange, .ruleName⟩

def wordCandidate (i : Nat) : Candidate := ⟨(wordExtent i).toRange, .keyword, 3⟩

def nameCandidate (i : Nat) (d : Declaration) : Candidate := ⟨(nameExtent i d).toRange, .ruleName, 3⟩

structure StandsAt (text : List Char) (i : Nat) (d : Declaration) : Prop where
  boundary : ∀ j b, i = j + 1 → text[j]? = some b → isWord b = false
  first : text[i]? = some 'r'
  word : ∀ j, i ≤ j → j < i + 4 → ∃ c, text[j]? = some c ∧ isWord c = true
  gap_pos : 0 < d.gap
  gap : ∀ j, i + 4 ≤ j → j < i + 4 + d.gap → ∃ c, text[j]? = some c ∧ isBlank c = true
  name_pos : 0 < d.name
  name : ∃ c, text[i + 4 + d.gap]? = some c ∧ isWord c = true

theorem standsAt {text : List Char} {i : Nat} {d : Declaration} (h : (i, d) ∈ all text) :
    StandsAt text i d := by
  obtain ⟨before, rest, rfl, -, rfl, hr⟩ := Occurrence.mem_all h
  obtain ⟨gap, name, tail, after, hd⟩ := recognise_eq_some hr
  obtain ⟨c, cs, hcons, -⟩ := hd.name_cons
  have hgap : d.gap = gap.length := congrArg Declaration.gap hd.widths
  have hname : d.name = name.length := congrArg Declaration.name hd.widths
  have hgap_pos : 0 < d.gap := by
    rw [hgap]
    exact List.length_pos_of_ne_nil hd.gap_ne_nil
  have hname_pos : 0 < d.name := by
    rw [hname, hcons]
    exact Nat.succ_pos _
  -- The same text, split in front of the word, of the gap and of the name.
  have hword : before.reverse ++ rest =
      before.reverse ++ (['r', 'u', 'l', 'e'] ++ (gap ++ (name ++ (tail ++ '\x7b' :: after)))) :=
    congrArg (before.reverse ++ ·) hd.text
  have hblanks : before.reverse ++ rest =
      (before.reverse ++ ['r', 'u', 'l', 'e']) ++ (gap ++ (name ++ (tail ++ '\x7b' :: after))) := by
    rw [hword, List.append_assoc]
  have hletters : before.reverse ++ rest =
      (before.reverse ++ ['r', 'u', 'l', 'e'] ++ gap) ++ (name ++ (tail ++ '\x7b' :: after)) := by
    rw [hblanks, List.append_assoc (before.reverse ++ ['r', 'u', 'l', 'e'])]
  refine ⟨?_, ?_, ?_, hgap_pos, ?_, hname_pos, ?_⟩
  · intro j b hj hb
    have hprevious := Text.previous?_eq_getElem? hb
    rw [← hj, Text.previous?_append] at hprevious
    have hbefore := hd.boundary
    rwa [hprevious, Option.any_some] at hbefore
  · rw [hd.text]
    exact Text.getElem?_place rfl
  · intro j hstart hstop
    have hrule : ∀ c ∈ ['r', 'u', 'l', 'e'], isWord c = true := List.all_eq_true.mp rfl
    obtain ⟨c, hc, hj⟩ := Text.exists_mem_piece hword List.length_reverse.symm rfl hstart hstop
    exact ⟨c, hj, hrule c hc⟩
  · intro j hstart hstop
    obtain ⟨c, hc, hj⟩ := Text.exists_mem_piece hblanks (by simp) hgap hstart hstop
    exact ⟨c, hj, hd.gap_blank c hc⟩
  · have hlength : before.length + 4 + d.gap =
        (before.reverse ++ ['r', 'u', 'l', 'e'] ++ gap).length := by
      rw [hgap, List.length_append, List.length_append, List.length_reverse]
      rfl
    obtain ⟨c, hc, hj⟩ := Text.exists_mem_piece hletters hlength hname (Nat.le_refl _)
      (Nat.lt_add_of_pos_right hname_pos)
    exact ⟨c, hj, hd.name_word c hc⟩

theorem wordCandidate_mem {text : List Char} {i : Nat} {d : Declaration} (h : (i, d) ∈ all text) :
    wordCandidate i ∈ Catalogue.builtIn.candidates text := by
  refine Catalogue.mem_candidates.mpr ⟨.ruleKeyword, by simp [Catalogue.builtIn], ?_⟩
  refine Definition.mem_candidates.mpr ⟨List.mem_map_of_mem (List.mem_map_of_mem h), rfl, rfl, ?_⟩
  simp only [wordCandidate, wordExtent, Extent.toRange]
  omega

theorem nameCandidate_mem {text : List Char} {i : Nat} {d : Declaration} (h : (i, d) ∈ all text) :
    nameCandidate i d ∈ Catalogue.builtIn.candidates text := by
  have hpos := (standsAt h).name_pos
  refine Catalogue.mem_candidates.mpr ⟨.ruleName, by simp [Catalogue.builtIn], ?_⟩
  refine Definition.mem_candidates.mpr ⟨List.mem_map_of_mem (List.mem_map_of_mem h), rfl, rfl, ?_⟩
  simp only [nameCandidate, nameExtent, Extent.toRange]
  omega

end Declaration

theorem Candidate.BeginsWith.isBlank_eq_false {k : Candidate} {b : Option Char} {c : Char}
    (h : k.BeginsWith b c) : isBlank c = false := by
  cases h with
  | ruleName _ _ hc => exact isBlank_eq_false_of_isWord hc
  | word _ _ hc => exact isBlank_eq_false_of_isWord hc
  | number _ _ hc =>
    rcases isWord_of_isNumeral hc with hword | rfl | rfl
    · exact isBlank_eq_false_of_isWord hword
    · rfl
    · rfl
  | operator _ hc =>
    simp only [isOperator, Bool.or_eq_true, beq_iff_eq] at hc
    rcases hc with ((((((rfl | rfl) | rfl) | rfl) | rfl) | rfl) | rfl) | rfl <;> rfl
  | _ => subst c; rfl

namespace Catalogue

theorem eq_of_start_eq {text : List Char} {a k : Candidate} (ha : a ∈ builtIn.candidates text)
    (hk : k ∈ builtIn.candidates text) (hrank : k.priority = 3) (hstart : a.start = k.start)
    (hle : a.priority ≤ k.priority) {i : Nat} {c : Char} (hi : k.start = i)
    (hc : text[i]? = some c) (hword : isWord c = true) : a = k := by
  obtain ⟨d, hd, ha'⟩ := mem_candidates.mp ha
  obtain ⟨j, c', hj, hc', hbegins⟩ := builtIn_beginsWell d hd text a ha'
  obtain rfl : j = i := Int.ofNat.inj (hj.symm.trans (hstart.trans hi))
  obtain rfl := Option.some.inj (hc'.symm.trans hc)
  have hthree : a.priority = 3 := by
    cases hbegins with
    | comment _ _ hslash => rw [hslash] at hword; cases hword
    | string _ hquote => rw [hquote] at hword; cases hword
    | _ => omega
  exact candidates_distinct text a ha k hk hstart (hthree.trans hrank.symm)

theorem mem_resolve_or_reached {text : List Char} {k : Candidate}
    (hk : k ∈ builtIn.candidates text) (hne : k.start < k.stop) (hrank : k.priority = 3) {i : Nat}
    {c : Char} (hi : k.start = i) (hc : text[i]? = some c) (hword : isWord c = true) :
    k ∈ resolve (builtIn.candidates text) ∨
      ∃ a ∈ resolve (builtIn.candidates text), a.start < k.start ∧ k.start < a.stop := by
  rcases mem_resolve_or_covered hk hne with hmem | ⟨a, ha, hbefore, hreach⟩
  · exact Or.inl hmem
  · rcases before_iff.mp hbefore with hlt | ⟨hstart, hle⟩
    · exact Or.inr ⟨a, ha, hlt, hreach⟩
    · left
      rwa [← eq_of_start_eq (resolve_subset _ ha) hk hrank hstart hle hi hc hword]

theorem start_ne_of_isBlank {text : List Char} {k : Candidate} (hk : k ∈ builtIn.candidates text)
    {i : Nat} {c : Char} (hc : text[i]? = some c) (hblank : isBlank c = true) : k.start ≠ i := by
  intro hstart
  obtain ⟨d, hd, hk⟩ := mem_candidates.mp hk
  obtain ⟨j, c', hj, hc', hbegins⟩ := builtIn_beginsWell d hd text k hk
  obtain rfl : j = i := Int.ofNat.inj (hj.symm.trans hstart)
  obtain rfl := Option.some.inj (hc'.symm.trans hc)
  rw [hbegins.isBlank_eq_false] at hblank
  cases hblank

end Catalogue

namespace Declaration

open Catalogue

variable {text : List Char} {i : Nat} {d : Declaration}

theorem nameCandidate_mem_resolve (h : (i, d) ∈ all text) {k : Candidate}
    (hk : k ∈ resolve (builtIn.candidates text)) (hstart : k.start ≤ i)
    (hstop : ((i + 4 : Nat) : Int) ≤ k.stop) (hstop' : k.stop ≤ (i + 4 + d.gap : Nat)) :
    nameCandidate i d ∈ resolve (builtIn.candidates text) := by
  have hstands := standsAt h
  obtain ⟨c, hc, hword⟩ := hstands.name
  have hname : (nameCandidate i d).start = (i + 4 + d.gap : Nat) := rfl
  have hmem := nameCandidate_mem h
  have hne : (nameCandidate i d).start < (nameCandidate i d).stop := by
    have hpos := hstands.name_pos
    simp only [nameCandidate, nameExtent, Extent.toRange]
    omega
  rcases mem_resolve_or_reached hmem hne rfl hname hc hword with hmem | ⟨a, ha, hlt, hreach⟩
  · exact hmem
  · rw [hname] at hlt hreach
    have hordered := resolve_ordered (builtIn.candidates text)
    rcases Int.le_total k.start a.start with hle | hle
    · rcases hordered.stop_le_start hk ha hle with rfl | hafter
      · omega
      · obtain ⟨j, hj⟩ := Int.eq_ofNat_of_zero_le (candidates_bounded (resolve_subset _ ha)).1
        obtain ⟨c, hc, hblank⟩ := hstands.gap j (by omega) (by omega)
        exact absurd hj (start_ne_of_isBlank (resolve_subset _ ha) hc hblank)
    · rcases hordered.stop_le_start ha hk hle with rfl | hafter
      · omega
      · omega

end Declaration

/-- The spans that take the word of a declaration but leave its name: a variable that is named
like the word, and what is over at a line end in the gap. -/
inductive Span.TakesWord (text : List Char) (i : Nat) (d : Declaration) (s : Span) : Prop
  | variableName (hs : s.category = .variableName) (hstart : s.start + 1 = i)
      (hstop : s.stop = (i + 4 : Nat))
  | line (opener : List Char)
      (hs : (s.category, opener) ∈ [(.comment, ['/', '/']), (.string, ['"']), (.directive, ['#'])])
      (htext : opener <+: s.textIn text) (hstart : s.start < i) (j : Nat) (hstop : s.stop = j)
      (hgap : i + 4 ≤ j) (hgap' : j < i + 4 + d.gap) (c : Char) (hc : text[j]? = some c)
      (hline : isLineEnd c = true)

namespace Declaration

variable {text : List Char} {i : Nat} {d : Declaration}

theorem StandsAt.stop_cases (h : StandsAt text i d) {j : Nat} (hstart : i < j)
    (hstop : j ≤ i + 4 + d.gap) :
    ∃ c b, Text.previous? text j = some c ∧ (isWord c = true ∨ isBlank c = true) ∧
      text[j]? = some b ∧ (isLineEnd b = true → i + 4 ≤ j ∧ j < i + 4 + d.gap) := by
  obtain ⟨m, rfl⟩ := Nat.exists_eq_add_of_lt hstart
  have hprevious : ∃ c, text[i + m]? = some c ∧ (isWord c = true ∨ isBlank c = true) := by
    by_cases hm : m < 4
    · obtain ⟨c, hc, hword⟩ := h.word (i + m) (by omega) (by omega)
      exact ⟨c, hc, Or.inl hword⟩
    · obtain ⟨c, hc, hblank⟩ := h.gap (i + m) (by omega) (by omega)
      exact ⟨c, hc, Or.inr hblank⟩
  have hnext : ∃ b, text[i + m + 1]? = some b ∧
      (isLineEnd b = true → i + 4 ≤ i + m + 1 ∧ i + m + 1 < i + 4 + d.gap) := by
    have hword {b : Char} (hb : isWord b = true) : ¬ isLineEnd b = true := by
      intro hline
      rw [isWord_eq_false_of_isBlank (isBlank_of_isLineEnd hline)] at hb
      cases hb
    by_cases hm : m + 1 < 4
    · obtain ⟨b, hb, hb'⟩ := h.word (i + m + 1) (by omega) (by omega)
      exact ⟨b, hb, fun hline => absurd hline (hword hb')⟩
    · by_cases hname : i + m + 1 = i + 4 + d.gap
      · obtain ⟨b, hb, hb'⟩ := h.name
        exact ⟨b, by rw [hname]; exact hb, fun hline => absurd hline (hword hb')⟩
      · obtain ⟨b, hb, -⟩ := h.gap (i + m + 1) (by omega) (by omega)
        exact ⟨b, hb, fun _ => ⟨by omega, by omega⟩⟩
  obtain ⟨c, hc, hc'⟩ := hprevious
  obtain ⟨b, hb, hb'⟩ := hnext
  exact ⟨c, b, Text.previous?_eq_getElem? hc, hc', hb, hb'⟩

end Declaration

theorem Pattern.variableNames_body (text : List Char) : ∀ e ∈ variableNames text, ∀ j c,
    e.start < j → j < e.stop → text[j]? = some c → isWord c = true := by
  intro e he j c hstart hstop hc
  obtain ⟨before, rest, n, rfl, rfl, hr⟩ := Occurrence.mem_extents he
  obtain ⟨body, rfl, rfl⟩ := (variableName_opens before rest n).mp hr
  obtain ⟨m, rfl⟩ := Nat.exists_eq_add_of_lt hstart
  simp only at hstop
  have hm : m < (body.takeWhile isWord).length := by omega
  have hbody : (before.reverse ++ (['$'] ++ body))[before.length + m + 1]? = body[m]? := by
    rw [Nat.add_assoc, Text.getElem?_append_place, List.singleton_append, List.getElem?_cons_succ]
  rw [hbody] at hc
  apply List.mem_takeWhile_imp (p := isWord) (l := body)
  rw [← Text.take_length_takeWhile]
  apply List.mem_of_getElem? (i := m)
  rw [List.getElem?_take_of_lt hm, hc]

namespace Definition

def TakesWords (d' : Definition) : Prop :=
  ∀ text i d, Declaration.StandsAt text i d → ∀ a ∈ d'.candidates text, a.start < i → i < a.stop →
    a.stop ≤ (i + 4 + d.gap : Nat) → a.toSpan.TakesWord text i d

variable {name : String} {category : Category} {priority : Int} {f : List Char → List Extent}

theorem takesWords_of_madeOf {p : Char → Bool} (h : MadeOf p f)
    (hp : ∀ b, isWord b = false → p b = true → p 'r' = false) :
    (ofExtents name category priority f).TakesWords := by
  intro text i d hstands a ha hstart hstop hname
  obtain ⟨e, he, hstart', hstop', -, -⟩ := exists_extent ha
  obtain ⟨j, rfl⟩ : ∃ j, i = j + 1 := ⟨i - 1, by omega⟩
  have hj : j < text.length := by
    have hlt := (List.getElem?_eq_some_iff.mp hstands.first).1
    omega
  have hb := List.getElem?_eq_getElem hj
  have hbefore := hstands.boundary j _ rfl hb
  have hin := h text e he j _ (by omega) (by omega) hb
  have hfirst := h text e he (j + 1) 'r' (by omega) (by omega) hstands.first
  rw [hp _ hbefore hin] at hfirst
  cases hfirst

theorem takesWords_of_line (opener : List Char)
    (hopener : (category, opener) ∈
      [(.comment, ['/', '/']), (.string, ['"']), (.directive, ['#'])])
    (hf : RuleHighlight.Bounded f)
    (hbegin : ∀ text, ∀ e ∈ f text, opener <+: (text.drop e.start).take (e.stop - e.start))
    (h : EndWith (fun c b => c = '"' ∨ b.all isLineEnd = true) f) :
    (ofExtents name category priority f).TakesWords := by
  intro text i d hstands a ha hstart hstop hname
  obtain ⟨e, he, hstart', hstop', hcategory, -⟩ := exists_extent ha
  have hle := hf text e he
  obtain ⟨c, hc, hends⟩ := h text e he
  obtain ⟨c', b, hc', hinside, hb, hgap⟩ := hstands.stop_cases (j := e.stop) (by omega) (by omega)
  obtain rfl := Option.some.inj (hc.symm.trans hc')
  have hline : isLineEnd b = true := by
    rcases hends with rfl | hall
    · rcases hinside with hword | hblank
      · cases hword
      · cases hblank
    · rwa [hb, Option.all_some] at hall
  refine .line opener ?_ ?_ hstart e.stop hstop' (hgap hline).1 (hgap hline).2 b hb hline
  · rw [toSpan, hcategory]
    exact hopener
  · rw [Range.textIn, toSpan, hstart', hstop', Text.slice_of_le (by omega) hle.2]
    exact hbegin text e he

theorem blockComment_takesWords : blockComment.TakesWords := by
  intro text i d hstands a ha hstart hstop hname
  obtain ⟨e, he, hstart', hstop', -, -⟩ := exists_extent ha
  obtain ⟨c, hc, hends⟩ := blockComments_endWith text e he
  obtain ⟨c', b, hc', hinside, hb, -⟩ := hstands.stop_cases (j := e.stop) (by omega) (by omega)
  obtain rfl := Option.some.inj (hc.symm.trans hc')
  rcases hends with hnone | rfl
  · rw [hnone] at hb
    cases hb
  · rcases hinside with hword | hblank
    · cases hword
    · cases hblank

theorem variableName_takesWords : variableName.TakesWords := by
  intro text i d hstands a ha hstart hstop hname
  obtain ⟨e, he, hstart', hstop', hcategory, -⟩ := exists_extent ha
  have hbody := variableNames_body text e he
  have hafter := variableNames_endWith text e he
  obtain ⟨-, -, hafter⟩ := hafter
  obtain ⟨j, rfl⟩ : ∃ j, i = j + 1 := ⟨i - 1, by omega⟩
  have hj : j < text.length := by
    have hlt := (List.getElem?_eq_some_iff.mp hstands.first).1
    omega
  have hb := List.getElem?_eq_getElem hj
  have hbefore := hstands.boundary j _ rfl hb
  have hstart_eq : e.start = j := by
    by_contra hne
    have hword := hbody j _ (by omega) (by omega) hb
    rw [hbefore] at hword
    cases hword
  have hstop_eq : e.stop = j + 1 + 4 := by
    rcases Nat.lt_trichotomy e.stop (j + 1 + 4) with hlt | heq | hgt
    · obtain ⟨c, hc, hword⟩ := hstands.word e.stop (by omega) hlt
      rw [hc, Option.any_some, hword] at hafter
      cases hafter
    · exact heq
    · obtain ⟨c, hc, hblank⟩ := hstands.gap (j + 1 + 4) (by omega) (by omega)
      have hword := hbody (j + 1 + 4) c (by omega) hgt hc
      rw [isWord_eq_false_of_isBlank hblank] at hword
      cases hword
  refine .variableName hcategory ?_ ?_
  · rw [toSpan, hstart', hstart_eq]
    rfl
  · rw [toSpan, hstop', hstop_eq]

end Definition

namespace Catalogue

open Definition

theorem builtIn_takesWords : ∀ d ∈ builtIn, d.TakesWords := by
  have hword (b : Char) (hb : isWord b = false) (hb' : isWord b = true) : isWord 'r' = false := by
    rw [hb] at hb'
    cases hb'
  simp only [builtIn, List.forall_mem_cons, List.not_mem_nil, false_imp_iff, implies_true, and_true]
  refine ⟨?_, ?_, ?_, ?_, ?_, ?_, ?_, ?_, ?_, ?_, ?_⟩
  · exact blockComment_takesWords
  · apply takesWords_of_line ['/', '/'] (by simp)
      (Occurrence.extents_bounded lineComment_fits)
    · intro text e he
      apply lineComment_opens.isPrefix_of_mem _ he
      rintro - body n rfl
      exact Nat.le_add_left 2 _
    · exact lineComments_endWith.imp (fun _ _ h => Or.inr h)
  · apply takesWords_of_line ['"'] (by simp)
      (Occurrence.extents_bounded stringLiteral_fits)
    · intro text e he
      apply stringLiteral_opens.isPrefix_of_mem _ he
      rintro - body n rfl
      exact Nat.le_add_left 1 _
    · exact stringLiterals_endWith
  · exact takesWords_of_madeOf Declaration.words_madeOf hword
  · exact takesWords_of_madeOf Declaration.names_madeOf hword
  · exact variableName_takesWords
  · apply takesWords_of_line ['#'] (by simp)
      (Occurrence.extents_bounded directive_fits)
    · intro text e he
      apply directive_opens.isPrefix_of_mem _ he
      rintro - body n ⟨-, rfl⟩
      exact Nat.le_add_left 1 _
    · exact directives_endWith.imp (fun _ _ h => Or.inr h)
  · exact takesWords_of_madeOf numbers_madeOf (fun _ _ _ => rfl)
  · exact takesWords_of_madeOf (wordsIn_madeOf _) hword
  · exact takesWords_of_madeOf operators_madeOf (fun _ _ _ => rfl)
  · exact takesWords_of_madeOf (wordsIn_madeOf _) hword

end Catalogue

theorem Span.TakesWord.bounds {text : List Char} {i : Nat} {d : Declaration} {s : Span}
    (h : s.TakesWord text i d) :
    s.start < i ∧ ((i + 4 : Nat) : Int) ≤ s.stop ∧ s.stop ≤ (i + 4 + d.gap : Nat) := by
  cases h with
  | variableName hs hstart hstop => omega
  | line opener hs htext hstart j hstop hgap hgap' c hc hline => omega

theorem Catalogue.takesWord_of_mem_resolve {text : List Char} {i : Nat} {d : Declaration}
    (h : (i, d) ∈ Declaration.all text) {a : Candidate}
    (ha : a ∈ resolve (builtIn.candidates text)) (hstart : a.start < i) (hreach : i < a.stop)
    (hstop : a.stop ≤ (i + 4 + d.gap : Nat)) : a.toSpan.TakesWord text i d := by
  obtain ⟨d', hd', ha'⟩ := mem_candidates.mp (resolve_subset _ ha)
  exact builtIn_takesWords d' hd' text i d (Declaration.standsAt h) a ha' hstart hreach hstop

/-- With the word of a declaration its name is published. The name alone is published exactly if
something takes the word, and this is what any span does that starts before the word, reaches into it
and stops before the name. -/
theorem scan_declaration (text : List Char) (i : Nat) (d : Declaration)
    (h : (i, d) ∈ Declaration.all text) :
    ∃ spans, scan Catalogue.builtIn text = .ok spans ∧
      (Declaration.wordSpan i ∈ spans → Declaration.nameSpan i d ∈ spans) ∧
      (Declaration.nameSpan i d ∈ spans ∧ Declaration.wordSpan i ∉ spans ↔
        ∃ s ∈ spans, s.TakesWord text i d) ∧
      ∀ s ∈ spans, s.start < i → i < s.stop → s.stop ≤ (i + 4 + d.gap : Nat) →
        s.TakesWord text i d := by
  have hordered := resolve_ordered (Catalogue.builtIn.candidates text)
  have hfirst := (Declaration.standsAt h).first
  refine ⟨_, scan_builtIn text, ?_, ⟨?_, ?_⟩, ?_⟩
  · intro hword
    obtain ⟨k, hk, hspan⟩ := List.mem_map.mp hword
    have hstart : k.start = i := congrArg (fun s : Span => s.start) hspan
    have hstop : k.stop = (i + 4 : Nat) := congrArg (fun s : Span => s.stop) hspan
    exact List.mem_map_of_mem (Declaration.nameCandidate_mem_resolve h hk (by omega) (by omega)
      (by omega))
  · rintro ⟨hname, hword⟩
    obtain ⟨k, hk, hspan⟩ := List.mem_map.mp hname
    have hstart : k.start = (i + 4 + d.gap : Nat) := congrArg (fun s : Span => s.start) hspan
    have hplace : (Declaration.wordCandidate i).start = i := rfl
    have hne : (Declaration.wordCandidate i).start < (Declaration.wordCandidate i).stop := by
      simp only [Declaration.wordCandidate, Declaration.wordExtent, Extent.toRange]
      omega
    rcases Catalogue.mem_resolve_or_reached (Declaration.wordCandidate_mem h) hne rfl hplace hfirst
      rfl with hmem | ⟨a, ha, hlt, hreach⟩
    · exact absurd (List.mem_map_of_mem hmem) hword
    · rw [hplace] at hlt hreach
      have hstop : a.stop ≤ k.start := by
        rcases hordered.stop_le_start ha hk (by omega) with rfl | hle
        · omega
        · exact hle
      exact ⟨a.toSpan, List.mem_map_of_mem ha,
        Catalogue.takesWord_of_mem_resolve h ha hlt hreach (by omega)⟩
  · rintro ⟨s, hs, htakes⟩
    obtain ⟨k, hk, rfl⟩ := List.mem_map.mp hs
    obtain ⟨hstart, hstop, hname⟩ := htakes.bounds
    refine ⟨List.mem_map_of_mem
      (Declaration.nameCandidate_mem_resolve h hk (Int.le_of_lt hstart) hstop hname), ?_⟩
    intro hword
    obtain ⟨a, ha, hspan⟩ := List.mem_map.mp hword
    have hplace : a.start = i := congrArg (fun s : Span => s.start) hspan
    have hle : k.start ≤ a.start := by rw [hplace]; exact Int.le_of_lt hstart
    rcases hordered.stop_le_start hk ha hle with rfl | hafter
    · exact absurd hplace (Int.ne_of_lt hstart)
    · have hover : ((i + 4 : Nat) : Int) ≤ i := by
        rw [← hplace]
        exact Int.le_trans hstop hafter
      omega
  · intro s hs hstart hreach hstop
    obtain ⟨a, ha, rfl⟩ := List.mem_map.mp hs
    exact Catalogue.takesWord_of_mem_resolve h ha hstart hreach hstop

theorem scan_declaration_after_comment :
    (3, ⟨1, 1, 1⟩) ∈ Declaration.all "// rule\nx \x7b".toList ∧
      ∃ spans, scan Catalogue.builtIn "// rule\nx \x7b".toList = .ok spans ∧
        (Declaration.wordSpan 3 ∈ spans → Declaration.nameSpan 3 ⟨1, 1, 1⟩ ∈ spans) ∧
        (Declaration.nameSpan 3 ⟨1, 1, 1⟩ ∈ spans ∧ Declaration.wordSpan 3 ∉ spans ↔
          ∃ s ∈ spans, s.TakesWord "// rule\nx \x7b".toList 3 ⟨1, 1, 1⟩) ∧
        ∀ s ∈ spans, s.start < 3 → 3 < s.stop → s.stop ≤ (3 + 4 + 1 : Nat) →
          s.TakesWord "// rule\nx \x7b".toList 3 ⟨1, 1, 1⟩ := by
  have hmem : (3, ⟨1, 1, 1⟩) ∈ Declaration.all "// rule\nx \x7b".toList := by decide +kernel
  exact ⟨hmem, scan_declaration _ 3 ⟨1, 1, 1⟩ hmem⟩

theorem name_without_word :
    (3, ⟨1, 1, 1⟩) ∈ Declaration.all "// rule\nx \x7b".toList ∧
      ∃ spans, scan Catalogue.builtIn "// rule\nx \x7b".toList = .ok spans ∧
        Declaration.nameSpan 3 ⟨1, 1, 1⟩ ∈ spans ∧ Declaration.wordSpan 3 ∉ spans := by
  have hperm : (Catalogue.builtIn.candidates "// rule\nx \x7b".toList).Perm
      [⟨⟨0, 7⟩, .comment, 1⟩, ⟨⟨0, 2⟩, .operator, 7⟩, ⟨⟨3, 7⟩, .keyword, 3⟩, ⟨⟨3, 7⟩, .keyword, 8⟩,
       ⟨⟨8, 9⟩, .ruleName, 3⟩] := by decide +kernel
  exact ⟨by decide +kernel, _, scan_of_perm hperm (by decide), by decide⟩

end RuleHighlight
