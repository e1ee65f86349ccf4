import RuleHighlight.Proofs.Precedence
import RuleHighlight.Proofs.Pattern.Endings

namespace RuleHighlight

open CharClass

namespace Candidate

variable {k : Candidate} {c : Char} {b : Option Char}

inductive EndsWith (k : Candidate) (c : Char) (b : Option Char) : Prop
  | comment (hk : k.category = .comment) (h : c = '/' ∨ b.all isLineEnd = true)
  | string (hk : k.category = .string) (h : c = '"' ∨ b.all isLineEnd = true)
  | directive (hk : k.category = .directive) (hb : b.all isLineEnd = true)
  | word (hb : b.any isWord = false)
  | number (hk : k.category = .number) (h : AtStop c b)
  | operator (hk : k.category = .operator) (hc : isOperator c = true)

theorem any_isWord_of_all_isLineEnd (h : b.all isLineEnd = true) : b.any isWord = false := by
  cases b with
  | none => rfl
  | some a => exact isWord_eq_false_of_isBlank (isBlank_of_isLineEnd h)

theorem EndsWith.atStop (h : k.EndsWith c b) : AtStop c b := by
  intro hword
  cases h with
  | comment hk h =>
    rcases h with rfl | hb
    · cases hword
    · exact any_isWord_of_all_isLineEnd hb
  | string hk h =>
    rcases h with rfl | hb
    · cases hword
    · exact any_isWord_of_all_isLineEnd hb
  | directive hk hb => exact any_isWord_of_all_isLineEnd hb
  | word hb => exact hb
  | number hk h => exact h hword
  | operator hk hc =>
    rw [isWord_eq_false_of_isOperator hc] at hword
    cases hword

def Inline (text : List Char) (k : Candidate) : Prop :=
  (∃ c ∈ k.textIn text, isLineEnd c = true) → k.category = .comment ∧ ['/', '*'] <+: k.textIn text

end Candidate

open Candidate Pattern

namespace Definition

variable {name : String} {category : Category} {priority : Int} {f : List Char → List Extent}

def EndsWell (d : Definition) : Prop :=
  ∀ text, ∀ k ∈ d.candidates text, ∃ (i : Nat) (c : Char), k.stop = i ∧
    Text.previous? text i = some c ∧ k.EndsWith c text[i]?

theorem endsWell {q : Char → Option Char → Prop} (h : EndWith q f)
    (hq : ∀ k : Candidate, ∀ c b, k.category = category → q c b → k.EndsWith c b) :
    (ofExtents name category priority f).EndsWell := by
  intro text k hk
  obtain ⟨e, he, -, hstop, hcategory, -⟩ := exists_extent hk
  obtain ⟨c, hc, hends⟩ := h text e he
  exact ⟨e.stop, c, hstop, hc, hq k c _ hcategory hends⟩

theorem textIn_eq {text : List Char} {k : Candidate} (hf : RuleHighlight.Bounded f)
    (hk : k ∈ (ofExtents name category priority f).candidates text) :
    ∃ e ∈ f text, k.category = category ∧
      k.textIn text = (text.drop e.start).take (e.stop - e.start) := by
  obtain ⟨e, he, hstart, hstop, hcategory, -⟩ := exists_extent hk
  have hle := hf text e he
  refine ⟨e, he, hcategory, ?_⟩
  rw [Range.textIn, hstart, hstop, Text.slice_of_le (by omega) hle.2]

theorem inline_of_madeOf (hf : RuleHighlight.Bounded f) (h : MadeOf (fun c => !isLineEnd c) f)
    (text : List Char) :
    ∀ k ∈ (ofExtents name category priority f).candidates text, k.Inline text := by
  intro k hk hline
  obtain ⟨e, he, -, htext⟩ := textIn_eq hf hk
  obtain ⟨c, hc, hend⟩ := hline
  rw [htext] at hc
  obtain ⟨j, hj⟩ := List.mem_iff_getElem?.mp hc
  rw [List.getElem?_take] at hj
  split_ifs at hj with hlt
  rw [List.getElem?_drop] at hj
  have hinside := h text e he (e.start + j) c (by omega) (by omega) hj
  simp only [hend] at hinside
  cases hinside

theorem blockComment_inline (text : List Char) :
    ∀ k ∈ blockComment.candidates text, k.Inline text := by
  intro k hk _
  obtain ⟨e, he, hcategory, htext⟩ := textIn_eq (Occurrence.extents_bounded blockComment_fits) hk
  rw [htext]
  refine ⟨hcategory, blockComment_opens.isPrefix_of_mem ?_ he⟩
  rintro before body n rfl
  exact Nat.le_add_left 2 _

end Definition

namespace Catalogue

open Definition

theorem builtIn_endsWell : ∀ d ∈ builtIn, d.EndsWell := by
  simp only [builtIn, List.forall_mem_cons, List.not_mem_nil, false_imp_iff, implies_true, and_true]
  refine ⟨?_, ?_, ?_, ?_, ?_, ?_, ?_, ?_, ?_, ?_, ?_⟩
  · apply endsWell blockComments_endWith
    rintro k c b hk (rfl | hc)
    · exact .comment hk (Or.inr rfl)
    · exact .comment hk (Or.inl hc)
  · exact endsWell lineComments_endWith (fun _ _ _ hk h => .comment hk (Or.inr h))
  · exact endsWell stringLiterals_endWith (fun _ _ _ hk h => .string hk h)
  · apply endsWell Declaration.words_endWith
    rintro k c b - ⟨-, hb⟩
    obtain ⟨a, rfl, ha⟩ := (Option.any_eq_true _ _).mp hb
    exact .word (isWord_eq_false_of_isBlank ha)
  · exact endsWell Declaration.names_endWith (fun _ _ _ _ h => .word h.2)
  · exact endsWell variableNames_endWith (fun _ _ _ _ h => .word h)
  · exact endsWell directives_endWith (fun _ _ _ hk h => .directive hk h)
  · exact endsWell numbers_endWith (fun _ _ _ hk h => .number hk h)
  · exact endsWell (wordsIn_endWith _) (fun _ _ _ _ h => .word h.2)
  · exact endsWell operators_endWith (fun _ _ _ hk h => .operator hk h.1)
  · exact endsWell (wordsIn_endWith _) (fun _ _ _ _ h => .word h.2)

theorem builtIn_inline (text : List Char) :
    ∀ d ∈ builtIn, ∀ k ∈ d.candidates text, k.Inline text := by
  have hword (c : Char) (hc : isWord c = true) : (!isLineEnd c) = true := by
    rw [Bool.not_eq_true', Bool.eq_false_iff]
    intro hline
    rw [isWord_eq_false_of_isBlank (isBlank_of_isLineEnd hline)] at hc
    cases hc
  simp only [builtIn, List.forall_mem_cons, List.not_mem_nil, false_imp_iff, implies_true, and_true]
  refine ⟨?_, ?_, ?_, ?_, ?_, ?_, ?_, ?_, ?_, ?_, ?_⟩
  · exact blockComment_inline text
  · exact inline_of_madeOf (Occurrence.extents_bounded lineComment_fits) lineComments_madeOf text
  · exact inline_of_madeOf (Occurrence.extents_bounded stringLiteral_fits) stringLiterals_madeOf text
  · exact inline_of_madeOf Declaration.words_bounded (Declaration.words_madeOf.imp hword) text
  · exact inline_of_madeOf Declaration.names_bounded (Declaration.names_madeOf.imp hword) text
  · apply inline_of_madeOf (Occurrence.extents_bounded variableName_fits)
    refine variableNames_madeOf.imp (fun c hc => ?_)
    rcases Bool.or_eq_true_iff.mp hc with hc | hc
    · rw [beq_iff_eq.mp hc]
      rfl
    · exact hword c hc
  · exact inline_of_madeOf (Occurrence.extents_bounded directive_fits) directives_madeOf text
  · apply inline_of_madeOf numbers_bounded
    refine numbers_madeOf.imp (fun c hc => ?_)
    rcases isWord_of_isNumeral hc with hc | rfl | rfl
    · exact hword c hc
    · rfl
    · rfl
  · exact inline_of_madeOf (Run.extents_bounded _) ((wordsIn_madeOf _).imp hword) text
  · apply inline_of_madeOf (Run.extents_bounded _)
    refine operators_madeOf.imp (fun c hc => ?_)
    rw [Bool.not_eq_true', Bool.eq_false_iff]
    intro hline
    rw [eq_false_of_isLineEnd (p := isOperator) rfl rfl hline] at hc
    cases hc
  · exact inline_of_madeOf (Run.extents_bounded _) ((wordsIn_madeOf _).imp hword) text

theorem start_ne_and_stop_ne {text : List Char} {k : Candidate} (hk : k ∈ builtIn.candidates text)
    {i : Nat} {a b : Char} (ha : text[i]? = some a) (hb : text[i + 1]? = some b)
    (hword : isWord a = true) (hword' : isWord b = true) :
    k.start ≠ (i + 1 : Nat) ∧ k.stop ≠ (i + 1 : Nat) := by
  obtain ⟨d, hd, hk⟩ := mem_candidates.mp hk
  have hprevious := Text.previous?_eq_getElem? ha
  constructor
  · intro hstart
    obtain ⟨j, c, hj, hc, hbegins⟩ := builtIn_beginsWell d hd text k hk
    obtain rfl : j = i + 1 := Int.ofNat.inj (hj.symm.trans hstart)
    obtain rfl := Option.some.inj (hc.symm.trans hb)
    rw [hprevious] at hbegins
    rw [hbegins.atBoundary (by rwa [Option.any_some])] at hword'
    cases hword'
  · intro hstop
    obtain ⟨j, c, hj, hc, hends⟩ := builtIn_endsWell d hd text k hk
    obtain rfl : j = i + 1 := Int.ofNat.inj (hj.symm.trans hstop)
    obtain rfl := Option.some.inj (hc.symm.trans hprevious)
    have hafter := hends.atStop hword
    rw [hb, Option.any_some, hword'] at hafter
    cases hafter

end Catalogue

/-- Spans start and stop outside of words, and only block comments reach over a line end. -/
theorem scan_whole_words (text : List Char) :
    ∃ spans, scan Catalogue.builtIn text = .ok spans ∧ ∀ s ∈ spans,
      (∀ (i : Nat) (a b : Char), text[i]? = some a → text[i + 1]? = some b → isWord a = true →
        isWord b = true → s.start ≠ (i + 1 : Nat) ∧ s.stop ≠ (i + 1 : Nat)) ∧
      ((∃ c ∈ s.textIn text, isLineEnd c = true) →
        s.category = .comment ∧ ['/', '*'] <+: s.textIn text) := by
  refine ⟨_, scan_builtIn text, List.forall_mem_map.mpr ?_⟩
  intro k hk
  have hmem := resolve_subset _ hk
  obtain ⟨d, hd, hinline⟩ := Catalogue.mem_candidates.mp hmem
  refine ⟨?_, Catalogue.builtIn_inline text d hd k hinline⟩
  intro i a b ha hb hword hword'
  exact Catalogue.start_ne_and_stop_ne hmem ha hb hword hword'

end RuleHighlight
