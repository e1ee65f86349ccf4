import RuleHighlight.Scan
import RuleHighlight.Proofs.Resolution
import RuleHighlight.Proofs.Pattern.Number
import Mathlib.Data.List.Chain

namespace RuleHighlight

namespace Definition

@[simp]
theorem mem_candidates {d : Definition} {text : List Char} {k : Candidate} :
    k ∈ d.candidates text ↔
      k.toRange ∈ d.ranges text ∧ k.category = d.category ∧ k.priority = d.priority ∧
        k.start < k.stop := by
  simp only [candidates, List.mem_filter, List.mem_map, Bool.not_eq_true', Candidate.isEmpty_eq_false]
  constructor
  · rintro ⟨⟨range, hr, rfl⟩, hlt⟩
    exact ⟨hr, rfl, rfl, hlt⟩
  · rintro ⟨hr, hc, hp, hlt⟩
    exact ⟨⟨k.toRange, hr, by rw [← hc, ← hp]⟩, hlt⟩

def Bounded (d : Definition) : Prop :=
  ∀ text, ∀ range ∈ d.ranges text, 0 ≤ range.start ∧ range.stop ≤ text.length

theorem ofExtents_bounded {name : String} {category : Category} {priority : Int}
    {f : List Char → List Extent} (h : RuleHighlight.Bounded f) :
    (ofExtents name category priority f).Bounded := by
  intro text range hr
  obtain ⟨e, he, rfl⟩ := List.mem_map.mp hr
  have hle := (h text e he).2
  simp only [Extent.toRange]
  omega

end Definition

namespace Catalogue

open Definition Pattern

@[simp]
theorem mem_candidates {c : Catalogue} {text : List Char} {k : Candidate} :
    k ∈ c.candidates text ↔ ∃ d ∈ c, k ∈ d.candidates text := List.mem_flatMap

theorem builtIn_bounded : ∀ d ∈ builtIn, d.Bounded := by
  simp only [builtIn, List.forall_mem_cons, List.not_mem_nil, false_imp_iff, implies_true, and_true]
  refine ⟨?_, ?_, ?_, ?_, ?_, ?_, ?_, ?_, ?_, ?_, ?_⟩
  · exact ofExtents_bounded (Occurrence.extents_bounded blockComment_fits)
  · exact ofExtents_bounded (Occurrence.extents_bounded lineComment_fits)
  · exact ofExtents_bounded (Occurrence.extents_bounded stringLiteral_fits)
  · exact ofExtents_bounded Declaration.words_bounded
  · exact ofExtents_bounded Declaration.names_bounded
  · exact ofExtents_bounded (Occurrence.extents_bounded variableName_fits)
  · exact ofExtents_bounded (Occurrence.extents_bounded directive_fits)
  · exact ofExtents_bounded numbers_bounded
  · exact ofExtents_bounded (Run.extents_bounded _)
  · exact ofExtents_bounded (Run.extents_bounded _)
  · exact ofExtents_bounded (Run.extents_bounded _)

theorem candidates_bounded {text : List Char} {k : Candidate} (hk : k ∈ builtIn.candidates text) :
    0 ≤ k.start ∧ k.stop ≤ text.length := by
  obtain ⟨d, hd, hk⟩ := mem_candidates.mp hk
  exact builtIn_bounded d hd text k.toRange (Definition.mem_candidates.mp hk).1

theorem candidates_nil : builtIn.candidates [] = [] := by
  rw [List.eq_nil_iff_forall_not_mem]
  intro k hk
  have hbound := candidates_bounded hk
  obtain ⟨d, -, hk⟩ := mem_candidates.mp hk
  have hlt := (Definition.mem_candidates.mp hk).2.2.2
  simp only [List.length_nil] at hbound
  omega

end Catalogue

theorem Scan.ofText_eq (catalogue : Catalogue) (text : List Char) :
    Scan.ofText catalogue text =
      .ok ⟨catalogue.candidates text, (Resolution.ofCandidates (catalogue.candidates text)).rejected,
        (resolve (catalogue.candidates text)).map Candidate.toSpan⟩ := by
  have hemit := emit_resolve (catalogue.candidates text)
  rw [resolve] at hemit
  simp only [Scan.ofText, hemit, resolve]

theorem scan_eq (catalogue : Catalogue) (text : List Char) :
    scan catalogue text = .ok (if text.isEmpty then []
      else (resolve (catalogue.candidates text)).map Candidate.toSpan) := by
  rw [scan, Scan.ofText_eq]
  split_ifs <;> rfl

theorem scan_builtIn (text : List Char) :
    scan Catalogue.builtIn text =
      .ok ((resolve (Catalogue.builtIn.candidates text)).map Candidate.toSpan) := by
  rw [scan_eq]
  cases text with
  | nil => simp [Catalogue.candidates_nil, resolve_eq, Resolution.sift]
  | cons c text => rfl

/-- Every text can be scanned with every catalogue. -/
theorem scan_ordered_spans (catalogue : Catalogue) (text : List Char) :
    ∃ spans, (Content.text text).scan catalogue = .ok spans ∧
      (∀ s ∈ spans, s.start < s.stop) ∧ spans.IsChain (fun s t => s.stop ≤ t.start) ∧
      (catalogue = Catalogue.builtIn → ∀ s ∈ spans, 0 ≤ s.start ∧ s.stop ≤ text.length) := by
  have hscan : (Content.text text).scan catalogue = .ok (if text.isEmpty then []
      else (resolve (catalogue.candidates text)).map Candidate.toSpan) := by
    rw [Content.scan, scan_eq]
    rfl
  refine ⟨_, hscan, ?_⟩
  cases text with
  | nil => simp
  | cons c text =>
    have hordered := resolve_ordered (catalogue.candidates (c :: text))
    simp only [List.isEmpty_cons, Bool.false_eq_true, ↓reduceIte, List.forall_mem_map,
      List.isChain_map]
    refine ⟨hordered.start_lt_stop, hordered.isChain, ?_⟩
    rintro rfl k hk
    exact Catalogue.candidates_bounded (resolve_subset _ hk)

end RuleHighlight
