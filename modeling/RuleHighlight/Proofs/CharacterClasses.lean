import RuleHighlight.Proofs.Pattern.Classes
import RuleHighlight.Proofs.ScanOutput

/-!
Scans look at the classes of characters only: texts that are alike character by character have the
same spans.
-/

namespace RuleHighlight

open CharClass

namespace Catalogue

open Pattern

theorem ranges_representative (text : List Char) :
    ∀ d ∈ builtIn, d.ranges (text.map representative) = d.ranges text := by
  simp only [builtIn, List.forall_mem_cons, List.not_mem_nil, false_imp_iff, implies_true, and_true]
  refine ⟨?_, ?_, ?_, ?_, ?_, ?_, ?_, ?_, ?_, ?_, ?_⟩ <;> apply congrArg (List.map Extent.toRange)
  · exact Occurrence.extents_through blockComment_through text
  · exact Occurrence.extents_through lineComment_through text
  · exact Occurrence.extents_through stringLiteral_through text
  · rw [Declaration.words, Declaration.words, Declaration.all_representative]
  · rw [Declaration.names, Declaration.names, Declaration.all_representative]
  · exact Occurrence.extents_through variableName_through text
  · exact Occurrence.extents_through directive_through text
  · exact numbers_representative text
  · exact wordsIn_representative truthValues text
  · exact operators_representative text
  · exact wordsIn_representative keywords text

@[simp]
theorem candidates_representative (text : List Char) :
    builtIn.candidates (text.map representative) = builtIn.candidates text := by
  refine List.flatMap_congr (fun d hd => ?_)
  rw [Definition.candidates, Definition.candidates, ranges_representative text d hd]

end Catalogue

/-- Texts of which each two characters in one place are alike have the same spans. Line ends are
alike, so are other blanks, and so is all that is neutral, as every character beyond ASCII is. -/
theorem scan_eq_of_alike (s t : List Char) (h : List.Forall₂ Alike s t) :
    (∃ spans, scan Catalogue.builtIn s = .ok spans ∧ scan Catalogue.builtIn t = .ok spans) ∧
      ∀ c : Char, 128 ≤ c.toNat → isNeutral c = true := by
  refine ⟨⟨_, scan_builtIn s, ?_⟩, fun c hc => isNeutral_of_le hc⟩
  rw [scan_builtIn, ← Catalogue.candidates_representative t, ← map_representative h,
    Catalogue.candidates_representative]

theorem scan_eq_of_alike_lines :
    List.Forall₂ Alike "#é\r\n\t\"a b\x0c\u2028".toList "#!\n\n \"a b\x0b\u3000".toList ∧
      ∃ spans, scan Catalogue.builtIn "#é\r\n\t\"a b\x0c\u2028".toList = .ok spans ∧
        scan Catalogue.builtIn "#!\n\n \"a b\x0b\u3000".toList = .ok spans := by
  have h : List.Forall₂ Alike "#é\r\n\t\"a b\x0c\u2028".toList "#!\n\n \"a b\x0b\u3000".toList := by
    refine .cons (.same _) (.cons (.neutrals rfl rfl) (.cons (.lineEnds rfl rfl)
      (.cons (.same _) (.cons (.spacings rfl rfl) (.cons (.same _) (.cons (.same _)
      (.cons (.same _) (.cons (.same _) (.cons (.spacings rfl rfl)
      (.cons (.neutrals rfl rfl) .nil))))))))))
  exact ⟨h, (scan_eq_of_alike _ _ h).1⟩

end RuleHighlight
