import RuleHighlight.Proofs.CatalogueOrder
import RuleHighlight.Proofs.Pattern.Splitting
import Mathlib.Data.List.Perm.Basic

/-!
A scan can be done line by line. Cut at a line end that is neither in a block comment nor right
after a word, a text has the spans of the two parts, those of the second one moved.
-/

namespace RuleHighlight

open CharClass Resolution

def Range.shift (d : Int) (r : Range) : Range := ⟨r.start + d, r.stop + d⟩

def Candidate.shift (d : Int) (k : Candidate) : Candidate := { k with toRange := k.toRange.shift d }

def Span.shift (d : Int) (s : Span) : Span := { s with toRange := s.toRange.shift d }

namespace Candidate

@[simp]
theorem shift_isEmpty (d : Int) (k : Candidate) : (k.shift d).isEmpty = k.isEmpty := by
  simp [isEmpty, shift, Range.shift]

@[simp]
theorem before_shift (d : Int) (a b : Candidate) : before (a.shift d) (b.shift d) = before a b := by
  simp [before, shift, Range.shift]

end Candidate

namespace Resolution

theorem sift_shift (d : Int) (last : Option Int) (cs : List Candidate) :
    (sift (last.map (· + d)) (cs.map (Candidate.shift d))).accepted =
      (sift last cs).accepted.map (Candidate.shift d) := by
  induction cs generalizing last with
  | nil => rfl
  | cons c cs ih =>
    have hlast : (last.map (· + d)).any ((c.shift d).start < ·) = last.any (c.start < ·) := by
      cases last <;> simp [Candidate.shift, Range.shift]
    rw [List.map_cons, accepted_sift_cons, accepted_sift_cons, Candidate.shift_isEmpty, hlast, ih]
    split_ifs
    · rfl
    · rw [List.map_cons, ← ih]
      rfl

end Resolution

theorem resolve_shift (d : Int) (cs : List Candidate) :
    resolve (cs.map (Candidate.shift d)) = (resolve cs).map (Candidate.shift d) := by
  have hsort := List.map_mergeSort (l := cs) (f := Candidate.shift d)
    (fun a _ b _ => (Candidate.before_shift d a b).symm)
  rw [resolve_eq, ← hsort, resolve_eq]
  exact sift_shift d none _

theorem Definition.candidates_append_cons {front back : List Char} {c : Char} {name : String}
    {category : Category} {priority : Int} {f : List Char → List Extent} (h : SplitsAt front c back f) :
    (ofExtents name category priority f).candidates (front ++ c :: back) =
      (ofExtents name category priority f).candidates front ++
        ((ofExtents name category priority f).candidates back).map
          (Candidate.shift (front.length + 1)) := by
  have hrange (e : Extent) : (⟨(e.shift (front.length + 1)).toRange, category, priority⟩ : Candidate) =
      Candidate.shift (front.length + 1) ⟨e.toRange, category, priority⟩ := by
    simp [Extent.shift, Extent.toRange, Candidate.shift, Range.shift]
  simp only [candidates, ofExtents]
  rw [h]
  simp [List.filter_map, Function.comp_def, hrange]

section

variable {front : List Char} {c : Char} (hc : isLineEnd c = true)
  (hclosed : Pattern.CommentsClosed front) (hlast : (Text.lastVisible? front).any isWord = false)

include hc hclosed hlast

namespace Catalogue

open Definition Pattern

theorem builtIn_splits (back : List Char) : ∀ d ∈ builtIn, d.candidates (front ++ c :: back) =
    d.candidates front ++ (d.candidates back).map (Candidate.shift (front.length + 1)) := by
  simp only [builtIn, List.forall_mem_cons, List.not_mem_nil, false_imp_iff, implies_true, and_true]
  refine ⟨?_, ?_, ?_, ?_, ?_, ?_, ?_, ?_, ?_, ?_, ?_⟩ <;> apply Definition.candidates_append_cons
  · exact blockComments_splitsAt hc hclosed
  · exact lineComments_splitsAt hc
  · exact stringLiterals_splitsAt hc
  · exact Declaration.words_splitsAt (Declaration.all_append_lineEnd hc hlast)
  · exact Declaration.names_splitsAt (Declaration.all_append_lineEnd hc hlast)
  · exact variableNames_splitsAt (isBreak_of_isLineEnd hc)
  · exact directives_splitsAt hc
  · exact numbers_splitsAt (isBreak_of_isLineEnd hc)
  · exact wordsIn_splitsAt truthValues (isBreak_of_isLineEnd hc)
  · exact operators_splitsAt hc
  · exact wordsIn_splitsAt keywords (isBreak_of_isLineEnd hc)

theorem candidates_perm (back : List Char) :
    (builtIn.candidates (front ++ c :: back)).Perm (builtIn.candidates front ++
      (builtIn.candidates back).map (Candidate.shift (front.length + 1))) := by
  have hsplit := List.flatMap_congr (builtIn_splits hc hclosed hlast back)
  rw [candidates, hsplit, candidates, candidates, List.map_flatMap]
  exact (List.flatMap_append_perm builtIn _ _).symm

end Catalogue

theorem resolve_append_cons (back : List Char) :
    resolve (Catalogue.builtIn.candidates (front ++ c :: back)) =
      resolve (Catalogue.builtIn.candidates front) ++
        (resolve (Catalogue.builtIn.candidates back)).map (Candidate.shift (front.length + 1)) := by
  have hdistinct := Catalogue.candidates_distinct (front ++ c :: back)
  have hperm := Catalogue.candidates_perm hc hclosed hlast back
  have hmem (k : Candidate) := hperm.mem_iff (a := k)
  -- The order in which the patterns propose is lost here, and does not matter.
  rw [resolve_congr hdistinct hmem, resolve_append, resolve_shift]
  · exact fun a ha b hb => hdistinct a ((hmem a).mpr ha) b ((hmem b).mpr hb)
  · intro k hk
    obtain ⟨d, -, hk⟩ := Catalogue.mem_candidates.mp hk
    exact (Definition.mem_candidates.mp hk).2.2.2
  · intro k hk moved hmoved
    obtain ⟨k', hk', rfl⟩ := List.mem_map.mp hmoved
    have hstop := (Catalogue.candidates_bounded hk).2
    have hstart := (Catalogue.candidates_bounded hk').1
    simp only [Candidate.shift, Range.shift]
    omega

end

/-- Cut at a line end, a text scans as its two parts do, if the block comments before the cut are
closed and no word comes last before it. -/
theorem scan_append_of_isLineEnd (front back : List Char) (c : Char) (hc : isLineEnd c = true)
    (hclosed : Pattern.CommentsClosed front)
    (hlast : (Text.lastVisible? front).any isWord = false) :
    ∃ before after, scan Catalogue.builtIn front = .ok before ∧
      scan Catalogue.builtIn back = .ok after ∧
      scan Catalogue.builtIn (front ++ c :: back) =
        .ok (before ++ after.map (Span.shift (front.length + 1))) := by
  refine ⟨_, _, scan_builtIn front, scan_builtIn back, ?_⟩
  rw [scan_builtIn, resolve_append_cons hc hclosed hlast back, List.map_append, List.map_map,
    List.map_map]
  rfl

theorem scan_append_of_isLineEnd_literal :
    Pattern.CommentsClosed "/* a */ \"b\\ ".toList ∧
      (Text.lastVisible? "/* a */ \"b\\ ".toList).any isWord = false ∧
      ∃ before after, scan Catalogue.builtIn "/* a */ \"b\\ ".toList = .ok before ∧
        scan Catalogue.builtIn "rule c \x7b".toList = .ok after ∧
        scan Catalogue.builtIn "/* a */ \"b\\ \rrule c \x7b".toList =
          .ok (before ++ after.map (Span.shift 13)) := by
  have hclosed : Pattern.CommentsClosed "/* a */ \"b\\ ".toList := by decide
  have hlast : (Text.lastVisible? "/* a */ \"b\\ ".toList).any isWord = false := by decide
  exact ⟨hclosed, hlast, scan_append_of_isLineEnd _ "rule c \x7b".toList '\r' rfl hclosed hlast⟩

end RuleHighlight
