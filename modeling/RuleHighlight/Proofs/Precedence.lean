import RuleHighlight.Proofs.CatalogueOrder
import RuleHighlight.Proofs.Pattern.Edges

/-!
What a candidate can lose to. A candidate that is not published overlaps one that is, and this one
ranks as high or higher, unless it starts earlier and is a directive, or is a literal or a run of
operators that hides a comment. The reason is in the characters: whatever else reaches over the
start of a candidate is made of characters that nothing of a higher rank begins with.
-/

namespace RuleHighlight

open CharClass

namespace CharClass

theorem isWord_eq_false_of_isOperator {c : Char} (h : isOperator c = true) : isWord c = false := by
  simp only [isOperator, Bool.or_eq_true, beq_iff_eq] at h
  rcases h with ((((((rfl | rfl) | rfl) | rfl) | rfl) | rfl) | rfl) | rfl <;> rfl

theorem isNumeral_eq_false_of_isOperator {c : Char} (h : isOperator c = true) :
    isNumeral c = false := by
  rw [Bool.eq_false_iff]
  intro hnumeral
  rcases isWord_of_isNumeral hnumeral with hword | rfl | rfl
  · rw [isWord_eq_false_of_isOperator h] at hword
    cases hword
  · cases h
  · cases h

theorem isNumeral_eq_false_of_isBlank {c : Char} (h : isBlank c = true) : isNumeral c = false := by
  rcases isBlank_iff.mp h with rfl | rfl | rfl | rfl | rfl | rfl <;> rfl

end CharClass

namespace Candidate

variable {a k : Candidate} {b : Option Char} {c : Char}

inductive BeginsWith (k : Candidate) (b : Option Char) (c : Char) : Prop
  | comment (hk : k.category = .comment) (hp : k.priority = 1) (hc : c = '/')
  | string (hp : k.priority = 2) (hc : c = '"')
  | ruleWord (hp : k.priority = 3) (hb : b.any isWord = false) (hc : c = 'r')
  | ruleName (hp : k.priority = 3) (hb : b.any isBlank = true) (hc : isWord c = true)
  | variableName (hp : k.priority = 3) (hc : c = '$')
  | directive (hp : k.priority = 4) (hc : c = '#')
  | number (hp : k.priority = 5) (hb : AtBoundary b c) (hc : isNumeral c = true)
  | word (hp : 6 ≤ k.priority) (hb : b.any isWord = false) (hc : isWord c = true)
  | operator (hp : k.priority = 7) (hc : isOperator c = true)

inductive Contains (a : Candidate) (b c : Char) : Prop
  | comment (hp : a.priority = 1)
  | string (ha : a.category = .string) (hp : a.priority = 2)
  | variableName (hp : a.priority = 3) (hc : c = '$' ∨ isWord c = true)
  | directive (ha : a.category = .directive)
  | number (hp : a.priority = 5) (hb : isNumeral b = true) (hc : isNumeral c = true)
  | word (hb : isWord b = true) (hc : isWord c = true)
  | operator (ha : a.category = .operator) (hp : a.priority = 7) (hc : isOperator c = true)

def Hides (a k : Candidate) : Prop :=
  a.category = .directive ∨
    (a.category = .string ∨ a.category = .operator) ∧ k.category = .comment

theorem BeginsWith.one_le (h : k.BeginsWith b c) : 1 ≤ k.priority := by
  cases h <;> omega

theorem BeginsWith.atBoundary (h : k.BeginsWith b c) : AtBoundary b c := by
  intro hbefore
  cases h with
  | comment hk hp hc => rw [hc]; rfl
  | string hp hc => rw [hc]; rfl
  | ruleWord hp hb hc => rw [hb] at hbefore; cases hbefore
  | ruleName hp hb hc =>
    obtain ⟨d, rfl, hd⟩ := (Option.any_eq_true _ _).mp hb
    rw [Option.any_some, isWord_eq_false_of_isBlank hd] at hbefore
    cases hbefore
  | variableName hp hc => rw [hc]; rfl
  | directive hp hc => rw [hc]; rfl
  | number hp hb hc => exact hb hbefore
  | word hp hb hc => rw [hb] at hbefore; cases hbefore
  | operator hp hc => exact isWord_eq_false_of_isOperator hc

theorem Contains.priority_le_or_hides {b : Char} (ha : a.Contains b c)
    (hk : k.BeginsWith (some b) c) : a.priority ≤ k.priority ∨ a.Hides k := by
  have hone := hk.one_le
  cases ha with
  | comment hp => exact Or.inl (by omega)
  | directive ha => exact Or.inr (Or.inl ha)
  | word hb hc =>
    -- Nothing of any rank begins within a word, so this case needs no look at `k`.
    have hword := hk.atBoundary (by rwa [Option.any_some])
    rw [hc] at hword
    cases hword
  | string ha hp =>
    cases hk with
    | comment hk => exact Or.inr (Or.inr ⟨Or.inl ha, hk⟩)
    | _ => exact Or.inl (by omega)
  | variableName hp hc =>
    cases hk with
    | comment _ _ hk => subst hk; simp [isWord] at hc
    | string _ hk => subst hk; simp [isWord] at hc
    | _ => exact Or.inl (by omega)
  | number hp hb hc =>
    cases hk with
    | comment _ _ hk => subst hk; cases hc
    | string _ hk => subst hk; cases hc
    | ruleWord _ _ hk => subst hk; cases hc
    | ruleName _ hblank =>
      rw [Option.any_some] at hblank
      rw [isNumeral_eq_false_of_isBlank hblank] at hb
      cases hb
    | variableName _ hk => subst hk; cases hc
    | directive _ hk => subst hk; cases hc
    | _ => exact Or.inl (by omega)
  | operator ha hp hc =>
    cases hk with
    | comment hk => exact Or.inr (Or.inr ⟨Or.inr ha, hk⟩)
    | string _ hk => subst hk; cases hc
    | ruleWord _ _ hk => subst hk; cases hc
    | ruleName _ _ hk => rw [isWord_eq_false_of_isOperator hc] at hk; cases hk
    | variableName _ hk => subst hk; cases hc
    | directive _ hk => subst hk; cases hc
    | number _ _ hk => rw [isNumeral_eq_false_of_isOperator hc] at hk; cases hk
    | word _ _ hk => rw [isWord_eq_false_of_isOperator hc] at hk; cases hk
    | operator => exact Or.inl (by omega)

end Candidate

open Candidate Pattern Resolution

namespace Definition

variable {name : String} {category : Category} {priority : Int} {f : List Char → List Extent}

theorem exists_extent {text : List Char} {k : Candidate}
    (hk : k ∈ (ofExtents name category priority f).candidates text) :
    ∃ e ∈ f text, k.start = e.start ∧ k.stop = e.stop ∧ k.category = category ∧
      k.priority = priority := by
  obtain ⟨hrange, hcategory, hpriority, -⟩ := mem_candidates.mp hk
  obtain ⟨e, he, hek⟩ := List.mem_map.mp hrange
  have hstart : e.toRange.start = k.start := congrArg Range.start hek
  have hstop : e.toRange.stop = k.stop := congrArg Range.stop hek
  exact ⟨e, he, hstart.symm, hstop.symm, hcategory, hpriority⟩

def BeginsWell (d : Definition) : Prop :=
  ∀ text, ∀ k ∈ d.candidates text, ∃ (i : Nat) (c : Char), k.start = i ∧ text[i]? = some c ∧
    k.BeginsWith (Text.previous? text i) c

def ContainsWell (d : Definition) : Prop :=
  ∀ text, ∀ a ∈ d.candidates text, ∀ (i : Nat) b c, a.start ≤ i → (i : Int) + 1 < a.stop →
    text[i]? = some b → text[i + 1]? = some c → a.Contains b c

theorem beginsWell {q : Option Char → Char → Prop} (h : BeginWith q f)
    (hq : ∀ k : Candidate, ∀ b c, k.category = category → k.priority = priority → q b c →
      k.BeginsWith b c) : (ofExtents name category priority f).BeginsWell := by
  intro text k hk
  obtain ⟨e, he, hstart, -, hcategory, hpriority⟩ := exists_extent hk
  obtain ⟨c, hc, hbegin⟩ := h text e he
  exact ⟨e.start, c, hstart, hc, hq k _ c hcategory hpriority hbegin⟩

theorem containsWell {p : Char → Bool} (h : MadeOf p f)
    (hp : ∀ a : Candidate, ∀ b c, a.category = category → a.priority = priority → p b = true →
      p c = true → a.Contains b c) : (ofExtents name category priority f).ContainsWell := by
  intro text a ha i b c hi hlt hb hc
  obtain ⟨e, he, hstart, hstop, hcategory, hpriority⟩ := exists_extent ha
  apply hp a b c hcategory hpriority
  · exact h text e he i b (by omega) (by omega) hb
  · exact h text e he (i + 1) c (by omega) (by omega) hc

theorem containsWell_of {f : List Char → List Extent}
    (h : ∀ a : Candidate, ∀ b c, a.category = category → a.priority = priority →
      a.Contains b c) : (ofExtents name category priority f).ContainsWell := by
  intro text a ha i b c _ _ _ _
  obtain ⟨e, -, -, -, hcategory, hpriority⟩ := exists_extent ha
  exact h a b c hcategory hpriority

end Definition

namespace Catalogue

open Definition

theorem builtIn_beginsWell : ∀ d ∈ builtIn, d.BeginsWell := by
  simp only [builtIn, List.forall_mem_cons, List.not_mem_nil, false_imp_iff, implies_true, and_true]
  refine ⟨?_, ?_, ?_, ?_, ?_, ?_, ?_, ?_, ?_, ?_, ?_⟩
  · exact beginsWell blockComment_opens.beginWith (fun _ _ _ hk hp hc => .comment hk hp hc)
  · exact beginsWell lineComment_opens.beginWith (fun _ _ _ hk hp hc => .comment hk hp hc)
  · exact beginsWell stringLiteral_opens.beginWith (fun _ _ _ _ hp hc => .string hp hc)
  · exact beginsWell Declaration.words_beginWith (fun _ _ _ _ hp h => .ruleWord hp h.1 h.2)
  · exact beginsWell Declaration.names_beginWith (fun _ _ _ _ hp h => .ruleName hp h.1 h.2)
  · exact beginsWell variableName_opens.beginWith (fun _ _ _ _ hp hc => .variableName hp hc)
  · exact beginsWell directive_opens.beginWith (fun _ _ _ _ hp hc => .directive hp hc)
  · exact beginsWell numbers_beginWith (fun _ _ _ _ hp h => .number hp h.1 h.2)
  · exact beginsWell (wordsIn_beginWith _) (fun _ _ _ _ hp h => .word (by omega) h.1 h.2)
  · exact beginsWell operators_beginWith (fun _ _ _ _ hp h => .operator hp h.2)
  · exact beginsWell (wordsIn_beginWith _) (fun _ _ _ _ hp h => .word (by omega) h.1 h.2)

theorem builtIn_containsWell : ∀ d ∈ builtIn, d.ContainsWell := by
  simp only [builtIn, List.forall_mem_cons, List.not_mem_nil, false_imp_iff, implies_true, and_true]
  refine ⟨?_, ?_, ?_, ?_, ?_, ?_, ?_, ?_, ?_, ?_, ?_⟩
  · exact containsWell_of (fun _ _ _ _ hp => .comment hp)
  · exact containsWell_of (fun _ _ _ _ hp => .comment hp)
  · exact containsWell_of (fun _ _ _ ha hp => .string ha hp)
  · exact containsWell Declaration.words_madeOf (fun _ _ _ _ _ hb hc => .word hb hc)
  · exact containsWell Declaration.names_madeOf (fun _ _ _ _ _ hb hc => .word hb hc)
  · apply containsWell variableNames_madeOf
    intro a b c _ hp _ hc
    exact .variableName hp (by simpa using hc)
  · exact containsWell_of (fun _ _ _ ha _ => .directive ha)
  · exact containsWell numbers_madeOf (fun _ _ _ _ hp hb hc => .number hp hb hc)
  · exact containsWell (wordsIn_madeOf _) (fun _ _ _ _ _ hb hc => .word hb hc)
  · exact containsWell operators_madeOf (fun _ _ _ ha hp _ hc => .operator ha hp hc)
  · exact containsWell (wordsIn_madeOf _) (fun _ _ _ _ _ hb hc => .word hb hc)

theorem priority_le_or_hides {text : List Char} {a k : Candidate}
    (ha : a ∈ builtIn.candidates text) (hk : k ∈ builtIn.candidates text)
    (hstart : a.start < k.start) (hstop : k.start < a.stop) :
    a.priority ≤ k.priority ∨ a.Hides k := by
  have hzero := (candidates_bounded ha).1
  obtain ⟨d, hd, ha⟩ := mem_candidates.mp ha
  obtain ⟨d', hd', hk⟩ := mem_candidates.mp hk
  obtain ⟨i, c, hi, hc, hbegins⟩ := builtIn_beginsWell d' hd' text k hk
  -- The start of `k` and the character before it both lie in `a`.
  obtain ⟨j, rfl⟩ : ∃ j, i = j + 1 := ⟨i - 1, by omega⟩
  have hj : j < text.length := by
    have hlt := (List.getElem?_eq_some_iff.mp hc).1
    omega
  have hb := List.getElem?_eq_getElem hj
  rw [Text.previous?_eq_getElem? hb] at hbegins
  exact (builtIn_containsWell d hd text a ha j _ c (by omega) (by omega) hb hc).priority_le_or_hides
    hbegins

theorem category_eq_comment_iff {text : List Char} {k : Candidate}
    (hk : k ∈ builtIn.candidates text) : k.category = .comment ↔ k.priority ≤ 1 := by
  have hranks : ∀ d ∈ builtIn, d.category = .comment ↔ d.priority ≤ 1 := by decide
  obtain ⟨d, hd, hk⟩ := mem_candidates.mp hk
  obtain ⟨-, hcategory, hpriority, -⟩ := Definition.mem_candidates.mp hk
  rw [hcategory, hpriority]
  exact hranks d hd

theorem covered_of_lost {text : List Char} {k : Candidate} (hk : k ∈ builtIn.candidates text)
    (hlost : ∀ spans, scan builtIn text = .ok spans → k.toSpan ∉ spans) :
    ∃ a ∈ resolve (builtIn.candidates text), a.overlaps k = true ∧
      (a.priority ≤ k.priority ∨ a.start < k.start ∧ a.Hides k) := by
  obtain ⟨d, -, hd⟩ := mem_candidates.mp hk
  have hne := (Definition.mem_candidates.mp hd).2.2.2
  rcases mem_resolve_or_covered hk hne with hmem | ⟨a, ha, hbefore, hstop⟩
  · exact absurd (List.mem_map_of_mem hmem) (hlost _ (scan_builtIn text))
  · have hle := before_iff.mp hbefore
    refine ⟨a, ha, ?_, ?_⟩
    · simp only [overlaps, decide_eq_true_eq]
      omega
    · rcases hle with hstart | ⟨-, hrank⟩
      · rcases priority_le_or_hides (resolve_subset _ ha) hk hstart hstop with hrank | hhides
        · exact Or.inl hrank
        · exact Or.inr ⟨hstart, hhides⟩
      · exact Or.inl hrank

theorem resolve_of_perm {text : List Char} {cs : List Candidate}
    (hperm : (builtIn.candidates text).Perm cs)
    (hordered : cs.Pairwise (fun a b => before a b = true)) :
    resolve (builtIn.candidates text) = (sift none cs).accepted := by
  rw [resolve_eq, mergeSort_of_perm (candidates_distinct text) hperm hordered]

end Catalogue

theorem scan_of_perm {text : List Char} {cs : List Candidate}
    (hperm : (Catalogue.builtIn.candidates text).Perm cs)
    (hordered : cs.Pairwise (fun a b => before a b = true)) :
    scan Catalogue.builtIn text = .ok ((sift none cs).accepted.map toSpan) := by
  rw [scan_builtIn, Catalogue.resolve_of_perm hperm hordered]

/-- What a candidate loses to ranks as high or higher, or starts earlier and is a directive, or
hides a comment. A comment loses to another comment, or to what starts earlier and hides it. -/
theorem exists_overlaps_of_lost (text : List Char) (k : Candidate)
    (hk : k ∈ Catalogue.builtIn.candidates text)
    (hlost : ∀ spans, scan Catalogue.builtIn text = .ok spans → k.toSpan ∉ spans) :
    ∃ spans, scan Catalogue.builtIn text = .ok spans ∧
      ∃ a ∈ resolve (Catalogue.builtIn.candidates text), a.toSpan ∈ spans ∧ a.overlaps k = true ∧
        (a.priority ≤ k.priority ∨ a.start < k.start ∧ a.Hides k) ∧
        (k.category = .comment → a.category = .comment ∨ a.start < k.start ∧ a.Hides k) := by
  obtain ⟨a, ha, hoverlaps, hreason⟩ := Catalogue.covered_of_lost hk hlost
  refine ⟨_, scan_builtIn text, a, ha, List.mem_map_of_mem ha, hoverlaps, hreason, ?_⟩
  intro hcomment
  have hone := (Catalogue.category_eq_comment_iff hk).mp hcomment
  rcases hreason with hrank | hhides
  · left
    exact (Catalogue.category_eq_comment_iff (resolve_subset _ ha)).mpr (by omega)
  · exact Or.inr hhides

theorem exists_overlaps_of_lost_literal :
    ⟨⟨1, 4⟩, .comment, 1⟩ ∈ Catalogue.builtIn.candidates "\"//\"".toList ∧
      (∀ spans, scan Catalogue.builtIn "\"//\"".toList = .ok spans →
        ⟨⟨1, 4⟩, .comment⟩ ∉ spans) ∧
      ∃ spans, scan Catalogue.builtIn "\"//\"".toList = .ok spans ∧
        ∃ a ∈ resolve (Catalogue.builtIn.candidates "\"//\"".toList), a.toSpan ∈ spans ∧
          a.overlaps ⟨⟨1, 4⟩, .comment, 1⟩ = true ∧
          (a.priority ≤ 1 ∨ a.start < 1 ∧ a.Hides ⟨⟨1, 4⟩, .comment, 1⟩) ∧
          (a.category = .comment ∨ a.start < 1 ∧ a.Hides ⟨⟨1, 4⟩, .comment, 1⟩) := by
  have hmem : ⟨⟨1, 4⟩, .comment, 1⟩ ∈ Catalogue.builtIn.candidates "\"//\"".toList := by
    decide +kernel
  have hperm : (Catalogue.builtIn.candidates "\"//\"".toList).Perm
      [⟨⟨0, 4⟩, .string, 2⟩, ⟨⟨1, 4⟩, .comment, 1⟩, ⟨⟨1, 3⟩, .operator, 7⟩] := by decide +kernel
  have hlost : ∀ spans, scan Catalogue.builtIn "\"//\"".toList = .ok spans →
      ⟨⟨1, 4⟩, .comment⟩ ∉ spans := by
    intro spans hscan
    rw [scan_builtIn, Catalogue.resolve_of_perm hperm (by decide)] at hscan
    obtain rfl := Except.ok.inj hscan
    decide
  obtain ⟨spans, hscan, a, ha, hspan, hoverlaps, hreason, hcomment⟩ :=
    exists_overlaps_of_lost _ ⟨⟨1, 4⟩, .comment, 1⟩ hmem hlost
  exact ⟨hmem, hlost, spans, hscan, a, ha, hspan, hoverlaps, hreason, hcomment rfl⟩

/-- Not published, although it ranks above all that is published and overlaps it. -/
def Candidate.Outranks (text : List Char) (k : Candidate) : Prop :=
  k ∈ Catalogue.builtIn.candidates text ∧
    ∃ spans, scan Catalogue.builtIn text = .ok spans ∧ k.toSpan ∉ spans ∧
      ∀ a ∈ resolve (Catalogue.builtIn.candidates text), a.overlaps k = true →
        ¬ a.priority ≤ k.priority

theorem Candidate.outranks_of_perm {text : List Char} {cs : List Candidate} {k : Candidate}
    (hperm : (Catalogue.builtIn.candidates text).Perm cs)
    (hordered : cs.Pairwise (fun a b => before a b = true)) (hmem : k ∈ cs)
    (hlost : k.toSpan ∉ (sift none cs).accepted.map toSpan)
    (hrank : ∀ a ∈ (sift none cs).accepted, a.overlaps k = true → ¬ a.priority ≤ k.priority) :
    k.Outranks text := by
  have hresolve := Catalogue.resolve_of_perm hperm hordered
  rw [← hresolve] at hlost hrank
  exact ⟨hperm.mem_iff.mpr hmem, _, scan_builtIn text, hlost, hrank⟩

theorem outranks_later_start :
    Outranks "+//".toList ⟨⟨1, 3⟩, .comment, 1⟩ ∧ Outranks "\"//".toList ⟨⟨1, 3⟩, .comment, 1⟩ ∧
      Outranks "#$".toList ⟨⟨1, 2⟩, .variableName, 3⟩ := by
  refine ⟨?_, ?_, ?_⟩
  · have hperm : (Catalogue.builtIn.candidates "+//".toList).Perm
        [⟨⟨0, 3⟩, .operator, 7⟩, ⟨⟨1, 3⟩, .comment, 1⟩] := by decide +kernel
    exact outranks_of_perm hperm (by decide) (by decide) (by decide) (by decide)
  · have hperm : (Catalogue.builtIn.candidates "\"//".toList).Perm
        [⟨⟨0, 3⟩, .string, 2⟩, ⟨⟨1, 3⟩, .comment, 1⟩, ⟨⟨1, 3⟩, .operator, 7⟩] := by decide +kernel
    exact outranks_of_perm hperm (by decide) (by decide) (by decide) (by decide)
  · have hperm : (Catalogue.builtIn.candidates "#$".toList).Perm
        [⟨⟨0, 2⟩, .directive, 4⟩, ⟨⟨1, 2⟩, .variableName, 3⟩] := by decide +kernel
    exact outranks_of_perm hperm (by decide) (by decide) (by decide) (by decide)

end RuleHighlight
