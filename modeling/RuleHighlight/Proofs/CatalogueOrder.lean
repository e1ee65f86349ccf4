import RuleHighlight.Proofs.CharClass
import RuleHighlight.Proofs.ScanOutput
import Mathlib.Data.List.Pairwise
import Mathlib.Tactic.Tauto

/-!
No two proposals of the built-in catalogue for a text tie: they differ in start or in priority.
One pattern never proposes two extents with one start, and patterns of one priority look for
texts that begin in different ways. Hence a scan does not depend on the order of the catalogue.
-/

namespace RuleHighlight

open CharClass

namespace Occurrence

theorem drop_of_mem_all {α : Type} {r : Recogniser α} {w : α → Nat} {text : List Char} {i : Nat}
    {a : α} (h : (i, a) ∈ all r w text) : ∃ before, r before (text.drop i) = some a := by
  obtain ⟨before, rest, rfl, -, rfl, hr⟩ := mem_all h
  refine ⟨before, ?_⟩
  rwa [List.drop_left' (List.length_reverse)]

end Occurrence

namespace Pattern

theorem drop_of_mem_blockComments {text : List Char} {e : Extent} (h : e ∈ blockComments text) :
    ∃ body, text.drop e.start = '/' :: '*' :: body := by
  obtain ⟨x, hx, rfl⟩ := List.mem_map.mp h
  obtain ⟨before, hr⟩ := Occurrence.drop_of_mem_all hx
  obtain ⟨body, hbody, -⟩ := (blockComment_opens _ _ _).mp hr
  exact ⟨body, hbody⟩

theorem drop_of_mem_lineComments {text : List Char} {e : Extent} (h : e ∈ lineComments text) :
    ∃ body, text.drop e.start = '/' :: '/' :: body := by
  obtain ⟨x, hx, rfl⟩ := List.mem_map.mp h
  obtain ⟨before, hr⟩ := Occurrence.drop_of_mem_all hx
  obtain ⟨body, hbody, -⟩ := (lineComment_opens _ _ _).mp hr
  exact ⟨body, hbody⟩

theorem drop_of_mem_variableNames {text : List Char} {e : Extent} (h : e ∈ variableNames text) :
    ∃ body, text.drop e.start = '$' :: body := by
  obtain ⟨x, hx, rfl⟩ := List.mem_map.mp h
  obtain ⟨before, hr⟩ := Occurrence.drop_of_mem_all hx
  obtain ⟨body, hbody, -⟩ := (variableName_opens _ _ _).mp hr
  exact ⟨body, hbody⟩

end Pattern

namespace Declaration

theorem drop_of_mem_words {text : List Char} {e : Extent} (h : e ∈ words text) :
    ∃ d before gap name tail after,
      Parts d before (text.drop e.start) gap name tail after := by
  obtain ⟨⟨i, d⟩, hx, rfl⟩ := List.mem_map.mp h
  obtain ⟨before, hr⟩ := Occurrence.drop_of_mem_all hx
  obtain ⟨gap, name, tail, after, hd⟩ := recognise_eq_some hr
  exact ⟨d, before, gap, name, tail, after, hd⟩

theorem drop_of_mem_names {text : List Char} {e : Extent} (h : e ∈ names text) :
    ∃ d before rest gap name tail after, Parts d before rest gap name tail after ∧
      text.drop e.start = name ++ (tail ++ '\x7b' :: after) := by
  obtain ⟨⟨i, d⟩, hx, rfl⟩ := List.mem_map.mp h
  obtain ⟨before, hr⟩ := Occurrence.drop_of_mem_all hx
  obtain ⟨gap, name, tail, after, hd⟩ := recognise_eq_some hr
  refine ⟨d, before, _, gap, name, tail, after, hd, ?_⟩
  have hgap : d.gap = gap.length := congrArg Declaration.gap hd.widths
  have hsplit : text.drop i = ('r' :: 'u' :: 'l' :: 'e' :: gap) ++ (name ++ (tail ++ '\x7b' :: after)) :=
    hd.text
  have hlen : 4 + d.gap = ('r' :: 'u' :: 'l' :: 'e' :: gap).length := by
    simp only [hgap, List.length_cons]; omega
  simp only
  rw [Nat.add_assoc, hlen, ← List.drop_drop, hsplit, List.drop_left]

theorem Parts.name_cons {d : Declaration} {before rest gap name tail after : List Char}
    (h : Parts d before rest gap name tail after) : ∃ c cs, name = c :: cs ∧ isWord c = true := by
  cases name with
  | nil => exact absurd h.name_isName (by simp [isName])
  | cons c cs => exact ⟨c, cs, rfl, h.name_word c (by simp)⟩

theorem Parts.name_ends {d : Declaration} {before rest gap name tail after : List Char}
    (h : Parts d before rest gap name tail after) :
    ∃ c cs, tail ++ '\x7b' :: after = c :: cs ∧ isWord c = false := by
  cases tail with
  | nil => exact ⟨'\x7b', after, rfl, rfl⟩
  | cons c tail => exact ⟨c, _, rfl, isWord_eq_false_of_isBlank (h.tail_blank c (by simp))⟩

theorem Parts.rest_ne {d d' : Declaration} {before rest gap name tail after : List Char}
    {before' rest' gap' name' tail' after' : List Char}
    (hd : Parts d before rest gap name tail after)
    (hd' : Parts d' before' rest' gap' name' tail' after') :
    rest ≠ name' ++ (tail' ++ '\x7b' :: after') := by
  intro hrest
  have htext := hd.text
  rw [hrest] at htext
  obtain ⟨g, gs, rfl⟩ := List.exists_cons_of_ne_nil hd.gap_ne_nil
  obtain ⟨c, cs, rfl, hc⟩ := hd.name_cons
  have hrule : ∀ x ∈ ['r', 'u', 'l', 'e'], isWord x = true := List.all_eq_true.mp rfl
  have hg : isWord g = false := isWord_eq_false_of_isBlank (hd.gap_blank g (by simp))
  have hblank : isBlank c = false := isBlank_eq_false_of_isWord hc
  obtain ⟨t, ts, htail, ht⟩ := hd'.name_ends
  have hafter : tail' ++ '\x7b' :: after' = (g :: gs) ++ (c :: (cs ++ (tail ++ '\x7b' :: after))) := by
    calc tail' ++ '\x7b' :: after'
      _ = (name' ++ (tail' ++ '\x7b' :: after')).dropWhile isWord := by
        rw [htail, Text.dropWhile_of_all hd'.name_word ht]
      _ = (['r', 'u', 'l', 'e'] ++ g :: (gs ++ ((c :: cs) ++ (tail ++ '\x7b' :: after)))).dropWhile
          isWord := congrArg _ htext
      _ = _ := Text.dropWhile_of_all hrule hg _
  have hbrace := congrArg (List.dropWhile isBlank) hafter
  rw [Text.dropWhile_of_all hd'.tail_blank rfl, Text.dropWhile_of_all hd.gap_blank hblank] at hbrace
  obtain rfl := (List.cons.inj hbrace).1
  exact absurd hc (by decide)

theorem words_ne_names {text : List Char} {e e' : Extent} (h : e ∈ words text)
    (h' : e' ∈ names text) : e.start ≠ e'.start := by
  intro hstart
  obtain ⟨d, before, gap, name, tail, after, hd⟩ := drop_of_mem_words h
  obtain ⟨d', before', rest', gap', name', tail', after', hd', hdrop⟩ := drop_of_mem_names h'
  apply hd.rest_ne hd'
  rw [hstart, hdrop]

end Declaration

namespace Candidate

def Untied (a b : Candidate) : Prop := a.start = b.start → a.priority ≠ b.priority

theorem distinct_of_pairwise {cs : List Candidate} (h : cs.Pairwise Untied) : Distinct cs := by
  have hsymm : Std.Symm (fun a b : Candidate =>
      a.start = b.start → a.priority = b.priority → a = b) :=
    ⟨fun a b hab hs hp => (hab hs.symm hp.symm).symm⟩
  intro a ha b hb
  apply List.Pairwise.forall_of_forall (fun _ _ _ _ => rfl) _ ha hb
  exact h.imp (fun huntied hs hp => absurd hp (huntied hs))

end Candidate

open Candidate

namespace Definition

variable {name name' : String} {category category' : Category} {priority priority' : Int}
variable {f g : List Char → List Extent} {text : List Char}

def Apart (text : List Char) (d d' : Definition) : Prop :=
  ∀ a ∈ d.candidates text, ∀ b ∈ d'.candidates text, Untied a b

theorem apart_of_priority {d d' : Definition} (h : d.priority ≠ d'.priority) :
    Apart text d d' := by
  intro a ha b hb _
  rw [(mem_candidates.mp ha).2.2.1, (mem_candidates.mp hb).2.2.1]
  exact h

theorem apart_of_starts (h : ∀ e ∈ f text, ∀ e' ∈ g text, e.start ≠ e'.start) :
    Apart text (ofExtents name category priority f) (ofExtents name' category' priority' g) := by
  intro a ha b hb hstart
  obtain ⟨e, he, hea⟩ := List.mem_map.mp (mem_candidates.mp ha).1
  obtain ⟨e', he', heb⟩ := List.mem_map.mp (mem_candidates.mp hb).1
  rw [← hea, ← heb] at hstart
  exact absurd (Int.ofNat.inj hstart) (h e he e' he')

theorem candidates_untied (h : Ascending f) (text : List Char) :
    ((ofExtents name category priority f).candidates text).Pairwise Untied := by
  apply List.Pairwise.filter
  rw [List.pairwise_map]
  change ((f text).map Extent.toRange).Pairwise _
  rw [List.pairwise_map]
  refine (h text).imp ?_
  intro a b hlt heq
  exact absurd (Int.ofNat.inj heq) (Nat.ne_of_lt hlt)

theorem comments_apart (text : List Char) : Apart text blockComment lineComment := by
  apply apart_of_starts
  intro e he e' he' hstart
  obtain ⟨body, hblock⟩ := Pattern.drop_of_mem_blockComments he
  obtain ⟨body', hline⟩ := Pattern.drop_of_mem_lineComments he'
  rw [hstart, hline] at hblock
  simp at hblock

theorem ruleKeyword_apart_ruleName (text : List Char) : Apart text ruleKeyword ruleName :=
  apart_of_starts (fun _ he _ he' => Declaration.words_ne_names he he')

theorem ruleKeyword_apart_variableName (text : List Char) :
    Apart text ruleKeyword variableName := by
  apply apart_of_starts
  intro e he e' he' hstart
  obtain ⟨d, before, gap, name, tail, after, hd⟩ := Declaration.drop_of_mem_words he
  obtain ⟨body, hvariable⟩ := Pattern.drop_of_mem_variableNames he'
  rw [← hstart, hd.text] at hvariable
  simp at hvariable

theorem ruleName_apart_variableName (text : List Char) : Apart text ruleName variableName := by
  apply apart_of_starts
  intro e he e' he' hstart
  obtain ⟨d, before, rest, gap, name, tail, after, hd, hdrop⟩ := Declaration.drop_of_mem_names he
  obtain ⟨body, hvariable⟩ := Pattern.drop_of_mem_variableNames he'
  obtain ⟨c, cs, rfl, hc⟩ := hd.name_cons
  rw [← hstart, hdrop] at hvariable
  obtain rfl := (List.cons.inj hvariable).1
  exact absurd hc (by decide)

end Definition

namespace Catalogue

open Definition

theorem builtIn_untied (text : List Char) : ∀ d ∈ builtIn, (d.candidates text).Pairwise Untied := by
  simp only [builtIn, List.forall_mem_cons, List.not_mem_nil, false_imp_iff, implies_true, and_true]
  refine ⟨?_, ?_, ?_, ?_, ?_, ?_, ?_, ?_, ?_, ?_, ?_⟩
  · exact candidates_untied Occurrence.extents_ascending text
  · exact candidates_untied Occurrence.extents_ascending text
  · exact candidates_untied Occurrence.extents_ascending text
  · exact candidates_untied Declaration.words_ascending text
  · exact candidates_untied Declaration.names_ascending text
  · exact candidates_untied Occurrence.extents_ascending text
  · exact candidates_untied Occurrence.extents_ascending text
  · exact candidates_untied Pattern.numbers_ascending text
  · exact candidates_untied (Run.extents_ascending _) text
  · exact candidates_untied (Run.extents_ascending _) text
  · exact candidates_untied (Run.extents_ascending _) text

theorem builtIn_apart (text : List Char) : builtIn.Pairwise (Apart text) := by
  have others {d : Definition} {ds : List Definition}
      (h : ∀ d' ∈ ds, d.priority ≠ d'.priority) : ∀ d' ∈ ds, Apart text d d' :=
    fun d' hd' => apart_of_priority (h d' hd')
  unfold builtIn
  refine .cons ?_ (.cons ?_ (.cons ?_ (.cons ?_ (.cons ?_ (.cons ?_ (.cons ?_ (.cons ?_
    (.cons ?_ (.cons ?_ (.cons ?_ .nil))))))))))
  · exact List.forall_mem_cons.mpr ⟨comments_apart text, others (by decide)⟩
  · exact others (by decide)
  · exact others (by decide)
  · exact List.forall_mem_cons.mpr ⟨ruleKeyword_apart_ruleName text,
      List.forall_mem_cons.mpr ⟨ruleKeyword_apart_variableName text, others (by decide)⟩⟩
  · exact List.forall_mem_cons.mpr ⟨ruleName_apart_variableName text, others (by decide)⟩
  all_goals exact others (by decide)

theorem candidates_untied (text : List Char) : (builtIn.candidates text).Pairwise Untied :=
  List.pairwise_flatMap.mpr ⟨builtIn_untied text, builtIn_apart text⟩

theorem candidates_distinct (text : List Char) : Distinct (builtIn.candidates text) :=
  distinct_of_pairwise (candidates_untied text)

end Catalogue

/-- Catalogues made of the same built-in definitions give the same spans. -/
theorem scan_eq_of_same_definitions (text : List Char) (c c' : Catalogue)
    (hc : ∀ d ∈ c, d ∈ Catalogue.builtIn) (hsame : ∀ d, d ∈ c ↔ d ∈ c') :
    (∃ spans, scan c text = .ok spans ∧ scan c' text = .ok spans) ∧
      (Catalogue.builtIn.candidates text).Pairwise
        (fun a b => (a.start, a.priority) ≠ (b.start, b.priority)) := by
  have hdistinct : Distinct (c.candidates text) := by
    intro a ha b hb
    obtain ⟨d, hd, ha⟩ := Catalogue.mem_candidates.mp ha
    obtain ⟨d', hd', hb⟩ := Catalogue.mem_candidates.mp hb
    exact Catalogue.candidates_distinct text a (Catalogue.mem_candidates.mpr ⟨d, hc d hd, ha⟩)
      b (Catalogue.mem_candidates.mpr ⟨d', hc d' hd', hb⟩)
  have hmem : ∀ k, k ∈ c.candidates text ↔ k ∈ c'.candidates text := by
    intro k
    simp only [Catalogue.mem_candidates, hsame]
  refine ⟨⟨_, scan_eq c text, ?_⟩, ?_⟩
  · rw [scan_eq, resolve_congr hdistinct hmem]
  · refine (Catalogue.candidates_untied text).imp ?_
    intro a b huntied heq
    obtain ⟨hstart, hpriority⟩ := Prod.mk.inj heq
    exact huntied hstart hpriority

theorem scan_eq_of_same_definitions_reversed :
    (∀ d ∈ [Definition.ruleKeyword, .ruleName, .ruleKeyword], d ∈ Catalogue.builtIn) ∧
      (∀ d, d ∈ [Definition.ruleKeyword, .ruleName, .ruleKeyword] ↔
        d ∈ [Definition.ruleName, .ruleKeyword]) ∧
      (∃ spans, scan [.ruleKeyword, .ruleName, .ruleKeyword] "rule rule \x7b".toList = .ok spans ∧
        scan [.ruleName, .ruleKeyword] "rule rule \x7b".toList = .ok spans) := by
  have hbuiltIn : ∀ d ∈ [Definition.ruleKeyword, .ruleName, .ruleKeyword],
      d ∈ Catalogue.builtIn := by
    simp [Catalogue.builtIn]
  have hsame : ∀ d, d ∈ [Definition.ruleKeyword, .ruleName, .ruleKeyword] ↔
      d ∈ [Definition.ruleName, .ruleKeyword] := by
    intro d
    simp only [List.mem_cons, List.not_mem_nil, or_false]
    tauto
  exact ⟨hbuiltIn, hsame, (scan_eq_of_same_definitions _ _ _ hbuiltIn hsame).1⟩

end RuleHighlight
