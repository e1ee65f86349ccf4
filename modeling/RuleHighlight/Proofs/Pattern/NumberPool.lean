import RuleHighlight.Proofs.Pattern.ByteWindow
import RuleHighlight.Proofs.Pattern.HexSearch

namespace RuleHighlight.Pattern

open CharClass

def IsForm (text : List Char) (e : Extent) : Prop :=
  e ∈ hexLiterals text ∨ e ∈ decimals text ∨ e ∈ ByteSequence.all text

theorem mem_firstPerStart_iff {last : Option Nat} {es : List Extent}
    (hs : es.Pairwise (fun a b => a.longestFirst b = true))
    (hlast : ∀ s ∈ last, ∀ e ∈ es, s ≤ e.start) {e : Extent} :
    e ∈ firstPerStart last es ↔
      last ≠ some e.start ∧ e ∈ es ∧ ∀ d ∈ es, d.start = e.start → d.stop ≤ e.stop := by
  induction es generalizing last with
  | nil => simp [firstPerStart]
  | cons c es ih =>
    obtain ⟨hc, hs⟩ := List.pairwise_cons.mp hs
    rw [firstPerStart]
    split_ifs with hsame
    · rw [ih hs (fun s h d hd => hlast s h d (List.mem_cons_of_mem c hd))]
      refine and_congr_right fun hne => ?_
      have hce : c.start ≠ e.start := fun heq => hne (heq ▸ hsame)
      have hec : e ≠ c := fun heq => hce (congrArg Extent.start heq.symm)
      simp [hce, hec]
    · have hstart : ∀ s ∈ some c.start, ∀ d ∈ es, s ≤ d.start := by
        rintro s ⟨rfl⟩ d hd
        have hfirst := longestFirst_iff.mp (hc d hd)
        omega
      rw [List.mem_cons, ih hs hstart]
      constructor
      · rintro (rfl | ⟨hne, he, hlongest⟩)
        · refine ⟨hsame, List.mem_cons_self, List.forall_mem_cons.mpr ⟨fun _ => Nat.le_refl _, ?_⟩⟩
          intro d hd heq
          have hfirst := longestFirst_iff.mp (hc d hd)
          omega
        · have hne : c.start ≠ e.start := fun heq => hne (congrArg some heq)
          have hle := hstart c.start rfl e he
          refine ⟨?_, List.mem_cons_of_mem c he,
            List.forall_mem_cons.mpr ⟨fun heq => absurd heq hne, hlongest⟩⟩
          rintro rfl
          have hle' := hlast e.start rfl c List.mem_cons_self
          omega
      · rintro ⟨-, he, hlongest⟩
        obtain ⟨hlongest, hlater⟩ := List.forall_mem_cons.mp hlongest
        rcases List.mem_cons.mp he with rfl | he
        · exact Or.inl rfl
        · by_cases heq : c.start = e.start
          · have hfirst := longestFirst_iff.mp (hc e he)
            have hstop := hlongest heq
            left
            rw [Extent.mk.injEq]
            omega
          · exact Or.inr ⟨fun h => heq (Option.some.inj h), he, hlater⟩

theorem mem_pool_iff {es : List Extent} {e : Extent} :
    e ∈ pool es ↔ e ∈ es ∧ ∀ d ∈ es, d.start = e.start → d.stop ≤ e.stop := by
  rw [pool, mem_firstPerStart_iff (pairwise_longestFirst es) (by simp)]
  simp only [List.mem_mergeSort, ne_eq, reduceCtorEq, not_false_eq_true, true_and]

theorem mem_numbers_iff {text : List Char} {e : Extent} :
    e ∈ numbers text ↔
      IsForm text e ∧ ∀ d, IsForm text d → d.start = e.start → d.stop ≤ e.stop := by
  have hform (d : Extent) : d ∈ hexLiterals text ++ decimals text ++ ByteSequence.all text ↔
      IsForm text d := by
    rw [List.mem_append, List.mem_append, or_assoc, IsForm]
  rw [numbers, mem_pool_iff, hform]
  simp only [hform]

theorem isGreatest_of_mem_numbers {text : List Char} {e : Extent} (he : e ∈ numbers text) :
    IsGreatest {stop | IsForm text ⟨e.start, stop⟩} e.stop := by
  obtain ⟨hform, hlongest⟩ := mem_numbers_iff.mp he
  exact ⟨hform, fun stop hstop => hlongest ⟨e.start, stop⟩ hstop rfl⟩

theorem exists_mem_firstPerStart {last : Option Nat} {es : List Extent} {d : Extent} (hd : d ∈ es)
    (hne : last ≠ some d.start) : ∃ e ∈ firstPerStart last es, e.start = d.start := by
  induction es generalizing last with
  | nil => cases hd
  | cons c es ih =>
    rw [firstPerStart]
    split_ifs with hsame
    · rcases List.mem_cons.mp hd with rfl | hd
      · exact absurd hsame hne
      · exact ih hd hne
    · by_cases heq : c.start = d.start
      · exact ⟨c, List.mem_cons_self, heq⟩
      · have hd : d ∈ es := (List.mem_cons.mp hd).resolve_left fun h => heq (congrArg _ h.symm)
        obtain ⟨e, he, hstart⟩ := ih hd (fun h => heq (Option.some.inj h))
        exact ⟨e, List.mem_cons_of_mem c he, hstart⟩

theorem exists_mem_numbers {text : List Char} {d : Extent} (hd : IsForm text d) :
    ∃ e ∈ numbers text, e.start = d.start := by
  refine exists_mem_firstPerStart (List.mem_mergeSort.mpr ?_) (by simp)
  rwa [List.mem_append, List.mem_append, or_assoc]

theorem decimal_pos {before rest : List Char} {n : Nat} (h : decimal before rest = some n) :
    0 < n := by
  by_cases hpoint : ∃ tail, rest = '.' :: tail
  · obtain ⟨tail, rfl⟩ := hpoint
    rw [decimal_point] at h
    split_ifs at h
    rw [← Option.some.inj h]
    exact Nat.succ_pos _
  · rw [decimal_whole (not_exists.mp hpoint)] at h
    split_ifs at h with hword
    simp only [Bool.or_eq_true, not_or, Bool.not_eq_true, List.isEmpty_eq_false_iff] at hword
    have hwhole := List.length_pos_of_ne_nil hword.2
    obtain ⟨m, rfl, -⟩ := decimalOfWhole_eq_some h
    omega

theorem start_lt_stop_of_isForm {text : List Char} {e : Extent} (h : IsForm text e) :
    e.start < e.stop := by
  rcases h with he | he | he
  · obtain ⟨r, hr, -, hstop⟩ := Run.mem_extents he
    have hpos := hr.length_pos
    omega
  · obtain ⟨before, rest, n, -, rfl, hn⟩ := Occurrence.mem_extents he
    have hpos := decimal_pos hn
    simp only
    omega
  · exact (ByteSequence.isGreatest_of_mem_all he).1.start_lt_stop

theorem mem_hexLiterals_iff {text : List Char} {e : Extent} : e ∈ hexLiterals text ↔
    ∃ r digits, Run.Maximal isWord text e.start r ∧ e.stop = e.start + r.chars.length ∧
      r.chars = '0' :: 'x' :: digits ∧ digits ≠ [] ∧ ∀ d ∈ digits, isHexDigit d = true := by
  rw [hexLiterals, Run.mem_extents_iff]
  refine exists_congr fun r => ?_
  rw [isHexLiteral_iff]
  constructor
  · rintro ⟨hr, ⟨digits, hdigits⟩, hstop⟩
    exact ⟨digits, hr, hstop, hdigits⟩
  · rintro ⟨digits, hr, hstop, hdigits⟩
    exact ⟨hr, ⟨digits, hdigits⟩, hstop⟩

/-- Numbers are the three forms pooled without loss: one extent wherever one of them has some, and
the longest of these. The hexadecimal literals are whole words, and what a search for their
expression finds. -/
theorem numbers_pool_forms (text : List Char) :
    (numbers text).Pairwise (fun a b => a.start < b.start) ∧
    (∀ s, (∃ e ∈ numbers text, e.start = s) ↔ ∃ e, IsForm text e ∧ e.start = s) ∧
    (∀ e ∈ numbers text, IsGreatest {stop | IsForm text ⟨e.start, stop⟩} e.stop ∧
      e.start < e.stop ∧ e.stop ≤ text.length) ∧
    (hexLiterals text).Pairwise (fun a b => a.start < b.start) ∧
    (∀ e, e ∈ hexLiterals text ↔
      ∃ r digits, Run.Maximal isWord text e.start r ∧ e.stop = e.start + r.chars.length ∧
        r.chars = '0' :: 'x' :: digits ∧ digits ≠ [] ∧ ∀ d ∈ digits, isHexDigit d = true) ∧
    ∀ found, (Regex.hexNumber.search text).Yields found ↔ found = hexLiterals text := by
  refine ⟨numbers_ascending text, fun s => ⟨?_, ?_⟩, fun e he => ⟨isGreatest_of_mem_numbers he, ?_⟩,
    Run.extents_ascending _ text, fun _ => mem_hexLiterals_iff, fun _ => hexNumber_keeps.yields_iff⟩
  · rintro ⟨e, he, rfl⟩
    exact ⟨e, (mem_numbers_iff.mp he).1, rfl⟩
  · rintro ⟨e, he, rfl⟩
    exact exists_mem_numbers he
  · exact ⟨start_lt_stop_of_isForm (mem_numbers_iff.mp he).1, (numbers_bounded text e he).2⟩

-- Forms that start apart may overlap.
example : numbers ['A', '?', '1', '2'] = [⟨0, 4⟩, ⟨2, 4⟩] := by cbv

end RuleHighlight.Pattern
