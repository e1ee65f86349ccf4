import RuleHighlight.Proofs.Pattern.Bounds
import Mathlib.Tactic.SplitIfs

namespace RuleHighlight

open CharClass

namespace ByteSequence

theorem lastWildcard_lt {parity pos i : Nat} {chars : List Char}
    (h : lastWildcard parity pos chars = some i) : i < pos + chars.length := by
  induction chars generalizing pos with
  | nil => simp [lastWildcard] at h
  | cons c chars ih =>
    rw [lastWildcard] at h
    rw [List.length_cons]
    split at h
    · next hi =>
      obtain rfl := Option.some.inj h
      have hlt := ih hi
      omega
    · split at h
      · obtain rfl := Option.some.inj h
        omega
      · simp at h

theorem farthest_bounds {r : Run} {pos stop : Nat}
    (h : (Closings.ofRun r).farthest pos = some stop) : pos < stop ∧ stop ≤ r.chars.length := by
  have hwildcard {last : Option Nat} (hw : last.filter (pos < ·) = some stop)
      (hl : last = (Closings.ofRun r).evenWildcard ∨ last = (Closings.ofRun r).oddWildcard) :
      pos < stop ∧ stop ≤ r.chars.length := by
    obtain ⟨hlast, hpos⟩ := Option.filter_eq_some_iff.mp hw
    refine ⟨by simpa using hpos, ?_⟩
    rcases hl with rfl | rfl
    all_goals
      have hlt := lastWildcard_lt hlast
      omega
  have hparity := ite_eq_or_eq (pos % 2 = 0) (Closings.ofRun r).evenWildcard
    (Closings.ofRun r).oddWildcard
  rw [Closings.farthest] at h
  split at h
  · next last hlast =>
    by_cases hpos : pos < last ∧ (last - pos) % 2 = 0
    · rw [if_pos hpos] at h
      obtain rfl := Option.some.inj h
      simp only [Closings.ofRun] at hlast
      split_ifs at hlast
      exact ⟨hpos.1, (Option.some.inj hlast).ge⟩
    · rw [if_neg hpos] at h
      exact hwildcard h hparity
  · exact hwildcard h hparity

theorem farthest_of_mem_cut {closings : Closings} {covered pos : Nat} {opens : Bool}
    {chars : List Char} {e : Extent} (h : e ∈ cut closings covered pos opens chars) :
    closings.farthest e.start = some e.stop := by
  induction chars generalizing covered pos opens with
  | nil => simp [cut] at h
  | cons c chars ih =>
    cases covered with
    | succ covered => exact ih h
    | zero =>
      rw [cut] at h
      split at h
      · next stop hstop =>
        rcases List.mem_cons.mp h with rfl | h
        · split_ifs at hstop
          exact hstop
        · exact ih h
      · exact ih h

theorem all_bounded : Bounded all := by
  intro text e he
  obtain ⟨⟨i, r⟩, hx, he⟩ := List.mem_flatMap.mp he
  obtain ⟨e, hcut, rfl⟩ := List.mem_map.mp he
  have hrun := Occurrence.add_width_le (w := fun r : Run => r.chars.length)
    Run.recognise_fits hx
  have hle := farthest_bounds (farthest_of_mem_cut hcut)
  simp only at hrun ⊢
  omega

def seen (r : Run) : List Extent × Nat := (ofRun r, r.chars.length)

theorem all_eq (text : List Char) :
    all text = (Occurrence.all ((Run.recognise isNibble).view seen) Prod.snd text).flatMap
      (fun x => x.2.1.map (fun e => ⟨x.1 + e.start, x.1 + e.stop⟩)) := by
  rw [← Run.map_all (v := seen) (fun _ => rfl), List.flatMap_map]
  rfl

end ByteSequence

namespace Pattern

def decimalOfWhole (whole : Nat) : List Char → Option Nat
  | '.' :: rest =>
    let digits := rest.takeWhile Char.isDigit
    if !digits.isEmpty && !(rest.dropWhile Char.isDigit).head?.any isWord then
      some (whole + 1 + digits.length)
    else if rest.head?.any isWord then some (whole + 1) else some whole
  | rest => if rest.head?.any isWord then none else some whole

theorem decimal_point (before rest : List Char) :
    decimal before ('.' :: rest) =
      if before.head?.any isWord && !(rest.takeWhile Char.isDigit).isEmpty &&
          !(rest.dropWhile Char.isDigit).head?.any isWord then
        some ((rest.takeWhile Char.isDigit).length + 1)
      else none := rfl

theorem decimal_whole {rest : List Char} (h : ∀ tail, rest ≠ '.' :: tail) (before : List Char) :
    decimal before rest =
      if before.head?.any isWord || (rest.takeWhile Char.isDigit).isEmpty then none
      else decimalOfWhole (rest.takeWhile Char.isDigit).length (rest.dropWhile Char.isDigit) := by
  rw [decimal.eq_def]
  split
  · next tail => exact absurd rfl (h tail)
  · rfl

theorem decimalOfWhole_stop {rest : List Char} (h : ∀ tail, rest ≠ '.' :: tail) (whole : Nat) :
    decimalOfWhole whole rest = if rest.head?.any isWord then none else some whole := by
  rw [decimalOfWhole.eq_def]
  split
  · next tail => exact absurd rfl (h tail)
  · rfl

theorem length_digits_add (text : List Char) : (text.takeWhile Char.isDigit).length +
    (text.dropWhile Char.isDigit).length = text.length := by
  rw [← List.length_append, List.takeWhile_append_dropWhile]

theorem decimalOfWhole_le {whole n : Nat} {rest : List Char}
    (h : decimalOfWhole whole rest = some n) : n ≤ whole + rest.length := by
  rw [decimalOfWhole.eq_def] at h
  split at h
  · next rest =>
    have hlen := length_digits_add rest
    simp only at h
    split_ifs at h
    all_goals
      obtain rfl := Option.some.inj h
      simp only [List.length_cons]
      omega
  · split_ifs at h
    obtain rfl := Option.some.inj h
    omega

theorem decimal_fits : decimal.Fits id := by
  intro before rest n h
  have hlen := length_digits_add rest
  by_cases hpoint : ∃ tail, rest = '.' :: tail
  · obtain ⟨tail, rfl⟩ := hpoint
    have htail := length_digits_add tail
    rw [decimal_point] at h
    split_ifs at h
    obtain rfl := Option.some.inj h
    simp only [id_eq, List.length_cons]
    omega
  · rw [decimal_whole (not_exists.mp hpoint)] at h
    split_ifs at h
    have hle := decimalOfWhole_le h
    simp only [id_eq]
    omega

theorem firstPerStart_sublist (last : Option Nat) (es : List Extent) :
    (firstPerStart last es).Sublist es := by
  induction es generalizing last with
  | nil => exact .slnil
  | cons e es ih =>
    rw [firstPerStart]
    split_ifs
    · exact (ih last).cons e
    · exact (ih _).cons_cons e

theorem firstPerStart_ascending {last : Option Nat} {es : List Extent}
    (hlast : ∀ s ∈ last, ∀ e ∈ es, s ≤ e.start)
    (hs : es.Pairwise (fun a b => a.start ≤ b.start)) :
    (firstPerStart last es).Pairwise (fun a b => a.start < b.start) ∧
      ∀ s ∈ last, ∀ e ∈ firstPerStart last es, s < e.start := by
  induction es generalizing last with
  | nil => simp [firstPerStart]
  | cons e es ih =>
    obtain ⟨he, hs⟩ := List.pairwise_cons.mp hs
    have hlast' : ∀ s ∈ last, ∀ e ∈ es, s ≤ e.start := fun s hl d hd => hlast s hl d (by simp [hd])
    rw [firstPerStart]
    split_ifs with h
    · exact ih hlast' hs
    · obtain ⟨hasc, hgt⟩ := ih (by simpa using he : ∀ s ∈ some e.start, ∀ d ∈ es, s ≤ d.start) hs
      refine ⟨List.pairwise_cons.mpr ⟨hgt _ rfl, hasc⟩, ?_⟩
      rintro s rfl d hd
      have hle := hlast s rfl e (by simp)
      have hne : s ≠ e.start := fun hse => h (by rw [hse])
      rcases List.mem_cons.mp hd with rfl | hd
      · omega
      · have hlt := hgt _ rfl d hd
        omega

@[simp, grind =]
theorem longestFirst_iff {a b : Extent} :
    a.longestFirst b = true ↔ a.start < b.start ∨ a.start = b.start ∧ b.stop ≤ a.stop := by
  simp [Extent.longestFirst]

theorem pairwise_longestFirst (es : List Extent) :
    (es.mergeSort Extent.longestFirst).Pairwise (fun a b => a.longestFirst b = true) := by
  apply List.pairwise_mergeSort
  · intro a b c hab hbc
    grind
  · intro a b
    grind

theorem longestFirst_antisymm {a b : Extent} (hab : a.longestFirst b = true)
    (hba : b.longestFirst a = true) : a = b := by
  rw [longestFirst_iff] at hab hba
  rw [Extent.mk.injEq]
  omega

theorem mergeSort_of_perm {es fs : List Extent} (hp : es.Perm fs)
    (hf : fs.Pairwise (fun a b => a.longestFirst b = true)) :
    es.mergeSort Extent.longestFirst = fs :=
  List.Perm.eq_of_pairwise (fun _ _ _ _ => longestFirst_antisymm) (pairwise_longestFirst es) hf
    ((List.mergeSort_perm es _).trans hp)

theorem pool_perm {es fs : List Extent} (hp : es.Perm fs) : pool es = pool fs := by
  have hsort := mergeSort_of_perm (hp.trans (List.mergeSort_perm fs _).symm)
    (pairwise_longestFirst fs)
  rw [pool, hsort, pool]

theorem firstPerStart_append {last : Option Nat} {es fs : List Extent}
    (hlast : ∀ s ∈ last, ∀ f ∈ fs, s < f.start) (h : ∀ e ∈ es, ∀ f ∈ fs, e.start < f.start) :
    firstPerStart last (es ++ fs) = firstPerStart last es ++ firstPerStart none fs := by
  induction es generalizing last with
  | nil =>
    cases fs with
    | nil => rfl
    | cons f fs =>
      have hne : last ≠ some f.start := fun hf => Nat.lt_irrefl _ (hlast _ hf f (by simp))
      change firstPerStart last (f :: fs) = firstPerStart none (f :: fs)
      rw [firstPerStart, if_neg hne, firstPerStart, if_neg (by simp)]
  | cons e es ih =>
    have htail : ∀ d ∈ es, ∀ f ∈ fs, d.start < f.start := fun d hd => h d (by simp [hd])
    rw [List.cons_append, firstPerStart, firstPerStart]
    split_ifs
    · exact ih hlast htail
    · have he : ∀ s ∈ some e.start, ∀ f ∈ fs, s < f.start := by
        rintro s ⟨rfl⟩
        exact h e (by simp)
      rw [ih he htail, List.cons_append]

theorem pool_append {es fs : List Extent} (h : ∀ e ∈ es, ∀ f ∈ fs, e.start < f.start) :
    pool (es ++ fs) = pool es ++ pool fs := by
  have hpairs : ∀ e ∈ es.mergeSort Extent.longestFirst, ∀ f ∈ fs.mergeSort Extent.longestFirst,
      e.start < f.start := fun e he f hf => h e (List.mem_mergeSort.mp he) f (List.mem_mergeSort.mp hf)
  have hperm : (es ++ fs).Perm
      (es.mergeSort Extent.longestFirst ++ fs.mergeSort Extent.longestFirst) :=
    (List.mergeSort_perm es _).symm.append (List.mergeSort_perm fs _).symm
  have hpairwise : (es.mergeSort Extent.longestFirst ++ fs.mergeSort Extent.longestFirst).Pairwise
      (fun a b => a.longestFirst b = true) := by
    refine List.pairwise_append.mpr ⟨pairwise_longestFirst es, pairwise_longestFirst fs, ?_⟩
    intro e he f hf
    exact longestFirst_iff.mpr (Or.inl (hpairs e he f hf))
  rw [pool, mergeSort_of_perm hperm hpairwise, firstPerStart_append (by simp) hpairs, pool, pool]

theorem firstPerStart_shift (d : Nat) (last : Option Nat) (es : List Extent) :
    firstPerStart (last.map (· + d)) (es.map (Extent.shift d)) =
      (firstPerStart last es).map (Extent.shift d) := by
  induction es generalizing last with
  | nil => rfl
  | cons e es ih =>
    have hsame : last.map (· + d) = some (e.shift d).start ↔ last = some e.start := by
      cases last <;> simp
    rw [List.map_cons, firstPerStart, firstPerStart]
    by_cases h : last = some e.start
    · rw [if_pos (hsame.mpr h), if_pos h, ih]
    · rw [if_neg (hsame.not.mpr h), if_neg h, List.map_cons, ← ih]
      rfl

theorem pool_shift (d : Nat) (es : List Extent) :
    pool (es.map (Extent.shift d)) = (pool es).map (Extent.shift d) := by
  rw [pool, ← List.map_mergeSort (r := Extent.longestFirst), pool, ← firstPerStart_shift]
  · rfl
  · intro a _ b _
    rw [Bool.eq_iff_iff, longestFirst_iff, longestFirst_iff]
    simp

theorem pool_subset (es : List Extent) : pool es ⊆ es := by
  intro e he
  exact (List.mergeSort_perm es _).subset ((firstPerStart_sublist none _).subset he)

theorem pool_ascending (es : List Extent) : (pool es).Pairwise (fun a b => a.start < b.start) := by
  refine (firstPerStart_ascending (by simp) ((pairwise_longestFirst es).imp ?_)).1
  intro a b hab
  rw [longestFirst_iff] at hab
  omega

theorem numbers_ascending : Ascending numbers := fun _ => pool_ascending _

theorem proposals_bounded :
    Bounded (fun text => hexLiterals text ++ decimals text ++ ByteSequence.all text) := by
  intro text e he
  rcases List.mem_append.mp he with he | he
  · rcases List.mem_append.mp he with he | he
    · exact Run.extents_bounded _ text e he
    · exact Occurrence.extents_bounded decimal_fits text e he
  · exact ByteSequence.all_bounded text e he

theorem numbers_bounded : Bounded numbers :=
  fun text _ he => proposals_bounded text _ (pool_subset _ he)

theorem pool_splitsAt {f : List Char → List Extent} {front back : List Char} {c : Char}
    (hf : Bounded f) (hperm : (f (front ++ c :: back)).Perm
      (f front ++ (f back).map (Extent.shift (front.length + 1)))) :
    SplitsAt front c back (fun text => pool (f text)) := by
  have happart : ∀ e ∈ f front, ∀ e' ∈ (f back).map (Extent.shift (front.length + 1)),
      e.start < e'.start := by
    intro e he e' he'
    obtain ⟨d, -, rfl⟩ := List.mem_map.mp he'
    have hle := hf front e he
    rw [Extent.shift_start]
    omega
  rw [SplitsAt, pool_perm hperm, pool_append happart, pool_shift]

end Pattern

end RuleHighlight
