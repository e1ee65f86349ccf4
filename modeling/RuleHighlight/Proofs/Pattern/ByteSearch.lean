import RuleHighlight.Proofs.Pattern.ByteWindow
import RuleHighlight.Proofs.Pattern.RunSearch

/-!
Byte sequences as a search inside the runs of nibbles. A place of a run opens one by what stands in
front of it, and where it closes is the end of the run or else the last wildcard whose place has the
same parity in the text.
-/

namespace RuleHighlight

open CharClass

def Regex.nibbles : Regex := .many isNibble 1 none

namespace ByteSequence

def OpensIn (text : List Char) (run : Extent) (place : Nat) : Prop :=
  if place = run.start then (Text.previous? text place).any blocksBytes = false
  else Text.previous? text place = some '?'

def wildcards (text : List Char) (run : Extent) (place : Nat) : Set Nat :=
  {q | run.start ≤ q ∧ q < run.stop ∧ text[q]? = some '?' ∧ q % 2 = place % 2}

def ClosesIn (text : List Char) (run : Extent) (place stop : Nat) : Prop :=
  if text[run.stop]?.any blocksBytes = false ∧ (run.stop - place) % 2 = 0 then stop = run.stop
  else IsGreatest (wildcards text run place) stop

def sequences (text : List Char) : Search Extent where
  Sees e := ∃ run ∈ Run.extents isNibble (fun _ => true) text,
    run.start ≤ e.start ∧ e.start + 1 < run.stop ∧ OpensIn text run e.start ∧
      ClosesIn text run e.start e.stop ∧ e.start < e.stop
  start := Extent.start
  stop := Extent.stop

section Runs

variable {text : List Char} {i : Nat} {r : Run} {pos stop : Nat}

theorem opensIn_iff (h : Run.Maximal isNibble text i r) (hpos : pos < r.chars.length) :
    OpensIn text ⟨i, i + r.chars.length⟩ (i + pos) ↔ Opens r pos := by
  cases pos with
  | zero => simp [OpensIn, Opens, h.previous?_eq]
  | succ j =>
    have hj : j < r.chars.length := Nat.lt_of_succ_lt hpos
    have hne : i + (j + 1) ≠ i := by omega
    rw [OpensIn, if_neg hne, ← Nat.add_assoc, Text.previous?_eq_getElem? (h.getElem?_eq hj)]
    simp [Opens, List.getElem?_eq_getElem hj]

theorem mem_wildcards_iff (h : Run.Maximal isNibble text i r) :
    i + stop ∈ wildcards text ⟨i, i + r.chars.length⟩ (i + pos) ↔
      r.chars[stop]? = some '?' ∧ stop % 2 = pos % 2 := by
  have hplace (hlt : stop < r.chars.length) : text[i + stop]? = r.chars[stop]? := by
    rw [h.getElem?_eq hlt, List.getElem?_eq_getElem hlt]
  constructor
  · rintro ⟨-, hlt, hc, hparity⟩
    rw [hplace (Nat.add_lt_add_iff_left.mp hlt)] at hc
    exact ⟨hc, by omega⟩
  · rintro ⟨hc, hparity⟩
    have hlt := (List.getElem?_eq_some_iff.mp hc).1
    exact ⟨Nat.le_add_right i stop, Nat.add_lt_add_left hlt i, (hplace hlt).trans hc, by omega⟩

theorem reaches_iff_of_free (hpos : pos < r.chars.length) (heven : (r.chars.length - pos) % 2 = 0)
    (hfree : r.after.head?.any blocksBytes = false) :
    IsGreatest {s | Reaches r pos s} stop ↔ stop = r.chars.length := by
  have hend : IsGreatest {s | Reaches r pos s} r.chars.length :=
    ⟨⟨hpos, Nat.le_refl _, heven, Or.inl ⟨rfl, hfree⟩⟩, fun s hs => hs.le⟩
  refine ⟨fun h => h.unique hend, ?_⟩
  rintro rfl
  exact hend

theorem reaches_iff_wildcard
    (hend : ¬ (r.after.head?.any blocksBytes = false ∧ (r.chars.length - pos) % 2 = 0)) :
    Reaches r pos stop ↔ pos < stop ∧ r.chars[stop]? = some '?' ∧ stop % 2 = pos % 2 := by
  constructor
  · rintro ⟨hlt, -, heven, ⟨rfl, hfree⟩ | hc⟩
    · exact absurd ⟨hfree, heven⟩ hend
    · exact ⟨hlt, hc, by omega⟩
  · rintro ⟨hlt, hc, hparity⟩
    exact ⟨hlt, Nat.le_of_lt (List.getElem?_eq_some_iff.mp hc).1, by omega, Or.inr hc⟩

theorem closesIn_iff (h : Run.Maximal isNibble text i r) (hpos : pos < r.chars.length) :
    ClosesIn text ⟨i, i + r.chars.length⟩ (i + pos) (i + stop) ∧ pos < stop ↔
      IsGreatest {s | Reaches r pos s} stop := by
  have hwidth : i + r.chars.length - (i + pos) = r.chars.length - pos := by omega
  rw [ClosesIn, h.getElem?_length, hwidth]
  split_ifs with hend
  · rw [reaches_iff_of_free hpos hend.2 hend.1, Nat.add_left_cancel_iff, and_iff_left_iff_imp]
    rintro rfl
    exact hpos
  · constructor
    · rintro ⟨⟨hmem, hgreatest⟩, hlt⟩
      refine ⟨(reaches_iff_wildcard hend).mpr ⟨hlt, (mem_wildcards_iff h).mp hmem⟩, fun s hs => ?_⟩
      have hs := (mem_wildcards_iff h).mpr ((reaches_iff_wildcard hend).mp hs).2
      exact Nat.add_le_add_iff_left.mp (hgreatest hs)
    · rintro ⟨hreaches, hgreatest⟩
      obtain ⟨hlt, hmem⟩ := (reaches_iff_wildcard hend).mp hreaches
      refine ⟨⟨(mem_wildcards_iff h).mpr hmem, fun q hq => ?_⟩, hlt⟩
      obtain ⟨s, rfl⟩ := Nat.exists_eq_add_of_le hq.1
      rcases Nat.lt_or_ge pos s with hs | hs
      · exact Nat.add_le_add_left (hgreatest
          ((reaches_iff_wildcard hend).mpr ⟨hs, (mem_wildcards_iff h).mp hq⟩)) i
      · exact Nat.add_le_add_left (hs.trans (Nat.le_of_lt hlt)) i

end Runs

theorem sees_sequences_iff {text : List Char} {e : Extent} : (sequences text).Sees e ↔
    IsGreatest {j | Window text ⟨e.start, j⟩} e.stop := by
  obtain ⟨start, stop⟩ := e
  constructor
  · rintro ⟨⟨i, j⟩, hrun, hstart, hinside, hopens, hcloses, hlt⟩
    obtain ⟨r, hr, -, hj⟩ := Run.mem_extents_iff.mp hrun
    simp only at hr hj hstart hinside hopens hcloses hlt ⊢
    subst hj
    obtain ⟨pos, rfl⟩ := Nat.exists_eq_add_of_le hstart
    obtain ⟨last, rfl⟩ := Nat.exists_eq_add_of_le (show i ≤ stop by omega)
    have hpos : pos < r.chars.length := by omega
    have hgreatest := (closesIn_iff hr hpos).mp ⟨hcloses, Nat.add_lt_add_iff_left.mp hlt⟩
    exact (isGreatest_window_iff hr hpos hgreatest.1.le).mpr
      ⟨(opensIn_iff hr hpos).mp hopens, hgreatest⟩
  · intro hgreatest
    have hw : Window text ⟨start, stop⟩ := hgreatest.1
    obtain ⟨i, r, hr, hstart, hstop⟩ := hw.exists_run
    have hlt := hw.start_lt_stop
    have heven := hw.even_width
    simp only at hstart hstop hlt heven
    obtain ⟨pos, rfl⟩ := Nat.exists_eq_add_of_le hstart
    obtain ⟨last, rfl⟩ := Nat.exists_eq_add_of_le (show i ≤ stop by omega)
    have hpos : pos < r.chars.length := by omega
    obtain ⟨hopens, hreaches⟩ := (isGreatest_window_iff hr hpos (by omega)).mp hgreatest
    refine ⟨⟨i, i + r.chars.length⟩, Run.mem_extents_iff.mpr ⟨r, hr, rfl, rfl⟩, hstart,
      by simp only; omega, (opensIn_iff hr hpos).mpr hopens, ?_, hlt⟩
    exact ((closesIn_iff hr hpos).mpr hreaches).1

theorem sequences_within (text : List Char) : (sequences text).Within text.length := by
  refine ⟨fun e he => (sees_sequences_iff.mp he).1.start_lt_stop,
    fun e he => (sees_sequences_iff.mp he).1.stop_le_length, ?_⟩
  rintro ⟨start, stop⟩ ⟨start', stop'⟩ ha hb heq
  obtain rfl : start = start' := heq
  obtain rfl : stop = stop' := (sees_sequences_iff.mp ha).unique (sees_sequences_iff.mp hb)
  rfl

theorem sequences_decomposes (text : List Char) : (sequences text).Decomposes (all text) :=
  ⟨fun _ he => sees_sequences_iff.mpr (isGreatest_of_mem_all he), all_ascending text,
    fun _ he => exists_mem_all_of_window (sees_sequences_iff.mp he).1⟩

/-- The byte sequences of a text are what the scan over its windows takes from the start. A search
for runs of nibbles, and in each for the places that open and close, comes to its end on every text
and finds them too. -/
theorem taken_iff_eq_all (text : List Char) :
    (∀ found, Taken text 0 found ↔ found = all text) ∧
    (∀ runs, (Regex.nibbles.search text).Yields runs ↔
      runs = Run.extents isNibble (fun _ => true) text) ∧
    WellFounded (fun t' t => (sequences text).Step t t') ∧
    ∀ found, (sequences text).Yields found ↔ found = all text := by
  have hall : Taken text 0 (all text) :=
    taken_of_covers (fun _ => isGreatest_of_mem_all) (all_ascending text)
      (fun _ _ => Nat.zero_le _) (fun _ hw _ => exists_mem_all_of_window hw)
  refine ⟨fun found => ⟨fun h => h.unique hall, ?_⟩, fun _ => Run.yields_many_one_iff isNibble,
    (sequences_within text).wellFounded_step,
    fun _ => (sequences_decomposes text).yields_iff (sequences_within text)⟩
  rintro rfl
  exact hall

-- The wildcard at 3 closes what opens at 1, since the word behind the run keeps its end shut.
example : all "??A?_".toList = [⟨1, 3⟩] := by decide

end ByteSequence

end RuleHighlight
