import Mathlib.Order.Bounds.Basic
import RuleHighlight.Proofs.Pattern.Interior

/-!
Byte sequences as windows. A scan that tries every window from left to right, takes the longest one
at the first place where there is one, and goes on behind it, takes the sequences that the cutting
of runs finds, and no others.
-/

namespace RuleHighlight

open CharClass

namespace Run

variable {p : Char → Bool} {text : List Char}

theorem exists_maximal {stretch : List Char} (hne : stretch ≠ [])
    (hall : ∀ c ∈ stretch, p c = true) (front back : List Char) :
    ∃ i r, Maximal p (front ++ (stretch ++ back)) i r ∧ i ≤ front.length ∧
      front.length + stretch.length ≤ i + r.chars.length := by
  have hfront : front.length =
      (front.reverse.takeWhile p).length + (front.reverse.dropWhile p).length := by
    rw [← List.length_append, List.takeWhile_append_dropWhile, List.length_reverse]
  refine ⟨(front.reverse.dropWhile p).length,
    ⟨front.reverse.dropWhile p,
      (front.reverse.takeWhile p).reverse ++ (stretch ++ back.takeWhile p), back.dropWhile p⟩,
    ⟨?_, rfl, by simp [hne], ?_, Text.any_head?_dropWhile _ _, Text.any_head?_dropWhile _ _⟩,
    by omega, ?_⟩
  · calc front ++ (stretch ++ back)
      _ = (front.reverse.takeWhile p ++ front.reverse.dropWhile p).reverse ++
          (stretch ++ (back.takeWhile p ++ back.dropWhile p)) := by
        simp only [List.takeWhile_append_dropWhile, List.reverse_reverse]
      _ = _ := by simp only [List.reverse_append, List.append_assoc]
  · intro c hc
    rw [List.mem_append, List.mem_append, List.mem_reverse] at hc
    rcases hc with hc | hc | hc
    · exact List.mem_takeWhile_imp hc
    · exact hall c hc
    · exact List.mem_takeWhile_imp hc
  · simp only [List.length_append, List.length_reverse]
    omega

end Run

namespace ByteSequence

structure Window (text : List Char) (e : Extent) : Prop where
  start_lt_stop : e.start < e.stop
  stop_le_length : e.stop ≤ text.length
  even_width : (e.stop - e.start) % 2 = 0
  nibbles : ∀ k c, e.start ≤ k → k < e.stop → text[k]? = some c → isNibble c = true
  any_before : (Text.previous? text e.start).any blocksBytes = false
  any_after : text[e.stop]?.any blocksBytes = false

/-- What the scan takes from a place on: the longest window at the first place where there is one,
and what it takes from the end of that window on. -/
inductive Taken (text : List Char) : Nat → List Extent → Prop
  | done {pos : Nat} (h : ∀ w, Window text w → w.start < pos) : Taken text pos []
  | take {pos : Nat} {e : Extent} {later : List Extent}
      (hfirst : IsLeast {i | pos ≤ i ∧ ∃ j, Window text ⟨i, j⟩} e.start)
      (hlongest : IsGreatest {j | Window text ⟨e.start, j⟩} e.stop)
      (hlater : Taken text e.stop later) : Taken text pos (e :: later)

theorem Taken.unique {text : List Char} {pos : Nat} {found found' : List Extent}
    (h : Taken text pos found) (h' : Taken text pos found') : found = found' := by
  induction h generalizing found' with
  | done hnone =>
    cases h' with
    | done => rfl
    | take hfirst _ _ =>
      obtain ⟨⟨hpos, j, hwindow⟩, -⟩ := hfirst
      exact absurd (hnone _ hwindow) (Nat.not_lt.mpr hpos)
  | @take pos e later hfirst hlongest hlater ih =>
    cases h' with
    | done hnone =>
      obtain ⟨⟨hpos, j, hwindow⟩, -⟩ := hfirst
      exact absurd (hnone _ hwindow) (Nat.not_lt.mpr hpos)
    | @take _ e' later' hfirst' hlongest' hlater' =>
      obtain ⟨start, stop⟩ := e
      obtain ⟨start', stop'⟩ := e'
      obtain rfl : start = start' := hfirst.unique hfirst'
      obtain rfl : stop = stop' := hlongest.unique hlongest'
      rw [ih hlater']

theorem taken_of_covers {text : List Char} {pos : Nat} {found : List Extent}
    (hlongest : ∀ e ∈ found, IsGreatest {j | Window text ⟨e.start, j⟩} e.stop)
    (hascend : found.Pairwise (fun a b => a.stop ≤ b.start))
    (hpos : ∀ e ∈ found, pos ≤ e.start)
    (hcover : ∀ w, Window text w → pos ≤ w.start →
      ∃ e ∈ found, e.start ≤ w.start ∧ w.start < e.stop) : Taken text pos found := by
  induction found generalizing pos with
  | nil =>
    refine .done fun w hw => Nat.lt_of_not_le fun hle => ?_
    obtain ⟨e, he, -⟩ := hcover w hw hle
    cases he
  | cons e later ih =>
    obtain ⟨hbehind, hascend⟩ := List.pairwise_cons.mp hascend
    obtain ⟨he, hlater⟩ := List.forall_mem_cons.mp hlongest
    have hlt : e.start < e.stop := he.1.start_lt_stop
    refine .take ⟨⟨(List.forall_mem_cons.mp hpos).1, e.stop, he.1⟩, ?_⟩ he
      (ih hlater hascend hbehind ?_)
    · rintro i ⟨hi, j, hw⟩
      obtain ⟨d, hd, hstart, hstop⟩ := hcover _ hw hi
      rcases List.mem_cons.mp hd with rfl | hd
      · exact hstart
      · have hle := hbehind d hd
        simp only at hstart
        omega
    · intro w hw hstart
      have hle := (List.forall_mem_cons.mp hpos).1
      obtain ⟨d, hd, hcovers⟩ := hcover w hw (by omega)
      rcases List.mem_cons.mp hd with rfl | hd
      · omega
      · exact ⟨d, hd, hcovers⟩

section Windows

variable {text : List Char} {i : Nat} {r : Run}

def Opens (r : Run) (pos : Nat) : Prop :=
  pos = 0 ∧ r.before.head?.any blocksBytes = false ∨ ∃ j, pos = j + 1 ∧ r.chars[j]? = some '?'

def Closes (r : Run) (stop : Nat) : Prop :=
  stop = r.chars.length ∧ r.after.head?.any blocksBytes = false ∨ r.chars[stop]? = some '?'

structure Reaches (r : Run) (pos stop : Nat) : Prop where
  lt : pos < stop
  le : stop ≤ r.chars.length
  even : (stop - pos) % 2 = 0
  closes : Closes r stop

theorem eq_wildcard_of_free {c : Char} (hc : isNibble c = true) (hfree : blocksBytes c = false) :
    c = '?' := by
  rcases Bool.or_eq_true_iff.mp hc with hdigit | hwildcard
  · rw [blocksBytes, isWord_of_isHexDigit hdigit, Bool.or_true] at hfree
    cases hfree
  · exact beq_iff_eq.mp hwildcard

theorem getElem?_eq_wildcard_iff (h : Run.Maximal isNibble text i r) {j : Nat}
    (hj : j < r.chars.length) :
    r.chars[j]? = some '?' ↔ text[i + j]?.any blocksBytes = false := by
  rw [h.getElem?_eq hj, List.getElem?_eq_getElem hj, Option.any_some, Option.some_inj]
  refine ⟨fun hc => by rw [hc]; rfl, fun hfree => ?_⟩
  exact eq_wildcard_of_free (h.chars_eq_true _ (List.getElem_mem hj)) hfree

theorem opens_iff (h : Run.Maximal isNibble text i r) {pos : Nat} (hpos : pos ≤ r.chars.length) :
    Opens r pos ↔ (Text.previous? text (i + pos)).any blocksBytes = false := by
  cases pos with
  | zero => simp [Opens, h.previous?_eq]
  | succ j =>
    have hj : j < r.chars.length := hpos
    rw [← Nat.add_assoc, Text.previous?_eq_getElem? (h.getElem?_eq hj), ← h.getElem?_eq hj,
      ← getElem?_eq_wildcard_iff h hj]
    simp [Opens]

theorem closes_iff (h : Run.Maximal isNibble text i r) {stop : Nat}
    (hstop : stop ≤ r.chars.length) :
    Closes r stop ↔ text[i + stop]?.any blocksBytes = false := by
  rcases Nat.lt_or_eq_of_le hstop with hlt | rfl
  · rw [← getElem?_eq_wildcard_iff h hlt, Closes, or_iff_right fun hend => by omega]
  · rw [h.getElem?_length]
    simp [Closes]

theorem window_iff (h : Run.Maximal isNibble text i r) {pos stop : Nat}
    (hstop : stop ≤ r.chars.length) :
    Window text ⟨i + pos, i + stop⟩ ↔ Opens r pos ∧ Reaches r pos stop := by
  constructor
  · intro hw
    have hlt := hw.start_lt_stop
    have heven := hw.even_width
    simp only at hlt heven
    exact ⟨(opens_iff h (by omega)).mpr hw.any_before, by omega, hstop, by omega,
      (closes_iff h hstop).mpr hw.any_after⟩
  · rintro ⟨hopens, hlt, -, heven, hcloses⟩
    have hlength : i + r.chars.length ≤ text.length := by
      rw [h.text_eq, h.offset_eq]
      simp only [List.length_append, List.length_reverse]
      omega
    refine ⟨by simp only; omega, by simp only; omega, by simp only; omega, ?_,
      (opens_iff h (by omega)).mp hopens, (closes_iff h hstop).mp hcloses⟩
    intro k c hk hkstop hc
    simp only at hk hkstop
    exact h.chars_eq_true c (h.mem_chars (by omega) (by omega) hc)

theorem Window.exists_run {e : Extent} (h : Window text e) :
    ∃ i r, Run.Maximal isNibble text i r ∧ i ≤ e.start ∧ e.stop ≤ i + r.chars.length := by
  have hlt := h.start_lt_stop
  have hle := h.stop_le_length
  have hlength : ((text.drop e.start).take (e.stop - e.start)).length = e.stop - e.start := by
    rw [List.length_take, List.length_drop]
    omega
  have htext : text = text.take e.start ++ ((text.drop e.start).take (e.stop - e.start) ++
      (text.drop e.start).drop (e.stop - e.start)) := by
    rw [List.take_append_drop, List.take_append_drop]
  have hall : ∀ c ∈ (text.drop e.start).take (e.stop - e.start), isNibble c = true := by
    intro c hc
    obtain ⟨k, hk, rfl⟩ := List.mem_iff_getElem.mp hc
    rw [hlength] at hk
    refine h.nibbles (e.start + k) _ (by omega) (by omega) ?_
    rw [List.getElem_take, List.getElem_drop, List.getElem?_eq_getElem]
  have hne : (text.drop e.start).take (e.stop - e.start) ≠ [] := by
    rw [← List.length_pos_iff, hlength]
    omega
  obtain ⟨i, r, hr, hi, hstop⟩ := Run.exists_maximal hne hall (text.take e.start)
    ((text.drop e.start).drop (e.stop - e.start))
  rw [← htext] at hr
  rw [List.length_take] at hi hstop
  exact ⟨i, r, hr, by omega, by omega⟩

theorem Window.stop_le_of_run (h : Run.Maximal isNibble text i r) {e : Extent}
    (hw : Window text e) (hstart : e.start < i + r.chars.length) :
    e.stop ≤ i + r.chars.length := by
  by_contra hover
  have hafter := h.any_after
  have hle := hw.stop_le_length
  rw [← h.getElem?_length, List.getElem?_eq_getElem (by omega), Option.any_some,
    hw.nibbles (i + r.chars.length) _ (by omega) (by omega) (List.getElem?_eq_getElem (by omega))]
    at hafter
  cases hafter

theorem isGreatest_window_iff (h : Run.Maximal isNibble text i r) {pos stop : Nat}
    (hpos : pos < r.chars.length) (hstop : stop ≤ r.chars.length) :
    IsGreatest {j | Window text ⟨i + pos, j⟩} (i + stop) ↔
      Opens r pos ∧ IsGreatest {s | Reaches r pos s} stop := by
  constructor
  · rintro ⟨hw, hgreatest⟩
    obtain ⟨hopens, hreaches⟩ := (window_iff h hstop).mp hw
    refine ⟨hopens, hreaches, fun s hs => ?_⟩
    exact Nat.add_le_add_iff_left.mp (hgreatest ((window_iff h hs.le).mpr ⟨hopens, hs⟩))
  · rintro ⟨hopens, hreaches, hgreatest⟩
    refine ⟨(window_iff h hstop).mpr ⟨hopens, hreaches⟩, fun j hw => ?_⟩
    have hj := Window.stop_le_of_run h hw (Nat.add_lt_add_left hpos i)
    have hlt := hw.start_lt_stop
    simp only at hj hlt
    obtain ⟨s, rfl⟩ := Nat.exists_eq_add_of_le (show i ≤ j by omega)
    exact Nat.add_le_add_left (hgreatest ((window_iff h (by omega)).mp hw).2) i

end Windows

theorem lastWildcard_parity {parity pos i : Nat} {chars : List Char}
    (h : lastWildcard parity pos chars = some i) : i % 2 = parity := by
  induction chars generalizing pos with
  | nil => simp [lastWildcard] at h
  | cons c chars ih =>
    rw [lastWildcard] at h
    split at h
    · next hi =>
      obtain rfl := Option.some.inj h
      exact ih hi
    · split at h
      · next hc =>
        obtain rfl := Option.some.inj h
        exact hc.2
      · cases h

theorem exists_lastWildcard {parity pos j : Nat} {chars : List Char}
    (hj : chars[j]? = some '?') (hparity : (pos + j) % 2 = parity) :
    ∃ i, lastWildcard parity pos chars = some i ∧ pos + j ≤ i := by
  induction chars generalizing pos j with
  | nil => cases hj
  | cons c chars ih =>
    rw [lastWildcard]
    cases hlast : lastWildcard parity (pos + 1) chars with
    | some i =>
      refine ⟨i, rfl, ?_⟩
      cases j with
      | zero =>
        obtain ⟨k, rfl, -⟩ := getElem?_lastWildcard hlast
        omega
      | succ j =>
        have hparity' : (pos + 1 + j) % 2 = parity := by omega
        obtain ⟨i', hi', hle⟩ := ih (by simpa using hj) hparity'
        rw [hlast] at hi'
        cases hi'
        omega
    | none =>
      cases j with
      | zero =>
        obtain rfl : c = '?' := by simpa using hj
        exact ⟨pos, if_pos ⟨rfl, hparity⟩, Nat.le_refl _⟩
      | succ j =>
        have hparity' : (pos + 1 + j) % 2 = parity := by omega
        obtain ⟨i', hi', -⟩ := ih (by simpa using hj) hparity'
        rw [hlast] at hi'
        cases hi'

section Farthest

variable {r : Run} {pos stop : Nat}

theorem wildcard_eq (r : Run) (pos : Nat) :
    (if pos % 2 = 0 then (Closings.ofRun r).evenWildcard else (Closings.ofRun r).oddWildcard) =
      lastWildcard (pos % 2) 0 r.chars := by
  rcases Nat.mod_two_eq_zero_or_one pos with hpos | hpos
  · rw [hpos, if_pos rfl]
    rfl
  · rw [hpos, if_neg (by omega)]
    rfl

theorem reaches_of_farthest (h : (Closings.ofRun r).farthest pos = some stop) :
    Reaches r pos stop := by
  obtain ⟨hlt, hle⟩ := farthest_bounds h
  refine ⟨hlt, hle, ?_, farthest_stops h⟩
  have hwildcard (hw : (lastWildcard (pos % 2) 0 r.chars).filter (pos < ·) = some stop) :
      (stop - pos) % 2 = 0 := by
    have hparity := lastWildcard_parity (Option.filter_eq_some_iff.mp hw).1
    omega
  rw [Closings.farthest, wildcard_eq] at h
  split at h
  · next last hlast =>
    by_cases hpos : pos < last ∧ (last - pos) % 2 = 0
    · rw [if_pos hpos] at h
      rw [← Option.some.inj h]
      exact hpos.2
    · rw [if_neg hpos] at h
      exact hwildcard h
  · exact hwildcard h

theorem Reaches.le_farthest (h : Reaches r pos stop) :
    ∃ last, (Closings.ofRun r).farthest pos = some last ∧ stop ≤ last := by
  have hwildcard (hc : r.chars[stop]? = some '?') :
      ∃ last, (lastWildcard (pos % 2) 0 r.chars).filter (pos < ·) = some last ∧ stop ≤ last := by
    have heven := h.even
    have hlt := h.lt
    have hparity : (0 + stop) % 2 = pos % 2 := by omega
    obtain ⟨last, hlast, hle⟩ := exists_lastWildcard hc hparity
    refine ⟨last, Option.filter_eq_some_iff.mpr ⟨hlast, ?_⟩, by omega⟩
    exact decide_eq_true (by omega)
  rw [Closings.farthest, wildcard_eq]
  by_cases hafter : r.after.head?.any blocksBytes = true
  · have hend : (Closings.ofRun r).runEnd = none := if_pos hafter
    rw [hend]
    rcases h.closes with ⟨-, hfree⟩ | hc
    · rw [hfree] at hafter
      cases hafter
    · exact hwildcard hc
  · have hend : (Closings.ofRun r).runEnd = some r.chars.length := if_neg hafter
    rw [hend]
    dsimp only
    split
    · exact ⟨r.chars.length, rfl, h.le⟩
    · next hodd =>
      rcases h.closes with ⟨rfl, -⟩ | hc
      · exact absurd ⟨h.lt, h.even⟩ hodd
      · exact hwildcard hc

end Farthest

section Cut

variable {closings : Closings} {covered pos : Nat} {opens : Bool} {chars : List Char}

theorem le_start_of_mem_cut {e : Extent} (h : e ∈ cut closings covered pos opens chars) :
    pos + covered ≤ e.start := by
  induction chars generalizing covered pos opens with
  | nil => simp [cut] at h
  | cons c chars ih =>
    cases covered with
    | succ covered =>
      have hle := ih h
      omega
    | zero =>
      rw [cut] at h
      split at h
      · rcases List.mem_cons.mp h with rfl | h
        · exact Nat.le_refl _
        · have hle := ih h
          omega
      · have hle := ih h
        omega

theorem cut_ascending : (cut closings covered pos opens chars).Pairwise
    (fun a b => a.stop ≤ b.start) := by
  induction chars generalizing covered pos opens with
  | nil => simp [cut]
  | cons c chars ih =>
    cases covered with
    | succ covered => exact ih
    | zero =>
      rw [cut]
      split
      · refine List.pairwise_cons.mpr ⟨fun e he => ?_, ih⟩
        have hle := le_start_of_mem_cut he
        simp only
        omega
      · exact ih

theorem exists_mem_cut {place stop : Nat} (hplace : pos + covered ≤ place)
    (hopens : place = pos ∧ opens = true ∨ ∃ j, place = pos + j + 1 ∧ chars[j]? = some '?')
    (hlt : place < pos + chars.length) (hfarthest : closings.farthest place = some stop)
    (hstop : place < stop) :
    ∃ e ∈ cut closings covered pos opens chars, e.start ≤ place ∧ place < e.stop := by
  induction chars generalizing covered pos opens with
  | nil =>
    rw [List.length_nil] at hlt
    omega
  | cons c chars ih =>
    rw [List.length_cons] at hlt
    have hnext (hne : place ≠ pos) : place = pos + 1 ∧ (c == '?') = true ∨
        ∃ j, place = pos + 1 + j + 1 ∧ chars[j]? = some '?' := by
      rcases hopens with ⟨heq, -⟩ | ⟨j, heq, hc⟩
      · exact absurd heq hne
      · cases j with
        | zero => exact Or.inl ⟨heq, by simpa using hc⟩
        | succ j => exact Or.inr ⟨j, by omega, by simpa using hc⟩
    cases covered with
    | succ covered => exact ih (by omega) (hnext (by omega)) (by omega)
    | zero =>
      rw [cut]
      by_cases heq : place = pos
      · subst heq
        rcases hopens with ⟨-, rfl⟩ | ⟨j, hj, -⟩
        · rw [if_pos rfl, hfarthest]
          exact ⟨_, List.mem_cons_self, Nat.le_refl _, hstop⟩
        · omega
      · split
        · next last _ =>
          by_cases hreach : place < last
          · exact ⟨_, List.mem_cons_self, by simp only; omega, hreach⟩
          · have hbehind : pos + 1 + (last - pos - 1) ≤ place := by omega
            obtain ⟨e, he, hcovers⟩ := ih hbehind (hnext heq) (by omega)
            exact ⟨e, List.mem_cons_of_mem _ he, hcovers⟩
        · exact ih (by omega) (hnext heq) (by omega)

theorem mem_ofRun {r : Run} {e : Extent} (h : e ∈ ofRun r) :
    Opens r e.start ∧ (Closings.ofRun r).farthest e.start = some e.stop := by
  refine ⟨?_, farthest_of_mem_cut h⟩
  rcases opens_of_mem_cut h with ⟨hstart, hopens⟩ | ⟨j, hstart, hc⟩
  · exact Or.inl ⟨hstart, by simpa using hopens⟩
  · exact Or.inr ⟨j, by omega, hc⟩

theorem exists_mem_ofRun {r : Run} {place stop : Nat} (hopens : Opens r place)
    (hreaches : Reaches r place stop) : ∃ e ∈ ofRun r, e.start ≤ place ∧ place < e.stop := by
  obtain ⟨last, hlast, hle⟩ := hreaches.le_farthest
  have hlt := hreaches.lt
  have hlength := hreaches.le
  refine exists_mem_cut (by omega) ?_ (by omega) hlast (by omega)
  rcases hopens with ⟨hstart, hfree⟩ | ⟨j, hj, hc⟩
  · exact Or.inl ⟨hstart, by simp [hfree]⟩
  · exact Or.inr ⟨j, by omega, hc⟩

end Cut

section All

variable {text : List Char}

theorem all_ascending (text : List Char) : (all text).Pairwise (fun a b => a.stop ≤ b.start) := by
  rw [all, List.pairwise_flatMap]
  constructor
  · rintro ⟨i, r⟩ -
    rw [List.pairwise_map]
    refine cut_ascending.imp fun hle => ?_
    simp only
    omega
  · refine (Occurrence.all_pairwise text).imp fun {x y} hxy a ha b hb => ?_
    obtain ⟨a', ha', rfl⟩ := List.mem_map.mp ha
    obtain ⟨b', -, rfl⟩ := List.mem_map.mp hb
    have hreaches := reaches_of_farthest (mem_ofRun ha').2
    have hle := hreaches.le
    have hwidth := hxy.2
    simp only at hwidth ⊢
    omega

theorem isGreatest_of_mem_all {e : Extent} (he : e ∈ all text) :
    IsGreatest {j | Window text ⟨e.start, j⟩} e.stop := by
  obtain ⟨i, r, e', hr, he', rfl⟩ := mem_all he
  obtain ⟨hopens, hfarthest⟩ := mem_ofRun he'
  have hreaches := reaches_of_farthest hfarthest
  refine (isGreatest_window_iff hr (Nat.lt_of_lt_of_le hreaches.lt hreaches.le) hreaches.le).mpr
    ⟨hopens, hreaches, fun s hs => ?_⟩
  obtain ⟨last, hlast, hle⟩ := hs.le_farthest
  rw [hfarthest] at hlast
  rwa [Option.some.inj hlast]

theorem exists_mem_all_of_window {w : Extent} (hw : Window text w) :
    ∃ e ∈ all text, e.start ≤ w.start ∧ w.start < e.stop := by
  obtain ⟨i, r, hr, hstart, hstop⟩ := hw.exists_run
  obtain ⟨start, stop⟩ := w
  have hlt := hw.start_lt_stop
  simp only at hstart hstop hlt
  obtain ⟨pos, rfl⟩ := Nat.exists_eq_add_of_le hstart
  obtain ⟨last, rfl⟩ := Nat.exists_eq_add_of_le (show i ≤ stop by omega)
  obtain ⟨hopens, hreaches⟩ := (window_iff hr (Nat.add_le_add_iff_left.mp hstop)).mp hw
  obtain ⟨e, he, hle, hreach⟩ := exists_mem_ofRun hopens hreaches
  refine ⟨⟨i + e.start, i + e.stop⟩, ?_, by simp only; omega, by simp only; omega⟩
  exact List.mem_flatMap.mpr ⟨(i, r), Run.mem_all_iff.mpr hr, List.mem_map.mpr ⟨e, he, rfl⟩⟩

end All

end ByteSequence

end RuleHighlight
