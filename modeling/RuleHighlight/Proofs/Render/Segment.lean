import RuleHighlight.Render.Segment
import Mathlib.Data.List.Basic

namespace RuleHighlight

namespace Span

structure Laid (text : List Char) (spans : List Span) : Prop where
  start_lt_stop : ∀ s ∈ spans, s.start < s.stop
  in_text : ∀ s ∈ spans, 0 ≤ s.start ∧ s.stop ≤ text.length
  ordered : spans.Pairwise (fun s t => s.stop ≤ t.start)

def covers (s : Span) (i : Nat) : Bool := decide (s.start ≤ i ∧ (i : Int) < s.stop)

def categoryAt? (spans : List Span) (i : Nat) : Option Category :=
  (spans.find? (·.covers i)).map (·.category)

theorem categoryAt?_cons_of_covers {s : Span} {i : Nat} (h : s.covers i = true)
    (rest : List Span) : categoryAt? (s :: rest) i = some s.category := by
  simp [categoryAt?, h]

theorem categoryAt?_cons_of_not_covers {s : Span} {i : Nat} (h : ¬ s.covers i = true)
    (rest : List Span) : categoryAt? (s :: rest) i = categoryAt? rest i := by
  simp [categoryAt?, h]

def LaidFrom (length : Nat) : Nat → List Span → Prop
  | pos, [] => pos ≤ length
  | pos, s :: rest => ∃ i j : Nat, s.start = i ∧ s.stop = j ∧ pos ≤ i ∧ i < j ∧ j ≤ length ∧
      LaidFrom length j rest

theorem laidFrom_of_laid {text : List Char} {spans : List Span} {pos : Nat} (h : Laid text spans)
    (hpos : pos ≤ text.length) (hle : ∀ s ∈ spans, (pos : Int) ≤ s.start) :
    LaidFrom text.length pos spans := by
  induction spans generalizing pos with
  | nil => exact hpos
  | cons s rest ih =>
    have hlt := h.start_lt_stop s List.mem_cons_self
    have hin := h.in_text s List.mem_cons_self
    have hstart := hle s List.mem_cons_self
    obtain ⟨hafter, hordered⟩ := List.pairwise_cons.mp h.ordered
    obtain ⟨i, hi⟩ := Int.eq_ofNat_of_zero_le hin.1
    obtain ⟨j, hj⟩ : ∃ j : Nat, s.stop = j := Int.eq_ofNat_of_zero_le (by omega)
    have hrest : Laid text rest :=
      ⟨fun t ht => h.start_lt_stop t (List.mem_cons_of_mem s ht),
        fun t ht => h.in_text t (List.mem_cons_of_mem s ht), hordered⟩
    refine ⟨i, j, hi, hj, by omega, by omega, by omega, ih hrest (by omega) ?_⟩
    intro t ht
    rw [← hj]
    exact hafter t ht

theorem Laid.laidFrom {text : List Char} {spans : List Span} (h : Laid text spans) :
    LaidFrom text.length 0 spans :=
  laidFrom_of_laid h (Nat.zero_le _) (fun s hs => (h.in_text s hs).1)

theorem LaidFrom.le_of_covers {length pos i : Nat} {spans : List Span}
    (h : LaidFrom length pos spans) {s : Span} (hs : s ∈ spans) (hc : s.covers i = true) :
    pos ≤ i := by
  induction spans generalizing pos with
  | nil => cases hs
  | cons t rest ih =>
    obtain ⟨j, k, hj, hk, hle, hlt, -, hrest⟩ := h
    rcases List.mem_cons.mp hs with rfl | hs
    · have hcover := of_decide_eq_true hc
      omega
    · have hle' := ih hrest hs
      omega

theorem LaidFrom.categoryAt?_eq_none {length pos i : Nat} {spans : List Span}
    (h : LaidFrom length pos spans) (hi : i < pos) : categoryAt? spans i = none := by
  rw [categoryAt?, Option.map_eq_none_iff, List.find?_eq_none]
  intro s hs hc
  have hle := h.le_of_covers hs hc
  omega

theorem LaidFrom.categoryAt?_eq_some {length pos i : Nat} {spans : List Span}
    (h : LaidFrom length pos spans) {s : Span} (hs : s ∈ spans) (hc : s.covers i = true) :
    categoryAt? spans i = some s.category := by
  induction spans generalizing pos with
  | nil => cases hs
  | cons t rest ih =>
    obtain ⟨j, k, -, hk, -, -, -, hrest⟩ := h
    rcases List.mem_cons.mp hs with rfl | hs
    · exact categoryAt?_cons_of_covers hc rest
    · have hle := hrest.le_of_covers hs hc
      have hbehind : ¬ t.covers i = true := by
        simp only [covers, decide_eq_true_eq]
        omega
      rw [categoryAt?_cons_of_not_covers hbehind]
      exact ih hrest hs

end Span

open RuleHighlight.Span

namespace Segment

variable {text : List Char}

def unmarked (chunk : List Char) : List Segment :=
  if chunk.isEmpty then [] else [⟨chunk, none⟩]

def marks (s : Segment) : List (Char × Option Category) := s.chunk.map (·, s.category)

def marked (s : Segment) : Option (List Char × Category) := s.category.map (s.chunk, ·)

theorem flatMap_unmarked {α : Type} {f : Segment → List α} (hf : f ⟨[], none⟩ = [])
    (chunk : List Char) : (unmarked chunk).flatMap f = f ⟨chunk, none⟩ := by
  cases chunk with
  | nil => exact hf.symm
  | cons c chunk => simp [unmarked]

theorem listFrom_nil {pos : Nat} (hpos : pos ≤ text.length) :
    listFrom text pos [] = unmarked (text.drop pos) := by
  rw [listFrom, Text.sliceFrom, Text.clamp_of_le hpos, unmarked]
  by_cases hlt : pos < text.length
  · have hne : text.drop pos ≠ [] := by simpa using hlt
    rw [if_pos (by omega), if_neg (by simpa using hlt)]
  · rw [if_neg (by omega), if_pos (by simpa using hlt)]

theorem listFrom_cons {pos i j : Nat} {s : Span} (rest : List Span) (hi : s.start = i)
    (hj : s.stop = j) (hpos : pos ≤ i) (hlt : i < j) (hle : j ≤ text.length) :
    listFrom text pos (s :: rest) = unmarked ((text.drop pos).take (i - pos)) ++
      ⟨(text.drop i).take (j - i), some s.category⟩ :: listFrom text j rest := by
  have hpiece : s.textIn text = (text.drop i).take (j - i) := by
    rw [Range.textIn, hi, hj, Text.slice_of_le (by omega) hle]
  rw [listFrom, hpiece, hi, hj, Text.slice_of_le (by omega) (by omega)]
  by_cases hgap : pos < i
  · have hne : ¬ ((text.drop pos).take (i - pos)).isEmpty = true := by
      simp only [List.isEmpty_iff, List.take_eq_nil_iff, List.drop_eq_nil_iff]
      omega
    rw [if_pos (by omega), unmarked, if_neg hne, List.singleton_append]
  · obtain rfl : pos = i := by omega
    rw [if_neg (by omega), Nat.sub_self, List.take_zero]
    rfl

theorem drop_eq_append {pos i j : Nat} (hpos : pos ≤ i) (hlt : i < j) :
    text.drop pos = (text.drop pos).take (i - pos) ++
      ((text.drop i).take (j - i) ++ text.drop j) := by
  have hdrop (k l : Nat) (hkl : k ≤ l) : text.drop l = (text.drop k).drop (l - k) := by
    rw [List.drop_drop, Nat.add_sub_cancel' hkl]
  rw [hdrop i j (by omega), List.take_append_drop, hdrop pos i hpos, List.take_append_drop]

theorem zipIdx_drop {pos i j : Nat} (hpos : pos ≤ i) (hlt : i < j) (hle : j ≤ text.length) :
    (text.drop pos).zipIdx pos = ((text.drop pos).take (i - pos)).zipIdx pos ++
      (((text.drop i).take (j - i)).zipIdx i ++ (text.drop j).zipIdx j) := by
  have hgap : pos + ((text.drop pos).take (i - pos)).length = i := by
    rw [List.length_take, List.length_drop]
    omega
  have hpiece : i + ((text.drop i).take (j - i)).length = j := by
    rw [List.length_take, List.length_drop]
    omega
  calc (text.drop pos).zipIdx pos
    _ = ((text.drop pos).take (i - pos) ++
        ((text.drop i).take (j - i) ++ text.drop j)).zipIdx pos := by
      rw [← drop_eq_append hpos hlt]
    _ = _ := by rw [List.zipIdx_append, List.zipIdx_append, hgap, hpiece]

theorem map_zipIdx_of_eq {β : Type} {f : Nat → β} {b : β} (chunk : List Char) (n : Nat)
    (h : ∀ k, n ≤ k → k < n + chunk.length → f k = b) :
    (chunk.zipIdx n).map (fun x => (x.1, f x.2)) = chunk.map (·, b) := by
  calc (chunk.zipIdx n).map (fun x => (x.1, f x.2))
    _ = (chunk.zipIdx n).map (fun x => (x.1, b)) := by
      apply List.map_congr_left
      intro x hx
      obtain ⟨hle, hlt, -⟩ := List.mem_zipIdx (x := x.1) (i := x.2) hx
      rw [h x.2 hle hlt]
    _ = ((chunk.zipIdx n).map Prod.fst).map (·, b) := by
      rw [List.map_map]
      rfl
    _ = chunk.map (·, b) := by rw [List.zipIdx_map_fst]

theorem marks_listFrom {pos : Nat} {spans : List Span} (h : LaidFrom text.length pos spans) :
    (listFrom text pos spans).flatMap marks =
      ((text.drop pos).zipIdx pos).map (fun x => (x.1, categoryAt? spans x.2)) := by
  induction spans generalizing pos with
  | nil =>
    have hnone : ∀ k, categoryAt? [] k = none := fun _ => rfl
    rw [listFrom_nil h, flatMap_unmarked rfl, map_zipIdx_of_eq _ _ (fun k _ _ => hnone k), marks]
  | cons s rest ih =>
    obtain ⟨i, j, hi, hj, hpos, hlt, hle, hrest⟩ := h
    have hlaid : LaidFrom text.length i (s :: rest) :=
      ⟨i, j, hi, hj, Nat.le_refl i, hlt, hle, hrest⟩
    rw [listFrom_cons rest hi hj hpos hlt hle, List.flatMap_append, flatMap_unmarked rfl,
      List.flatMap_cons, ih hrest, zipIdx_drop hpos hlt hle, List.map_append, List.map_append]
    congr 1
    · -- the piece in front of the span
      symm
      apply map_zipIdx_of_eq
      intro k _ hk
      rw [List.length_take, List.length_drop] at hk
      exact hlaid.categoryAt?_eq_none (by omega)
    · congr 1
      · -- the piece of the span
        symm
        apply map_zipIdx_of_eq
        intro k hik hk
        rw [List.length_take, List.length_drop] at hk
        exact categoryAt?_cons_of_covers (decide_eq_true (by omega)) rest
      · -- behind the span, where it covers nothing
        apply List.map_congr_left
        intro x hx
        obtain ⟨hjx, -, -⟩ := List.mem_zipIdx (x := x.1) (i := x.2) hx
        have hcover : ¬ s.covers x.2 = true := by
          simp only [covers, decide_eq_true_eq]
          omega
        rw [categoryAt?_cons_of_not_covers hcover]

theorem marked_listFrom {pos : Nat} {spans : List Span} (h : LaidFrom text.length pos spans) :
    (listFrom text pos spans).filterMap marked =
      spans.map (fun s => (s.textIn text, s.category)) := by
  induction spans generalizing pos with
  | nil =>
    rw [listFrom_nil h, unmarked]
    split_ifs <;> rfl
  | cons s rest ih =>
    obtain ⟨i, j, hi, hj, hpos, hlt, hle, hrest⟩ := h
    have hpiece : s.textIn text = (text.drop i).take (j - i) := by
      rw [Range.textIn, hi, hj, Text.slice_of_le (by omega) hle]
    have hgap : (unmarked ((text.drop pos).take (i - pos))).filterMap marked = [] := by
      rw [unmarked]
      split_ifs <;> rfl
    have hmarked : marked ⟨s.textIn text, some s.category⟩ = some (s.textIn text, s.category) := rfl
    rw [listFrom_cons rest hi hj hpos hlt hle, List.filterMap_append, hgap, List.nil_append,
      ← hpiece, List.filterMap_cons_some hmarked, ih hrest, List.map_cons]

theorem marks_list {spans : List Span} (h : Laid text spans) :
    (list text spans).flatMap marks = text.zipIdx.map (fun x => (x.1, categoryAt? spans x.2)) :=
  marks_listFrom h.laidFrom

theorem marked_list {spans : List Span} (h : Laid text spans) :
    (list text spans).filterMap marked =
      spans.map (fun s => (s.textIn text, s.category)) :=
  marked_listFrom h.laidFrom

theorem chunks_list {spans : List Span} (h : Laid text spans) :
    (list text spans).flatMap chunk = text := by
  have hfst : (fun s : Segment => s.marks.map Prod.fst) = chunk := by
    funext s
    rw [marks, List.map_map]
    exact List.map_id _
  calc (list text spans).flatMap chunk
    _ = ((list text spans).flatMap marks).map Prod.fst := by rw [List.map_flatMap, hfst]
    _ = (text.zipIdx.map (fun x => (x.1, categoryAt? spans x.2))).map Prod.fst := by
      rw [marks_list h]
    _ = text.zipIdx.map Prod.fst := by
      rw [List.map_map]
      rfl
    _ = text := List.zipIdx_map_fst 0 text

end Segment

end RuleHighlight
