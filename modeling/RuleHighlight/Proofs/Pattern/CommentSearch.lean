import Mathlib.Order.Bounds.Basic
import RuleHighlight.Proofs.Search

namespace RuleHighlight

def Text.HasAt (text marker : List Char) (i : Nat) : Prop :=
  Text.slice text i (i + marker.length : Nat) = marker

theorem Text.hasAt_iff {text marker : List Char} {i : Nat} :
    HasAt text marker i ↔ marker <+: text.drop i := by
  rw [HasAt, slice_natCast, Nat.add_sub_cancel_left, List.prefix_iff_eq_take, eq_comm]

namespace Pattern

def terminators (text : List Char) (start : Nat) : Set Nat :=
  {i | start + 2 ≤ i ∧ Text.HasAt text ['*', '/'] i}

def ClosesAt (text : List Char) (start stop : Nat) : Prop :=
  (∃ i, IsLeast (terminators text start) i ∧ stop = i + 2) ∨
    terminators text start = ∅ ∧ stop = text.length

def comments (text : List Char) : Search Extent where
  Sees e := Text.HasAt text ['/', '*'] e.start ∧ ClosesAt text e.start e.stop
  start := Extent.start
  stop := Extent.stop

section Comments

variable {text : List Char}

theorem ClosesAt.unique {start stop stop' : Nat} (h : ClosesAt text start stop)
    (h' : ClosesAt text start stop') : stop = stop' := by
  rcases h with ⟨i, hi, rfl⟩ | ⟨hnone, rfl⟩
  · rcases h' with ⟨j, hj, rfl⟩ | ⟨hnone, rfl⟩
    · rw [hi.unique hj]
    · rw [hnone] at hi
      exact absurd hi.1 (Set.notMem_empty i)
  · rcases h' with ⟨j, hj, rfl⟩ | ⟨-, rfl⟩
    · rw [hnone] at hj
      exact absurd hj.1 (Set.notMem_empty j)
    · rfl

theorem blockBody_nearest (body : List Char) :
    (∃ i, IsLeast {i | ['*', '/'] <+: body.drop i} i ∧ blockBody body = i + 2) ∨
      (∀ i, ¬ ['*', '/'] <+: body.drop i) ∧ blockBody body = body.length := by
  fun_induction blockBody body with
  | case1 => exact Or.inr ⟨by simp, rfl⟩
  | case2 rest =>
    exact Or.inl ⟨0, ⟨List.prefix_append ['*', '/'] rest, fun _ _ => Nat.zero_le _⟩, rfl⟩
  | case3 c rest hne ih =>
    have hfirst : ¬ ['*', '/'] <+: c :: rest := by
      rintro ⟨after, hafter⟩
      obtain ⟨rfl, rfl⟩ := List.cons.inj hafter
      exact hne after rfl rfl
    rcases ih with ⟨i, ⟨hmem, hleast⟩, hbody⟩ | ⟨hnone, hbody⟩
    · refine Or.inl ⟨i + 1, ⟨hmem, ?_⟩, by rw [hbody]⟩
      rintro (_ | j) hj
      · exact absurd hj hfirst
      · exact Nat.succ_le_succ (hleast hj)
    · refine Or.inr ⟨?_, by rw [hbody, List.length_cons]⟩
      rintro (_ | j) hj
      · exact hfirst hj
      · exact hnone j hj

theorem closesAt_blockBody {start : Nat} (h : start + 2 ≤ text.length) :
    ClosesAt text start (start + (blockBody (text.drop (start + 2)) + 2)) := by
  have hplace (i : Nat) : start + 2 + i ∈ terminators text start ↔
      ['*', '/'] <+: (text.drop (start + 2)).drop i := by
    rw [List.drop_drop, ← Text.hasAt_iff]
    exact and_iff_right (Nat.le_add_right _ _)
  have hbehind {j : Nat} (hj : j ∈ terminators text start) :
      ∃ i, j = start + 2 + i ∧ ['*', '/'] <+: (text.drop (start + 2)).drop i := by
    obtain ⟨i, rfl⟩ := Nat.exists_eq_add_of_le hj.1
    exact ⟨i, rfl, (hplace i).mp hj⟩
  rcases blockBody_nearest (text.drop (start + 2)) with ⟨i, ⟨hmem, hleast⟩, hbody⟩ | ⟨hnone, hbody⟩
  · refine Or.inl ⟨start + 2 + i, ⟨(hplace i).mpr hmem, ?_⟩, by omega⟩
    intro j hj
    obtain ⟨k, rfl, hk⟩ := hbehind hj
    exact Nat.add_le_add_left (hleast hk) _
  · refine Or.inr ⟨Set.eq_empty_of_forall_notMem fun j hj => ?_, ?_⟩
    · obtain ⟨k, -, hk⟩ := hbehind hj
      exact hnone k hk
    · rw [hbody, List.length_drop]
      omega

theorem closesAt_of_opener {start : Nat} {body : List Char}
    (hbody : text.drop start = '/' :: '*' :: body) :
    ClosesAt text start (start + (blockBody body + 2)) := by
  have hlength := congrArg List.length hbody
  rw [List.length_drop, List.length_cons, List.length_cons] at hlength
  have hle : start + 2 ≤ text.length := by omega
  have hcloses := closesAt_blockBody hle
  rwa [← List.drop_drop, hbody] at hcloses

theorem comments_eq (text : List Char) : comments text =
    .recognised blockComment (fun i n => ⟨i, i + n⟩) Extent.start Extent.stop text := by
  rw [comments, Search.recognised, Search.mk.injEq]
  refine ⟨?_, rfl, rfl⟩
  funext ⟨start, stop⟩
  rw [eq_iff_iff, Text.hasAt_iff]
  constructor
  · rintro ⟨⟨body, hbody⟩, hcloses⟩
    refine ⟨start, blockBody body + 2, ?_, ?_⟩
    · rw [← hbody]
      rfl
    · rw [Extent.mk.injEq]
      exact ⟨rfl, hcloses.unique (closesAt_of_opener hbody.symm)⟩
  · rintro ⟨i, n, hr, heq⟩
    obtain ⟨rfl, rfl⟩ := Extent.mk.inj heq
    obtain ⟨body, hbody, rfl⟩ := (blockComment_opens _ _ n).mp hr
    exact ⟨⟨body, hbody.symm⟩, closesAt_of_opener hbody⟩

theorem blockComment_pos {before rest : List Char} {n : Nat}
    (h : blockComment before rest = some n) : 0 < n := by
  obtain ⟨body, -, rfl⟩ := (blockComment_opens before rest n).mp h
  exact Nat.succ_pos _

theorem comments_within (text : List Char) : (comments text).Within text.length := by
  rw [comments_eq]
  exact Search.recognised_within (fun _ _ => rfl) (fun _ _ => rfl) blockComment_fits
    (fun _ _ _ => blockComment_pos) text

theorem comments_decomposes (text : List Char) :
    (comments text).Decomposes (blockComments text) := by
  rw [comments_eq]
  exact Search.recognised_decomposes (fun _ _ => rfl) (fun _ _ => rfl) blockComment_fits
    (fun _ _ _ => blockComment_pos) text

/-- The block comments of a text: what a search for their openers takes, which comes to its end on
every text, each from an opener to the nearest terminator, apart and in order, and with every opener
in one of them. -/
theorem blockComments_of_markers (text : List Char) :
    (blockComments text).Pairwise (fun a b => a.start < b.start ∧ a.stop ≤ b.start) ∧
    (∀ e ∈ blockComments text,
      Text.HasAt text ['/', '*'] e.start ∧ ClosesAt text e.start e.stop) ∧
    (∀ i, Text.HasAt text ['/', '*'] i →
      ∃ e ∈ blockComments text, e.start ≤ i ∧ i < e.stop) ∧
    WellFounded (fun t' t => (comments text).Step t t') ∧
    ∀ found, (comments text).Yields found ↔ found = blockComments text := by
  have hwithin := comments_within text
  have hdecomposes := comments_decomposes text
  refine ⟨(hdecomposes.ascending hwithin).and hdecomposes.disjoint, hdecomposes.sees, ?_,
    hwithin.wellFounded_step, fun _ => hdecomposes.yields_iff hwithin⟩
  intro i hi
  obtain ⟨body, hbody⟩ := Text.hasAt_iff.mp hi
  exact hdecomposes.covers ⟨i, _⟩ ⟨hi, closesAt_of_opener hbody.symm⟩

-- An opener whose star would close it, and a terminator whose slash would open another.
example : blockComments "/*/ */* x".toList = [⟨0, 6⟩] := by decide

end Comments

end Pattern

end RuleHighlight
