import Mathlib.Logic.Relation
import Mathlib.Order.WellFounded
import RuleHighlight.Proofs.Pattern.Edges

/-!
Searches from left to right. A search takes the first thing that it sees and goes on from where
this stops, until it sees nothing more. What it has taken then are things that stand apart and in
order, and wherever one is seen one that has been taken lies. No other choice is like that.
-/

namespace RuleHighlight

theorem exists_stuck_of_wellFounded {σ : Type} {step : σ → σ → Prop}
    (h : WellFounded fun s' s => step s s') (s : σ) :
    ∃ s', Relation.ReflTransGen step s s' ∧ ∀ s'', ¬ step s' s'' := by
  induction s using h.induction with
  | _ s ih =>
    by_cases hstuck : ∀ s', ¬ step s s'
    · exact ⟨s, .refl, hstuck⟩
    · obtain ⟨s', hs'⟩ := not_forall_not.mp hstuck
      obtain ⟨final, hrun, hfinal⟩ := ih s' hs'
      exact ⟨final, hrun.head hs', hfinal⟩

/-- What there is to see, each thing with its start and its stop. -/
structure Search (β : Type) where
  Sees : β → Prop
  start : β → Nat
  stop : β → Nat

namespace Search

structure State (β : Type) where
  pos : Nat
  found : List β

variable {β : Type}

inductive Step (s : Search β) : State β → State β → Prop
  | take {pos : Nat} {found : List β} {b : β} (hsees : s.Sees b) (hpos : pos ≤ s.start b)
      (hfirst : ∀ a, s.Sees a → pos ≤ s.start a → s.start b ≤ s.start a) :
      Step s ⟨pos, found⟩ ⟨s.stop b, found ++ [b]⟩

/-- A run from the start that cannot go on has found these things. -/
def Yields (s : Search β) (found : List β) : Prop :=
  ∃ final, Relation.ReflTransGen s.Step ⟨0, []⟩ final ∧ (∀ next, ¬ s.Step final next) ∧
    final.found = found

structure Within (s : Search β) (limit : Nat) : Prop where
  start_lt_stop : ∀ b, s.Sees b → s.start b < s.stop b
  stop_le : ∀ b, s.Sees b → s.stop b ≤ limit
  unique : ∀ a b, s.Sees a → s.Sees b → s.start a = s.start b → a = b

structure Decomposes (s : Search β) (found : List β) : Prop where
  sees : ∀ b ∈ found, s.Sees b
  disjoint : found.Pairwise (fun a b => s.stop a ≤ s.start b)
  covers : ∀ b, s.Sees b → ∃ a ∈ found, s.start a ≤ s.start b ∧ s.start b < s.stop a

variable {s : Search β} {limit : Nat}

theorem Within.wellFounded_step (h : s.Within limit) :
    WellFounded fun t' t : State β => s.Step t t' := by
  apply Subrelation.wf _ (measure fun t : State β => limit - t.pos).wf
  rintro _ _ ⟨hsees, hpos, -⟩
  have hlt := h.start_lt_stop _ hsees
  have hle := h.stop_le _ hsees
  change limit - _ < limit - _
  simp only
  omega

structure Reached (s : Search β) (t : State β) : Prop where
  sees : ∀ b ∈ t.found, s.Sees b
  disjoint : t.found.Pairwise (fun a b => s.stop a ≤ s.start b)
  stop_le : ∀ b ∈ t.found, s.stop b ≤ t.pos
  covers : ∀ b, s.Sees b → s.start b < t.pos →
    ∃ a ∈ t.found, s.start a ≤ s.start b ∧ s.start b < s.stop a

theorem Reached.step (h : s.Within limit) {t t' : State β} (ht : s.Reached t)
    (hstep : s.Step t t') : s.Reached t' := by
  obtain ⟨hsees, hpos, hfirst⟩ := hstep
  rename_i pos found b
  have hlt := h.start_lt_stop b hsees
  refine ⟨?_, ?_, ?_, ?_⟩
  · intro a ha
    rcases List.mem_append.mp ha with ha | ha
    · exact ht.sees a ha
    · rwa [List.mem_singleton.mp ha]
  · refine List.pairwise_append.mpr ⟨ht.disjoint, List.pairwise_singleton _ b, ?_⟩
    intro a ha c hc
    rw [List.mem_singleton.mp hc]
    exact (ht.stop_le a ha).trans hpos
  · intro a ha
    rcases List.mem_append.mp ha with ha | ha
    · have hle := ht.stop_le a ha
      simp only at hle ⊢
      omega
    · rw [List.mem_singleton.mp ha]
  · intro a ha hstop
    by_cases hbefore : s.start a < pos
    · obtain ⟨c, hc, hcover⟩ := ht.covers a ha hbefore
      exact ⟨c, List.mem_append_left _ hc, hcover⟩
    · refine ⟨b, by simp, hfirst a ha (Nat.le_of_not_lt hbefore), hstop⟩

theorem Reached.run (h : s.Within limit) {t : State β}
    (hrun : Relation.ReflTransGen s.Step ⟨0, []⟩ t) : s.Reached t := by
  induction hrun with
  | refl => exact ⟨by simp, .nil, by simp, fun _ _ hlt => absurd hlt (Nat.not_lt_zero _)⟩
  | tail _ hstep ih => exact ih.step h hstep

theorem Reached.decomposes {t : State β} (ht : s.Reached t) (hstuck : ∀ next, ¬ s.Step t next) :
    s.Decomposes t.found := by
  refine ⟨ht.sees, ht.disjoint, fun b hb => ht.covers b hb ?_⟩
  by_contra hleft
  obtain ⟨a, ⟨ha, hpos⟩, hleast⟩ := (measure s.start).wf.has_min
    {b | s.Sees b ∧ t.pos ≤ s.start b} ⟨b, hb, Nat.le_of_not_lt hleft⟩
  exact hstuck ⟨s.stop a, t.found ++ [a]⟩
    (.take ha hpos fun c hc hle => Nat.le_of_not_lt (hleast c ⟨hc, hle⟩))

section Unique

variable {found found' : List β}

theorem Decomposes.ascending (h : s.Within limit) (hd : s.Decomposes found) :
    found.Pairwise (fun a b => s.start a < s.start b) := by
  refine hd.disjoint.imp_of_mem fun ha _ hle => ?_
  have hlt := h.start_lt_stop _ (hd.sees _ ha)
  omega

theorem Decomposes.stop_le (h : s.Within limit) (hd : s.Decomposes found) {a b : β}
    (ha : a ∈ found) (hb : b ∈ found) (hlt : s.start a < s.start b) : s.stop a ≤ s.start b :=
  Occurrence.rel_of_start_lt ((hd.ascending h).and hd.disjoint) ha hb hlt

-- By induction on the start: what the other choice takes over it starts earlier and is shared.
theorem Decomposes.mem_of_mem (h : s.Within limit) (hd : s.Decomposes found)
    (hd' : s.Decomposes found') {b : β} (hb : b ∈ found) : b ∈ found' := by
  induction hn : s.start b using Nat.strongRecOn generalizing found found' b with
  | ind n ih =>
    subst hn
    obtain ⟨a, ha, hle, hlt⟩ := hd'.covers b (hd.sees b hb)
    rcases Nat.lt_or_eq_of_le hle with hbefore | heq
    · have hmem := ih _ hbefore hd' hd ha rfl
      have hstop := hd.stop_le h hmem hb hbefore
      omega
    · rwa [← h.unique a b (hd'.sees a ha) (hd.sees b hb) heq]

theorem Decomposes.unique (h : s.Within limit) (hd : s.Decomposes found)
    (hd' : s.Decomposes found') : found = found' := by
  have hasc := hd.ascending h
  have hasc' := hd'.ascending h
  have hnodup {found : List β} (hasc : found.Pairwise (fun a b => s.start a < s.start b)) :
      found.Nodup := by
    apply hasc.imp
    rintro a b hlt rfl
    exact Nat.lt_irrefl _ hlt
  have hperm : found.Perm found' := (List.perm_ext_iff_of_nodup (hnodup hasc) (hnodup hasc')).mpr
    fun _ => ⟨hd.mem_of_mem h hd', hd'.mem_of_mem h hd⟩
  exact hperm.eq_of_pairwise (fun a b _ _ hlt hlt' => absurd hlt (Nat.lt_asymm hlt')) hasc hasc'

theorem Decomposes.yields_iff (h : s.Within limit) (hd : s.Decomposes found) :
    s.Yields found' ↔ found' = found := by
  have hfound {t : State β} (hrun : Relation.ReflTransGen s.Step ⟨0, []⟩ t)
      (hstuck : ∀ next, ¬ s.Step t next) : t.found = found :=
    ((Reached.run h hrun).decomposes hstuck).unique h hd
  constructor
  · rintro ⟨final, hrun, hstuck, rfl⟩
    exact hfound hrun hstuck
  · rintro rfl
    obtain ⟨final, hrun, hstuck⟩ := exists_stuck_of_wellFounded h.wellFounded_step ⟨0, []⟩
    exact ⟨final, hrun, hstuck, hfound hrun hstuck⟩

end Unique

variable {α : Type}

def recognised (r : Recogniser α) (item : Nat → α → β) (start stop : β → Nat)
    (text : List Char) : Search β where
  Sees b := ∃ i a, r (text.take i).reverse (text.drop i) = some a ∧ b = item i a
  start := start
  stop := stop

section Recognised

variable {r : Recogniser α} {w : α → Nat} {item : Nat → α → β} {start stop : β → Nat}

@[simp]
theorem sees_recognised {text : List Char} {b : β} :
    (recognised r item start stop text).Sees b ↔
      ∃ i a, r (text.take i).reverse (text.drop i) = some a ∧ b = item i a := Iff.rfl

@[simp]
theorem recognised_start (text : List Char) :
    (recognised r item start stop text).start = start := rfl

@[simp]
theorem recognised_stop (text : List Char) :
    (recognised r item start stop text).stop = stop := rfl

theorem add_width_le_of_recognised (hfits : r.Fits w)
    (hpos : ∀ before rest a, r before rest = some a → 0 < w a) {text : List Char} {i : Nat} {a : α}
    (hr : r (text.take i).reverse (text.drop i) = some a) : i + w a ≤ text.length := by
  have hle := hfits _ _ a hr
  have hlt := hpos _ _ a hr
  rw [List.length_drop] at hle
  omega

theorem recognised_within (hstart : ∀ i a, start (item i a) = i)
    (hstop : ∀ i a, stop (item i a) = i + w a) (hfits : r.Fits w)
    (hpos : ∀ before rest a, r before rest = some a → 0 < w a) (text : List Char) :
    (recognised r item start stop text).Within text.length := by
  refine ⟨?_, ?_, ?_⟩
  · rintro _ ⟨i, a, hr, rfl⟩
    have hlt := hpos _ _ a hr
    rw [recognised_start, recognised_stop, hstart, hstop]
    omega
  · rintro _ ⟨i, a, hr, rfl⟩
    rw [recognised_stop, hstop]
    exact add_width_le_of_recognised hfits hpos hr
  · rintro _ _ ⟨i, a, hr, rfl⟩ ⟨j, b, hr', rfl⟩ heq
    rw [recognised_start, hstart, hstart] at heq
    subst heq
    rw [Option.some.inj (hr.symm.trans hr')]

theorem recognised_decomposes (hstart : ∀ i a, start (item i a) = i)
    (hstop : ∀ i a, stop (item i a) = i + w a) (hfits : r.Fits w)
    (hpos : ∀ before rest a, r before rest = some a → 0 < w a) (text : List Char) :
    (recognised r item start stop text).Decomposes
      ((Occurrence.all r w text).map fun x => item x.1 x.2) := by
  refine ⟨?_, ?_, ?_⟩
  · intro b hb
    obtain ⟨⟨i, a⟩, hx, rfl⟩ := List.mem_map.mp hb
    exact ⟨i, a, Occurrence.recognise_of_mem_all hx, rfl⟩
  · rw [List.pairwise_map]
    refine (Occurrence.all_pairwise text).imp fun h => ?_
    rw [recognised_start, recognised_stop, hstop, hstart]
    exact h.2
  · rintro _ ⟨i, a, hr, rfl⟩
    have hle := add_width_le_of_recognised hfits hpos hr
    have hlt := hpos _ _ a hr
    have hi : i < text.length := by omega
    rw [recognised_start, recognised_stop]
    rcases Occurrence.mem_all_or_covered (w := w) hi hr with hmem | ⟨⟨j, b⟩, hmem, hbefore, hover⟩
    · refine ⟨item i a, List.mem_map_of_mem hmem, Nat.le_refl _, ?_⟩
      rw [hstart, hstop]
      omega
    · refine ⟨item j b, List.mem_map_of_mem hmem, ?_, ?_⟩
      · rw [hstart, hstart]
        exact Nat.le_of_lt hbefore
      · rw [hstart, hstop]
        exact hover

theorem yields_recognised_iff (hstart : ∀ i a, start (item i a) = i)
    (hstop : ∀ i a, stop (item i a) = i + w a) (hfits : r.Fits w)
    (hpos : ∀ before rest a, r before rest = some a → 0 < w a) {text : List Char} {found : List β} :
    (recognised r item start stop text).Yields found ↔
      found = (Occurrence.all r w text).map fun x => item x.1 x.2 :=
  (recognised_decomposes hstart hstop hfits hpos text).yields_iff
    (recognised_within hstart hstop hfits hpos text)

end Recognised

end Search

end RuleHighlight
