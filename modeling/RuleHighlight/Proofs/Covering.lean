import RuleHighlight.Proofs.Resolution

/-!
Resolution by what covers what. The accepted candidates are the only ones that stand in order and
cover all the others, each by one that comes before it. So an accepted candidate separates what is
in front of it from what is behind it: the one side is resolved without a look at the other.
-/

namespace RuleHighlight

open Candidate

theorem Candidate.Ordered.of_append {last : Option Int} {cs ds : List Candidate}
    (h : Ordered last (cs ++ ds)) {ds' : List Candidate}
    (h' : ∀ last', Ordered last' ds → Ordered last' ds') : Ordered last (cs ++ ds') := by
  induction cs generalizing last with
  | nil => exact h' last h
  | cons c cs ih => exact ⟨h.1, h.2.1, ih h.2.2⟩

theorem Candidate.Ordered.remember {last : Option Int} {cs : List Candidate} (h : Ordered none cs)
    (hlast : ∀ stop ∈ last, ∀ c ∈ cs, stop ≤ c.start) : Ordered last cs := by
  cases cs with
  | nil => trivial
  | cons c cs => exact ⟨h.1, fun stop hstop => hlast stop hstop c List.mem_cons_self, h.2.2⟩

theorem Candidate.Ordered.notMem {last : Option Int} {c : Candidate} {cs : List Candidate}
    (h : Ordered last (c :: cs)) : c ∉ cs := by
  intro hmem
  have hne := h.1
  have hafter := h.2.2.le_start c.stop rfl c hmem
  omega

theorem Candidate.Ordered.eq_head {last : Option Int} {c d : Candidate} {cs : List Candidate}
    (h : Ordered last (c :: cs)) (hd : d ∈ c :: cs) (hbefore : d = c ∨ before d c = true) :
    d = c := by
  rcases List.mem_cons.mp hd with rfl | hmem
  · rfl
  · rcases hbefore with rfl | hbefore
    · rfl
    · have hne := h.1
      have hafter := h.2.2.le_start c.stop rfl d hmem
      have hle := before_iff.mp hbefore
      omega

namespace Resolution

theorem sift_eq_of_covers {last : Option Int} {cs xs : List Candidate} (hd : Distinct cs)
    (hs : cs.Pairwise (fun a b => before a b = true)) (ho : Ordered last xs) (hsub : xs ⊆ cs)
    (hcover : ∀ k ∈ cs, k.start < k.stop → k ∈ xs ∨ last.any (k.start < ·) = true ∨
      ∃ a ∈ xs, before a k = true ∧ k.start < a.stop) :
    (sift last cs).accepted = xs := by
  induction cs generalizing last xs with
  | nil => exact (List.subset_nil.mp hsub).symm
  | cons c cs ih =>
    obtain ⟨hc, hs⟩ := List.pairwise_cons.mp hs
    have hd' : Distinct cs := fun a ha b hb => hd a (by simp [ha]) b (by simp [hb])
    have hdrop {ys : List Candidate} (hsub : ys ⊆ c :: cs) (hnot : c ∉ ys) : ys ⊆ cs := by
      intro a ha
      rcases List.mem_cons.mp (hsub ha) with rfl | ha'
      · exact absurd ha hnot
      · exact ha'
    rw [accepted_sift_cons]
    split_ifs with hdropped
    · have hnot : c ∉ xs := by
        intro hmem
        rcases hdropped with hempty | hlast
        · rw [isEmpty_eq_false.mpr (ho.start_lt_stop c hmem)] at hempty
          cases hempty
        · rw [any_start_lt_eq_false.mpr (fun stop hstop => ho.le_start stop hstop c hmem)] at hlast
          cases hlast
      exact ih hd' hs ho (hdrop hsub hnot)
        (fun k hk => hcover k (List.mem_cons_of_mem c hk))
    · simp only [not_or, Bool.not_eq_true, isEmpty_eq_false] at hdropped
      have hmem : c ∈ xs := by
        rcases hcover c List.mem_cons_self hdropped.1 with hmem | hlast | ⟨a, ha, hbefore, -⟩
        · exact hmem
        · rw [hdropped.2] at hlast
          cases hlast
        · rcases List.mem_cons.mp (hsub ha) with rfl | ha'
          · exact ha
          · rwa [← hd.before_antisymm (hsub ha) List.mem_cons_self hbefore (hc a ha')]
      cases xs with
      | nil => simp at hmem
      | cons x xs =>
        obtain rfl : c = x := ho.eq_head hmem
          ((List.mem_cons.mp (hsub List.mem_cons_self)).imp Eq.symm (hc x))
        have hsub' := (List.cons_subset.mp hsub).2
        refine congrArg _ (ih hd' hs ho.2.2 (hdrop hsub' ho.notMem) ?_)
        intro k hk hkne
        rcases hcover k (List.mem_cons_of_mem c hk) hkne with hmem | hlast | ⟨a, ha, hbefore, hreach⟩
        · rcases List.mem_cons.mp hmem with rfl | hmem'
          · exact Or.inr (Or.inl (decide_eq_true hkne))
          · exact Or.inl hmem'
        · -- What `last` reaches over starts before `c`, and `k` does not.
          obtain ⟨stop, hstop, hlt⟩ := (Option.any_eq_true _ _).mp hlast
          have hle := ho.2.1 stop hstop
          have hbefore := before_iff.mp (hc k hk)
          have hlt := of_decide_eq_true hlt
          omega
        · rcases List.mem_cons.mp ha with rfl | ha'
          · exact Or.inr (Or.inl (decide_eq_true hreach))
          · exact Or.inr (Or.inr ⟨a, ha', hbefore, hreach⟩)

end Resolution

theorem resolve_eq_of_covers {cs xs : List Candidate} (hd : Distinct cs) (ho : Ordered none xs)
    (hsub : xs ⊆ cs)
    (hcover : ∀ k ∈ cs, k.start < k.stop → k ∈ xs ∨
      ∃ a ∈ xs, before a k = true ∧ k.start < a.stop) : resolve cs = xs := by
  have hmem (c : Candidate) : c ∈ cs.mergeSort Candidate.before ↔ c ∈ cs := List.mem_mergeSort
  refine Resolution.sift_eq_of_covers ?_ (pairwise_before cs) ho ?_ ?_
  · exact fun a ha b hb => hd a ((hmem a).mp ha) b ((hmem b).mp hb)
  · exact fun a ha => (hmem a).mpr (hsub ha)
  · intro k hk hne
    rcases hcover k ((hmem k).mp hk) hne with hin | hcovered
    · exact Or.inl hin
    · exact Or.inr (Or.inr hcovered)

structure Candidate.SameUpTo (t : Int) (a b : Candidate) : Prop where
  start_eq : a.start = b.start
  category_eq : a.category = b.category
  priority_eq : a.priority = b.priority
  stop_eq : a.stop = b.stop ∨ t < a.stop ∧ t < b.stop

theorem Candidate.SameUpTo.symm {t : Int} {a b : Candidate} (h : SameUpTo t a b) :
    SameUpTo t b a := by
  refine ⟨h.start_eq.symm, h.category_eq.symm, h.priority_eq.symm, ?_⟩
  rcases h.stop_eq with heq | ⟨ha, hb⟩
  · exact Or.inl heq.symm
  · exact Or.inr ⟨hb, ha⟩

theorem Candidate.SameUpTo.eq_of_stop_le {t : Int} {a b : Candidate} (h : SameUpTo t a b)
    (ha : a.stop ≤ t) : a = b := by
  obtain ⟨⟨start, stop⟩, category, priority⟩ := a
  obtain ⟨⟨start', stop'⟩, category', priority'⟩ := b
  obtain ⟨rfl, rfl, rfl, rfl | ⟨hreach, -⟩⟩ := h
  · rfl
  · exact absurd hreach (Int.not_lt.mpr ha)

def Candidate.AgreeBefore (t : Int) (cs ds : List Candidate) : Prop :=
  ∀ a ∈ cs, a.start < t → ∃ b ∈ ds, SameUpTo t a b

theorem resolve_eq_append_cons {cs ds before after : List Candidate} {c : Candidate}
    (hd : Distinct ds) (h : resolve cs = before ++ c :: after) (hc : c ∈ ds)
    (hrank : ∀ k ∈ ds, k.start = c.start → c.priority ≤ k.priority)
    (hto : AgreeBefore c.start cs ds) (hfrom : AgreeBefore c.start ds cs) :
    resolve ds = before ++ c :: resolve (ds.filter (fun k => decide (c.stop ≤ k.start))) := by
  have ho := h ▸ resolve_ordered cs
  have hne : c.start < c.stop := ho.start_lt_stop c (by simp)
  have hpairs := List.pairwise_append.mp ho.pairwise
  have hleft (a : Candidate) (ha : a ∈ before) : a.stop ≤ c.start := hpairs.2.2 a ha c (by simp)
  have hright (a : Candidate) (ha : a ∈ after) : c.stop ≤ a.start :=
    (List.pairwise_cons.mp hpairs.2.1).1 a ha
  have hmem (a : Candidate) : a ∈ resolve cs ↔ a ∈ before ∨ a = c ∨ a ∈ after := by
    rw [h, List.mem_append, List.mem_cons]
  apply resolve_eq_of_covers hd
  · refine ho.of_append (fun last hrest => ⟨hrest.1, hrest.2.1, ?_⟩)
    refine (resolve_ordered _).remember ?_
    rintro stop ⟨rfl⟩ a ha
    exact of_decide_eq_true (List.mem_filter.mp (resolve_subset _ ha)).2
  · intro a ha
    rcases List.mem_append.mp ha with ha | ha
    · have hstop := hleft a ha
      have hlt := ho.start_lt_stop a (by simp [ha])
      obtain ⟨b, hb, hsame⟩ := hto a (resolve_subset cs ((hmem a).mpr (Or.inl ha))) (by omega)
      rwa [hsame.eq_of_stop_le hstop]
    · rcases List.mem_cons.mp ha with rfl | ha
      · exact hc
      · exact (List.mem_filter.mp (resolve_subset _ ha)).1
  · intro k hk hkne
    rcases Int.lt_or_le k.start c.start with hlt | hge
    · -- In front of `c` what covers the counterpart of `k` covers `k`.
      obtain ⟨b, hb, hsame⟩ := hfrom k hk hlt
      have hstart := hsame.start_eq
      have hpriority := hsame.priority_eq
      have hbne : b.start < b.stop := by
        rcases hsame.stop_eq with heq | hreach
        · omega
        · omega
      have hbefore (a : Candidate) (ha : a ∈ resolve cs) (hle : a.start ≤ b.start) : a ∈ before := by
        rcases (hmem a).mp ha with hin | rfl | hin
        · exact hin
        · omega
        · have hafter := hright a hin
          omega
      rcases mem_resolve_or_covered hb hbne with hin | ⟨a, ha, hab, hreach⟩
      · have hb' := hbefore b hin (Int.le_refl _)
        left
        rw [← hsame.symm.eq_of_stop_le (hleft b hb')]
        exact List.mem_append_left _ hb'
      · have hab := before_iff.mp hab
        have ha' := hbefore a ha (by omega)
        exact Or.inr ⟨a, List.mem_append_left _ ha', before_iff.mpr (by omega), by omega⟩
    · rcases Int.lt_or_le k.start c.stop with hinside | hbehind
      · refine Or.inr ⟨c, by simp, before_iff.mpr ?_, hinside⟩
        rcases Int.lt_or_eq_of_le hge with hlt | heq
        · exact Or.inl hlt
        · exact Or.inr ⟨heq, hrank k hk heq.symm⟩
      · have hk' : k ∈ ds.filter (fun k => decide (c.stop ≤ k.start)) :=
          List.mem_filter.mpr ⟨hk, decide_eq_true hbehind⟩
        rcases mem_resolve_or_covered hk' hkne with hin | ⟨a, ha, hab, hreach⟩
        · exact Or.inl (by simp [hin])
        · exact Or.inr ⟨a, by simp [ha], hab, hreach⟩

end RuleHighlight
