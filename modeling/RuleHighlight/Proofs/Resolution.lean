import RuleHighlight.Resolution
import RuleHighlight.Emission
import Mathlib.Data.List.Dedup

namespace RuleHighlight

open Resolution

def Candidate.Ordered : Option Int → List Candidate → Prop
  | _, [] => True
  | last, c :: rest =>
    c.start < c.stop ∧ (∀ stop ∈ last, stop ≤ c.start) ∧ Ordered (some c.stop) rest

namespace Candidate

@[simp, grind =]
theorem isEmpty_eq_false {c : Candidate} : c.isEmpty = false ↔ c.start < c.stop := by
  simp [isEmpty]

@[simp]
theorem any_start_lt_eq_false {last : Option Int} {c : Candidate} :
    last.any (c.start < ·) = false ↔ ∀ stop ∈ last, stop ≤ c.start := by
  cases last <;> simp

theorem Ordered.start_lt_stop {last : Option Int} {cs : List Candidate} (h : Ordered last cs) :
    ∀ c ∈ cs, c.start < c.stop := by
  induction cs generalizing last with
  | nil => simp
  | cons c cs ih => exact List.forall_mem_cons.mpr ⟨h.1, ih h.2.2⟩

theorem Ordered.le_start {last : Option Int} {cs : List Candidate} (h : Ordered last cs) :
    ∀ stop ∈ last, ∀ c ∈ cs, stop ≤ c.start := by
  induction cs generalizing last with
  | nil => simp
  | cons c cs ih =>
    intro stop hstop
    have hc := h.2.1 stop hstop
    refine List.forall_mem_cons.mpr ⟨hc, fun d hd => ?_⟩
    have hlt := h.1
    have hle := ih h.2.2 c.stop rfl d hd
    omega

theorem Ordered.pairwise {last : Option Int} {cs : List Candidate} (h : Ordered last cs) :
    cs.Pairwise (fun a b => a.stop ≤ b.start) := by
  induction cs generalizing last with
  | nil => exact .nil
  | cons c cs ih => exact .cons (h.2.2.le_start c.stop rfl) (ih h.2.2)

theorem Ordered.isChain {last : Option Int} {cs : List Candidate} (h : Ordered last cs) :
    cs.IsChain (fun a b => a.stop ≤ b.start) := h.pairwise.isChain

theorem Ordered.stop_le_start {last : Option Int} {cs : List Candidate} (h : Ordered last cs)
    {a b : Candidate} (ha : a ∈ cs) (hb : b ∈ cs) (hle : a.start ≤ b.start) :
    a = b ∨ a.stop ≤ b.start := by
  induction cs generalizing last with
  | nil => simp at ha
  | cons c cs ih =>
    have hlt := h.1
    have hafter := h.2.2.le_start c.stop rfl
    rcases List.mem_cons.mp ha with rfl | ha'
    · rcases List.mem_cons.mp hb with rfl | hb'
      · exact Or.inl rfl
      · exact Or.inr (hafter b hb')
    · rcases List.mem_cons.mp hb with rfl | hb'
      · have hstart := hafter a ha'
        omega
      · exact ih h.2.2 ha' hb'

@[simp, grind =]
theorem before_iff {a b : Candidate} :
    before a b = true ↔ a.start < b.start ∨ a.start = b.start ∧ a.priority ≤ b.priority := by
  simp [before]

theorem before_trans (a b c : Candidate) (hab : before a b = true) (hbc : before b c = true) :
    before a c = true := by
  grind

theorem before_total (a b : Candidate) : (before a b || before b a) = true := by
  grind

def Distinct (cs : List Candidate) : Prop :=
  ∀ a ∈ cs, ∀ b ∈ cs, a.start = b.start → a.priority = b.priority → a = b

theorem Distinct.before_antisymm {cs : List Candidate} (h : Distinct cs) {a b : Candidate}
    (ha : a ∈ cs) (hb : b ∈ cs) (hab : before a b = true) (hba : before b a = true) : a = b := by
  rw [before_iff] at hab hba
  exact h a ha b hb (by omega) (by omega)

end Candidate

open Candidate

namespace Emission

theorem faultOf?_eq_none {last : Option Int} {c : Candidate} (hc : c.start < c.stop)
    (hlast : ∀ stop ∈ last, stop ≤ c.start) : faultOf? last c = none := by
  simp only [faultOf?, isEmpty_eq_false.mpr hc]
  cases last with
  | none => rfl
  | some stop =>
    have hle := hlast stop rfl
    simp only [Bool.false_eq_true, ↓reduceIte, ite_eq_right_iff, reduceCtorEq, imp_false]
    omega

theorem run_of_ordered {last : Option Int} {cs : List Candidate} (h : Ordered last cs)
    (index : Nat) : run index last cs = .ok (cs.map toSpan) := by
  induction cs generalizing last index with
  | nil => rfl
  | cons c cs ih =>
    rw [run, faultOf?_eq_none h.1 h.2.1]
    simp only [ih h.2.2, List.map_cons]

end Emission

namespace Resolution

theorem accepted_sift_cons (last : Option Int) (c : Candidate) (cs : List Candidate) :
    (sift last (c :: cs)).accepted =
      if c.isEmpty ∨ last.any (c.start < ·) then (sift last cs).accepted
      else c :: (sift (some c.stop) cs).accepted := by
  rw [sift]
  by_cases he : c.isEmpty = true
  · simp [he]
  · by_cases hl : last.any (c.start < ·) = true <;> simp [he, hl]

theorem ordered_sift (last : Option Int) (cs : List Candidate) :
    Ordered last (sift last cs).accepted := by
  induction cs generalizing last with
  | nil => exact trivial
  | cons c cs ih =>
    rw [accepted_sift_cons]
    split_ifs with h
    · exact ih last
    · simp only [not_or, Bool.not_eq_true, isEmpty_eq_false, any_start_lt_eq_false] at h
      exact ⟨h.1, h.2, ih _⟩

theorem sift_sublist (last : Option Int) (cs : List Candidate) :
    (sift last cs).accepted.Sublist cs := by
  induction cs generalizing last with
  | nil => exact .slnil
  | cons c cs ih =>
    rw [accepted_sift_cons]
    split_ifs
    · exact (ih last).cons c
    · exact (ih _).cons_cons c

theorem mem_sift_or_covered (last : Option Int) {cs : List Candidate}
    (hs : cs.Pairwise (fun a b => before a b = true)) {k : Candidate} (hk : k ∈ cs)
    (hne : k.start < k.stop) :
    k ∈ (sift last cs).accepted ∨ last.any (k.start < ·) = true ∨
      ∃ a ∈ (sift last cs).accepted, before a k = true ∧ k.start < a.stop := by
  induction cs generalizing last with
  | nil => simp at hk
  | cons c cs ih =>
    obtain ⟨hc, hs⟩ := List.pairwise_cons.mp hs
    rw [accepted_sift_cons]
    split_ifs with hdropped
    · rcases List.mem_cons.mp hk with rfl | hk
      · rw [isEmpty_eq_false.mpr hne] at hdropped
        exact Or.inr (Or.inl (hdropped.resolve_left Bool.false_ne_true))
      · exact ih last hs hk
    · rcases List.mem_cons.mp hk with rfl | hk
      · exact Or.inl List.mem_cons_self
      · rcases ih (some c.stop) hs hk with hmem | hcovered | ⟨a, ha, hbefore, hstart⟩
        · exact Or.inl (List.mem_cons_of_mem c hmem)
        · exact Or.inr (Or.inr ⟨c, List.mem_cons_self, hc k hk, of_decide_eq_true hcovered⟩)
        · exact Or.inr (Or.inr ⟨a, List.mem_cons_of_mem c ha, hbefore, hstart⟩)

theorem sift_forget {last : Option Int} {cs : List Candidate}
    (h : ∀ stop ∈ last, ∀ c ∈ cs, stop ≤ c.start) :
    (sift last cs).accepted = (sift none cs).accepted := by
  induction cs with
  | nil => rfl
  | cons c cs ih =>
    have hlast : last.any (c.start < ·) = false :=
      any_start_lt_eq_false.mpr (fun stop hs => h stop hs c (by simp))
    rw [accepted_sift_cons, accepted_sift_cons, hlast,
      ih (fun stop hs d hd => h stop hs d (by simp [hd]))]
    simp

theorem sift_append {last : Option Int} {cs ds : List Candidate}
    (hlast : ∀ stop ∈ last, ∀ d ∈ ds, stop ≤ d.start)
    (h : ∀ c ∈ cs, ∀ d ∈ ds, c.stop ≤ d.start) :
    (sift last (cs ++ ds)).accepted = (sift last cs).accepted ++ (sift none ds).accepted := by
  induction cs generalizing last with
  | nil => exact sift_forget hlast
  | cons c cs ih =>
    have htail : ∀ c ∈ cs, ∀ d ∈ ds, c.stop ≤ d.start := fun b hb => h b (by simp [hb])
    rw [List.cons_append, accepted_sift_cons, accepted_sift_cons]
    split_ifs
    · exact ih hlast htail
    · have hc : ∀ stop ∈ some c.stop, ∀ d ∈ ds, stop ≤ d.start := by
        rintro stop ⟨rfl⟩
        exact h c (by simp)
      rw [ih hc htail, List.cons_append]

theorem sift_cons_cons (last : Option Int) (c : Candidate) (cs : List Candidate) :
    (sift last (c :: c :: cs)).accepted = (sift last (c :: cs)).accepted := by
  rw [accepted_sift_cons]
  split_ifs with h
  · rfl
  · simp only [not_or, Bool.not_eq_true, isEmpty_eq_false] at h
    rw [accepted_sift_cons, accepted_sift_cons]
    simp [isEmpty_eq_false.mpr h.1, h.1, h.2]

theorem sift_dedup {cs : List Candidate} (hd : Distinct cs)
    (hs : cs.Pairwise (fun a b => before a b = true)) (last : Option Int) :
    (sift last cs.dedup).accepted = (sift last cs).accepted := by
  induction cs generalizing last with
  | nil => rfl
  | cons c cs ih =>
    have hd' : Distinct cs := fun a ha b hb => hd a (by simp [ha]) b (by simp [hb])
    obtain ⟨hc, hs'⟩ := List.pairwise_cons.mp hs
    by_cases hm : c ∈ cs
    · cases cs with
      | nil => simp at hm
      | cons d cs =>
        -- A repetition stands next to the first one, since nothing else fits between the two.
        have hdc : before d c = true := by
          rcases List.mem_cons.mp hm with rfl | hm'
          · exact hc _ (by simp)
          · exact (List.pairwise_cons.mp hs').1 c hm'
        obtain rfl : c = d := hd.before_antisymm (by simp) (by simp) (hc d (by simp)) hdc
        rw [List.dedup_cons_of_mem hm, ih hd' hs', sift_cons_cons]
    · rw [List.dedup_cons_of_notMem hm, accepted_sift_cons, accepted_sift_cons, ih hd' hs',
        ih hd' hs']

end Resolution

theorem resolve_eq (cs : List Candidate) :
    resolve cs = (sift none (cs.mergeSort Candidate.before)).accepted := rfl

theorem resolve_ordered (cs : List Candidate) : Ordered none (resolve cs) := ordered_sift none _

theorem resolve_subset (cs : List Candidate) : resolve cs ⊆ cs := by
  intro c hc
  exact (List.mergeSort_perm cs Candidate.before).subset ((sift_sublist none _).subset hc)

theorem emit_resolve (cs : List Candidate) :
    emit (resolve cs) = .ok ((resolve cs).map toSpan) :=
  Emission.run_of_ordered (resolve_ordered cs) 0

theorem pairwise_before (cs : List Candidate) :
    (cs.mergeSort Candidate.before).Pairwise (fun a b => Candidate.before a b = true) :=
  List.pairwise_mergeSort before_trans before_total cs

theorem mem_resolve_or_covered {cs : List Candidate} {k : Candidate} (hk : k ∈ cs)
    (hne : k.start < k.stop) :
    k ∈ resolve cs ∨ ∃ a ∈ resolve cs, before a k = true ∧ k.start < a.stop := by
  rcases mem_sift_or_covered none (pairwise_before cs) (List.mem_mergeSort.mpr hk) hne with
    hmem | hnone | hcovered
  · exact Or.inl hmem
  · cases hnone
  · exact Or.inr hcovered

theorem mergeSort_of_perm {cs ds : List Candidate} (hd : Distinct cs) (hp : cs.Perm ds)
    (hs : ds.Pairwise (fun a b => Candidate.before a b = true)) :
    cs.mergeSort Candidate.before = ds := by
  refine List.Perm.eq_of_pairwise ?_ (pairwise_before cs) hs ((List.mergeSort_perm cs _).trans hp)
  intro a b ha hb
  exact hd.before_antisymm (List.mem_mergeSort.mp ha) (hp.mem_iff.mpr hb)

theorem resolve_append {cs ds : List Candidate} (hd : Distinct (cs ++ ds))
    (hcs : ∀ c ∈ cs, c.start < c.stop) (h : ∀ c ∈ cs, ∀ d ∈ ds, c.stop ≤ d.start) :
    resolve (cs ++ ds) = resolve cs ++ resolve ds := by
  have hpairs : ∀ c ∈ cs.mergeSort Candidate.before, ∀ d ∈ ds.mergeSort Candidate.before,
      c.stop ≤ d.start := fun c hc d hd => h c (List.mem_mergeSort.mp hc) d (List.mem_mergeSort.mp hd)
  have hperm : (cs ++ ds).Perm
      (cs.mergeSort Candidate.before ++ ds.mergeSort Candidate.before) :=
    (List.mergeSort_perm cs _).symm.append (List.mergeSort_perm ds _).symm
  have hpairwise : (cs.mergeSort Candidate.before ++ ds.mergeSort Candidate.before).Pairwise
      (fun a b => Candidate.before a b = true) := by
    refine List.pairwise_append.mpr ⟨pairwise_before cs, pairwise_before ds, ?_⟩
    intro c hc d hd
    have hlt := hcs c (List.mem_mergeSort.mp hc)
    have hle := hpairs c hc d hd
    exact before_iff.mpr (Or.inl (by omega))
  rw [resolve_eq, mergeSort_of_perm hd hperm hpairwise, sift_append (by simp) hpairs, resolve_eq,
    resolve_eq]

theorem resolve_congr {cs ds : List Candidate} (hd : Distinct cs) (h : ∀ c, c ∈ cs ↔ c ∈ ds) :
    resolve cs = resolve ds := by
  have hmem (cs : List Candidate) (c : Candidate) : c ∈ cs.mergeSort Candidate.before ↔ c ∈ cs :=
    (List.mergeSort_perm cs Candidate.before).mem_iff
  have hd₁ : Distinct (cs.mergeSort Candidate.before) := fun a ha b hb =>
    hd a ((hmem cs a).mp ha) b ((hmem cs b).mp hb)
  have hd₂ : Distinct (ds.mergeSort Candidate.before) := fun a ha b hb =>
    hd a ((h a).mpr ((hmem ds a).mp ha)) b ((h b).mpr ((hmem ds b).mp hb))
  have hperm : (cs.mergeSort Candidate.before).dedup.Perm (ds.mergeSort Candidate.before).dedup := by
    rw [List.perm_ext_iff_of_nodup (List.nodup_dedup _) (List.nodup_dedup _)]
    intro c
    rw [List.mem_dedup, List.mem_dedup, hmem, hmem, h]
  have heq : (cs.mergeSort Candidate.before).dedup = (ds.mergeSort Candidate.before).dedup := by
    refine List.Perm.eq_of_pairwise ?_ ((pairwise_before cs).sublist (List.dedup_sublist _))
      ((pairwise_before ds).sublist (List.dedup_sublist _)) hperm
    intro a b ha hb
    rw [List.mem_dedup] at ha hb
    exact hd₁.before_antisymm ha ((hmem cs b).mpr ((h b).mpr ((hmem ds b).mp hb)))
  rw [resolve_eq, resolve_eq, ← sift_dedup hd₁ (pairwise_before cs), heq,
    sift_dedup hd₂ (pairwise_before ds)]

end RuleHighlight
