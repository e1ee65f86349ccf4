import Mathlib.Data.List.Pairwise
import Mathlib.Data.List.Sort
import RuleHighlight.Proofs.Resolution

/-!
What resolution selects, said without the pass that selects it. Each candidate in the stable order
is kept if it overlaps nothing kept before it. What is kept is the only choice in which no two
overlap and each candidate that is left out overlaps a kept one in front of it.
-/

namespace RuleHighlight

open Candidate

section MergeSort

variable {α : Type} {le : α → α → Bool}
  (trans : ∀ a b c, le a b = true → le b c = true → le a c = true)
  (total : ∀ a b, (le a b || le b a) = true)

include trans total

theorem mergeSort_cons_eq (a : α) (l : List α) : (a :: l).mergeSort le =
    (l.mergeSort le).filter (fun b => !le a b) ++ a :: (l.mergeSort le).filter (fun b => le a b) := by
  obtain ⟨front, back, hcons, hrest, hfront⟩ := List.mergeSort_cons trans total a l
  have hsorted := List.pairwise_mergeSort trans total (a :: l)
  rw [hcons] at hsorted
  have hback : ∀ b ∈ back, le a b = true :=
    (List.pairwise_cons.mp (List.pairwise_append.mp hsorted).2.1).1
  have hfront' : ∀ b ∈ front, ¬ le a b = true := fun b hb => by simpa using hfront b hb
  have hback' : ∀ b ∈ back, ¬ (!le a b) = true := fun b hb => by simp [hback b hb]
  rw [hcons, hrest, List.filter_append, List.filter_append, List.filter_eq_self.mpr hfront,
    List.filter_eq_nil_iff.mpr hback', List.filter_eq_nil_iff.mpr hfront',
    List.filter_eq_self.mpr hback, List.append_nil, List.nil_append]

theorem mergeSort_filter (p : α → Bool) (l : List α) :
    (l.filter p).mergeSort le = (l.mergeSort le).filter p := by
  induction l with
  | nil => simp
  | cons a l ih =>
    by_cases ha : p a = true
    · rw [List.filter_cons_of_pos ha, mergeSort_cons_eq trans total, mergeSort_cons_eq trans total,
        ih, List.filter_append, List.filter_cons_of_pos ha, List.filter_comm p, List.filter_comm p]
    · obtain ⟨front, back, hcons, hrest, -⟩ := List.mergeSort_cons trans total a l
      rw [List.filter_cons_of_neg ha, ih, hcons, hrest, List.filter_append, List.filter_append,
        List.filter_cons_of_neg ha]

theorem filter_mergeSort_of_pairwise {p : α → Bool} {l : List α}
    (hl : (l.filter p).Pairwise (fun a b => le a b = true)) : (l.mergeSort le).filter p = l.filter p := by
  rw [← mergeSort_filter trans total, List.mergeSort_of_pairwise hl]

end MergeSort

namespace Candidate

structure StablySorted (cs sorted : List Candidate) : Prop where
  perm : sorted.Perm cs
  ordered : sorted.Pairwise
    (fun a b => a.start < b.start ∨ a.start = b.start ∧ a.priority ≤ b.priority)
  stable : ∀ start priority,
    sorted.filter (fun c => c.start = start ∧ c.priority = priority) =
      cs.filter (fun c => c.start = start ∧ c.priority = priority)

theorem stablySorted_mergeSort (cs : List Candidate) :
    StablySorted cs (cs.mergeSort Candidate.before) := by
  refine ⟨List.mergeSort_perm cs _, (pairwise_before cs).imp before_iff.mp, ?_⟩
  intro start priority
  have htied : (cs.filter (fun c => c.start = start ∧ c.priority = priority)).Pairwise
      (fun a b => before a b = true) := by
    refine List.pairwise_of_forall_mem_list fun a ha b hb => before_iff.mpr (Or.inr ?_)
    have ha' := of_decide_eq_true (List.mem_filter.mp ha).2
    have hb' := of_decide_eq_true (List.mem_filter.mp hb).2
    exact ⟨ha'.1.trans hb'.1.symm, Int.le_of_eq (ha'.2.trans hb'.2.symm)⟩
  exact filter_mergeSort_of_pairwise before_trans before_total htied

@[simp, grind =]
theorem overlaps_iff {a b : Candidate} :
    a.overlaps b = true ↔ a.start < b.stop ∧ b.start < a.stop := by
  simp [overlaps]

theorem overlaps_comm (a b : Candidate) : a.overlaps b = b.overlaps a := by
  rw [Bool.eq_iff_iff, overlaps_iff, overlaps_iff, and_comm]

def keepIfApart (kept : List Candidate) (c : Candidate) : List Candidate :=
  if ∀ a ∈ kept, c.overlaps a = false then kept ++ [c] else kept

def keepApart (cs : List Candidate) : List Candidate := cs.foldl keepIfApart []

end Candidate

namespace Resolution

-- The remembered stop is the greatest one of what has been kept.
structure Remembers (last : Option Int) (kept : List Candidate) : Prop where
  reached : ∀ stop ∈ last, ∃ a ∈ kept, a.stop = stop
  le_last : ∀ a ∈ kept, ∃ stop ∈ last, a.stop ≤ stop

theorem Remembers.any_eq_false_iff {last : Option Int} {kept : List Candidate}
    (h : Remembers last kept) {c : Candidate} (hc : c.start < c.stop)
    (hstart : ∀ a ∈ kept, a.start ≤ c.start) :
    last.any (c.start < ·) = false ↔ ∀ a ∈ kept, c.overlaps a = false := by
  rw [any_start_lt_eq_false]
  constructor
  · intro hlast a ha
    obtain ⟨stop, hstop, hle⟩ := h.le_last a ha
    have hstop := hlast stop hstop
    rw [← Bool.not_eq_true, overlaps_iff]
    omega
  · intro hapart stop hstop
    obtain ⟨a, ha, rfl⟩ := h.reached stop hstop
    have hoverlap := hapart a ha
    have hle := hstart a ha
    rw [← Bool.not_eq_true, overlaps_iff] at hoverlap
    omega

theorem Remembers.concat {last : Option Int} {kept : List Candidate} (h : Remembers last kept)
    {c : Candidate} (hc : c.start < c.stop) (hlast : ∀ stop ∈ last, stop ≤ c.start) :
    Remembers (some c.stop) (kept ++ [c]) := by
  constructor
  · rintro stop ⟨rfl⟩
    exact ⟨c, by simp, rfl⟩
  · intro a ha
    refine ⟨c.stop, rfl, ?_⟩
    rcases List.mem_append.mp ha with ha | ha
    · obtain ⟨stop, hstop, hle⟩ := h.le_last a ha
      have hstop := hlast stop hstop
      omega
    · exact Int.le_of_eq (congrArg (·.stop) (List.mem_singleton.mp ha))

theorem foldl_keepApart {last : Option Int} {kept cs : List Candidate} (h : Remembers last kept)
    (hs : cs.Pairwise (fun a b => before a b = true)) (hne : ∀ c ∈ cs, c.start < c.stop)
    (hstart : ∀ a ∈ kept, ∀ c ∈ cs, a.start ≤ c.start) :
    cs.foldl keepIfApart kept = kept ++ (sift last cs).accepted := by
  induction cs generalizing last kept with
  | nil => exact (List.append_nil kept).symm
  | cons c cs ih =>
    obtain ⟨hc, hs⟩ := List.pairwise_cons.mp hs
    obtain ⟨hcne, hne⟩ := List.forall_mem_cons.mp hne
    have hany := h.any_eq_false_iff hcne (fun a ha => hstart a ha c List.mem_cons_self)
    have hstart' : ∀ a ∈ kept, ∀ d ∈ cs, a.start ≤ d.start :=
      fun a ha d hd => hstart a ha d (List.mem_cons_of_mem c hd)
    rw [List.foldl_cons, accepted_sift_cons, isEmpty_eq_false.mpr hcne, keepIfApart]
    by_cases hlast : last.any (c.start < ·) = false
    · have hconcat : ∀ a ∈ kept ++ [c], ∀ d ∈ cs, a.start ≤ d.start := by
        intro a ha d hd
        rcases List.mem_append.mp ha with ha | ha
        · exact hstart' a ha d hd
        · rw [List.mem_singleton.mp ha]
          have hbefore := before_iff.mp (hc d hd)
          omega
      rw [if_pos (hany.mp hlast), hlast,
        ih (h.concat hcne (any_start_lt_eq_false.mp hlast)) hs hne hconcat]
      simp
    · rw [if_neg (hany.not.mp hlast), ih h hs hne hstart']
      rw [Bool.not_eq_false] at hlast
      simp [hlast]

theorem sift_filter (last : Option Int) (cs : List Candidate) :
    sift last (cs.filter (fun c => c.start < c.stop)) = sift last cs := by
  induction cs generalizing last with
  | nil => rfl
  | cons c cs ih =>
    by_cases hc : c.start < c.stop
    · rw [List.filter_cons_of_pos (by simpa using hc), sift, sift, ih, ih]
    · have hempty : c.isEmpty = true := decide_eq_true (Int.not_lt.mp hc)
      rw [List.filter_cons_of_neg (by simpa using hc), ih, sift, hempty]
      rfl

end Resolution

/-- To compare with one remembered stop is to compare with all that has been accepted. -/
theorem resolve_eq_keepApart (cs : List Candidate) :
    StablySorted cs (cs.mergeSort Candidate.before) ∧
    resolve cs =
      keepApart ((cs.mergeSort Candidate.before).filter (fun c => c.start < c.stop)) := by
  refine ⟨stablySorted_mergeSort cs, ?_⟩
  have hnone : Resolution.Remembers none [] := ⟨by simp, by simp⟩
  have hsorted := (pairwise_before cs).filter (fun c => c.start < c.stop)
  have hne : ∀ c ∈ (cs.mergeSort Candidate.before).filter (fun c => c.start < c.stop),
      c.start < c.stop := fun c hc => of_decide_eq_true (List.mem_filter.mp hc).2
  rw [resolve_eq, ← Resolution.sift_filter, keepApart,
    Resolution.foldl_keepApart hnone hsorted hne (by simp), List.nil_append]

namespace Resolution

def considered (cs : List Candidate) : List (Candidate × Nat) :=
  ((cs.mergeSort Candidate.before).filter (fun c => c.start < c.stop)).zipIdx

/-- No two of what is chosen overlap, and what is left out overlaps something chosen in front
of it. -/
structure Choice (all chosen : List (Candidate × Nat)) : Prop where
  sublist : chosen.Sublist all
  apart : chosen.Pairwise (fun a b => a.1.overlaps b.1 = false)
  covers : ∀ k ∈ all, k ∉ chosen → ∃ a ∈ chosen, a.2 < k.2 ∧ a.1.overlaps k.1 = true

def Precedes (a b : Candidate × Nat) : Prop := a.2 < b.2 ∧ before a.1 b.1 = true

theorem pairwise_zipIdx {cs : List Candidate}
    (h : cs.Pairwise (fun a b => before a b = true)) (n : Nat) :
    (cs.zipIdx n).Pairwise Precedes := by
  induction cs generalizing n with
  | nil => exact .nil
  | cons c cs ih =>
    obtain ⟨hc, h⟩ := List.pairwise_cons.mp h
    rw [List.zipIdx_cons]
    apply List.Pairwise.cons _ (ih h (n + 1))
    intro b hb
    obtain ⟨hle, -, heq⟩ := List.mem_zipIdx (x := b.1) (i := b.2) hb
    exact ⟨hle, hc b.1 (heq ▸ List.getElem_mem _)⟩

theorem considered_pairwise (cs : List Candidate) : (considered cs).Pairwise Precedes :=
  pairwise_zipIdx ((pairwise_before cs).filter _) 0

theorem start_lt_stop_of_mem_considered {cs : List Candidate} {k : Candidate × Nat}
    (hk : k ∈ considered cs) : k.1.start < k.1.stop := by
  have hmem : k.1 ∈ (considered cs).map Prod.fst := List.mem_map_of_mem hk
  rw [considered, List.zipIdx_map_fst] at hmem
  exact of_decide_eq_true (List.mem_filter.mp hmem).2

section Choice

variable {all chosen chosen' : List (Candidate × Nat)}

theorem precedes_cases (hall : all.Pairwise Precedes) {a b : Candidate × Nat} (ha : a ∈ all)
    (hb : b ∈ all) : a = b ∨ Precedes a b ∨ Precedes b a := by
  have hsymm : Std.Symm (fun a b => Precedes a b ∨ Precedes b a) := ⟨fun _ _ => Or.symm⟩
  by_cases heq : a = b
  · exact Or.inl heq
  · exact Or.inr ((hall.imp (S := fun a b => Precedes a b ∨ Precedes b a) Or.inl).forall ha hb heq)

theorem Choice.overlaps_eq_false (h : Choice all chosen) {a b : Candidate × Nat}
    (ha : a ∈ chosen) (hb : b ∈ chosen) (hne : a ≠ b) : a.1.overlaps b.1 = false := by
  have hsymm : Std.Symm (fun a b : Candidate × Nat => a.1.overlaps b.1 = false) :=
    ⟨fun a b hab => (overlaps_comm b.1 a.1).trans hab⟩
  exact h.apart.forall ha hb hne

theorem Choice.mem_iff (h : Choice all chosen) (h' : Choice all chosen') (n : Nat) :
    ∀ k ∈ all, k.2 = n → (k ∈ chosen ↔ k ∈ chosen') := by
  induction n using Nat.strongRecOn with
  | ind n ih =>
    have hkeeps {xs ys : List (Candidate × Nat)} (hx : Choice all xs) (hy : Choice all ys)
        (hsame : ∀ m < n, ∀ k ∈ all, k.2 = m → (k ∈ ys → k ∈ xs)) {k : Candidate × Nat}
        (hk : k ∈ all) (hn : k.2 = n) (hmem : k ∈ xs) : k ∈ ys := by
      by_contra hleft
      obtain ⟨a, ha, hlt, hoverlap⟩ := hy.covers k hk hleft
      have hax := hsame a.2 (hn ▸ hlt) a (hy.sublist.subset ha) rfl ha
      have hne : a ≠ k := fun heq => Nat.lt_irrefl _ (heq ▸ hlt)
      rw [hx.overlaps_eq_false hax hmem hne] at hoverlap
      cases hoverlap
    intro k hk hn
    exact ⟨hkeeps h h' (fun m hm k hk hkm => (ih m hm k hk hkm).mpr) hk hn,
      hkeeps h' h (fun m hm k hk hkm => (ih m hm k hk hkm).mp) hk hn⟩

theorem Choice.unique (hall : all.Pairwise Precedes) (h : Choice all chosen)
    (h' : Choice all chosen') : chosen = chosen' := by
  have hanti : Std.Antisymm Precedes :=
    ⟨fun a b hab hba => absurd hab.1 (Nat.lt_asymm hba.1)⟩
  have hirrefl : Std.Irrefl Precedes := ⟨fun a ha => Nat.lt_irrefl _ ha.1⟩
  apply (hall.sublist h.sublist).eq_of_mem_iff (hall.sublist h'.sublist)
  intro k
  constructor
  · exact fun hk => (h.mem_iff h' k.2 k (h.sublist.subset hk) rfl).mp hk
  · exact fun hk => (h.mem_iff h' k.2 k (h'.sublist.subset hk) rfl).mpr hk

theorem Choice.exists_over_start (hall : all.Pairwise Precedes)
    (hne : ∀ k ∈ all, k.1.start < k.1.stop) (h : Choice all chosen) {k : Candidate × Nat}
    (hk : k ∈ all) :
    ∃ b ∈ chosen, b.2 ≤ k.2 ∧ b.1.start ≤ k.1.start ∧ k.1.start < b.1.stop := by
  by_cases hmem : k ∈ chosen
  · exact ⟨k, hmem, Nat.le_refl _, Int.le_refl _, hne k hk⟩
  · obtain ⟨b, hb, hlt, hoverlap⟩ := h.covers k hk hmem
    refine ⟨b, hb, Nat.le_of_lt hlt, ?_, (overlaps_iff.mp hoverlap).2⟩
    rcases precedes_cases hall (h.sublist.subset hb) hk with rfl | hprecedes | hprecedes
    · exact Int.le_refl _
    · have hbefore := before_iff.mp hprecedes.2
      omega
    · exact absurd hprecedes.1 (Nat.lt_asymm hlt)

theorem Choice.first (hall : all.Pairwise Precedes) (hne : ∀ k ∈ all, k.1.start < k.1.stop)
    (h : Choice all chosen) {a k : Candidate × Nat} (ha : a ∈ chosen) (hk : k ∈ all)
    (hstart : k.1.start = a.1.start) : a.2 ≤ k.2 ∧ a.1.priority ≤ k.1.priority := by
  have hmem := h.sublist.subset ha
  rcases precedes_cases hall hmem hk with rfl | hprecedes | hprecedes
  · exact ⟨Nat.le_refl _, Int.le_refl _⟩
  · have hbefore := before_iff.mp hprecedes.2
    exact ⟨Nat.le_of_lt hprecedes.1, by omega⟩
  · -- What reaches over the start of `k` reaches over that of `a`, and is chosen like `a`.
    obtain ⟨b, hb, hle, hover⟩ := h.exists_over_start hall hne hk
    have hba : b ≠ a := by
      rintro rfl
      exact Nat.not_lt.mpr hle hprecedes.1
    have hapart := h.overlaps_eq_false hb ha hba
    have hane := hne a hmem
    rw [← Bool.not_eq_true, overlaps_iff] at hapart
    omega

end Choice

def winners : Option Int → List (Candidate × Nat) → List (Candidate × Nat)
  | _, [] => []
  | last, k :: rest =>
    if last.any (k.1.start < ·) then winners last rest else k :: winners (some k.1.stop) rest

theorem winners_sublist (last : Option Int) (ks : List (Candidate × Nat)) :
    (winners last ks).Sublist ks := by
  induction ks generalizing last with
  | nil => exact .slnil
  | cons k ks ih =>
    rw [winners]
    split_ifs
    · exact (ih last).cons k
    · exact (ih _).cons_cons k

theorem map_winners {ks : List (Candidate × Nat)} (hne : ∀ k ∈ ks, k.1.start < k.1.stop)
    (last : Option Int) :
    (winners last ks).map Prod.fst = (sift last (ks.map Prod.fst)).accepted := by
  induction ks generalizing last with
  | nil => rfl
  | cons k ks ih =>
    obtain ⟨hk, hne⟩ := List.forall_mem_cons.mp hne
    rw [winners, List.map_cons, accepted_sift_cons, isEmpty_eq_false.mpr hk]
    simp only [Bool.false_eq_true, false_or]
    split_ifs
    · exact ih hne last
    · rw [List.map_cons, ih hne]

theorem map_losers_of_nodup {ks : List (Candidate × Nat)} (hks : ks.Nodup)
    (hne : ∀ k ∈ ks, k.1.start < k.1.stop) (last : Option Int) :
    (ks.filter (· ∉ winners last ks)).map Prod.fst =
      (sift last (ks.map Prod.fst)).rejected := by
  induction ks generalizing last with
  | nil => rfl
  | cons k ks ih =>
    obtain ⟨hk, hne⟩ := List.forall_mem_cons.mp hne
    obtain ⟨hnot, hks⟩ := List.nodup_cons.mp hks
    rw [winners, List.map_cons, sift, isEmpty_eq_false.mpr hk]
    by_cases hlast : last.any (k.1.start < ·) = true
    · have hlost : k ∉ winners last ks := fun hmem => hnot ((winners_sublist last ks).subset hmem)
      rw [if_pos hlast, List.filter_cons_of_pos (by simpa using hlost), List.map_cons, ih hks hne,
        if_neg Bool.false_ne_true, if_pos hlast]
    · rw [if_neg hlast, List.filter_cons_of_neg (by simp), if_neg Bool.false_ne_true, if_neg hlast]
      rw [← ih hks hne]
      congr 1
      apply List.filter_congr
      intro b hb
      have hbk : b ≠ k := fun heq => hnot (heq ▸ hb)
      simp [hbk]

theorem map_losers {ks : List (Candidate × Nat)} (hks : ks.Pairwise Precedes)
    (hne : ∀ k ∈ ks, k.1.start < k.1.stop) (last : Option Int) :
    (ks.filter (· ∉ winners last ks)).map Prod.fst =
      (sift last (ks.map Prod.fst)).rejected := by
  have hdiffer : ∀ a b, Precedes a b → a ≠ b := fun a b h heq => Nat.lt_irrefl b.2 (heq ▸ h.1)
  exact map_losers_of_nodup (hks.imp (hdiffer _ _)) hne last

theorem winners_cover {ks : List (Candidate × Nat)} (hks : ks.Pairwise Precedes)
    (last : Option Int) {k : Candidate × Nat} (hk : k ∈ ks) (hlost : k ∉ winners last ks) :
    last.any (k.1.start < ·) = true ∨
      ∃ a ∈ winners last ks, Precedes a k ∧ k.1.start < a.1.stop := by
  induction ks generalizing last with
  | nil => cases hk
  | cons c ks ih =>
    obtain ⟨hc, hks⟩ := List.pairwise_cons.mp hks
    rw [winners] at hlost ⊢
    split_ifs at hlost ⊢ with hlast
    · rcases List.mem_cons.mp hk with rfl | hk
      · exact Or.inl hlast
      · exact ih hks last hk hlost
    · rw [List.mem_cons, not_or] at hlost
      have hk := (List.mem_cons.mp hk).resolve_left hlost.1
      right
      rcases ih hks _ hk hlost.2 with hcovered | ⟨a, ha, hprecedes, hreach⟩
      · exact ⟨c, List.mem_cons_self, hc k hk, of_decide_eq_true hcovered⟩
      · exact ⟨a, List.mem_cons_of_mem c ha, hprecedes, hreach⟩

theorem choice_winners {ks : List (Candidate × Nat)} (hks : ks.Pairwise Precedes)
    (hne : ∀ k ∈ ks, k.1.start < k.1.stop) : Choice ks (winners none ks) := by
  refine ⟨winners_sublist none ks, ?_, fun k hk hlost => ?_⟩
  · have hordered := (ordered_sift none (ks.map Prod.fst)).pairwise
    rw [← map_winners hne, List.pairwise_map] at hordered
    apply hordered.imp
    intro a b hle
    rw [← Bool.not_eq_true, overlaps_iff]
    omega
  · rcases winners_cover hks none hk hlost with hnone | ⟨a, ha, hprecedes, hreach⟩
    · cases hnone
    · have hbefore := before_iff.mp hprecedes.2
      have hkne := hne k hk
      exact ⟨a, ha, hprecedes.1, overlaps_iff.mpr ⟨by omega, hreach⟩⟩

theorem sift_considered (cs : List Candidate) :
    sift none ((considered cs).map Prod.fst) = ofCandidates cs := by
  rw [considered, List.zipIdx_map_fst, sift_filter, ofCandidates]

theorem accepted_append_rejected_perm (last : Option Int) (cs : List Candidate) :
    ((sift last cs).accepted ++ (sift last cs).rejected).Perm
      (cs.filter (fun c => c.start < c.stop)) := by
  induction cs generalizing last with
  | nil => exact .refl _
  | cons c cs ih =>
    by_cases hc : c.start < c.stop
    · rw [List.filter_cons_of_pos (by simpa using hc), sift, isEmpty_eq_false.mpr hc,
        if_neg Bool.false_ne_true]
      split_ifs
      · exact List.perm_middle.trans ((ih last).cons c)
      · exact (ih _).cons c
    · have hempty : c.isEmpty = true := decide_eq_true (Int.not_lt.mp hc)
      rw [List.filter_cons_of_neg (by simpa using hc), sift, if_pos hempty]
      exact ih last

/-- Every candidate that is not empty is accepted or rejected, and what is accepted is the only
choice: each loser overlaps a winner in front of it. Each winner is the first at its start. -/
theorem ofCandidates_accounts (cs : List Candidate) :
    StablySorted cs (cs.mergeSort Candidate.before) ∧
    ((ofCandidates cs).accepted ++ (ofCandidates cs).rejected).Perm
      (cs.filter (fun c => c.start < c.stop)) ∧
    (ofCandidates cs).accepted.Sublist (cs.mergeSort Candidate.before) ∧
    (ofCandidates cs).rejected.Sublist (cs.mergeSort Candidate.before) ∧
    ∃ kept : List (Candidate × Nat),
      kept.map Prod.fst = (ofCandidates cs).accepted ∧
      ((considered cs).filter (· ∉ kept)).map Prod.fst = (ofCandidates cs).rejected ∧
      (∀ chosen, Choice (considered cs) chosen ↔ chosen = kept) ∧
      ∀ a ∈ kept, ∀ k ∈ considered cs, k.1.start = a.1.start →
        a.2 ≤ k.2 ∧ a.1.priority ≤ k.1.priority := by
  have hpairwise := considered_pairwise cs
  have hne : ∀ k ∈ considered cs, k.1.start < k.1.stop :=
    fun k hk => start_lt_stop_of_mem_considered hk
  have hchoice := choice_winners hpairwise hne
  have haccepted := map_winners hne none
  have hrejected := map_losers hpairwise hne none
  rw [sift_considered] at haccepted hrejected
  have hsublist : ((considered cs).map Prod.fst).Sublist (cs.mergeSort Candidate.before) := by
    rw [considered, List.zipIdx_map_fst]
    exact List.filter_sublist
  refine ⟨stablySorted_mergeSort cs, ?_, sift_sublist none _, ?_, winners none (considered cs),
    haccepted, hrejected, fun chosen => ⟨fun h => h.unique hpairwise hchoice, ?_⟩, ?_⟩
  · exact (accepted_append_rejected_perm none _).trans ((List.mergeSort_perm cs _).filter _)
  · rw [← hrejected]
    exact (List.filter_sublist.map Prod.fst).trans hsublist
  · rintro rfl
    exact hchoice
  · exact fun a ha k hk hstart => hchoice.first hpairwise hne ha hk hstart

end Resolution

end RuleHighlight
