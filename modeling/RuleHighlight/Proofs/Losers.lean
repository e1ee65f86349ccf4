import RuleHighlight.Proofs.Selection

/-!
What loses has no part in the outcome. Candidates may occur more than once, so they are told apart
by their places in the list. Whatever lost or is empty may be deleted, in any number: the order of
the rest is that of the full list, and the pass remembers the same stops.
-/

namespace RuleHighlight

open Candidate

namespace Resolution

def Leads (a b : Candidate × Nat) : Prop :=
  a.1.start < b.1.start ∨ a.1.start = b.1.start ∧
    (a.1.priority < b.1.priority ∨ a.1.priority = b.1.priority ∧ a.2 < b.2)

def sortOccurrences (ks : List (Candidate × Nat)) : List (Candidate × Nat) :=
  ks.mergeSort (fun a b => before a.1 b.1)

def entrants (ks : List (Candidate × Nat)) : List (Candidate × Nat) :=
  (sortOccurrences ks).filter (fun k => k.1.start < k.1.stop)

def acceptedOccurrences (cs : List Candidate) : List (Candidate × Nat) :=
  winners none (entrants cs.zipIdx)

def rejectedOccurrences (cs : List Candidate) : List (Candidate × Nat) :=
  (entrants cs.zipIdx).filter (· ∉ acceptedOccurrences cs)

section Sorting

variable (ks : List (Candidate × Nat))

theorem sortOccurrences_filter (p : Candidate × Nat → Bool) :
    sortOccurrences (ks.filter p) = (sortOccurrences ks).filter p :=
  mergeSort_filter (fun a b c => before_trans a.1 b.1 c.1) (fun a b => before_total a.1 b.1) p ks

@[simp]
theorem map_sortOccurrences :
    (sortOccurrences ks).map Prod.fst = (ks.map Prod.fst).mergeSort before :=
  List.map_mergeSort fun _ _ _ _ => rfl

theorem sortOccurrences_perm : (sortOccurrences ks).Perm ks := List.mergeSort_perm ks _

theorem sortOccurrences_pairwise :
    (sortOccurrences ks).Pairwise (fun a b => before a.1 b.1 = true) :=
  List.pairwise_mergeSort (fun a b c => before_trans a.1 b.1 c.1)
    (fun a b => before_total a.1 b.1) ks

theorem sortOccurrences_of_pairwise {ks : List (Candidate × Nat)}
    (hks : ks.Pairwise (fun a b => before a.1 b.1 = true)) : sortOccurrences ks = ks :=
  List.mergeSort_of_pairwise hks

theorem sortOccurrences_filter_tied (start priority : Int) :
    (sortOccurrences ks).filter (fun k => k.1.start = start ∧ k.1.priority = priority) =
      ks.filter (fun k => k.1.start = start ∧ k.1.priority = priority) := by
  refine filter_mergeSort_of_pairwise (fun a b c => before_trans a.1 b.1 c.1)
    (fun a b => before_total a.1 b.1) (List.pairwise_of_forall_mem_list fun a ha b hb => ?_)
  have ha := of_decide_eq_true (List.mem_filter.mp ha).2
  have hb := of_decide_eq_true (List.mem_filter.mp hb).2
  exact before_iff.mpr (Or.inr ⟨ha.1.trans hb.1.symm, Int.le_of_eq (ha.2.trans hb.2.symm)⟩)

theorem sortOccurrences_leads (hks : ks.Pairwise (fun a b => a.2 < b.2)) :
    (sortOccurrences ks).Pairwise Leads := by
  rw [List.pairwise_iff_forall_sublist]
  intro a b hab
  have hbefore := before_iff.mp (List.pairwise_iff_forall_sublist.mp (sortOccurrences_pairwise ks) hab)
  by_cases htied : a.1.start = b.1.start ∧ a.1.priority = b.1.priority
  · -- What ties stands as it came.
    have hclass := hab.filter (fun k => k.1.start = b.1.start ∧ k.1.priority = b.1.priority)
    rw [sortOccurrences_filter_tied] at hclass
    simp only [List.filter_cons, htied, decide_true, List.filter_nil, and_self, ↓reduceIte] at hclass
    have hplace := List.pairwise_iff_forall_sublist.mp hks (hclass.trans List.filter_sublist)
    exact Or.inr ⟨htied.1, Or.inr ⟨htied.2, hplace⟩⟩
  · rw [Leads]
    omega

theorem entrants_filter (p : Candidate × Nat → Bool) :
    entrants (ks.filter p) = (entrants ks).filter p := by
  rw [entrants, sortOccurrences_filter, List.filter_comm, entrants]

theorem start_lt_stop_of_mem_entrants : ∀ k ∈ entrants ks, k.1.start < k.1.stop :=
  fun _ hk => of_decide_eq_true (List.mem_filter.mp hk).2

theorem sift_entrants :
    sift none ((entrants ks).map Prod.fst) = ofCandidates (ks.map Prod.fst) := by
  rw [ofCandidates, ← sift_filter none (List.mergeSort _ _), ← map_sortOccurrences, List.filter_map,
    entrants]
  rfl

theorem resolve_map :
    resolve (ks.map Prod.fst) = (winners none (entrants ks)).map Prod.fst := by
  rw [map_winners (start_lt_stop_of_mem_entrants ks), sift_entrants, resolve]

end Sorting

theorem winners_filter {p : Candidate × Nat → Bool} {ks : List (Candidate × Nat)}
    {last : Option Int} (h : ∀ k ∈ winners last ks, p k = true) :
    winners last (ks.filter p) = winners last ks := by
  induction ks generalizing last with
  | nil => rfl
  | cons k ks ih =>
    rw [winners] at h ⊢
    split_ifs at h ⊢ with hlast
    · by_cases hk : p k = true
      · rw [List.filter_cons_of_pos hk, winners, if_pos hlast, ih h]
      · rw [List.filter_cons_of_neg hk, ih h]
    · obtain ⟨hk, h⟩ := List.forall_mem_cons.mp h
      rw [List.filter_cons_of_pos hk, winners, if_neg hlast, ih h]

section Places

variable (cs : List Candidate)

theorem entrants_zipIdx_leads : (entrants cs.zipIdx).Pairwise Leads := by
  have hplaces : cs.zipIdx.Pairwise (fun a b => a.2 < b.2) := by
    rw [← List.pairwise_map, List.zipIdx_map_snd]
    exact List.pairwise_lt_range'
  exact (sortOccurrences_leads _ hplaces).filter _

theorem entrants_zipIdx_nodup : (entrants cs.zipIdx).Nodup := by
  have hdiffer : ∀ a b, Leads a b → a ≠ b := by
    rintro a _ h rfl
    rw [Leads] at h
    omega
  exact (entrants_zipIdx_leads cs).imp (hdiffer _ _)

@[simp]
theorem map_acceptedOccurrences :
    (acceptedOccurrences cs).map Prod.fst = (ofCandidates cs).accepted := by
  rw [acceptedOccurrences, ← resolve_map, List.zipIdx_map_fst, resolve]

theorem map_rejectedOccurrences :
    (rejectedOccurrences cs).map Prod.fst = (ofCandidates cs).rejected := by
  rw [rejectedOccurrences, acceptedOccurrences,
    map_losers_of_nodup (entrants_zipIdx_nodup cs) (start_lt_stop_of_mem_entrants _), sift_entrants,
    List.zipIdx_map_fst]

theorem resolve_filter {p : Candidate × Nat → Bool} (h : ∀ k ∈ acceptedOccurrences cs, p k = true) :
    resolve ((cs.zipIdx.filter p).map Prod.fst) = resolve cs := by
  rw [resolve_map, entrants_filter, winners_filter h, ← resolve_map, List.zipIdx_map_fst]

end Places

theorem accepted_of_ordered {last : Option Int} {cs : List Candidate} (h : Ordered last cs) :
    (sift last cs).accepted = cs := by
  induction cs generalizing last with
  | nil => rfl
  | cons c cs ih =>
    rw [accepted_sift_cons, isEmpty_eq_false.mpr h.1, any_start_lt_eq_false.mpr h.2.1, ih h.2.2]
    simp

theorem resolve_of_ordered {cs : List Candidate} (h : Ordered none cs) : resolve cs = cs := by
  have hsorted : cs.Pairwise (fun a b => before a b = true) := by
    refine h.pairwise.imp_of_mem fun ha _ hle => before_iff.mpr (Or.inl ?_)
    have hlt := h.start_lt_stop _ ha
    omega
  rw [resolve_eq, List.mergeSort_of_pairwise hsorted, accepted_of_ordered h]

/-- Any occurrences that lost or are empty may be deleted: the same candidates win. To resolve what
has won changes nothing. -/
theorem resolve_without_losers (cs : List Candidate) :
    (entrants cs.zipIdx).Perm (cs.zipIdx.filter (fun k => k.1.start < k.1.stop)) ∧
    (entrants cs.zipIdx).Pairwise Leads ∧
    (acceptedOccurrences cs).map Prod.fst = (ofCandidates cs).accepted ∧
    (rejectedOccurrences cs).map Prod.fst = (ofCandidates cs).rejected ∧
    (∀ lost : List (Candidate × Nat),
      (∀ k ∈ lost, k ∈ rejectedOccurrences cs ∨ k.1.stop ≤ k.1.start) →
      resolve ((cs.zipIdx.filter (· ∉ lost)).map Prod.fst) = resolve cs) ∧
    resolve (resolve cs) = resolve cs := by
  refine ⟨(sortOccurrences_perm _).filter _, entrants_zipIdx_leads cs, map_acceptedOccurrences cs,
    map_rejectedOccurrences cs, fun lost hlost => resolve_filter cs fun k hk => ?_,
    resolve_of_ordered (resolve_ordered cs)⟩
  rw [decide_eq_true_iff]
  intro hmem
  rcases hlost k hmem with hrejected | hempty
  · exact of_decide_eq_true (List.mem_filter.mp hrejected).2 hk
  · have hlt := start_lt_stop_of_mem_entrants _ k ((winners_sublist _ _).subset hk)
    omega

-- Two candidates that are equal, and an empty one.
def repeatedCandidates : List Candidate :=
  [⟨⟨2, 5⟩, .keyword, 3⟩, ⟨⟨2, 5⟩, .keyword, 3⟩, ⟨⟨4, 4⟩, .atom, 6⟩]

theorem resolve_without_repetition :
    (∀ k ∈ repeatedCandidates.zipIdx.drop 1,
      k ∈ rejectedOccurrences repeatedCandidates ∨ k.1.stop ≤ k.1.start) ∧
    resolve [⟨⟨2, 5⟩, .keyword, 3⟩] = resolve repeatedCandidates := by
  have hlost : ∀ k ∈ repeatedCandidates.zipIdx.drop 1,
      k ∈ rejectedOccurrences repeatedCandidates ∨ k.1.stop ≤ k.1.start := by
    rw [rejectedOccurrences, acceptedOccurrences, entrants, sortOccurrences_of_pairwise (by decide)]
    decide
  exact ⟨hlost, (resolve_without_losers repeatedCandidates).2.2.2.2.1 _ hlost⟩

end Resolution

end RuleHighlight
