import RuleHighlight.Text.Occurrence
import Mathlib.Data.List.Basic
import Mathlib.Data.List.Induction
import Mathlib.Data.List.Pairwise

/-!
The theory of the walk that finds occurrences. Each occurrence is what the recogniser sees at its
place, occurrences stand in the order of the text and do not reach into each other, and a walk is
determined by what its recogniser sees at the places that it visits. From the last follows how a
walk over a text is made of walks over its parts.
-/

namespace RuleHighlight

namespace Recogniser

variable {α β : Type}

def view (v : α → β) (r : Recogniser α) : Recogniser β := fun before rest => (r before rest).map v

def within (outerBefore outerRest : List Char) (r : Recogniser α) : Recogniser α :=
  fun before rest => r (before ++ outerBefore) (rest ++ outerRest)

def through (f : Char → Char) (r : Recogniser α) : Recogniser α :=
  fun before rest => r (before.map f) (rest.map f)

def Fits (w : α → Nat) (r : Recogniser α) : Prop :=
  ∀ before rest a, r before rest = some a → w a ≤ rest.length

end Recogniser

namespace Occurrence

variable {α β : Type} {r r' : Recogniser α} {w : α → Nat}

section Walk

variable (r w) (k pos : Nat) (before rest : List Char) {c : Char} {a : α}

@[simp]
theorem walk_nil : walk r w k pos before [] = [] := by
  cases k <;> rfl

@[simp]
theorem walk_succ : walk r w (k + 1) pos before (c :: rest) =
    walk r w k (pos + 1) (c :: before) rest := rfl

variable {r before rest}

@[simp]
theorem walk_zero_of_none (h : r before (c :: rest) = none) :
    walk r w 0 pos before (c :: rest) = walk r w 0 (pos + 1) (c :: before) rest := by
  rw [walk, h]

@[simp]
theorem walk_zero_of_some (h : r before (c :: rest) = some a) :
    walk r w 0 pos before (c :: rest) =
      (pos, a) :: walk r w (w a - 1) (pos + 1) (c :: before) rest := by
  rw [walk, h]

end Walk

theorem mem_walk {k pos i : Nat} {before rest : List Char} {a : α}
    (h : (i, a) ∈ walk r w k pos before rest) :
    ∃ passed ahead, passed.reverse ++ ahead = rest ∧ ahead ≠ [] ∧ k ≤ passed.length ∧
      i = pos + passed.length ∧ r (passed ++ before) ahead = some a := by
  induction rest generalizing k pos before with
  | nil => simp at h
  | cons c rest ih =>
    have later {k' : Nat} (h : (i, a) ∈ walk r w k' (pos + 1) (c :: before) rest)
        (hk : k ≤ k' + 1) : ∃ passed ahead, passed.reverse ++ ahead = c :: rest ∧ ahead ≠ [] ∧
          k ≤ passed.length ∧ i = pos + passed.length ∧ r (passed ++ before) ahead = some a := by
      obtain ⟨passed, ahead, rfl, hne, hle, hi, hr⟩ := ih h
      refine ⟨passed ++ [c], ahead, by simp, hne, ?_, ?_, by simpa using hr⟩
      · simp only [List.length_append, List.length_singleton]; omega
      · simp only [List.length_append, List.length_singleton]; omega
    cases k with
    | succ k => exact later h (Nat.le_refl _)
    | zero =>
      cases hr : r before (c :: rest) with
      | none =>
        rw [walk_zero_of_none w pos hr] at h
        exact later h (Nat.zero_le _)
      | some b =>
        rw [walk_zero_of_some w pos hr, List.mem_cons] at h
        rcases h with he | h
        · obtain ⟨rfl, rfl⟩ := Prod.mk.inj he
          exact ⟨[], c :: rest, rfl, by simp, Nat.le_refl _, rfl, hr⟩
        · exact later h (Nat.zero_le _)

theorem mem_all {text : List Char} {i : Nat} {a : α} (h : (i, a) ∈ all r w text) :
    ∃ before rest, before.reverse ++ rest = text ∧ rest ≠ [] ∧ i = before.length ∧
      r before rest = some a := by
  obtain ⟨before, rest, ht, hne, -, hi, hr⟩ := mem_walk h
  exact ⟨before, rest, ht, hne, by omega, by simpa using hr⟩

theorem le_of_mem_walk {k pos : Nat} {before rest : List Char} {x : Nat × α}
    (h : x ∈ walk r w k pos before rest) : pos + k ≤ x.1 := by
  obtain ⟨passed, -, -, -, hk, hi, -⟩ := mem_walk (i := x.1) (a := x.2) h
  omega

theorem walk_pairwise (k pos : Nat) (before rest : List Char) :
    (walk r w k pos before rest).Pairwise
      (fun x y => x.1 < y.1 ∧ x.1 + w x.2 ≤ y.1) := by
  induction rest generalizing k pos before with
  | nil => simp
  | cons c rest ih =>
    cases k with
    | succ k => exact ih _ _ _
    | zero =>
      cases hr : r before (c :: rest) with
      | none => rw [walk_zero_of_none w pos hr]; exact ih _ _ _
      | some a =>
        rw [walk_zero_of_some w pos hr]
        refine List.pairwise_cons.mpr ⟨?_, ih _ _ _⟩
        intro y hy
        have hle := le_of_mem_walk hy
        simp only
        omega

theorem all_pairwise (text : List Char) :
    (all r w text).Pairwise (fun x y => x.1 < y.1 ∧ x.1 + w x.2 ≤ y.1) :=
  walk_pairwise 0 0 [] text

theorem add_width_le {text : List Char} {i : Nat} {a : α} (hfits : r.Fits w)
    (h : (i, a) ∈ all r w text) : i + w a ≤ text.length := by
  obtain ⟨before, rest, rfl, -, rfl, hr⟩ := mem_all h
  have hw := hfits _ _ _ hr
  simp only [List.length_append, List.length_reverse]
  omega

theorem mem_walk_of_free {k pos : Nat} {before passed ahead : List Char} {a : α}
    (hne : ahead ≠ []) (hk : k ≤ passed.length) (hr : r (passed ++ before) ahead = some a)
    (hfree : ∀ x ∈ walk r w k pos before (passed.reverse ++ ahead), x.1 < pos + passed.length →
      x.1 + w x.2 ≤ pos + passed.length) :
    (pos + passed.length, a) ∈ walk r w k pos before (passed.reverse ++ ahead) := by
  induction passed using List.reverseRecOn generalizing k pos before with
  | nil =>
    obtain ⟨c, rest, rfl⟩ := List.exists_cons_of_ne_nil hne
    obtain rfl : k = 0 := Nat.le_zero.mp hk
    rw [List.nil_append] at hr
    simp [hr]
  | append_singleton passed c ih =>
    have htext : (passed ++ [c]).reverse ++ ahead = c :: (passed.reverse ++ ahead) := by simp
    have hplace : pos + (passed ++ [c]).length = pos + 1 + passed.length := by
      rw [List.length_append, List.length_singleton]
      omega
    have hr' : r (passed ++ c :: before) ahead = some a := by
      rwa [List.append_assoc, List.singleton_append] at hr
    rw [List.length_append, List.length_singleton] at hk
    rw [htext, hplace] at hfree ⊢
    cases k with
    | succ k => exact ih (Nat.le_of_succ_le_succ hk) hr' hfree
    | zero =>
      cases hb : r before (c :: (passed.reverse ++ ahead)) with
      | none =>
        rw [walk_zero_of_none w pos hb] at hfree ⊢
        exact ih (Nat.zero_le _) hr' hfree
      | some b =>
        rw [walk_zero_of_some w pos hb] at hfree ⊢
        obtain ⟨hhead, htail⟩ := List.forall_mem_cons.mp hfree
        have hcover : w b - 1 ≤ passed.length := by
          have hreach := hhead (by simp only; omega)
          simp only at hreach
          omega
        exact List.mem_cons_of_mem _ (ih hcover hr' htail)

theorem rel_of_start_lt {start : β → Nat} {R : β → β → Prop} {xs : List β}
    (h : xs.Pairwise fun a b => start a < start b ∧ R a b) {a b : β} (ha : a ∈ xs) (hb : b ∈ xs)
    (hlt : start a < start b) : R a b := by
  have hsymm : Std.Symm fun a b : β =>
      (start a < start b → R a b) ∧ (start b < start a → R b a) := ⟨fun _ _ => And.symm⟩
  have hpairs : xs.Pairwise fun a b =>
      (start a < start b → R a b) ∧ (start b < start a → R b a) :=
    h.imp fun hab => ⟨fun _ => hab.2, fun hba => absurd hba (Nat.lt_asymm hab.1)⟩
  have hne : a ≠ b := by
    rintro rfl
    exact Nat.lt_irrefl _ hlt
  exact (hpairs.forall ha hb hne).1 hlt

theorem stop_le_of_mem_all {text : List Char} {x y : Nat × α} (hx : x ∈ all r w text)
    (hy : y ∈ all r w text) (hlt : x.1 < y.1) : x.1 + w x.2 ≤ y.1 :=
  rel_of_start_lt (all_pairwise text) hx hy hlt

theorem mem_all_iff {text : List Char} {i : Nat} {a : α} : (i, a) ∈ all r w text ↔
    (∃ before rest, before.reverse ++ rest = text ∧ rest ≠ [] ∧ i = before.length ∧
      r before rest = some a) ∧ ∀ x ∈ all r w text, x.1 < i → x.1 + w x.2 ≤ i := by
  constructor
  · exact fun h => ⟨mem_all h, fun x hx hlt => stop_le_of_mem_all hx h hlt⟩
  · rintro ⟨⟨before, rest, rfl, hne, rfl, hr⟩, hfree⟩
    have hr' : r (before ++ []) rest = some a := by rwa [List.append_nil]
    rw [← Nat.zero_add before.length] at hfree ⊢
    exact mem_walk_of_free hne (Nat.zero_le _) hr' hfree

theorem recognise_of_mem_all {text : List Char} {i : Nat} {a : α} (h : (i, a) ∈ all r w text) :
    r (text.take i).reverse (text.drop i) = some a := by
  obtain ⟨before, rest, rfl, -, rfl, hr⟩ := mem_all h
  rwa [List.take_left' List.length_reverse, List.drop_left' List.length_reverse,
    List.reverse_reverse]

theorem mem_all_or_covered {text : List Char} {i : Nat} {a : α} (hi : i < text.length)
    (hr : r (text.take i).reverse (text.drop i) = some a) :
    (i, a) ∈ all r w text ∨ ∃ x ∈ all r w text, x.1 < i ∧ i < x.1 + w x.2 := by
  by_cases hfree : ∀ x ∈ all r w text, x.1 < i → x.1 + w x.2 ≤ i
  · refine Or.inl (mem_all_iff.mpr ⟨⟨(text.take i).reverse, text.drop i, ?_, ?_, ?_, hr⟩, hfree⟩)
    · rw [List.reverse_reverse, List.take_append_drop]
    · simpa using hi
    · rw [List.length_reverse, List.length_take, Nat.min_eq_left (Nat.le_of_lt hi)]
  · right
    simpa using hfree

theorem walk_view (v : α → β) {w' : β → Nat} (hv : ∀ a, w' (v a) = w a)
    (k pos : Nat) (before rest : List Char) :
    walk (r.view v) w' k pos before rest =
      (walk r w k pos before rest).map (Prod.map id v) := by
  induction rest generalizing k pos before with
  | nil => rfl
  | cons c rest ih =>
    cases k with
    | succ k => exact ih _ _ _
    | zero => cases hr : r before (c :: rest) <;> simp [Recogniser.view, hr, hv, ← ih]

theorem walk_through (f : Char → Char) (k pos : Nat) (before rest : List Char) :
    walk r w k pos (before.map f) (rest.map f) =
      walk (r.through f) w k pos before rest := by
  induction rest generalizing k pos before with
  | nil => rfl
  | cons c rest ih =>
    have ih' (k pos : Nat) := ih k pos (c :: before)
    simp only [List.map_cons] at ih'
    cases k with
    | succ k => exact ih' _ _
    | zero =>
      simp only [List.map_cons, walk, Recogniser.through, ih']

theorem all_through {f : Char → Char} (h : r.through f = r) (text : List Char) :
    all r w (text.map f) = all r w text := by
  have hwalk := walk_through (r := r) (w := w) f 0 0 [] text
  rwa [h] at hwalk

theorem walk_shift (d k pos : Nat) (before rest : List Char) :
    walk r w k (pos + d) before rest =
      (walk r w k pos before rest).map (Prod.map (· + d) id) := by
  induction rest generalizing k pos before with
  | nil => rfl
  | cons c rest ih =>
    have ih' (k : Nat) := ih k (pos + 1) (c :: before)
    rw [Nat.add_right_comm] at ih'
    cases k with
    | succ k => exact ih' _
    | zero => cases hr : r before (c :: rest) <;> simp [hr, ih']

theorem walk_covered (k pos : Nat) (before rest : List Char) :
    walk r w k pos before rest =
      walk r w 0 (pos + k) ((rest.take k).reverse ++ before) (rest.drop k) := by
  induction rest generalizing k pos before with
  | nil => cases k <;> rfl
  | cons c rest ih =>
    cases k with
    | zero => rfl
    | succ k =>
      rw [walk_succ, ih, List.take_succ_cons, List.drop_succ_cons, List.reverse_cons,
        List.append_assoc, List.singleton_append, Nat.add_assoc, Nat.add_comm 1]

theorem walk_congr {k pos : Nat} {before rest : List Char}
    (h : ∀ passed ahead, passed.reverse ++ ahead = rest → ahead ≠ [] →
      (∀ a, r (passed ++ before) ahead = some a →
        (pos + passed.length, a) ∈ walk r w k pos before rest) →
      r' (passed ++ before) ahead = r (passed ++ before) ahead) :
    walk r' w k pos before rest = walk r w k pos before rest := by
  induction rest generalizing k pos before with
  | nil => rfl
  | cons c rest ih =>
    have later {k' : Nat} (hsub : walk r w k' (pos + 1) (c :: before) rest ⊆
        walk r w k pos before (c :: rest)) :
        walk r' w k' (pos + 1) (c :: before) rest =
          walk r w k' (pos + 1) (c :: before) rest := by
      apply ih
      intro passed ahead ht hne hvisit
      have hplace := h (passed ++ [c]) ahead (by simp [ht]) hne
      simp only [List.append_assoc, List.singleton_append, List.length_append,
        List.length_singleton] at hplace
      apply hplace
      intro a ha
      have hmem := hsub (hvisit a ha)
      rwa [Nat.add_right_comm, Nat.add_assoc] at hmem
    cases k with
    | succ k => exact later (List.Subset.refl _)
    | zero =>
      have here := h [] (c :: rest) rfl (by simp)
      simp only [List.nil_append, List.length_nil, Nat.add_zero] at here
      cases hr : r before (c :: rest) with
      | none =>
        have hr' : r' before (c :: rest) = none := by rw [here (by simp [hr]), hr]
        rw [walk_zero_of_none w pos hr', walk_zero_of_none w pos hr]
        exact later (by rw [walk_zero_of_none w pos hr]; exact List.Subset.refl _)
      | some a =>
        have hr' : r' before (c :: rest) = some a := by rw [here (by simp [hr]), hr]
        rw [walk_zero_of_some w pos hr', walk_zero_of_some w pos hr]
        refine congrArg _ (later ?_)
        rw [walk_zero_of_some w pos hr]
        exact List.subset_cons_self _ _

theorem walk_behind (k pos : Nat) (before outer rest : List Char) :
    walk r w k pos (before ++ outer) rest =
      walk (r.within outer []) w k pos before rest := by
  induction rest generalizing k pos before with
  | nil => rfl
  | cons c rest ih =>
    have ih' (k : Nat) := ih k (pos + 1) (c :: before)
    simp only [List.cons_append] at ih'
    cases k with
    | succ k => exact ih' _
    | zero => simp only [walk, Recogniser.within, List.append_nil, ih']

theorem walk_append {k pos : Nat} {before front back : List Char} (hk : k ≤ front.length)
    (hfit : ∀ x ∈ walk (r.within [] back) w k pos before front,
      x.1 + w x.2 ≤ pos + front.length) :
    walk r w k pos before (front ++ back) =
      walk (r.within [] back) w k pos before front ++
        walk r w 0 (pos + front.length) (front.reverse ++ before) back := by
  induction front generalizing k pos before with
  | nil =>
    obtain rfl : k = 0 := Nat.le_zero.mp hk
    rfl
  | cons c front ih =>
    have hlen : pos + (c :: front).length = pos + 1 + front.length := by
      rw [List.length_cons]; omega
    have hbefore : (c :: front).reverse ++ before = front.reverse ++ c :: before := by simp
    rw [hlen] at hfit
    rw [hlen, hbefore, List.cons_append]
    cases k with
    | succ k => exact ih (Nat.le_of_succ_le_succ hk) hfit
    | zero =>
      have hin : (r.within [] back) before (c :: front) = r before (c :: (front ++ back)) := by
        simp [Recogniser.within]
      cases hr : r before (c :: (front ++ back)) with
      | none =>
        rw [hr] at hin
        rw [walk_zero_of_none w pos hin] at hfit ⊢
        rw [walk_zero_of_none w pos hr]
        exact ih (Nat.zero_le _) hfit
      | some a =>
        rw [hr] at hin
        rw [walk_zero_of_some w pos hin] at hfit ⊢
        rw [walk_zero_of_some w pos hr]
        obtain ⟨hhead, htail⟩ := List.forall_mem_cons.mp hfit
        have hcover : w a - 1 ≤ front.length := by simp only at hhead; omega
        simp only [List.cons_append, ih hcover htail]

theorem all_append_cons {front back : List Char} {c : Char} (hfits : r.Fits w)
    (hend : ∀ before, r before [] = none)
    (hfront : ∀ before rest, before.reverse ++ rest = front →
      (∀ a, r before rest = some a → (before.length, a) ∈ all r w front) →
      r before (rest ++ c :: back) = r before rest)
    (hback : ∀ before rest, r (before ++ c :: front.reverse) rest = r before rest) :
    all r w (front ++ c :: back) =
      all r w front ++ (all r w back).map (Prod.map (· + (front.length + 1)) id) := by
  have hleft : walk (r.within [] (c :: back)) w 0 0 [] front = all r w front := by
    apply walk_congr
    intro passed ahead ht _ hvisit
    simp only [List.append_nil, Nat.zero_add] at hvisit ⊢
    simpa [Recogniser.within] using hfront passed ahead ht hvisit
  have hcut : r front.reverse (c :: back) = none := by
    have hat := hfront front.reverse [] (by simp) (by simp [hend])
    rwa [List.nil_append, hend] at hat
  have hright : walk r w 0 (front.length + 1) (c :: front.reverse) back =
      (all r w back).map (Prod.map (· + (front.length + 1)) id) := by
    have hbehind := walk_behind (r := r) (w := w) 0 (front.length + 1) []
      (c :: front.reverse) back
    rw [List.nil_append] at hbehind
    rw [hbehind, ← Nat.zero_add (front.length + 1), walk_shift, Nat.zero_add, all]
    congr 1
    apply walk_congr
    intro passed ahead _ _ _
    simpa [Recogniser.within] using hback passed ahead
  have hreach : ∀ x ∈ walk (r.within [] (c :: back)) w 0 0 [] front,
      x.1 + w x.2 ≤ 0 + front.length := by
    rw [hleft, Nat.zero_add]
    exact fun x hx => add_width_le hfits hx
  rw [all, walk_append (Nat.zero_le _) hreach, hleft, Nat.zero_add, List.append_nil,
    walk_zero_of_none w _ hcut]
  exact congrArg _ hright

end Occurrence

end RuleHighlight
