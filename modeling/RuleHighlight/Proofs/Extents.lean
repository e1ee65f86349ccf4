import RuleHighlight.Proofs.Occurrence
import Mathlib.Data.List.TakeWhile

namespace RuleHighlight

namespace Text

variable {p : Char → Bool} {c : Char}

theorem takeWhile_append_cons (hc : p c = false) (front back : List Char) :
    (front ++ c :: back).takeWhile p = front.takeWhile p := by
  rw [List.takeWhile_append, List.takeWhile_cons, hc]
  split
  · next h => simpa using ((List.takeWhile_prefix p).eq_of_length h).symm
  · rfl

theorem dropWhile_append_cons (hc : p c = false) (front back : List Char) :
    (front ++ c :: back).dropWhile p = front.dropWhile p ++ c :: back := by
  rw [List.dropWhile_append, List.dropWhile_cons, hc]
  split
  · next h => simp [List.isEmpty_iff.mp h]
  · rfl

theorem dropWhile_of_all {front : List Char} (hfront : ∀ a ∈ front, p a = true) (hc : p c = false)
    (back : List Char) : (front ++ c :: back).dropWhile p = c :: back := by
  rw [dropWhile_append_cons hc, List.dropWhile_eq_nil_iff.mpr hfront, List.nil_append]

theorem takeWhile_of_all {front : List Char} (hfront : ∀ a ∈ front, p a = true) (hc : p c = false)
    (back : List Char) : (front ++ c :: back).takeWhile p = front := by
  rw [takeWhile_append_cons hc, List.takeWhile_eq_self_iff.mpr hfront]

@[simp]
theorem any_head?_dropWhile (p : Char → Bool) (text : List Char) :
    (text.dropWhile p).head?.any p = false := by
  have hhead := List.head?_dropWhile_not p text
  cases h : (text.dropWhile p).head? with
  | none => rfl
  | some c =>
    rw [h] at hhead
    exact hhead

theorem takeWhile_eq_nil {text : List Char} (h : text.head?.any p = false) :
    text.takeWhile p = [] := by
  cases text with
  | nil => rfl
  | cons c text => exact List.takeWhile_cons_of_neg (Bool.eq_false_iff.mp h)

theorem takeWhile_map {f : Char → Char} (hf : ∀ a, p (f a) = p a) (text : List Char) :
    (text.map f).takeWhile p = (text.takeWhile p).map f := by
  rw [List.takeWhile_map, show p ∘ f = p from funext hf]

theorem dropWhile_map {f : Char → Char} (hf : ∀ a, p (f a) = p a) (text : List Char) :
    (text.map f).dropWhile p = (text.dropWhile p).map f := by
  rw [List.dropWhile_map, show p ∘ f = p from funext hf]

end Text

def Extent.shift (d : Nat) (e : Extent) : Extent := ⟨e.start + d, e.stop + d⟩

@[simp]
theorem Extent.shift_start (d : Nat) (e : Extent) : (e.shift d).start = e.start + d := rfl

@[simp]
theorem Extent.shift_stop (d : Nat) (e : Extent) : (e.shift d).stop = e.stop + d := rfl

def Bounded (f : List Char → List Extent) : Prop :=
  ∀ text, ∀ e ∈ f text, e.start ≤ e.stop ∧ e.stop ≤ text.length

def Ascending (f : List Char → List Extent) : Prop :=
  ∀ text, (f text).Pairwise (fun a b => a.start < b.start)

def SplitsAt (front : List Char) (c : Char) (back : List Char) (f : List Char → List Extent) :
    Prop :=
  f (front ++ c :: back) = f front ++ (f back).map (Extent.shift (front.length + 1))

namespace Occurrence

variable {r : Recogniser Nat}

theorem extents_bounded (hfits : r.Fits id) : Bounded (extents r) := by
  intro text e he
  obtain ⟨⟨i, n⟩, hx, rfl⟩ := List.mem_map.mp he
  exact ⟨Nat.le_add_right i n, add_width_le hfits hx⟩

theorem extents_ascending : Ascending (extents r) := by
  intro text
  rw [extents, List.pairwise_map]
  exact (all_pairwise text).imp (fun h => h.1)

theorem extents_disjoint (r : Recogniser Nat) (text : List Char) :
    (extents r text).Pairwise (fun a b => a.stop ≤ b.start) := by
  rw [extents, List.pairwise_map]
  exact (all_pairwise text).imp (fun h => h.2)

theorem exists_mem_extents {text : List Char} {i n : Nat} (hi : i < text.length)
    (hr : r (text.take i).reverse (text.drop i) = some n) (hn : 0 < n) :
    ∃ e ∈ extents r text, e.start ≤ i ∧ i < e.stop := by
  rcases mem_all_or_covered (w := id) hi hr with hx | ⟨x, hx, hstart, hstop⟩
  · exact ⟨_, List.mem_map.mpr ⟨_, hx, rfl⟩, Nat.le_refl i, Nat.lt_add_of_pos_right hn⟩
  · exact ⟨_, List.mem_map.mpr ⟨x, hx, rfl⟩, Nat.le_of_lt hstart, hstop⟩

theorem extents_through {f : Char → Char} (h : r.through f = r) (text : List Char) :
    extents r (text.map f) = extents r text := by
  rw [extents, all_through h, extents]

theorem map_splitsAt {α : Type} {r : Recogniser α} {w : α → Nat} {f : Nat × α → Extent}
    (hf : ∀ d x, f (Prod.map (· + d) id x) = (f x).shift d) {front back : List Char} {c : Char}
    (h : all r w (front ++ c :: back) =
      all r w front ++ (all r w back).map (Prod.map (· + (front.length + 1)) id)) :
    SplitsAt front c back (fun text => (all r w text).map f) := by
  rw [SplitsAt, h, List.map_append, List.map_map, List.map_map]
  congr 2
  funext x
  exact hf _ x

theorem extents_splitsAt {front back : List Char} {c : Char} (hfits : r.Fits id)
    (hend : ∀ before, r before [] = none)
    (hfront : ∀ before rest, before.reverse ++ rest = front →
      (∀ a, r before rest = some a → (before.length, a) ∈ all r id front) →
      r before (rest ++ c :: back) = r before rest)
    (hback : ∀ before rest, r (before ++ c :: front.reverse) rest = r before rest) :
    SplitsAt front c back (extents r) := by
  apply map_splitsAt _ (all_append_cons hfits hend hfront hback)
  intro d x
  simp [Extent.shift, Nat.add_right_comm]

end Occurrence

namespace Run

variable {p : Char → Bool}

theorem recognise_eq_some {before rest : List Char} {r : Run}
    (h : recognise p before rest = some r) :
    r.before = before ∧ r.chars = rest.takeWhile p ∧ r.after = rest.dropWhile p ∧
      r.chars ≠ [] := by
  rw [recognise] at h
  split at h
  · simp at h
  · next c cs hc =>
    obtain rfl := Option.some.inj h
    exact ⟨rfl, hc.symm, rfl, by simp⟩

theorem chars_eq_true {before rest : List Char} {r : Run} (h : recognise p before rest = some r) :
    ∀ c ∈ r.chars, p c = true := by
  intro c hc
  rw [(recognise_eq_some h).2.1] at hc
  exact List.mem_takeWhile_imp hc

theorem recognise_fits : (recognise p).Fits (fun r => r.chars.length) := by
  intro before rest r h
  change r.chars.length ≤ rest.length
  rw [(recognise_eq_some h).2.1]
  exact (List.takeWhile_prefix p).length_le

/-- A run in its text: no character of the class stands next to it. -/
structure Maximal (p : Char → Bool) (text : List Char) (i : Nat) (r : Run) : Prop where
  text_eq : text = r.before.reverse ++ (r.chars ++ r.after)
  offset_eq : i = r.before.length
  chars_ne_nil : r.chars ≠ []
  chars_eq_true : ∀ c ∈ r.chars, p c = true
  any_before : r.before.head?.any p = false
  any_after : r.after.head?.any p = false

-- Where the walk is free to find something in the middle of a run, it is at the start of the run.
theorem any_before_of_mem_walk {k pos i : Nat} {before rest : List Char} {r : Run}
    (hk : (rest.drop k).head?.any p = true → k = 0 ∧ before.head?.any p = false)
    (h : (i, r) ∈ Occurrence.walk (recognise p) (fun r => r.chars.length) k pos before rest) :
    r.before.head?.any p = false := by
  induction rest generalizing k pos before with
  | nil => simp at h
  | cons c rest ih =>
    cases k with
    | succ k =>
      apply ih _ h
      intro hdrop
      exact absurd (hk hdrop).1 (Nat.succ_ne_zero k)
    | zero =>
      cases hr : recognise p before (c :: rest) with
      | none =>
        have hc : p c = false := by
          by_contra hc
          rw [Bool.not_eq_false] at hc
          simp [recognise, hc] at hr
        rw [Occurrence.walk_zero_of_none _ pos hr] at h
        apply ih _ h
        intro _
        exact ⟨rfl, by rwa [List.head?_cons, Option.any_some]⟩
      | some a =>
        obtain ⟨hbefore, hchars, hafter, hne⟩ := recognise_eq_some hr
        have hc : p c = true := by
          by_contra hc
          rw [List.takeWhile_cons, if_neg hc] at hchars
          exact hne hchars
        rw [Occurrence.walk_zero_of_some _ pos hr, List.mem_cons] at h
        rcases h with heq | h
        · obtain ⟨rfl, rfl⟩ := Prod.mk.inj heq
          rw [hbefore]
          exact (hk hc).2
        · apply ih _ h
          have hsplit : c :: rest = a.chars ++ a.after := by
            rw [hchars, hafter, List.takeWhile_append_dropWhile]
          have hpos : 0 < a.chars.length := List.length_pos_of_ne_nil hne
          have hdrop : rest.drop (a.chars.length - 1) = a.after := by
            calc rest.drop (a.chars.length - 1)
              _ = (c :: rest).drop (a.chars.length - 1 + 1) := rfl
              _ = a.after := by rw [Nat.sub_add_cancel hpos, hsplit, List.drop_left]
          rw [hdrop, hafter, Text.any_head?_dropWhile]
          intro hfalse
          cases hfalse

theorem maximal_of_mem_all {text : List Char} {i : Nat} {r : Run} (h : (i, r) ∈ all p text) :
    Maximal p text i r := by
  obtain ⟨before, rest, rfl, -, rfl, hr⟩ := Occurrence.mem_all h
  have hany := any_before_of_mem_walk (fun _ => ⟨rfl, rfl⟩) h
  have htrue := chars_eq_true hr
  obtain ⟨rfl, hchars, hafter, hne⟩ := recognise_eq_some hr
  refine ⟨?_, rfl, hne, htrue, hany, ?_⟩
  · rw [hchars, hafter, List.takeWhile_append_dropWhile]
  · rw [hafter, Text.any_head?_dropWhile]

variable {β : Type} {v : Run → β} {w : β → Nat}

theorem view_fits (hv : ∀ r, w (v r) = r.chars.length) :
    ((recognise p).view v).Fits w := by
  intro before rest b h
  obtain ⟨r, hr, rfl⟩ := Option.map_eq_some_iff.mp h
  rw [hv]
  exact recognise_fits before rest r hr

theorem recognise_append_cons {c : Char} (hc : p c = false) (before rest back : List Char) :
    recognise p before (rest ++ c :: back) =
      (recognise p before rest).map (fun r => { r with after := r.after ++ c :: back }) := by
  rw [recognise, recognise, Text.takeWhile_append_cons hc, Text.dropWhile_append_cons hc]
  cases rest.takeWhile p <;> rfl

theorem recognise_append_before (before outer rest : List Char) :
    recognise p (before ++ outer) rest =
      (recognise p before rest).map (fun r => { r with before := r.before ++ outer }) := by
  rw [recognise, recognise]
  cases rest.takeWhile p <;> rfl

theorem recognise_map {f : Char → Char} (hf : ∀ c, p (f c) = p c) (before rest : List Char) :
    recognise p (before.map f) (rest.map f) =
      (recognise p before rest).map (fun r => ⟨r.before.map f, r.chars.map f, r.after.map f⟩) := by
  rw [recognise, recognise, Text.takeWhile_map hf, Text.dropWhile_map hf]
  cases rest.takeWhile p <;> rfl

theorem map_all (hv : ∀ r, w (v r) = r.chars.length) (text : List Char) :
    (all p text).map (Prod.map id v) = Occurrence.all ((recognise p).view v) w text :=
  (Occurrence.walk_view v hv 0 0 [] text).symm

theorem all_view_append_cons {front back : List Char} {c : Char} (hc : p c = false)
    (hv : ∀ r, w (v r) = r.chars.length)
    (hfront : ∀ r : Run, v { r with after := r.after ++ c :: back } = v r)
    (hback : ∀ r : Run, v { r with before := r.before ++ c :: front.reverse } = v r) :
    Occurrence.all ((recognise p).view v) w (front ++ c :: back) =
      Occurrence.all ((recognise p).view v) w front ++
        (Occurrence.all ((recognise p).view v) w back).map
          (Prod.map (· + (front.length + 1)) id) := by
  apply Occurrence.all_append_cons (view_fits hv)
  · intro before
    rfl
  · intro before rest _ _
    simp only [Recogniser.view, recognise_append_cons hc, Option.map_map, Function.comp_def, hfront]
  · intro before rest
    simp only [Recogniser.view, recognise_append_before, Option.map_map, Function.comp_def, hback]

theorem all_view_through {f : Char → Char} (hf : ∀ c, p (f c) = p c)
    (hmap : ∀ r : Run, (∀ c ∈ r.chars, p c = true) →
      v ⟨r.before.map f, r.chars.map f, r.after.map f⟩ = v r) (text : List Char) :
    Occurrence.all ((recognise p).view v) w (text.map f) =
      Occurrence.all ((recognise p).view v) w text := by
  apply Occurrence.all_through
  funext before rest
  simp only [Recogniser.through, Recogniser.view, recognise_map hf, Option.map_map]
  cases hr : recognise p before rest with
  | none => rfl
  | some r => exact congrArg some (hmap r (chars_eq_true hr))

def marked (keep : Run → Bool) (r : Run) : Bool × Nat := (keep r, r.chars.length)

theorem extents_eq (keep : Run → Bool) (text : List Char) :
    extents p keep text =
      ((Occurrence.all ((recognise p).view (marked keep)) Prod.snd text).filter
        (fun x => x.2.1)).map (fun x => ⟨x.1, x.1 + x.2.2⟩) := by
  rw [← map_all (v := marked keep) (fun _ => rfl), List.filter_map, List.map_map]
  rfl

theorem extents_bounded (keep : Run → Bool) : Bounded (extents p keep) := by
  intro text e he
  rw [extents, List.mem_map] at he
  obtain ⟨⟨i, r⟩, hx, rfl⟩ := he
  exact ⟨Nat.le_add_right _ _, Occurrence.add_width_le (w := fun r : Run => r.chars.length)
    recognise_fits (List.mem_filter.mp hx).1⟩

theorem extents_ascending (keep : Run → Bool) : Ascending (extents p keep) := by
  intro text
  rw [extents, List.pairwise_map]
  exact ((Occurrence.all_pairwise text).filter _).imp (fun h => h.1)

theorem extents_splitsAt {keep : Run → Bool} {front back : List Char} {c : Char}
    (hc : p c = false)
    (hfront : ∀ r : Run, keep { r with after := r.after ++ c :: back } = keep r)
    (hback : ∀ r : Run, keep { r with before := r.before ++ c :: front.reverse } = keep r) :
    SplitsAt front c back (extents p keep) := by
  have hafter (r : Run) : marked keep { r with after := r.after ++ c :: back } = marked keep r :=
    congrArg (·, r.chars.length) (hfront r)
  have hbefore (r : Run) :
      marked keep { r with before := r.before ++ c :: front.reverse } = marked keep r :=
    congrArg (·, r.chars.length) (hback r)
  have hall := all_view_append_cons (w := Prod.snd) hc (fun _ => rfl) hafter hbefore
  rw [SplitsAt, extents_eq, hall, List.filter_append, List.map_append, extents_eq, extents_eq,
    List.filter_map, List.map_map, List.map_map]
  congr 2
  funext x
  simp [Extent.shift, Nat.add_right_comm]

theorem extents_through {keep : Run → Bool} {f : Char → Char} (hf : ∀ c, p (f c) = p c)
    (hmap : ∀ r : Run, (∀ c ∈ r.chars, p c = true) →
      keep ⟨r.before.map f, r.chars.map f, r.after.map f⟩ = keep r) (text : List Char) :
    extents p keep (text.map f) = extents p keep text := by
  have hall := all_view_through (v := marked keep) (w := Prod.snd) hf
    (fun r hr => by simp only [marked, hmap r hr, List.length_map]) text
  rw [extents_eq, hall, extents_eq]

end Run

end RuleHighlight
