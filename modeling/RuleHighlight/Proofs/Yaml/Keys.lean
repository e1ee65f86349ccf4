import RuleHighlight.Yaml.Building

/-!
The keys of mappings. However a document repeats or merges its entries, no mapping in what it
becomes holds a key twice, so a key that is looked up has one value.
-/

namespace RuleHighlight.Yaml

open Text (CodeText)

namespace Collection

variable {key : Scalar} {value : Value} {entries : List (Scalar × Value)}

def Distinct (entries : List (Scalar × Value)) : Prop :=
  entries.Pairwise (fun a b => a.1.sameKey b.1 = false)

theorem sameKey_of_mem_put {k : Scalar} (h : ∀ e ∈ entries, k.sameKey e.1 = false)
    (hk : k.sameKey key = false) : ∀ e ∈ put key value entries, k.sameKey e.1 = false := by
  induction entries with
  | nil =>
    intro e he
    rw [put, List.mem_singleton] at he
    rw [he]
    exact hk
  | cons first rest ih =>
    obtain ⟨hfirst, hrest⟩ := List.forall_mem_cons.mp h
    rw [put]
    split
    · exact List.forall_mem_cons.mpr ⟨hfirst, hrest⟩
    · exact List.forall_mem_cons.mpr ⟨hfirst, ih hrest⟩

theorem Distinct.put (h : Distinct entries) : Distinct (put key value entries) := by
  induction entries with
  | nil => exact List.pairwise_singleton _ _
  | cons first rest ih =>
    obtain ⟨hfirst, hrest⟩ := List.pairwise_cons.mp h
    rw [Collection.put]
    split
    · exact List.pairwise_cons.mpr ⟨hfirst, hrest⟩
    · next hne =>
      exact List.pairwise_cons.mpr ⟨sameKey_of_mem_put hfirst (by simpa using hne), ih hrest⟩

def Keyed : Collection → Prop
  | mapping entries => Distinct entries
  | _ => True

end Collection

namespace Document

/-- Every mapping of the document holds each key once. -/
def Keyed (doc : Document) : Prop := ∀ c ∈ doc.collections, c.Keyed

theorem Keyed.collectionAt {doc : Document} (h : doc.Keyed) (p : Place) :
    (doc.collectionAt p).Keyed := by
  rw [Document.collectionAt]
  cases hp : doc.collections[p]? with
  | none => trivial
  | some c => exact h c (Array.mem_of_getElem? hp)

def Building.Keyed (b : Building) : Prop := ∀ c ∈ b.collections, c.Keyed

def Gives {α : Type} (m : Build α) (P : α → Prop) : Prop :=
  ∀ ⦃b a b'⦄, m b = .ok (a, b') → b.Keyed → P a ∧ b'.Keyed

abbrev Keeps {α : Type} (m : Build α) : Prop := Gives m (fun _ => True)

section Steps

variable {α β : Type} {P : α → Prop} {Q : β → Prop}

theorem Gives.pure {a : α} (h : P a) : Gives (Pure.pure a : Build α) P := by
  intro b x b' hr hb
  cases hr
  exact ⟨h, hb⟩

theorem Keeps.pure (a : α) : Keeps (Pure.pure a : Build α) := Gives.pure trivial

theorem Gives.throw (fault : Fault) : Gives (MonadExcept.throw fault : Build α) P := by
  intro b a b' hr
  cases hr

theorem Gives.bind {m : Build α} {f : α → Build β} (hm : Gives m P)
    (hf : ∀ a, P a → Gives (f a) Q) : Gives (m >>= f) Q := by
  intro b c b' hr hb
  cases hs : m b with
  | error fault =>
    simp only [Bind.bind, StateT.bind, Except.bind, hs] at hr
    cases hr
  | ok p =>
    simp only [Bind.bind, StateT.bind, Except.bind, hs] at hr
    obtain ⟨ha, hb'⟩ := hm hs hb
    exact hf p.1 ha hr hb'

theorem Keeps.bind {m : Build α} {f : α → Build β} (hm : Keeps m) (hf : ∀ a, Gives (f a) Q) :
    Gives (m >>= f) Q :=
  Gives.bind hm fun a _ => hf a

theorem Gives.keeps {m : Build α} (h : Gives m P) : Keeps m :=
  fun _ _ _ hr hb => ⟨trivial, (h hr hb).2⟩

theorem Keeps.get : Keeps (MonadState.get : Build Building) := by
  intro b a b' hr hb
  cases hr
  exact ⟨trivial, hb⟩

theorem Keeps.modify {f : Building → Building} (h : ∀ b, b.Keyed → (f b).Keyed) :
    Keeps (modify f : Build Unit) := by
  intro b a b' hr hb
  cases hr
  exact ⟨trivial, h b hb⟩

theorem Keeps.mapM {f : α → Build β} (h : ∀ a, Keeps (f a)) (items : List α) :
    Keeps (items.mapM f) := by
  induction items with
  | nil => exact Keeps.pure _
  | cons a rest ih =>
    rw [List.mapM_cons]
    exact (h a).bind fun _ => ih.bind fun _ => Keeps.pure _

theorem Keeps.forM {f : α → Build Unit} (h : ∀ a, Keeps (f a)) (items : List α) :
    Keeps (items.forM f) := by
  induction items with
  | nil => exact Keeps.pure _
  | cons a rest ih =>
    exact (h a).bind fun _ => ih

theorem Keeps.filterM {α : Type} {f : α → Build Bool} (h : ∀ a, Keeps (f a)) (items : List α) :
    Keeps (items.filterM f) := by
  have haux : ∀ kept, Keeps (items.filterAuxM f kept) := by
    induction items with
    | nil => exact fun kept => Keeps.pure _
    | cons a rest ih => exact fun kept => (h a).bind fun b => ih _
  exact (haux []).bind fun _ => Keeps.pure _

end Steps

theorem nodeAt_keeps (p : Place) : Keeps (nodeAt p) := by
  rw [nodeAt]
  refine Keeps.get.bind fun b => ?_
  split
  · exact Keeps.pure _
  · exact Gives.throw _

theorem entriesAt_keeps (p : Place) : Keeps (entriesAt p) := by
  rw [entriesAt]
  refine (nodeAt_keeps p).bind fun n => ?_
  split
  · exact Keeps.pure _
  · exact Gives.throw _

theorem setNode_keeps (p : Place) (n : Node) : Keeps (setNode p n) := Keeps.modify fun _ hb => hb

theorem setEntries_keeps (p : Place) (entries : List (Place × Place)) :
    Keeps (setEntries p entries) :=
  (nodeAt_keeps p).bind fun _ => setNode_keeps p _

theorem splitAtMerge_keeps (entries : List (Place × Place)) : Keeps (splitAtMerge entries) := by
  induction entries with
  | nil => exact Keeps.pure _
  | cons e rest ih =>
    rw [splitAtMerge]
    refine (nodeAt_keeps e.1).bind fun n => ?_
    split
    · exact Keeps.pure _
    · exact ih.bind fun _ => Keeps.pure _

theorem nameDefault_keeps (k : Place) : Keeps (nameDefault k) := by
  rw [nameDefault]
  refine (nodeAt_keeps k).bind fun n => ?_
  split
  · exact setNode_keeps k _
  · exact Keeps.pure _

mutual

theorem flatten_keeps (fuel depth : Nat) (p : Place) : Keeps (flatten fuel depth p) := by
  cases fuel with
  | zero => exact Keeps.pure _
  | succ fuel =>
    rw [flatten]
    split
    · exact Gives.throw _
    · refine (entriesAt_keeps p).bind fun entries => ?_
      refine (splitAtMerge_keeps entries).bind fun parts => ?_
      split
      · refine (setEntries_keeps p _).bind fun _ => ?_
        refine (mergedEntries_keeps fuel (depth + 1) _).bind fun inherited => ?_
        refine (flatten_keeps fuel depth p).bind fun _ => ?_
        exact (entriesAt_keeps p).bind fun own => setEntries_keeps p _
      · exact Keeps.forM (fun e => nameDefault_keeps e.1) entries

theorem mergedEntries_keeps (fuel depth : Nat) (p : Place) :
    Keeps (mergedEntries fuel depth p) := by
  cases fuel with
  | zero => exact Keeps.pure _
  | succ fuel =>
    rw [mergedEntries]
    refine (nodeAt_keeps p).bind fun n => ?_
    split
    · exact (flatten_keeps fuel depth p).bind fun _ => entriesAt_keeps p
    · refine (Keeps.mapM (fun item => ?_) _).bind fun parts => Keeps.pure _
      refine (nodeAt_keeps item).bind fun n => ?_
      split
      · exact (flatten_keeps fuel depth item).bind fun _ => entriesAt_keeps item
      · exact Gives.throw _
    · exact Gives.throw _

end

end Document

end RuleHighlight.Yaml
