import Mathlib.Order.Bounds.Basic
import RuleHighlight.Proofs.Resolution
import RuleHighlight.Proofs.Text.Integer

namespace RuleHighlight

open Candidate
open Text.Integer (Writable print not_writable_leastOverlong)

namespace Emission

variable {index : Nat} {last : Option Int} {c : Candidate} {cs : List Candidate}

theorem faultOf?_eq_some_iff {fault : EmissionFault} :
    faultOf? last c = some fault ↔
      (c.stop ≤ c.start ∧ fault = .emptyRange c.start c.stop) ∨
      (c.start < c.stop ∧ ∃ stop ∈ last, c.start < stop ∧ fault = .overlapsPrevious c.start stop) := by
  by_cases hne : c.start < c.stop
  · have hle : ¬ c.stop ≤ c.start := Int.not_le.mpr hne
    simp only [faultOf?, isEmpty_eq_false.mpr hne]
    cases last with
    | none => simp [hle]
    | some stop =>
      by_cases hearly : c.start < stop <;> simp [hle, hne, hearly, eq_comm]
  · have hempty : c.isEmpty = true := decide_eq_true (Int.not_lt.mp hne)
    simp [faultOf?, hempty, hne, Int.not_lt.mp hne, eq_comm]

theorem run_cons_eq_ok_iff {spans : List Span} :
    run index last (c :: cs) = .ok spans ↔ faultOf? last c = none ∧
      ∃ rest, run (index + 1) (some c.stop) cs = .ok rest ∧ spans = c.toSpan :: rest := by
  rw [run]
  cases faultOf? last c with
  | some fault => simp
  | none => cases run (index + 1) (some c.stop) cs <;> simp [eq_comm]

theorem run_cons_eq_error_iff {e : EmissionError} :
    run index last (c :: cs) = .error e ↔
      (∃ fault, faultOf? last c = some fault ∧ e = fault.raise index) ∨
      (faultOf? last c = none ∧ run (index + 1) (some c.stop) cs = .error e) := by
  rw [run]
  cases faultOf? last c with
  | some fault => simp [eq_comm]
  | none => cases run (index + 1) (some c.stop) cs <;> simp

def stopBefore? (last : Option Int) (cs : List Candidate) : Nat → Option Int
  | 0 => last
  | i + 1 => cs[i]?.map (·.stop)

def faultAt? (last : Option Int) (cs : List Candidate) (i : Nat) : Option EmissionFault :=
  cs[i]?.bind (faultOf? (stopBefore? last cs i))

@[simp]
theorem faultAt?_cons_succ (last : Option Int) (i : Nat) :
    faultAt? last (c :: cs) (i + 1) = faultAt? (some c.stop) cs i := by
  cases i <;> rfl

theorem run_eq_ok_iff {spans : List Span} :
    run index last cs = .ok spans ↔
      (∀ i, faultAt? last cs i = none) ∧ spans = cs.map toSpan := by
  induction cs generalizing index last spans with
  | nil => simp [run, faultAt?, eq_comm]
  | cons c cs ih =>
    rw [run_cons_eq_ok_iff]
    constructor
    · rintro ⟨hfirst, rest, hrun, rfl⟩
      obtain ⟨hrest, rfl⟩ := ih.mp hrun
      refine ⟨fun i => ?_, rfl⟩
      cases i with
      | zero => exact hfirst
      | succ i => rw [faultAt?_cons_succ, hrest]
    · rintro ⟨hnone, rfl⟩
      have hrest : ∀ i, faultAt? (some c.stop) cs i = none := fun i => by
        rw [← faultAt?_cons_succ last, hnone]
      exact ⟨hnone 0, _, ih.mpr ⟨hrest, rfl⟩, rfl⟩

theorem run_eq_error_iff {e : EmissionError} :
    run index last cs = .error e ↔ ∃ i fault, faultAt? last cs i = some fault ∧
      (∀ j < i, faultAt? last cs j = none) ∧ e = fault.raise (index + i) := by
  induction cs generalizing index last with
  | nil => simp [run, faultAt?]
  | cons c cs ih =>
    rw [run_cons_eq_error_iff, ih]
    -- A place in the rest is one further on in the list, so the first one is the case of its own.
    constructor
    · rintro (⟨fault, hfault, rfl⟩ | ⟨hnone, i, fault, hfault, hfirst, rfl⟩)
      · exact ⟨0, fault, hfault, fun j hj => absurd hj (Nat.not_lt_zero j), rfl⟩
      · refine ⟨i + 1, fault, by rwa [faultAt?_cons_succ], fun j hj => ?_, by congr 1; omega⟩
        cases j with
        | zero => exact hnone
        | succ j => rw [faultAt?_cons_succ, hfirst j (Nat.lt_of_succ_lt_succ hj)]
    · rintro ⟨i, fault, hfault, hfirst, rfl⟩
      cases i with
      | zero => exact Or.inl ⟨fault, hfault, rfl⟩
      | succ i =>
        rw [faultAt?_cons_succ] at hfault
        refine Or.inr ⟨hfirst 0 (Nat.succ_pos i), i, fault, hfault, fun j hj => ?_, by congr 1; omega⟩
        rw [← faultAt?_cons_succ last, hfirst (j + 1) (Nat.succ_lt_succ hj)]

def EmptyAt (cs : List Candidate) (i : Nat) : Prop := ∃ c ∈ cs[i]?, c.stop ≤ c.start

def EarlyAt (cs : List Candidate) (i : Nat) : Prop :=
  ∃ j, i = j + 1 ∧ ∃ p ∈ cs[j]?, ∃ c ∈ cs[i]?, c.start < p.stop

def naming (i : Nat) (start stop : Int) (text : String) : EmissionError :=
  if (Writable start ∧ Writable stop) ∧ Writable i then
    .order i ("span #" ++ toString i ++ ": " ++ text)
  else .size .tooManyDigits

/-- What is said of a candidate that is out of place. An empty one is called empty, early or not. -/
inductive Reports (cs : List Candidate) : Nat → EmissionError → Prop
  | emptyRange {i : Nat} {c : Candidate} (hc : cs[i]? = some c) (hempty : c.stop ≤ c.start) :
    Reports cs i (naming i c.start c.stop
      ("empty range [" ++ toString c.start ++ ", " ++ toString c.stop ++ ")"))
  | overlapsPrevious {i : Nat} {p c : Candidate} (hp : cs[i]? = some p)
      (hc : cs[i + 1]? = some c) (hne : c.start < c.stop) (hearly : c.start < p.stop) :
    Reports cs (i + 1) (naming (i + 1) c.start p.stop
      ("starts at " ++ toString c.start ++ " before previous span ends at " ++ toString p.stop))

theorem raise_eq_naming {fault : EmissionFault} {start stop : Int} {text : String} (i : Nat)
    (h : fault.message =
      if Writable start ∧ Writable stop then .ok text else .error .tooManyDigits) :
    fault.raise i = naming i start stop text := by
  unfold EmissionFault.raise naming
  rw [h]
  by_cases hoffsets : Writable start ∧ Writable stop
  · by_cases hi : Writable i
    · simp [hoffsets, hi, spanMessage, print, Except.bind]
      rfl
    · simp [hoffsets, hi, spanMessage, print, Except.bind]
  · simp [hoffsets, Except.bind]

theorem raise_emptyRange (i : Nat) (start stop : Int) :
    (EmissionFault.emptyRange start stop).raise i = naming i start stop
      ("empty range [" ++ toString start ++ ", " ++ toString stop ++ ")") := by
  apply raise_eq_naming
  by_cases hstart : Writable start <;> by_cases hstop : Writable stop <;>
    simp [EmissionFault.message, print, hstart, hstop] <;> rfl

theorem raise_overlapsPrevious (i : Nat) (start previousStop : Int) :
    (EmissionFault.overlapsPrevious start previousStop).raise i = naming i start previousStop
      ("starts at " ++ toString start ++ " before previous span ends at " ++
        toString previousStop) := by
  apply raise_eq_naming
  by_cases hstart : Writable start <;> by_cases hstop : Writable previousStop <;>
    simp [EmissionFault.message, print, hstart, hstop] <;> rfl

theorem mem_stopBefore?_iff {i : Nat} {stop : Int} :
    stop ∈ stopBefore? none cs i ↔ ∃ j, i = j + 1 ∧ ∃ p ∈ cs[j]?, p.stop = stop := by
  cases i with
  | zero => simp [stopBefore?]
  | succ i => simp [stopBefore?]

theorem faultAt?_eq_some_iff {i : Nat} {fault : EmissionFault} :
    faultAt? last cs i = some fault ↔
      ∃ c ∈ cs[i]?, faultOf? (stopBefore? last cs i) c = some fault :=
  Option.bind_eq_some_iff

theorem reports_iff {i : Nat} {e : EmissionError} :
    Reports cs i e ↔ ∃ fault, faultAt? none cs i = some fault ∧ e = fault.raise i := by
  simp only [faultAt?_eq_some_iff, faultOf?_eq_some_iff, mem_stopBefore?_iff]
  constructor
  · intro h
    cases h with
    | emptyRange hc hempty =>
      exact ⟨_, ⟨_, hc, Or.inl ⟨hempty, rfl⟩⟩, (raise_emptyRange _ _ _).symm⟩
    | overlapsPrevious hp hc hne hearly =>
      exact ⟨_, ⟨_, hc, Or.inr ⟨hne, _, ⟨_, rfl, _, hp, rfl⟩, hearly, rfl⟩⟩,
        (raise_overlapsPrevious _ _ _).symm⟩
  · rintro ⟨_, ⟨c, hc, ⟨hempty, rfl⟩ | ⟨hne, _, ⟨j, rfl, p, hp, rfl⟩, hearly, rfl⟩⟩, he⟩
    · rw [he, raise_emptyRange]
      exact .emptyRange hc hempty
    · rw [he, raise_overlapsPrevious]
      exact .overlapsPrevious hp hc hne hearly

theorem exists_faultAt?_iff {i : Nat} :
    (∃ fault, faultAt? none cs i = some fault) ↔ EmptyAt cs i ∨ EarlyAt cs i := by
  simp only [faultAt?_eq_some_iff, faultOf?_eq_some_iff, mem_stopBefore?_iff]
  constructor
  · rintro ⟨fault, c, hc, ⟨hempty, -⟩ | ⟨-, _, ⟨j, rfl, p, hp, rfl⟩, hearly, -⟩⟩
    · exact Or.inl ⟨c, hc, hempty⟩
    · exact Or.inr ⟨j, rfl, p, hp, c, hc, hearly⟩
  · rintro (⟨c, hc, hempty⟩ | ⟨j, rfl, p, hp, c, hc, hearly⟩)
    · exact ⟨_, c, hc, Or.inl ⟨hempty, rfl⟩⟩
    · by_cases hne : c.start < c.stop
      · exact ⟨_, c, hc, Or.inr ⟨hne, _, ⟨j, rfl, p, hp, rfl⟩, hearly, rfl⟩⟩
      · exact ⟨_, c, hc, Or.inl ⟨Int.not_lt.mp hne, rfl⟩⟩

theorem faultAt?_eq_none_iff {i : Nat} :
    faultAt? none cs i = none ↔ ¬ (EmptyAt cs i ∨ EarlyAt cs i) := by
  rw [← exists_faultAt?_iff, Option.eq_none_iff_forall_ne_some, not_exists]

theorem forall_not_emptyAt_iff : (∀ i, ¬ EmptyAt cs i) ↔ ∀ c ∈ cs, c.start < c.stop := by
  constructor
  · intro hnone c hc
    obtain ⟨i, hi⟩ := List.mem_iff_getElem?.mp hc
    exact Int.not_le.mp fun hempty => hnone i ⟨c, hi, hempty⟩
  · rintro hne i ⟨c, hc, hempty⟩
    exact Int.not_lt.mpr hempty (hne c (List.mem_of_getElem? hc))

theorem forall_not_earlyAt_iff :
    (∀ i, ¬ EarlyAt cs i) ↔ cs.IsChain (fun a b => a.stop ≤ b.start) := by
  rw [List.isChain_iff_getElem]
  constructor
  · intro hnone i hi
    refine Int.not_lt.mp fun hearly => hnone (i + 1) ⟨i, rfl, cs[i], ?_, cs[i + 1], ?_, hearly⟩
    · exact List.getElem?_eq_getElem (Nat.lt_of_succ_lt hi)
    · exact List.getElem?_eq_getElem hi
  · rintro hchain _ ⟨i, rfl, p, hp, c, hc, hearly⟩
    obtain ⟨_, rfl⟩ := List.getElem?_eq_some_iff.mp hp
    obtain ⟨hi, rfl⟩ := List.getElem?_eq_some_iff.mp hc
    exact Int.not_lt.mpr (hchain i hi) hearly

end Emission

/-- A list goes through as it is if no candidate is empty and each one but the first starts at or
behind the stop of the one in front of it. Otherwise the first place where this fails is reported,
unless an offset to be named has too many digits to be written. -/
theorem emit_ok_or_reports_first (cs : List Candidate) :
    (∀ spans, emit cs = .ok spans ↔ (∀ c ∈ cs, c.start < c.stop) ∧
      cs.IsChain (fun a b => a.stop ≤ b.start) ∧ spans = cs.map toSpan) ∧
    ∀ e, emit cs = .error e ↔
      ∃ i, IsLeast {i | Emission.EmptyAt cs i ∨ Emission.EarlyAt cs i} i ∧
        Emission.Reports cs i e := by
  constructor
  · intro spans
    rw [emit, Emission.run_eq_ok_iff, ← Emission.forall_not_emptyAt_iff,
      ← Emission.forall_not_earlyAt_iff, ← and_assoc, ← forall_and]
    simp only [Emission.faultAt?_eq_none_iff, not_or]
  · intro e
    rw [emit, Emission.run_eq_error_iff]
    refine exists_congr fun i => ?_
    rw [Emission.reports_iff]
    simp only [Emission.faultAt?_eq_none_iff, Nat.zero_add]
    constructor
    · rintro ⟨fault, hfault, hfirst, rfl⟩
      have hviolates := Emission.exists_faultAt?_iff.mp ⟨fault, hfault⟩
      refine ⟨⟨hviolates, fun j hj => ?_⟩, fault, hfault, rfl⟩
      by_contra hlt
      exact hfirst j (Nat.lt_of_not_le hlt) hj
    · rintro ⟨hleast, fault, hfault, rfl⟩
      exact ⟨fault, hfault, fun j hj hmem => Nat.not_lt.mpr (hleast.2 hmem) hj, rfl⟩

theorem emit_singleton_of_not_writable {c : Candidate} (hempty : c.isEmpty = true)
    (hstart : ¬ Writable c.start) : emit [c] = .error (.size .tooManyDigits) := by
  simp only [emit, Emission.run, Emission.faultOf?, hempty, if_true, Emission.raise_emptyRange,
    Emission.naming, hstart, false_and, if_false]

theorem empty_range_not_named :
    emit [⟨⟨Text.leastOverlong, 0⟩, .atom, 6⟩] = .error (.size .tooManyDigits) :=
  emit_singleton_of_not_writable (decide_eq_true (Int.natCast_nonneg _)) not_writable_leastOverlong

-- The first one may start anywhere. The second one is early as well as empty.
example : emit [⟨⟨-4, -1⟩, .atom, 6⟩, ⟨⟨-2, -2⟩, .atom, 6⟩] =
    .error (.order 1 "span #1: empty range [-2, -2)") := by
  decide +kernel

end RuleHighlight
