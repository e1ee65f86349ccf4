import RuleHighlight.Proofs.Pattern.LiteralSearch

namespace RuleHighlight

open CharClass Pattern

namespace LiteralReader

inductive Mode
  | outside
  | inside (start : Nat)
  deriving DecidableEq, Repr

structure State where
  mode : Mode
  pos : Nat
  rest : List Char
  found : List Extent
  deriving DecidableEq, Repr

def State.initial (text : List Char) : State := ⟨.outside, 0, text, []⟩

inductive Step : State → State → Prop
  | pass {pos c rest found} (hquote : c ≠ '"') :
      Step ⟨.outside, pos, c :: rest, found⟩ ⟨.outside, pos + 1, rest, found⟩
  | enter {pos rest found} :
      Step ⟨.outside, pos, '"' :: rest, found⟩ ⟨.inside pos, pos + 1, rest, found⟩
  | take {start pos c rest found} (hquote : c ≠ '"') (hslash : c ≠ '\\')
      (hline : isLineEnd c = false) :
      Step ⟨.inside start, pos, c :: rest, found⟩ ⟨.inside start, pos + 1, rest, found⟩
  | escape {start pos c rest found} (hline : isLineEnd c = false) :
      Step ⟨.inside start, pos, '\\' :: c :: rest, found⟩ ⟨.inside start, pos + 2, rest, found⟩
  | quote {start pos rest found} :
      Step ⟨.inside start, pos, '"' :: rest, found⟩
        ⟨.outside, pos + 1, rest, found ++ [⟨start, pos + 1⟩]⟩
  | lineEnd {start pos c rest found} (hline : isLineEnd c = true) :
      Step ⟨.inside start, pos, c :: rest, found⟩
        ⟨.outside, pos, c :: rest, found ++ [⟨start, pos⟩]⟩
  | dangling {start pos rest found} (hline : rest.head?.all isLineEnd = true) :
      Step ⟨.inside start, pos, '\\' :: rest, found⟩
        ⟨.outside, pos + 1, rest, found ++ [⟨start, pos + 1⟩]⟩
  | textEnd {start pos found} :
      Step ⟨.inside start, pos, [], found⟩ ⟨.outside, pos, [], found ++ [⟨start, pos⟩]⟩

def Yields (text : List Char) (found : List Extent) : Prop :=
  ∃ s, Relation.ReflTransGen Step (.initial text) s ∧ (∀ s', ¬ Step s s') ∧ s.found = found

-- Before a line end the automaton closes a literal without reading on, so the mode counts too.
def State.size (s : State) : Nat :=
  2 * s.rest.length + match s.mode with
    | .outside => 0
    | .inside _ => 1

theorem Step.size_lt {s s' : State} (h : Step s s') : s'.size < s.size := by
  cases h <;> simp only [State.size, List.length_cons, List.length_nil] <;> omega

theorem wellFounded_step : WellFounded (fun s' s => Step s s') :=
  Subrelation.wf Step.size_lt (measure State.size).wf

theorem exists_step_inside (start pos : Nat) (rest : List Char) (found : List Extent) :
    ∃ s', Step ⟨.inside start, pos, rest, found⟩ s' := by
  cases rest with
  | nil => exact ⟨_, .textEnd⟩
  | cons c rest =>
    by_cases hquote : c = '"'
    · subst hquote
      exact ⟨_, .quote⟩
    by_cases hline : isLineEnd c = true
    · exact ⟨_, .lineEnd hline⟩
    rw [Bool.not_eq_true] at hline
    by_cases hslash : c = '\\'
    · subst hslash
      cases rest with
      | nil => exact ⟨_, .dangling rfl⟩
      | cons d rest =>
        by_cases hd : isLineEnd d = true
        · exact ⟨_, .dangling hd⟩
        · exact ⟨_, .escape (Bool.eq_false_iff.mpr hd)⟩
    · exact ⟨_, .take hquote hslash hline⟩

theorem eq_outside_of_stuck {s : State} (h : ∀ s', ¬ Step s s') :
    s.mode = .outside ∧ s.rest = [] := by
  obtain ⟨mode, pos, rest, found⟩ := s
  cases mode with
  | inside start =>
    obtain ⟨s', hs'⟩ := exists_step_inside start pos rest found
    exact absurd hs' (h s')
  | outside =>
    cases rest with
    | nil => exact ⟨rfl, rfl⟩
    | cons c rest =>
      by_cases hquote : c = '"'
      · subst hquote
        exact absurd .enter (h _)
      · exact absurd (.pass hquote) (h _)

def literalsFrom (pos : Nat) (rest : List Char) : List Extent :=
  (Occurrence.walk stringLiteral id 0 pos [] rest).map (fun (pos, width) => ⟨pos, pos + width⟩)

theorem walk_eq_literalsFrom (k pos : Nat) (before rest : List Char) :
    (Occurrence.walk stringLiteral id k pos before rest).map
        (fun (pos, width) => (⟨pos, pos + width⟩ : Extent)) =
      literalsFrom (pos + k) (rest.drop k) := by
  have hblind (outer : List Char) : stringLiteral.within outer [] = stringLiteral := by
    funext before rest
    rw [Recogniser.within, List.append_nil]
    exact Option.ext fun n =>
      (stringLiteral_opens (before ++ outer) rest n).trans (stringLiteral_opens before rest n).symm
  have hbehind := Occurrence.walk_behind (r := stringLiteral) (w := id) 0 (pos + k) []
    ((rest.take k).reverse ++ before) (rest.drop k)
  rw [Occurrence.walk_covered, literalsFrom, ← List.nil_append ((rest.take k).reverse ++ before),
    hbehind, hblind]

@[simp]
theorem literalsFrom_cons {c : Char} (hc : c ≠ '"') (pos : Nat) (rest : List Char) :
    literalsFrom pos (c :: rest) = literalsFrom (pos + 1) rest := by
  have hnone : stringLiteral [] (c :: rest) = none := by
    rw [stringLiteral.eq_def]
    split
    · next h => exact absurd (List.cons.inj h).1 hc
    · rfl
  rw [literalsFrom, Occurrence.walk_zero_of_none id pos hnone]
  exact walk_eq_literalsFrom 0 (pos + 1) [c] rest

@[simp]
theorem literalsFrom_quote (pos : Nat) (rest : List Char) :
    literalsFrom pos ('"' :: rest) =
      ⟨pos, pos + 1 + literalBody rest⟩ ::
        literalsFrom (pos + 1 + literalBody rest) (rest.drop (literalBody rest)) := by
  have hsome : stringLiteral [] ('"' :: rest) = some (literalBody rest + 1) := rfl
  rw [literalsFrom, Occurrence.walk_zero_of_some id pos hsome, ← walk_eq_literalsFrom _ _ ['"']]
  simp only [List.map_cons, id_eq, Nat.add_sub_cancel, Nat.add_assoc, Nat.add_comm 1]

def State.literals (s : State) : List Extent :=
  match s.mode with
  | .outside => s.found ++ literalsFrom s.pos s.rest
  | .inside start =>
    s.found ++ [⟨start, s.pos + literalBody s.rest⟩] ++
      literalsFrom (s.pos + literalBody s.rest) (s.rest.drop (literalBody s.rest))

theorem Step.literals_eq {s s' : State} (h : Step s s') : s'.literals = s.literals := by
  cases h with
  | pass hquote => simp [State.literals, hquote]
  | enter => simp [State.literals]
  | take hquote hslash hline =>
    simp only [State.literals, literalBody_cons hslash, if_neg hquote, hline,
      Bool.false_eq_true, if_false, List.drop_succ_cons, Nat.add_assoc, Nat.add_comm 1]
  | escape hline =>
    simp only [State.literals, literalBody, hline, Bool.false_eq_true, if_false,
      List.drop_succ_cons, Nat.add_assoc, Nat.add_comm 2]
  | quote => rfl
  | lineEnd hline =>
    simp [State.literals, hline]
  | dangling hline => simp [State.literals, hline]
  | textEnd => rfl

theorem literals_eq_of_run {s s' : State} (h : Relation.ReflTransGen Step s s') :
    s'.literals = s.literals := by
  induction h with
  | refl => rfl
  | tail _ hstep ih => rw [hstep.literals_eq, ih]

theorem yields_iff {text : List Char} {found : List Extent} :
    Yields text found ↔ found = stringLiterals text := by
  have hfound {s : State} (hrun : Relation.ReflTransGen Step (.initial text) s)
      (hstuck : ∀ s', ¬ Step s s') : s.found = stringLiterals text := by
    obtain ⟨hmode, hrest⟩ := eq_outside_of_stuck hstuck
    have hliterals := literals_eq_of_run hrun
    rw [State.literals, hmode, hrest] at hliterals
    exact (List.append_nil s.found).symm.trans hliterals
  constructor
  · rintro ⟨s, hrun, hstuck, rfl⟩
    exact hfound hrun hstuck
  · rintro rfl
    obtain ⟨s, hrun, hstuck⟩ := exists_stuck_of_wellFounded wellFounded_step (.initial text)
    exact ⟨s, hrun, hstuck, hfound hrun hstuck⟩

theorem start_lt_stop_of_mem {text : List Char} {e : Extent} (he : e ∈ stringLiterals text) :
    e.start < e.stop := by
  obtain ⟨before, rest, n, -, rfl, hr⟩ := Occurrence.mem_extents he
  obtain ⟨body, -, rfl⟩ := (stringLiteral_opens before rest n).mp hr
  simp only
  omega

theorem exists_mem_of_quote {text : List Char} {i : Nat} (hi : text[i]? = some '"') :
    ∃ e ∈ stringLiterals text, e.start ≤ i ∧ i < e.stop := by
  obtain ⟨hlt, hquote⟩ := List.getElem?_eq_some_iff.mp hi
  have hr : stringLiteral (text.take i).reverse (text.drop i) =
      some (literalBody (text.drop (i + 1)) + 1) := by
    rw [List.drop_eq_getElem_cons hlt, hquote]
    rfl
  exact Occurrence.exists_mem_extents hlt hr (Nat.succ_pos _)

/-- The automaton stops on every text and has then yielded the literals. They stand apart and in
order, each in its line, and every quote lies in one. A search from stop to stop comes to its end as
well, inside each literal and over the text, and finds the same literals. -/
theorem yields_iff_eq_stringLiterals (text : List Char) :
    Acc (fun s' s => Step s s') (.initial text) ∧
    (∀ found, Yields text found ↔ found = stringLiterals text) ∧
    (stringLiterals text).Pairwise (fun a b => a.stop ≤ b.start) ∧
    (∀ e ∈ stringLiterals text, e.start < e.stop ∧ e.stop ≤ text.length ∧
      ∀ i c, e.start ≤ i → i < e.stop → text[i]? = some c → isLineEnd c = false) ∧
    (∀ i, text[i]? = some '"' → ∃ e ∈ stringLiterals text, e.start ≤ i ∧ i < e.stop) ∧
    (∀ i, ∃ stop, LiteralCloses text i stop) ∧
    WellFounded (fun t' t => (literals text).Step t t') ∧
    ∀ found, (literals text).Yields found ↔ found = stringLiterals text := by
  refine ⟨wellFounded_step.apply _, fun _ => yields_iff, Occurrence.extents_disjoint _ text, ?_,
    fun _ => exists_mem_of_quote, exists_literalCloses, (literals_within text).wellFounded_step,
    fun _ => (literals_decomposes text).yields_iff (literals_within text)⟩
  intro e he
  refine ⟨start_lt_stop_of_mem he, (Occurrence.extents_bounded stringLiteral_fits text e he).2, ?_⟩
  intro i c hstart hstop hc
  simpa using stringLiterals_madeOf text e he i c hstart hstop hc

-- After a backslash that has nothing on its line to take, the next quote opens a literal.
example : stringLiterals ['"', 'a', '\\', '\r', '"', 'b'] = [⟨0, 3⟩, ⟨4, 6⟩] := by decide

end LiteralReader

end RuleHighlight
