import RuleHighlight.Proofs.Render.StyleCode
import RuleHighlight.Proofs.Text.Integer

/-!
The form of the sequence that a style is set by, for every style there is. Its parameters are
numbers between semicolons, unless a component of the colour is negative: the two characters of a
component may be a minus sign and a digit, and then the sign is written out.
-/

namespace RuleHighlight

open Text.Integer

def Style.HasColor (style : Style) (r g b : Int) : Prop :=
  ∃ color r₁ r₂ g₁ g₂ b₁ b₂, style.color = some color ∧
    color.toList = ['#', r₁, r₂, g₁, g₂, b₁, b₂] ∧
    Denotes r₁ r₂ r ∧ Denotes g₁ g₂ g ∧ Denotes b₁ b₂ b

namespace Ansi

variable {style : Style} {r g b : Int}

def Numeral (p : List Char) : Prop := p ≠ [] ∧ ∀ c ∈ p, c.isDigit = true

def WellFormed (s : List Char) : Prop :=
  s = [] ∨ ∃ ps : List (List Char), ps ≠ [] ∧ (∀ p ∈ ps, Numeral p) ∧
    s = sequence ([';'].intercalate ps)

def select (ps : List (List Char)) : List Char :=
  if ps = [] then [] else sequence ([';'].intercalate ps)

def flags (style : Style) : List (List Char) :=
  (if style.bold then [['1']] else []) ++ (if style.italic then [['3']] else [])

def direct (r g b : Int) : List (List Char) :=
  [['3', '8'], ['2'], (toString r).toList, (toString g).toList, (toString b).toList]

theorem components?_eq_some_iff {color : String} : components? color = some (r, g, b) ↔
    ∃ r₁ r₂ g₁ g₂ b₁ b₂, color.toList = ['#', r₁, r₂, g₁, g₂, b₁, b₂] ∧
      Denotes r₁ r₂ r ∧ Denotes g₁ g₂ g ∧ Denotes b₁ b₂ b := by
  constructor
  · intro h
    rw [components?] at h
    split at h
    next r₁ r₂ g₁ g₂ b₁ b₂ hchars =>
      split at h
      next hr hg hb =>
        cases h
        exact ⟨r₁, r₂, g₁, g₂, b₁, b₂, hchars, read?_pair_iff.mp hr, read?_pair_iff.mp hg,
          read?_pair_iff.mp hb⟩
      · cases h
    · cases h
  · rintro ⟨r₁, r₂, g₁, g₂, b₁, b₂, hchars, hr, hg, hb⟩
    simp [components?, hchars, read?_pair_iff.mpr hr, read?_pair_iff.mpr hg, read?_pair_iff.mpr hb]

theorem hasColor_iff : style.HasColor r g b ↔ style.color.bind components? = some (r, g, b) := by
  simp [Style.HasColor, Option.bind_eq_some_iff, components?_eq_some_iff]

theorem intercalate_append {ps qs : List (List Char)} (hqs : qs ≠ []) :
    [';'].intercalate (ps ++ [[';'].intercalate qs]) = [';'].intercalate (ps ++ qs) := by
  induction ps with
  | nil => simp
  | cons p ps ih =>
    obtain ⟨q, qs', hq⟩ := List.exists_cons_of_ne_nil (l := ps ++ qs) (by simp [hqs])
    obtain ⟨q', qs'', hq'⟩ := List.exists_cons_of_ne_nil (l := ps ++ [[';'].intercalate qs]) (by simp)
    rw [List.cons_append, List.cons_append, hq, hq', List.intercalate_cons_cons,
      List.intercalate_cons_cons, ← hq, ← hq', ih]

theorem code_eq_select (style : Style) :
    code style = select ((parameters style).map String.toList) := by
  rw [code, select]
  cases hps : parameters style with
  | nil => rfl
  | cons p ps =>
    have hchars : (";".intercalate (p :: ps)).toList =
        [';'].intercalate ((p :: ps).map String.toList) := String.toList_intercalate
    rw [if_neg (by simp), sequence, ← hchars]
    rfl

theorem parameters_eq (style : Style) : (parameters style).map String.toList = flags style ++
    match style.color.bind components? with
    | some (r, g, b) => [[';'].intercalate (direct r g b)]
    | none => [] := by
  rw [parameters, flags]
  cases style.bold <;> cases style.italic <;> cases style.color.bind components? <;>
    simp [direct, List.intercalate_cons_cons]

theorem code_of_hasColor (h : style.HasColor r g b) :
    code style = select (flags style ++ direct r g b) := by
  have hne : direct r g b ≠ [] := by simp [direct]
  rw [code_eq_select, parameters_eq, hasColor_iff.mp h]
  simp [select, hne, intercalate_append hne]

theorem code_of_not_hasColor (h : ∀ r g b, ¬ style.HasColor r g b) :
    code style = select (flags style) := by
  rw [code_eq_select, parameters_eq]
  cases hcolor : style.color.bind components? with
  | none => simp
  | some x => exact absurd (hasColor_iff.mpr hcolor) (h _ _ _)

theorem numeral_of_mem_flags {p : List Char} (h : p ∈ flags style) : Numeral p := by
  have hone : Numeral ['1'] := by simp [Numeral]
  have hthree : Numeral ['3'] := by simp [Numeral]
  rcases List.mem_append.mp h with h | h
  · split_ifs at h
    · exact List.mem_singleton.mp h ▸ hone
    · cases h
  · split_ifs at h
    · exact List.mem_singleton.mp h ▸ hthree
    · cases h

theorem numeral_toString {n : Int} (h : 0 ≤ n) : Numeral (toString n).toList := by
  obtain ⟨m, rfl⟩ := Int.eq_ofNat_of_zero_le h
  have hchars : (toString (m : Int)).toList = Nat.toDigits 10 m := toList_toString_ofNat m
  rw [hchars]
  refine ⟨by simp, ?_⟩
  intro c hc
  exact Nat.isDigit_of_mem_toDigits (by omega) (by omega) hc

theorem minus_mem_toString {n : Int} (h : n < 0) : '-' ∈ (toString n).toList := by
  obtain ⟨m, rfl⟩ := Int.eq_negSucc_of_lt_zero h
  rw [toList_toString_negSucc]
  exact List.mem_cons_self

theorem wellFormed_select {ps : List (List Char)} (h : ∀ p ∈ ps, Numeral p) :
    WellFormed (select ps) := by
  rw [select]
  split_ifs with hps
  · exact Or.inl rfl
  · exact Or.inr ⟨ps, hps, h, rfl⟩

theorem mem_intercalate_iff {c : Char} (hc : c ≠ ';') {ps : List (List Char)} :
    c ∈ [';'].intercalate ps ↔ ∃ p ∈ ps, c ∈ p := by
  induction ps with
  | nil => simp
  | cons p ps ih =>
    cases ps with
    | nil => simp
    | cons q ps => simp [List.intercalate_cons_cons, ih, hc]

theorem WellFormed.minus_notMem {s : List Char} (h : WellFormed s) : '-' ∉ s := by
  rcases h with rfl | ⟨ps, -, hps, rfl⟩
  · simp
  · intro hminus
    have hmem : '-' ∈ [';'].intercalate ps := by simpa [sequence, escapeChar] using hminus
    obtain ⟨p, hp, hminus⟩ := (mem_intercalate_iff (by decide)).mp hmem
    cases (hps p hp).2 '-' hminus

theorem minus_mem_select {ps : List (List Char)} {p : List Char} (hp : p ∈ ps) (h : '-' ∈ p) :
    '-' ∈ select ps := by
  have hmem : '-' ∈ [';'].intercalate ps := (mem_intercalate_iff (by decide)).mpr ⟨p, hp, h⟩
  rw [select, if_neg (List.ne_nil_of_mem hp)]
  simp [sequence, hmem]

theorem wellFormed_of_hasColor (h : style.HasColor r g b) :
    WellFormed (code style) ↔ 0 ≤ r ∧ 0 ≤ g ∧ 0 ≤ b := by
  rw [code_of_hasColor h]
  constructor
  · intro hform
    have hpositive : ∀ n : Int, (toString n).toList ∈ direct r g b → 0 ≤ n := by
      intro n hn
      by_contra hneg
      have hminus := minus_mem_toString (Int.not_le.mp hneg)
      exact hform.minus_notMem (minus_mem_select (List.mem_append_right _ hn) hminus)
    exact ⟨hpositive r (by simp [direct]), hpositive g (by simp [direct]),
      hpositive b (by simp [direct])⟩
  · rintro ⟨hr, hg, hb⟩
    apply wellFormed_select
    intro p hp
    rcases List.mem_append.mp hp with hp | hp
    · exact numeral_of_mem_flags hp
    · simp only [direct, List.mem_cons, List.not_mem_nil, or_false] at hp
      rcases hp with rfl | rfl | rfl | rfl | rfl
      · simp [Numeral]
      · simp [Numeral]
      · exact numeral_toString hr
      · exact numeral_toString hg
      · exact numeral_toString hb

/-- The sequence of a style has the proper form if no component of its colour is negative, and only
then. A colour comes with three components between -15 and 255, and text that denotes none adds
nothing. -/
theorem code_wellFormed_iff (style : Style) :
    (WellFormed (code style) ↔
      ∀ r g b, style.HasColor r g b → 0 ≤ r ∧ 0 ≤ g ∧ 0 ≤ b) ∧
    (∀ r g b, style.HasColor r g b → (∀ n ∈ [r, g, b], -15 ≤ n ∧ n ≤ 255) ∧
      code style = select (flags style ++ direct r g b)) ∧
    ((∀ r g b, ¬ style.HasColor r g b) → code style = select (flags style)) := by
  refine ⟨⟨?_, ?_⟩, ?_, code_of_not_hasColor⟩
  · intro hform r g b h
    exact (wellFormed_of_hasColor h).mp hform
  · intro hcolor
    by_cases h : ∃ r g b, style.HasColor r g b
    · obtain ⟨r, g, b, h⟩ := h
      exact (wellFormed_of_hasColor h).mpr (hcolor r g b h)
    · push Not at h
      rw [code_of_not_hasColor h]
      exact wellFormed_select fun _ => numeral_of_mem_flags
  · intro r g b h
    obtain ⟨_, _, _, _, _, _, _, -, -, hr, hg, hb⟩ := id h
    refine ⟨?_, code_of_hasColor h⟩
    intro n hn
    simp only [List.mem_cons, List.not_mem_nil, or_false] at hn
    rcases hn with rfl | rfl | rfl
    · exact hr.bounds
    · exact hg.bounds
    · exact hb.bounds

theorem minus_in_code :
    code ⟨"cm-string", some "#-10000", false, false⟩ = "\x1b[38;2;-1;0;0m".toList ∧
      ¬ WellFormed (code ⟨"cm-string", some "#-10000", false, false⟩) := by
  have hcode : code ⟨"cm-string", some "#-10000", false, false⟩ =
      "\x1b[38;2;-1;0;0m".toList := by decide
  refine ⟨hcode, fun h => h.minus_notMem ?_⟩
  rw [hcode]
  decide

end Ansi

end RuleHighlight
