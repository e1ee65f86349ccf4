import RuleHighlight.Proofs.Text.Integer
import RuleHighlight.Render.Ansi
import RuleHighlight.Text.CharClass

namespace RuleHighlight

open CharClass Text.Integer

def IsHexColor (color : String) : Prop :=
  ∃ digits : List Char, color.toList = '#' :: digits ∧ digits.length = 6 ∧
    ∀ d ∈ digits, isHexDigit d = true

def StyleTable.HasHexColors (styles : StyleTable) : Prop :=
  ∀ c style, styles c = some style → ∀ color, style.color = some color → IsHexColor color

theorem hasHexColors_standard : (StyleTable.full Style.standard).HasHexColors := by
  rintro c style hstyle color hcolor
  obtain rfl := Option.some.inj hstyle
  cases c <;> obtain rfl := Option.some.inj hcolor <;>
    exact ⟨_, rfl, rfl, List.all_eq_true.mp rfl⟩

namespace Ansi

def isParameter (c : Char) : Bool := c.isDigit || c == ';'

def sequence (ps : List Char) : List Char := escapeChar :: '[' :: (ps ++ ['m'])

structure Sets (ps : List Char) : Prop where
  isParameter : ∀ c ∈ ps, isParameter c = true
  head_ne_zero : ps.head? ≠ some '0'

theorem isParameter_of_mem_repr {n : Nat} {c : Char} (h : c ∈ n.repr.toList) :
    isParameter c = true := by
  rw [Nat.toList_repr] at h
  have hdigit := Nat.isDigit_of_mem_toDigits (b := 10) (n := n) (by omega) (by omega) h
  rw [isParameter, hdigit, Bool.true_or]

theorem components?_of_isHexColor {color : String} {r g b : Int} (hcolor : IsHexColor color)
    (h : components? color = some (r, g, b)) : ∃ k l m : Nat, r = k ∧ g = l ∧ b = m := by
  obtain ⟨digits, hchars, -, hdigits⟩ := hcolor
  have hminus : '-' ∉ digits := fun hmem => by cases hdigits '-' hmem
  rw [components?, hchars] at h
  split at h
  next r₁ r₂ g₁ g₂ b₁ b₂ heq =>
    obtain rfl := (List.cons.inj heq).2
    split at h
    next r' g' b' hr hg hb =>
      cases h
      have hne {c : Char} (hc : c ∈ [r₁, r₂, g₁, g₂, b₁, b₂]) : c ≠ '-' :=
        ne_of_mem_of_not_mem hc hminus
      obtain ⟨k, hk⟩ := (read?_pair_iff.mp hr).exists_natCast (hne (by simp))
      obtain ⟨l, hl⟩ := (read?_pair_iff.mp hg).exists_natCast (hne (by simp))
      obtain ⟨m, hm⟩ := (read?_pair_iff.mp hb).exists_natCast (hne (by simp))
      exact ⟨k, l, m, hk, hl, hm⟩
    · cases h
  · cases h

theorem sets_color (k l m : Nat) :
    Sets ("38;2;" ++ toString (k : Int) ++ ";" ++ toString (l : Int) ++ ";" ++
      toString (m : Int)).toList := by
  have hrepr (n : Nat) : toString (n : Int) = n.repr := rfl
  have hmode : ∀ c ∈ "38;2;".toList, isParameter c = true := List.all_eq_true.mp rfl
  have hseparator : ∀ c ∈ ";".toList, isParameter c = true := List.all_eq_true.mp rfl
  simp only [hrepr, String.toList_append]
  refine ⟨?_, by simp⟩
  intro c hc
  simp only [List.mem_append] at hc
  rcases hc with ((((hc | hc) | hc) | hc) | hc) | hc
  · exact hmode c hc
  · exact isParameter_of_mem_repr hc
  · exact hseparator c hc
  · exact isParameter_of_mem_repr hc
  · exact hseparator c hc
  · exact isParameter_of_mem_repr hc

theorem sets_of_mem_parameters {style : Style} {p : String}
    (hcolor : ∀ color, style.color = some color → IsHexColor color)
    (h : p ∈ parameters style) : Sets p.toList := by
  rw [parameters, List.mem_append, List.mem_append] at h
  rcases h with (h | h) | h
  · split at h
    · obtain rfl := List.mem_singleton.mp h
      exact ⟨List.all_eq_true.mp rfl, by simp⟩
    · cases h
  · split at h
    · obtain rfl := List.mem_singleton.mp h
      exact ⟨List.all_eq_true.mp rfl, by simp⟩
    · cases h
  · split at h
    next r g b hread =>
      obtain ⟨color, hsome, hread⟩ := Option.bind_eq_some_iff.mp hread
      obtain ⟨k, l, m, rfl, rfl, rfl⟩ := components?_of_isHexColor (hcolor color hsome) hread
      obtain rfl := List.mem_singleton.mp h
      exact sets_color k l m
    · cases h

theorem sets_intercalate {p : List Char} {ps : List (List Char)} (h : ∀ q ∈ p :: ps, Sets q) :
    Sets ([';'].intercalate (p :: ps)) := by
  induction ps generalizing p with
  | nil =>
    rw [List.intercalate_singleton]
    exact h p List.mem_cons_self
  | cons q ps ih =>
    obtain ⟨hp, hps⟩ := List.forall_mem_cons.mp h
    have hrest := ih hps
    rw [List.intercalate_cons_cons]
    constructor
    · intro c hc
      rw [List.mem_append, List.mem_append, List.mem_singleton] at hc
      rcases hc with (hc | rfl) | hc
      · exact hp.isParameter c hc
      · rfl
      · exact hrest.isParameter c hc
    · -- Behind an empty part the separator comes first.
      cases p with
      | nil => simp
      | cons d p => exact hp.head_ne_zero

theorem code_eq {style : Style} (hcolor : ∀ color, style.color = some color → IsHexColor color) :
    code style = [] ∨ ∃ ps, Sets ps ∧ code style = sequence ps := by
  cases hps : parameters style with
  | nil =>
    left
    rw [code, hps]
  | cons p ps =>
    right
    refine ⟨[';'].intercalate (p.toList :: ps.map String.toList), sets_intercalate ?_, ?_⟩
    · intro q hq
      obtain ⟨q', hq', rfl⟩ : ∃ q' ∈ p :: ps, q'.toList = q := List.mem_map.mp hq
      exact sets_of_mem_parameters hcolor (hps ▸ hq')
    · have hchars : (";".intercalate (p :: ps)).toList =
          [';'].intercalate (p.toList :: ps.map String.toList) := String.toList_intercalate
      rw [code, hps, ← hchars]
      rfl

end Ansi

end RuleHighlight
