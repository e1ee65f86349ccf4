import RuleHighlight.Catalogue
import RuleHighlight.Proofs.Extents

namespace RuleHighlight

open CharClass

namespace Recogniser

variable {α : Type} {r : Recogniser α} {opener : List Char} {P : List Char → List Char → α → Prop}

def Opens (opener : List Char) (P : List Char → List Char → α → Prop) (r : Recogniser α) : Prop :=
  ∀ before rest a, r before rest = some a ↔ ∃ body, rest = opener ++ body ∧ P before body a

theorem Opens.fits {w : α → Nat} (h : r.Opens opener P)
    (hw : ∀ before body a, P before body a → w a ≤ body.length + opener.length) : r.Fits w := by
  intro before rest a ha
  obtain ⟨body, rfl, hP⟩ := (h before rest a).mp ha
  rw [List.length_append, Nat.add_comm]
  exact hw before body a hP

end Recogniser

namespace Pattern

theorem blockComment_opens :
    blockComment.Opens ['/', '*'] (fun _ body n => n = blockBody body + 2) := by
  intro before rest n
  rw [blockComment.eq_def]
  split
  · simp [eq_comm]
  · next h => simpa using fun body hb _ => h body hb

theorem lineComment_opens :
    lineComment.Opens ['/', '/'] (fun _ body n => n = lineWidth body + 2) := by
  intro before rest n
  rw [lineComment.eq_def]
  split
  · simp [eq_comm]
  · next h => simpa using fun body hb _ => h body hb

theorem directive_opens : directive.Opens ['#']
    (fun before body n => before.head?.all isLineEnd = true ∧ n = lineWidth body + 1) := by
  intro before rest n
  rw [directive.eq_def]
  split
  · by_cases hb : before.head?.all isLineEnd = true
    · simp [hb, eq_comm]
    · simp [hb]
  · next h => simpa using fun body hb _ _ => h body hb

theorem stringLiteral_opens :
    stringLiteral.Opens ['"'] (fun _ body n => n = literalBody body + 1) := by
  intro before rest n
  rw [stringLiteral.eq_def]
  split
  · simp [eq_comm]
  · next h => simpa using fun body hb _ => h body hb

theorem variableName_opens :
    variableName.Opens ['$'] (fun _ body n => n = (body.takeWhile isWord).length + 1) := by
  intro before rest n
  rw [variableName.eq_def]
  split
  · simp [eq_comm]
  · next h => simpa using fun body hb _ => h body hb

theorem followsSectionLabel_iff {before : List Char} :
    followsSectionLabel before = true ↔ ∃ label ∈ sectionLabels,
      ∃ body, before = label.toList.reverse ++ body ∧ body.head?.any isWord = false := by
  simp only [followsSectionLabel, List.any_eq_true, Bool.and_eq_true, List.isPrefixOf_iff_prefix,
    Bool.not_eq_true']
  refine exists_congr (fun label => and_congr_right (fun _ => ?_))
  constructor
  · rintro ⟨⟨body, rfl⟩, hbody⟩
    exact ⟨body, rfl, by rwa [List.drop_left] at hbody⟩
  · rintro ⟨body, rfl, hbody⟩
    exact ⟨List.prefix_append _ _, by rwa [List.drop_left]⟩

theorem blockBody_le (rest : List Char) : blockBody rest ≤ rest.length := by
  fun_induction blockBody rest with
  | case1 => simp
  | case2 => simp
  | case3 => simpa using ‹_›

theorem literalBody_cons {c : Char} (hc : c ≠ '\\') (rest : List Char) :
    literalBody (c :: rest) =
      if c = '"' then 1 else if isLineEnd c then 0 else literalBody rest + 1 := by
  rw [literalBody]
  · exact fun h _ => hc h
  · exact fun _ _ h _ => hc h

theorem ne_backslash {c : Char} {rest : List Char} (hnil : c = '\\' → rest = [] → False)
    (hcons : ∀ d ds, c = '\\' → rest = d :: ds → False) : c ≠ '\\' := by
  rintro rfl
  cases rest with
  | nil => exact hnil rfl rfl
  | cons d ds => exact hcons d ds rfl rfl

theorem literalBody_le (rest : List Char) : literalBody rest ≤ rest.length := by
  fun_induction literalBody rest <;> simp_all

theorem lineWidth_le (rest : List Char) : lineWidth rest ≤ rest.length :=
  (List.takeWhile_prefix _).length_le

theorem blockComment_fits : blockComment.Fits id := by
  apply blockComment_opens.fits
  rintro before body n rfl
  simpa using blockBody_le body

theorem lineComment_fits : lineComment.Fits id := by
  apply lineComment_opens.fits
  rintro before body n rfl
  simpa using lineWidth_le body

theorem directive_fits : directive.Fits id := by
  apply directive_opens.fits
  rintro before body n ⟨-, rfl⟩
  simpa using lineWidth_le body

theorem stringLiteral_fits : stringLiteral.Fits id := by
  apply stringLiteral_opens.fits
  rintro before body n rfl
  simpa using literalBody_le body

theorem variableName_fits : variableName.Fits id := by
  apply variableName_opens.fits
  rintro before body n rfl
  simpa using (List.takeWhile_prefix isWord).length_le

end Pattern

namespace Declaration

structure Parts (d : Declaration) (before rest gap name tail after : List Char) : Prop where
  text : rest = 'r' :: 'u' :: 'l' :: 'e' :: (gap ++ (name ++ (tail ++ '\x7b' :: after)))
  widths : d = ⟨gap.length, name.length, tail.length⟩
  boundary : before.head?.any isWord = false
  gap_ne_nil : gap ≠ []
  gap_blank : ∀ c ∈ gap, isBlank c = true
  name_isName : isName name = true
  name_word : ∀ c ∈ name, isWord c = true
  tail_blank : ∀ c ∈ tail, isBlank c = true

def reading (body : List Char) : Option Declaration :=
  let gap := body.takeWhile isBlank
  let afterGap := body.dropWhile isBlank
  let name := afterGap.takeWhile isWord
  let afterName := afterGap.dropWhile isWord
  let tail := afterName.takeWhile isBlank
  if gap.isEmpty || !isName name || (afterName.dropWhile isBlank).head? != some '\x7b' then none
  else some ⟨gap.length, name.length, tail.length⟩

theorem recognise_opens : Recogniser.Opens ['r', 'u', 'l', 'e']
    (fun before body d => before.head?.any isWord = false ∧ reading body = some d) recognise := by
  intro before rest d
  rw [recognise.eq_def]
  split
  · next body =>
    cases hb : before.head?.any isWord with
    | true => simp [hb]
    | false => simp [hb, reading]
  · next h => simpa using fun body hb _ _ => h body hb

theorem recognise_eq_some {before rest : List Char} {d : Declaration}
    (h : recognise before rest = some d) :
    ∃ gap name tail after, d.Parts before rest gap name tail after := by
  obtain ⟨body, rfl, hbefore, hbody⟩ := (recognise_opens before rest d).mp h
  simp only [reading] at hbody
  split at hbody
  · simp at hbody
  · next hc =>
    simp only [Bool.or_eq_true, not_or, Bool.not_eq_true, List.isEmpty_eq_false_iff,
      Bool.not_eq_false', bne_eq_false_iff_eq] at hc
    obtain ⟨⟨hgap, hname⟩, hbrace⟩ := hc
    obtain ⟨after, hafter⟩ := List.head?_eq_some_iff.mp hbrace
    refine ⟨_, _, _, after, ?_, (Option.some.inj hbody).symm, hbefore, hgap, ?_, hname, ?_, ?_⟩
    · rw [← hafter, List.takeWhile_append_dropWhile, List.takeWhile_append_dropWhile,
        List.takeWhile_append_dropWhile]
      rfl
    · exact fun c => List.mem_takeWhile_imp
    · exact fun c => List.mem_takeWhile_imp
    · exact fun c => List.mem_takeWhile_imp

theorem recognise_fits : Recogniser.Fits width recognise := by
  intro before rest d h
  obtain ⟨gap, name, tail, after, hd⟩ := recognise_eq_some h
  rw [hd.text, hd.widths]
  simp only [width, List.length_cons, List.length_append]
  omega

theorem words_bounded : Bounded words := by
  intro text e he
  obtain ⟨⟨i, d⟩, hx, rfl⟩ := List.mem_map.mp he
  have hle := Occurrence.add_width_le recognise_fits hx
  simp only [width] at hle ⊢
  omega

theorem names_bounded : Bounded names := by
  intro text e he
  obtain ⟨⟨i, d⟩, hx, rfl⟩ := List.mem_map.mp he
  have hle := Occurrence.add_width_le recognise_fits hx
  simp only [width] at hle ⊢
  omega

theorem words_ascending : Ascending words := by
  intro text
  rw [words, List.pairwise_map]
  exact (Occurrence.all_pairwise text).imp (fun h => h.1)

theorem names_ascending : Ascending names := by
  intro text
  rw [names, List.pairwise_map]
  refine (Occurrence.all_pairwise text).imp ?_
  rintro ⟨i, d⟩ ⟨j, d'⟩ ⟨-, h⟩
  simp only [width] at h ⊢
  omega

end Declaration

end RuleHighlight
