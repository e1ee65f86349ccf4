import RuleHighlight.Proofs.CatalogueOrder
import RuleHighlight.Proofs.Pattern.Edges

namespace RuleHighlight

open CharClass

def CharClass.AtStop (c : Char) (b : Option Char) : Prop := isWord c = true → b.any isWord = false

def EndWith (q : Char → Option Char → Prop) (f : List Char → List Extent) : Prop :=
  ∀ text, ∀ e ∈ f text, ∃ c, Text.previous? text e.stop = some c ∧ q c text[e.stop]?

theorem MadeOf.imp {p q : Char → Bool} {f : List Char → List Extent} (h : MadeOf p f)
    (hpq : ∀ c, p c = true → q c = true) : MadeOf q f :=
  fun text e he i c hstart hstop hc => hpq c (h text e he i c hstart hstop hc)

theorem EndWith.imp {q q' : Char → Option Char → Prop} {f : List Char → List Extent}
    (h : EndWith q f) (hq : ∀ c b, q c b → q' c b) : EndWith q' f := by
  intro text e he
  obtain ⟨c, hc, hends⟩ := h text e he
  exact ⟨c, hc, hq c _ hends⟩

namespace Text

@[simp]
theorem any_getElem?_takeWhile (p : Char → Bool) (text : List Char) :
    text[(text.takeWhile p).length]?.any p = false := by
  rw [getElem?_length_takeWhile, any_head?_dropWhile]

theorem exists_getElem?_cons {text : List Char} {n : Nat} (h : n ≤ text.length) (a : Char) :
    ∃ c, (a :: text)[n]? = some c :=
  ⟨_, List.getElem?_eq_getElem (by rw [List.length_cons]; omega)⟩

end Text

namespace Occurrence

variable {r : Recogniser Nat}

theorem extents_endWith {q : Char → Option Char → Prop}
    (h : ∀ before rest n, r before rest = some n →
      ∃ m c, n = m + 1 ∧ rest[m]? = some c ∧ q c rest[m + 1]?) :
    EndWith q (extents r) := by
  intro text e he
  obtain ⟨before, rest, n, rfl, rfl, hr⟩ := mem_extents he
  obtain ⟨m, c, rfl, hc, hq⟩ := h before rest n hr
  rw [← Text.getElem?_append_place before] at hc hq
  exact ⟨c, Text.previous?_eq_getElem? hc, hq⟩

end Occurrence

theorem Recogniser.Opens.isPrefix_of_mem {r : Recogniser Nat} {opener : List Char}
    {P : List Char → List Char → Nat → Prop} (h : r.Opens opener P)
    (hw : ∀ before body n, P before body n → opener.length ≤ n) {text : List Char} {e : Extent}
    (he : e ∈ Occurrence.extents r text) :
    opener <+: (text.drop e.start).take (e.stop - e.start) := by
  obtain ⟨before, rest, n, rfl, rfl, hr⟩ := Occurrence.mem_extents he
  obtain ⟨body, rfl, hP⟩ := (h before rest n).mp hr
  obtain ⟨m, rfl⟩ := Nat.exists_eq_add_of_le (hw before body n hP)
  rw [Nat.add_sub_cancel_left, List.drop_left' List.length_reverse, List.take_length_add_append]
  exact List.prefix_append opener _

namespace Run

variable {p : Char → Bool}

theorem Maximal.getElem?_length {text : List Char} {i : Nat} {r : Run} (h : Maximal p text i r) :
    text[i + r.chars.length]? = r.after.head? := by
  rw [h.text_eq, h.offset_eq, Text.getElem?_append_place, List.getElem?_append_right (Nat.le_refl _),
    Nat.sub_self, List.head?_eq_getElem?]

theorem extents_endWith (keep : Run → Bool) :
    EndWith (fun c b => p c = true ∧ b.any p = false) (extents p keep) := by
  intro text e he
  obtain ⟨r, hr, -, hwidth⟩ := mem_extents he
  have hlast : r.chars.length - 1 < r.chars.length := Nat.sub_lt hr.length_pos Nat.one_pos
  have hstop : e.stop = e.start + (r.chars.length - 1) + 1 := by omega
  refine ⟨r.chars.get ⟨r.chars.length - 1, hlast⟩, ?_, ?_, ?_⟩
  · rw [hstop]
    exact Text.previous?_eq_getElem? (hr.getElem?_eq hlast)
  · exact hr.chars_eq_true _ (List.get_mem _ _)
  · rw [hwidth, hr.getElem?_length]
    exact hr.any_after

end Run

namespace Pattern

theorem blockBody_ends (body : List Char) :
    body[blockBody body]? = none ∨ ∃ m, blockBody body = m + 1 ∧ body[m]? = some '/' := by
  fun_induction blockBody body with
  | case1 => exact Or.inl rfl
  | case2 rest => exact Or.inr ⟨1, rfl, rfl⟩
  | case3 c rest hne ih =>
    rcases ih with hnone | ⟨m, hm, hslash⟩
    · exact Or.inl (by rwa [List.getElem?_cons_succ])
    · exact Or.inr ⟨m + 1, by rw [hm], by rwa [List.getElem?_cons_succ]⟩

theorem blockComments_endWith : EndWith (fun c b => b = none ∨ c = '/') blockComments := by
  apply Occurrence.extents_endWith
  intro before rest n hr
  obtain ⟨body, rfl, rfl⟩ := (blockComment_opens before rest n).mp hr
  obtain ⟨c, hc⟩ := Text.exists_getElem?_cons (blockBody_le body) '*'
  refine ⟨blockBody body + 1, c, rfl, hc, ?_⟩
  rcases blockBody_ends body with hnone | ⟨m, hm, hslash⟩
  · exact Or.inl hnone
  · right
    rw [hm, List.getElem?_cons_succ, hslash] at hc
    exact (Option.some.inj hc).symm

theorem all_getElem?_lineWidth (body : List Char) : body[lineWidth body]?.all isLineEnd = true := by
  have hany := Text.any_getElem?_takeWhile (fun c => !isLineEnd c) body
  rw [lineWidth]
  cases h : body[(body.takeWhile (fun c => !isLineEnd c)).length]? with
  | none => rfl
  | some c =>
    rw [h, Option.any_some, Bool.not_eq_false'] at hany
    rw [Option.all_some, hany]

theorem lineComments_endWith : EndWith (fun _ b => b.all isLineEnd = true) lineComments := by
  apply Occurrence.extents_endWith
  intro before rest n hr
  obtain ⟨body, rfl, rfl⟩ := (lineComment_opens before rest n).mp hr
  obtain ⟨c, hc⟩ := Text.exists_getElem?_cons (lineWidth_le body) '/'
  exact ⟨lineWidth body + 1, c, rfl, hc, all_getElem?_lineWidth body⟩

theorem directives_endWith : EndWith (fun _ b => b.all isLineEnd = true) directives := by
  apply Occurrence.extents_endWith
  intro before rest n hr
  obtain ⟨body, rfl, -, rfl⟩ := (directive_opens before rest n).mp hr
  obtain ⟨c, hc⟩ := Text.exists_getElem?_cons (lineWidth_le body) '#'
  exact ⟨lineWidth body, c, rfl, hc, all_getElem?_lineWidth body⟩

theorem literalBody_ends (body : List Char) : body[literalBody body]?.all isLineEnd = true ∨
    ∃ m, literalBody body = m + 1 ∧ body[m]? = some '"' := by
  fun_induction literalBody body with
  | case1 => exact Or.inl rfl
  | case2 => exact Or.inl rfl
  | case3 c rest hc => exact Or.inl hc
  | case4 c rest hc ih =>
    rcases ih with hline | ⟨m, hm, hquote⟩
    · exact Or.inl hline
    · exact Or.inr ⟨m + 2, by rw [hm], hquote⟩
  | case5 rest => exact Or.inr ⟨0, rfl, rfl⟩
  | case6 c rest hnil hcons hq hc => exact Or.inl hc
  | case7 c rest hnil hcons hq hc ih =>
    rcases ih with hline | ⟨m, hm, hquote⟩
    · exact Or.inl hline
    · exact Or.inr ⟨m + 1, by rw [hm], hquote⟩

theorem stringLiterals_endWith :
    EndWith (fun c b => c = '"' ∨ b.all isLineEnd = true) stringLiterals := by
  apply Occurrence.extents_endWith
  intro before rest n hr
  obtain ⟨body, rfl, rfl⟩ := (stringLiteral_opens before rest n).mp hr
  obtain ⟨c, hc⟩ := Text.exists_getElem?_cons (literalBody_le body) '"'
  refine ⟨literalBody body, c, rfl, hc, ?_⟩
  rcases literalBody_ends body with hline | ⟨m, hm, hquote⟩
  · exact Or.inr hline
  · left
    rw [hm, List.getElem?_cons_succ, hquote] at hc
    exact (Option.some.inj hc).symm

theorem not_isLineEnd_of_mem_line {c : Char} {body : List Char}
    (h : c ∈ body.take (lineWidth body)) : (!isLineEnd c) = true := by
  rw [lineWidth, Text.take_length_takeWhile] at h
  exact List.mem_takeWhile_imp (p := fun c => !isLineEnd c) h

theorem lineComments_madeOf : MadeOf (fun c => !isLineEnd c) lineComments := by
  apply Occurrence.extents_madeOf
  intro before rest n hr c hc
  obtain ⟨body, rfl, rfl⟩ := (lineComment_opens before rest n).mp hr
  change c ∈ '/' :: '/' :: body.take (lineWidth body) at hc
  rw [List.mem_cons, List.mem_cons] at hc
  rcases hc with rfl | rfl | hc
  · rfl
  · rfl
  · exact not_isLineEnd_of_mem_line hc

theorem directives_madeOf : MadeOf (fun c => !isLineEnd c) directives := by
  apply Occurrence.extents_madeOf
  intro before rest n hr c hc
  obtain ⟨body, rfl, -, rfl⟩ := (directive_opens before rest n).mp hr
  change c ∈ '#' :: body.take (lineWidth body) at hc
  rw [List.mem_cons] at hc
  rcases hc with rfl | hc
  · rfl
  · exact not_isLineEnd_of_mem_line hc

theorem lineWidth_cons (c : Char) (body : List Char) :
    lineWidth (c :: body) = if isLineEnd c then 0 else lineWidth body + 1 := by
  rw [lineWidth, List.takeWhile_cons]
  cases isLineEnd c <;> rfl

theorem literalBody_le_lineWidth (body : List Char) : literalBody body ≤ lineWidth body := by
  fun_induction literalBody body with
  | case1 => exact Nat.le_refl _
  | case2 => decide
  | case3 c rest hc => exact Nat.le_add_left 1 _
  | case4 c rest hc ih =>
    rw [lineWidth_cons, lineWidth_cons, if_neg hc]
    exact Nat.add_le_add_right ih 2
  | case5 rest => exact Nat.le_add_left 1 _
  | case6 c rest hnil hcons hq hc => exact Nat.zero_le _
  | case7 c rest hnil hcons hq hc ih =>
    rw [lineWidth_cons, if_neg hc]
    exact Nat.add_le_add_right ih 1

theorem stringLiterals_madeOf : MadeOf (fun c => !isLineEnd c) stringLiterals := by
  apply Occurrence.extents_madeOf
  intro before rest n hr c hc
  obtain ⟨body, rfl, rfl⟩ := (stringLiteral_opens before rest n).mp hr
  change c ∈ '"' :: body.take (literalBody body) at hc
  rw [List.mem_cons] at hc
  rcases hc with rfl | hc
  · rfl
  · exact not_isLineEnd_of_mem_line (List.take_subset_take_left body (literalBody_le_lineWidth body) hc)

theorem variableNames_endWith : EndWith (fun _ b => b.any isWord = false) variableNames := by
  apply Occurrence.extents_endWith
  intro before rest n hr
  obtain ⟨body, rfl, rfl⟩ := (variableName_opens before rest n).mp hr
  obtain ⟨c, hc⟩ := Text.exists_getElem?_cons (List.takeWhile_prefix isWord (l := body)).length_le '$'
  exact ⟨(body.takeWhile isWord).length, c, rfl, hc, Text.any_getElem?_takeWhile isWord body⟩

theorem wordsIn_endWith (vocabulary : List String) :
    EndWith (fun c b => isWord c = true ∧ b.any isWord = false) (wordsIn vocabulary) :=
  Run.extents_endWith _

theorem operators_endWith :
    EndWith (fun c b => isOperator c = true ∧ b.any isOperator = false) operators :=
  Run.extents_endWith _

end Pattern

namespace Declaration

theorem words_endWith : EndWith (fun c b => c = 'e' ∧ b.any isBlank = true) words := by
  intro text e he
  obtain ⟨⟨i, d⟩, hx, rfl⟩ := List.mem_map.mp he
  obtain ⟨before, rest, rfl, -, rfl, hr⟩ := Occurrence.mem_all hx
  obtain ⟨gap, name, tail, after, hd⟩ := recognise_eq_some hr
  obtain ⟨g, gs, rfl⟩ := List.exists_cons_of_ne_nil hd.gap_ne_nil
  refine ⟨'e', ?_, rfl, ?_⟩
  · apply Text.previous?_eq_getElem? (i := before.length + 3)
    rw [Text.getElem?_append_place, hd.text]
    rfl
  · rw [Text.getElem?_append_place, hd.text]
    exact hd.gap_blank g List.mem_cons_self

theorem names_endWith : EndWith (fun c b => isWord c = true ∧ b.any isWord = false) names := by
  intro text e he
  obtain ⟨⟨i, d⟩, hx, rfl⟩ := List.mem_map.mp he
  obtain ⟨before, rest, rfl, -, rfl, hr⟩ := Occurrence.mem_all hx
  obtain ⟨gap, name, tail, after, hd⟩ := recognise_eq_some hr
  obtain ⟨c, cs, hafter, hc⟩ := hd.name_ends
  obtain ⟨a, as, hname, -⟩ := hd.name_cons
  have hpos : name.length - 1 < name.length := by rw [hname, List.length_cons]; omega
  have hrest (j : Nat) : (before.reverse ++ rest)[before.length + 4 + gap.length + j]? =
      (name ++ c :: cs)[j]? := by
    have hplace : before.length + 4 + gap.length + j =
        before.length + ((['r', 'u', 'l', 'e'] ++ gap).length + j) := by
      simp only [List.length_append, List.length_cons, List.length_nil]
      omega
    have htext : rest = (['r', 'u', 'l', 'e'] ++ gap) ++ (name ++ c :: cs) := by
      rw [hd.text, hafter, List.append_assoc]
      rfl
    rw [hplace, Text.getElem?_append_place, htext, List.getElem?_append_right (Nat.le_add_right _ _),
      Nat.add_sub_cancel_left]
  have hgap : d.gap = gap.length := congrArg Declaration.gap hd.widths
  have hwidth : d.name = name.length := congrArg Declaration.name hd.widths
  refine ⟨name.get ⟨name.length - 1, hpos⟩, ?_, hd.name_word _ (List.get_mem _ _), ?_⟩
  · have hstop : before.length + 4 + d.gap + d.name =
        before.length + 4 + gap.length + (name.length - 1) + 1 := by
      rw [hgap, hwidth]
      omega
    simp only
    rw [hstop]
    apply Text.previous?_eq_getElem?
    rw [hrest, List.getElem?_append_left hpos, List.getElem?_eq_getElem hpos]
    rfl
  · simp only [hgap, hwidth]
    rw [hrest, List.getElem?_append_right (Nat.le_refl _), Nat.sub_self, List.getElem?_cons_zero,
      Option.any_some, hc]

end Declaration

namespace ByteSequence

theorem getElem?_lastWildcard {parity pos i : Nat} {chars : List Char}
    (h : lastWildcard parity pos chars = some i) : ∃ j, i = pos + j ∧ chars[j]? = some '?' := by
  induction chars generalizing pos with
  | nil => simp [lastWildcard] at h
  | cons c chars ih =>
    rw [lastWildcard] at h
    split at h
    · next hi =>
      obtain rfl := Option.some.inj h
      obtain ⟨j, rfl, hj⟩ := ih hi
      exact ⟨j + 1, by omega, by rwa [List.getElem?_cons_succ]⟩
    · split at h
      · next hc =>
        obtain rfl := Option.some.inj h
        exact ⟨0, rfl, by rw [List.getElem?_cons_zero, hc.1]⟩
      · cases h

theorem farthest_stops {r : Run} {pos stop : Nat}
    (h : (Closings.ofRun r).farthest pos = some stop) :
    stop = r.chars.length ∧ r.after.head?.any blocksBytes = false ∨ r.chars[stop]? = some '?' := by
  have hwildcard (hw : (if pos % 2 = 0 then (Closings.ofRun r).evenWildcard
      else (Closings.ofRun r).oddWildcard).filter (pos < ·) = some stop) :
      r.chars[stop]? = some '?' := by
    have hlast := (Option.filter_eq_some_iff.mp hw).1
    have hmark : ∃ j, stop = 0 + j ∧ r.chars[j]? = some '?' := by
      split_ifs at hlast
      · exact getElem?_lastWildcard hlast
      · exact getElem?_lastWildcard hlast
    obtain ⟨j, rfl, hj⟩ := hmark
    rwa [Nat.zero_add]
  rw [Closings.farthest] at h
  split at h
  · next last hlast =>
    simp only [Closings.ofRun] at hlast
    split_ifs at hlast with hafter
    by_cases hpos : pos < last ∧ (last - pos) % 2 = 0
    · left
      rw [if_pos hpos] at h
      rw [Option.some.inj hlast, Option.some.inj h]
      exact ⟨rfl, Bool.eq_false_iff.mpr hafter⟩
    · rw [if_neg hpos] at h
      exact Or.inr (hwildcard h)
  · exact Or.inr (hwildcard h)

theorem all_endWith : EndWith AtStop all := by
  intro text e he
  obtain ⟨i, r, e', hr, he', rfl⟩ := mem_all he
  have hfarthest := farthest_of_mem_cut he'
  have hbounds := farthest_bounds hfarthest
  have hlast : e'.stop - 1 < r.chars.length := by omega
  have hstop : i + e'.stop = i + (e'.stop - 1) + 1 := by omega
  refine ⟨r.chars.get ⟨e'.stop - 1, hlast⟩, ?_, ?_⟩
  · simp only [hstop]
    exact Text.previous?_eq_getElem? (hr.getElem?_eq hlast)
  · intro _
    rcases farthest_stops hfarthest with ⟨hend, hafter⟩ | hwildcard
    · simp only [hend, hr.getElem?_length]
      cases hhead : r.after.head? with
      | none => rfl
      | some b => simp_all [blocksBytes]
    · obtain ⟨hj, hc⟩ := List.getElem?_eq_some_iff.mp hwildcard
      simp only [hr.getElem?_eq hj, hc]
      rfl

end ByteSequence

namespace Pattern

theorem hexLiterals_endWith : EndWith AtStop hexLiterals := by
  intro text e he
  obtain ⟨c, hc, -, hafter⟩ := Run.extents_endWith _ text e he
  exact ⟨c, hc, fun _ => hafter⟩

-- A decimal ends before what is not of a word, or with its point.
theorem decimalOfWhole_ends {whole n : Nat} {rest : List Char}
    (h : decimalOfWhole whole rest = some n) :
    ∃ m, n = whole + m ∧
      (rest[m]?.any isWord = false ∨ ∃ k, m = k + 1 ∧ rest[k]? = some '.') := by
  rw [decimalOfWhole.eq_def] at h
  split at h
  · next rest =>
    simp only at h
    split_ifs at h with hdigits hword
    · simp only [Bool.and_eq_true, Bool.not_eq_true'] at hdigits
      refine ⟨(rest.takeWhile Char.isDigit).length + 1, by have := Option.some.inj h; omega, ?_⟩
      left
      rw [List.getElem?_cons_succ, Text.getElem?_length_takeWhile]
      exact hdigits.2
    · exact ⟨1, (Option.some.inj h).symm, Or.inr ⟨0, rfl, rfl⟩⟩
    · exact ⟨0, (Option.some.inj h).symm, Or.inl rfl⟩
  · split_ifs at h with hword
    refine ⟨0, (Option.some.inj h).symm, Or.inl ?_⟩
    rw [← List.head?_eq_getElem?]
    exact Bool.eq_false_iff.mpr hword

theorem decimals_endWith : EndWith AtStop decimals := by
  apply Occurrence.extents_endWith
  intro before rest n h
  have hle := decimal_fits before rest n h
  by_cases hpoint : ∃ tail, rest = '.' :: tail
  · obtain ⟨tail, rfl⟩ := hpoint
    rw [decimal_point] at h
    split_ifs at h with hdigits
    simp only [Bool.and_eq_true, Bool.not_eq_true'] at hdigits
    obtain rfl := Option.some.inj h
    obtain ⟨c, hc⟩ := Text.exists_getElem?_cons
      (List.takeWhile_prefix Char.isDigit (l := tail)).length_le '.'
    refine ⟨(tail.takeWhile Char.isDigit).length, c, rfl, hc, fun _ => ?_⟩
    rw [List.getElem?_cons_succ, Text.getElem?_length_takeWhile]
    exact hdigits.2
  · rw [decimal_whole (not_exists.mp hpoint)] at h
    split_ifs at h with hword
    simp only [Bool.or_eq_true, not_or, Bool.not_eq_true, List.isEmpty_eq_false_iff] at hword
    have hpos := List.length_pos_of_ne_nil hword.2
    obtain ⟨m, rfl, hends⟩ := decimalOfWhole_ends h
    have hrest (j : Nat) : rest[(rest.takeWhile Char.isDigit).length + j]? =
        (rest.dropWhile Char.isDigit)[j]? := by
      calc rest[(rest.takeWhile Char.isDigit).length + j]?
        _ = (rest.takeWhile Char.isDigit ++
            rest.dropWhile Char.isDigit)[(rest.takeWhile Char.isDigit).length + j]? := by
          rw [List.takeWhile_append_dropWhile]
        _ = (rest.dropWhile Char.isDigit)[j]? := by
          rw [List.getElem?_append_right (Nat.le_add_right _ _), Nat.add_sub_cancel_left]
    have hlast : (rest.takeWhile Char.isDigit).length + m - 1 < rest.length := by
      simp only [id_eq] at hle
      omega
    refine ⟨(rest.takeWhile Char.isDigit).length + m - 1, _, by omega,
      List.getElem?_eq_getElem hlast, fun hc => ?_⟩
    rcases hends with hnext | ⟨k, rfl, hdot⟩
    · rwa [Nat.sub_add_cancel (by omega), hrest]
    · have hplace : rest[(rest.takeWhile Char.isDigit).length + (k + 1) - 1]? = some '.' := by
        rw [← Nat.add_assoc, Nat.add_sub_cancel, hrest, hdot]
      rw [List.getElem?_eq_getElem hlast] at hplace
      rw [Option.some.inj hplace] at hc
      cases hc

theorem numbers_endWith : EndWith AtStop numbers := by
  intro text e he
  rcases mem_numbers he with he | he | he
  · exact hexLiterals_endWith text e he
  · exact decimals_endWith text e he
  · exact ByteSequence.all_endWith text e he

end Pattern

end RuleHighlight
