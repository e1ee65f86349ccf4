import RuleHighlight.Proofs.CharClass
import RuleHighlight.Proofs.Pattern.Number

namespace RuleHighlight

open CharClass

theorem Recogniser.Opens.through {α : Type} {r : Recogniser α} {opener : List Char}
    {P : List Char → List Char → α → Prop} (h : r.Opens opener P) (ho : opener.all isMarked = true)
    (hP : ∀ before body a,
      P (before.map representative) (body.map representative) a ↔ P before body a) :
    r.through representative = r := by
  funext before rest
  apply Option.ext
  intro a
  rw [Recogniser.through, h, h]
  exact exists_map_representative opener ho (fun body => hP before body a) rest

namespace Text

theorem any_head?_representative {p : Char → Bool} (hp : ∀ c, p (representative c) = p c)
    (text : List Char) : (text.map representative).head?.any p = text.head?.any p := by
  cases text <;> simp [hp]

theorem all_head?_representative {p : Char → Bool} (hp : ∀ c, p (representative c) = p c)
    (text : List Char) : (text.map representative).head?.all p = text.head?.all p := by
  cases text <;> simp [hp]

end Text

namespace Pattern

theorem blockBody_representative (rest : List Char) :
    blockBody (rest.map representative) = blockBody rest := by
  fun_induction blockBody rest with
  | case1 => rfl
  | case2 => rfl
  | case3 c rest hne ih =>
    rw [List.map_cons, blockBody, ih]
    intro tail hc htail
    obtain ⟨body, rfl, -⟩ := (exists_map_representative ['/'] (P := fun _ => True)
      rfl (fun _ => Iff.rfl) rest).mp ⟨tail, htail, trivial⟩
    exact hne body ((representative_eq_iff rfl).mp hc) rfl

theorem lineWidth_representative (rest : List Char) :
    lineWidth (rest.map representative) = lineWidth rest := by
  rw [lineWidth, Text.takeWhile_map (fun c => by rw [isLineEnd_representative]), List.length_map,
    lineWidth]

theorem literalBody_representative (rest : List Char) :
    literalBody (rest.map representative) = literalBody rest := by
  fun_induction literalBody rest with
  | case1 => rfl
  | case2 => rfl
  | case3 c rest hc =>
    change literalBody ('\\' :: representative c :: rest.map representative) = 1
    rw [literalBody, isLineEnd_representative, if_pos hc]
  | case4 c rest hc ih =>
    change literalBody ('\\' :: representative c :: rest.map representative) = _
    rw [literalBody, isLineEnd_representative, if_neg hc, ih]
  | case5 rest =>
    change literalBody ('"' :: rest.map representative) = 1
    rw [literalBody_cons (by decide), if_pos rfl]
  | case6 c rest hnil hcons hq hl =>
    have hc := (representative_eq_iff rfl).not.mpr (ne_backslash hnil hcons)
    have hq' := (representative_eq_iff (a := '"') rfl).not.mpr hq
    rw [List.map_cons, literalBody_cons hc, if_neg hq', isLineEnd_representative, if_pos hl]
  | case7 c rest hnil hcons hq hl ih =>
    have hc := (representative_eq_iff rfl).not.mpr (ne_backslash hnil hcons)
    have hq' := (representative_eq_iff (a := '"') rfl).not.mpr hq
    rw [List.map_cons, literalBody_cons hc, if_neg hq', isLineEnd_representative, if_neg hl, ih]

theorem blockComment_through : blockComment.through representative = blockComment := by
  apply blockComment_opens.through rfl
  intro before body n
  rw [blockBody_representative]

theorem lineComment_through : lineComment.through representative = lineComment := by
  apply lineComment_opens.through rfl
  intro before body n
  rw [lineWidth_representative]

theorem directive_through : directive.through representative = directive := by
  apply directive_opens.through rfl
  intro before body n
  rw [Text.all_head?_representative isLineEnd_representative, lineWidth_representative]

theorem stringLiteral_through : stringLiteral.through representative = stringLiteral := by
  apply stringLiteral_opens.through rfl
  intro before body n
  rw [literalBody_representative]

theorem variableName_through : variableName.through representative = variableName := by
  apply variableName_opens.through rfl
  intro before body n
  rw [Text.takeWhile_map isWord_representative, List.length_map]

theorem wordsIn_representative (vocabulary : List String) (text : List Char) :
    wordsIn vocabulary (text.map representative) = wordsIn vocabulary text := by
  apply Run.extents_through isWord_representative
  intro r hr
  simp only [map_representative_of_isMarked (fun c hc => isMarked_of_isWord (hr c hc))]

theorem sectionLabels_marked :
    ∀ label ∈ sectionLabels, label.toList.reverse.all isMarked = true := by
  decide

theorem followsSectionLabel_representative (before : List Char) :
    followsSectionLabel (before.map representative) = followsSectionLabel before := by
  rw [Bool.eq_iff_iff, followsSectionLabel_iff, followsSectionLabel_iff]
  refine exists_congr (fun label => and_congr_right (fun hl => ?_))
  apply exists_map_representative _ (sectionLabels_marked label hl)
  intro body
  rw [Text.any_head?_representative isWord_representative]

theorem operators_representative (text : List Char) :
    operators (text.map representative) = operators text := by
  apply Run.extents_through isOperator_representative
  intro r hr
  simp only [isSectionColon, followsSectionLabel_representative,
    map_representative_of_isMarked (fun c hc => isMarked_of_isOperator (hr c hc))]

theorem byteSequences_representative (text : List Char) :
    ByteSequence.all (text.map representative) = ByteSequence.all text := by
  rw [ByteSequence.all_eq, ByteSequence.all_eq, Run.all_view_through isNibble_representative]
  intro r hr
  simp only [ByteSequence.seen, ByteSequence.ofRun, ByteSequence.Closings.ofRun,
    map_representative_of_isMarked (fun c hc => isMarked_of_isNibble (hr c hc)),
    Text.any_head?_representative blocksBytes_representative]

theorem ne_point_representative {rest : List Char} (h : ∀ tail, rest ≠ '.' :: tail) (tail : List Char) :
    rest.map representative ≠ '.' :: tail := by
  intro htail
  obtain ⟨body, rfl, -⟩ := (exists_map_representative ['.'] (P := fun _ => True) rfl
    (fun _ => Iff.rfl) rest).mp ⟨tail, htail, trivial⟩
  exact h body rfl

theorem decimalOfWhole_representative (whole : Nat) (rest : List Char) :
    decimalOfWhole whole (rest.map representative) = decimalOfWhole whole rest := by
  by_cases hpoint : ∃ tail, rest = '.' :: tail
  · obtain ⟨tail, rfl⟩ := hpoint
    change decimalOfWhole whole ('.' :: tail.map representative) = _
    simp only [decimalOfWhole, Text.takeWhile_map isDigit_representative,
      Text.dropWhile_map isDigit_representative, List.isEmpty_map, List.length_map,
      Text.any_head?_representative isWord_representative]
  · have hne := not_exists.mp hpoint
    rw [decimalOfWhole_stop (ne_point_representative hne), decimalOfWhole_stop hne,
      Text.any_head?_representative isWord_representative]

theorem decimal_through : decimal.through representative = decimal := by
  funext before rest
  rw [Recogniser.through]
  by_cases hpoint : ∃ tail, rest = '.' :: tail
  · obtain ⟨tail, rfl⟩ := hpoint
    change decimal _ ('.' :: tail.map representative) = _
    simp only [decimal_point, Text.takeWhile_map isDigit_representative,
      Text.dropWhile_map isDigit_representative, List.isEmpty_map, List.length_map,
      Text.any_head?_representative isWord_representative]
  · have hne := not_exists.mp hpoint
    simp only [decimal_whole (ne_point_representative hne), decimal_whole hne,
      Text.takeWhile_map isDigit_representative, Text.dropWhile_map isDigit_representative,
      List.isEmpty_map, List.length_map, Text.any_head?_representative isWord_representative,
      decimalOfWhole_representative]

theorem hexLiterals_representative (text : List Char) :
    hexLiterals (text.map representative) = hexLiterals text := by
  apply Run.extents_through isWord_representative
  intro r hr
  simp only [map_representative_of_isMarked (fun c hc => isMarked_of_isWord (hr c hc))]

theorem numbers_representative (text : List Char) :
    numbers (text.map representative) = numbers text := by
  rw [numbers, numbers, hexLiterals_representative, byteSequences_representative, decimals,
    decimals, Occurrence.extents_through decimal_through]

end Pattern

namespace Declaration

theorem isName_representative (name : List Char) :
    isName (name.map representative) = isName name := by
  cases name with
  | nil => rfl
  | cons c cs => simp only [List.map_cons, isName, isWordStart_representative, List.length_map]

theorem reading_representative (body : List Char) :
    reading (body.map representative) = reading body := by
  have hbrace (s : List Char) : ((s.map representative).head? != some '\x7b') =
      (s.head? != some '\x7b') := by
    rw [Bool.eq_iff_iff, bne_iff_ne, bne_iff_ne]
    cases s with
    | nil => rfl
    | cons c s => simp [representative_eq_iff (a := '\x7b') rfl]
  simp only [reading, Text.takeWhile_map isBlank_representative,
    Text.dropWhile_map isBlank_representative, Text.takeWhile_map isWord_representative,
    Text.dropWhile_map isWord_representative, isName_representative, List.length_map, hbrace,
    List.isEmpty_map]

theorem recognise_through : Recogniser.through representative recognise = recognise := by
  apply recognise_opens.through rfl
  intro before body d
  rw [Text.any_head?_representative isWord_representative, reading_representative]

theorem all_representative (text : List Char) : all (text.map representative) = all text :=
  Occurrence.all_through recognise_through text

end Declaration

end RuleHighlight
