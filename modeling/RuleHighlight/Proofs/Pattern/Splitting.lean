import RuleHighlight.Proofs.CharClass
import RuleHighlight.Proofs.Pattern.Number

/-!
What the patterns find on the two sides of a line end, they find on each side alone. Two patterns
can reach over a line end: a block comment that is not closed before it, and a declaration whose
blanks hold it. The second one needs a word as the last thing that can be seen before the line end.
Words, names, numbers and declarations are cut at a slash in the same way.
-/

namespace RuleHighlight

open CharClass

variable {front back : List Char} {c : Char}

namespace Text

theorem exists_append_cons (opener : List Char) (ho : c ∉ opener) {P : List Char → Prop}
    {rest : List Char}
    (hP : ∀ body, rest = opener ++ body → (P (body ++ c :: back) ↔ P body)) :
    (∃ body, rest ++ c :: back = opener ++ body ∧ P body) ↔
      ∃ body, rest = opener ++ body ∧ P body := by
  constructor
  · rintro ⟨body, hrest, hbody⟩
    rcases List.append_eq_append_iff.mp hrest with ⟨mid, hopener, hback⟩ | ⟨mid, rfl, rfl⟩
    · cases mid with
      | nil =>
        have hnil : rest = opener ++ [] := by rw [hopener, List.append_nil, List.append_nil]
        rw [List.nil_append] at hback
        rw [← hback] at hbody
        exact ⟨[], hnil, (hP [] hnil).mp hbody⟩
      | cons b mid =>
        obtain ⟨rfl, -⟩ := List.cons.inj hback
        exact absurd (by simp [hopener]) ho
    · exact ⟨mid, rfl, (hP mid rfl).mp hbody⟩
  · rintro ⟨body, rfl, hbody⟩
    exact ⟨body ++ c :: back, by rw [List.append_assoc], (hP body rfl).mpr hbody⟩

end Text

namespace Recogniser

variable {α : Type} {r : Recogniser α} {opener : List Char} {P : List Char → List Char → α → Prop}

theorem Opens.append_cons (h : r.Opens opener P) (ho : c ∉ opener) {before rest : List Char}
    (hP : ∀ body, rest = opener ++ body → ∀ a, P before (body ++ c :: back) a ↔ P before body a) :
    r before (rest ++ c :: back) = r before rest := by
  apply Option.ext
  intro a
  rw [h, h, Text.exists_append_cons opener ho (fun body hbody => hP body hbody a)]

theorem Opens.congr_before (h : r.Opens opener P) {before before' : List Char}
    (hP : ∀ body a, P before body a ↔ P before' body a) (rest : List Char) :
    r before rest = r before' rest := by
  apply Option.ext
  intro a
  simp only [h _ _ a, hP]

theorem Opens.extents_splitsAt {r : Recogniser Nat} {P : List Char → List Char → Nat → Prop}
    (h : r.Opens opener P) (hfits : r.Fits id)
    (hne : opener ≠ []) (ho : c ∉ opener)
    (hfront : ∀ before body, before.reverse ++ (opener ++ body) = front →
      (∀ n, P before body n → ⟨before.length, before.length + n⟩ ∈ Occurrence.extents r front) →
      ∀ n, P before (body ++ c :: back) n ↔ P before body n)
    (hback : ∀ before body n, P (before ++ c :: front.reverse) body n ↔ P before body n) :
    SplitsAt front c back (Occurrence.extents r) := by
  apply Occurrence.extents_splitsAt hfits
  · intro before
    rw [Option.eq_none_iff_forall_ne_some]
    intro n hn
    obtain ⟨body, hnil, -⟩ := (h _ _ _).mp hn
    exact hne (List.append_eq_nil_iff.mp hnil.symm).1
  · intro before rest ht hvisit
    apply h.append_cons ho
    rintro body rfl
    apply hfront before body ht
    intro n hn
    exact List.mem_map_of_mem (hvisit n ((h _ _ _).mpr ⟨body, rfl, hn⟩))
  · intro before rest
    exact h.congr_before (hback before) rest

end Recogniser

namespace Text

theorem any_head?_append_cons {p : Char → Bool} (hc : p c = false) (text : List Char) :
    (text ++ c :: back).head?.any p = text.head?.any p := by
  cases text <;> simp [hc]

theorem all_head?_append_cons {p : Char → Bool} (hc : p c = true) (text : List Char) :
    (text ++ c :: back).head?.all p = text.head?.all p := by
  cases text <;> simp [hc]

theorem slice_two {before rest : List Char} {n : Nat} (h : 2 ≤ n) (hn : n ≤ rest.length) :
    slice (before ++ rest) ((before.length + n : Nat) - 2) (before.length + n : Nat) =
      (rest.drop (n - 2)).take 2 := by
  have hcast : ((before.length + n : Nat) : Int) - 2 = (before.length + (n - 2) : Nat) := by omega
  have hlen : (before ++ rest).length = before.length + rest.length := List.length_append
  rw [hcast, slice_of_le (by omega) (by omega), List.drop_append, List.drop_of_length_le (by omega),
    List.nil_append]
  congr 1
  · omega
  · congr 1
    omega

end Text

namespace Pattern

theorem blockBody_append {body : List Char} (h : 2 ≤ blockBody body)
    (hclosed : (body.drop (blockBody body - 2)).take 2 = ['*', '/']) (more : List Char) :
    blockBody (body ++ more) = blockBody body := by
  fun_induction blockBody body with
  | case1 => simp at h
  | case2 => rfl
  | case3 a rest hne ih =>
    have htwo : 2 ≤ blockBody rest := by
      by_contra hlt
      have hzero : blockBody rest + 1 - 2 = 0 := by omega
      rw [hzero, List.drop_zero] at hclosed
      cases rest with
      | nil => simp at hclosed
      | cons b rest =>
        simp only [List.take_succ_cons, List.take_zero, List.cons.injEq, and_true] at hclosed
        exact hne rest hclosed.1 (by rw [hclosed.2])
    have hdrop : (a :: rest).drop (blockBody rest + 1 - 2) = rest.drop (blockBody rest - 2) := by
      rw [show blockBody rest + 1 - 2 = blockBody rest - 2 + 1 by omega, List.drop_succ_cons]
    rw [hdrop] at hclosed
    rw [List.cons_append, blockBody, ih htwo hclosed]
    intro tail ha hrest
    cases rest with
    | nil => simp [blockBody] at htwo
    | cons b rest =>
      obtain ⟨rfl, -⟩ := List.cons.inj hrest
      exact hne rest ha rfl

theorem lineWidth_append_cons (hc : isLineEnd c = true) (rest : List Char) :
    lineWidth (rest ++ c :: back) = lineWidth rest := by
  rw [lineWidth, Text.takeWhile_append_cons (by rw [hc, Bool.not_true]), lineWidth]

theorem literalBody_append_cons (hc : isLineEnd c = true) (rest : List Char) :
    literalBody (rest ++ c :: back) = literalBody rest := by
  have hq : c ≠ '"' := by
    rintro rfl
    cases hc
  have hb : c ≠ '\\' := by
    rintro rfl
    cases hc
  fun_induction literalBody rest with
  | case1 => rw [List.nil_append, literalBody_cons hb, if_neg hq, if_pos hc]
  | case2 =>
    change literalBody ('\\' :: c :: back) = 1
    rw [literalBody, if_pos hc]
  | case3 a rest ha =>
    change literalBody ('\\' :: a :: (rest ++ c :: back)) = 1
    rw [literalBody, if_pos ha]
  | case4 a rest ha ih =>
    change literalBody ('\\' :: a :: (rest ++ c :: back)) = _
    rw [literalBody, if_neg ha, ih]
  | case5 rest =>
    change literalBody ('"' :: (rest ++ c :: back)) = 1
    rw [literalBody_cons (by decide), if_pos rfl]
  | case6 a rest hnil hcons hne ha =>
    rw [List.cons_append, literalBody_cons (ne_backslash hnil hcons), if_neg hne, if_pos ha]
  | case7 a rest hnil hcons hne ha ih =>
    rw [List.cons_append, literalBody_cons (ne_backslash hnil hcons), if_neg hne, if_neg ha, ih]

/-- Every block comment of a text ends in its own terminator. -/
def CommentsClosed (text : List Char) : Prop :=
  ∀ e ∈ blockComments text,
    e.start + 4 ≤ e.stop ∧ Text.slice text (e.stop - 2) e.stop = ['*', '/']

instance : DecidablePred CommentsClosed := fun _ => inferInstanceAs (Decidable (∀ _ ∈ _, _))

theorem blockComments_splitsAt (hc : isLineEnd c = true) (hclosed : CommentsClosed front) :
    SplitsAt front c back blockComments := by
  apply blockComment_opens.extents_splitsAt blockComment_fits (by simp)
    (notMem_of_any_eq_false (p := isLineEnd) rfl hc)
  · intro before body ht hvisit n
    obtain ⟨hlen, hslice⟩ := hclosed _ (hvisit _ rfl)
    have htwo : 2 ≤ blockBody body := by simp only at hlen; omega
    have hfront : front = (before.reverse ++ ['/', '*']) ++ body := by
      rw [← ht, List.append_assoc]
    have hstop : before.length + (blockBody body + 2) =
        (before.reverse ++ ['/', '*']).length + blockBody body := by
      simp only [List.length_append, List.length_reverse, List.length_cons, List.length_nil]
      omega
    rw [hstop, hfront, Text.slice_two htwo (blockBody_le body)] at hslice
    rw [blockBody_append htwo hslice]
  · exact fun _ _ _ => Iff.rfl

theorem lineComments_splitsAt (hc : isLineEnd c = true) : SplitsAt front c back lineComments := by
  apply lineComment_opens.extents_splitsAt lineComment_fits (by simp)
    (notMem_of_any_eq_false (p := isLineEnd) rfl hc)
  · intro before body _ _ n
    rw [lineWidth_append_cons hc]
  · exact fun _ _ _ => Iff.rfl

theorem directives_splitsAt (hc : isLineEnd c = true) : SplitsAt front c back directives := by
  apply directive_opens.extents_splitsAt directive_fits (by simp)
    (notMem_of_any_eq_false (p := isLineEnd) rfl hc)
  · intro before body _ _ n
    rw [lineWidth_append_cons hc]
  · intro before body n
    rw [Text.all_head?_append_cons hc]

theorem stringLiterals_splitsAt (hc : isLineEnd c = true) :
    SplitsAt front c back stringLiterals := by
  apply stringLiteral_opens.extents_splitsAt stringLiteral_fits (by simp)
    (notMem_of_any_eq_false (p := isLineEnd) rfl hc)
  · intro before body _ _ n
    rw [literalBody_append_cons hc]
  · exact fun _ _ _ => Iff.rfl

theorem variableNames_splitsAt (hc : isBreak c = true) : SplitsAt front c back variableNames := by
  have hword : isWord c = false := eq_false_of_isBreak rfl rfl rfl hc
  apply variableName_opens.extents_splitsAt variableName_fits (by simp)
    (notMem_of_any_eq_false (p := isBreak) rfl hc)
  · intro before body _ _ n
    rw [Text.takeWhile_append_cons hword]
  · exact fun _ _ _ => Iff.rfl

theorem wordsIn_splitsAt (vocabulary : List String) (hc : isBreak c = true) :
    SplitsAt front c back (wordsIn vocabulary) :=
  Run.extents_splitsAt (eq_false_of_isBreak rfl rfl rfl hc) (fun _ => rfl) (fun _ => rfl)

theorem sectionLabels_unbroken :
    ∀ label ∈ sectionLabels, label.toList.reverse.any isBreak = false := by
  decide

theorem followsSectionLabel_append_cons (hc : isBreak c = true) (before : List Char) :
    followsSectionLabel (before ++ c :: back) = followsSectionLabel before := by
  have hword : isWord c = false := eq_false_of_isBreak rfl rfl rfl hc
  rw [Bool.eq_iff_iff, followsSectionLabel_iff, followsSectionLabel_iff]
  refine exists_congr (fun label => and_congr_right (fun hl => ?_))
  apply Text.exists_append_cons _ (notMem_of_any_eq_false (sectionLabels_unbroken label hl) hc)
  intro body _
  rw [Text.any_head?_append_cons hword]

theorem operators_splitsAt (hc : isLineEnd c = true) : SplitsAt front c back operators := by
  apply Run.extents_splitsAt (eq_false_of_isLineEnd rfl rfl hc) (fun _ => rfl)
  intro r
  simp only [isSectionColon, followsSectionLabel_append_cons (isBreak_of_isLineEnd hc)]

theorem hexLiterals_splitsAt (hc : isBreak c = true) : SplitsAt front c back hexLiterals :=
  Run.extents_splitsAt (eq_false_of_isBreak rfl rfl rfl hc) (fun _ => rfl) (fun _ => rfl)

theorem byteSequences_splitsAt (hc : isBreak c = true) :
    SplitsAt front c back ByteSequence.all := by
  have hblocks : blocksBytes c = false := eq_false_of_isBreak rfl rfl rfl hc
  rw [SplitsAt, ByteSequence.all_eq, Run.all_view_append_cons (eq_false_of_isBreak rfl rfl rfl hc),
    List.flatMap_append, ByteSequence.all_eq, ByteSequence.all_eq, List.flatMap_map,
    List.map_flatMap]
  · congr 2
    funext x
    simp [Extent.shift, Nat.add_right_comm]
  · exact fun _ => rfl
  · intro r
    simp only [ByteSequence.seen, ByteSequence.ofRun, ByteSequence.Closings.ofRun,
      Text.any_head?_append_cons hblocks]
  · intro r
    simp only [ByteSequence.seen, ByteSequence.ofRun, ByteSequence.Closings.ofRun,
      Text.any_head?_append_cons hblocks]

theorem ne_point_append_cons (hc : isBreak c = true) {rest : List Char}
    (h : ∀ tail, rest ≠ '.' :: tail) (tail : List Char) : rest ++ c :: back ≠ '.' :: tail := by
  cases rest with
  | nil =>
    rintro ⟨rfl, -⟩
    cases hc
  | cons a rest =>
    intro htail
    obtain ⟨rfl, -⟩ := List.cons.inj htail
    exact h rest rfl

theorem decimalOfWhole_append_cons (hc : isBreak c = true) (whole : Nat) (rest : List Char) :
    decimalOfWhole whole (rest ++ c :: back) = decimalOfWhole whole rest := by
  have hword : isWord c = false := eq_false_of_isBreak rfl rfl rfl hc
  have hdigit : c.isDigit = false := eq_false_of_isBreak (p := Char.isDigit) rfl rfl rfl hc
  by_cases hpoint : ∃ tail, rest = '.' :: tail
  · obtain ⟨tail, rfl⟩ := hpoint
    simp only [List.cons_append, decimalOfWhole, Text.takeWhile_append_cons hdigit,
      Text.dropWhile_append_cons hdigit, Text.any_head?_append_cons hword]
  · have hne := not_exists.mp hpoint
    rw [decimalOfWhole_stop (ne_point_append_cons hc hne), decimalOfWhole_stop hne,
      Text.any_head?_append_cons hword]

theorem decimals_splitsAt (hc : isBreak c = true) : SplitsAt front c back decimals := by
  have hword : isWord c = false := eq_false_of_isBreak rfl rfl rfl hc
  have hdigit : c.isDigit = false := eq_false_of_isBreak (p := Char.isDigit) rfl rfl rfl hc
  apply Occurrence.extents_splitsAt decimal_fits
  · intro before
    simp [decimal_whole]
  · intro before rest _ _
    by_cases hpoint : ∃ tail, rest = '.' :: tail
    · obtain ⟨tail, rfl⟩ := hpoint
      simp only [List.cons_append, decimal_point, Text.takeWhile_append_cons hdigit,
        Text.dropWhile_append_cons hdigit, Text.any_head?_append_cons hword]
    · have hne := not_exists.mp hpoint
      simp only [decimal_whole (ne_point_append_cons hc hne), decimal_whole hne,
        Text.takeWhile_append_cons hdigit, Text.dropWhile_append_cons hdigit,
        decimalOfWhole_append_cons hc]
  · intro before rest
    by_cases hpoint : ∃ tail, rest = '.' :: tail
    · obtain ⟨tail, rfl⟩ := hpoint
      simp only [decimal_point, Text.any_head?_append_cons hword]
    · simp only [decimal_whole (not_exists.mp hpoint), Text.any_head?_append_cons hword]

theorem numbers_splitsAt (hc : isBreak c = true) : SplitsAt front c back numbers := by
  apply pool_splitsAt proposals_bounded
  rw [hexLiterals_splitsAt hc, decimals_splitsAt hc, byteSequences_splitsAt hc,
    List.perm_iff_count]
  intro e
  simp only [List.map_append, List.count_append]
  omega

end Pattern

def Text.lastVisible? (text : List Char) : Option Char := text.reverse.find? (fun a => !isBlank a)

namespace Text

theorem lastVisible?_append (front back : List Char) :
    lastVisible? (front ++ back) = (lastVisible? back).or (lastVisible? front) := by
  rw [lastVisible?, List.reverse_append, List.find?_append, lastVisible?, lastVisible?]

theorem lastVisible?_append_cons {a : Char} {blanks : List Char} (ha : isBlank a = false)
    (hblanks : ∀ b ∈ blanks, isBlank b = true) (front : List Char) :
    lastVisible? (front ++ a :: blanks) = some a := by
  have hnone : blanks.reverse.find? (fun b => !isBlank b) = none := by
    rw [List.find?_eq_none]
    intro b hb
    simp [hblanks b (List.mem_reverse.mp hb)]
  rw [lastVisible?, List.reverse_append, List.reverse_cons, List.append_assoc, List.find?_append,
    hnone, Option.none_or, List.singleton_append, List.find?_cons_of_pos (by simp [ha])]

theorem any_lastVisible?_of_append {p : Char → Bool} {front back : List Char}
    (h : (lastVisible? (front ++ back)).any p = false) : (lastVisible? back).any p = false := by
  cases hback : lastVisible? back with
  | none => rfl
  | some a => rwa [lastVisible?_append, hback, Option.some_or] at h

theorem lastVisible?_of_word {text : List Char} (hne : text.takeWhile isWord ≠ [])
    (hblank : ∀ b ∈ text.dropWhile isWord, isBlank b = true) :
    ∃ a, lastVisible? text = some a ∧ isWord a = true := by
  rcases List.eq_nil_or_concat (text.takeWhile isWord) with hnil | ⟨word, a, hword⟩
  · exact absurd hnil hne
  · rw [List.concat_eq_append] at hword
    have ha : isWord a = true := by
      apply List.mem_takeWhile_imp (l := text)
      rw [hword]
      exact List.mem_append_right _ (List.mem_singleton_self a)
    have htext : text = word ++ a :: text.dropWhile isWord := by
      calc text
        _ = text.takeWhile isWord ++ text.dropWhile isWord := List.takeWhile_append_dropWhile.symm
        _ = word ++ [a] ++ text.dropWhile isWord := by rw [← hword]
        _ = word ++ a :: text.dropWhile isWord := List.append_cons _ _ _ |>.symm
    refine ⟨a, ?_, ha⟩
    rw [htext]
    exact lastVisible?_append_cons (isBlank_eq_false_of_isWord ha) hblank word

theorem takeWhile_append_of_dropWhile {p : Char → Bool} {text : List Char}
    (h : text.dropWhile p ≠ []) (more : List Char) :
    (text ++ more).takeWhile p = text.takeWhile p ∧
      (text ++ more).dropWhile p = text.dropWhile p ++ more := by
  have hlen : (text.takeWhile p).length ≠ text.length := by
    intro hlen
    have hall := List.takeWhile_eq_self_iff.mp ((List.takeWhile_prefix p).eq_of_length hlen)
    exact h (List.dropWhile_eq_nil_iff.mpr hall)
  have hempty : ¬ (text.dropWhile p).isEmpty = true := fun he => h (List.isEmpty_iff.mp he)
  rw [List.takeWhile_append, if_neg hlen, List.dropWhile_append, if_neg hempty]
  exact ⟨rfl, rfl⟩

end Text

namespace Declaration

theorem reading_append_cons (hc : isLineEnd c = true) {body : List Char}
    (hlast : (Text.lastVisible? ('e' :: body)).any isWord = false) :
    reading (body ++ c :: back) = reading body := by
  have hword : isWord c = false := eq_false_of_isLineEnd rfl rfl hc
  by_cases hgap : body.dropWhile isBlank = []
  · have hblank := List.dropWhile_eq_nil_iff.mp hgap
    rw [← List.nil_append ('e' :: body), Text.lastVisible?_append_cons rfl hblank] at hlast
    cases hlast
  · obtain ⟨htake, hdrop⟩ := Text.takeWhile_append_of_dropWhile hgap (c :: back)
    simp only [reading, htake, hdrop, Text.takeWhile_append_cons hword,
      Text.dropWhile_append_cons hword]
    by_cases htail : ((body.dropWhile isBlank).dropWhile isWord).dropWhile isBlank = []
    · have hname : isName ((body.dropWhile isBlank).takeWhile isWord) = false := by
        by_cases hnil : (body.dropWhile isBlank).takeWhile isWord = []
        · rw [hnil, isName]
        · obtain ⟨a, ha, haword⟩ := Text.lastVisible?_of_word hnil (List.dropWhile_eq_nil_iff.mp htail)
          have hbody : 'e' :: body = ('e' :: body.takeWhile isBlank) ++ body.dropWhile isBlank := by
            rw [List.cons_append, List.takeWhile_append_dropWhile]
          rw [hbody] at hlast
          have hafter := Text.any_lastVisible?_of_append hlast
          rw [ha, Option.any_some, haword] at hafter
          cases hafter
      simp [hname]
    · obtain ⟨htake', hdrop'⟩ := Text.takeWhile_append_of_dropWhile htail (c :: back)
      rw [htake', hdrop', List.head?_append_of_ne_nil _ htail]

theorem reading_append_slash (body : List Char) : reading (body ++ '/' :: back) = reading body := by
  have hhead (text : List Char) :
      ((text ++ '/' :: back).head? != some '\x7b') = (text.head? != some '\x7b') := by
    cases text <;> rfl
  simp only [reading, Text.takeWhile_append_cons (p := isBlank) (c := '/') rfl,
    Text.dropWhile_append_cons (p := isBlank) (c := '/') rfl,
    Text.takeWhile_append_cons (p := isWord) (c := '/') rfl,
    Text.dropWhile_append_cons (p := isWord) (c := '/') rfl, hhead]

theorem all_append_cons (hc : isBreak c = true)
    (hreading : ∀ before body : List Char, before.reverse ++ (['r', 'u', 'l', 'e'] ++ body) = front →
      reading (body ++ c :: back) = reading body) :
    all (front ++ c :: back) =
      all front ++ (all back).map (Prod.map (· + (front.length + 1)) id) := by
  have hword : isWord c = false := eq_false_of_isBreak rfl rfl rfl hc
  apply Occurrence.all_append_cons recognise_fits (fun _ => rfl)
  · intro before rest ht _
    apply recognise_opens.append_cons (notMem_of_any_eq_false (p := isBreak) rfl hc)
    rintro body rfl d
    rw [hreading before body ht]
  · intro before rest
    apply recognise_opens.congr_before
    intro body d
    rw [Text.any_head?_append_cons hword]

theorem all_append_lineEnd (hc : isLineEnd c = true)
    (hlast : (Text.lastVisible? front).any isWord = false) :
    all (front ++ c :: back) =
      all front ++ (all back).map (Prod.map (· + (front.length + 1)) id) := by
  apply all_append_cons (isBreak_of_isLineEnd hc)
  intro before body ht
  have hsplit : before.reverse ++ (['r', 'u', 'l', 'e'] ++ body) =
      (before.reverse ++ ['r', 'u', 'l']) ++ 'e' :: body := by
    rw [List.append_assoc]
    rfl
  rw [← ht, hsplit] at hlast
  exact reading_append_cons hc (Text.any_lastVisible?_of_append hlast)

theorem all_append_slash : all (front ++ '/' :: back) =
    all front ++ (all back).map (Prod.map (· + (front.length + 1)) id) :=
  all_append_cons rfl (fun _ body _ => reading_append_slash body)

theorem words_splitsAt (h : all (front ++ c :: back) =
    all front ++ (all back).map (Prod.map (· + (front.length + 1)) id)) :
    SplitsAt front c back words := by
  apply Occurrence.map_splitsAt _ h
  intro d x
  simp [Extent.shift, Nat.add_right_comm]

theorem names_splitsAt (h : all (front ++ c :: back) =
    all front ++ (all back).map (Prod.map (· + (front.length + 1)) id)) :
    SplitsAt front c back names := by
  apply Occurrence.map_splitsAt _ h
  intro d x
  simp [Extent.shift, Nat.add_right_comm]

end Declaration

end RuleHighlight
