import RuleHighlight.Proofs.CharClass
import RuleHighlight.Proofs.Pattern.Number

namespace RuleHighlight

open CharClass

def CharClass.AtBoundary (b : Option Char) (c : Char) : Prop :=
  b.any isWord = true → isWord c = false

namespace Text

def previous? (text : List Char) (i : Nat) : Option Char := (text.take i).getLast?

@[simp]
theorem previous?_append (before rest : List Char) :
    previous? (before.reverse ++ rest) before.length = before.head? := by
  rw [previous?, List.take_left' List.length_reverse, List.getLast?_reverse]

theorem previous?_eq_getElem? {text : List Char} {i : Nat} {c : Char} (h : text[i]? = some c) :
    previous? text (i + 1) = some c := by
  simp [previous?, List.getLast?_take, h]

theorem previous?_eq_head? (text : List Char) (i : Nat) :
    previous? text i = (text.take i).reverse.head? := by
  rw [previous?, List.head?_reverse]

@[simp]
theorem getElem?_append_place (before rest : List Char) (j : Nat) :
    (before.reverse ++ rest)[before.length + j]? = rest[j]? := by
  rw [List.getElem?_append_right (by rw [List.length_reverse]; omega), List.length_reverse,
    Nat.add_sub_cancel_left]

theorem getElem?_place {before rest : List Char} {c : Char} (h : rest.head? = some c) :
    (before.reverse ++ rest)[before.length]? = some c := by
  rw [← h, ← Nat.add_zero before.length, getElem?_append_place, List.head?_eq_getElem?]

theorem mem_of_getElem?_place {before piece rest : List Char} {i : Nat} {c : Char}
    (hstart : before.length ≤ i) (hstop : i < before.length + piece.length)
    (hc : (before.reverse ++ (piece ++ rest))[i]? = some c) : c ∈ piece := by
  obtain ⟨j, rfl⟩ := Nat.exists_eq_add_of_le hstart
  have hj : j < piece.length := Nat.lt_of_add_lt_add_left hstop
  rw [getElem?_append_place, List.getElem?_append_left hj] at hc
  exact List.mem_of_getElem? hc

@[simp]
theorem take_length_takeWhile (p : Char → Bool) (text : List Char) :
    text.take (text.takeWhile p).length = text.takeWhile p :=
  (List.prefix_iff_eq_take.mp (List.takeWhile_prefix p)).symm

theorem take_length_takeWhile_add (p : Char → Bool) (text : List Char) (m : Nat) :
    text.take ((text.takeWhile p).length + m) = text.takeWhile p ++ (text.dropWhile p).take m := by
  calc text.take ((text.takeWhile p).length + m)
    _ = (text.takeWhile p ++ text.dropWhile p).take ((text.takeWhile p).length + m) := by
      rw [List.takeWhile_append_dropWhile]
    _ = text.takeWhile p ++ (text.dropWhile p).take m := List.take_length_add_append m

theorem any_getElem?_of_lt {p : Char → Bool} {text : List Char} {n : Nat}
    (h : n < (text.takeWhile p).length) : text[n]?.any p = true := by
  obtain ⟨after, hafter⟩ := List.takeWhile_prefix (p := p) (l := text)
  rw [← hafter, List.getElem?_append_left h, List.getElem?_eq_getElem h, Option.any_some]
  exact List.mem_takeWhile_imp (List.getElem_mem h)

theorem any_head?_drop {p : Char → Bool} {text : List Char} {n : Nat}
    (h : n < (text.takeWhile p).length) : (text.drop n).head?.any p = true := by
  rw [List.head?_drop]
  exact any_getElem?_of_lt h

@[simp]
theorem getElem?_length_takeWhile (p : Char → Bool) (text : List Char) :
    text[(text.takeWhile p).length]? = (text.dropWhile p).head? := by
  calc text[(text.takeWhile p).length]?
    _ = (text.takeWhile p ++ text.dropWhile p)[(text.takeWhile p).length]? := by
      rw [List.takeWhile_append_dropWhile]
    _ = (text.dropWhile p)[0]? := by
      rw [List.getElem?_append_right (Nat.le_refl _), Nat.sub_self]
    _ = (text.dropWhile p).head? := List.head?_eq_getElem?.symm

theorem all_takeWhile_iff {p q : Char → Bool} (hpq : ∀ c, p c = true → q c = true)
    (text : List Char) :
    (text.takeWhile q).all p = true ↔ (text.dropWhile p).head?.any q = false := by
  induction text with
  | nil => simp
  | cons c text ih =>
    cases hc : p c with
    | true => simp [hc, hpq c hc, ih]
    | false => cases hq : q c <;> simp [hc, hq]

theorem takeWhile_eq_of_all {p q : Char → Bool} (hpq : ∀ c, p c = true → q c = true)
    {text : List Char} (h : (text.takeWhile q).all p = true) :
    text.takeWhile q = text.takeWhile p := by
  induction text with
  | nil => rfl
  | cons c text ih =>
    cases hc : p c with
    | true =>
      rw [List.takeWhile_cons_of_pos (hpq c hc), List.all_cons, Bool.and_eq_true] at h
      rw [List.takeWhile_cons_of_pos (hpq c hc), List.takeWhile_cons_of_pos hc, ih h.2]
    | false =>
      cases hq : q c with
      | true => simp [hc, hq] at h
      | false => simp [hc, hq]

@[simp]
theorem drop_length_takeWhile (p : Char → Bool) (text : List Char) :
    text.drop (text.takeWhile p).length = text.dropWhile p := by
  calc text.drop (text.takeWhile p).length
    _ = (text.takeWhile p ++ text.dropWhile p).drop (text.takeWhile p).length := by
      rw [List.takeWhile_append_dropWhile]
    _ = text.dropWhile p := List.drop_left

theorem dropWhile_drop {p : Char → Bool} {text : List Char} {n : Nat}
    (h : n ≤ (text.takeWhile p).length) : (text.drop n).dropWhile p = text.dropWhile p := by
  induction text generalizing n with
  | nil => rw [List.drop_nil]
  | cons c text ih =>
    cases n with
    | zero => rfl
    | succ n =>
      cases hc : p c with
      | false => simp [hc] at h
      | true =>
        rw [List.takeWhile_cons_of_pos hc] at h
        rw [List.drop_succ_cons, List.dropWhile_cons_of_pos hc]
        exact ih (Nat.le_of_succ_le_succ h)

@[simp]
theorem clamp_natCast (length i : Nat) : clamp length (i : Int) = min i length := by
  unfold clamp
  split <;> omega

theorem slice_natCast (text : List Char) (i j : Nat) :
    slice text i j = (text.drop i).take (j - i) := by
  rw [slice, clamp_natCast, clamp_natCast]
  rcases Nat.le_total i text.length with hi | hi
  · rw [Nat.min_eq_left hi, List.take_eq_take_iff, List.length_drop]
    omega
  · rw [Nat.min_eq_right hi, List.drop_length, List.drop_eq_nil_of_le hi, List.take_nil,
      List.take_nil]

theorem sliceFrom_natCast (text : List Char) (i : Nat) : sliceFrom text i = text.drop i := by
  rw [sliceFrom, clamp_natCast]
  rcases Nat.le_total i text.length with hi | hi
  · rw [Nat.min_eq_left hi]
  · rw [Nat.min_eq_right hi, List.drop_length, List.drop_eq_nil_of_le hi]

theorem slice_append_drop {text : List Char} {i j : Nat} (h : i ≤ j) :
    slice text i j ++ text.drop j = text.drop i := by
  rw [slice_natCast]
  obtain ⟨n, rfl⟩ := Nat.exists_eq_add_of_le h
  rw [Nat.add_sub_cancel_left, ← List.drop_drop, List.take_append_drop]

theorem length_slice {text : List Char} {i j : Nat} (h : j ≤ text.length) :
    (slice text i j).length = j - i := by
  rw [slice_natCast, List.length_take, List.length_drop]
  omega

theorem lt_of_slice_ne_nil {text : List Char} {i j : Nat} (h : slice text i j ≠ []) : i < j := by
  by_contra hle
  rw [slice_natCast, Nat.sub_eq_zero_of_le (Nat.le_of_not_lt hle), List.take_zero] at h
  exact h rfl

end Text

def MadeOf (p : Char → Bool) (f : List Char → List Extent) : Prop :=
  ∀ text, ∀ e ∈ f text, ∀ i c, e.start ≤ i → i < e.stop → text[i]? = some c → p c = true

def BeginWith (q : Option Char → Char → Prop) (f : List Char → List Extent) : Prop :=
  ∀ text, ∀ e ∈ f text, ∃ c, text[e.start]? = some c ∧ q (Text.previous? text e.start) c

namespace Occurrence

variable {r : Recogniser Nat}

theorem mem_extents {text : List Char} {e : Extent} (he : e ∈ extents r text) :
    ∃ before rest n, before.reverse ++ rest = text ∧ e = ⟨before.length, before.length + n⟩ ∧
      r before rest = some n := by
  obtain ⟨⟨i, n⟩, hx, rfl⟩ := List.mem_map.mp he
  obtain ⟨before, rest, ht, -, rfl, hr⟩ := mem_all hx
  exact ⟨before, rest, n, ht, rfl, hr⟩

theorem mem_extents_iff {text : List Char} {e : Extent} : e ∈ extents r text ↔
    (∃ before rest n, before.reverse ++ rest = text ∧ rest ≠ [] ∧
      e = ⟨before.length, before.length + n⟩ ∧ r before rest = some n) ∧
      ∀ x ∈ extents r text, x.start < e.start → x.stop ≤ e.start := by
  rw [extents, List.mem_map]
  simp only [List.forall_mem_map]
  constructor
  · rintro ⟨⟨i, n⟩, hx, rfl⟩
    obtain ⟨⟨before, rest, ht, hne, rfl, hr⟩, hfree⟩ := mem_all_iff.mp hx
    exact ⟨⟨before, rest, n, ht, hne, rfl, hr⟩, hfree⟩
  · rintro ⟨⟨before, rest, n, ht, hne, rfl, hr⟩, hfree⟩
    exact ⟨(before.length, n), mem_all_iff.mpr ⟨⟨before, rest, ht, hne, rfl, hr⟩, hfree⟩, rfl⟩

theorem extents_madeOf {p : Char → Bool}
    (h : ∀ before rest n, r before rest = some n → ∀ c ∈ rest.take n, p c = true) :
    MadeOf p (extents r) := by
  intro text e he i c hstart hstop hc
  obtain ⟨before, rest, n, rfl, rfl, hr⟩ := mem_extents he
  obtain ⟨k, rfl⟩ := Nat.exists_eq_add_of_le hstart
  have hk : k < n := Nat.lt_of_add_lt_add_left hstop
  rw [Text.getElem?_append_place] at hc
  apply h before rest n hr
  apply List.mem_of_getElem? (i := k)
  rw [List.getElem?_take_of_lt hk, hc]

theorem extents_beginWith {q : Option Char → Char → Prop}
    (h : ∀ before rest n, r before rest = some n → ∃ c, rest.head? = some c ∧ q before.head? c) :
    BeginWith q (extents r) := by
  intro text e he
  obtain ⟨before, rest, n, rfl, rfl, hr⟩ := mem_extents he
  obtain ⟨c, hc, hbegin⟩ := h before rest n hr
  refine ⟨c, Text.getElem?_place hc, ?_⟩
  rwa [Text.previous?_append]

end Occurrence

theorem Recogniser.Opens.beginWith {r : Recogniser Nat} {a : Char} {opener : List Char}
    {P : List Char → List Char → Nat → Prop} (h : r.Opens (a :: opener) P) :
    BeginWith (fun _ c => c = a) (Occurrence.extents r) := by
  apply Occurrence.extents_beginWith
  intro before rest n hr
  obtain ⟨body, rfl, -⟩ := (h before rest n).mp hr
  exact ⟨a, rfl, rfl⟩

namespace Run

variable {p : Char → Bool}

theorem Maximal.previous?_eq {text : List Char} {i : Nat} {r : Run} (h : Maximal p text i r) :
    Text.previous? text i = r.before.head? := by
  rw [h.text_eq, h.offset_eq, Text.previous?_append]

theorem Maximal.mem_chars {text : List Char} {i j : Nat} {r : Run} {c : Char}
    (h : Maximal p text i r) (hstart : i ≤ j) (hstop : j < i + r.chars.length)
    (hc : text[j]? = some c) : c ∈ r.chars := by
  rw [h.offset_eq] at hstart hstop
  rw [h.text_eq] at hc
  exact Text.mem_of_getElem?_place hstart hstop hc

theorem Maximal.getElem?_eq {text : List Char} {i j : Nat} {r : Run} (h : Maximal p text i r)
    (hj : j < r.chars.length) : text[i + j]? = some r.chars[j] := by
  rw [h.text_eq, h.offset_eq, Text.getElem?_append_place, List.getElem?_append_left hj,
    List.getElem?_eq_getElem hj]

theorem Maximal.length_pos {text : List Char} {i : Nat} {r : Run} (h : Maximal p text i r) :
    0 < r.chars.length := List.length_pos_of_ne_nil h.chars_ne_nil

theorem mem_extents {keep : Run → Bool} {text : List Char} {e : Extent}
    (he : e ∈ extents p keep text) :
    ∃ r, Maximal p text e.start r ∧ keep r = true ∧ e.stop = e.start + r.chars.length := by
  obtain ⟨⟨i, r⟩, hx, rfl⟩ := List.mem_map.mp he
  obtain ⟨hx, hkeep⟩ := List.mem_filter.mp hx
  exact ⟨r, maximal_of_mem_all hx, hkeep, rfl⟩

theorem extents_madeOf (keep : Run → Bool) : MadeOf p (extents p keep) := by
  intro text e he i c hstart hstop hc
  obtain ⟨r, hr, -, hwidth⟩ := mem_extents he
  rw [hwidth] at hstop
  exact hr.chars_eq_true c (hr.mem_chars hstart hstop hc)

theorem extents_beginWith (keep : Run → Bool) :
    BeginWith (fun b c => b.any p = false ∧ p c = true) (extents p keep) := by
  intro text e he
  obtain ⟨r, hr, -, -⟩ := mem_extents he
  refine ⟨r.chars.get ⟨0, hr.length_pos⟩, hr.getElem?_eq hr.length_pos, ?_, ?_⟩
  · rw [hr.previous?_eq]
    exact hr.any_before
  · exact hr.chars_eq_true _ (List.getElem_mem hr.length_pos)

end Run

namespace Pattern

theorem wordsIn_madeOf (vocabulary : List String) : MadeOf isWord (wordsIn vocabulary) :=
  Run.extents_madeOf _

theorem wordsIn_beginWith (vocabulary : List String) :
    BeginWith (fun b c => b.any isWord = false ∧ isWord c = true) (wordsIn vocabulary) :=
  Run.extents_beginWith _

theorem operators_madeOf : MadeOf isOperator operators := Run.extents_madeOf _

theorem operators_beginWith :
    BeginWith (fun b c => b.any isOperator = false ∧ isOperator c = true) operators :=
  Run.extents_beginWith _

theorem variableNames_madeOf : MadeOf (fun c => c == '$' || isWord c) variableNames := by
  apply Occurrence.extents_madeOf
  intro before rest n hr c hc
  obtain ⟨body, rfl, rfl⟩ := (variableName_opens before rest n).mp hr
  rw [List.singleton_append, List.take_succ_cons, List.mem_cons] at hc
  rcases hc with rfl | hc
  · rfl
  · rw [Text.take_length_takeWhile] at hc
    rw [List.mem_takeWhile_imp hc, Bool.or_true]

end Pattern

namespace Declaration

theorem mem_words {text : List Char} {e : Extent} (he : e ∈ words text) :
    ∃ before rest : List Char, text = before.reverse ++ ("rule".toList ++ rest) ∧
      e = ⟨before.length, before.length + 4⟩ ∧ before.head?.any isWord = false := by
  obtain ⟨⟨i, d⟩, hx, rfl⟩ := List.mem_map.mp he
  obtain ⟨before, rest, rfl, -, rfl, hr⟩ := Occurrence.mem_all hx
  obtain ⟨gap, name, tail, after, hd⟩ := recognise_eq_some hr
  exact ⟨before, _, by rw [hd.text]; rfl, rfl, hd.boundary⟩

theorem mem_names {text : List Char} {e : Extent} (he : e ∈ names text) :
    ∃ before name rest : List Char, text = before.reverse ++ (name ++ rest) ∧
      e = ⟨before.length, before.length + name.length⟩ ∧ before.head?.any isBlank = true ∧
      name ≠ [] ∧ ∀ c ∈ name, isWord c = true := by
  obtain ⟨⟨i, d⟩, hx, rfl⟩ := List.mem_map.mp he
  obtain ⟨before, rest, rfl, -, rfl, hr⟩ := Occurrence.mem_all hx
  obtain ⟨gap, name, tail, after, hd⟩ := recognise_eq_some hr
  have hstart : before.length + 4 + gap.length =
      ((['r', 'u', 'l', 'e'] ++ gap).reverse ++ before).length := by
    simp only [List.length_append, List.length_reverse, List.length_cons, List.length_nil]
    omega
  refine ⟨(['r', 'u', 'l', 'e'] ++ gap).reverse ++ before, name, tail ++ '\x7b' :: after, ?_, ?_,
    ?_, ?_, hd.name_word⟩
  · rw [hd.text]
    simp
  · rw [hd.widths]
    simp only [hstart]
  · obtain ⟨c, hc⟩ := Option.ne_none_iff_exists'.mp
      (fun hnone => hd.gap_ne_nil (List.getLast?_eq_none_iff.mp hnone))
    rw [List.reverse_append, List.append_assoc, List.head?_append, List.head?_reverse, hc,
      Option.some_or, Option.any_some]
    exact hd.gap_blank c (List.mem_of_getLast? hc)
  · rintro rfl
    exact absurd hd.name_isName (by simp [isName])

theorem words_madeOf : MadeOf isWord words := by
  intro text e he i c hstart hstop hc
  obtain ⟨before, rest, rfl, rfl, -⟩ := mem_words he
  have hword : ∀ c ∈ "rule".toList, isWord c = true := List.all_eq_true.mp rfl
  exact hword c (Text.mem_of_getElem?_place hstart hstop hc)

theorem words_beginWith : BeginWith (fun b c => b.any isWord = false ∧ c = 'r') words := by
  intro text e he
  obtain ⟨before, rest, rfl, rfl, hbefore⟩ := mem_words he
  refine ⟨'r', Text.getElem?_place rfl, ?_, rfl⟩
  rwa [Text.previous?_append]

theorem names_madeOf : MadeOf isWord names := by
  intro text e he i c hstart hstop hc
  obtain ⟨before, name, rest, rfl, rfl, -, -, hword⟩ := mem_names he
  exact hword c (Text.mem_of_getElem?_place hstart hstop hc)

theorem names_beginWith :
    BeginWith (fun b c => b.any isBlank = true ∧ isWord c = true) names := by
  intro text e he
  obtain ⟨before, name, rest, rfl, rfl, hbefore, hne, hword⟩ := mem_names he
  obtain ⟨c, cs, rfl⟩ := List.exists_cons_of_ne_nil hne
  refine ⟨c, Text.getElem?_place rfl, ?_, hword c List.mem_cons_self⟩
  rwa [Text.previous?_append]

end Declaration

namespace CharClass

def isNumeral (c : Char) : Bool := isNibble c || c == 'x' || c == '.'

theorem isNumeral_of_isNibble {c : Char} (h : isNibble c = true) : isNumeral c = true := by
  simp [isNumeral, h]

theorem isNumeral_of_isHexDigit {c : Char} (h : isHexDigit c = true) : isNumeral c = true := by
  simp [isNumeral, isNibble, h]

theorem isNumeral_of_isDigit {c : Char} (h : c.isDigit = true) : isNumeral c = true := by
  simp [isNumeral, isNibble, isHexDigit, h]

theorem isWord_of_isNumeral {c : Char} (h : isNumeral c = true) :
    isWord c = true ∨ c = '?' ∨ c = '.' := by
  simp only [isNumeral, isNibble, Bool.or_eq_true, beq_iff_eq] at h
  rcases h with ((h | h) | rfl) | h
  · exact Or.inl (isWord_of_isHexDigit h)
  · exact Or.inr (Or.inl h)
  · exact Or.inl rfl
  · exact Or.inr (Or.inr h)

end CharClass

namespace ByteSequence

-- A sequence opens where the run allows it, or right after a wildcard.
theorem opens_of_mem_cut {closings : Closings} {covered pos : Nat} {opens : Bool}
    {chars : List Char} {e : Extent} (h : e ∈ cut closings covered pos opens chars) :
    e.start = pos ∧ opens = true ∨ ∃ j, e.start = pos + j + 1 ∧ chars[j]? = some '?' := by
  induction chars generalizing covered pos opens with
  | nil => simp [cut] at h
  | cons c chars ih =>
    have later {covered' : Nat} (h : e ∈ cut closings covered' (pos + 1) (c == '?') chars) :
        e.start = pos ∧ opens = true ∨ ∃ j, e.start = pos + j + 1 ∧ (c :: chars)[j]? = some '?' := by
      rcases ih h with ⟨hstart, hc⟩ | ⟨j, hstart, hc⟩
      · exact Or.inr ⟨0, hstart, by simpa using hc⟩
      · refine Or.inr ⟨j + 1, by omega, ?_⟩
        rwa [List.getElem?_cons_succ]
    cases covered with
    | succ covered => exact later h
    | zero =>
      rw [cut] at h
      split at h
      · next stop hstop =>
        rcases List.mem_cons.mp h with rfl | h
        · refine Or.inl ⟨rfl, ?_⟩
          by_contra hopens
          simp [hopens] at hstop
        · exact later h
      · exact later h

theorem mem_all {text : List Char} {e : Extent} (he : e ∈ all text) :
    ∃ i r e', Run.Maximal isNibble text i r ∧ e' ∈ ofRun r ∧ e = ⟨i + e'.start, i + e'.stop⟩ := by
  obtain ⟨⟨i, r⟩, hx, he⟩ := List.mem_flatMap.mp he
  obtain ⟨e', he', rfl⟩ := List.mem_map.mp he
  exact ⟨i, r, e', Run.maximal_of_mem_all hx, he', rfl⟩

theorem all_madeOf : MadeOf isNumeral all := by
  intro text e he j c hstart hstop hc
  obtain ⟨i, r, e', hr, he', rfl⟩ := mem_all he
  have hbounds := farthest_bounds (farthest_of_mem_cut he')
  simp only at hstart hstop
  exact isNumeral_of_isNibble (hr.chars_eq_true c (hr.mem_chars (by omega) (by omega) hc))

theorem all_beginWith : BeginWith (fun b c => AtBoundary b c ∧ isNumeral c = true) all := by
  intro text e he
  obtain ⟨i, r, e', hr, he', rfl⟩ := mem_all he
  have hbounds := farthest_bounds (farthest_of_mem_cut he')
  have hlt : e'.start < r.chars.length := by omega
  refine ⟨r.chars.get ⟨e'.start, hlt⟩, hr.getElem?_eq hlt, ?_,
    isNumeral_of_isNibble (hr.chars_eq_true _ (List.get_mem _ _))⟩
  intro hbefore
  rcases opens_of_mem_cut he' with ⟨hstart, hopens⟩ | ⟨j, hstart, hwildcard⟩
  · simp only [hstart, Nat.add_zero, hr.previous?_eq] at hbefore
    cases hhead : r.before.head? with
    | none => simp [hhead] at hbefore
    | some b => simp_all [blocksBytes]
  · have hj : j < r.chars.length := by omega
    have hplace : i + e'.start = i + j + 1 := by omega
    rw [List.getElem?_eq_getElem hj] at hwildcard
    simp only [hplace, Text.previous?_eq_getElem? (hr.getElem?_eq hj), hwildcard] at hbefore
    exact absurd hbefore (by decide)

end ByteSequence

namespace Pattern

theorem isNumeral_of_isHexLiteral {chars : List Char} (h : isHexLiteral chars = true) :
    ∀ c ∈ chars, isNumeral c = true := by
  rw [isHexLiteral.eq_def] at h
  split at h
  · next d ds =>
    intro c hc
    rw [List.mem_cons, List.mem_cons] at hc
    rcases hc with rfl | rfl | hc
    · rfl
    · rfl
    · exact isNumeral_of_isHexDigit (List.all_eq_true.mp h c hc)
  · cases h

theorem hexLiterals_madeOf : MadeOf isNumeral hexLiterals := by
  intro text e he i c hstart hstop hc
  obtain ⟨r, hr, hkeep, hwidth⟩ := Run.mem_extents he
  rw [hwidth] at hstop
  exact isNumeral_of_isHexLiteral hkeep c (hr.mem_chars hstart hstop hc)

theorem hexLiterals_beginWith :
    BeginWith (fun b c => AtBoundary b c ∧ isNumeral c = true) hexLiterals := by
  intro text e he
  obtain ⟨r, hr, hkeep, -⟩ := Run.mem_extents he
  refine ⟨r.chars.get ⟨0, hr.length_pos⟩, hr.getElem?_eq hr.length_pos, ?_,
    isNumeral_of_isHexLiteral hkeep _ (List.get_mem _ _)⟩
  intro hbefore
  rw [hr.previous?_eq, hr.any_before] at hbefore
  cases hbefore

theorem isNumeral_of_mem_digits {c : Char} {text : List Char}
    (h : c ∈ text.takeWhile Char.isDigit) : isNumeral c = true :=
  isNumeral_of_isDigit (List.mem_takeWhile_imp h)

-- A decimal goes on after its whole part with a point at most, and digits at most after this.
theorem decimalOfWhole_eq_some {whole n : Nat} {rest : List Char}
    (h : decimalOfWhole whole rest = some n) :
    ∃ m, n = whole + m ∧ ∀ c ∈ rest.take m, isNumeral c = true := by
  have hnone : ∀ c ∈ rest.take 0, isNumeral c = true := by simp
  rw [decimalOfWhole.eq_def] at h
  split at h
  · next rest =>
    have hpoint : ∀ c ∈ ('.' :: rest).take 1, isNumeral c = true := List.all_eq_true.mp rfl
    simp only at h
    split_ifs at h
    · obtain rfl := Option.some.inj h
      refine ⟨(rest.takeWhile Char.isDigit).length + 1, by omega, ?_⟩
      intro c hc
      rw [List.take_succ_cons, Text.take_length_takeWhile, List.mem_cons] at hc
      rcases hc with rfl | hc
      · rfl
      · exact isNumeral_of_mem_digits hc
    · exact ⟨1, (Option.some.inj h).symm, hpoint⟩
    · exact ⟨0, (Option.some.inj h).symm, hnone⟩
  · split_ifs at h
    exact ⟨0, (Option.some.inj h).symm, hnone⟩

theorem decimals_madeOf : MadeOf isNumeral decimals := by
  apply Occurrence.extents_madeOf
  intro before rest n h c hc
  by_cases hpoint : ∃ tail, rest = '.' :: tail
  · obtain ⟨tail, rfl⟩ := hpoint
    rw [decimal_point] at h
    split_ifs at h
    obtain rfl := Option.some.inj h
    rw [List.take_succ_cons, Text.take_length_takeWhile, List.mem_cons] at hc
    rcases hc with rfl | hc
    · rfl
    · exact isNumeral_of_mem_digits hc
  · rw [decimal_whole (not_exists.mp hpoint)] at h
    split_ifs at h
    obtain ⟨m, rfl, hm⟩ := decimalOfWhole_eq_some h
    rw [Text.take_length_takeWhile_add, List.mem_append] at hc
    rcases hc with hc | hc
    · exact isNumeral_of_mem_digits hc
    · exact hm c hc

theorem decimals_beginWith :
    BeginWith (fun b c => AtBoundary b c ∧ isNumeral c = true) decimals := by
  apply Occurrence.extents_beginWith
  intro before rest n h
  by_cases hpoint : ∃ tail, rest = '.' :: tail
  · obtain ⟨tail, rfl⟩ := hpoint
    exact ⟨'.', rfl, fun _ => rfl, rfl⟩
  · rw [decimal_whole (not_exists.mp hpoint)] at h
    split_ifs at h with hword
    rw [Bool.or_eq_true, not_or] at hword
    cases rest with
    | nil => simp at hword
    | cons c rest =>
      have hc : c.isDigit = true := by
        by_contra hc
        simp [hc] at hword
      exact ⟨c, rfl, fun hbefore => absurd hbefore hword.1, isNumeral_of_isDigit hc⟩

theorem mem_numbers {text : List Char} {e : Extent} (he : e ∈ numbers text) :
    e ∈ hexLiterals text ∨ e ∈ decimals text ∨ e ∈ ByteSequence.all text := by
  rcases List.mem_append.mp (pool_subset _ he) with he | he
  · rcases List.mem_append.mp he with he | he
    · exact Or.inl he
    · exact Or.inr (Or.inl he)
  · exact Or.inr (Or.inr he)

theorem numbers_madeOf : MadeOf isNumeral numbers := by
  intro text e he
  rcases mem_numbers he with he | he | he
  · exact hexLiterals_madeOf text e he
  · exact decimals_madeOf text e he
  · exact ByteSequence.all_madeOf text e he

theorem numbers_beginWith :
    BeginWith (fun b c => AtBoundary b c ∧ isNumeral c = true) numbers := by
  intro text e he
  rcases mem_numbers he with he | he | he
  · exact hexLiterals_beginWith text e he
  · exact decimals_beginWith text e he
  · exact ByteSequence.all_beginWith text e he

end Pattern

end RuleHighlight
