import RuleHighlight.Proofs.Render.JsonReader
import Mathlib.Data.List.Basic

namespace RuleHighlight

namespace Text

/-- The place that an offset names: a negative one counts from the end of the text, and what is
still outside is moved to the nearer end. -/
def place (length : Nat) (offset : Int) : Int :=
  max 0 (min length (if offset < 0 then length + offset else offset))

theorem clamp_eq_place (length : Nat) (offset : Int) :
    clamp length offset = place length offset := by
  unfold clamp place
  split_ifs <;> omega

theorem filter_zipIdx (i j : Nat) (text : List Char) :
    (text.zipIdx.filter fun a => i ≤ a.2 ∧ a.2 < j).map Prod.fst =
      (text.drop i).take (j - i) := by
  induction text generalizing i j with
  | nil => rw [List.zipIdx_nil, List.drop_nil, List.take_nil, List.filter_nil, List.map_nil]
  | cons c text ih =>
    rw [List.zipIdx_cons', List.filter_cons, List.filter_map]
    cases j with
    | zero => simp
    | succ j =>
      cases i with
      | zero =>
        have hrest := ih 0 j
        simp only [Nat.zero_le, true_and, List.drop_zero, Nat.sub_zero] at hrest
        simp [← hrest, Function.comp_def]
      | succ i =>
        have hrest := ih i j
        simp [← hrest, Function.comp_def]

end Text

def Range.covered (r : Range) (text : List Char) : List Char :=
  (text.zipIdx.filter fun a =>
    Text.place text.length r.start ≤ a.2 ∧ a.2 < Text.place text.length r.stop).map Prod.fst

theorem Range.textIn_eq_covered (r : Range) (text : List Char) :
    r.textIn text = r.covered text := by
  rw [Range.textIn, Text.slice, Range.covered]
  simp only [← Text.clamp_eq_place, Int.ofNat_le, Int.ofNat_lt]
  exact (Text.filter_zipIdx _ _ text).symm

namespace Json

open Text (SizeFault)

def Scalar.chars : Scalar → List Char
  | .integer n => (toString n).toList
  | .string s => quote s

def fieldChars (field : String × Scalar) : List Char :=
  quote field.1.toList ++ [':', ' '] ++ field.2.chars

def recordChars (r : Record) : List Char := block '\x7b' '\x7d' 2 (r.map fieldChars)

def listChars (rs : List Record) : List Char := block '[' ']' 0 (rs.map recordChars)

def Scalar.Writable : Scalar → Prop
  | .integer n => Text.Integer.Writable n
  | .string _ => True

def Record.Writable (r : Record) : Prop := ∀ field ∈ r, field.2.Writable

structure Prints {α : Type} (print : α → Except SizeFault (List Char)) (P : α → Prop)
    (chars : α → List Char) : Prop where
  ok : ∀ a, P a → print a = .ok (chars a)
  error : ∀ a, ¬ P a → print a = .error .tooManyDigits

section Printing

variable {α : Type} {print : α → Except SizeFault (List Char)} {P : α → Prop}
  {chars : α → List Char}

theorem Prints.mapM (h : Prints print P chars) :
    (∀ as : List α, (∀ a ∈ as, P a) → as.mapM print = .ok (as.map chars)) ∧
      ∀ as : List α, (¬ ∀ a ∈ as, P a) → as.mapM print = .error .tooManyDigits := by
  constructor
  · intro as has
    induction as with
    | nil => rfl
    | cons a as ih =>
      rw [List.forall_mem_cons] at has
      rw [List.mapM_cons, h.ok a has.1, ih has.2]
      rfl
  · intro as has
    induction as with
    | nil => exact absurd (List.forall_mem_nil _) has
    | cons a as ih =>
      rw [List.forall_mem_cons, not_and] at has
      rw [List.mapM_cons]
      by_cases ha : P a
      · rw [h.ok a ha, ih (has ha)]
        rfl
      · rw [h.error a ha]
        rfl

theorem Prints.block (h : Prints print P chars) (opening closing : Char) (margin : Nat) :
    Prints (fun as : List α => do return Json.block opening closing margin (← as.mapM print))
      (fun as => ∀ a ∈ as, P a) (fun as => Json.block opening closing margin (as.map chars)) := by
  constructor
  · intro as has
    rw [h.mapM.1 as has]
    rfl
  · intro as has
    rw [h.mapM.2 as has]
    rfl

theorem prints_scalar : Prints Scalar.print Scalar.Writable Scalar.chars := by
  constructor
  · intro x hx
    cases x with
    | integer n =>
      rw [Scalar.Writable] at hx
      rw [Scalar.print, Text.Integer.print, if_pos hx]
      rfl
    | string s => rfl
  · intro x hx
    cases x with
    | integer n =>
      rw [Scalar.Writable] at hx
      rw [Scalar.print, Text.Integer.print, if_neg hx]
      rfl
    | string s => exact absurd trivial hx

theorem prints_field : Prints printField (fun field => field.2.Writable) fieldChars := by
  constructor
  · intro field hfield
    rw [printField, prints_scalar.ok _ hfield]
    rfl
  · intro field hfield
    rw [printField, prints_scalar.error _ hfield]
    rfl

theorem prints_record : Prints printRecord Record.Writable recordChars :=
  prints_field.block '\x7b' '\x7d' 2

theorem prints_list : Prints printList (fun rs => ∀ r ∈ rs, r.Writable) listChars :=
  prints_record.block '[' ']' 0

end Printing

def Scalar.value : Scalar → Value
  | .integer n => .integer n
  | .string s => .string s

def fieldValue (field : String × Scalar) : List Char × Value := (field.1.toList, field.2.value)

def recordValue (r : Record) : Value := .object (r.map fieldValue)

section Pieces

variable (depth : Nat)

theorem rereads_scalar (x : Scalar) :
    Rereads (readValue (depth + 1)) Scalar.chars Scalar.value x := by
  intro blank rest hblank hrest
  cases x with
  | string s =>
    have hskip : skip (blank ++ (quote s ++ rest)) = '"' :: (s.flatMap escape ++ '"' :: rest) := by
      rw [quote, List.append_assoc]
      exact skip_append hblank rfl
    simp only [Scalar.chars, readValue, hskip, readString_escape]
    rfl
  | integer n => exact readValue_toString depth hblank n hrest

theorem rereads_field (field : String × Scalar) :
    Rereads (readMember (readValue (depth + 1))) fieldChars fieldValue field := by
  intro blank rest hblank hrest
  have hskip : skip (blank ++ (fieldChars field ++ rest)) =
      '"' :: (field.1.toList.flatMap escape ++ '"' :: ':' :: ' ' :: (field.2.chars ++ rest)) := by
    simp only [fieldChars, quote, List.append_assoc]
    exact skip_append hblank rfl
  have hcolon (s : List Char) : skip (':' :: s) = ':' :: s := rfl
  have hblank' : ∀ c ∈ [' '], isSpace c = true := List.forall_mem_singleton.mpr rfl
  have hvalue : readValue (depth + 1) (' ' :: (field.2.chars ++ rest)) =
      some (field.2.value, rest) := rereads_scalar depth field.2 [' '] rest hblank' hrest
  simp only [readMember, hskip, readString_escape, hcolon, hvalue, Option.bind_eq_bind,
    Option.bind_some, Option.pure_def, fieldValue]

theorem rereads_record (r : Record) :
    Rereads (readValue (depth + 2)) recordChars recordValue r := by
  intro blank rest hblank hrest
  have hstart (field : String × Scalar) (_ : field ∈ r) : StartsItem '\x7d' fieldChars field :=
    ⟨'"', _, rfl, rfl, by decide⟩
  obtain ⟨tail, htail, hread⟩ : ∃ tail, recordChars r ++ rest = '\x7b' :: tail ∧ _ :=
    readSequence_block hstart (fun field _ => rereads_field depth field) rfl (by decide)
  have hskip : skip (blank ++ (recordChars r ++ rest)) = '\x7b' :: tail := by
    rw [htail]
    exact skip_append hblank rfl
  exact readValue_object hskip hread

theorem readValue_listChars (rs : List Record) :
    readValue (depth + 3) (listChars rs) = some (.array (rs.map recordValue), []) := by
  have hstart (r : Record) (_ : r ∈ rs) : StartsItem ']' recordChars r := by
    cases r with
    | nil => exact ⟨'\x7b', _, rfl, rfl, by decide⟩
    | cons field r => exact ⟨'\x7b', _, rfl, rfl, by decide⟩
  obtain ⟨tail, htail, hread⟩ : ∃ tail, listChars rs ++ [] = '[' :: tail ∧ _ :=
    readSequence_block hstart (fun r _ => rereads_record depth r) rfl (by decide)
  rw [List.append_nil] at htail
  have hskip : skip (listChars rs) = '[' :: tail := by
    rw [htail]
    rfl
  exact readValue_array hskip hread

end Pieces

theorem parse_listChars (rs : List Record) :
    parse (listChars rs) = some (.array (rs.map recordValue)) := by
  cases rs with
  | nil => rfl
  | cons r rs =>
    obtain ⟨depth, hdepth⟩ : ∃ depth, (listChars (r :: rs)).length = depth + 3 := ⟨_, rfl⟩
    rw [parse, hdepth, readValue_listChars]
    rfl

def spanValue (text : List Char) (s : Span) : Value :=
  .object [("start".toList, .integer s.start), ("end".toList, .integer s.stop),
    ("category".toList, .string s.category.name.toList), ("text".toList, .string (s.covered text))]

def spanOf? : Value → Option (Span × List Char)
  | .object [(k₁, .integer i), (k₂, .integer j), (k₃, .string name), (k₄, .string s)] =>
    if [k₁, k₂, k₃, k₄].map String.ofList = ["start", "end", "category", "text"] then
      (Category.ofName? (String.ofList name)).map fun c => (⟨⟨i, j⟩, c⟩, s)
    else none
  | _ => none

def spans? : Value → Option (List (Span × List Char))
  | .array items => items.mapM spanOf?
  | _ => none

theorem recordValue_ofSpan (text : List Char) (s : Span) :
    recordValue (ofSpan text s) = spanValue text s := by
  simp only [recordValue, ofSpan, List.map_cons, List.map_nil, fieldValue, Scalar.value,
    Range.textIn_eq_covered, spanValue]

theorem spanOf?_spanValue (text : List Char) (s : Span) :
    spanOf? (spanValue text s) = some (s, s.covered text) := by
  simp [spanValue, spanOf?]

theorem spans?_spanValues (text : List Char) (spans : List Span) :
    spans? (.array (spans.map (spanValue text))) =
      some (spans.map fun s => (s, s.covered text)) := by
  induction spans with
  | nil => rfl
  | cons s spans ih =>
    rw [spans?] at ih ⊢
    simp only [List.map_cons, List.mapM_cons, spanOf?_spanValue, ih, Option.bind_eq_bind,
      Option.bind_some, Option.pure_def]

def HasWritableOffsets (s : Span) : Prop :=
  Text.Integer.Writable s.start ∧ Text.Integer.Writable s.stop

theorem writable_ofSpan_iff (text : List Char) (s : Span) :
    (ofSpan text s).Writable ↔ HasWritableOffsets s := by
  simp [Record.Writable, ofSpan, Scalar.Writable, HasWritableOffsets]

theorem render_eq (text : List Char) (spans : List Span) :
    ((∀ s ∈ spans, HasWritableOffsets s) →
      render text spans = .ok (listChars (spans.map (ofSpan text)))) ∧
    ((¬ ∀ s ∈ spans, HasWritableOffsets s) → render text spans = .error .tooManyDigits) := by
  have hwritable : (∀ r ∈ spans.map (ofSpan text), r.Writable) ↔
      ∀ s ∈ spans, HasWritableOffsets s := by
    simp only [List.forall_mem_map, writable_ofSpan_iff]
  rw [← hwritable]
  exact ⟨prints_list.ok _, prints_list.error _⟩

/-- What is rendered parses as the objects of the spans, in their order, and from these the spans
are recovered with the characters they cover. Spans are rendered unless an offset has too many
digits. -/
theorem parse_render (text : List Char) (spans : List Span) :
    ((∀ s ∈ spans, HasWritableOffsets s) → ∃ out, render text spans = .ok out ∧
      parse out = some (.array (spans.map (spanValue text))) ∧
      (parse out).bind spans? = some (spans.map fun s => (s, s.covered text))) ∧
    ((¬ ∀ s ∈ spans, HasWritableOffsets s) → render text spans = .error .tooManyDigits) := by
  refine ⟨fun h => ⟨_, (render_eq text spans).1 h, ?_⟩, (render_eq text spans).2⟩
  have hparse : parse (listChars (spans.map (ofSpan text))) =
      some (.array (spans.map (spanValue text))) := by
    rw [parse_listChars, List.map_map]
    simp only [Function.comp_def, recordValue_ofSpan]
  rw [hparse]
  exact ⟨rfl, spans?_spanValues text spans⟩

theorem offset_not_rendered :
    render [] [⟨⟨0, Text.leastOverlong⟩, .atom⟩] = .error .tooManyDigits := by
  refine (render_eq _ _).2 fun h => ?_
  exact Text.Integer.not_writable_leastOverlong (h _ List.mem_cons_self).2

end Json

end RuleHighlight
