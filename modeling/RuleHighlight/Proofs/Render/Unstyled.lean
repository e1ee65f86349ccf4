import RuleHighlight.Proofs.Extents
import RuleHighlight.Proofs.Render.Terminal

/-!
What is left of a stream when the sequences that set a style are taken out of it. It is what a
terminal shows, so of a painted text the text itself is left.
-/

namespace RuleHighlight

open Ansi RuleHighlight.Span

namespace Terminal

def sequenceWidth? : List Char → Option Nat
  | '\x1b' :: '[' :: rest =>
    match rest.dropWhile isParameter with
    | 'm' :: _ => some ((rest.takeWhile isParameter).length + 3)
    | _ => none
  | _ => none

def stripFrom : Nat → List Char → List Char
  | _, [] => []
  | covered + 1, _ :: rest => stripFrom covered rest
  | 0, c :: rest =>
    match sequenceWidth? (c :: rest) with
    | some w => stripFrom (w - 1) rest
    | none => c :: stripFrom 0 rest

def strip (stream : List Char) : List Char := stripFrom 0 stream

variable {c : Char} {ps seen front rest : List Char}

theorem stripFrom_length (front rest : List Char) :
    stripFrom front.length (front ++ rest) = strip rest := by
  induction front with
  | nil => rfl
  | cons c front ih => simpa [stripFrom] using ih

theorem strip_sequence (hps : ∀ c ∈ ps, isParameter c = true) (rest : List Char) :
    strip (sequence ps ++ rest) = strip rest := by
  have hstream : sequence ps ++ rest = '\x1b' :: '[' :: (ps ++ 'm' :: rest) := by
    simp [Ansi.sequence, escapeChar]
  have hwidth : sequenceWidth? ('\x1b' :: '[' :: (ps ++ 'm' :: rest)) = some (ps.length + 3) := by
    rw [sequenceWidth?, Text.dropWhile_of_all hps rfl, Text.takeWhile_of_all hps rfl]
    rfl
  have hcovered := stripFrom_length ('[' :: (ps ++ ['m'])) rest
  rw [hstream, strip, stripFrom, hwidth]
  simpa using hcovered

theorem strip_cons (h : sequenceWidth? (c :: rest) = none) : strip (c :: rest) = c :: strip rest := by
  rw [strip, stripFrom, h]
  rfl

theorem sequenceWidth?_of_ne (hc : c ≠ escapeChar) (rest : List Char) :
    sequenceWidth? (c :: rest) = none := by
  rw [sequenceWidth?]
  intro _ heq
  exact hc (List.cons.inj heq).1

theorem strip_append (h : escapeChar ∉ front) (rest : List Char) :
    strip (front ++ rest) = front ++ strip rest := by
  induction front with
  | nil => rfl
  | cons c front ih =>
    simp only [List.mem_cons, not_or] at h
    rw [List.cons_append, strip_cons (sequenceWidth?_of_ne (Ne.symm h.1) _), ih h.2,
      List.cons_append]

theorem strip_unended (hseen : ∀ c ∈ seen, isParameter c = true) (rest : List Char)
    (hrest : rest.head?.any (fun c => isParameter c || c == 'm') = false) :
    strip (escapeChar :: '[' :: (seen ++ rest)) = escapeChar :: '[' :: (seen ++ strip rest) := by
  have hwidth : sequenceWidth? (escapeChar :: '[' :: (seen ++ rest)) = none := by
    rw [escapeChar, sequenceWidth?, List.dropWhile_append_of_pos hseen]
    cases rest with
    | nil => rfl
    | cons c rest =>
      simp at hrest
      simp [hrest]
  have hplain : escapeChar ∉ '[' :: seen := by
    simp only [List.mem_cons, not_or]
    exact ⟨by decide, fun h => by cases hseen _ h⟩
  rw [strip_cons hwidth]
  exact congrArg (escapeChar :: ·) (strip_append hplain _)

def Mode.pending : Mode → List Char
  | .ground => []
  | .escape => [escapeChar]
  | .parameters seen => escapeChar :: '[' :: seen

def Mode.Legible (m : Mode) : Prop := ∀ seen, m = .parameters seen → ∀ c ∈ seen, isParameter c = true

def characters (t : Terminal) : List Char := t.cells.map Prod.fst

@[simp]
theorem characters_put (t : Terminal) (cs : List Char) :
    (t.put cs).characters = t.characters ++ cs := by
  simp [characters, put, Function.comp_def]

theorem legible_start (t : Terminal) (c : Char) : (t.start c).mode.Legible := by
  rw [start]
  split_ifs <;> rintro _ ⟨⟩

theorem characters_start (t : Terminal) (c : Char) (rest : List Char) :
    (t.start c).characters ++ strip ((t.start c).mode.pending ++ rest) =
      t.characters ++ strip (c :: rest) := by
  by_cases hc : c = escapeChar
  · rw [start, if_pos hc, hc]
    rfl
  · rw [start, if_neg hc, characters_put, strip_cons (sequenceWidth?_of_ne hc rest)]
    simp [put, Mode.pending]

theorem legible_step {t : Terminal} (h : t.mode.Legible) (c : Char) : (t.step c).mode.Legible := by
  rw [step]
  split
  · exact legible_start t c
  · split_ifs
    · rintro _ ⟨⟩ _ ⟨⟩
    · exact legible_start _ c
  · next seen hmode =>
    split_ifs with hm hc
    · rintro _ ⟨⟩
    · rintro _ ⟨⟩ d hd
      rcases List.mem_append.mp hd with hd | hd
      · exact h seen hmode d hd
      · rwa [List.mem_singleton.mp hd]
    · exact legible_start _ c

theorem characters_step {t : Terminal} (h : t.mode.Legible) (c : Char) (rest : List Char) :
    (t.step c).characters ++ strip ((t.step c).mode.pending ++ rest) =
      t.characters ++ strip (t.mode.pending ++ c :: rest) := by
  rw [step]
  split
  next hmode =>
    rw [characters_start, hmode]
    rfl
  next hmode =>
    rw [hmode]
    split_ifs with hc
    · rw [hc]
      rfl
    · have hwidth : sequenceWidth? (escapeChar :: c :: rest) = none := by
        simp [sequenceWidth?, hc]
      rw [characters_start, characters_put, List.append_assoc]
      exact congrArg (t.characters ++ ·) (strip_cons hwidth).symm
  next seen hmode =>
    have hseen := h seen hmode
    rw [hmode]
    split_ifs with hm hc
    · have hstream : Mode.pending (.parameters seen) ++ c :: rest = sequence seen ++ rest := by
        simp [Mode.pending, Ansi.sequence, hm]
      rw [hstream, strip_sequence hseen]
      rfl
    · simp [Mode.pending, characters]
    · have hrest : (c :: rest).head?.any (fun c => isParameter c || c == 'm') = false := by
        simp [hm, hc]
      rw [characters_start, characters_put, List.append_assoc]
      exact congrArg (t.characters ++ ·) (strip_unended hseen _ hrest).symm

theorem strip_pending {m : Mode} (h : m.Legible) : strip m.pending = m.pending := by
  cases m with
  | ground => rfl
  | escape => rfl
  | parameters seen =>
    have hstrip := strip_unended (h seen rfl) [] rfl
    rwa [List.append_nil, strip, strip, stripFrom, List.append_nil] at hstrip

theorem characters_read {t : Terminal} (h : t.mode.Legible) (stream : List Char) :
    (t.read stream).characters ++ (t.read stream).mode.pending =
      t.characters ++ strip (t.mode.pending ++ stream) := by
  induction stream generalizing t with
  | nil => rw [List.append_nil, strip_pending h]; rfl
  | cons c stream ih => rw [← characters_step h, ← ih (legible_step h c)]; rfl

theorem strip_of_shows {stream style : List Char} {cells : List (Char × List Char)}
    (h : Shows [] stream style cells) : strip stream = cells.map Prod.fst := by
  have hcleared : cleared.Ready [] := ⟨rfl, rfl, fun x hx => by cases hx⟩
  obtain ⟨hready, hcells⟩ := h cleared hcleared
  have hread := characters_read (t := cleared) (fun _ h => by cases h) stream
  rw [hready.mode_eq, characters, hcells] at hread
  simpa [Mode.pending, characters, cleared] using hread.symm

theorem strip_render {styles : StyleTable} (hstyles : styles.HasHexColors) {text back : List Char}
    (htext : escapeChar ∉ text) (hback : escapeChar ∉ back) {spans : List Span}
    (hspans : Laid text spans) : strip (render styles text spans ++ back) = text ++ back := by
  have hshows := (shows_render hstyles htext hspans).append (shows_plain hback)
  rw [strip_of_shows hshows, List.map_append, List.map_map, List.map_map]
  congr 1
  · exact List.zipIdx_map_fst 0 text
  · exact List.map_id back

end Terminal

namespace Ansi

open Terminal

variable {styles : StyleTable} {text : List Char}

theorem getLast?_paint {s : Segment} (h : codeOf styles s.category ≠ []) :
    (paint styles s).getLast? = some 'm' := by
  rw [codeOf] at h
  rw [paint]
  split
  next hnil => exact absurd hnil h
  next => simp [reset]

theorem getLast?_drop {i : Nat} (h : i < text.length) : (text.drop i).getLast? = text.getLast? := by
  rw [List.getLast?_drop, if_neg (by omega)]

theorem getLast?_paintFrom (hcodes : ∀ c, codeOf styles (some c) ≠ []) {pos : Nat}
    {spans : List Span} (h : LaidFrom text.length pos spans) :
    ((Segment.listFrom text pos spans).flatMap (paint styles)).getLast? =
      if ∃ s ∈ spans, s.stop = text.length then some 'm' else (text.drop pos).getLast? := by
  induction spans generalizing pos with
  | nil =>
    rw [Segment.listFrom_nil h, Segment.flatMap_unmarked rfl]
    simp [paint]
  | cons s rest ih =>
    obtain ⟨i, j, hi, hj, hpos, hlt, hle, hrest⟩ := h
    rw [Segment.listFrom_cons rest hi hj hpos hlt hle, List.flatMap_append, List.flatMap_cons,
      List.getLast?_append, List.getLast?_append, ih hrest, getLast?_paint (hcodes s.category)]
    simp only [List.exists_mem_cons_iff, hj]
    by_cases hend : ∃ t ∈ rest, t.stop = text.length
    · simp [hend]
    · simp only [hend, or_false, if_false]
      by_cases hstop : j = text.length
      · simp [hstop]
      · have hne : text ≠ [] := List.ne_nil_of_length_pos (by omega)
        rw [getLast?_drop (by omega), getLast?_drop (by omega), if_neg (by omega),
          List.getLast?_eq_some_getLast hne]
        rfl

theorem getLast?_render (hcodes : ∀ c, codeOf styles (some c) ≠ []) {spans : List Span}
    (h : Laid text spans) : (render styles text spans).getLast? =
      if ∃ s ∈ spans, s.stop = text.length then some 'm' else text.getLast? :=
  getLast?_paintFrom hcodes h.laidFrom

end Ansi

end RuleHighlight
