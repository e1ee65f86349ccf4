import RuleHighlight.Proofs.Render.Segment
import RuleHighlight.Proofs.Render.StyleCode

/-!
A terminal that reads what is printed for it: it obeys the sequences that set a style, and shows
every other character in the style in force. Of a text with spans it shows the text, each character
in the style of its span, and the line feeds in no style; it never sets a style over another one.
-/

namespace RuleHighlight

open Ansi RuleHighlight.Span

namespace Terminal

inductive Mode
  | ground
  | escape
  | parameters (seen : List Char)

end Terminal

/-- A style is the sequence that set it, or nothing after it is cleared. Each setting is kept with
the style that it replaced. -/
structure Terminal where
  mode : Terminal.Mode
  style : List Char
  cells : List (Char × List Char)
  settings : List (List Char × List Char)

namespace Terminal

def cleared : Terminal := ⟨.ground, [], [], []⟩

def put (t : Terminal) (cs : List Char) : Terminal :=
  { t with mode := .ground, cells := t.cells ++ cs.map (·, t.style) }

def obey (t : Terminal) (ps : List Char) : Terminal :=
  let style := if ps = ['0'] then [] else sequence ps
  { t with mode := .ground, style := style, settings := t.settings ++ [(t.style, style)] }

def start (t : Terminal) (c : Char) : Terminal :=
  if c = escapeChar then { t with mode := .escape } else t.put [c]

-- What turns out not to be such a sequence is shown after all.
def step (t : Terminal) (c : Char) : Terminal :=
  match t.mode with
  | .ground => t.start c
  | .escape =>
    if c = '[' then { t with mode := .parameters [] } else (t.put [escapeChar]).start c
  | .parameters seen =>
    if c = 'm' then t.obey seen
    else if isParameter c then { t with mode := .parameters (seen ++ [c]) }
    else (t.put (escapeChar :: '[' :: seen)).start c

def read (t : Terminal) (stream : List Char) : Terminal := stream.foldl step t

@[simp]
theorem read_append (t : Terminal) (front back : List Char) :
    t.read (front ++ back) = (t.read front).read back := List.foldl_append

theorem read_parameters {t : Terminal} {seen ps : List Char} (ht : t.mode = .parameters seen)
    (hps : ∀ c ∈ ps, isParameter c = true) :
    t.read ps = { t with mode := .parameters (seen ++ ps) } := by
  induction ps generalizing t seen with
  | nil => simp [read, ← ht]
  | cons c ps ih =>
    obtain ⟨hc, hps⟩ := List.forall_mem_cons.mp hps
    have hm : c ≠ 'm' := by
      rintro rfl
      cases hc
    have hstep : t.step c = { t with mode := .parameters (seen ++ [c]) } := by
      simp only [step, ht, if_neg hm, if_pos hc]
    have hrest := ih (t := t.step c) (by rw [hstep]) hps
    change (t.step c).read ps = _
    rw [hrest, hstep, List.append_assoc, List.singleton_append]

theorem read_sequence {t : Terminal} {ps : List Char} (ht : t.mode = .ground)
    (hps : ∀ c ∈ ps, isParameter c = true) : t.read (sequence ps) = t.obey ps := by
  have hopen : (t.step escapeChar).step '[' = { t with mode := .parameters [] } := by
    simp [step, start, ht]
  have hread := read_parameters (t := { t with mode := .parameters [] }) rfl hps
  change ((t.step escapeChar).step '[').read (ps ++ ['m']) = _
  rw [hopen, read_append, hread]
  rfl

structure Ready (t : Terminal) (style : List Char) : Prop where
  mode_eq : t.mode = .ground
  style_eq : t.style = style
  settings_clear : ∀ x ∈ t.settings, x.2 ≠ [] → x.1 = []

def Shows (style stream style' : List Char) (cells : List (Char × List Char)) : Prop :=
  ∀ t : Terminal, t.Ready style →
    (t.read stream).Ready style' ∧ (t.read stream).cells = t.cells ++ cells

variable {style style' style'' front back : List Char}

theorem shows_nil (style : List Char) : Shows style [] style [] := by
  intro t ht
  exact ⟨ht, (List.append_nil _).symm⟩

theorem Shows.append {cells cells' : List (Char × List Char)} (h : Shows style front style' cells)
    (h' : Shows style' back style'' cells') :
    Shows style (front ++ back) style'' (cells ++ cells') := by
  intro t ht
  obtain ⟨hready, hcells⟩ := h t ht
  obtain ⟨hready', hcells'⟩ := h' _ hready
  rw [read_append]
  refine ⟨hready', ?_⟩
  rw [hcells', hcells, List.append_assoc]

theorem shows_flatMap {α : Type} {f : α → List Char} {g : α → List (Char × List Char)} {xs : List α}
    (h : ∀ x ∈ xs, Shows style (f x) style (g x)) :
    Shows style (xs.flatMap f) style (xs.flatMap g) := by
  induction xs with
  | nil => exact shows_nil style
  | cons x xs ih =>
    obtain ⟨hx, hxs⟩ := List.forall_mem_cons.mp h
    exact hx.append (ih hxs)

theorem shows_char {c : Char} (hc : c ≠ escapeChar) (style : List Char) :
    Shows style [c] style [(c, style)] := by
  intro t ht
  have hstep : t.read [c] = t.put [c] := by
    simp [read, step, start, ht.mode_eq, hc]
  rw [hstep]
  refine ⟨⟨rfl, ht.style_eq, ht.settings_clear⟩, ?_⟩
  rw [put, ht.style_eq]
  rfl

theorem shows_sequence {ps : List Char} (hps : ∀ c ∈ ps, isParameter c = true)
    (hset : style' = if ps = ['0'] then [] else sequence ps) (hclear : style' ≠ [] → style = []) :
    Shows style (sequence ps) style' [] := by
  intro t ht
  rw [read_sequence ht.mode_eq hps]
  refine ⟨⟨rfl, hset.symm, ?_⟩, (List.append_nil _).symm⟩
  intro x hx
  rcases List.mem_append.mp hx with hx | hx
  · exact ht.settings_clear x hx
  · obtain rfl := List.mem_singleton.mp hx
    rw [ht.style_eq, ← hset]
    exact hclear

theorem shows_reset (style : List Char) : Shows style reset [] [] := by
  have hps : ∀ c ∈ ['0'], isParameter c = true := List.all_eq_true.mp rfl
  exact shows_sequence hps rfl (fun h => absurd rfl h)

theorem shows_set {ps : List Char} (h : Sets ps) : Shows [] (sequence ps) (sequence ps) [] := by
  have hne : ps ≠ ['0'] := by
    rintro rfl
    exact h.head_ne_zero rfl
  exact shows_sequence h.isParameter (if_neg hne).symm (fun _ => rfl)

def codeOf (styles : StyleTable) (category : Option Category) : List Char :=
  ((category.bind styles).map code).getD []

def cell (styles : StyleTable) (x : Char × Option Category) : Char × List Char :=
  (x.1, if x.1 = '\n' then [] else codeOf styles x.2)

theorem shows_plain {chunk : List Char} (h : escapeChar ∉ chunk) :
    Shows [] chunk [] (chunk.map (·, [])) := by
  have hflat : chunk.flatMap (fun c => [c]) = chunk := List.flatMap_singleton' chunk
  have hcells : chunk.flatMap (fun c => [(c, [])]) = chunk.map (·, ([] : List Char)) :=
    List.flatMap_pure_eq_map _ chunk
  have hchars : ∀ c ∈ chunk, Shows [] [c] [] [(c, [])] :=
    fun c hc => shows_char (fun heq => h (heq ▸ hc)) []
  have hshows := shows_flatMap hchars
  rwa [hflat, hcells] at hshows

theorem shows_paintChar {ps : List Char} (h : Sets ps) {c : Char} (hc : c ≠ escapeChar) :
    Shows (sequence ps) (paintChar (sequence ps) c) (sequence ps)
      [(c, if c = '\n' then [] else sequence ps)] := by
  rw [paintChar]
  by_cases hline : c = '\n'
  · -- The style is cleared, the line feed shown, and the style set again.
    subst hline
    rw [if_pos rfl, if_pos rfl]
    exact (shows_reset _).append ((shows_char hc []).append (shows_set h))
  · rw [if_neg hline, if_neg hline]
    exact shows_char hc _

theorem shows_painted {ps chunk : List Char} (hps : Sets ps) (h : escapeChar ∉ chunk) :
    Shows [] (sequence ps ++ chunk.flatMap (paintChar (sequence ps)) ++ reset) []
      (chunk.map (fun c => (c, if c = '\n' then [] else sequence ps))) := by
  have hcells : chunk.flatMap (fun c => [(c, if c = '\n' then [] else sequence ps)]) =
      chunk.map (fun c => (c, if c = '\n' then [] else sequence ps)) :=
    List.flatMap_pure_eq_map _ chunk
  have hchars : ∀ c ∈ chunk, Shows (sequence ps) (paintChar (sequence ps) c) (sequence ps)
      [(c, if c = '\n' then [] else sequence ps)] :=
    fun c hc => shows_paintChar hps (fun heq => h (heq ▸ hc))
  have hshows := ((shows_set hps).append (shows_flatMap hchars)).append (shows_reset _)
  rwa [hcells, List.nil_append, List.append_nil] at hshows

theorem codeOf_eq {styles : StyleTable} (hstyles : styles.HasHexColors) (category : Option Category) :
    codeOf styles category = [] ∨ ∃ ps, Sets ps ∧ codeOf styles category = sequence ps := by
  rw [codeOf]
  cases hstyle : category.bind styles with
  | none => exact Or.inl rfl
  | some style =>
    obtain ⟨c, -, hstyle⟩ := Option.bind_eq_some_iff.mp hstyle
    exact code_eq (hstyles c style hstyle)

theorem paint_of_nil {styles : StyleTable} {s : Segment} (h : codeOf styles s.category = []) :
    paint styles s = s.chunk := by
  rw [codeOf] at h
  rw [paint, h]

theorem paint_of_sequence {styles : StyleTable} {s : Segment} {ps : List Char}
    (h : codeOf styles s.category = sequence ps) :
    paint styles s = sequence ps ++ s.chunk.flatMap (paintChar (sequence ps)) ++ reset := by
  rw [codeOf] at h
  rw [paint, h]
  rfl

theorem shows_paint {styles : StyleTable} (hstyles : styles.HasHexColors) {s : Segment}
    (h : escapeChar ∉ s.chunk) :
    Shows [] (paint styles s) [] (s.marks.map (cell styles)) := by
  have hcells : s.marks.map (cell styles) =
      s.chunk.map (fun c => (c, if c = '\n' then [] else codeOf styles s.category)) := List.map_map
  rw [hcells]
  rcases codeOf_eq hstyles s.category with hcode | ⟨ps, hps, hcode⟩
  · have hplain := shows_plain h
    rw [paint_of_nil hcode, hcode]
    simpa only [ite_self] using hplain
  · rw [paint_of_sequence hcode, hcode]
    exact shows_painted hps h

theorem shows_render {styles : StyleTable} (hstyles : styles.HasHexColors) {text : List Char}
    (htext : escapeChar ∉ text) {spans : List Span} (hspans : Laid text spans) :
    Shows [] (render styles text spans) []
      (text.zipIdx.map (fun x => cell styles (x.1, categoryAt? spans x.2))) := by
  have hcells : (Segment.list text spans).flatMap (fun s => s.marks.map (cell styles)) =
      text.zipIdx.map (fun x => cell styles (x.1, categoryAt? spans x.2)) := by
    rw [← List.map_flatMap, Segment.marks_list hspans, List.map_map]
    rfl
  have hchunk : ∀ s ∈ Segment.list text spans, escapeChar ∉ s.chunk := by
    intro s hs hmem
    apply htext
    rw [← Segment.chunks_list hspans]
    exact List.mem_flatMap.mpr ⟨s, hs, hmem⟩
  rw [← hcells]
  exact shows_flatMap (fun s hs => shows_paint hstyles (hchunk s hs))

/-- The terminal shows the text, each character in the style of its span. -/
theorem read_render (styles : StyleTable) (text : List Char) (spans : List Span)
    (htext : escapeChar ∉ text) (hspans : Laid text spans) (hstyles : styles.HasHexColors) :
    ∃ t, cleared.read (render styles text spans) = t ∧ t.cells.map Prod.fst = text ∧
      (∀ (i : Nat) (x : Char × List Char), t.cells[i]? = some x → x.1 ≠ '\n' →
        ∀ s ∈ spans, s.start ≤ i → i < s.stop →
          x.2 = ((styles s.category).map code).getD []) ∧
      (∀ (i : Nat) (x : Char × List Char), t.cells[i]? = some x →
        (x.1 = '\n' ∨ ∀ s ∈ spans, ¬ (s.start ≤ i ∧ i < s.stop)) → x.2 = []) ∧
      (∀ x ∈ t.settings, x.2 ≠ [] → x.1 = []) ∧ t.style = [] ∧ t.mode = .ground := by
  have hcleared : cleared.Ready [] := ⟨rfl, rfl, fun x hx => by cases hx⟩
  obtain ⟨hready, hcells⟩ := shows_render hstyles htext hspans cleared hcleared
  have hcell : ∀ (i : Nat) (x : Char × List Char),
      (cleared.read (render styles text spans)).cells[i]? = some x →
        x.2 = if x.1 = '\n' then [] else codeOf styles (categoryAt? spans i) := by
    intro i x hx
    rw [hcells, cleared, List.nil_append, List.getElem?_map, List.getElem?_zipIdx, Nat.zero_add]
      at hx
    obtain ⟨y, hy, rfl⟩ := Option.map_eq_some_iff.mp hx
    obtain ⟨c, -, rfl⟩ := Option.map_eq_some_iff.mp hy
    rfl
  refine ⟨_, rfl, ?_, ?_, ?_, hready.settings_clear, hready.style_eq, hready.mode_eq⟩
  · rw [hcells, cleared, List.nil_append, List.map_map]
    exact List.zipIdx_map_fst 0 text
  · intro i x hx hline s hs hstart hstop
    have hcategory := hspans.laidFrom.categoryAt?_eq_some hs (decide_eq_true ⟨hstart, hstop⟩)
    rw [hcell i x hx, if_neg hline, hcategory]
    rfl
  · intro i x hx hplain
    rw [hcell i x hx]
    by_cases hline : x.1 = '\n'
    · rw [if_pos hline]
    · have hnone : categoryAt? spans i = none := by
        rw [categoryAt?, Option.map_eq_none_iff, List.find?_eq_none]
        intro s hs hcovers
        exact hplain.resolve_left hline s hs (of_decide_eq_true hcovers)
      rw [if_neg hline, hnone]
      rfl

theorem read_render_lines :
    escapeChar ∉ "/*\n*/ $a".toList ∧
      Laid "/*\n*/ $a".toList [⟨⟨0, 5⟩, .comment⟩, ⟨⟨6, 8⟩, .variableName⟩] ∧
      (StyleTable.full Style.standard).HasHexColors ∧
      ∃ t, cleared.read (render (.full Style.standard) "/*\n*/ $a".toList
          [⟨⟨0, 5⟩, .comment⟩, ⟨⟨6, 8⟩, .variableName⟩]) = t ∧
        t.cells.map Prod.fst = "/*\n*/ $a".toList ∧
        (∀ x, t.cells[4]? = some x → x.1 ≠ '\n' → x.2 = code (Style.standard .comment)) ∧
        (∀ x, t.cells[5]? = some x → x.2 = []) ∧ t.style = [] := by
  have htext : escapeChar ∉ "/*\n*/ $a".toList := by decide
  have hspans : Laid "/*\n*/ $a".toList [⟨⟨0, 5⟩, .comment⟩, ⟨⟨6, 8⟩, .variableName⟩] :=
    ⟨by decide, by decide, by decide⟩
  obtain ⟨t, ht, hchars, hin, hout, -, hstyle, -⟩ :=
    read_render (.full Style.standard) _ _ htext hspans hasHexColors_standard
  refine ⟨htext, hspans, hasHexColors_standard, t, ht, hchars, ?_, ?_, hstyle⟩
  · intro x hx hline
    exact hin 4 x hx hline _ List.mem_cons_self (by decide) (by decide)
  · intro x hx
    exact hout 5 x hx (Or.inr (by decide))

end Terminal

end RuleHighlight
