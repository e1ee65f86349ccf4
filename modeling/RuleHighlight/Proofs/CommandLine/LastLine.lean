import RuleHighlight.Theme.Bundled
import RuleHighlight.Proofs.CommandLine.Source
import RuleHighlight.Proofs.CommentInterior
import RuleHighlight.Proofs.Pattern.CommentSearch
import RuleHighlight.Proofs.Render.Unstyled
import RuleHighlight.Proofs.Theme.Loading
import RuleHighlight.Proofs.WholeWords

/-!
How a run for the terminal ends. Without its sequences the output is the text, and a line feed is
added to a text that does not end with one. It is added as well where the last line feed stands in
a comment that is never closed: there the output ends with a sequence.
-/

namespace RuleHighlight

open Ansi CharClass Pattern Resolution Terminal

namespace Theme

open Yaml
open Text (CodeText)

theorem readFile_encode (path : Path) {s : String} (h : '\r' ∉ s.toList) :
    readFile path (.file (Utf8.encode s)) = .ok s.toList := by
  rw [readFile, Utf8.decode_encode]
  exact congrArg Except.ok (Text.unifyLineEnds_of_notMem h)

def Interpreter.ReadsLight (interpreter : Interpreter) : Prop :=
  interpreter.readYaml Bundled.light.toList = Document.ofText Bundled.light.toList

theorem readsLight_usual : Interpreter.usual.ReadsLight :=
  congrFun (Eq.refl Document.ofText) Bundled.light.toList

theorem Look.style_ofStyle (s : Style) : (Look.ofStyle s).style = s := by
  have hclass : (CodeText.ofString s.cssClass).toString = s.cssClass := by
    rw [CodeText.toString, CodeText.ofString, CodeText.toChars_ofChars, String.ofList_toList]
  have hcolor : (s.color.map CodeText.ofString).bind CodeText.string? = s.color := by
    cases s.color with
    | none => rfl
    | some color => exact CodeText.string?_ofString color
  rw [style, ofStyle, hclass, hcolor]

theorem ofText_congr {i j : Interpreter} {text : List Char}
    (h : i.readYaml text = j.readYaml text) : ofText i text = ofText j text := by
  unfold ofText
  rw [h]

set_option maxRecDepth 8000 in
theorem ofText_light {interpreter : Interpreter} (h : interpreter.ReadsLight) :
    ofText interpreter Bundled.light.toList = ([], .ok Look.standard) := by
  obtain ⟨hwarnings, hlooks⟩ : (ofText .usual Bundled.light.toList).1.isEmpty = true ∧
      (ofText .usual Bundled.light.toList).2.toOption.map (Category.all.map ·) =
        some (Category.all.map Look.standard) := by
    -- The characters are taken from the string first; to compute them again is slow.
    rw [show Bundled.light = String.ofList _ from rfl, String.toList_ofList]
    decide +kernel
  rw [ofText_congr (h.trans readsLight_usual.symm)]
  cases hread : ofText .usual Bundled.light.toList with
  | mk warnings result =>
    rw [hread] at hwarnings hlooks
    cases result with
    | error failure => cases hlooks
    | ok looks =>
      have hstandard : looks = Look.standard := by
        funext c
        exact List.map_inj_left.mp (Option.some.inj hlooks) c (Category.mem_all c)
      have hnone : warnings = [] := List.isEmpty_iff.mp hwarnings
      rw [hnone, hstandard]

set_option maxRecDepth 8000 in
theorem return_notMem_light : '\r' ∉ Bundled.light.toList := by
  rw [show Bundled.light = String.ofList _ from rfl, String.toList_ofList]
  decide +kernel

theorem load_of_unwarned {env : Environment} {app theme : String} {path : Path} {tree : FileTree}
    {text : List Char} {looks : Category → Look} (h : env.Finds app theme path tree)
    (hread : readFile path tree = .ok text)
    (htext : ofText env.interpreter text = ([], .ok looks)) :
    load env app theme = ([], .ok ⟨path, looks⟩) := by
  unfold load
  rw [h.locate_eq]
  simp only [hread, htext, Warning.log]
  rfl

theorem load_light {env : Environment} {app theme : String} {path : Path}
    (hyaml : env.interpreter.ReadsLight)
    (h : env.Finds app theme path (.file (Utf8.encode Bundled.light))) :
    load env app theme = ([], .ok ⟨path, Look.standard⟩) :=
  load_of_unwarned h (readFile_encode path return_notMem_light) (ofText_light hyaml)

end Theme

/-- A comment that reaches the end of the text because nothing closes it. -/
structure LeftOpen (text : List Char) (s : Span) : Prop where
  category_eq : s.category = .comment
  stop_eq : s.stop = text.length
  exists_opener : ∃ i : Nat, s.start = i ∧ Text.HasAt text ['/', '*'] i ∧ terminators text i = ∅

theorem leftOpen_of_stop {text : List Char} (hline : text.getLast? = some '\n') {k : Candidate}
    (hk : k ∈ Catalogue.builtIn.candidates text) (hstop : k.stop = text.length) :
    LeftOpen text k.toSpan := by
  obtain ⟨d, hd, hkd⟩ := Catalogue.mem_candidates.mp hk
  have hlt := (Definition.mem_candidates.mp hkd).2.2.2
  obtain ⟨i, hi⟩ := Int.eq_ofNat_of_zero_le (Catalogue.candidates_bounded hk).1
  have hpiece : k.textIn text = text.drop i := by
    rw [Range.textIn, hi, hstop, Text.slice_of_le (by omega) le_rfl]
    exact List.take_of_length_le (by simp)
  have hend : '\n' ∈ k.textIn text := by
    rw [hpiece]
    apply List.mem_of_getLast?
    rwa [getLast?_drop (by omega)]
  obtain ⟨hcategory, hopen⟩ := Catalogue.builtIn_inline text d hd k hkd ⟨'\n', hend, rfl⟩
  rw [hpiece] at hopen
  obtain ⟨body, hbody⟩ := hopen
  have hblock := Catalogue.mem_blockComments hk hcategory hi hstop hbody.symm
  refine ⟨hcategory, hstop, i, hi, ?_⟩
  obtain ⟨hopens, hcloses⟩ := (comments_decomposes text).sees _ hblock
  refine ⟨hopens, ?_⟩
  rcases hcloses with ⟨j, hleast, hj⟩ | ⟨hnone, -⟩
  · have hlength : text.length = j + 2 := hj
    have hclose : text.drop j = ['*', '/'] := by
      refine ((Text.hasAt_iff.mp hleast.1.2).eq_of_length ?_).symm
      rw [List.length_drop]
      exact (Nat.sub_eq_of_eq_add' hlength).symm
    rw [← getLast?_drop (i := j) (by omega), hclose] at hline
    cases hline
  · exact hnone

theorem laid_scanned (text : List Char) : Span.Laid text (scanned text) := by
  have hordered := resolve_ordered (Catalogue.builtIn.candidates text)
  refine ⟨?_, ?_, ?_⟩
  · exact List.forall_mem_map.mpr hordered.start_lt_stop
  · intro s hs
    obtain ⟨k, hk, rfl⟩ := List.mem_map.mp hs
    exact Catalogue.candidates_bounded (resolve_subset _ hk)
  · exact List.pairwise_map.mpr hordered.pairwise

theorem exists_leftOpen_iff {text : List Char} (hline : text.getLast? = some '\n') :
    (∃ s ∈ scanned text, LeftOpen text s) ↔ ∃ s ∈ scanned text, s.stop = text.length := by
  constructor
  · rintro ⟨s, hs, h⟩
    exact ⟨s, hs, h.stop_eq⟩
  · rintro ⟨s, hs, hstop⟩
    obtain ⟨k, hk, rfl⟩ := List.mem_map.mp hs
    exact ⟨_, hs, leftOpen_of_stop hline (resolve_subset _ hk) hstop⟩

theorem codeOf_standard (c : Category) : codeOf (.full Style.standard) (some c) ≠ [] := by
  cases c <;> decide

theorem getLast?_render_scanned (text : List Char) :
    (render (.full Style.standard) text (scanned text)).getLast? = some '\n' ↔
      text.getLast? = some '\n' ∧ ¬ ∃ s ∈ scanned text, LeftOpen text s := by
  rw [getLast?_render codeOf_standard (laid_scanned text)]
  split_ifs with hend
  · constructor
    · intro h
      cases h
    · rintro ⟨hline, hopen⟩
      exact absurd ((exists_leftOpen_iff hline).mpr hend) hopen
  · constructor
    · intro hline
      exact ⟨hline, fun hopen => hend ((exists_leftOpen_iff hline).mp hopen)⟩
    · exact And.left

namespace CommandLine

variable {env : Theme.Environment} {path : Path} {s : Settings}

theorem styles_standard (path : Path) : Theme.Loaded.styles ⟨path, Theme.Look.standard⟩ =
    Style.standard :=
  funext fun _ => Theme.Look.style_ofStyle _

theorem paint_out (hyaml : env.interpreter.ReadsLight)
    (htheme : env.Finds themeApp s.themeName path (.file (Utf8.encode Theme.Bundled.light)))
    (text : List Char) :
    (paint env s (some .ansi) text).ending = .exit 0 ∧
    (paint env s (some .ansi) text).out.toList =
      endWithLineFeed (render (.full Style.standard) text (scanned text)) := by
  obtain ⟨report, hscan⟩ := scanText_eq text
  have hpage : page (.full Style.standard) s.css .ansi text (scanned text) =
      .ok (String.ofList (endWithLineFeed (render (.full Style.standard) text (scanned text)))) := by
    simp [page, stylesheetBlock, Format.render]
    rfl
  have hshown : shownTexts Theme.Look.standard s.css .ansi (scanned text) = [] := rfl
  unfold paint
  simp only [Theme.load_light hyaml htheme, hscan, styles_standard, hpage, hshown]
  simp

theorem run_eq_paint {input : Input} {arguments : List String} {text : List Char}
    (hs : parse Format.builtIn.names arguments = .ok s) (hformat : s.format = some "ansi")
    (hread : readSource env input s.source = .ok text) :
    run env input arguments = paint env s (some .ansi) text := by
  have hget : s.format.bind Format.builtIn.get? = some .ansi := by
    rw [hformat]
    rfl
  rw [run, hs]
  dsimp only
  rw [execute, hread, hget]

/-- A run for the terminal with the bundled theme ends well, and without its sequences prints the
text. A line feed comes after it unless the text ends with one that is not in a comment left open. The
text is any one without escapes, and a run paints what it reads. -/
theorem strip_run (hyaml : env.interpreter.ReadsLight)
    (htheme : env.Finds themeApp s.themeName path (.file (Utf8.encode Theme.Bundled.light)))
    (hformat : s.format = some "ansi") {text : List Char} (htext : escapeChar ∉ text) :
    ((paint env s (some .ansi) text).ending = .exit 0 ∧
      ∃ spans, scan Catalogue.builtIn text = .ok spans ∧
        ((text.getLast? = some '\n' ∧ ¬ ∃ s ∈ spans, LeftOpen text s) →
          strip (paint env s (some .ansi) text).out.toList = text) ∧
        (¬ (text.getLast? = some '\n' ∧ ¬ ∃ s ∈ spans, LeftOpen text s) →
          strip (paint env s (some .ansi) text).out.toList = text ++ ['\n'])) ∧
    ∀ input arguments, parse Format.builtIn.names arguments = .ok s →
      readSource env input s.source = .ok text →
      run env input arguments = paint env s (some .ansi) text := by
  obtain ⟨hending, hout⟩ := paint_out hyaml htheme text
  have hstrip (back : List Char) (hback : escapeChar ∉ back) :=
    strip_render hasHexColors_standard htext hback (laid_scanned text)
  refine ⟨⟨hending, scanned text, scan_builtIn text, ?_, ?_⟩, ?_⟩
  · intro h
    rw [hout, endWithLineFeed, if_pos ((getLast?_render_scanned text).mpr h)]
    simpa using hstrip [] List.not_mem_nil
  · intro h
    rw [hout, endWithLineFeed, if_neg (fun hline => h ((getLast?_render_scanned text).mp hline))]
    exact hstrip ['\n'] (by decide)
  · intro input arguments hs hread
    exact run_eq_paint hs hformat hread

def bareProject : Theme.Environment where
  files := .nested ["bundled", "default.yaml"] (.file (Utf8.encode Theme.Bundled.light))
  home := .ofString "/home"
  current := .ofString "/work"
  bundled := .ofString "/bundled"
  interpreter := .usual

theorem finds_bareProject : bareProject.Finds themeApp "default" (bareProject.bundledFile "default")
    (.file (Utf8.encode Theme.Bundled.light)) := .bundled rfl rfl rfl

theorem readsLight_bareProject : bareProject.interpreter.ReadsLight := Theme.readsLight_usual

theorem readInput_encode {t : String} {lineEnds : LineEnds}
    (h : lineEnds = .unified ∨ '\r' ∉ t.toList) :
    readInput ⟨Utf8.encode t, lineEnds⟩ = .ok (Text.unifyLineEnds t.toList) := by
  rw [readInput, Utf8.decode_encode, ← LineEnds.read_eq h]
  rfl

theorem strip_run_line :
    strip (run bareProject ⟨Utf8.encode "true\n", .kept⟩ []).out.toList = "true\n".toList := by
  have hread : readSource bareProject ⟨Utf8.encode "true\n", .kept⟩ "-" = .ok "true\n".toList :=
    readInput_encode (.inr (by decide))
  have hopens : ∀ i, ¬ Text.HasAt "true\n".toList ['/', '*'] i := by
    intro i hat
    have hmem := List.mem_of_mem_drop ((Text.hasAt_iff.mp hat).subset List.mem_cons_self)
    revert hmem
    decide
  obtain ⟨⟨-, spans, -, hstrip, -⟩, hrun⟩ := strip_run (s := .initial)
    readsLight_bareProject finds_bareProject rfl (show escapeChar ∉ "true\n".toList by decide)
  rw [hrun _ [] rfl hread]
  apply hstrip
  refine ⟨rfl, ?_⟩
  rintro ⟨s, -, hopen⟩
  obtain ⟨i, -, hat, -⟩ := hopen.exists_opener
  exact hopens i hat

theorem line_feed_added_to_open_comment :
    strip (run bareProject ⟨Utf8.encode "/*\n", .unified⟩ []).out.toList = "/*\n\n".toList := by
  have hread : readSource bareProject ⟨Utf8.encode "/*\n", .unified⟩ "-" = .ok "/*\n".toList :=
    readInput_encode (.inl rfl)
  have hperm : (Catalogue.builtIn.candidates "/*\n".toList).Perm
      [⟨⟨0, 3⟩, .comment, 1⟩, ⟨⟨0, 2⟩, .operator, 7⟩] := by decide +kernel
  rw [run_eq_paint (show parse Format.builtIn.names [] = .ok .initial from rfl) rfl hread,
    (paint_out (s := .initial) readsLight_bareProject finds_bareProject _).2, scanned,
    Catalogue.resolve_of_perm hperm (by decide)]
  decide +kernel

end CommandLine

end RuleHighlight
