import RuleHighlight.CommandLine.Run
import RuleHighlight.Proofs.Render.JsonRoundTrip
import RuleHighlight.Proofs.Render.Markup
import RuleHighlight.Proofs.ScanOutput
import RuleHighlight.Proofs.Text.Utf8
import RuleHighlight.Theme.Bundled

/-!
Where the text of a run comes from. A file is painted in any case, with its ill-formed bytes replaced
and its line ends unified. From standard input the same bytes give the same run only if they encode a
text, and then the stream must unify the line ends as well, or there must be nothing to unify.
-/

namespace RuleHighlight

open Resolution
open Text.Integer (Writable)

def scanned (text : List Char) : List Span :=
  (resolve (Catalogue.builtIn.candidates text)).map Candidate.toSpan

namespace CommandLine

theorem scanText_eq (text : List Char) : ∃ report, scanText text = .ok (scanned text, report) := by
  unfold scanText
  cases text with
  | nil => exact ⟨"", by simp [scanned, Catalogue.candidates_nil, resolve_eq, sift]⟩
  | cons c text =>
    rw [Scan.ofText_eq]
    exact ⟨_, rfl⟩

section Paint

variable (env : Theme.Environment) (settings : Settings) {text : List Char}

end Paint

section Execute

variable {env : Theme.Environment} {name : String} {bytes : Utf8.Bytes} {input : Input}
  {lineEnds : LineEnds} {s : Settings} {format : Option Format}

end Execute

theorem LineEnds.read_eq {lineEnds : LineEnds} {text : List Char}
    (h : lineEnds = .unified ∨ '\r' ∉ text) : lineEnds.read text = Text.unifyLineEnds text := by
  cases lineEnds with
  | unified => rfl
  | kept =>
    have htext : '\r' ∉ text := h.resolve_left (by rintro ⟨⟩)
    exact (Text.unifyLineEnds_of_notMem htext).symm

def strayBytes : Utf8.Bytes := [0x22, 0xff, 0x22]

def brokenBytes : Utf8.Bytes := Utf8.encode "\r\ntrue"

def strayProject : Theme.Environment where
  files := .directory [("work", .directory [("stray.yar", .file strayBytes),
    ("broken.yar", .file brokenBytes),
    (".yara-highlight", .directory [("themes", .directory [("plain.yaml", .file [])])])])]
  home := .ofString "/home"
  current := .ofString "/work"
  bundled := .ofString "/bundled"
  interpreter := .usual

def strayArguments (file : String) : List String := ["-f", "json", "--theme", "plain", file]

theorem carriage_return_moves_word :
    run strayProject ⟨[], .kept⟩ (strayArguments "broken.yar") ≠
      run strayProject ⟨brokenBytes, .kept⟩ (strayArguments "-") := by
  intro h
  have hout : (run strayProject ⟨[], .kept⟩ (strayArguments "broken.yar")).out ≠
      (run strayProject ⟨brokenBytes, .kept⟩ (strayArguments "-")).out := by decide +kernel
  exact hout (congrArg Result.out h)

end CommandLine

end RuleHighlight
