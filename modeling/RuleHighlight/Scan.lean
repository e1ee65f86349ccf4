import RuleHighlight.Catalogue
import RuleHighlight.Resolution
import RuleHighlight.Emission

namespace RuleHighlight

structure Scan where
  candidates : List Candidate
  rejected : List Candidate
  spans : List Span
  deriving DecidableEq, Repr

namespace Scan

def ofText (catalogue : Catalogue) (text : List Char) : Except EmissionError Scan :=
  let candidates := catalogue.candidates text
  let resolution := Resolution.ofCandidates candidates
  match emit resolution.accepted with
  | .ok spans => .ok ⟨candidates, resolution.rejected, spans⟩
  | .error e => .error e

def summary (a : Scan) (text : List Char) : String :=
  "scanned " ++ toString text.length ++ " chars: " ++ toString a.candidates.length ++
    " candidates, " ++ toString a.spans.length ++ " spans, " ++ toString a.rejected.length ++
    " rejected"

end Scan

def scan (catalogue : Catalogue) (text : List Char) : Except EmissionError (List Span) :=
  if text.isEmpty then .ok [] else (Scan.ofText catalogue text).map (·.spans)

inductive Content
  | text (chars : List Char)
  | other (kind : String)
  deriving DecidableEq, Repr

inductive ScanError
  | notText (kind : String)
  | emission (error : EmissionError)
  deriving DecidableEq, Repr

def ScanError.message : ScanError → String
  | .notText kind => "scan() expects str, got " ++ kind
  | .emission error => error.message

def Content.scan (catalogue : Catalogue) : Content → Except ScanError (List Span)
  | .text chars => (RuleHighlight.scan catalogue chars).mapError .emission
  | .other kind => .error (.notText kind)

end RuleHighlight
