import RuleHighlight.Scan

/-!
A session keeps the spans of a document that is being edited. An update counts if the document or
the visible part changed; it then scans its text anew and replaces the spans as a whole. An
update that fails leaves the session as it was.
-/

namespace RuleHighlight

structure Update where
  content : Content
  documentChanged : Bool
  viewportChanged : Bool
  viewport : Option (Int × Int)
  deriving DecidableEq, Repr

structure Session where
  catalogue : Catalogue
  spans : List Span
  scans : Nat

namespace Session

def attach (catalogue : Catalogue) (content : Content) : Except ScanError Session :=
  (content.scan catalogue).map fun spans => ⟨catalogue, spans, 1⟩

inductive Outcome
  | unchanged
  | refreshed
  | failed (error : ScanError)
  deriving DecidableEq, Repr

def update (s : Session) (u : Update) : Outcome × Session :=
  if u.documentChanged || u.viewportChanged then
    match u.content.scan s.catalogue with
    | .ok spans => (.refreshed, { s with spans := spans, scans := s.scans + 1 })
    | .error e => (.failed e, s)
  else
    (.unchanged, s)

def run (s : Session) : List Update → List (Outcome × Session)
  | [] => []
  | u :: rest =>
    let r := s.update u
    r :: run r.2 rest

end Session

end RuleHighlight
