import RuleHighlight.Span
import RuleHighlight.Text.Integer

namespace RuleHighlight

open Text (SizeFault)
open Text.Integer (print)

inductive EmissionFault
  | emptyRange (start stop : Int)
  | overlapsPrevious (start previousStop : Int)
  deriving DecidableEq, Repr

def EmissionFault.message : EmissionFault → Except SizeFault String
  | .emptyRange start stop => do
    return "empty range [" ++ (← print start) ++ ", " ++ (← print stop) ++ ")"
  | .overlapsPrevious start previousStop => do
    return "starts at " ++ (← print start) ++ " before previous span ends at " ++
      (← print previousStop)

def spanMessage (index : Option Int) (message : String) : Except SizeFault String :=
  match index with
  | some i => do return "span #" ++ (← print i) ++ ": " ++ message
  | none => return message

inductive EmissionError
  | order (index : Nat) (message : String)
  | size (fault : SizeFault)
  deriving DecidableEq, Repr

def EmissionError.message : EmissionError → String
  | order _ message => message
  | size fault => fault.message

def EmissionFault.raise (fault : EmissionFault) (index : Nat) : EmissionError :=
  match fault.message.bind (spanMessage (some index)) with
  | .ok message => .order index message
  | .error fault => .size fault

namespace Emission

def faultOf? (previousStop : Option Int) (c : Candidate) : Option EmissionFault :=
  if c.isEmpty then
    some (.emptyRange c.start c.stop)
  else
    match previousStop with
    | some stop => if c.start < stop then some (.overlapsPrevious c.start stop) else none
    | none => none

def run : Nat → Option Int → List Candidate → Except EmissionError (List Span)
  | _, _, [] => .ok []
  | index, previousStop, c :: rest =>
    match faultOf? previousStop c with
    | some fault => .error (fault.raise index)
    | none =>
      match run (index + 1) (some c.stop) rest with
      | .ok spans => .ok (c.toSpan :: spans)
      | .error e => .error e

end Emission

def emit (accepted : List Candidate) : Except EmissionError (List Span) :=
  Emission.run 0 none accepted

end RuleHighlight
