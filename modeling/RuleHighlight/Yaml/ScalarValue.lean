import RuleHighlight.Text.Base64
import RuleHighlight.Text.LowerCase
import RuleHighlight.Yaml.Fault
import RuleHighlight.Yaml.Tag
import RuleHighlight.Yaml.Value

namespace RuleHighlight.Yaml

open Text (CodeText)

namespace Scalar

def fault {α : Type} (f : ScalarFault) : Except Fault α := .error (.scalar f)

def ofTruthText (text : CodeText) : Except Fault Scalar :=
  let word := Text.lower text
  if ["yes", "true", "on"].any (fun w => .ofString w == word) then .ok (.boolean true)
  else if ["no", "false", "off"].any (fun w => .ofString w == word) then .ok (.boolean false)
  else fault (.truthValue word)

def readInteger (base : Nat) (s : CodeText) : Except Fault Int :=
  let digits := Text.Integer.leadingDigits s.front
  if base = 10 ∧ Text.maxDigits < digits then fault (.integerSize digits)
  else
    match s.chars?.bind (Text.Integer.read? base) with
    | some n => .ok n
    | none => fault (.integer base s)

def splitSign : CodeText → Int × CodeText
  | .char '-' :: rest => (-1, rest)
  | .char '+' :: rest => (1, rest)
  | s => (1, s)

def withoutMarks (s : CodeText) : CodeText := s.filter (· != .char '_')

def inBaseSixty (pieces : List Int) : Int := pieces.foldl (fun n p => n * 60 + p) 0

def ofIntegerText (text : CodeText) : Except Fault Scalar := do
  let s := withoutMarks text
  if s.isEmpty then fault .emptyNumber
  else
    let (sign, s) := splitSign s
    let magnitude ←
      match s with
      | [] => fault .emptyNumber
      | .char '0' :: .char 'b' :: rest => readInteger 2 rest
      | .char '0' :: .char 'x' :: rest => readInteger 16 rest
      | .char '0' :: rest => if rest.isEmpty then pure 0 else readInteger 8 s
      | _ =>
        if s.contains (.char ':') then
          let parts ← (s.splitOn (.char ':')).mapM (readInteger 10)
          pure (inBaseSixty parts)
        else readInteger 10 s
    return .integer (sign * magnitude)

def readFloat (s : CodeText) : Except Fault Binary64 :=
  match s.chars?.bind Binary64.read? with
  | some x => .ok x
  | none => fault (.float s)

def floatInBaseSixty (pieces : List Binary64) : Except Fault Binary64 := do
  let (sum, _) ← pieces.reverse.foldlM (fun (acc : Binary64 × Nat) p => do
    let power := Binary64.ofNat acc.2
    if power = .infinite false then fault .floatRange
    return (acc.1.add (p.mul power), acc.2 * 60)) (.zero false, 1)
  return sum

def ofFloatText (text : CodeText) : Except Fault Scalar := do
  let s := Text.lower (withoutMarks text)
  if s.isEmpty then fault .emptyNumber
  else
    let (sign, s) := splitSign s
    let signed (x : Binary64) : Scalar := .float (if sign < 0 then x.negate else x)
    if s = .ofString ".inf" then return signed (.infinite false)
    else if s = .ofString ".nan" then return .float .nan
    else if s.contains (.char ':') then
      let parts ← (s.splitOn (.char ':')).mapM readFloat
      return signed (← floatInBaseSixty parts)
    else return signed (← readFloat s)

def ofBinaryText (text : CodeText) : Except Fault Scalar :=
  match text.chars? with
  | none => .error .malformed
  | some s =>
    if s.all (fun c => c.toNat < 128) then
      match Base64.decode? s with
      | some bs => .ok (.bytes bs)
      | none => .error .malformed
    else .error .malformed

def ofTimestampText (text : CodeText) : Except Fault Scalar :=
  match text.chars?.bind (fun s => Written.moment? (Tag.withoutFinalLineEnd s)) with
  | none => fault .timestamp
  | some (.date d _) => ((d.check).map Scalar.date).mapError (fun f => .scalar (.calendar f))
  | some (.timestamp t) =>
    ((t.check).map Scalar.timestamp).mapError (fun f => .scalar (.calendar f))

def ofText? (tag : Tag) : Option (CodeText → Except Fault Scalar) :=
  match tag with
  | .null => some fun _ => .ok null
  | .boolean => some ofTruthText
  | .integer => some ofIntegerText
  | .float => some ofFloatText
  | .binary => some ofBinaryText
  | .timestamp => some ofTimestampText
  | .string => some fun s => .ok (text s)
  | _ => none

end Scalar

end RuleHighlight.Yaml
