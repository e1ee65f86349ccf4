import RuleHighlight.Text.CodePoint
import RuleHighlight.Yaml.Timestamp

namespace RuleHighlight.Yaml

open Text (CodeText)

inductive Tag
  | null
  | boolean
  | integer
  | float
  | binary
  | timestamp
  | orderedPairs
  | pairs
  | set
  | string
  | sequence
  | mapping
  | merge
  | defaultValue
  | unknown
  deriving DecidableEq, Repr

namespace Tag

def core : String := "tag:yaml.org,2002:"

def ofName (name : String) : Tag :=
  ([("null", null), ("bool", boolean), ("int", integer), ("float", float), ("binary", binary),
    ("timestamp", timestamp), ("omap", orderedPairs), ("pairs", pairs), ("set", set),
    ("str", string), ("seq", sequence), ("map", mapping), ("merge", merge),
    ("value", defaultValue)].find? (fun (n, _) => core ++ n == name)).elim unknown Prod.snd

def dropSign : List Char → List Char
  | c :: rest => if c = '+' ∨ c = '-' then rest else c :: rest
  | [] => []

def isDigitOrMark (c : Char) : Bool := c.isDigit || c == '_'

def isSixtieth : List Char → Bool
  | [d] => d.isDigit
  | [t, d] => decide ('0' ≤ t ∧ t ≤ '5') && d.isDigit
  | _ => false

def isBoolean (s : List Char) : Bool :=
  ["yes", "Yes", "YES", "no", "No", "NO", "true", "True", "TRUE", "false", "False", "FALSE",
   "on", "On", "ON", "off", "Off", "OFF"].contains (String.ofList s)

def isNull (s : List Char) : Bool := ["~", "null", "Null", "NULL", ""].contains (String.ofList s)

def startsWithDigit : List Char → Bool
  | c :: _ => c.isDigit
  | [] => false

def isExponent : List Char → Bool
  | [] => true
  | e :: sign :: d :: ds =>
    (e == 'e' || e == 'E') && (sign == '+' || sign == '-') && (d :: ds).all Char.isDigit
  | _ => false

def isPointForm (s : List Char) : Bool :=
  let t := dropSign s
  match t.dropWhile isDigitOrMark with
  | '.' :: rest =>
    isExponent (rest.dropWhile isDigitOrMark) &&
      (startsWithDigit t || (t.head? == some '.' && t == s && startsWithDigit rest))
  | _ => false

def isSixtiethPointForm (s : List Char) : Bool :=
  let t := dropSign s
  match t.dropWhile (· != '.') with
  | '.' :: rest =>
    match (t.takeWhile (· != '.')).splitOn ':' with
    | p :: q :: qs => startsWithDigit p && p.all isDigitOrMark && (q :: qs).all isSixtieth &&
        rest.all isDigitOrMark
    | _ => false
  | _ => false

def isFloat (s : List Char) : Bool :=
  isPointForm s || isSixtiethPointForm s ||
    [".inf", ".Inf", ".INF"].contains (String.ofList (dropSign s)) ||
    [".nan", ".NaN", ".NAN"].contains (String.ofList s)

def isNonzeroDigit (c : Char) : Bool := c.isDigit && c != '0'

def isInteger (s : List Char) : Bool :=
  match dropSign s with
  | ['0'] => true
  | '0' :: 'b' :: d :: ds => (d :: ds).all (fun c => c == '0' || c == '1' || c == '_')
  | '0' :: 'x' :: d :: ds =>
    (d :: ds).all (fun c => c.isDigit || ('a' ≤ c && c ≤ 'f') || ('A' ≤ c && c ≤ 'F') || c == '_')
  | '0' :: d :: ds => (d :: ds).all (fun c => ('0' ≤ c && c ≤ '7') || c == '_')
  | d :: ds =>
    match (d :: ds).splitOn ':' with
    | p :: qs => isNonzeroDigit d && p.all isDigitOrMark && qs.all isSixtieth
    | [] => false
  | [] => false

def isTimestamp (s : List Char) : Bool :=
  match Written.moment? s with
  | some (.date _ padded) => padded
  | some (.timestamp _) => true
  | none => false

def withoutFinalLineEnd (s : List Char) : List Char :=
  if s.getLast? = some '\n' then s.dropLast else s

def ofForm (s : List Char) : Tag :=
  if isBoolean s then boolean
  else if isFloat s then float
  else if isInteger s then integer
  else if s = ['<', '<'] then merge
  else if isNull s then null
  else if isTimestamp s then timestamp
  else if s = ['='] then defaultValue
  else if s = ['!'] ∨ s = ['&'] ∨ s = ['*'] then unknown
  else string

def ofPlain (text : CodeText) : Tag :=
  match text.chars? with
  | some s => if s = ['\n'] then string else ofForm (withoutFinalLineEnd s)
  | none => string

end Tag

end RuleHighlight.Yaml
