import RuleHighlight.Span
import RuleHighlight.Text.Integer
import RuleHighlight.Text.Quoted

namespace RuleHighlight.Json

open Text (SizeFault)

inductive Scalar
  | integer (n : Int)
  | string (s : List Char)
  deriving DecidableEq, Repr

abbrev Record := List (String × Scalar)

def escape (c : Char) : List Char :=
  if c = '"' then ['\\', '"']
  else if c = '\\' then ['\\', '\\']
  else if c = '\n' then ['\\', 'n']
  else if c = '\r' then ['\\', 'r']
  else if c = '\t' then ['\\', 't']
  else if c = '\x08' then ['\\', 'b']
  else if c = '\x0c' then ['\\', 'f']
  else if c.toNat < 32 then '\\' :: 'u' :: Text.hexDigits 4 c.toNat
  else [c]

def quote (s : List Char) : List Char := '"' :: s.flatMap escape ++ ['"']

def Scalar.print : Scalar → Except SizeFault (List Char)
  | .integer n => (Text.Integer.print n).map String.toList
  | .string s => .ok (quote s)

def block (opening closing : Char) (margin : Nat) (items : List (List Char)) : List Char :=
  match items with
  | [] => [opening, closing]
  | items =>
    let inner := '\n' :: List.replicate (margin + 2) ' '
    opening :: inner ++ List.intercalate (',' :: inner) items ++
      '\n' :: List.replicate margin ' ' ++ [closing]

def printField (field : String × Scalar) : Except SizeFault (List Char) := do
  return quote field.1.toList ++ [':', ' '] ++ (← field.2.print)

def printRecord (r : Record) : Except SizeFault (List Char) := do
  return block '\x7b' '\x7d' 2 (← r.mapM printField)

def printList (rs : List Record) : Except SizeFault (List Char) := do
  return block '[' ']' 0 (← rs.mapM printRecord)

def ofSpan (text : List Char) (s : Span) : Record :=
  [("start", .integer s.start), ("end", .integer s.stop),
   ("category", .string s.category.name.toList), ("text", .string (s.textIn text))]

def render (text : List Char) (spans : List Span) : Except SizeFault (List Char) :=
  printList (spans.map (ofSpan text))

end RuleHighlight.Json
