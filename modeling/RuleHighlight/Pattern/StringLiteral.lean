import RuleHighlight.Text.CharClass
import RuleHighlight.Text.Occurrence

namespace RuleHighlight.Pattern

open CharClass

def literalBody : List Char → Nat
  | [] => 0
  | ['\\'] => 1
  | '\\' :: c :: rest => if isLineEnd c then 1 else literalBody rest + 2
  | c :: rest => if c = '"' then 1 else if isLineEnd c then 0 else literalBody rest + 1

def stringLiteral : Recogniser Nat
  | _, '"' :: rest => some (literalBody rest + 1)
  | _, _ => none

def stringLiterals (text : List Char) : List Extent := Occurrence.extents stringLiteral text

end RuleHighlight.Pattern
