import RuleHighlight.Pattern.ByteSequence

namespace RuleHighlight.Pattern

open CharClass

def isHexLiteral : List Char → Bool
  | '0' :: 'x' :: d :: ds => (d :: ds).all isHexDigit
  | _ => false

def hexLiterals (text : List Char) : List Extent :=
  Run.extents isWord (fun r => isHexLiteral r.chars) text

/-- A decimal stands between word boundaries. Its point belongs to it only where this leaves a
boundary after it, so `1.5` is taken whole, but of `1.5a` only `1.` and of a final `1.` only `1`.
A decimal may start with its point only right after a word. -/
def decimal : Recogniser Nat := fun before rest =>
  let afterWord := before.head?.any isWord
  match rest with
  | '.' :: rest' =>
    let digits := rest'.takeWhile Char.isDigit
    if afterWord && !digits.isEmpty && !(rest'.dropWhile Char.isDigit).head?.any isWord then
      some (digits.length + 1)
    else
      none
  | _ =>
    let whole := rest.takeWhile Char.isDigit
    if afterWord || whole.isEmpty then
      none
    else
      match rest.dropWhile Char.isDigit with
      | '.' :: rest' =>
        let digits := rest'.takeWhile Char.isDigit
        if !digits.isEmpty && !(rest'.dropWhile Char.isDigit).head?.any isWord then
          some (whole.length + 1 + digits.length)
        else if rest'.head?.any isWord then
          some (whole.length + 1)
        else
          some whole.length
      | rest' => if rest'.head?.any isWord then none else some whole.length

def decimals (text : List Char) : List Extent := Occurrence.extents decimal text

def firstPerStart : Option Nat → List Extent → List Extent
  | _, [] => []
  | last, e :: rest =>
    if last = some e.start then firstPerStart last rest else e :: firstPerStart (some e.start) rest

def pool (found : List Extent) : List Extent :=
  firstPerStart none (found.mergeSort Extent.longestFirst)

def numbers (text : List Char) : List Extent :=
  pool (hexLiterals text ++ decimals text ++ ByteSequence.all text)

end RuleHighlight.Pattern
