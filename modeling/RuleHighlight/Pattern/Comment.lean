import RuleHighlight.Text.CharClass
import RuleHighlight.Text.Occurrence

namespace RuleHighlight.Pattern

open CharClass

def blockBody : List Char → Nat
  | [] => 0
  | '*' :: '/' :: _ => 2
  | _ :: rest => blockBody rest + 1

def blockComment : Recogniser Nat
  | _, '/' :: '*' :: rest => some (blockBody rest + 2)
  | _, _ => none

def blockComments (text : List Char) : List Extent := Occurrence.extents blockComment text

def lineWidth (rest : List Char) : Nat := (rest.takeWhile (fun c => !isLineEnd c)).length

def lineComment : Recogniser Nat
  | _, '/' :: '/' :: rest => some (lineWidth rest + 2)
  | _, _ => none

def lineComments (text : List Char) : List Extent := Occurrence.extents lineComment text

def directive : Recogniser Nat
  | before, '#' :: rest => if before.head?.all isLineEnd then some (lineWidth rest + 1) else none
  | _, _ => none

def directives (text : List Char) : List Extent := Occurrence.extents directive text

end RuleHighlight.Pattern
