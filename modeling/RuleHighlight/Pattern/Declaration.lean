import RuleHighlight.Text.CharClass
import RuleHighlight.Text.Occurrence

/-!
Rule declarations: the word `rule`, blanks, a name of at most 128 characters, and an opening brace
that only blanks may come before. A declaration gives two aligned extents, its word and its name.
-/

namespace RuleHighlight

structure Declaration where
  gap : Nat
  name : Nat
  tail : Nat
  deriving DecidableEq, Repr

namespace Declaration

open CharClass

def maxNameWidth : Nat := 128

def width (d : Declaration) : Nat := 4 + d.gap + d.name + d.tail + 1

def isName : List Char → Bool
  | [] => false
  | c :: cs => isWordStart c && decide (cs.length < maxNameWidth)

def recognise : Recogniser Declaration
  | before, 'r' :: 'u' :: 'l' :: 'e' :: rest =>
    let gap := rest.takeWhile isBlank
    let afterGap := rest.dropWhile isBlank
    let name := afterGap.takeWhile isWord
    let afterName := afterGap.dropWhile isWord
    let tail := afterName.takeWhile isBlank
    if before.head?.any isWord || gap.isEmpty || !isName name ||
        (afterName.dropWhile isBlank).head? != some '\x7b' then
      none
    else
      some ⟨gap.length, name.length, tail.length⟩
  | _, _ => none

def all (text : List Char) : List (Nat × Declaration) := Occurrence.all recognise width text

def words (text : List Char) : List Extent := (all text).map (fun (pos, _) => ⟨pos, pos + 4⟩)

def names (text : List Char) : List Extent :=
  (all text).map (fun (pos, d) => ⟨pos + 4 + d.gap, pos + 4 + d.gap + d.name⟩)

end Declaration

end RuleHighlight
