import RuleHighlight.Text.Extent

/-!
Occurrences of a construct in a text. A recogniser looks at one place: at the characters before
it, nearest first, and at those from it on, and answers what it sees there, if anything. The
occurrences are found from left to right: at each place that no earlier occurrence covers, the
recogniser is asked, and what it answers is an occurrence that covers as many characters as its
width says, but at least one.

The walk is by structural recursion on the text, with the number of characters still covered as
its only state besides the place.
-/

namespace RuleHighlight

abbrev Recogniser (α : Type) := List Char → List Char → Option α

namespace Occurrence

variable {α : Type}

def walk (recognise : Recogniser α) (width : α → Nat) :
    Nat → Nat → List Char → List Char → List (Nat × α)
  | _, _, _, [] => []
  | covered + 1, pos, before, c :: rest =>
    walk recognise width covered (pos + 1) (c :: before) rest
  | 0, pos, before, c :: rest =>
    match recognise before (c :: rest) with
    | none => walk recognise width 0 (pos + 1) (c :: before) rest
    | some a => (pos, a) :: walk recognise width (width a - 1) (pos + 1) (c :: before) rest

def all (recognise : Recogniser α) (width : α → Nat) (text : List Char) : List (Nat × α) :=
  walk recognise width 0 0 [] text

def extents (recognise : Recogniser Nat) (text : List Char) : List Extent :=
  (all recognise id text).map (fun (pos, width) => ⟨pos, pos + width⟩)

end Occurrence

/-- A longest stretch of characters of one class, with the text before it, nearest first, and the
text after it. -/
structure Run where
  before : List Char
  chars : List Char
  after : List Char
  deriving DecidableEq, Repr

namespace Run

def recognise (p : Char → Bool) : Recogniser Run := fun before rest =>
  match rest.takeWhile p with
  | [] => none
  | c :: cs => some ⟨before, c :: cs, rest.dropWhile p⟩

def all (p : Char → Bool) (text : List Char) : List (Nat × Run) :=
  Occurrence.all (recognise p) (fun r => r.chars.length) text

def extents (p : Char → Bool) (keep : Run → Bool) (text : List Char) : List Extent :=
  ((all p text).filter (fun (_, r) => keep r)).map (fun (pos, r) => ⟨pos, pos + r.chars.length⟩)

end Run

end RuleHighlight
