import RuleHighlight.Span

namespace RuleHighlight

structure Segment where
  chunk : List Char
  category : Option Category
  deriving DecidableEq, Repr

namespace Segment

def listFrom (text : List Char) : Int → List Span → List Segment
  | pos, [] => if pos < text.length then [⟨Text.sliceFrom text pos, none⟩] else []
  | pos, s :: rest =>
    let painted := ⟨s.textIn text, some s.category⟩ :: listFrom text s.stop rest
    if pos < s.start then ⟨Text.slice text pos s.start, none⟩ :: painted else painted

def list (text : List Char) (spans : List Span) : List Segment := listFrom text 0 spans

end Segment

end RuleHighlight
