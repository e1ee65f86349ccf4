import RuleHighlight.Pattern.Word

/-!
Operators: runs of operator characters. A lone colon right after a section label ends the section
header and is no operator.
-/

namespace RuleHighlight.Pattern

open CharClass

def followsSectionLabel (before : List Char) : Bool :=
  sectionLabels.any fun label =>
    let reversed := label.toList.reverse
    reversed.isPrefixOf before && !((before.drop reversed.length).head?.any isWord)

def isSectionColon (r : Run) : Bool := r.chars == [':'] && followsSectionLabel r.before

def operators (text : List Char) : List Extent :=
  Run.extents isOperator (fun r => !isSectionColon r) text

end RuleHighlight.Pattern
