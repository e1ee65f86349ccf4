import RuleHighlight.Category

namespace RuleHighlight

structure Style where
  cssClass : String
  color : Option String
  bold : Bool
  italic : Bool
  deriving DecidableEq, Repr

abbrev StyleTable := Category → Option Style

namespace Style

def standard : Category → Style
  | .keyword => ⟨"cm-keyword", some "#0033b3", true, false⟩
  | .string => ⟨"cm-string", some "#067d17", false, false⟩
  | .comment => ⟨"cm-comment", some "#8c8c8c", false, true⟩
  | .number => ⟨"cm-number", some "#c41a16", false, false⟩
  | .directive => ⟨"cm-meta", some "#871094", false, false⟩
  | .variableName => ⟨"cm-variableName", some "#1750eb", false, false⟩
  | .ruleName => ⟨"cm-def", some "#00627a", true, false⟩
  | .operator => ⟨"cm-operator", some "#5f6368", false, false⟩
  | .atom => ⟨"cm-atom", some "#b05a00", false, false⟩

end Style

namespace StyleTable

def full (styles : Category → Style) : StyleTable := fun c => some (styles c)

end StyleTable

end RuleHighlight
