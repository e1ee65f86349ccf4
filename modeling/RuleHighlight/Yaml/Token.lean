import RuleHighlight.Yaml.Fault

namespace RuleHighlight.Yaml

open Text (CodeText)

inductive Directive
  | version (major minor : Nat)
  | tagHandle (handle expansion : String)
  | other
  deriving DecidableEq, Repr

inductive Token
  | directive (d : Directive)
  | documentStart
  | documentEnd
  | blockSequenceStart
  | blockMappingStart
  | blockEnd
  | flowSequenceStart
  | flowSequenceEnd
  | flowMappingStart
  | flowMappingEnd
  | blockEntry
  | flowEntry
  | key
  | value
  | alias (name : String)
  | anchor (name : String)
  | tag (handle : Option String) (suffix : String)
  | scalar (text : CodeText) (plain : Bool)
  deriving DecidableEq, Repr

structure TokenStream where
  tokens : List Token
  fault : Option Fault

end RuleHighlight.Yaml
