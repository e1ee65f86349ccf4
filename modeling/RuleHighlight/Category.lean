namespace RuleHighlight

inductive Category
  | keyword
  | string
  | comment
  | number
  | directive
  | variableName
  | ruleName
  | operator
  | atom
  deriving DecidableEq, Repr

namespace Category

def all : List Category :=
  [keyword, string, comment, number, directive, variableName, ruleName, operator, atom]

def name : Category → String
  | keyword => "keyword"
  | string => "string"
  | comment => "comment"
  | number => "number"
  | directive => "meta"
  | variableName => "variable"
  | ruleName => "rule_name"
  | operator => "operator"
  | atom => "atom"

def ofName? (s : String) : Option Category := all.find? (fun c => c.name == s)

theorem mem_all (c : Category) : c ∈ all := by cases c <;> decide

@[simp]
theorem ofName?_name (c : Category) : ofName? c.name = some c := by cases c <;> decide

end Category

end RuleHighlight
