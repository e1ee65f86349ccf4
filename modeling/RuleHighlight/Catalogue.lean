import RuleHighlight.Span
import RuleHighlight.Pattern.Comment
import RuleHighlight.Pattern.StringLiteral
import RuleHighlight.Pattern.Declaration
import RuleHighlight.Pattern.Operator
import RuleHighlight.Pattern.Number

/-!
The catalogue of patterns. Each definition reads the whole text on its own and proposes ranges of
one category at one priority; definitions never see each other's ranges.
-/

namespace RuleHighlight

structure Definition where
  name : String
  category : Category
  priority : Int
  ranges : List Char → List Range

abbrev Catalogue := List Definition

namespace Definition

def ofExtents (name : String) (category : Category) (priority : Int)
    (extents : List Char → List Extent) : Definition :=
  ⟨name, category, priority, fun text => (extents text).map Extent.toRange⟩

def blockComment : Definition := ofExtents "block_comment" .comment 1 Pattern.blockComments

def lineComment : Definition := ofExtents "line_comment" .comment 1 Pattern.lineComments

def stringLiteral : Definition := ofExtents "string" .string 2 Pattern.stringLiterals

def ruleKeyword : Definition := ofExtents "rule_keyword" .keyword 3 Declaration.words

def ruleName : Definition := ofExtents "rule_name" .ruleName 3 Declaration.names

def variableName : Definition := ofExtents "variable" .variableName 3 Pattern.variableNames

def directive : Definition := ofExtents "meta" .directive 4 Pattern.directives

def number : Definition := ofExtents "number" .number 5 Pattern.numbers

def atom : Definition := ofExtents "atom" .atom 6 (Pattern.wordsIn Pattern.truthValues)

def operator : Definition := ofExtents "operator" .operator 7 Pattern.operators

def keyword : Definition := ofExtents "keyword" .keyword 8 (Pattern.wordsIn Pattern.keywords)

def candidates (d : Definition) (text : List Char) : List Candidate :=
  ((d.ranges text).map (fun r => (⟨r, d.category, d.priority⟩ : Candidate))).filter (!·.isEmpty)

end Definition

namespace Catalogue

def builtIn : Catalogue :=
  [.blockComment, .lineComment, .stringLiteral, .ruleKeyword, .ruleName, .variableName,
   .directive, .number, .atom, .operator, .keyword]

def find? (c : Catalogue) (name : String) : Option Definition :=
  List.find? (fun d => d.name == name) c

def candidates (c : Catalogue) (text : List Char) : List Candidate :=
  c.flatMap (fun d => d.candidates text)

def putMatches (name : String) (found : List (List Char)) :
    List (String × List (List Char)) → List (String × List (List Char))
  | [] => [(name, found)]
  | (n, old) :: rest =>
    if n = name then (n, found) :: rest else (n, old) :: putMatches name found rest

/-- The matched pieces of each pattern on its own. A pattern without matches is left out, and of
two definitions of one name the later one with matches counts. -/
def matchesIn (c : Catalogue) (text : List Char) : List (String × List (List Char)) :=
  c.foldl (fun acc d =>
    match (d.candidates text).map (fun k => k.textIn text) with
    | [] => acc
    | found => putMatches d.name found acc) []

end Catalogue

end RuleHighlight
