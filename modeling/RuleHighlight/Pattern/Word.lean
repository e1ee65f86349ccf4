import RuleHighlight.Text.CharClass
import RuleHighlight.Text.Occurrence

namespace RuleHighlight.Pattern

open CharClass

def keywords : List String :=
  ["all", "and", "any", "at", "for", "in", "not", "of", "or", "them",
   "ascii", "base64", "base64wide", "fullword", "nocase", "wide", "xor",
   "contains", "endswith", "entrypoint", "filesize", "icontains", "iendswith", "istartswith",
   "matches", "startswith",
   "int8", "int16", "int32", "int8be", "int16be", "int32be",
   "uint8", "uint16", "uint32", "uint8be", "uint16be", "uint32be",
   "condition", "global", "import", "include", "meta", "private", "rule", "strings"]

def truthValues : List String := ["true", "false"]

def sectionLabels : List String := ["meta", "strings", "condition"]

def wordsIn (vocabulary : List String) (text : List Char) : List Extent :=
  Run.extents isWord (fun r => vocabulary.contains (String.ofList r.chars)) text

def variableName : Recogniser Nat
  | _, '$' :: rest => some ((rest.takeWhile isWord).length + 1)
  | _, _ => none

def variableNames (text : List Char) : List Extent := Occurrence.extents variableName text

end RuleHighlight.Pattern
