import RuleHighlight.Style
import RuleHighlight.Render.Segment

namespace RuleHighlight.Html

def escape (c : Char) : List Char :=
  if c = '&' then "&amp;".toList
  else if c = '<' then "&lt;".toList
  else if c = '>' then "&gt;".toList
  else [c]

def escapeAttribute (c : Char) : List Char :=
  if c = '"' then "&quot;".toList
  else if c = '\'' then "&#x27;".toList
  else escape c

def openTag (cssClass : String) : List Char :=
  "<span class=\"".toList ++ cssClass.toList.flatMap escapeAttribute ++ "\">".toList

def closeTag : List Char := "</span>".toList

def header : List Char := "<pre class=\"cm-yara\"><code>".toList

def footer : List Char := "</code></pre>".toList

def paint (styles : StyleTable) (s : Segment) : Except Category (List Char) :=
  let chunk := s.chunk.flatMap escape
  match s.category with
  | none => .ok chunk
  | some c =>
    match styles c with
    | none => .error c
    | some style => .ok (openTag style.cssClass ++ chunk ++ closeTag)

def render (styles : StyleTable) (text : List Char) (spans : List Span) :
    Except Category (List Char) := do
  let painted ← (Segment.list text spans).mapM (paint styles)
  return header ++ painted.flatten ++ footer

def declarations (style : Style) : List String :=
  (match style.color with
    | some color => if color.isEmpty then [] else ["color: " ++ color ++ ";"]
    | none => []) ++
  (if style.bold then ["font-weight: bold;"] else []) ++
  (if style.italic then ["font-style: italic;"] else [])

def rule (style : Style) : String :=
  "." ++ style.cssClass ++ " \x7b " ++ " ".intercalate (declarations style) ++ " \x7d"

def stylesheet (styles : StyleTable) : Except Category String := do
  let rules ← Category.all.mapM fun c =>
    match styles c with
    | none => .error c
    | some style => .ok (rule style)
  return "\n".intercalate rules ++ "\n"

end RuleHighlight.Html
