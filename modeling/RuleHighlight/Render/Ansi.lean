import RuleHighlight.Style
import RuleHighlight.Render.Segment
import RuleHighlight.Text.Integer

namespace RuleHighlight.Ansi

def escapeChar : Char := '\x1b'

def reset : List Char := escapeChar :: "[0m".toList

/-- A colour is written as a hash sign and three two-character numbers in base 16. -/
def components? (color : String) : Option (Int × Int × Int) :=
  match color.toList with
  | ['#', r1, r2, g1, g2, b1, b2] =>
    match Text.Integer.read? 16 [r1, r2], Text.Integer.read? 16 [g1, g2],
      Text.Integer.read? 16 [b1, b2] with
    | some r, some g, some b => some (r, g, b)
    | _, _, _ => none
  | _ => none

def parameters (style : Style) : List String :=
  (if style.bold then ["1"] else []) ++
  (if style.italic then ["3"] else []) ++
  (match style.color.bind components? with
    | some (r, g, b) => ["38;2;" ++ toString r ++ ";" ++ toString g ++ ";" ++ toString b]
    | none => [])

def code (style : Style) : List Char :=
  match parameters style with
  | [] => []
  | ps => escapeChar :: '[' :: (";".intercalate ps).toList ++ ['m']

def paintChar (code : List Char) (c : Char) : List Char :=
  if c = '\n' then reset ++ '\n' :: code else [c]

def paint (styles : StyleTable) (s : Segment) : List Char :=
  match ((s.category.bind styles).map code).getD [] with
  | [] => s.chunk
  | code => code ++ s.chunk.flatMap (paintChar code) ++ reset

def render (styles : StyleTable) (text : List Char) (spans : List Span) : List Char :=
  (Segment.list text spans).flatMap (paint styles)

end RuleHighlight.Ansi
