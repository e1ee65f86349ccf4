import RuleHighlight.Render.Html
import RuleHighlight.Render.Ansi
import RuleHighlight.Render.Json

namespace RuleHighlight

structure Registry (α : Type) where
  entries : List (String × α)

namespace Registry

variable {α β : Type}

def names (r : Registry α) : List String := r.entries.map Prod.fst

def insert (name : String) (a : α) : List (String × α) → List (String × α)
  | [] => [(name, a)]
  | (n, b) :: rest =>
    if n = name then (n, a) :: rest
    else if name < n then (name, a) :: (n, b) :: rest
    else (n, b) :: insert name a rest

def register (r : Registry α) (name : String) (a : α) : Registry α := ⟨insert name a r.entries⟩

def get? (r : Registry α) (name : String) : Option α := r.entries.lookup name

def map (f : α → β) (r : Registry α) : Registry β := ⟨r.entries.map (fun (n, a) => (n, f a))⟩

def unknownMessage (r : Registry α) (name : String) : String :=
  "Unknown output format " ++ Text.quoted name ++ ". Available formats: " ++
    ", ".intercalate r.names

end Registry

inductive RenderFault
  | missingStyle (category : Category)
  | size (fault : Text.SizeFault)
  deriving DecidableEq, Repr

inductive Format
  | ansi
  | html
  | json
  deriving DecidableEq, Repr

namespace Format

def builtIn : Registry Format := ⟨[("ansi", ansi), ("html", html), ("json", json)]⟩

def render (f : Format) (styles : StyleTable) (text : List Char) (spans : List Span) :
    Except RenderFault (List Char) :=
  match f with
  | ansi => .ok (Ansi.render styles text spans)
  | html => (Html.render styles text spans).mapError .missingStyle
  | json => (Json.render text spans).mapError .size

end Format

end RuleHighlight
