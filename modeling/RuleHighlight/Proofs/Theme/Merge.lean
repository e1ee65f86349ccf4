import RuleHighlight.Proofs.Yaml.Keys
import RuleHighlight.Theme.Table

/-!
What a document makes of a table of styles, field by field, and what of it is skipped. A field has
the value that the document gives at the path of the category's and the field's name, if that value
fits, and keeps its value otherwise, so no skipped part of a document disturbs another part.
-/

namespace RuleHighlight

open Text (CodeText)

@[simp]
theorem Text.CodeText.string?_ofString (s : String) : (CodeText.ofString s).string? = some s := by
  rw [CodeText.string?, CodeText.ofString, CodeText.chars?_ofChars, Option.map_some,
    String.ofList_toList]

def Yaml.Document.member? (doc : Document) (key : String) (v : Value) : Option Value :=
  (doc.entries? v).bind (Collection.lookup key)

namespace Theme

open Yaml

namespace Field

def Setting : Field → Type
  | cssClass => CodeText
  | color => Option CodeText
  | bold => Bool
  | italic => Bool

def get : (f : Field) → Look → f.Setting
  | cssClass, l => l.cssClass
  | color, l => l.color
  | bold, l => l.bold
  | italic, l => l.italic

def put : (f : Field) → f.Setting → Look → Look
  | cssClass, x, l => { l with cssClass := x }
  | color, x, l => { l with color := x }
  | bold, x, l => { l with bold := x }
  | italic, x, l => { l with italic := x }

def setting? : (f : Field) → Value → Option f.Setting
  | cssClass, .scalar (.text t) => some t
  | color, .scalar (.text t) => some (some t)
  | color, .scalar .null => some none
  | bold, .scalar (.boolean b) => some b
  | italic, .scalar (.boolean b) => some b
  | _, _ => none

def update (f : Field) (v : Value) (l : Look) : Look := (f.set? v l).getD l

end Field

section Entry

variable (doc : Document) (name : Scalar) (entries : List (Scalar × Value)) (look : Look)

def misfit? : Scalar × Value → Option Warning
  | (key, v) => (Field.ofKey? key).bind fun f =>
    if (f.setting? v).isNone then some (.wrongKind f name doc v) else none

variable {entries}

end Entry

def textOf? : Scalar → Option CodeText
  | .text s => some s
  | _ => none

def keyNames (keys : List Scalar) : List CodeText :=
  (keys.filterMap textOf?).mergeSort (fun s t => !t.comesBefore s)

def strangers (name : Scalar) (entries : List (Scalar × Value)) : List Warning :=
  if unknownKeys entries = [] then [] else [.unknownKeys (keyNames (unknownKeys entries)) name]

section Table

variable {doc : Document} {looks result : Category → Look} {ws : List Warning}

def skippedIn (doc : Document) : Scalar × Value → List Warning
  | (name, entry) =>
    match categoryOf? name, doc.entries? entry with
    | none, _ => [.unknownCategory name]
    | some _, none => [.styleNotMapping name]
    | some _, some fields => strangers name fields ++ fields.filterMap (misfit? doc name)

structure Follows (doc : Document) (name : Scalar) (entry : Value)
    (looks next : Category → Look) : Prop where
  named : ∀ c, name = .text (.ofString c.name) → ∀ f : Field,
    f.get (next c) = ((doc.member? f.name entry).bind f.setting?).getD (f.get (looks c))
  other : ∀ c, name ≠ .text (.ofString c.name) → next c = looks c

def given? (doc : Document) (c : Category) (f : Field) : Option Value := do
  let styles ← doc.member? "styles" doc.root
  let entry ← doc.member? c.name styles
  doc.member? f.name entry

def skipped (doc : Document) : List Warning :=
  match doc.member? "styles" doc.root with
  | none => []
  | some styles =>
    match doc.entries? styles with
    | some given => given.flatMap (skippedIn doc)
    | none => if doc.isPresent styles then [.stylesNotMapping] else []

end Table

end Theme

end RuleHighlight
