import RuleHighlight.Style
import RuleHighlight.Yaml.Document

/-!
The table that a theme's document describes. Each field of each style that the document gives with a
fitting value is taken over as it is; all else keeps the standard style. What cannot be used is
skipped with a warning of its own, in the order of the document.
-/

namespace RuleHighlight.Theme

open Yaml
open Text (CodeText)

structure Look where
  cssClass : CodeText
  color : Option CodeText
  bold : Bool
  italic : Bool
  deriving DecidableEq, Repr

namespace Look

def ofStyle (s : Style) : Look := ⟨.ofString s.cssClass, s.color.map .ofString, s.bold, s.italic⟩

def standard (c : Category) : Look := .ofStyle (.standard c)

def texts (l : Look) : List CodeText := l.cssClass :: l.color.toList

def style (l : Look) : Style :=
  ⟨l.cssClass.toString, l.color.bind CodeText.string?, l.bold, l.italic⟩

end Look

inductive Field
  | cssClass
  | color
  | bold
  | italic
  deriving DecidableEq, Repr

namespace Field

def all : List Field := [cssClass, color, bold, italic]

def name : Field → String
  | cssClass => "css_class"
  | color => "color"
  | bold => "bold"
  | italic => "italic"

def kinds : Field → String
  | cssClass => "str"
  | color => "str or NoneType"
  | bold => "bool"
  | italic => "bool"

def ofKey? : Scalar → Option Field
  | .text k => all.find? (fun f => .ofString f.name == k)
  | _ => none

def set? (f : Field) (v : Value) (l : Look) : Option Look :=
  match f, v with
  | cssClass, .scalar (.text c) => some { l with cssClass := c }
  | color, .scalar (.text c) => some { l with color := some c }
  | color, .scalar .null => some { l with color := none }
  | bold, .scalar (.boolean b) => some { l with bold := b }
  | italic, .scalar (.boolean b) => some { l with italic := b }
  | _, _ => none

end Field

inductive Warning
  | unreadable
  | stylesNotMapping
  | unknownCategory (name : Scalar)
  | styleNotMapping (name : Scalar)
  | unknownKeys (keys : List CodeText) (name : Scalar)
  | wrongKind (field : Field) (name : Scalar) (doc : Document) (value : Value)

namespace Warning

def message (depth : Nat) (source : String) : Warning → Except PrintFault CodeText
  | unreadable =>
    return .ofString ("Ignoring unreadable theme file " ++ source ++ ": <yaml error>")
  | stylesNotMapping => return .ofString ("Theme " ++ source ++ ": 'styles' must be a mapping")
  | unknownCategory name => do
    return .ofString ("Theme " ++ source ++ ": unknown category " ++ (← name.print) ++ " skipped")
  | styleNotMapping name => do
    return .ofString ("Theme " ++ source ++ ": style for " ++ (← name.print) ++ " must be a mapping")
  | unknownKeys keys name => do
    return CodeText.ofString ("Theme " ++ source ++ ": unknown keys ") ++
      List.intercalate (CodeText.ofString ", ") keys ++
      CodeText.ofString (" for " ++ (← name.print) ++ " skipped")
  | wrongKind field name doc value => do
    return .ofString ("Theme " ++ source ++ ": " ++ field.name ++ " for " ++ (← name.print) ++
      " must be " ++ field.kinds ++ ", got " ++ (← doc.print depth value) ++ "; skipped")

/-- What the log has for a warning: its text, or nothing if a number in it is not written. The log
does not hold back that a value is too deep. -/
def logged (depth : Nat) (source : String) (w : Warning) : Except DepthFault (Option CodeText) :=
  match w.message depth source with
  | .ok text => .ok (some text)
  | .error (.size _) => .ok none
  | .error .tooDeep => .error .shown

def log (depth : Nat) (source : String) :
    List Warning → List (Option CodeText) × Option DepthFault
  | [] => ([], none)
  | w :: rest =>
    match w.logged depth source with
    | .error fault => ([], some fault)
    | .ok entry =>
      let (entries, fault) := log depth source rest
      (entry :: entries, fault)

end Warning

inductive KeyFault
  | notText (kind : String)
  | unordered (left right : String)
  | dateWithTime
  | mixedOffsets
  deriving DecidableEq, Repr

namespace KeyFault

def message : KeyFault → String
  | notText kind => "sequence item 0: expected str instance, " ++ kind ++ " found"
  | unordered left right =>
    "'<' not supported between instances of '" ++ left ++ "' and '" ++ right ++ "'"
  | dateWithTime => "can't compare datetime.datetime to datetime.date"
  | mixedOffsets => "can't compare offset-naive and offset-aware datetimes"

end KeyFault

def asNumber? : Scalar → Option Binary64
  | .boolean b => some (.ofNat (if b then 1 else 0))
  | .integer n => some (.ofExact n 0)
  | .float x => some x
  | _ => none

def comesBefore (a b : Scalar) : Except KeyFault Bool :=
  match a, b with
  | .text s, .text t => .ok (s.comesBefore t)
  | .bytes s, .bytes t => .ok (decide (s < t))
  | .date d, .date e => .ok (decide (d.dayNumber < e.dayNumber))
  | .timestamp t, .timestamp u =>
    if t.offset.isSome == u.offset.isSome then .ok (decide (t.instant < u.instant))
    else .error .mixedOffsets
  | .date _, .timestamp _ => .error .dateWithTime
  | .timestamp _, .date _ => .error .dateWithTime
  | a, b =>
    match a.asInteger?, b.asInteger? with
    | some m, some n => .ok (decide (m < n))
    | _, _ =>
      match asNumber? a, asNumber? b with
      | some x, some y => .ok (x.lt y)
      | _, _ => .error (.unordered a.kind b.kind)

def firstOf : Scalar → Scalar → List Scalar → Except KeyFault Scalar
  | best, _, [] => .ok best
  | best, last, k :: rest => do
    let _ ← comesBefore k last
    firstOf (if ← comesBefore k best then k else best) k rest

def namesOf (keys : List Scalar) : Except KeyFault (List CodeText) :=
  let names := keys.filterMap fun k =>
    match k with
    | .text s => some s
    | _ => none
  if names.length = keys.length then
    .ok (names.mergeSort (fun s t => !t.comesBefore s))
  else
    match keys with
    | [] => .ok []
    | k :: rest => do throw (.notText (← firstOf k k rest).kind)

def setFields (doc : Document) (name : Scalar) :
    List (Scalar × Value) → Look → List Warning × Look
  | [], l => ([], l)
  | (k, v) :: rest, l =>
    match Field.ofKey? k with
    | none => setFields doc name rest l
    | some f =>
      match f.set? v l with
      | some l => setFields doc name rest l
      | none =>
        let (warnings, l) := setFields doc name rest l
        (.wrongKind f name doc v :: warnings, l)

def unknownKeys (entries : List (Scalar × Value)) : List Scalar :=
  (entries.map Prod.fst).filter (fun k => (Field.ofKey? k).isNone)

def keyWarning (name : Scalar) (entries : List (Scalar × Value)) :
    Except KeyFault (List Warning) :=
  match unknownKeys entries with
  | [] => .ok []
  | keys => (namesOf keys).map (fun names => [.unknownKeys names name])

def categoryOf? : Scalar → Option Category
  | .text name => name.string?.bind Category.ofName?
  | _ => none

def setLook (looks : Category → Look) (c : Category) (l : Look) : Category → Look :=
  fun d => if d = c then l else looks d

/-- Takes over the styles of a document. Unknown keys that cannot be named end this with a fault,
after the warnings before them. -/
def mergeStyles (doc : Document) : List (Scalar × Value) → (Category → Look) →
    List Warning × Except KeyFault (Category → Look)
  | [], looks => ([], .ok looks)
  | (name, entry) :: rest, looks =>
    match categoryOf? name, doc.entries? entry with
    | none, _ =>
      let (warnings, result) := mergeStyles doc rest looks
      (.unknownCategory name :: warnings, result)
    | some _, none =>
      let (warnings, result) := mergeStyles doc rest looks
      (.styleNotMapping name :: warnings, result)
    | some c, some entries =>
      match keyWarning name entries with
      | .error fault => ([], .error fault)
      | .ok unknown =>
        let (wrong, look) := setFields doc name entries (looks c)
        let (warnings, result) := mergeStyles doc rest (setLook looks c look)
        (unknown ++ wrong ++ warnings, result)

def ofDocument (doc : Document) : List Warning × Except KeyFault (Category → Look) :=
  match doc.entries? doc.root with
  | none => ([], .ok Look.standard)
  | some entries =>
    match Collection.lookup "styles" entries with
    | none => ([], .ok Look.standard)
    | some styles =>
      if doc.isPresent styles then
        match doc.entries? styles with
        | none => ([.stylesNotMapping], .ok Look.standard)
        | some given => mergeStyles doc given Look.standard
      else ([], .ok Look.standard)

end RuleHighlight.Theme
