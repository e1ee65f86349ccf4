import RuleHighlight.Proofs.Theme.Loading
import Mathlib.Data.List.TakeWhile

/-!
When the styles of a document end the loading of a theme. All that does not fit is skipped, but the
unknown keys of an entry are named in a warning, and this can be done only if they are text; and the
log does not take a value that is too deep to be shown.
-/

namespace RuleHighlight.Theme

open Yaml
open Text (CodeText)

namespace Warning

variable {depth : Nat} {source : String} {w : Warning}

end Warning

section Keys

variable {keys : List Scalar}

end Keys

section Fields

variable {fields : List (Scalar × Value)} (name : Scalar)

end Fields

def isNameable (doc : Document) : Scalar × Value → Bool
  | (name, entry) =>
    match categoryOf? name, doc.entries? entry with
    | some _, some fields => (unknownKeys fields).all (fun k => (textOf? k).isSome)
    | _, _ => true

section Entries

variable {doc : Document} {e : Scalar × Value}

end Entries

section Documents

variable (doc : Document)

def styleEntries : List (Scalar × Value) :=
  ((doc.member? "styles" doc.root).bind doc.entries?).getD []

def NamesKeys : Prop := (styleEntries doc).all (isNameable doc) = true

instance : Decidable (NamesKeys doc) := inferInstanceAs (Decidable (_ = true))

def reached : List Warning :=
  if NamesKeys doc then skipped doc
  else ((styleEntries doc).takeWhile (isNameable doc)).flatMap (skippedIn doc)

section Mapping

variable {doc} {styles : Value} {given : List (Scalar × Value)}
  (hstyles : doc.member? "styles" doc.root = some styles) (hgiven : doc.entries? styles = some given)

include hstyles hgiven

end Mapping

end Documents

section Load

variable {env : Environment} {app theme : String} {path : Path} {tree : FileTree}
  {text : List Char} {doc : Document}

/-- How the loading of a document ends: with a table that has what the document gives, or at unknown
keys that cannot be named, or at a warning that the log does not take, each time with what was to be
told before. -/
inductive Outcome (doc : Document) (depth : Nat) (path : Path) :
    List (Option CodeText) → Except Failure Loaded → Prop
  | merged {log : List (Option CodeText)} {looks : Category → Look} (hnames : NamesKeys doc)
      (hlog : Logged depth path (skipped doc) log)
      (hlooks : ∀ (c : Category) (f : Field),
        f.get (looks c) = ((given? doc c f).bind f.setting?).getD (f.get (Look.standard c))) :
      Outcome doc depth path log (.ok ⟨path, looks⟩)
  | unnamed {log : List (Option CodeText)} {fault : KeyFault} (hnames : ¬ NamesKeys doc)
      (hlog : Logged depth path (reached doc) log) :
      Outcome doc depth path log (.error (.key fault))
  | tooDeep {log : List (Option CodeText)} {fault : DepthFault} {front back : List Warning}
      {w : Warning} (hreached : reached doc = front ++ w :: back)
      (hw : w.logged depth path.toString = .error fault) (hlog : Logged depth path front log) :
      Outcome doc depth path log (.error (.tooDeep fault))

section

variable {log : List (Option CodeText)} (hfinds : env.Finds app theme path tree)
  (hread : readFile path tree = .ok text) (hdoc : env.interpreter.readYaml text = .ok doc)

include hfinds hread hdoc

end

end Load

end RuleHighlight.Theme
