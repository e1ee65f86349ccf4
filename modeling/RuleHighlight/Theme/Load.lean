import RuleHighlight.Files.Tree
import RuleHighlight.Theme.Table

/-!
Loading a theme by name. The user's directory is looked at first, then the project's, then the
bundled themes, and the first file that is there counts, whatever is in it.
-/

namespace RuleHighlight.Theme

open Yaml
open Text (CodeText)

/-- What a run takes from outside besides the files: how a text is read as a document, and how many
collections inside each other can be shown. -/
structure Interpreter where
  readYaml : List Char → Except Fault Document
  depth : Nat

structure Environment where
  files : FileTree
  home : Path
  current : Path
  bundled : Path
  interpreter : Interpreter

structure Loaded where
  source : Path
  looks : Category → Look

def Loaded.styles (loaded : Loaded) (c : Category) : Style := (loaded.looks c).style

inductive Failure
  | notFound (theme : String) (available : List String)
  | isDirectory (path : Path)
  | nameTooLong (path : Path)
  | undecodable (error : Utf8.DecodeError)
  | scalar (fault : ScalarFault)
  | tooDeep (fault : DepthFault)
  | key (fault : KeyFault)

def notFoundMessage (shownTheme : String) (available : List String) : String :=
  let listing := ", ".intercalate available
  "Unknown theme " ++ shownTheme ++ ". Available themes: " ++
    (if listing.isEmpty then "none" else listing)

def fileErrorMessage (number : Nat) (reason : String) (path : String) : String :=
  "[Errno " ++ toString number ++ "] " ++ reason ++ ": " ++ Text.quoted path

def isDirectoryMessage (path : Path) : String :=
  fileErrorMessage 21 "Is a directory" path.toString

def nameTooLongMessage (path : Path) : String :=
  fileErrorMessage 36 "File name too long" path.toString

namespace Failure

def message : Failure → String
  | notFound theme available => notFoundMessage (Text.quoted theme) available
  | isDirectory path => isDirectoryMessage path
  | nameTooLong path => nameTooLongMessage path
  | undecodable error => error.message
  | scalar fault => fault.message
  | tooDeep fault => fault.message
  | key fault => fault.message

end Failure

namespace Environment

variable (env : Environment)

def userThemes (app : String) : Path := ((env.home.child ".config").child app).child "themes"

def projectThemes (app : String) : Path := (env.current.child ("." ++ app)).child "themes"

def fileName (theme : String) : String := theme ++ ".yaml"

def entry? (p : Path) : Except Failure (Option FileTree) :=
  if p.isUsable && p.isTooLong then .error (.nameTooLong p)
  else match env.files.find p with
  | .entry t => .ok (some t)
  | .absent => .ok none
  | .belowFile => .ok none
  | .nameTooLong => .error (.nameTooLong p)

def themeIn? (dir : Path) (theme : String) : Except Failure (Option (Path × FileTree)) := do
  let p := dir.child (fileName theme)
  return (← env.entry? p).map (fun t => (p, t))

def bundledTheme? (theme : String) : Except Failure (Option (Path × FileTree)) := do
  match ← env.themeIn? env.bundled theme with
  | some (p, .file bytes) => return some (p, .file bytes)
  | _ => return none

def themePaths (app theme : String) : List Path :=
  [(env.userThemes app).child (fileName theme), (env.projectThemes app).child (fileName theme)]

def locate (app theme : String) : Except Failure (Option (Path × FileTree)) := do
  match ← env.themeIn? (env.userThemes app) theme with
  | some found => return some found
  | none =>
    match ← env.themeIn? (env.projectThemes app) theme with
    | some found => return some found
    | none => env.bundledTheme? theme

def base? (file : String) : Option String :=
  let ending := ".yaml".toList
  let chars := file.toList
  if ending.isSuffixOf chars then some (String.ofList (chars.take (chars.length - ending.length)))
  else none

def stem? (file : String) : Option String :=
  (base? file).map (fun theme => if theme.isEmpty then file else theme)

def themesIn (dir : Path) (theme? : String → Option String) : List String :=
  match env.files.find dir with
  | .entry (.directory entries) => entries.filterMap (fun (n, _) => theme? n)
  | _ => []

def dropRepeated : List String → List String
  | [] => []
  | n :: rest =>
    match dropRepeated rest with
    | [] => [n]
    | m :: more => if n = m then m :: more else n :: m :: more

def available (app : String) : List String :=
  let names := env.themesIn (env.userThemes app) stem? ++
    env.themesIn (env.projectThemes app) stem? ++ env.themesIn env.bundled base?
  dropRepeated (names.mergeSort (fun s t => !decide (t < s)))

end Environment

def ofText (interpreter : Interpreter) (text : List Char) :
    List Warning × Except Failure (Category → Look) :=
  match interpreter.readYaml text with
  | .error .malformed => ([.unreadable], .ok Look.standard)
  | .error (.scalar fault) => ([], .error (.scalar fault))
  | .error (.tooDeep fault) => ([], .error (.tooDeep fault))
  | .ok document =>
    let (warnings, result) := ofDocument document
    (warnings, result.mapError .key)

def readFile (path : Path) : FileTree → Except Failure (List Char)
  | .directory _ => .error (.isDirectory path)
  | .file bytes => ((Utf8.decode bytes).map Text.unifyLineEnds).mapError .undecodable

/-- Loads a theme. The log has an entry for each warning, in the order in which they arise. One that
the log does not take ends this. -/
def load (env : Environment) (app theme : String) :
    List (Option CodeText) × Except Failure Loaded :=
  match env.locate app theme with
  | .error failure => ([], .error failure)
  | .ok none => ([], .error (.notFound theme (env.available app)))
  | .ok (some (path, tree)) =>
    match readFile path tree with
    | .error failure => ([], .error failure)
    | .ok text =>
      let (warnings, result) := ofText env.interpreter text
      match Warning.log env.interpreter.depth path.toString warnings with
      | (log, some fault) => (log, .error (.tooDeep fault))
      | (log, none) => (log, result.map (fun looks => ⟨path, looks⟩))

end RuleHighlight.Theme
