import RuleHighlight.Text.DecimalDigit
import RuleHighlight.Text.Quoted

/-!
Reading the arguments of an invocation. Options may stand anywhere before a double dash, long ones
may be cut down to a part that only one of them starts with, and short ones without a value may be
joined. What looks like a negative number, or has a space and is no option, is a plain argument.
-/

namespace RuleHighlight.CommandLine

inductive Switch
  | help
  | format
  | theme
  | css
  | verbose
  deriving DecidableEq, Repr

namespace Switch

def spellings : List (String × Switch) :=
  [("-h", help), ("--help", help), ("--format", format), ("-f", format), ("--theme", theme),
   ("--css", css), ("--verbose", verbose), ("-v", verbose)]

def ofSpelling? (s : String) : Option Switch := spellings.lookup s

def takesValue : Switch → Bool
  | format => true
  | theme => true
  | _ => false

def label (s : Switch) : String :=
  "/".intercalate ((spellings.filter (fun (_, t) => t == s)).map Prod.fst)

end Switch

inductive UsageError
  | ambiguous (written : String) (candidates : List String)
  | missingValue (switch : Switch)
  | unwantedValue (switch : Switch) (value : String)
  | invalidFormat (value : String) (choices : List String)
  | unrecognized (arguments : List String)
  deriving DecidableEq, Repr

namespace UsageError

def message : UsageError → String
  | ambiguous written candidates =>
    "ambiguous option: " ++ written ++ " could match " ++ ", ".intercalate candidates
  | missingValue switch => "argument " ++ switch.label ++ ": expected one argument"
  | unwantedValue switch value =>
    "argument " ++ switch.label ++ ": ignored explicit argument " ++ Text.quoted value
  | invalidFormat value choices =>
    "argument " ++ Switch.format.label ++ ": invalid choice: " ++ Text.quoted value ++
      " (choose from " ++ ", ".intercalate (choices.map Text.quoted) ++ ")"
  | unrecognized arguments => "unrecognized arguments: " ++ " ".intercalate arguments

end UsageError

inductive Argument
  | plain (s : String)
  | separator
  | option (switch : Switch) (isShort : Bool) (attached : Option String)
  | unknown (s : String)
  deriving DecidableEq, Repr

namespace Argument

def splitEquals (s : String) : String × Option String :=
  let chars := s.toList
  let name := chars.takeWhile (· != '=')
  match chars.dropWhile (· != '=') with
  | _ :: value => (String.ofList name, some (String.ofList value))
  | [] => (String.ofList name, none)

def isShort (spelling : String) : Bool := !("--".isPrefixOf spelling)

def isNegativeNumber (s : String) : Bool :=
  let isDigit (c : Char) : Bool := (Text.decimalValue? c).isSome
  let chars := s.toList
  let chars := if chars.getLast? = some '\n' then chars.dropLast else chars
  match chars with
  | '-' :: rest =>
    let whole := rest.takeWhile isDigit
    match rest.dropWhile isDigit with
    | [] => !whole.isEmpty
    | '.' :: fraction => !fraction.isEmpty && fraction.all isDigit
    | _ => false
  | _ => false

def longCandidates (written : String) : List (String × Switch) :=
  Switch.spellings.filter (fun (n, _) => written.isPrefixOf n)

def plainOrUnknown (s : String) : Argument :=
  if isNegativeNumber s || s.toList.contains ' ' then plain s else unknown s

def classifyLong (s : String) : Except UsageError Argument :=
  let (name, value) := splitEquals s
  match longCandidates name with
  | [] => .ok (plainOrUnknown s)
  | [(_, switch)] => .ok (option switch false value)
  | several => .error (.ambiguous s (several.map Prod.fst))

def classifyShort (s : String) : Argument :=
  let chars := s.toList
  match Switch.ofSpelling? (String.ofList (chars.take 2)) with
  | some switch => option switch true (some (String.ofList (chars.drop 2)))
  | none => plainOrUnknown s

def classify (s : String) : Except UsageError Argument :=
  match s.toList with
  | '-' :: second :: _ =>
    match Switch.ofSpelling? s with
    | some switch => .ok (option switch (isShort s) none)
    | none =>
      let (name, value) := splitEquals s
      match value, Switch.ofSpelling? name with
      | some value, some switch => .ok (option switch (isShort name) (some value))
      | _, _ => if second = '-' then classifyLong s else .ok (classifyShort s)
  | _ => .ok (plain s)

def list : List String → Except UsageError (List Argument)
  | [] => .ok []
  | s :: rest =>
    if s = "--" then .ok (separator :: rest.map plain)
    else do
      let a ← classify s
      return a :: (← list rest)

end Argument

/-- An option may be left without a value: a double dash that is attached to it is dropped. -/
structure Settings where
  file : Option String
  format : Option String
  theme : Option String
  css : Bool
  verbose : Bool
  extra : List String
  deriving DecidableEq, Repr

namespace Settings

def initial : Settings := ⟨none, some "ansi", some "default", false, false, []⟩

def addExtra (s : Settings) (more : List String) : Settings := { s with extra := s.extra ++ more }

end Settings

inductive Stop
  | help
  | usage (error : UsageError)
  deriving DecidableEq, Repr

structure Action where
  switch : Switch
  value : String
  deriving DecidableEq, Repr

def Action.given (a : Action) : Option String := if a.value = "--" then none else some a.value

def apply (formats : List String) (s : Settings) (a : Action) : Except Stop Settings :=
  match a.switch with
  | .help => .error .help
  | .format =>
    if a.given.all formats.contains then .ok { s with format := a.given }
    else .error (.usage (.invalidFormat a.value formats))
  | .theme => .ok { s with theme := a.given }
  | .css => .ok { s with css := true }
  | .verbose => .ok { s with verbose := true }

structure Cluster where
  actions : List Action
  waiting : Option Switch
  deriving DecidableEq, Repr

namespace Cluster

def add (a : Action) (c : Cluster) : Cluster := { c with actions := a :: c.actions }

def single (switch : Switch) : Cluster :=
  if switch.takesValue then ⟨[], some switch⟩ else ⟨[⟨switch, ""⟩], none⟩

def ofLetters (switch : Switch) : List Char → Except UsageError Cluster
  | [] => .ok (single switch)
  | letter :: rest =>
    match Switch.ofSpelling? (String.ofList ['-', letter]) with
    | none => .error (.unwantedValue switch (String.ofList (letter :: rest)))
    | some inner =>
      let tail :=
        if inner.takesValue && !rest.isEmpty then .ok ⟨[⟨inner, String.ofList rest⟩], none⟩
        else ofLetters inner rest
      tail.map (add ⟨switch, ""⟩)

def ofOption (switch : Switch) (isShort : Bool) (attached : Option String) :
    Except UsageError Cluster :=
  match attached with
  | none => .ok (single switch)
  | some value =>
    if switch.takesValue then .ok ⟨[⟨switch, value⟩], none⟩
    else if !isShort || value.isEmpty then .error (.unwantedValue switch value)
    else ofLetters switch value.toList

end Cluster

def interpret (formats : List String) : Bool → Settings → List Argument → Except Stop Settings
  | _, s, [] => .ok s
  | afterFile, s, a :: rest =>
    match a with
    | .plain word =>
      if s.file.isNone then interpret formats true { s with file := some word } rest
      else interpret formats false (s.addExtra [word]) rest
    | .unknown word => interpret formats false (s.addExtra [word]) rest
    | .separator =>
      if s.file.isNone || afterFile then interpret formats false s rest
      else interpret formats false (s.addExtra ["--"]) rest
    | .option switch isShort attached =>
      match Cluster.ofOption switch isShort attached with
      | .error e => .error (.usage e)
      | .ok cluster =>
        match cluster.waiting, rest with
        | none, rest => do
          interpret formats false (← cluster.actions.foldlM (apply formats) s) rest
        | some waiting, .plain value :: rest => do
          let actions := cluster.actions ++ [⟨waiting, value⟩]
          interpret formats false (← actions.foldlM (apply formats) s) rest
        | some waiting, _ => .error (.usage (.missingValue waiting))

def parse (formats : List String) (arguments : List String) : Except Stop Settings := do
  let words ← (Argument.list arguments).mapError .usage
  let s ← interpret formats false .initial words
  if s.extra.isEmpty then return s else throw (.usage (.unrecognized s.extra))

end RuleHighlight.CommandLine
