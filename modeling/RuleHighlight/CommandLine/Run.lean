import RuleHighlight.CommandLine.Arguments
import RuleHighlight.CommandLine.Help
import RuleHighlight.Render.Format
import RuleHighlight.Scan
import RuleHighlight.Theme.Load

/-!
A whole run of the command as a function of its arguments, the files and what is on standard input:
the text and the theme are read, the text is scanned, and the spans are printed in the format asked
for. What is printed ends in a line feed.
-/

namespace RuleHighlight.CommandLine

def themeApp : String := "yara-highlight"

inductive Breakdown
  | nullInName
  | undecodable (error : Utf8.DecodeError)
  | theme (failure : Theme.Failure)
  | emission (error : EmissionError)
  | noFormat
  | render (fault : RenderFault)
  | unencodable

namespace Breakdown

def message : Breakdown → String
  | nullInName => "embedded null byte"
  | undecodable error => error.message
  | theme failure => failure.message
  | emission error => error.message
  | noFormat => "unhashable type: 'list'"
  | render (.missingStyle category) => category.name
  | render (.size fault) => fault.message
  | unencodable => "surrogates not allowed"

end Breakdown

inductive Ending
  | exit (code : Nat)
  | breakdown (fault : Breakdown)

structure Result where
  out : String
  err : String
  ending : Ending

/-- What a stream makes of carriage returns. -/
inductive LineEnds
  | unified
  | kept
  deriving DecidableEq, Repr

def LineEnds.read : LineEnds → List Char → List Char
  | unified, text => Text.unifyLineEnds text
  | kept, text => text

structure Input where
  bytes : Utf8.Bytes
  lineEnds : LineEnds

inductive SourceFault
  | unreadable (message : String)
  | breakdown (fault : Breakdown)

def readFile (env : Theme.Environment) (name : String) : Except SourceFault (List Char) :=
  let p := Path.ofString name
  if !p.isUsable then .error (.breakdown .nullInName)
  else if p.isTooLong then .error (.unreadable (Theme.nameTooLongMessage p))
  else
    match env.files.find (env.current.join p) with
    | .entry (.file bytes) => .ok (Text.unifyLineEnds (Utf8.decodeLenient bytes))
    | .entry (.directory _) => .error (.unreadable (Theme.isDirectoryMessage p))
    | .absent =>
      .error (.unreadable (Theme.fileErrorMessage 2 "No such file or directory" p.toString))
    | .belowFile => .error (.unreadable (Theme.fileErrorMessage 20 "Not a directory" p.toString))
    | .nameTooLong => .error (.unreadable (Theme.nameTooLongMessage p))

def readInput (input : Input) : Except SourceFault (List Char) :=
  ((Utf8.decode input.bytes).map input.lineEnds.read).mapError (fun e => .breakdown (.undecodable e))

def readSource (env : Theme.Environment) (input : Input) (name : String) :
    Except SourceFault (List Char) :=
  if name == "-" then readInput input else readFile env name

def Settings.source (s : Settings) : String := s.file.getD "-"

def Settings.readsInput (s : Settings) : Bool := s.source == "-"

def noValue : String := "[]"

def Settings.themeName (s : Settings) : String := s.theme.getD noValue

def Settings.shownTheme (s : Settings) : String := (s.theme.map Text.quoted).getD noValue

def Settings.paths (env : Theme.Environment) (s : Settings) : List Path :=
  let source := if s.readsInput then [] else [env.current.join (Path.ofString s.source)]
  (source ++ env.themePaths themeApp s.themeName).filter Path.isUsable

/-- The report of a warning that is lost is not part of the model. -/
def warningLines (log : List (Option Text.CodeText)) : String :=
  String.join ((log.filterMap id).map fun message =>
    "WARNING yara_highlight.config: " ++ message.escaped ++ "\n")

def themeLine (shownTheme : String) (source : Path) : String :=
  "DEBUG yara_highlight.cli: using theme " ++ shownTheme ++ " from " ++ source.toString ++ "\n"

def scanLine (scan : Scan) (text : List Char) : String :=
  "DEBUG yara_highlight.scanner: " ++ scan.summary text ++ "\n"

def scanText (text : List Char) : Except EmissionError (List Span × String) :=
  if text.isEmpty then .ok ([], "")
  else (Scan.ofText .builtIn text).map (fun scan => (scan.spans, scanLine scan text))

def stylesheetBlock (styles : StyleTable) (wanted : Bool) (format : Format) :
    Except Category String :=
  if wanted && format == .html then
    (Html.stylesheet styles).map (fun sheet => "<style>\n" ++ sheet ++ "</style>\n")
  else .ok ""

def endWithLineFeed (s : List Char) : List Char := if s.getLast? = some '\n' then s else s ++ ['\n']

def page (styles : StyleTable) (css : Bool) (format : Format) (text : List Char)
    (spans : List Span) : Except RenderFault String := do
  let body ← format.render styles text spans
  let sheet ← (stylesheetBlock styles css format).mapError .missingStyle
  return sheet ++ String.ofList (endWithLineFeed body)

def shownTexts (looks : Category → Theme.Look) (css : Bool) (format : Format) (spans : List Span) :
    List Text.CodeText :=
  if format == .html then
    spans.map (fun s => (looks s.category).cssClass) ++
      (if css then Category.all.flatMap (fun c => (looks c).texts) else [])
  else []

def paint (env : Theme.Environment) (settings : Settings) (format : Option Format)
    (text : List Char) : Result :=
  let (warnings, loaded) := Theme.load env themeApp settings.themeName
  let err := warningLines warnings
  match loaded with
  | .error (.notFound _ available) =>
    ⟨"", err ++ "error: " ++ Theme.notFoundMessage settings.shownTheme available ++ "\n", .exit 1⟩
  | .error failure => ⟨"", err, .breakdown (.theme failure)⟩
  | .ok theme =>
    let log (line : String) : String := if settings.verbose then line else ""
    let err := err ++ log (themeLine settings.shownTheme theme.source)
    match scanText text with
    | .error e => ⟨"", err, .breakdown (.emission e)⟩
    | .ok (spans, report) =>
      let err := err ++ log report
      match format with
      | none => ⟨"", err, .breakdown .noFormat⟩
      | some format =>
        match page (.full theme.styles) settings.css format text spans with
        | .error fault => ⟨"", err, .breakdown (.render fault)⟩
        | .ok out =>
          if (shownTexts theme.looks settings.css format spans).all Text.CodeText.isPlain then
            ⟨out, err, .exit 0⟩
          else ⟨"", err, .breakdown .unencodable⟩

def execute (env : Theme.Environment) (input : Input) (settings : Settings)
    (format : Option Format) : Result :=
  match readSource env input settings.source with
  | .error (.unreadable message) =>
    ⟨"", "error: cannot read " ++ settings.source ++ ": " ++ message ++ "\n", .exit 1⟩
  | .error (.breakdown fault) => ⟨"", "", .breakdown fault⟩
  | .ok text => paint env settings format text

def run (env : Theme.Environment) (input : Input) (arguments : List String) : Result :=
  let formats := Format.builtIn
  match parse formats.names arguments with
  | .error .help => ⟨Help.full, "", .exit 0⟩
  | .error (.usage e) => ⟨"", Help.error e.message, .exit 2⟩
  | .ok settings => execute env input settings (settings.format.bind formats.get?)

end RuleHighlight.CommandLine
