import RuleHighlight.Theme.Load
import RuleHighlight.Yaml.Building

namespace RuleHighlight.Theme.Bundled

def light : String :=
"# Light theme. CSS class names follow the CodeMirror token classes.
styles:
  keyword:
    css_class: cm-keyword
    color: \"#0033b3\"
    bold: true
  string:
    css_class: cm-string
    color: \"#067d17\"
  comment:
    css_class: cm-comment
    color: \"#8c8c8c\"
    italic: true
  number:
    css_class: cm-number
    color: \"#c41a16\"
  meta:
    css_class: cm-meta
    color: \"#871094\"
  variable:
    css_class: cm-variableName
    color: \"#1750eb\"
  rule_name:
    css_class: cm-def
    color: \"#00627a\"
    bold: true
  operator:
    css_class: cm-operator
    color: \"#5f6368\"
  atom:
    css_class: cm-atom
    color: \"#b05a00\"
"

def dark : String :=
"# Dark theme. Only colors differ from the light theme.
styles:
  keyword:
    color: \"#569cd6\"
  string:
    color: \"#ce9178\"
  comment:
    color: \"#6a9955\"
  number:
    color: \"#b5cea8\"
  meta:
    color: \"#c586c0\"
  variable:
    color: \"#9cdcfe\"
  rule_name:
    color: \"#4ec9b0\"
  operator:
    color: \"#d4d4d4\"
  atom:
    color: \"#569cd6\"
"

def files : List (String × FileTree) :=
  [("default.yaml", .file (Utf8.encode light)), ("dark.yaml", .file (Utf8.encode dark))]

def directory : Path := .ofString "/usr/share/yara-highlight/themes"

end RuleHighlight.Theme.Bundled

namespace RuleHighlight.Theme

def Interpreter.usual : Interpreter := ⟨Yaml.Document.ofText, 975⟩

namespace Environment

def place (env : Environment) (p : Path) (entry : FileTree) : Environment :=
  { env with files := env.files.place p entry }

def bare (home current : Path) : Environment :=
  let start : Environment := ⟨.empty, home, current, Bundled.directory, .usual⟩
  let bundled := start.place Bundled.directory (.directory Bundled.files)
  (bundled.place home .empty).place current .empty

end Environment

end RuleHighlight.Theme
