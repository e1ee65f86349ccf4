namespace RuleHighlight.CommandLine.Help

def command : String := "yara-highlight"

def usage : String :=
"usage: yara-highlight [-h] [--format \x7bansi,html,json\x7d] [--theme THEME] [--css]
                      [--verbose]
                      [file]
"

def full : String := usage ++
"
Syntax-highlight YARA rules

positional arguments:
  file                  YARA source file, or '-' for stdin (default: stdin)

options:
  -h, --help            show this help message and exit
  --format \x7bansi,html,json\x7d, -f \x7bansi,html,json\x7d
                        Output format (default: ansi)
  --theme THEME         Theme name from the user, project or bundled theme
                        directories
  --css                 With --format html, prepend a <style> block for the
                        theme
  --verbose, -v         Log scan details to stderr
"

def error (message : String) : String := usage ++ command ++ ": error: " ++ message ++ "\n"

end RuleHighlight.CommandLine.Help
