import RuleHighlight.CommandLine.Run
import RuleHighlight.Theme.Bundled

/-!
The program. Documents are read by the reader of this library, and standard input keeps its carriage
returns. It fetches the files that a run looks at, does the run, and prints what comes out. Of
the user's and the project's directories only the theme asked for is fetched, and no listing.
-/

namespace RuleHighlight.Program

def fetch (env : Theme.Environment) (p : Path) : IO Theme.Environment := do
  try
    let bytes ← IO.FS.readBinFile p.toString
    return env.place p (.file bytes.toList)
  catch e =>
    match e with
    | .inappropriateType none _ _ => return env.place p .empty
    | .inappropriateType (some _) _ _ => return env.place ⟨p.root, p.names.dropLast⟩ (.file [])
    | _ => return env

def environment (settings : CommandLine.Settings) : IO Theme.Environment := do
  let home := Path.ofString ((← IO.getEnv "HOME").getD "/")
  let current := Path.ofString (toString (← IO.currentDir))
  let env := Theme.Environment.bare home current
  (settings.paths env).foldlM fetch env

def input (settings : CommandLine.Settings) : IO CommandLine.Input := do
  if settings.readsInput then
    return ⟨(← (← IO.getStdin).readBinToEnd).toList, .kept⟩
  else
    return ⟨[], .kept⟩

def print (result : CommandLine.Result) : IO UInt32 := do
  IO.eprint result.err
  IO.print result.out
  match result.ending with
  | .exit code => return code.toUInt32
  | .breakdown fault =>
    IO.eprintln ("error: " ++ fault.message)
    return 1

def run (arguments : List String) : IO UInt32 := do
  match CommandLine.parse Format.builtIn.names arguments with
  | .error _ => print (CommandLine.run (.bare ⟨"/", []⟩ ⟨"/", []⟩) ⟨[], .kept⟩ arguments)
  | .ok settings =>
    let env ← environment settings
    print (CommandLine.run env (← input settings) arguments)

end RuleHighlight.Program

def main (arguments : List String) : IO UInt32 := RuleHighlight.Program.run arguments
