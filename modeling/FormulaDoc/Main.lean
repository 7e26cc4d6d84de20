import FormulaDoc.CommandLine

/-!
The program itself: it gathers its surroundings, and prints and ends as its outcome says.
-/

namespace FormulaDoc

def usage : String := "\n".intercalate [
  "usage: formula-doc [--config PATH] [-v] [-q] COMMAND ...",
  "  latex EXPR [--mode ast|render|content]",
  "  ranges EXPR [--json] [--flat]",
  "  tree EXPR [--format yaml|json]",
  "  find EXPR ID [--json]",
  "  style color|box|brace|strike|unstyle EXPR --select IDS [--mode MODE] ...",
  "  cursor EXPR OFFSET ..."]

def version : String := "formula-doc 1.0"

def SettingsError.message : SettingsError → String
  | folder => "A folder stands in the place of the settings"
  | longPath => "The path of the settings is too long"
  | unreadable .malformed => "The settings are not valid TOML"
  | unreadable .tooLong => "The settings hold an integer that is too long"
  | notTable name => "The section " ++ name ++ " is not a table"
  | wrongType key => "The setting " ++ key ++ " has the wrong type"
  | badValue key => "The setting " ++ key ++ " has an invalid value"
  | infinite key => "The setting " ++ key ++ " is infinite"

def Breakdown.message : Breakdown → String
  | settings e => e.message
  | unknownLevel name => "Unknown level: " ++ quoted name
  | noIds fault => fault.message
  | missingId => "An id is missing"
  | missingRun => "A selection is missing"
  | missingOffsets => "The offsets are missing"

/-- What stands at a path. -/
def findFile (path : String) : IO Found := do
  try
    return .text (← IO.FS.readFile path)
  catch
    | .inappropriateType .. => return .folder
    | _ => return .nothing

/-- The files, the input and the seed that a command line can need. -/
def gather (line : List String) : IO Surroundings := do
  let invocation := (CommandLine.readLine line).toOption
  let mut files : List (String × Found) := []
  for path in (invocation.bind Invocation.config).toList ++ [Settings.defaultFile] do
    let path := cleanPath path
    files := files ++ [(path, ← findFile path)]
  let mut input := ""
  if invocation.any fun i => i.expr == "-" then
    input ← (← IO.getStdin).readToEnd
  let known := files
  let find (path : String) : Found := (known.lookup (cleanPath path)).getD .nothing
  return ⟨find, input, ← IO.rand 0 0x3FFFFFFFFFFFFFFF⟩

/-- Prints an outcome and gives the exit code. -/
def finish : Outcome → IO UInt32
  | .report r => do
    IO.print r.out
    IO.eprint r.err
    return r.code.toUInt32
  | .refused => do
    IO.eprintln usage
    return 2
  | .asked "--version" => do
    IO.println version
    return 0
  | .asked _ => do
    IO.println usage
    return 0
  | .broken b => do
    IO.eprintln b.message
    return 1

end FormulaDoc

def main (line : List String) : IO UInt32 := do
  FormulaDoc.finish (FormulaDoc.runProgram (← FormulaDoc.gather line) line)
