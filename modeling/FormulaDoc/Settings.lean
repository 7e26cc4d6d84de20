import FormulaDoc.Escape
import FormulaDoc.Files
import FormulaDoc.Node
import FormulaDoc.Text.Integer
import FormulaDoc.Text.UpperCase
import FormulaDoc.Toml.Reader

/-!
The settings of the program, from a TOML file. A missing file, section or key leaves the default.
-/

namespace FormulaDoc

open Toml (Table Value)

/-- Why there are no settings: a folder stands in the place of the file, its path is too long, it is not
TOML, a section is not a table, or a value has the wrong type, no meaning or no integer part. -/
inductive SettingsError where
  | folder
  | longPath
  | unreadable (d : Toml.Defect)
  | notTable (name : String)
  | wrongType (key : String)
  | badValue (key : String)
  | infinite (key : String)
  deriving DecidableEq

/-- The values of the two style settings are kept as given; they are used as texts. -/
structure Settings where
  idBytes : Int
  boxBackground : Value
  braceCaption : Value
  vars : List Value
  logLevel : String

namespace Settings

/-- The name of the file that is read where no other is given. -/
def defaultFile : String := "formulary.toml"

/-- The integer that a value stands for: that of a number, without its fraction, or of a text. -/
def integer (key : String) : Value → Except SettingsError Int
  | .int i => .ok i
  | .bool b => .ok (if b then 1 else 0)
  | .float x =>
    match Binary.ofFloat? x with
    | some b => .ok b.truncate
    | none => .error (if x.isNaN then .badValue key else .infinite key)
  | .str s =>
    match readInteger? s with
    | some i => .ok i
    | none => .error (.badValue key)
  | .moment _ | .array _ | .table _ => .error (.wrongType key)

/-- The members of a value: the items of an array, the characters of a text, the keys of a table. -/
def members (key : String) : Value → Except SettingsError (List Value)
  | .array items => .ok items
  | .str s => .ok (s.toList.map fun c => .str (String.singleton c))
  | .table fields => .ok (fields.map fun (k, _) => .str k)
  | .int _ | .float _ | .bool _ | .moment _ => .error (.wrongType key)

def findSection (name : String) (t : Table) : Except SettingsError Table :=
  match t.lookup name with
  | none => .ok []
  | some (.table fields) => .ok fields
  | some _ => .error (.notTable name)

/-- The settings of a document. The sections are taken in turn, so that of several faults the first
one counts. -/
def ofTable (t : Table) : Except SettingsError Settings := do
  let ids ← findSection "id" t
  let idBytes ← integer "bytes" ((ids.lookup "bytes").getD (.int 4))
  let style ← findSection "style" t
  let parser ← findSection "parser" t
  let vars ← members "variables" ((parser.lookup "variables").getD (.array []))
  let logging ← findSection "logging" t
  let level ← match ((logging.lookup "level").getD (.str "WARNING")).shown? with
    | some level => .ok level
    | none => .error (.badValue "level")
  .ok {
    idBytes := idBytes
    boxBackground := (style.lookup "box_background").getD (.str "white")
    braceCaption := (style.lookup "brace_caption").getD (.str "caption")
    vars := vars
    logLevel := upperCase level }

/-- The settings of the given file if there is such a file, else of the default file, else the
defaults. -/
def load (find : String → Found) (path : Option String) : Except SettingsError Settings :=
  let found := (path.map find).getD .nothing
  match if found = .nothing then find defaultFile else found with
  | .nothing => ofTable []
  | .folder => .error .folder
  | .longPath => .error .longPath
  | .text s => do
    let t ← (Toml.read s).mapError .unreadable
    ofTable t

/-- The variables as texts. -/
def variableNames (s : Settings) : Except SettingsError (List String) :=
  s.vars.mapM fun
    | .str v => .ok v
    | _ => .error (.wrongType "variables")

/-- Texts inside a member of a caption. One of a single character is escaped, any other stands for
itself. -/
def verbatim (texts : List String) : Node :=
  .space "" (String.join (texts.map fun s => if s.length = 1 then String.ofList (escape s.toList) else s))

/-- A member of a caption as a node, if it can be written: a text, or texts one after the other. -/
def captionNode? : Value → Option Node
  | .str s => some (.symbol "" s)
  | .array items => (items.mapM fun
      | Value.str s => some s
      | _ => none).map verbatim
  | .table fields => some (verbatim (fields.map Prod.fst))
  | _ => none

/-- The nodes of the caption of a brace, if all its members can be written. -/
def captionNodes? (s : Settings) : Option (List Node) := do
  let items ← (members "brace_caption" s.braceCaption).toOption
  items.mapM captionNode?

/-- The levels that a log can be limited to. -/
def logLevels : List String :=
  ["CRITICAL", "FATAL", "ERROR", "WARN", "WARNING", "INFO", "DEBUG", "NOTSET"]

end Settings

end FormulaDoc
