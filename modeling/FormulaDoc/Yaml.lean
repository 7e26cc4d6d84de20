import FormulaDoc.Data
import FormulaDoc.Yaml.Scalar

/-!
Data written as a block of YAML. Lists and maps take a line for every item and field; a list inside a
map stands as far in as the map itself.
-/

namespace FormulaDoc

namespace Yaml

/-- The beginning of a line. -/
def newLine (column : Nat) : String :=
  String.ofList ('\n' :: List.replicate column ' ')

/-- A value that is no block of lines, at a column of a line that belongs to a block at `indent`. -/
def inline? (column indent : Nat) : Data → Option String
  | .null => some "null"
  | .bool b => some (if b then "true" else "false")
  | .int i => some (toString i)
  | .str s => some (scalar column (indent + 2) s)
  | .list [] => some "[]"
  | .map [] => some "\x7b\x7d"
  | .list _ | .map _ => none

mutual

/-- A value whose lines begin at a column. -/
def block (column : Nat) : Data → String
  | .list (item :: items) => (newLine column).intercalate (itemTexts column (item :: items))
  | .map (field :: fields) => (newLine column).intercalate (fieldTexts column (field :: fields))
  | d => (inline? column column d).getD ""

def itemTexts (column : Nat) : List Data → List String
  | [] => []
  | item :: items => ("- " ++ block (column + 2) item) :: itemTexts column items

def fieldTexts (column : Nat) : List (String × Data) → List String
  | [] => []
  | (key, v) :: fields =>
    (key ++ ":" ++ match inline? (column + key.length + 2) column v, v with
      | some s, _ => " " ++ s
      | none, .map _ => newLine (column + 2) ++ block (column + 2) v
      | none, _ => newLine column ++ block column v) :: fieldTexts column fields

end

end Yaml

/-- The block of a value, its last line ended. -/
def Data.toYaml (d : Data) : String :=
  Yaml.block 0 d ++ "\n"

end FormulaDoc
