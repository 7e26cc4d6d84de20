import FormulaDoc.Data
import FormulaDoc.Text.Quoted

/-!
Data written as JSON in ASCII, a line for every item and field, with two blanks a level.
-/

namespace FormulaDoc

namespace Json

private def unit (n : Nat) : List Char :=
  '\\' :: 'u' :: hexDigits 4 n

/-- A character in a JSON string; one beyond the sixteen-bit range is written as two surrogates. -/
def charText (c : Char) : List Char :=
  let n := c.toNat
  if c = '"' || c = '\\' then ['\\', c]
  else if c = '\n' then ['\\', 'n']
  else if c = '\r' then ['\\', 'r']
  else if c = '\t' then ['\\', 't']
  else if c = '\x0c' then ['\\', 'f']
  else if c = '\x08' then ['\\', 'b']
  else if 0x20 ≤ n && n ≤ 0x7E then [c]
  else if n < 0x10000 then unit n
  else unit (0xD800 + (n - 0x10000) / 0x400) ++ unit (0xDC00 + (n - 0x10000) % 0x400)

def string (s : String) : String :=
  String.ofList ('"' :: s.toList.flatMap charText ++ ['"'])

/-- A line break and the indentation of a level. -/
private def newLine (level : Nat) : String :=
  "\n" ++ String.ofList (List.replicate (2 * level) ' ')

mutual

def value (level : Nat) : Data → String
  | .null => "null"
  | .bool b => if b then "true" else "false"
  | .int i => toString i
  | .str s => string s
  | .list [] => "[]"
  | .list (item :: items) =>
    "[" ++ newLine (level + 1) ++ value (level + 1) item ++ itemTexts (level + 1) items ++
      newLine level ++ "]"
  | .map [] => "\x7b\x7d"
  | .map ((key, v) :: fields) =>
    "\x7b" ++ newLine (level + 1) ++ string key ++ ": " ++ value (level + 1) v ++
      fieldTexts (level + 1) fields ++ newLine level ++ "\x7d"

/-- The items after the first, each behind a comma. -/
def itemTexts (level : Nat) : List Data → String
  | [] => ""
  | item :: items => "," ++ newLine level ++ value level item ++ itemTexts level items

def fieldTexts (level : Nat) : List (String × Data) → String
  | [] => ""
  | (key, v) :: fields =>
    "," ++ newLine level ++ string key ++ ": " ++ value level v ++ fieldTexts level fields

end

end Json

def Data.toJson (d : Data) : String :=
  Json.value 0 d

end FormulaDoc
