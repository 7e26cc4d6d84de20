import FormulaDoc.Text.Decimal
import FormulaDoc.Text.Integer
import FormulaDoc.Text.Quoted
import FormulaDoc.Toml.Moment

/-!
The values of a TOML document, and how a value is shown in running text.
-/

namespace FormulaDoc.Toml

inductive Value where
  | str (s : String)
  | int (i : Int)
  | float (x : Float)
  | bool (b : Bool)
  | moment (m : Moment)
  | array (items : List Value)
  | table (fields : List (String × Value))
  deriving Inhabited

/-- The entries of a table in the order in which they were made. -/
abbrev Table := List (String × Value)

namespace Value

mutual

/-- A value with its texts in quotes, unless it holds an integer that is too long to be written. -/
def literal? : Value → Option String
  | str s => some (quoted s)
  | int i => showInteger? i
  | float x => some (showFloat x)
  | bool b => some (if b then "True" else "False")
  | moment m => some m.literal
  | array items => (literals? items).map fun ts => "[" ++ ", ".intercalate ts ++ "]"
  | table fields => (entries? fields).map fun ts => "\x7b" ++ ", ".intercalate ts ++ "\x7d"

def literals? : List Value → Option (List String)
  | [] => some []
  | v :: vs => do
    let t ← v.literal?
    let ts ← literals? vs
    some (t :: ts)

def entries? : List (String × Value) → Option (List String)
  | [] => some []
  | (key, v) :: fields => do
    let t ← v.literal?
    let ts ← entries? fields
    some ((quoted key ++ ": " ++ t) :: ts)

end

/-- A text as it is, a moment in its standard form, any other value as a literal. -/
def shown? : Value → Option String
  | str s => some s
  | moment m => some m.standard
  | v => v.literal?

end Value

end FormulaDoc.Toml
