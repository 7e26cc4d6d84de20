import FormulaDoc.Label
import FormulaDoc.Reader

/-!
Markup parsed to a formula. Nodes that name no id themselves receive path ids.
-/

namespace FormulaDoc

/-- Why a text has no formula: a fault at an offset, or an id that two nodes share. -/
inductive ParseError where
  | fault (cause : Cause) (offset : Nat)
  | duplicate (e : DuplicateId)
  deriving DecidableEq

def ParseError.message : ParseError → String
  | fault cause offset => cause.message ++ " (at offset " ++ toString offset ++ ")"
  | duplicate e => e.message

/-- The formula of a text, in which the given strings are read as variables. -/
def Formula.parse (vars : List String) (text : String) : Except ParseError Formula :=
  match readNodes vars text with
  | .error fault => .error (.fault fault.cause (text.length - fault.left))
  | .ok ns =>
    match ofNodes (labelNodes true ns) with
    | .ok f => .ok f
    | .error e => .error (.duplicate e)

end FormulaDoc
