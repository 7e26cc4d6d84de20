import FormulaDoc.Position

/-!
Formulas and ranges as plain data: nested lists and maps whose fields keep their order, ready to be
written in a text format.
-/

namespace FormulaDoc

inductive Data where
  | null
  | bool (b : Bool)
  | int (i : Int)
  | str (s : String)
  | list (items : List Data)
  | map (fields : List (String × Data))
  deriving Inhabited

def Data.optional : Option String → Data
  | some s => str s
  | none => null

namespace Node

open Data (str bool list null optional)

/-- A node as a map: its kind first, then its own fields. -/
private def fields (n : Node) (rest : List (String × Data)) : Data :=
  .map (("kind", str n.kind.tag) :: (n.id?.map fun id => ("id", str id)).toList ++ rest)

mutual

/-- A node as a map with all its fields; absent children are null. -/
def toData : Node → Data
  | n@(symbol _ value) => n.fields [("value", str value)]
  | n@(space _ s) => n.fields [("text", str s)]
  | n@(text _ body) => n.fields [("body", list (allToData body))]
  | n@(op _ operator limits) => n.fields [("operator", str operator), ("limits", bool limits)]
  | n@(frac _ numerator denominator) =>
    n.fields [("numerator", numerator.toData), ("denominator", denominator.toData)]
  | n@(script _ base sub sup) =>
    n.fields [("base", base.toData), ("sub", optionToData sub), ("sup", optionToData sup)]
  | n@(root _ body index) => n.fields [("body", body.toData), ("index", optionToData index)]
  | n@(group _ body) => n.fields [("body", list (allToData body))]
  | n@(array _ rows align) =>
    n.fields [("rows", list (rowsToData rows)), ("align", optional align)]
  | n@(brace _ above body) => n.fields [("over", bool above), ("body", body.toData)]
  | n@(color _ c body) => n.fields [("color", str c), ("body", list (allToData body))]
  | n@(box _ border body background) =>
    n.fields [("border_color", str border), ("body", body.toData),
      ("background_color", str background)]
  | n@(strike _ body) => n.fields [("body", body.toData)]
  | n@(aligned _ cells) => n.fields [("cells", list (allToData cells))]
  | newLine => newLine.fields []
  | alignMark => alignMark.fields []
  | n@(var _ latex) => n.fields [("variable_latex", str latex)]

def allToData : List Node → List Data
  | [] => []
  | n :: ns => n.toData :: allToData ns

def rowsToData : List (List Node) → List Data
  | [] => []
  | row :: rows => list (allToData row) :: rowsToData rows

def optionToData : Option Node → Data
  | none => null
  | some n => n.toData

end

end Node

def Formula.toData (f : Formula) : Data :=
  .map [("children", .list (Node.allToData f.children))]

/-- The hints that are given and not empty. -/
def Hints.toData (h : Hints) : Data :=
  let field (name : String) (value : Option String) : List (String × Data) :=
    (value.filter (· != "")).toList.map fun s => (name, .str s)
  .map (field "color" h.color ++ field "tooltip" h.tooltip)

namespace Range

mutual

def toData : Range → Data
  | plain s => .map [("text", .str s)]
  | styled id left children right hints =>
    .map ([("id", .str id), ("left", .str left), ("children", .list (allToData children)),
      ("right", .str right)] ++ (hints.map fun h => ("hints", h.toData)).toList)

def allToData : List Range → List Data
  | [] => []
  | r :: rs => r.toData :: allToData rs

end

end Range

def Placed.toData (p : Placed) : Data :=
  .map [("start", .int p.start), ("end", .int p.stop), ("depth", .int p.depth),
    match p.range with
    | .plain s => ("text", .str s)
    | .styled id .. => ("id", .str id)]

end FormulaDoc
