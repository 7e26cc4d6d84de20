import FormulaDoc.Range

/-!
Where the ranges of a forest stand: every range with its offsets and its depth, the ranges around a
position, and the decorations of an editor.
-/

namespace FormulaDoc

/-- A range with its offsets in the whole text and the number of ranges around it. -/
structure Placed where
  start : Nat
  stop : Nat
  depth : Nat
  range : Range
  deriving DecidableEq

namespace Placed

def id? (p : Placed) : Option String :=
  p.range.id?

/-- Whether a position lies in a range, its two ends excluded or included. -/
def holds (p : Placed) (edges : Bool) (position : Int) : Bool :=
  if edges then p.start ≤ position && position ≤ p.stop
  else p.start < position && position < p.stop

end Placed

namespace Range

mutual

/-- A range and the ranges inside it, each before its children. -/
def placed (start depth : Nat) : Range → List Placed
  | plain s => [⟨start, start + s.length, depth, plain s⟩]
  | styled id left children right hints =>
    ⟨start, start + (styled id left children right hints).length, depth,
        styled id left children right hints⟩ ::
      placedAll (start + left.length) (depth + 1) children

def placedAll (start depth : Nat) : List Range → List Placed
  | [] => []
  | r :: rs => r.placed start depth ++ placedAll (start + r.length) depth rs

end

/-- All ranges of a forest by their start; of two with the same start the outer one comes first. -/
def flatten (rs : List Range) : List Placed :=
  (placedAll 0 0 rs).mergeSort fun a b =>
    a.start < b.start || (a.start == b.start && a.depth ≤ b.depth)

/-- The styled ranges of a forest, in the same order. -/
def flattenStyled (rs : List Range) : List Placed :=
  ((placedAll 0 0 rs).filter (·.range.isStyled)).mergeSort fun a b =>
    a.start < b.start || (a.start == b.start && a.depth ≤ b.depth)

/-- The ranges that hold a position, the innermost first. -/
def around (rs : List Range) (edges : Bool) (position : Int) : List Placed :=
  if position < 0 || lengthAll rs < position then []
  else ((placedAll 0 0 rs).filter (·.holds edges position)).mergeSort fun a b => b.depth ≤ a.depth

end Range

/-- A styled range as an editor shows it. -/
structure Decoration where
  start : Nat
  stop : Nat
  id : String
  depth : Nat
  hints : Option Hints
  active : Bool

def Range.decorations (rs : List Range) (active : List String) : List Decoration :=
  (flattenStyled rs).filterMap fun p =>
    match p.range with
    | plain _ => none
    | styled id _ _ _ hints => some ⟨p.start, p.stop, id, p.depth, hints, active.contains id⟩

end FormulaDoc
