import FormulaDoc.Position

/-!
The caret in a range forest. The active ids name the styled ranges that the caret is in. A move makes
at most one change: the innermost active range that the caret has left is given up, or else the
outermost range that it has entered becomes active. A range is entered strictly inside and left only
past its ends, so that resting on an end changes nothing.
-/

namespace FormulaDoc

/-- The ids of the styled ranges that hold a position, the innermost first. -/
def Range.idsAround (rs : List Range) (edges : Bool) (position : Int) : List String :=
  (around rs edges position).filterMap Placed.id?

/-- The active ids after a move of the caret. -/
def nextActive (rs : List Range) (old new : Int) (active : List String) : List String :=
  let left := (Range.idsAround rs true old).filter fun id =>
    !(Range.idsAround rs true new).contains id && active.contains id
  let entered := (Range.idsAround rs false new).filter fun id =>
    !(Range.idsAround rs false old).contains id && !active.contains id
  match left.head?, entered.getLast? with
  | some id, _ => active.filter (· != id)
  | none, some id => id :: active
  | none, none => active

/-- A caret in a range forest, with the ids that are active. -/
structure Caret where
  ranges : List Range
  offset : Int
  active : List String

namespace Caret

def start (ranges : List Range) (offset : Int) : Caret :=
  ⟨ranges, offset, []⟩

/-- The caret moved within the same text. -/
def move (c : Caret) (offset : Int) : Caret :=
  { c with offset := offset, active := nextActive c.ranges c.offset offset c.active }

/-- The caret in a text that was edited: nothing is entered or left, but ids that are gone are no
longer active. -/
def replaceRanges (c : Caret) (ranges : List Range) (offset : Int) : Caret :=
  let present := (Range.flattenStyled ranges).filterMap Placed.id?
  ⟨ranges, offset, c.active.filter present.contains⟩

end Caret

end FormulaDoc
