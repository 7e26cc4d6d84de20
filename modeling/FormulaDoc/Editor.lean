import FormulaDoc.Caret
import FormulaDoc.Style

/-!
An editing session: a formula, a source of ids and a caret in the range forest of the formula. An edit
replaces the formula and lets the caret follow; one that fails leaves both alone, though the ids it
drew stay drawn.
-/

namespace FormulaDoc

inductive EditCommand where
  | color (runs : List (List String)) (color : String)
  | box (runs : List (List String)) (border background : String)
  | brace (runs : List (List String)) (above : Bool) (caption : String)
  | strike (runs : List (List String))
  | unstyle (ids : List String)
  | consolidate (runs : List (List String)) (singles : Bool)
  | clean
  | assignPathIds
  | replace (id : String) (node : Node)
  | reparse (mode : Mode) (vars : List String)

/-- The edited formula, and the targets where the command consolidates a selection. -/
def EditCommand.apply (f : Formula) : EditCommand → Minting (Edited × List (Option String))
  | color runs c => return (← applyColor f runs c, [])
  | box runs border background => return (← applyBox f runs border background, [])
  | brace runs above caption => return (← applyBrace f runs above caption, [])
  | strike runs => return (← applyStrike f runs, [])
  | unstyle ids => return (← removeStyle f ids, [])
  | consolidate runs singles => FormulaDoc.consolidate singles f runs
  | clean => return (← unique f.removeEmptyGroups, [])
  | assignPathIds => return (⟨← unique f.assignPathIds, true⟩, [])
  | replace id node => return (← unique (f.replaceNode id node), [])
  | reparse mode vars =>
    match Formula.parse vars (f.latex mode) with
    | .ok g => return (⟨g, true⟩, [])
    | .error e => throw (.unreadable e)

structure Session where
  formula : Formula
  source : IdSource
  caret : Caret

namespace Session

def start (f : Formula) (source : IdSource) (offset : Int) : Session :=
  ⟨f, source, .start f.ranges offset⟩

/-- An edit after which the caret is at the given offset, or where it was. -/
def edit (command : EditCommand) (offset : Option Int) (s : Session) :
    Except EditError (Edited × List (Option String)) × Session :=
  let (result, minter) := (command.apply s.formula).run ⟨[], s.source⟩
  match result with
  | .error e => (.error e, { s with source := minter.source })
  | .ok (e, targets) =>
    (.ok (e, targets),
      ⟨e.formula, minter.source,
        s.caret.replaceRanges e.formula.ranges (offset.getD s.caret.offset)⟩)

def move (offset : Int) (s : Session) : Session :=
  { s with caret := s.caret.move offset }

end Session

end FormulaDoc
