import FormulaDoc.Rewrite

/-!
Selections. A selection is a list of runs, each a list of ids; a run that names adjacent siblings of
one sequence becomes a fresh group, any other run is stale and has no effect.
-/

namespace FormulaDoc

/-- A run of siblings: the node that holds it, unless it is at the top, all siblings, and the position
of the first of the run among them. -/
structure Run where
  parent : Option Node
  siblings : List Node
  start : Nat

/-- Where a run stands in a formula, if it names adjacent siblings of one sequence. -/
def Formula.locate? (f : Formula) (run : List String) : Option Run := do
  let first ← run.head?
  let _ ← f.entry? first
  let parent := f.parent? first
  let siblings ← match parent with
    | none => some f.children
    | some p => p.sequence?
  let ids := siblings.map Node.id?
  let start := ids.idxOf (some first)
  if (ids.drop start).take run.length = run.map some then some ⟨parent, siblings, start⟩ else none

/-- All siblings of a run of the given length, with the run in a group. -/
def Run.grouped (r : Run) (length : Nat) (id : String) : List Node :=
  r.siblings.take r.start ++
    .group id ((r.siblings.drop r.start).take length) :: r.siblings.drop (r.start + length)

/-- One run of a selection grouped, and the id of the node that stands for it. With `singles` a run
of one id is grouped too; without, it stands for itself. -/
def consolidateRun (singles : Bool) (f : Formula) (run : List String) :
    Minting (Edited × Option String) :=
  if run.length = 1 ∧ !singles then pure (⟨f, false⟩, run.head?.filter f.contains)
  else match f.locate? run with
    | none => pure (⟨f, false⟩, none)
    | some r => do
      let id ← mint
      let items := r.grouped run.length id
      match r.parent with
      | none =>
        let g ← unique (Formula.ofNodes items)
        pure (⟨g, true⟩, some id)
      | some p =>
        let e ← unique (f.replaceNode (p.id?.getD "") (p.withChildren items))
        pure (e, some id)

def consolidateRuns (singles : Bool) :
    Formula → List (List String) → Minting (Edited × List (Option String))
  | f, [] => pure (⟨f, false⟩, [])
  | f, run :: runs => do
    let (e, target) ← consolidateRun singles f run
    let (e', targets) ← consolidateRuns singles e.formula runs
    pure (⟨e'.formula, e.changed || e'.changed⟩, target :: targets)

/-- Every run of a selection grouped in turn; per run, the id of the node that stands for it. -/
def consolidate (singles : Bool) (f : Formula) (runs : List (List String)) :
    Minting (Edited × List (Option String)) := do
  mintBeside f
  consolidateRuns singles f runs

end FormulaDoc
