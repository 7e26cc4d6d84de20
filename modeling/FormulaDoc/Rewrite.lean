import FormulaDoc.Fresh

/-!
Rewriting a formula from the leaves up. A visitor receives every node, rebuilt around its rewritten
children, and either leaves it alone or returns another one, which is not visited again. A formula in
which every node was left alone counts as unchanged.
-/

namespace FormulaDoc

/-- A node after rewriting, and whether any visitor replaced it or a node below it. -/
abbrev Rewritten := Node × Bool

section

variable {m : Type → Type} [Monad m]

def Node.rewrite (visit : Node → m (Option Node)) (n : Node) : m Rewritten := do
  let below ← n.children.attach.mapM fun ⟨c, _⟩ => c.rewrite visit
  let rebuilt := n.withChildren (below.map Prod.fst)
  match ← visit rebuilt with
  | some r => pure (r, true)
  | none => pure (rebuilt, below.any Prod.snd)
termination_by n.size
decreasing_by exact size_lt_of_mem ‹_›

theorem Node.rewrite_eq [LawfulMonad m] (visit : Node → m (Option Node)) (n : Node) :
    n.rewrite visit = (do
      let below ← n.children.mapM (Node.rewrite visit)
      let rebuilt := n.withChildren (below.map Prod.fst)
      match ← visit rebuilt with
      | some r => pure (r, true)
      | none => pure (rebuilt, below.any Prod.snd)) := by
  rw [Node.rewrite]
  simp

/-- A formula after an edit, and whether the edit built it anew. -/
structure Edited where
  formula : Formula
  changed : Bool

def Formula.rewrite (visit : Node → m (Option Node)) (f : Formula) :
    m (Except DuplicateId Edited) := do
  let below ← f.children.mapM (Node.rewrite visit)
  if below.any Prod.snd then
    pure ((ofNodes (below.map Prod.fst)).map fun g => ⟨g, true⟩)
  else pure (.ok ⟨f, false⟩)

end

/-- A repeated id as the error of an edit. -/
def unique {α : Type} : Except DuplicateId α → Minting α
  | .ok a => pure a
  | .error e => throw (.duplicate e)

/-- The replacement of a node whose id has one. -/
def Node.replacement? (sub : String → Option Node) (n : Node) : Option Node :=
  n.id?.bind sub

/-- A node with those of its children replaced whose id has a replacement, and whether any has. -/
def Node.replaceChildren (sub : String → Option Node) (n : Node) : Rewritten :=
  (n.mapChildren fun c => (c.replacement? sub).getD c,
    n.children.any fun c => (c.replacement? sub).isSome)

/-- The same, with the children that were looked at for a replacement, in order. -/
def Node.traceReplaceChildren (sub : String → Option Node) (n : Node) : Rewritten × List Node :=
  let (mapped, seen) := n.traceMapChildren fun c => (c.replacement? sub).getD c
  ((mapped, seen.any fun c => (c.replacement? sub).isSome), seen)

/-- Every node whose id has a replacement is replaced, below replaced nodes too. -/
def Formula.replaceNodes (sub : String → Option Node) (f : Formula) : Except DuplicateId Edited :=
  Id.run (f.rewrite fun n => pure (n.replacement? sub))

/-- The nodes that rewriting with these replacements visits, in order and as the visitor receives
them, and the result. -/
def Formula.traceReplaceNodes (sub : String → Option Node) (f : Formula) :
    Except DuplicateId Edited × List Node :=
  let visit (n : Node) : StateM (List Node) (Option Node) := do
    modify (· ++ [n])
    pure (n.replacement? sub)
  (f.rewrite visit).run []

def Formula.replaceNode (id : String) (r : Node) (f : Formula) : Except DuplicateId Edited :=
  f.replaceNodes fun i => if i = id then some r else none

/-- A sequence node without the empty groups among its siblings. -/
def Node.dropEmptyGroups (n : Node) : Option Node :=
  n.sequence?.bind fun items =>
    if items.any isEmptyGroup then some (n.withChildren (items.filter (!·.isEmptyGroup))) else none

/-- The formula without empty groups in sibling sequences. A slot for a single node keeps its group,
and so does an array, where it marks an empty column. -/
def Formula.removeEmptyGroups (f : Formula) : Except DuplicateId Edited := do
  let e ← Id.run (f.rewrite fun n => pure n.dropEmptyGroups)
  let top := e.formula.children.filter (!·.isEmptyGroup)
  if top.length = e.formula.children.length then pure e
  else
    let g ← ofNodes top
    pure ⟨g, true⟩

end FormulaDoc
