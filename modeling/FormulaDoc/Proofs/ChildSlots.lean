import FormulaDoc.Proofs.Outermost

namespace FormulaDoc

section

variable {m : Type → Type} [Monad m] [LawfulMonad m]

/-- What comes after an action on each element of a list may rely on the number of results. -/
theorem mapM_bind_congr {α β γ : Type} {f : α → m β} {l : List α} {g g' : List β → m γ}
    (h : ∀ bs, bs.length = l.length → g bs = g' bs) : l.mapM f >>= g = l.mapM f >>= g' := by
  induction l generalizing g g' with
  | nil => simpa using h [] rfl
  | cons a l ih =>
    rw [List.mapM_cons, bind_assoc, bind_assoc]
    refine bind_congr fun b => ?_
    rw [bind_assoc, bind_assoc]
    refine ih fun bs hbs => ?_
    rw [pure_bind, pure_bind]
    exact h (b :: bs) (congrArg (· + 1) hbs)

namespace Node

/-- To go through the cells row by row comes to going through all of them and cutting the rows anew. -/
theorem map_cutRows_mapM (f : Node → m Node) (rows : List (List Node)) :
    cutRows (rows.map List.length) <$> rows.flatten.mapM f = rows.mapM (·.mapM f) := by
  induction rows with
  | nil => simp [cutRows]
  | cons row rows ih =>
    rw [List.flatten_cons, List.mapM_append, List.mapM_cons, ← ih, map_bind]
    -- there are as many new cells as the row had, so it is cut off where it ended
    refine mapM_bind_congr fun cells hcells => ?_
    rw [map_bind, bind_map_left]
    refine bind_congr fun rest => ?_
    rw [map_pure, List.map_cons, cutRows, ← hcells, List.take_left, List.drop_left]

theorem mapChildrenM_eq (f : Node → m Node) (n : Node) :
    n.mapChildrenM f = n.withChildren <$> n.children.mapM f := by
  cases n with
  | text id body | group id body | color id c body | aligned id cells =>
    simp only [mapChildrenM, children, bind_pure_comp]
    rfl
  | array id rows align =>
    simp only [mapChildrenM, children, ← map_cutRows_mapM, bind_pure_comp, Functor.map_map]
    rfl
  | script id base sub sup =>
    cases sub <;> cases sup <;> simp [mapChildrenM, withChildren, children]
  | root id body index => cases index <;> simp [mapChildrenM, withChildren, children]
  | _ => simp [mapChildrenM, withChildren, children]

end Node

end

namespace Node

variable (n : Node) (f g : Node → Node)

/-- A function that is applied in the slots is called with each child once, in document order. -/
theorem traceMapChildren_eq : n.traceMapChildren f = (n.mapChildren f, n.children) := by
  have hvisit : ∀ c ∈ n.children, ∀ seen, (do modify (· ++ [c]); pure (f c) : StateM (List Node) Node).run seen =
      (f c, seen ++ [c]) := fun c _ seen => rfl
  have hcalls := run_mapM_record (g := fun c => do modify (· ++ [c]); pure (f c)) hvisit []
  rw [traceMapChildren, mapChildrenM_eq, StateT.run_map, hcalls, List.flatMap_singleton',
    List.nil_append]
  rfl

theorem traceReplaceChildren_eq (sub : String → Option Node) :
    n.traceReplaceChildren sub = (n.replaceChildren sub, n.children) := by
  rw [traceReplaceChildren, traceMapChildren_eq]
  rfl

/-- Children are listed, mapped and written in step. A function that is mapped over the slots of a node is
called with its children in document order, and the children of the result are what it gave; the kind, the
id and the shape (all other fields, the lengths of the rows and which optional slots are filled) stay as
they are; mapping twice is mapping once by both functions; and markup in any mode and position refers to
each child exactly once. -/
theorem slots_in_step :
    n.traceMapChildren f = (n.mapChildren f, n.children) ∧
    (n.mapChildren f).children = n.children.map f ∧
    (n.mapChildren f).kind = n.kind ∧
    (n.mapChildren f).id? = n.id? ∧
    (n.mapChildren f).shape = n.shape ∧
    (n.mapChildren f).mapChildren g = n.mapChildren (fun c => g (f c)) ∧
    ∀ mode asArg, (Piece.references (n.pieces mode asArg)).Perm n.children := by
  refine ⟨n.traceMapChildren_eq f, n.children_mapChildren f, n.kind_mapChildren f, n.id?_mapChildren f,
    n.shape_mapChildren f, n.mapChildren_mapChildren f g, ?_⟩
  intro mode asArg
  exact n.references_pieces mode asArg

end Node

end FormulaDoc
