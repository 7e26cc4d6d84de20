import FormulaDoc.Formula

/-!
Path ids: the id of a top-level node is its position, the id of any other node is the id of its parent
with the name of its slot.
-/

namespace FormulaDoc

namespace Node

/-- The names of the child slots in document order. -/
def slots : Node → List String
  | symbol .. | space .. | op .. | var .. | newLine | alignMark => []
  | text _ body | group _ body | color _ _ body => (List.range body.length).map toString
  | aligned _ cells => (List.range cells.length).map toString
  | frac .. => ["numerator", "denominator"]
  | script _ _ sub sup =>
    "base" :: ((sub.map fun _ => "sub").toList ++ (sup.map fun _ => "sup").toList)
  | root _ _ index => "body" :: (index.map fun _ => "index").toList
  | array _ rows _ =>
    (rows.mapIdx fun r row => row.mapIdx fun c _ => toString r ++ "." ++ toString c).flatten
  | brace .. | box .. | strike .. => ["body"]

theorem length_slots (n : Node) : n.slots.length = n.children.length := by
  cases n with
  | script id base sub sup => cases sub <;> cases sup <;> rfl
  | root id body index => cases index <;> rfl
  | array id rows align =>
    simp only [slots, children, List.length_flatten]
    congr 1
    exact List.ext_getElem (by simp) (by simp)
  | _ => simp [slots, children]

/-- The id that a node at a path takes: with `keep` a node that has one already keeps it. -/
def pathId (keep : Bool) (path id : String) : String :=
  if keep && id != "" then id else path

/-- The tree with path ids from the given path on. A node without an id has no children either. -/
def relabel (keep : Bool) (path : String) (n : Node) : Node :=
  match n.id? with
  | none => n
  | some id =>
    (n.withChildren (List.zipWith
      (fun ⟨c, _⟩ slot => c.relabel keep (pathId keep path id ++ "." ++ slot))
      n.children.attach n.slots)).withId (pathId keep path id)
termination_by n.size
decreasing_by exact size_lt_of_mem ‹_›

theorem relabel_eq (keep : Bool) (path : String) (n : Node) :
    n.relabel keep path = match n.id? with
      | none => n
      | some id =>
        (n.withChildren (List.zipWith
          (fun c slot => c.relabel keep (pathId keep path id ++ "." ++ slot))
          n.children n.slots)).withId (pathId keep path id) := by
  rw [relabel]
  split
  · rfl
  · congr 2
    exact List.ext_getElem (by simp) (by simp)

end Node

/-- A sequence of trees with path ids. -/
def labelNodes (keep : Bool) (ns : List Node) : List Node :=
  ns.mapIdx fun i n => n.relabel keep (toString i)

/-- The formula with path ids throughout. -/
def Formula.assignPathIds (f : Formula) : Except DuplicateId Formula :=
  ofNodes (labelNodes false f.children)

end FormulaDoc
