import FormulaDoc.Layout
import FormulaDoc.Shape
import FormulaDoc.Text.Quoted

/-!
A formula is a sequence of trees in which no two nodes share an id. `Formula.ofNodes` refuses a
sequence that repeats one and names the id whose repetition comes first in pre-order. Nodes store no
parents: the ancestors of a node are found by a search from the top.

The nodes of a formula can also be taken off a stack one by one (`Formula.walk`), and be filed in a table
under their ids as they are met (`Formula.index`).
-/

namespace FormulaDoc

/-- A node with its ancestors, the outermost first. -/
structure Entry where
  node : Node
  ancestors : List Node

namespace Node

/-- A node and all nodes below it, each before its children. -/
def preorder (n : Node) : List Node :=
  n :: n.children.attach.flatMap fun ⟨c, _⟩ => c.preorder
termination_by n.size
decreasing_by exact size_lt_of_mem ‹_›

theorem preorder_eq (n : Node) : n.preorder = n :: n.children.flatMap preorder := by
  rw [preorder]
  simp

theorem mem_preorder_iff {m n : Node} :
    m ∈ n.preorder ↔ m = n ∨ ∃ c ∈ n.children, m ∈ c.preorder := by
  rw [preorder_eq, List.mem_cons, List.mem_flatMap]

theorem self_mem_preorder (n : Node) : n ∈ n.preorder :=
  mem_preorder_iff.mpr (.inl rfl)

theorem mem_preorder_of_child {c m n : Node} (hc : c ∈ n.children) (hm : m ∈ c.preorder) :
    m ∈ n.preorder :=
  mem_preorder_iff.mpr (.inr ⟨c, hc, hm⟩)

theorem mem_preorder_trans {m n t : Node} (ht : t ∈ n.preorder) (hm : m ∈ t.preorder) :
    m ∈ n.preorder := by
  induction n using childrenInduction with
  | step n ih =>
    rcases mem_preorder_iff.mp ht with rfl | ⟨c, hc, ht⟩
    · exact hm
    · exact mem_preorder_of_child hc (ih c hc ht)

/-- The nodes of a tree in pre-order, with their ancestors from those of the tree on. -/
def entries (above : List Node) (n : Node) : List Entry :=
  ⟨n, above⟩ :: n.children.attach.flatMap fun ⟨c, _⟩ => c.entries (above ++ [n])
termination_by n.size
decreasing_by exact size_lt_of_mem ‹_›

theorem entries_eq (above : List Node) (n : Node) :
    n.entries above = ⟨n, above⟩ :: n.children.flatMap (entries (above ++ [n])) := by
  rw [entries]
  simp

theorem mem_entries_iff {above : List Node} {n : Node} {e : Entry} : e ∈ n.entries above ↔
    e = ⟨n, above⟩ ∨ ∃ c ∈ n.children, e ∈ c.entries (above ++ [n]) := by
  rw [entries_eq, List.mem_cons, List.mem_flatMap]

theorem map_node_entries (above : List Node) (n : Node) :
    (n.entries above).map Entry.node = n.preorder := by
  induction n using childrenInduction generalizing above with
  | step n ih =>
    rw [entries_eq, preorder_eq, List.map_cons, List.map_flatMap, List.flatMap_def, List.flatMap_def]
    congr 2
    exact List.map_congr_left fun c hc => ih c hc _

/-- The nodes that a stack of trees gives out: the tree on top is taken off, and its children are put in
its place, the first of them on top. -/
def walk : List Node → List Node
  | [] => []
  | n :: stack => n :: walk (n.children ++ stack)
termination_by stack => forestSize stack
decreasing_by
  rw [forestSize_append, forestSize, n.size_eq]
  omega

end Node

/-- The ids of a sequence of trees in pre-order. -/
def forestIds (ns : List Node) : List String :=
  (ns.flatMap Node.preorder).filterMap Node.id?

/-- The first element that is among `seen` or the elements before it. -/
def firstRepeat? (seen : List String) : List String → Option String
  | [] => none
  | x :: xs => if x ∈ seen then some x else firstRepeat? (x :: seen) xs

theorem firstRepeat?_eq_none {seen xs : List String} :
    firstRepeat? seen xs = none ↔ xs.Nodup ∧ ∀ x ∈ xs, x ∉ seen := by
  induction xs generalizing seen with
  | nil => simp [firstRepeat?]
  | cons x xs ih =>
    by_cases h : x ∈ seen
    · simp [firstRepeat?, h]
    · simp only [firstRepeat?, h, if_false, ih, List.nodup_cons, List.mem_cons, not_or]
      grind

/-- An id that two nodes share. -/
structure DuplicateId where
  id : String
  deriving DecidableEq

def DuplicateId.message (e : DuplicateId) : String :=
  "Duplicate node id " ++ quoted e.id

/-- Entries under the ids of their nodes. -/
abbrev Index := List (String × Entry)

/-- An entry filed under the id of its node; an id that the index has already is refused. -/
def Index.add (index : Index) (e : Entry) : Except DuplicateId Index :=
  match e.node.id? with
  | none => .ok index
  | some id => if (index.lookup id).isSome then .error ⟨id⟩ else .ok (index ++ [(id, e)])

/-- A tree filed with its ancestors, each node before its children. -/
def Node.index (above : List Node) (index : Index) (n : Node) : Except DuplicateId Index := do
  let filed ← index.add ⟨n, above⟩
  n.children.attach.foldlM (fun index ⟨c, _⟩ => c.index (above ++ [n]) index) filed
termination_by n.size
decreasing_by exact size_lt_of_mem ‹_›

theorem Node.index_eq (above : List Node) (index : Index) (n : Node) :
    n.index above index = (do
      let filed ← index.add ⟨n, above⟩
      n.children.foldlM (Node.index (above ++ [n])) filed) := by
  rw [Node.index]
  simp

/-- A sequence of trees whose ids are all different. -/
structure Formula where
  children : List Node
  nodup : (forestIds children).Nodup
  deriving DecidableEq

namespace Formula

def ofNodes (ns : List Node) : Except DuplicateId Formula :=
  match h : firstRepeat? [] (forestIds ns) with
  | none => .ok ⟨ns, (firstRepeat?_eq_none.1 h).1⟩
  | some id => .error ⟨id⟩

/-- The index of a sequence of trees, filed from the top. -/
def index (ns : List Node) : Except DuplicateId Index :=
  ns.foldlM (Node.index []) []

def empty : Formula := ⟨[], .nil⟩

instance : Inhabited Formula := ⟨empty⟩

/-- All nodes in pre-order. -/
def nodes (f : Formula) : List Node :=
  f.children.flatMap Node.preorder

/-- The nodes as they are taken off a stack. -/
def walk (f : Formula) : List Node :=
  Node.walk f.children

def ids (f : Formula) : List String :=
  forestIds f.children

/-- All nodes in pre-order, with their ancestors. -/
def entries (f : Formula) : List Entry :=
  f.children.flatMap (Node.entries [])

def entry? (f : Formula) (id : String) : Option Entry :=
  f.entries.find? fun e => e.node.id? = some id

def find? (f : Formula) (id : String) : Option Node :=
  (f.entry? id).map Entry.node

def contains (f : Formula) (id : String) : Bool :=
  (f.entry? id).isSome

/-- The path from the top to the parent of a node; empty at the top and for an unknown id. -/
def ancestors (f : Formula) (id : String) : List Node :=
  ((f.entry? id).map Entry.ancestors).getD []

def parent? (f : Formula) (id : String) : Option Node :=
  (f.ancestors id).getLast?

/-- The formula written out, with a blank between top-level nodes. -/
def layout (f : Formula) (mode : Mode) : List Layout :=
  layoutSequence mode f.children

def latex (f : Formula) (mode : Mode) : String :=
  Layout.textAll (f.layout mode)

/-- Where each identified node stands in the markup. -/
def spans (f : Formula) (mode : Mode) : List (String × Span) :=
  Layout.spansAll 0 (f.layout mode)

def span? (f : Formula) (mode : Mode) (id : String) : Option Span :=
  (f.spans mode).lookup id

/-- Equal up to ids: written the same way. -/
def equivalent (f g : Formula) : Bool :=
  f.latex .ast == g.latex .ast

end Formula

end FormulaDoc
