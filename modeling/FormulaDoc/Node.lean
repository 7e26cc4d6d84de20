/-!
The grammar of formula trees: the seventeen kinds of node, their ids and their children.

Children are listed in document order by `Node.children` and put back by `Node.withChildren`; every
traversal of the library goes through these two, but for `Node.mapChildrenM`, which goes from slot to slot
and comes to the same. The size of a node is one more than the size of its children together
(`Node.size_eq`), which is the measure such a traversal ends by, and `Node.childrenInduction` is the
induction that goes with it.
-/

namespace FormulaDoc

/-- The kinds of node. -/
inductive Kind where
  | symbol | space | text | op | frac | script | root | group | array | brace | color | box
  | strike | aligned | newLine | alignMark | var
  deriving DecidableEq, Inhabited

/-- The tag that names a kind in written documents. -/
def Kind.tag : Kind → String
  | .symbol => "symbol"
  | .space => "space"
  | .text => "text"
  | .op => "op"
  | .frac => "frac"
  | .script => "script"
  | .root => "root"
  | .group => "group"
  | .array => "array"
  | .brace => "brace"
  | .color => "color"
  | .box => "box"
  | .strike => "strikethrough"
  | .aligned => "aligned"
  | .newLine => "newline"
  | .alignMark => "alignmark"
  | .var => "variable"

/-- The name of a kind in messages. -/
def Kind.title : Kind → String
  | .symbol => "Symbol"
  | .space => "Space"
  | .text => "Text"
  | .op => "Op"
  | .frac => "Fraction"
  | .script => "Script"
  | .root => "Root"
  | .group => "Group"
  | .array => "Array"
  | .brace => "Brace"
  | .color => "Color"
  | .box => "Box"
  | .strike => "Strikethrough"
  | .aligned => "Aligned"
  | .newLine => "NewLine"
  | .alignMark => "AlignMarker"
  | .var => "Variable"

/-- A formula tree. A line break and an alignment mark, which stand inside aligned cells, have no
id. An array without a column specification derives one from its rows. -/
inductive Node where
  | symbol (id value : String)
  | space (id text : String)
  | text (id : String) (body : List Node)
  | op (id operator : String) (limits : Bool)
  | frac (id : String) (numerator denominator : Node)
  | script (id : String) (base : Node) (sub sup : Option Node)
  | root (id : String) (body : Node) (index : Option Node)
  | group (id : String) (body : List Node)
  | array (id : String) (rows : List (List Node)) (align : Option String)
  | brace (id : String) (above : Bool) (body : Node)
  | color (id color : String) (body : List Node)
  | box (id border : String) (body : Node) (background : String)
  | strike (id : String) (body : Node)
  | aligned (id : String) (cells : List Node)
  | newLine
  | alignMark
  | var (id latex : String)
  deriving Inhabited

namespace Node

def kind : Node → Kind
  | symbol .. => .symbol
  | space .. => .space
  | text .. => .text
  | op .. => .op
  | frac .. => .frac
  | script .. => .script
  | root .. => .root
  | group .. => .group
  | array .. => .array
  | brace .. => .brace
  | color .. => .color
  | box .. => .box
  | strike .. => .strike
  | aligned .. => .aligned
  | newLine => .newLine
  | alignMark => .alignMark
  | var .. => .var

def id? : Node → Option String
  | symbol id _ | space id _ | text id _ | op id _ _ | frac id _ _ | script id _ _ _ | root id _ _
  | group id _ | array id _ _ | brace id _ _ | color id _ _ | box id _ _ _ | strike id _
  | aligned id _ | var id _ => some id
  | newLine | alignMark => none

/-- The node under another id; a node without an id stays as it is. -/
def withId (id : String) : Node → Node
  | symbol _ value => symbol id value
  | space _ s => space id s
  | text _ body => text id body
  | op _ operator limits => op id operator limits
  | frac _ numerator denominator => frac id numerator denominator
  | script _ base sub sup => script id base sub sup
  | root _ body index => root id body index
  | group _ body => group id body
  | array _ rows align => array id rows align
  | brace _ above body => brace id above body
  | color _ c body => color id c body
  | box _ border body background => box id border body background
  | strike _ body => strike id body
  | aligned _ cells => aligned id cells
  | newLine => newLine
  | alignMark => alignMark
  | var _ latex => var id latex

/-- The immediate children in document order: the cells of an array row by row, the index of a root
after its body. -/
def children : Node → List Node
  | symbol .. | space .. | op .. | var .. | newLine | alignMark => []
  | text _ body | group _ body | color _ _ body => body
  | aligned _ cells => cells
  | frac _ numerator denominator => [numerator, denominator]
  | script _ base sub sup => base :: (sub.toList ++ sup.toList)
  | root _ body index => body :: index.toList
  | array _ rows _ => rows.flatten
  | brace _ _ body | box _ _ body _ | strike _ body => [body]

/-- Rows of the given lengths cut from a list of cells. -/
def cutRows : List Nat → List Node → List (List Node)
  | [], _ => []
  | k :: ks, cells => cells.take k :: cutRows ks (cells.drop k)

/-- The node with other children, given in document order and as many as it has; rows of an array
keep their lengths and absent slots stay absent. -/
def withChildren : Node → List Node → Node
  | text id _, body => text id body
  | group id _, body => group id body
  | color id c _, body => color id c body
  | aligned id _, cells => aligned id cells
  | array id rows align, cells => array id (cutRows (rows.map List.length) cells) align
  | frac id _ _, [numerator, denominator] => frac id numerator denominator
  | script id _ none none, [base] => script id base none none
  | script id _ (some _) none, [base, sub] => script id base (some sub) none
  | script id _ none (some _), [base, sup] => script id base none (some sup)
  | script id _ (some _) (some _), [base, sub, sup] => script id base (some sub) (some sup)
  | root id _ none, [body] => root id body none
  | root id _ (some _), [body, index] => root id body (some index)
  | brace id above _, [body] => brace id above body
  | box id border _ background, [body] => box id border body background
  | strike id _, [body] => strike id body
  | n, _ => n

def mapChildren (f : Node → Node) (n : Node) : Node :=
  n.withChildren (n.children.map f)

/-- The node with an action carried out on the child in each slot, one slot after the other, and what it
gives put into the slot. -/
def mapChildrenM {m : Type → Type} [Monad m] (f : Node → m Node) : Node → m Node
  | text id body => do return text id (← body.mapM f)
  | group id body => do return group id (← body.mapM f)
  | color id c body => do return color id c (← body.mapM f)
  | aligned id cells => do return aligned id (← cells.mapM f)
  | frac id numerator denominator => do return frac id (← f numerator) (← f denominator)
  | script id base sub sup => do return script id (← f base) (← sub.mapM f) (← sup.mapM f)
  | root id body index => do return root id (← f body) (← index.mapM f)
  | array id rows align => do return array id (← rows.mapM (·.mapM f)) align
  | brace id above body => do return brace id above (← f body)
  | box id border body background => do return box id border (← f body) background
  | strike id body => do return strike id (← f body)
  | n => pure n

/-- The node with a function applied in each slot, and the children that it was called with, in the order
of the calls. -/
def traceMapChildren (f : Node → Node) (n : Node) : Node × List Node :=
  let call (c : Node) : StateM (List Node) Node := do
    modify (· ++ [c])
    pure (f c)
  (n.mapChildrenM call).run []

/-- The children that form a run of siblings a selection can span. -/
def sequence? : Node → Option (List Node)
  | group _ body | color _ _ body => some body
  | aligned _ cells => some cells
  | _ => none

/-- The sequence node with other siblings in it; any other kind is refused and named. -/
def withSequence : Node → List Node → Except Kind Node
  | group id _, items => .ok (group id items)
  | color id c _, items => .ok (color id c items)
  | aligned id _, items => .ok (aligned id items)
  | n, _ => .error n.kind

/-- The nodes that an editor decorates. -/
def isCarrier : Node → Bool
  | color .. | box .. | brace .. | strike .. | var .. => true
  | _ => false

def isEmptyGroup : Node → Bool
  | group _ [] => true
  | _ => false

/-- The kind and the id, as `kind:id`, or the kind alone. -/
def label (n : Node) : String :=
  match n.id? with
  | some id => n.kind.tag ++ ":" ++ id
  | none => n.kind.tag

mutual

/-- The number of nodes of a tree. -/
def size : Node → Nat
  | symbol .. | space .. | op .. | var .. | newLine | alignMark => 1
  | text _ body | group _ body | color _ _ body => forestSize body + 1
  | aligned _ cells => forestSize cells + 1
  | frac _ numerator denominator => numerator.size + denominator.size + 1
  | script _ base sub sup => base.size + optionSize sub + optionSize sup + 1
  | root _ body index => body.size + optionSize index + 1
  | array _ rows _ => rowsSize rows + 1
  | brace _ _ body | box _ _ body _ | strike _ body => body.size + 1

/-- The number of nodes of a list of trees. -/
def forestSize : List Node → Nat
  | [] => 0
  | n :: ns => n.size + forestSize ns

def rowsSize : List (List Node) → Nat
  | [] => 0
  | row :: rows => forestSize row + rowsSize rows

def optionSize : Option Node → Nat
  | none => 0
  | some n => n.size

end

theorem forestSize_append (a b : List Node) :
    forestSize (a ++ b) = forestSize a + forestSize b := by
  induction a with
  | nil => simp [forestSize]
  | cons n ns ih => simp [forestSize, ih, Nat.add_assoc]

theorem forestSize_flatten (rows : List (List Node)) :
    forestSize rows.flatten = rowsSize rows := by
  induction rows with
  | nil => rfl
  | cons row rows ih => simp [forestSize_append, rowsSize, ih]

theorem forestSize_toList (o : Option Node) : forestSize o.toList = optionSize o := by
  cases o <;> simp [forestSize, optionSize]

theorem size_eq (n : Node) : n.size = forestSize n.children + 1 := by
  cases n <;>
    simp [size, children, forestSize, forestSize_append, forestSize_flatten, forestSize_toList,
      Nat.add_assoc]

theorem size_le_forestSize {c : Node} {ns : List Node} (h : c ∈ ns) : c.size ≤ forestSize ns := by
  induction h with
  | head => simp [forestSize]
  | tail _ _ ih => simp only [forestSize]; omega

theorem size_lt_of_mem {c n : Node} (h : c ∈ n.children) : c.size < n.size := by
  have := size_le_forestSize h
  have := n.size_eq
  omega

/-- Induction on trees: a property that passes from the children of a node to the node holds of
every node. -/
theorem childrenInduction {P : Node → Prop} (step : ∀ n, (∀ c ∈ n.children, P c) → P n) (n : Node) :
    P n :=
  step n fun c _ => childrenInduction step c
termination_by n.size
decreasing_by exact size_lt_of_mem ‹_›

end Node

end FormulaDoc
