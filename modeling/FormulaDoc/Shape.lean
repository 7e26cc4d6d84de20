import FormulaDoc.Node

/-!
What a node is apart from its id and its children. A node is determined by its shape, its id and its
children (`Node.ext_iff`), so equality of trees is decidable; refilling the child slots keeps shape
and id (`Node.shape_withChildren`) and stores exactly the given children
(`Node.children_withChildren`).
-/

namespace FormulaDoc

/-- The kind of a node with its fields other than id and children, the lengths of its rows and
whether its optional slots are filled. -/
inductive Shape where
  | symbol (value : String)
  | space (text : String)
  | text
  | op (operator : String) (limits : Bool)
  | frac
  | script (sub sup : Bool)
  | root (index : Bool)
  | group
  | array (rows : List Nat) (align : Option String)
  | brace (above : Bool)
  | color (color : String)
  | box (border background : String)
  | strike
  | aligned
  | newLine
  | alignMark
  | var (latex : String)
  deriving DecidableEq

namespace Node

def shape : Node → Shape
  | symbol _ value => .symbol value
  | space _ s => .space s
  | text .. => .text
  | op _ operator limits => .op operator limits
  | frac .. => .frac
  | script _ _ sub sup => .script sub.isSome sup.isSome
  | root _ _ index => .root index.isSome
  | group .. => .group
  | array _ rows align => .array (rows.map List.length) align
  | brace _ above _ => .brace above
  | color _ c _ => .color c
  | box _ border _ background => .box border background
  | strike .. => .strike
  | aligned .. => .aligned
  | newLine => .newLine
  | alignMark => .alignMark
  | var _ latex => .var latex

theorem cutRows_flatten (rows : List (List Node)) :
    cutRows (rows.map List.length) rows.flatten = rows := by
  induction rows with
  | nil => rfl
  | cons row rows ih => simp [cutRows, ih]

theorem flatten_cutRows {rows : List (List Node)} {cells : List Node}
    (h : cells.length = rows.flatten.length) :
    (cutRows (rows.map List.length) cells).flatten = cells := by
  induction rows generalizing cells with
  | nil => simpa [cutRows, eq_comm] using h
  | cons row rows ih =>
    simp only [List.flatten_cons, List.length_append] at h
    simp only [List.map_cons, cutRows, List.flatten_cons]
    rw [ih (by simp only [List.length_drop]; omega), List.take_append_drop]

theorem map_length_cutRows {rows : List (List Node)} {cells : List Node}
    (h : cells.length = rows.flatten.length) :
    (cutRows (rows.map List.length) cells).map List.length = rows.map List.length := by
  induction rows generalizing cells with
  | nil => rfl
  | cons row rows ih =>
    simp only [List.flatten_cons, List.length_append] at h
    simp only [List.map_cons, cutRows, List.length_take]
    rw [ih (by simp only [List.length_drop]; omega)]
    congr 1
    omega

theorem withChildren_children (n : Node) : n.withChildren n.children = n := by
  cases n with
  | script id base sub sup => cases sub <;> cases sup <;> rfl
  | root id body index => cases index <;> rfl
  | array id rows align => simp [withChildren, children, cutRows_flatten]
  | _ => rfl

theorem fields_withChildren {n : Node} {cs : List Node} (h : cs.length = n.children.length) :
    (n.withChildren cs).shape = n.shape ∧ (n.withChildren cs).id? = n.id? ∧
      (n.withChildren cs).children = cs := by
  cases n with
  | text | group | color | aligned => exact ⟨rfl, rfl, rfl⟩
  | array id rows align =>
    exact ⟨by simp [withChildren, shape, map_length_cutRows h], rfl,
      by simp [withChildren, children, flatten_cutRows h]⟩
  | frac =>
    obtain _ | ⟨_, _ | ⟨_, _ | _⟩⟩ := cs <;> first | exact ⟨rfl, rfl, rfl⟩ | cases h
  | script id base sub sup =>
    cases sub <;> cases sup <;> obtain _ | ⟨_, _ | ⟨_, _ | ⟨_, _ | _⟩⟩⟩ := cs <;>
      first | exact ⟨rfl, rfl, rfl⟩ | cases h
  | root id body index =>
    cases index <;> obtain _ | ⟨_, _ | ⟨_, _ | _⟩⟩ := cs <;> first | exact ⟨rfl, rfl, rfl⟩ | cases h
  | brace | box | strike =>
    obtain _ | ⟨_, _ | _⟩ := cs <;> first | exact ⟨rfl, rfl, rfl⟩ | cases h
  | _ => obtain _ | _ := cs <;> first | exact ⟨rfl, rfl, rfl⟩ | cases h

theorem shape_withChildren {n : Node} {cs : List Node} (h : cs.length = n.children.length) :
    (n.withChildren cs).shape = n.shape :=
  (fields_withChildren h).1

theorem id?_withChildren {n : Node} {cs : List Node} (h : cs.length = n.children.length) :
    (n.withChildren cs).id? = n.id? :=
  (fields_withChildren h).2.1

/-- Refilling the slots of a node with as many children as it has stores exactly these. -/
theorem children_withChildren {n : Node} {cs : List Node} (h : cs.length = n.children.length) :
    (n.withChildren cs).children = cs :=
  (fields_withChildren h).2.2

theorem shape_mapChildren (g : Node → Node) (n : Node) : (n.mapChildren g).shape = n.shape :=
  shape_withChildren (by simp)

theorem kind_eq_of_shape {m n : Node} (h : m.shape = n.shape) : m.kind = n.kind := by
  cases m <;> cases n <;> first | rfl | simp [shape] at h

theorem kind_mapChildren (g : Node → Node) (n : Node) : (n.mapChildren g).kind = n.kind :=
  kind_eq_of_shape (n.shape_mapChildren g)

theorem id?_mapChildren (g : Node → Node) (n : Node) : (n.mapChildren g).id? = n.id? :=
  id?_withChildren (by simp)

theorem children_mapChildren (g : Node → Node) (n : Node) :
    (n.mapChildren g).children = n.children.map g :=
  children_withChildren (by simp)

theorem mapChildren_congr {g g' : Node → Node} {n : Node} (h : ∀ c ∈ n.children, g c = g' c) :
    n.mapChildren g = n.mapChildren g' := by
  rw [mapChildren, mapChildren, List.map_congr_left h]

theorem mapChildren_eq_self {g : Node → Node} {n : Node} (h : ∀ c ∈ n.children, g c = c) :
    n.mapChildren g = n := by
  rw [mapChildren, List.map_congr_left h, List.map_id', withChildren_children]

theorem cutRows_map (f : Node → Node) (rows : List (List Node)) :
    cutRows (rows.map List.length) (rows.flatten.map f) = rows.map (·.map f) := by
  have hlengths : rows.map List.length = (rows.map (·.map f)).map List.length := by simp
  rw [hlengths, List.map_flatten, cutRows_flatten]

theorem mapChildren_array (f : Node → Node) (id : String) (rows : List (List Node))
    (align : Option String) :
    (array id rows align).mapChildren f = array id (rows.map (·.map f)) align := by
  rw [mapChildren, children, withChildren, cutRows_map]

theorem mapChildren_script (f : Node → Node) (id : String) (base : Node) (sub sup : Option Node) :
    (script id base sub sup).mapChildren f = script id (f base) (sub.map f) (sup.map f) := by
  cases sub <;> cases sup <;> rfl

theorem mapChildren_root (f : Node → Node) (id : String) (body : Node) (index : Option Node) :
    (root id body index).mapChildren f = root id (f body) (index.map f) := by
  cases index <;> rfl

/-- The tree with a shape, an id and children, where the three fit together. -/
def ofShape : Shape → Option String → List Node → Option Node
  | .symbol value, some id, [] => some (symbol id value)
  | .space s, some id, [] => some (space id s)
  | .text, some id, body => some (text id body)
  | .op operator limits, some id, [] => some (op id operator limits)
  | .frac, some id, [numerator, denominator] => some (frac id numerator denominator)
  | .script false false, some id, [base] => some (script id base none none)
  | .script true false, some id, [base, sub] => some (script id base (some sub) none)
  | .script false true, some id, [base, sup] => some (script id base none (some sup))
  | .script true true, some id, [base, sub, sup] => some (script id base (some sub) (some sup))
  | .root false, some id, [body] => some (root id body none)
  | .root true, some id, [body, index] => some (root id body (some index))
  | .group, some id, body => some (group id body)
  | .array lengths align, some id, cells => some (array id (cutRows lengths cells) align)
  | .brace above, some id, [body] => some (brace id above body)
  | .color c, some id, body => some (color id c body)
  | .box border background, some id, [body] => some (box id border body background)
  | .strike, some id, [body] => some (strike id body)
  | .aligned, some id, cells => some (aligned id cells)
  | .newLine, none, [] => some newLine
  | .alignMark, none, [] => some alignMark
  | .var latex, some id, [] => some (var id latex)
  | _, _, _ => none

theorem ofShape_shape (n : Node) : ofShape n.shape n.id? n.children = some n := by
  cases n with
  | script id base sub sup => cases sub <;> cases sup <;> rfl
  | root id body index => cases index <;> rfl
  | array id rows align => simp [ofShape, shape, id?, children, cutRows_flatten]
  | _ => rfl

/-- A tree is its shape, its id and its children. -/
theorem ext_iff {m n : Node} :
    m = n ↔ m.shape = n.shape ∧ m.id? = n.id? ∧ m.children = n.children := by
  refine ⟨fun h => by simp [h], fun ⟨hs, hi, hc⟩ => Option.some.inj ?_⟩
  rw [← ofShape_shape m, ← ofShape_shape n, hs, hi, hc]

/-- Equality of two lists of trees, decided node by node. -/
def decEqForest (ms ns : List Node) : Decidable (ms = ns) :=
  match ms, ns with
  | [], [] => isTrue rfl
  | [], _ :: _ => isFalse (by simp)
  | _ :: _, [] => isFalse (by simp)
  | m :: ms, n :: ns =>
    if h : m.shape = n.shape ∧ m.id? = n.id? then
      match decEqForest m.children n.children with
      | isFalse hc => isFalse fun e => hc (by rw [(List.cons.inj e).1])
      | isTrue hc =>
        match decEqForest ms ns with
        | isFalse hr => isFalse fun e => hr (List.cons.inj e).2
        | isTrue hr => isTrue (by rw [ext_iff.2 ⟨h.1, h.2, hc⟩, hr])
    else isFalse fun e => h (by rw [(List.cons.inj e).1]; exact ⟨rfl, rfl⟩)
termination_by forestSize ms
decreasing_by
  all_goals
    have := m.size_eq
    simp only [forestSize]
    omega

instance : DecidableEq Node := fun m n =>
  match decEqForest [m] [n] with
  | isTrue h => isTrue (List.cons.inj h).1
  | isFalse h => isFalse fun e => h (by rw [e])

end Node

end FormulaDoc
