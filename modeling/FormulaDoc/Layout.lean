import FormulaDoc.Piece

/-!
The pieces of a node expanded down to the leaves. A layout remembers, at every node, the mode and the
position it is written in; its text is the markup, and the offsets at which a node begins and ends in
that text are its span. Offsets count characters.

The same markup is joined from the pieces without a layout (`Node.emit`), and the same spans are found on a
walk over the pieces (`Node.trace`).
-/

namespace FormulaDoc

inductive Layout where
  | lit (s : String)
  | node (node : Node) (mode : Mode) (asArg : Bool) (inner : List Layout)
  deriving Inhabited

/-- A node written out in a mode, in an argument position or not. -/
def Node.layout (n : Node) (mode : Mode) (asArg : Bool) : Layout :=
  .node n mode asArg ((n.pieces mode asArg).attach.map fun
    | ⟨.lit s, _⟩ => .lit s
    | ⟨.child c a m, _⟩ => c.layout (m.getD mode) a)
termination_by n.size
decreasing_by exact Node.size_lt_of_mem (Node.mem_children_of_piece ‹_›)

/-- A piece written out; the enclosing mode holds unless the piece brings its own. -/
def Piece.layout (mode : Mode) : Piece → Layout
  | .lit s => .lit s
  | .child c asArg m => c.layout (m.getD mode) asArg

theorem Node.layout_eq (n : Node) (mode : Mode) (asArg : Bool) :
    n.layout mode asArg = .node n mode asArg ((n.pieces mode asArg).map (Piece.layout mode)) := by
  rw [Node.layout, ← List.attach_map_val (f := Piece.layout mode)]
  congr 2
  funext ⟨p, h⟩
  cases p <;> rfl

mutual

def Layout.text : Layout → String
  | .lit s => s
  | .node _ _ _ inner => Layout.textAll inner

def Layout.textAll : List Layout → String
  | [] => ""
  | l :: ls => l.text ++ textAll ls

end

/-- The half-open interval from `start` to `stop`. -/
structure Span where
  start : Nat
  stop : Nat
  deriving DecidableEq

def Span.length (s : Span) : Nat := s.stop - s.start

mutual

/-- The ids of a layout that begins at an offset, each with its span. -/
def Layout.spans (start : Nat) : Layout → List (String × Span)
  | .lit _ => []
  | .node n _ _ inner =>
    spansAll start inner ++
      (n.id?.map fun id => (id, ⟨start, start + (textAll inner).length⟩)).toList

def Layout.spansAll (start : Nat) : List Layout → List (String × Span)
  | [] => []
  | l :: ls => l.spans start ++ spansAll (start + l.text.length) ls

end

def Node.latex (n : Node) (mode : Mode) (asArg : Bool) : String :=
  (n.layout mode asArg).text

/-- Top-level nodes with a blank between them. -/
def layoutSequence (mode : Mode) (ns : List Node) : List Layout :=
  (ns.map (·.layout mode false)).intersperse (.lit " ")

/-- The markup of a node joined from that of its pieces. -/
def Node.emit (n : Node) (mode : Mode) (asArg : Bool) : String :=
  String.join ((n.pieces mode asArg).attach.map fun
    | ⟨.lit s, _⟩ => s
    | ⟨.child c a m, _⟩ => c.emit (m.getD mode) a)
termination_by n.size
decreasing_by exact Node.size_lt_of_mem (Node.mem_children_of_piece ‹_›)

def Piece.emit (mode : Mode) : Piece → String
  | .lit s => s
  | .child c asArg m => c.emit (m.getD mode) asArg

theorem Node.emit_eq (n : Node) (mode : Mode) (asArg : Bool) :
    n.emit mode asArg = String.join ((n.pieces mode asArg).map (Piece.emit mode)) := by
  rw [Node.emit, ← List.attach_map_val (f := Piece.emit mode)]
  congr 2
  funext ⟨p, h⟩
  cases p <;> rfl

def emitSequence (mode : Mode) (ns : List Node) : String :=
  String.intercalate " " (ns.map (·.emit mode false))

/-- The spans that a walk over markup has found, and the offset that it has come to. -/
structure Trail where
  spans : List (String × Span)
  offset : Nat

/-- The trail behind a node that begins at an offset. -/
def Trail.close (t : Trail) (id? : Option String) (start : Nat) : Trail :=
  { t with spans := t.spans ++ (id?.map fun id => (id, ⟨start, t.offset⟩)).toList }

/-- A walk over the pieces of a node. Its own span is found behind them. -/
def Node.trace (n : Node) (mode : Mode) (asArg : Bool) (t : Trail) : Trail :=
  ((n.pieces mode asArg).attach.foldl (fun t p => match p with
    | ⟨.lit s, _⟩ => { t with offset := t.offset + s.length }
    | ⟨.child c a m, _⟩ => c.trace (m.getD mode) a t) t).close n.id? t.offset
termination_by n.size
decreasing_by exact Node.size_lt_of_mem (Node.mem_children_of_piece ‹_›)

def Piece.trace (mode : Mode) (t : Trail) : Piece → Trail
  | .lit s => { t with offset := t.offset + s.length }
  | .child c asArg m => c.trace (m.getD mode) asArg t

theorem Node.trace_eq (n : Node) (mode : Mode) (asArg : Bool) (t : Trail) :
    n.trace mode asArg t = ((n.pieces mode asArg).foldl (Piece.trace mode) t).close n.id? t.offset := by
  have hstep : (fun (t : Trail) (p : { p // p ∈ n.pieces mode asArg }) => match p with
      | ⟨.lit s, _⟩ => { t with offset := t.offset + s.length }
      | ⟨.child c a m, _⟩ => c.trace (m.getD mode) a t) = fun t p => Piece.trace mode t p.1 := by
    funext t ⟨p, h⟩
    cases p <;> rfl
  rw [Node.trace, hstep, List.foldl_attach]

/-- A walk over siblings with a blank between them. -/
def traceSequence (mode : Mode) (ns : List Node) : Trail :=
  ns.zipIdx.foldl (fun t (n, i) =>
    n.trace mode false { t with offset := if i = 0 then t.offset else t.offset + 1 }) ⟨[], 0⟩

end FormulaDoc
