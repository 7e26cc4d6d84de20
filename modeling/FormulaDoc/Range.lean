import FormulaDoc.Formula

/-!
Styled ranges: the markup of a formula as a forest in which every style carrier is a range of its own
and everything else is plain text. Adjacent plain ranges are merged, at every depth.
-/

namespace FormulaDoc

/-- How an editor may present a range. -/
structure Hints where
  color : Option String
  tooltip : Option String
  deriving DecidableEq

inductive Range where
  | plain (text : String)
  | styled (id left : String) (children : List Range) (right : String) (hints : Option Hints)
  deriving Inhabited

namespace Range

mutual

def text : Range → String
  | plain s => s
  | styled _ left children right _ => left ++ textAll children ++ right

def textAll : List Range → String
  | [] => ""
  | r :: rs => r.text ++ textAll rs

end

mutual

/-- The number of characters of a range, from those of its pieces. -/
def length : Range → Nat
  | plain s => s.length
  | styled _ left children right _ => left.length + lengthAll children + right.length

def lengthAll : List Range → Nat
  | [] => 0
  | r :: rs => r.length + lengthAll rs

end

def isStyled : Range → Bool
  | plain _ => false
  | styled .. => true

def id? : Range → Option String
  | plain _ => none
  | styled id .. => some id

/-- A plain text in front of a forest; an empty one is dropped, any other is merged with plain text
that comes next. -/
def prepend (s : String) (rs : List Range) : List Range :=
  if s = "" then rs
  else match rs with
    | plain t :: rest => plain (s ++ t) :: rest
    | rs => plain s :: rs

mutual

def combineOne : Range → Range
  | plain s => plain s
  | styled id left children right hints => styled id left (combine children) right hints

/-- The forest without empty plain ranges and with adjacent plain ranges merged, at every depth. -/
def combine : List Range → List Range
  | [] => []
  | r :: rs =>
    match combineOne r with
    | plain s => prepend s (combine rs)
    | r => r :: combine rs

end

mutual

def decEqOne : (a b : Range) → Decidable (a = b)
  | plain s, plain t => decidable_of_iff (s = t) (by simp)
  | plain _, styled .. => isFalse (by simp)
  | styled .., plain _ => isFalse (by simp)
  | styled i l cs r h, styled i' l' cs' r' h' =>
    match decEqAll cs cs' with
    | isTrue e => decidable_of_iff (i = i' ∧ l = l' ∧ r = r' ∧ h = h') (by simp [e])
    | isFalse e => isFalse (by simp [e])

def decEqAll : (as bs : List Range) → Decidable (as = bs)
  | [], [] => isTrue rfl
  | [], _ :: _ => isFalse (by simp)
  | _ :: _, [] => isFalse (by simp)
  | a :: as, b :: bs =>
    match decEqOne a b with
    | isFalse e => isFalse (by simp [e])
    | isTrue e =>
      match decEqAll as bs with
      | isFalse e' => isFalse (by simp [e'])
      | isTrue e' => isTrue (by rw [e, e'])

end

instance : DecidableEq Range := decEqOne

end Range

/-- The color that marks a variable. -/
def variableColor : String := "#2563eb"

def Node.hints? : Node → Option Hints
  | .color _ c _ => some ⟨some c, some ("Color: " ++ c)⟩
  | .box _ border _ _ => some ⟨some border, some ("Box: " ++ border)⟩
  | .var _ latex => some ⟨some variableColor, some ("Variable: " ++ latex)⟩
  | _ => none

/-- A piece of a style carrier with the ranges that cover it. -/
structure Covered where
  piece : Piece
  ranges : List Range

def Covered.isLit (c : Covered) : Bool :=
  match c.piece with
  | .lit _ => true
  | .child .. => false

/-- The range of a style carrier: its sides are the literal pieces before its first and after its last
child. A carrier without children holds all its text inside. -/
def Range.ofCarrier (id : String) (hints : Option Hints) (pieces : List Covered) : Range :=
  let cover (cs : List Covered) := textAll (cs.flatMap Covered.ranges)
  match pieces.dropWhile Covered.isLit with
  | [] => styled id "" [plain (cover pieces)] "" hints
  | inner =>
    let right := inner.reverse.takeWhile Covered.isLit
    styled id (cover (pieces.takeWhile Covered.isLit))
      ((inner.take (inner.length - right.length)).flatMap Covered.ranges) (cover right.reverse) hints

/-- The ranges of a node whose pieces are covered by the given ones: a range of its own for a style
carrier, one plain range where no style carrier is inside. -/
def Node.joinRanges (n : Node) (asArg : Bool) (pieces : List Covered) : List Range :=
  if n.isCarrier then [.ofCarrier (n.id?.getD "") n.hints? pieces]
  else
    let below := pieces.flatMap Covered.ranges
    if below.any Range.isStyled then below else [.plain (n.latex .ast asArg)]

/-- The ranges that cover the markup of a node, not merged. -/
def Node.ranges (n : Node) (asArg : Bool) : List Range :=
  n.joinRanges asArg ((n.pieces .ast asArg).attach.map fun
    | ⟨.lit s, _⟩ => ⟨.lit s, [.plain s]⟩
    | ⟨.child c a m, _⟩ => ⟨.child c a m, c.ranges a⟩)
termination_by n.size
decreasing_by exact Node.size_lt_of_mem (Node.mem_children_of_piece ‹_›)

/-- A piece with the ranges that cover it; a mode that it brings along has no effect on them. -/
def Piece.covered : Piece → Covered
  | .lit s => ⟨.lit s, [.plain s]⟩
  | .child c a m => ⟨.child c a m, c.ranges a⟩

theorem Node.ranges_eq (n : Node) (asArg : Bool) :
    n.ranges asArg = n.joinRanges asArg ((n.pieces .ast asArg).map Piece.covered) := by
  rw [Node.ranges, ← List.attach_map_val (f := Piece.covered)]
  congr 2
  funext ⟨p, h⟩
  cases p <;> rfl

/-- The range forest of a formula. -/
def Formula.ranges (f : Formula) : List Range :=
  Range.combine (List.intercalate [.plain " "] (f.children.map (·.ranges false)))

end FormulaDoc
