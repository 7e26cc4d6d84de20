import FormulaDoc.Escape
import FormulaDoc.Node

/-!
How one node is written: `Node.pieces` gives literal pieces and references to its children. Text,
spans and styled ranges are all read off these pieces. `Node.references_pieces` says that each child is
referred to exactly once.
-/

namespace FormulaDoc

/-- The ways to write a formula: as plain markup, with the ids of the leaves, without styles, and,
inside `\text`, as escaped characters. -/
inductive Mode where
  | ast | render | content | text
  deriving DecidableEq, Inhabited

def Mode.name : Mode → String
  | .ast => "ast"
  | .render => "render"
  | .content => "content"
  | .text => "text"

/-- A piece of the markup of one node. A child in an argument position stands inside braces that
its parent writes; a mode given with a child replaces the mode of the parent. -/
inductive Piece where
  | lit (s : String)
  | child (node : Node) (asArg : Bool) (mode : Option Mode)
  deriving Inhabited

namespace Piece

def arg (n : Node) : Piece := child n true none

def plain (n : Node) : Piece := child n false none

/-- The children that some pieces refer to. -/
def references : List Piece → List Node
  | [] => []
  | lit _ :: ps => references ps
  | child n _ _ :: ps => n :: references ps

/-- Siblings with a single blank between them. -/
def spaced (items : List Node) : List Piece :=
  (items.map plain).intersperse (lit " ")

/-- In the render mode the id travels with the rendered glyph. -/
def tagged (id : String) (mode : Mode) (s : String) : List Piece :=
  if mode = .render then [lit ("\\cssId\x7b" ++ id ++ "\x7d\x7b"), lit s, lit "\x7d"] else [lit s]

/-- An empty cell keeps its braces, so that the row stays visible. -/
def cell (n : Node) : Piece := child n (!n.isEmptyGroup) none

end Piece

/-- The column specification of an array that has none: two columns are set against each other at
their common edge, any other number is left-aligned. -/
def columnSpec (rows : List (List Node)) : String :=
  let columns := (rows.map List.length).foldl max 0
  if columns = 2 then "rl" else String.ofList (List.replicate columns 'l')

open Piece

/-- One node as literal pieces and references to its children. -/
def Node.pieces (mode : Mode) (asArg : Bool) : Node → List Piece
  | .symbol id value =>
    if mode = .text then [lit (String.ofList (escape value.toList))] else tagged id mode value
  | .space _ s => [lit s]
  | .op id operator limits => tagged id mode (operator ++ if limits then "\\limits" else "")
  | .var id latex => tagged id mode latex
  | .text _ body => lit "\\text\x7b" :: body.map (child · false (some .text)) ++ [lit "\x7d"]
  | .frac _ numerator denominator =>
    [lit "\\frac\x7b", arg numerator, lit "\x7d\x7b", arg denominator, lit "\x7d"]
  | .script _ base sub sup =>
    (if base.kind = .script then [lit "\x7b", plain base, lit "\x7d"] else [plain base]) ++
      (match sub with | some n => [lit "_\x7b", arg n, lit "\x7d"] | none => []) ++
      (match sup with | some n => [lit "^\x7b", arg n, lit "\x7d"] | none => [])
  | .root _ body index =>
    lit "\\sqrt" :: (match index with | some n => [lit "[", arg n, lit "]"] | none => []) ++
      [lit "\x7b", arg body, lit "\x7d"]
  | .group _ body => if asArg then spaced body else lit "\x7b" :: spaced body ++ [lit "\x7d"]
  | .array _ rows align =>
    lit ("\\begin\x7barray\x7d\x7b" ++ align.getD (columnSpec rows) ++ "\x7d\n") ::
      List.intercalate [lit " \\\\ "] (rows.map fun row => (row.map cell).intersperse (lit " & ")) ++
      [lit "\n\\end\x7barray\x7d"]
  | .brace _ above body =>
    if mode = .content then [child body asArg none]
    else [lit (if above then "\\overbrace\x7b" else "\\underbrace\x7b"), arg body, lit "\x7d"]
  | .color _ c body =>
    if mode = .content then spaced body
    else lit ("\\textcolor\x7b" ++ c ++ "\x7d\x7b") :: spaced body ++ [lit "\x7d"]
  | .box _ border body background =>
    if mode = .content then [child body asArg none]
    else [lit ("\\fcolorbox\x7b" ++ border ++ "\x7d\x7b" ++ background ++ "\x7d\x7b$"), arg body,
      lit "$\x7d"]
  | .strike _ body =>
    if mode = .content then [child body asArg none] else [lit "\\cancel\x7b", arg body, lit "\x7d"]
  | .aligned _ cells => lit "\\begin\x7baligned\x7d" :: spaced cells ++ [lit "\\end\x7baligned\x7d"]
  | .newLine => [lit "\\\\"]
  | .alignMark => [lit "&"]

namespace Piece

theorem references_append (ps qs : List Piece) :
    references (ps ++ qs) = references ps ++ references qs := by
  induction ps with
  | nil => rfl
  | cons p ps ih => cases p <;> simp [references, ih]

theorem references_map {f : Node → Piece} (hf : ∀ n ps, references (f n :: ps) = n :: references ps)
    (items : List Node) : references (items.map f) = items := by
  induction items with
  | nil => rfl
  | cons n ns ih => rw [List.map_cons, hf, ih]

theorem references_intersperse {f : Node → Piece}
    (hf : ∀ n ps, references (f n :: ps) = n :: references ps) (sep : String) (items : List Node) :
    references ((items.map f).intersperse (lit sep)) = items := by
  induction items with
  | nil => rfl
  | cons n ns ih =>
    cases ns with
    | nil => exact hf n []
    | cons m ms =>
      rw [List.map_cons, List.map_cons, List.intersperse_cons_cons, hf, references, ← List.map_cons,
        ih]

theorem references_intercalate (sep : String) (rows : List (List Piece)) :
    references (List.intercalate [lit sep] rows) = (rows.map references).flatten := by
  induction rows with
  | nil => rfl
  | cons row rows ih =>
    cases rows with
    | nil => simp [List.intercalate]
    | cons next rows =>
      rw [List.intercalate, List.intersperse_cons_cons, List.flatten_cons, List.flatten_cons,
        references_append, List.singleton_append, references, ← List.intercalate, ih,
        List.map_cons (l := next :: rows), List.flatten_cons]

theorem references_spaced (items : List Node) : references (spaced items) = items :=
  references_intersperse (fun _ _ => rfl) " " items

theorem references_rows (sep : String) (rows : List (List Node)) :
    references (List.intercalate [lit sep] (rows.map fun row => (row.map cell).intersperse (lit " & ")))
      = rows.flatten := by
  rw [references_intercalate, List.map_map]
  congr 1
  exact (List.map_congr_left fun row _ => references_intersperse (fun _ _ => rfl) " & " row).trans
    (List.map_id' rows)

theorem mem_references {c : Node} {a : Bool} {m : Option Mode} {ps : List Piece}
    (h : child c a m ∈ ps) : c ∈ references ps := by
  induction ps with
  | nil => simp at h
  | cons p ps ih =>
    rcases List.mem_cons.mp h with rfl | tail
    · exact List.mem_cons_self
    · cases p with
      | lit => exact ih tail
      | child => exact List.mem_cons_of_mem _ (ih tail)

end Piece

/-- Markup refers to the children in document order, but for the index of a root. -/
theorem Node.references_eq {n : Node} (h : ∀ id body index, n ≠ .root id body (some index)) (mode : Mode)
    (asArg : Bool) : references (n.pieces mode asArg) = n.children := by
  cases n with
  | symbol => simp only [pieces, tagged]; split <;> (try split) <;> rfl
  | op | var => simp only [pieces, tagged]; split <;> rfl
  | text id body =>
    rw [pieces, List.cons_append, references, references_append, references_map fun _ _ => rfl]
    simp [references, children]
  | group id body =>
    simp only [pieces]; split <;> simp [references, references_append, references_spaced, children]
  | color id c body =>
    simp only [pieces]; split <;> simp [references, references_append, references_spaced, children]
  | aligned id cells => simp [pieces, references, references_append, references_spaced, children]
  | array id rows align => simp [pieces, references, references_append, references_rows, children]
  | script id base sub sup =>
    simp only [pieces, references_append]
    split <;> cases sub <;> cases sup <;> rfl
  | root id body index =>
    cases index with
    | none => rfl
    | some index => exact absurd rfl (h id body index)
  | brace | box | strike => simp only [pieces]; split <;> rfl
  | _ => rfl

/-- Markup refers to every child exactly once, and in document order but for the index of a root,
which is written before the body. -/
theorem Node.references_pieces (n : Node) (mode : Mode) (asArg : Bool) :
    (references (n.pieces mode asArg)).Perm n.children := by
  by_cases h : ∃ id body index, n = .root id body (some index)
  · obtain ⟨id, body, index, rfl⟩ := h
    exact .swap body index []
  · simp only [not_exists] at h
    exact .of_eq (references_eq h mode asArg)

theorem Node.mem_children_of_piece {n c : Node} {mode : Mode} {asArg a : Bool} {m : Option Mode}
    (h : Piece.child c a m ∈ n.pieces mode asArg) : c ∈ n.children :=
  (n.references_pieces mode asArg).mem_iff.1 (mem_references h)

end FormulaDoc
