import FormulaDoc.Formula
import FormulaDoc.Reader
import Mathlib.Data.List.Basic

namespace FormulaDoc

def Node.markup (n : Node) (mode : Mode) (asArg : Bool) : List Char :=
  (n.latex mode asArg).toList

def Piece.markup (mode : Mode) : Piece → List Char
  | .lit s => s.toList
  | .child n asArg m => n.markup (m.getD mode) asArg

theorem Layout.toList_textAll (ls : List Layout) :
    (textAll ls).toList = ls.flatMap fun l => l.text.toList := by
  induction ls with
  | nil => rfl
  | cons l ls ih => simp [textAll, ih]

theorem Node.latex_eq (n : Node) (mode : Mode) (asArg : Bool) :
    n.latex mode asArg = Layout.textAll ((n.pieces mode asArg).map (Piece.layout mode)) := by
  rw [latex, layout_eq, Layout.text]

theorem Node.markup_eq (n : Node) (mode : Mode) (asArg : Bool) :
    n.markup mode asArg = (n.pieces mode asArg).flatMap (Piece.markup mode) := by
  rw [markup, latex_eq, Layout.toList_textAll, List.flatMap_map]
  refine List.flatMap_congr fun p _ => ?_
  cases p <;> rfl

/-- The plain markup of a node that is no argument. -/
def Node.ast (n : Node) : List Char :=
  n.markup .ast false

/-- Siblings that follow another one. -/
def following (ns : List Node) : List Char :=
  ns.flatMap fun n => ' ' :: n.ast

/-- Siblings with a blank between them. -/
def joined : List Node → List Char
  | [] => []
  | n :: ns => n.ast ++ following ns

@[simp]
theorem joined_singleton (n : Node) : joined [n] = n.ast := by
  simp [joined, following]

theorem following_cons (n : Node) (ns : List Node) :
    following (n :: ns) = ' ' :: joined (n :: ns) := by
  simp [following, joined]

theorem following_append (a b : List Node) : following (a ++ b) = following a ++ following b := by
  simp [following]

theorem following_append_cons (a : List Node) (m : Node) (ns : List Node) (w : List Char) :
    following (a ++ m :: ns) ++ w = following a ++ ' ' :: (m.ast ++ (following ns ++ w)) := by
  simp [following_append, following_cons, joined]

theorem following_eq {ns : List Node} (h : ns ≠ []) : following ns = ' ' :: joined ns := by
  cases ns with
  | nil => exact absurd rfl h
  | cons n ns => exact following_cons n ns

theorem length_following (ns : List Node) : ns.length ≤ (following ns).length := by
  induction ns with
  | nil => exact Nat.le_refl _
  | cons n ns ih =>
    simp only [following, List.flatMap_cons, List.length_append, List.length_cons] at ih ⊢
    omega

theorem following_congr {f : Node → Node} {ns : List Node} (h : ∀ n ∈ ns, (f n).ast = n.ast) :
    following (ns.map f) = following ns := by
  rw [following, following, List.flatMap_map]
  exact List.flatMap_congr fun n hn => by rw [h n hn]

theorem joined_congr {f : Node → Node} {ns : List Node} (h : ∀ n ∈ ns, (f n).ast = n.ast) :
    joined (ns.map f) = joined ns := by
  cases ns with
  | nil => rfl
  | cons n ns =>
    rw [List.map_cons, joined, joined, h n List.mem_cons_self,
      following_congr fun m hm => h m (List.mem_cons_of_mem _ hm)]

theorem joined_append {a b : List Node} (ha : a ≠ []) (hb : b ≠ []) :
    joined (a ++ b) = joined a ++ ' ' :: joined b := by
  cases a with
  | nil => exact absurd rfl ha
  | cons n ns => rw [List.cons_append, joined, joined, following_append, following_eq hb,
      List.append_assoc]

theorem flatMap_spaced (ns : List Node) :
    (Piece.spaced ns).flatMap (Piece.markup .ast) = joined ns := by
  induction ns with
  | nil => rfl
  | cons n ns ih =>
    cases ns with
    | nil => simp [Piece.spaced, Piece.plain, Piece.markup, joined, following, Node.ast]
    | cons m ns =>
      simp only [Piece.spaced, List.map_cons, List.intersperse_cons_cons, List.flatMap_cons] at ih ⊢
      rw [ih]
      simp [Piece.plain, Piece.markup, Node.ast, joined, following]

/-- What a node writes in an argument slot that ends at a stop. In a cell an empty group keeps its
braces. -/
def contents (stop : Stop) : Node → List Node
  | .group id [] => if stop = .cell then [.group id []] else []
  | .group _ body => body
  | n => [n]

theorem Node.eq_group_or_kind_ne (n : Node) : (∃ id body, n = .group id body) ∨ n.kind ≠ .group := by
  cases n with
  | group id body => exact .inl ⟨id, body, rfl⟩
  | _ => exact .inr (by simp [kind])

theorem contents_group {stop : Stop} (h : stop ≠ .cell) (id : String) (body : List Node) :
    contents stop (.group id body) = body := by
  cases body with
  | nil => simp [contents, h]
  | cons n ns => rfl

theorem contents_eq_singleton {stop : Stop} {n : Node} (h : n.kind ≠ .group) :
    contents stop n = [n] := by
  cases n <;> first | rfl | exact absurd rfl h

theorem contents_cell_ne_nil (n : Node) : contents .cell n ≠ [] := by
  cases n with
  | group id body => cases body <;> simp [contents]
  | _ => simp [contents]

theorem Node.pieces_arg {n : Node} (h : n.kind ≠ .group) :
    n.pieces .ast true = n.pieces .ast false := by
  cases n <;> first | rfl | exact absurd rfl h

theorem brace_ne_cell : Stop.brace ≠ .cell := by decide

theorem bracket_ne_cell : Stop.bracket ≠ .cell := by decide

theorem dollar_ne_cell : Stop.dollar ≠ .cell := by decide

theorem Node.markup_arg (n : Node) {stop : Stop} (h : stop ≠ .cell) :
    n.markup .ast true = joined (contents stop n) := by
  rcases n.eq_group_or_kind_ne with ⟨id, body, rfl⟩ | hk
  · rw [contents_group h, markup_eq, pieces, if_pos rfl, flatMap_spaced]
  · rw [contents_eq_singleton hk, markup_eq, pieces_arg hk, ← markup_eq, joined, following]
    simp [ast]

theorem Piece.markup_cell (n : Node) :
    (Piece.cell n).markup .ast = joined (contents .cell n) := by
  rcases n.eq_group_or_kind_ne with ⟨id, body, rfl⟩ | hk
  · cases body with
    | nil => simp [Piece.cell, Piece.markup, Node.isEmptyGroup, contents, joined, following, Node.ast]
    | cons m ns =>
      rw [show contents .cell (.group id (m :: ns)) = contents .brace (.group id (m :: ns)) from rfl,
        ← Node.markup_arg _ (by decide)]
      rfl
  · have hcell : n.isEmptyGroup = false := by
      cases n <;> first | rfl | exact absurd rfl hk
    rw [contents_eq_singleton hk, ← @contents_eq_singleton .brace _ hk,
      ← Node.markup_arg _ (by decide)]
    simp [Piece.cell, Piece.markup, hcell]

/-- The cells of an array and what separates them, as one run of siblings. -/
def stream (rows : List (List Node)) : List Node :=
  [Node.newLine].intercalate (rows.map fun row => [Node.alignMark].intercalate (row.map (contents .cell)))

theorem joined_intercalate {sep : Node} {parts : List (List Node)} (h : ∀ p ∈ parts, p ≠ []) :
    joined ([sep].intercalate parts) =
      (' ' :: (sep.ast ++ [' '])).intercalate (parts.map joined) := by
  induction parts with
  | nil => rfl
  | cons p parts ih =>
    cases parts with
    | nil => simp
    | cons q parts =>
      have hp : p ≠ [] := h p (by simp)
      have hrest : [sep].intercalate (q :: parts) ≠ [] := by
        have hq : q ≠ [] := h q (by simp)
        cases parts with
        | nil => simpa using hq
        | cons r parts => simp [hq]
      rw [List.intercalate_cons_cons, List.append_assoc, joined_append hp (by simp),
        joined_append (by simp) hrest, ih fun p hp => h p (by simp [hp])]
      simp [joined, following]

theorem flatMap_intercalate {α β : Type} (f : α → List β) (sep : List α) (parts : List (List α)) :
    (sep.intercalate parts).flatMap f = (sep.flatMap f).intercalate (parts.map (·.flatMap f)) := by
  induction parts with
  | nil => rfl
  | cons p parts ih =>
    cases parts with
    | nil => simp
    | cons q parts =>
      rw [List.intercalate_cons_cons, List.flatMap_append, List.flatMap_append, ih]
      simp

theorem stream_row_ne_nil {row : List Node} (h : row ≠ []) :
    [Node.alignMark].intercalate (row.map (contents .cell)) ≠ [] := by
  rcases row with _ | ⟨n, _ | ⟨m, row⟩⟩
  · exact absurd rfl h
  · simpa using contents_cell_ne_nil n
  · simp

theorem stream_ne_nil {rows : List (List Node)} (h : rows ≠ []) (hrows : ∀ row ∈ rows, row ≠ []) :
    stream rows ≠ [] := by
  rcases rows with _ | ⟨row, _ | ⟨row', rows⟩⟩
  · exact absurd rfl h
  · simpa [stream] using stream_row_ne_nil (hrows row (by simp))
  · simp [stream]

theorem map_intersperse {α β : Type} (f : α → β) (sep : α) (l : List α) :
    (l.intersperse sep).map f = (l.map f).intersperse (f sep) := by
  induction l with
  | nil => rfl
  | cons x l ih =>
    cases l with
    | nil => rfl
    | cons y l =>
      simp only [List.intersperse_cons_cons, List.map_cons] at ih ⊢
      rw [ih]

theorem intersperse_eq_intercalate {α : Type} (sep : α) (l : List α) :
    l.intersperse sep = [sep].intercalate (l.map fun x => [x]) := by
  rw [List.intercalate, ← map_intersperse fun x => [x], ← List.flatMap_def, List.flatMap_singleton']

/-- The rows of an array are written as its stream. -/
theorem flatMap_rows {rows : List (List Node)} (h : ∀ row ∈ rows, row ≠ []) :
    (List.intercalate [Piece.lit " \\\\ "]
      (rows.map fun row => (row.map Piece.cell).intersperse (.lit " & "))).flatMap (Piece.markup .ast) =
      joined (stream rows) := by
  have hline : Node.newLine.ast = ['\\', '\\'] := by simp [Node.ast, Node.markup_eq, Node.pieces, Piece.markup]
  have hmark : Node.alignMark.ast = ['&'] := by simp [Node.ast, Node.markup_eq, Node.pieces, Piece.markup]
  rw [flatMap_intercalate, stream, joined_intercalate, List.map_map, List.map_map, hline]
  · congr 1
    refine List.map_congr_left fun row hrow => ?_
    have hcells : ∀ p ∈ row.map (contents .cell), p ≠ [] := by
      intro p hp
      obtain ⟨n, -, rfl⟩ := List.mem_map.mp hp
      exact contents_cell_ne_nil n
    simp only [Function.comp_apply]
    rw [intersperse_eq_intercalate, flatMap_intercalate, List.map_map, joined_intercalate hcells, hmark,
      List.map_map, List.map_map]
    congr 1
    refine List.map_congr_left fun n _ => ?_
    simp [Piece.markup_cell]
  · intro p hp
    obtain ⟨row, hrow, rfl⟩ := List.mem_map.mp hp
    exact stream_row_ne_nil (h row hrow)

theorem Formula.layout_eq (f : Formula) (mode : Mode) :
    f.layout mode = (Piece.spaced f.children).map (Piece.layout mode) := by
  rw [layout, layoutSequence, Piece.spaced, map_intersperse, List.map_map]
  rfl

theorem toList_latex (f : Formula) : (f.latex .ast).toList = joined f.children := by
  rw [Formula.latex, f.layout_eq, Layout.toList_textAll, List.flatMap_map, ← flatMap_spaced]
  refine List.flatMap_congr fun p _ => ?_
  cases p <;> rfl

theorem mem_of_mem_intersperse {α : Type} {a sep : α} {l : List α} (h : a ∈ l.intersperse sep) :
    a = sep ∨ a ∈ l := by
  induction l with
  | nil => simp at h
  | cons x l ih =>
    cases l with
    | nil => exact .inr (by simpa using h)
    | cons y l =>
      rw [List.intersperse_cons_cons, List.mem_cons, List.mem_cons] at h
      rcases h with h | h | h
      · exact .inr (by simp [h])
      · exact .inl h
      · exact (ih h).imp_right (List.mem_cons_of_mem _)

theorem mem_intersperse_of_mem {α : Type} {x : α} {xs : List α} (sep : α) (h : x ∈ xs) :
    x ∈ xs.intersperse sep := by
  induction xs with
  | nil => cases h
  | cons y ys ih =>
    cases ys with
    | nil => exact h
    | cons z ys =>
      rw [List.intersperse_cons_cons]
      rcases List.mem_cons.mp h with rfl | h
      · exact List.mem_cons_self
      · exact List.mem_cons_of_mem _ (List.mem_cons_of_mem _ (ih h))

theorem mem_intercalate {α : Type} {a sep : α} {parts : List (List α)}
    (h : a ∈ [sep].intercalate parts) : a = sep ∨ ∃ p ∈ parts, a ∈ p := by
  induction parts with
  | nil => simp at h
  | cons p parts ih =>
    cases parts with
    | nil => exact .inr ⟨p, by simp, by simpa using h⟩
    | cons q parts =>
      rw [List.intercalate_cons_cons, List.append_assoc, List.mem_append, List.mem_append,
        List.mem_singleton] at h
      rcases h with h | h | h
      · exact .inr ⟨p, by simp, h⟩
      · exact .inl h
      · rcases ih h with h | ⟨r, hr, h⟩
        · exact .inl h
        · exact .inr ⟨r, List.mem_cons_of_mem _ hr, h⟩

theorem Node.exists_piece {c n : Node} (h : c ∈ n.children) (mode : Mode) (asArg : Bool) :
    ∃ a m, Piece.child c a m ∈ n.pieces mode asArg := by
  have hmem := (n.references_pieces mode asArg).mem_iff.mpr h
  generalize n.pieces mode asArg = ps at hmem
  induction ps with
  | nil => cases hmem
  | cons p ps ih =>
    cases p with
    | lit s =>
      obtain ⟨a, m, hp⟩ := ih hmem
      exact ⟨a, m, List.mem_cons_of_mem _ hp⟩
    | child d a m =>
      rcases List.mem_cons.mp hmem with rfl | hmem
      · exact ⟨a, m, List.mem_cons_self⟩
      · obtain ⟨a', m', hp⟩ := ih hmem
        exact ⟨a', m', List.mem_cons_of_mem _ hp⟩

/-- The mode that a piece brings along. -/
def Piece.ownMode : Piece → Option Mode
  | .lit _ => none
  | .child _ _ m => m

theorem Piece.ownMode_of_mem_spaced {p : Piece} {ns : List Node} (h : p ∈ spaced ns) :
    p.ownMode = none := by
  rcases mem_of_mem_intersperse h with rfl | h
  · rfl
  · obtain ⟨n, -, rfl⟩ := List.mem_map.mp h
    rfl

theorem Piece.ownMode_of_mem_wrapped {p : Piece} {left right : String} {ps : List Piece}
    (hps : ∀ q ∈ ps, q.ownMode = none) (h : p ∈ lit left :: ps ++ [lit right]) : p.ownMode = none := by
  simp only [List.cons_append, List.mem_cons, List.mem_append, List.not_mem_nil, or_false] at h
  rcases h with rfl | h | rfl
  · rfl
  · exact hps p h
  · rfl

theorem Piece.ownMode_of_mem_script {p : Piece} {mark : String} {script : Option Node}
    (h : p ∈ match script with | some n => [lit mark, arg n, lit "\x7d"] | none => []) :
    p.ownMode = none := by
  cases script with
  | none => cases h
  | some n =>
    simp only [List.mem_cons, List.not_mem_nil, or_false] at h
    rcases h with rfl | rfl | rfl <;> rfl

/-- Only a text has its children written in a mode of their own. -/
theorem Node.ownMode_of_mem_pieces {n : Node} {mode : Mode} {asArg : Bool} {p : Piece}
    (h : p ∈ n.pieces mode asArg) : p.ownMode = none ∨ p.ownMode = some .text ∧ n.kind = .text := by
  by_cases hk : n.kind = .text
  · cases n with
    | text id body =>
      simp only [pieces, List.cons_append, List.mem_cons, List.mem_append, List.mem_map,
        List.not_mem_nil, or_false] at h
      rcases h with rfl | ⟨c, -, rfl⟩ | rfl
      · exact .inl rfl
      · exact .inr ⟨rfl, rfl⟩
      · exact .inl rfl
    | _ => cases hk
  left
  cases n with
  | text => exact absurd rfl hk
  | group id body =>
    simp only [pieces] at h
    split at h
    next => exact Piece.ownMode_of_mem_spaced h
    next => exact Piece.ownMode_of_mem_wrapped (fun _ => Piece.ownMode_of_mem_spaced) h
  | color id c body =>
    simp only [pieces] at h
    split at h
    next => exact Piece.ownMode_of_mem_spaced h
    next => exact Piece.ownMode_of_mem_wrapped (fun _ => Piece.ownMode_of_mem_spaced) h
  | aligned id cells =>
    exact Piece.ownMode_of_mem_wrapped (fun _ => Piece.ownMode_of_mem_spaced) h
  | array id rows align =>
    refine Piece.ownMode_of_mem_wrapped (fun q hq => ?_) h
    rcases mem_intercalate hq with rfl | ⟨row, hrow, hq⟩
    · rfl
    · obtain ⟨r, -, rfl⟩ := List.mem_map.mp hrow
      rcases mem_of_mem_intersperse hq with rfl | hq
      · rfl
      · obtain ⟨c, -, rfl⟩ := List.mem_map.mp hq
        rfl
  | script id base sub sup =>
    simp only [pieces, List.mem_append] at h
    rcases h with (h | h) | h
    · split at h <;> simp only [List.mem_cons, List.not_mem_nil, or_false] at h
      next => rcases h with rfl | rfl | rfl <;> rfl
      next => subst h; rfl
    · exact Piece.ownMode_of_mem_script h
    · exact Piece.ownMode_of_mem_script h
  | root id body index =>
    cases index <;>
      simp only [pieces, List.cons_append, List.nil_append, List.mem_cons, List.not_mem_nil,
        or_false] at h
    next => rcases h with rfl | rfl | rfl | rfl <;> rfl
    next => rcases h with rfl | rfl | rfl | rfl | rfl | rfl | rfl <;> rfl
  | _ =>
    simp only [pieces, Piece.tagged] at h
    repeat' split at h
    all_goals
      simp only [List.mem_cons, List.not_mem_nil, or_false] at h
      repeat' obtain rfl | h := h
      all_goals rfl

namespace Node

theorem ast_symbol (id value : String) : (symbol id value).ast = value.toList := by
  simp [ast, markup_eq, pieces, Piece.tagged, Piece.markup]

theorem ast_space (id s : String) : (space id s).ast = s.toList := by
  simp [ast, markup_eq, pieces, Piece.markup]

theorem ast_op (id operator : String) (limits : Bool) :
    (op id operator limits).ast = operator.toList ++ (if limits then "\\limits" else "").toList := by
  simp [ast, markup_eq, pieces, Piece.tagged, Piece.markup]

theorem ast_text (id : String) (body : List Node) :
    (text id body).ast =
      "\\text".toList ++ '{' :: (body.flatMap (·.markup .text false) ++ ['}']) := by
  simp only [ast, markup_eq (text id body), pieces, Piece.markup, List.flatMap_cons, List.flatMap_append,
    List.flatMap_map]
  rfl

theorem ast_frac (id : String) (numerator denominator : Node) :
    (frac id numerator denominator).ast = "\\frac".toList ++
      '{' :: (joined (contents .brace numerator) ++
      '}' :: '{' :: (joined (contents .brace denominator) ++ ['}'])) := by
  simp only [ast, markup_eq (frac id _ _), pieces, Piece.arg, Piece.markup, Option.getD_none,
    List.flatMap_cons, markup_arg _ brace_ne_cell]
  rfl

/-- The braces around a base that is a script itself. -/
def braced (base : Node) : Node :=
  if base.kind = .script then .group "" [base] else base

theorem ast_group (id : String) (body : List Node) :
    (group id body).ast = '{' :: (joined body ++ ['}']) := by
  simp [ast, markup_eq (group id _), pieces, Piece.markup, flatMap_spaced]

def scriptMarkup (mark : Char) (script : Option Node) : List Char :=
  match script with
  | some n => mark :: '{' :: (joined (contents .brace n) ++ ['}'])
  | none => []

/-- What a script writes behind its base begins with the mark of one of its slots. -/
theorem scripts_eq_cons {sub sup : Option Node} (h : sub.isSome || sup.isSome) :
    ∃ c t, (c = '_' ∨ c = '^') ∧ scriptMarkup '_' sub ++ scriptMarkup '^' sup = c :: t := by
  cases sub with
  | some s => exact ⟨'_', _, .inl rfl, rfl⟩
  | none =>
    cases sup with
    | some p => exact ⟨'^', _, .inr rfl, rfl⟩
    | none => simp at h

theorem ast_script (id : String) (base : Node) (sub sup : Option Node) :
    (script id base sub sup).ast =
      base.braced.ast ++ scriptMarkup '_' sub ++ scriptMarkup '^' sup := by
  have hbase : (if base.kind = .script then [Piece.lit "\x7b", Piece.plain base, .lit "\x7d"]
      else [Piece.plain base]).flatMap (Piece.markup .ast) = base.braced.ast := by
    unfold braced
    split
    next => rw [ast_group]; simp [Piece.plain, Piece.markup, joined, following, ast]
    next => simp [Piece.plain, Piece.markup, ast]
  rw [ast, markup_eq]
  unfold pieces
  rw [List.flatMap_append, List.flatMap_append, hbase]
  cases sub <;> cases sup <;>
    simp [scriptMarkup, Piece.arg, Piece.markup, markup_arg _ brace_ne_cell]

theorem ast_root_none (id : String) (body : Node) :
    (root id body none).ast =
      "\\sqrt".toList ++ '{' :: (joined (contents .brace body) ++ ['}']) := by
  simp only [ast, markup_eq (root id _ _), pieces, Piece.arg, Piece.markup, Option.getD_none,
    List.cons_append, List.nil_append, List.flatMap_cons, markup_arg _ brace_ne_cell]
  rfl

theorem ast_root_some (id : String) (body index : Node) :
    (root id body (some index)).ast = "\\sqrt".toList ++
      '[' :: (joined (contents .bracket index) ++
      ']' :: '{' :: (joined (contents .brace body) ++ ['}'])) := by
  simp only [ast, markup_eq (root id _ _), pieces, Piece.arg, Piece.markup, Option.getD_none,
    List.cons_append, List.nil_append, List.flatMap_cons, markup_arg body brace_ne_cell,
    markup_arg index bracket_ne_cell]
  rfl

theorem ast_array (id align : String) {rows : List (List Node)} (h : ∀ row ∈ rows, row ≠ []) :
    (array id rows (some align)).ast = "\\begin".toList ++
      '{' :: ("array".toList ++ '}' :: '{' :: (align.toList ++
      '}' :: '\n' :: (joined (stream rows) ++
      '\n' :: ("\\end".toList ++ '{' :: ("array".toList ++ ['}']))))) := by
  simp only [ast, markup_eq (array id _ _), pieces, List.flatMap_cons, List.flatMap_append,
    flatMap_rows h, List.cons_append, Piece.markup, Option.getD_some, String.toList_append,
    List.append_assoc]
  rfl

theorem ast_brace (id : String) (above : Bool) (body : Node) :
    (brace id above body).ast = (if above then "\\overbrace" else "\\underbrace").toList ++
      '{' :: (joined (contents .brace body) ++ ['}']) := by
  have hmode : Mode.ast ≠ .content := by decide
  simp only [ast, markup_eq (brace id _ _), pieces, if_neg hmode, Piece.arg, Piece.markup,
    Option.getD_none, List.flatMap_cons, markup_arg _ brace_ne_cell]
  cases above <;> rfl

theorem ast_color (id c : String) (body : List Node) :
    (color id c body).ast = "\\textcolor".toList ++
      '{' :: (c.toList ++ '}' :: '{' :: (joined body ++ ['}'])) := by
  have hmode : Mode.ast ≠ .content := by decide
  simp only [ast, markup_eq (color id _ _), pieces, if_neg hmode, Piece.markup, List.flatMap_cons,
    List.flatMap_append, List.cons_append, flatMap_spaced, String.toList_append, List.append_assoc]
  rfl

theorem ast_box (id border background : String) (body : Node) :
    (box id border body background).ast = "\\fcolorbox".toList ++
      '{' :: (border.toList ++ '}' :: '{' :: (background.toList ++
      '}' :: '{' :: '$' :: (joined (contents .dollar body) ++ ['$', '}']))) := by
  have hmode : Mode.ast ≠ .content := by decide
  simp only [ast, markup_eq (box id _ _ _), pieces, if_neg hmode, Piece.arg, Piece.markup,
    Option.getD_none, List.flatMap_cons, markup_arg _ dollar_ne_cell, String.toList_append,
    List.append_assoc]
  rfl

theorem ast_strike (id : String) (body : Node) :
    (strike id body).ast =
      "\\cancel".toList ++ '{' :: (joined (contents .brace body) ++ ['}']) := by
  have hmode : Mode.ast ≠ .content := by decide
  simp only [ast, markup_eq (strike id _), pieces, if_neg hmode, Piece.arg, Piece.markup,
    Option.getD_none, List.flatMap_cons, markup_arg _ brace_ne_cell]
  rfl

theorem ast_aligned (id : String) (cells : List Node) :
    (aligned id cells).ast = "\\begin".toList ++ '{' :: ("aligned".toList ++
      '}' :: (joined cells ++ ("\\end".toList ++ '{' :: ("aligned".toList ++ ['}'])))) := by
  simp only [ast, markup_eq (aligned id _), pieces, Piece.markup, List.flatMap_cons,
    List.flatMap_append, List.cons_append, flatMap_spaced]
  rfl

theorem ast_newLine : newLine.ast = ['\\', '\\'] := by
  simp [ast, markup_eq, pieces, Piece.markup]

theorem ast_alignMark : alignMark.ast = ['&'] := by
  simp [ast, markup_eq, pieces, Piece.markup]

end Node

end FormulaDoc
