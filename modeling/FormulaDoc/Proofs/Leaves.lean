import FormulaDoc.Proofs.Blank

namespace FormulaDoc

/-- What a node shows by itself: a leaf shows its value, a carrier its kind. -/
inductive Sign where
  | symbol (value : String)
  | space (text : String)
  | op (operator : String) (limits : Bool)
  | carrier (kind : Kind)
  deriving DecidableEq

def Sign.isLeaf : Sign → Bool
  | carrier _ => false
  | _ => true

namespace Node

def sign? : Node → Option Sign
  | symbol _ value => some (.symbol value)
  | space _ s => some (.space s)
  | op _ operator limits => some (.op operator limits)
  | n => if n.isCarrier then some (.carrier n.kind) else none

theorem sign?_of_isCarrier {n : Node} (h : n.isCarrier) : n.sign? = some (.carrier n.kind) := by
  cases n <;> first | rfl | cases h

/-- The children in the order in which markup refers to them. -/
def written (n : Node) : List Node :=
  Piece.references (n.pieces .ast false)

theorem mem_written {c n : Node} : c ∈ n.written ↔ c ∈ n.children :=
  (n.references_pieces .ast false).mem_iff

/-- The leaves and carriers of a tree in the order of its markup. -/
def signs (n : Node) : List Sign :=
  n.sign?.toList ++ n.written.attach.flatMap fun ⟨c, _⟩ => c.signs
termination_by n.size
decreasing_by exact size_lt_of_mem (mem_written.mp ‹_›)

theorem signs_eq (n : Node) : n.signs = n.sign?.toList ++ n.written.flatMap signs := by
  rw [signs]
  simp

/-- Only the index of a root is not written in document order. -/
theorem written_eq (n : Node) : n.written = match n with
    | root _ body index => index.toList ++ [body]
    | n => n.children := by
  cases n with
  | text id body =>
    rw [written, pieces, List.cons_append, Piece.references, Piece.references_append,
      Piece.references_map fun _ _ => rfl]
    simp [Piece.references, children]
  | script id base sub sup =>
    simp only [written, pieces, Piece.references_append]
    split <;> cases sub <;> cases sup <;> rfl
  | root id body index => cases index <;> rfl
  | group | color | aligned =>
    simp [written, pieces, Piece.references, Piece.references_append, Piece.references_spaced, children]
  | array =>
    simp [written, pieces, Piece.references, Piece.references_append, Piece.references_rows, children]
  | _ => rfl

theorem sign?_eq_of_shape {m n : Node} (h : m.shape = n.shape) : m.sign? = n.sign? := by
  cases m <;> cases n <;> simp_all [shape, sign?, isCarrier, kind]

theorem written_mapChildren (f : Node → Node) (n : Node) : (n.mapChildren f).written = n.written.map f := by
  rw [written_eq, written_eq]
  cases n with
  | script id base sub sup => cases sub <;> cases sup <;> rfl
  | root id body index => cases index <;> rfl
  | array id rows align =>
    rw [mapChildren_array]
    simp [children, List.map_flatten]
  | _ => rfl

theorem signs_congr {m n : Node} (hsign : m.sign? = n.sign?)
    (hwritten : m.written.flatMap signs = n.written.flatMap signs) : m.signs = n.signs := by
  rw [signs_eq, signs_eq, hsign, hwritten]

theorem signs_mapChildren {f : Node → Node} {n : Node} (h : ∀ c ∈ n.children, (f c).signs = c.signs) :
    (n.mapChildren f).signs = n.signs := by
  refine signs_congr (sign?_eq_of_shape (n.shape_mapChildren f)) ?_
  rw [written_mapChildren, List.flatMap_map]
  exact List.flatMap_congr fun c hc => h c (mem_written.mp hc)

theorem signs_withId (id : String) (n : Node) : (n.withId id).signs = n.signs := by
  refine signs_congr (sign?_eq_of_shape (n.shape_withId id)) ?_
  rw [written_eq, written_eq]
  cases n <;> rfl

theorem signs_blank (n : Node) : n.blank.signs = n.signs := by
  induction n using childrenInduction with
  | step n ih => rw [blank_eq, signs_withId, signs_mapChildren ih]

theorem signs_relabel (keep : Bool) (path : String) (n : Node) :
    (n.relabel keep path).signs = n.signs := by
  rw [← signs_blank, blank_relabel, signs_blank]

theorem signs_group (id : String) (body : List Node) : (group id body).signs = body.flatMap signs := by
  rw [signs_eq, written_eq]
  rfl

theorem signs_collapse (ns : List Node) : (collapse ns).signs = ns.flatMap signs := by
  unfold collapse
  split
  next n => rw [List.flatMap_singleton]
  next => exact signs_group "" ns

theorem signs_contents (stop : Stop) (n : Node) : (contents stop n).flatMap signs = n.signs := by
  rcases n.eq_group_or_kind_ne with ⟨id, body, rfl⟩ | hk
  · cases body with
    | nil =>
      rw [contents, signs_group]
      split
      next => rw [List.flatMap_singleton, signs_group]
      next => rfl
    | cons n ns => exact (signs_group id _).symm
  · rw [contents_eq_singleton hk, List.flatMap_singleton]

theorem signs_slot (stop : Stop) (n : Node) : (n.slot stop).signs = n.signs := by
  rw [slot, signs_collapse, signs_contents]

theorem signs_newLine : newLine.signs = [] := by
  rw [signs_eq]
  rfl

theorem signs_alignMark : alignMark.signs = [] := by
  rw [signs_eq]
  rfl

theorem flatMap_signs_intercalate {sep : Node} (h : sep.signs = []) (parts : List (List Node)) :
    ([sep].intercalate parts).flatMap signs = parts.flatten.flatMap signs := by
  rw [flatMap_intercalate, List.flatMap_singleton, h]
  induction parts with
  | nil => rfl
  | cons p parts ih =>
    cases parts with
    | nil => simp
    | cons q parts =>
      rw [List.map_cons, List.map_cons, List.intercalate_cons_cons, ← List.map_cons, ih]
      simp

theorem signs_stream (rows : List (List Node)) :
    (stream rows).flatMap signs = rows.flatten.flatMap signs := by
  rw [stream, flatMap_signs_intercalate signs_newLine]
  induction rows with
  | nil => rfl
  | cons row rows ih =>
    rw [List.map_cons, List.flatten_cons, List.flatMap_append, ih,
      flatMap_signs_intercalate signs_alignMark, List.flatten_cons, List.flatMap_append]
    congr 1
    rw [← List.flatMap_def, List.flatMap_assoc]
    exact List.flatMap_congr fun c _ => signs_contents .cell c

theorem signs_cutCells (ns : List Node) : (cutCells ns).flatten.flatMap signs = ns.flatMap signs := by
  unfold cutCells
  split
  next h => rw [h]; rfl
  next =>
    have hcells := flatMap_signs_intercalate signs_newLine ((cells ns).map [alignMark].intercalate)
    rw [intercalate_cells] at hcells
    rw [hcells]
    induction cells ns with
    | nil => rfl
    | cons row rows ih =>
      rw [List.map_cons, List.flatten_cons, List.flatMap_append, ih, List.map_cons, List.flatten_cons,
        List.flatMap_append, flatMap_signs_intercalate signs_alignMark]
      congr 1
      rw [List.flatMap_map, List.flatten_eq_flatMap, List.flatMap_assoc]
      exact List.flatMap_congr fun run _ => signs_collapse run

theorem signs_settle (n : Node) : n.settle.signs = n.signs := by
  cases n with
  | frac | brace | box | strike =>
    exact signs_congr rfl (by simp [settle, written_eq, children, signs_slot])
  | script id base sub sup =>
    exact signs_congr rfl (by cases sub <;> cases sup <;> simp [settle, written_eq, children, signs_slot])
  | root id body index =>
    exact signs_congr rfl (by cases index <;> simp [settle, written_eq, signs_slot])
  | array id rows align =>
    refine signs_congr rfl ?_
    rw [settle, written_eq, written_eq]
    exact (signs_cutCells _).trans (signs_stream rows)
  | _ => exact signs_congr rfl (by rw [written_eq, written_eq]; rfl)

/-- A reader finds the leaves and the carriers that were written. -/
theorem signs_reread (n : Node) : n.reread.signs = n.signs := by
  induction n using childrenInduction with
  | step n ih => rw [reread_eq, signs_settle, signs_mapChildren ih]

/-- A carrier of a tree shows its kind. -/
theorem carrier_mem_signs {m n : Node} (hm : m ∈ n.preorder) (h : m.isCarrier) :
    .carrier m.kind ∈ n.signs := by
  induction n using childrenInduction with
  | step n ih =>
    rw [signs_eq]
    rcases mem_preorder_iff.mp hm with rfl | ⟨c, hc, hm⟩
    · refine List.mem_append_left _ ?_
      simp [sign?_of_isCarrier h]
    · exact List.mem_append_right _ (List.mem_flatMap.mpr ⟨c, mem_written.mpr hc, ih c hc hm⟩)

end Node

theorem signs_labelNodes (keep : Bool) (ns : List Node) :
    (labelNodes keep ns).flatMap Node.signs = ns.flatMap Node.signs := by
  have hsigns : (labelNodes keep ns).map Node.signs = ns.map Node.signs :=
    List.ext_getElem (by simp [labelNodes]) fun i hi hi' => by simp [labelNodes, Node.signs_relabel]
  rw [List.flatMap_def, hsigns, ← List.flatMap_def]

/-- The leaves of a formula in the order of its markup. -/
def Formula.leaves (f : Formula) : List Sign :=
  (f.children.flatMap Node.signs).filter Sign.isLeaf

end FormulaDoc
