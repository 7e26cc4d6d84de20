import FormulaDoc.Proofs.Escaping
import FormulaDoc.Proofs.Spelling

namespace FormulaDoc

/-- The cells that a run of siblings falls into, row by row. -/
def cells (ns : List Node) : List (List (List Node)) :=
  (ns.splitOn .newLine).map (·.splitOn .alignMark)

/-- The rows of an array that is written as a run of siblings. -/
def cutCells (ns : List Node) : List (List Node) :=
  if ns = [] then [] else (cells ns).map (·.map collapse)

namespace Node

theorem mem_contents {stop : Stop} {m n : Node} (h : m ∈ contents stop n) :
    m = n ∨ n.kind ≠ .text ∧ m ∈ n.children := by
  rcases n.eq_group_or_kind_ne with ⟨id, body, rfl⟩ | hk
  · cases body with
    | nil =>
      rw [contents] at h
      split at h
      next => exact .inl (List.mem_singleton.mp h)
      next => cases h
    | cons n ns => exact .inr ⟨by simp [kind], h⟩
  · rw [contents_eq_singleton hk] at h
    exact .inl (List.mem_singleton.mp h)

theorem size_le_of_mem_contents {stop : Stop} {m n : Node} (h : m ∈ contents stop n) : m.size ≤ n.size := by
  rcases mem_contents h with rfl | ⟨-, hm⟩
  · exact Nat.le_refl _
  · exact Nat.le_of_lt (size_lt_of_mem hm)

/-- The outer nodes of what stands in a slot are outer nodes of the node in it. -/
theorem mem_outer_of_mem_contents {stop : Stop} {k m n : Node} (hm : m ∈ contents stop n)
    (hk : k ∈ m.outer) : k ∈ n.outer := by
  rcases mem_contents hm with rfl | ⟨hn, hm⟩
  · exact hk
  · exact mem_outer_of_child hn hm hk

/-- The node that a reader finds where the contents of a slot were written. -/
def slot (stop : Stop) (n : Node) : Node :=
  collapse (contents stop n)

/-- A node with its slots filled as a reader fills them. -/
def settle : Node → Node
  | frac _ numerator denominator => frac "" (numerator.slot .brace) (denominator.slot .brace)
  | script _ base sub sup => script "" base (sub.map (slot .brace)) (sup.map (slot .brace))
  | root _ body index => root "" (body.slot .brace) (index.map (slot .bracket))
  | array _ rows align => array "" (cutCells (stream rows)) align
  | brace _ above body => brace "" above (body.slot .brace)
  | box _ border body background => box "" border (body.slot .dollar) background
  | strike _ body => strike "" (body.slot .brace)
  | n => n.withId ""

def reread (n : Node) : Node :=
  (n.withChildren (n.children.attach.map fun ⟨c, _⟩ => c.reread)).settle
termination_by n.size
decreasing_by exact size_lt_of_mem ‹_›

theorem reread_eq (n : Node) : n.reread = (n.mapChildren reread).settle := by
  rw [reread]
  simp [mapChildren]

theorem reread_symbol (id value : String) : (symbol id value).reread = symbol "" value := by
  rw [reread_eq]
  rfl

theorem reread_text (id : String) (body : List Node) :
    (text id body).reread = text "" (body.map reread) := by
  rw [reread_eq]
  rfl

theorem reread_frac (id : String) (numerator denominator : Node) :
    (frac id numerator denominator).reread =
      frac "" (numerator.reread.slot .brace) (denominator.reread.slot .brace) := by
  rw [reread_eq]
  rfl

theorem reread_script (id : String) (base : Node) (sub sup : Option Node) :
    (script id base sub sup).reread =
      script "" base.reread (sub.map (·.reread.slot .brace)) (sup.map (·.reread.slot .brace)) := by
  rw [reread_eq, mapChildren_script, settle, Option.map_map, Option.map_map]
  rfl

theorem reread_root (id : String) (body : Node) (index : Option Node) :
    (root id body index).reread =
      root "" (body.reread.slot .brace) (index.map (·.reread.slot .bracket)) := by
  rw [reread_eq, mapChildren_root, settle, Option.map_map]
  rfl

theorem reread_group (id : String) (body : List Node) :
    (group id body).reread = group "" (body.map reread) := by
  rw [reread_eq]
  rfl

theorem reread_array (id : String) (rows : List (List Node)) (align : Option String) :
    (array id rows align).reread =
      array "" (cutCells (stream (rows.map (·.map reread)))) align := by
  rw [reread_eq, mapChildren_array, settle]

theorem reread_color (id c : String) (body : List Node) :
    (color id c body).reread = color "" c (body.map reread) := by
  rw [reread_eq]
  rfl

theorem reread_brace (id : String) (above : Bool) (body : Node) :
    (brace id above body).reread = brace "" above (body.reread.slot .brace) := by
  rw [reread_eq]
  rfl

theorem reread_box (id border background : String) (body : Node) :
    (box id border body background).reread =
      box "" border (body.reread.slot .dollar) background := by
  rw [reread_eq]
  rfl

theorem reread_strike (id : String) (body : Node) :
    (strike id body).reread = strike "" (body.reread.slot .brace) := by
  rw [reread_eq]
  rfl

theorem reread_aligned (id : String) (cells : List Node) :
    (aligned id cells).reread = aligned "" (cells.map reread) := by
  rw [reread_eq]
  rfl

theorem kind_settle (n : Node) : n.settle.kind = n.kind := by
  cases n <;> rfl

theorem kind_reread (n : Node) : n.reread.kind = n.kind := by
  rw [reread_eq, kind_settle, kind_mapChildren]

/-- Whether a node separates cells. -/
def isMark : Node → Bool
  | newLine | alignMark => true
  | _ => false

theorem eq_of_isMark {m n : Node} (hm : m.isMark) (h : n.kind = m.kind) : n = m := by
  cases m with
  | newLine | alignMark => cases n <;> first | rfl | cases h
  | _ => cases hm

theorem arguments_mapChildren (h : Node → Node) (n : Node) :
    (n.mapChildren h).arguments = n.arguments.map fun p => (p.1, h p.2) := by
  cases n with
  | array id rows align =>
    rw [mapChildren_array]
    simp [arguments, List.map_flatten, Function.comp_def]
  | script id base sub sup =>
    rw [mapChildren_script]
    cases sub <;> cases sup <;> rfl
  | root id body index =>
    rw [mapChildren_root]
    cases index <;> rfl
  | _ => rfl

theorem names_mapChildren (h : Node → Node) (n : Node) : (n.mapChildren h).names = n.names :=
  names_eq_of_shape (n.shape_mapChildren h)

/-- What keeps the kind of a node and acts on the members of a group acts on the contents of slots. -/
theorem contents_map {f : Node → Node} {n : Node} (stop : Stop) (hkind : (f n).kind = n.kind)
    (hgroup : ∀ id body, n = group id body → ∃ id', f n = group id' (body.map f)) :
    contents stop (f n) = (contents stop n).map f := by
  rcases n.eq_group_or_kind_ne with ⟨id, body, rfl⟩ | hk
  · obtain ⟨id', hf⟩ := hgroup id body rfl
    cases body with
    | nil =>
      simp only [hf, contents, List.map_nil]
      split
      next => rw [List.map_singleton, hf, List.map_nil]
      next => rfl
    | cons n ns =>
      rw [hf]
      rfl
  · rw [contents_eq_singleton hk, contents_eq_singleton (hkind ▸ hk), List.map_singleton]

/-- A function on trees that keeps their kinds and goes on with the members of groups. -/
structure KeepsGroups (f : Node → Node) : Prop where
  kind (n : Node) : (f n).kind = n.kind
  group (id : String) (body : List Node) : ∃ id', f (Node.group id body) = Node.group id' (body.map f)

namespace KeepsGroups

variable {f : Node → Node} (hf : KeepsGroups f)

include hf

theorem contents_eq (stop : Stop) (n : Node) : contents stop (f n) = (contents stop n).map f := by
  refine contents_map stop (hf.kind n) ?_
  rintro id body rfl
  exact hf.group id body

/-- A run is written again after it was collapsed just when what becomes of it is. -/
theorem contents_collapse_iff {stop : Stop} {run : List Node} :
    contents stop (collapse (run.map f)) = run.map f ↔ contents stop (collapse run) = run := by
  rcases run with _ | ⟨n, _ | ⟨m, ns⟩⟩
  · exact .rfl
  · rw [List.map_singleton, collapse, collapse, hf.contents_eq]
    refine ⟨fun h => ?_, fun h => by rw [h, List.map_singleton]⟩
    rcases n.eq_group_or_kind_ne with ⟨id, body, rfl⟩ | hk
    · obtain ⟨id', hgroup⟩ := hf.group id body
      cases body with
      | nil =>
        by_cases hstop : stop = .cell
        · simp [contents, hstop]
        · simp [contents, hstop] at h
      | cons m ms =>
        have hcontents : contents stop (.group id (m :: ms)) = m :: ms := rfl
        rw [hcontents, hgroup, List.map_cons, List.cons.injEq, List.map_eq_nil_iff] at h
        obtain ⟨hm, rfl⟩ := h
        have hsize := congrArg Node.size hm
        simp only [List.map_nil, Node.size, Node.forestSize] at hsize
        omega
    · exact contents_eq_singleton hk
  · exact iff_of_true rfl rfl

end KeepsGroups

theorem keepsGroups_reread : KeepsGroups reread :=
  ⟨kind_reread, fun id body => ⟨"", reread_group id body⟩⟩

theorem contents_reread (stop : Stop) (n : Node) :
    contents stop n.reread = (contents stop n).map reread :=
  keepsGroups_reread.contents_eq stop n

theorem slot_reread (stop : Stop) (n : Node) :
    n.reread.slot stop = collapse ((contents stop n).map reread) := by
  rw [slot, contents_reread]

end Node

theorem map_intercalate {α β : Type} (f : α → β) (sep : List α) (parts : List (List α)) :
    (sep.intercalate parts).map f = (sep.map f).intercalate (parts.map (·.map f)) := by
  simp only [List.map_eq_flatMap (f := f)]
  exact flatMap_intercalate _ sep parts

theorem stream_map {f : Node → Node} {rows : List (List Node)} (hline : f .newLine = .newLine)
    (hmark : f .alignMark = .alignMark)
    (hcells : ∀ c ∈ rows.flatten, contents .cell (f c) = (contents .cell c).map f) :
    stream (rows.map (·.map f)) = (stream rows).map f := by
  rw [stream, stream, map_intercalate, List.map_map, List.map_map, List.map_singleton, hline]
  congr 1
  refine List.map_congr_left fun row hrow => ?_
  simp only [Function.comp_apply]
  rw [map_intercalate, List.map_map, List.map_map, List.map_singleton, hmark]
  congr 1
  exact List.map_congr_left fun n hn => hcells n (List.mem_flatten.mpr ⟨row, hrow, hn⟩)

theorem stream_reread (rows : List (List Node)) :
    stream (rows.map (·.map Node.reread)) = (stream rows).map Node.reread := by
  have hline : Node.newLine.reread = .newLine := by rw [Node.reread_eq]; rfl
  have hmark : Node.alignMark.reread = .alignMark := by rw [Node.reread_eq]; rfl
  exact stream_map hline hmark fun n _ => n.contents_reread .cell

theorem cells_of_notMem {run : List Node} (hline : .newLine ∉ run) (hmark : .alignMark ∉ run) :
    cells run = [[run]] := by
  rw [cells, List.splitOn_eq_singleton hline, List.map_singleton, List.splitOn_eq_singleton hmark]

theorem cells_newLine {run : List Node} (hline : .newLine ∉ run) (hmark : .alignMark ∉ run)
    (ns : List Node) : cells (run ++ .newLine :: ns) = [run] :: cells ns := by
  rw [cells, List.splitOn_append_cons_self_of_not_mem hline, List.map_cons,
    List.splitOn_eq_singleton hmark, ← cells]

theorem splitOn_append {α : Type} [BEq α] [LawfulBEq α] {a : α} {xs : List α} (h : a ∉ xs)
    (ys : List α) : (xs ++ ys).splitOn a = (ys.splitOn a).modifyHead (xs ++ ·) := by
  induction xs with
  | nil =>
    rw [List.nil_append]
    cases ys.splitOn a <;> rfl
  | cons x xs ih =>
    have hx : (x == a) = false := beq_eq_false_iff_ne.mpr fun e => h (e ▸ List.mem_cons_self)
    rw [List.cons_append, List.splitOn_cons_eq_if_modifyHead, hx, ih fun hm => h (by simp [hm])]
    cases ys.splitOn a <;> rfl

theorem cells_alignMark {run : List Node} (hline : .newLine ∉ run) (hmark : .alignMark ∉ run)
    (ns : List Node) :
    ∃ row rows, cells ns = row :: rows ∧ cells (run ++ .alignMark :: ns) = (run :: row) :: rows := by
  obtain ⟨first, others, hsplit⟩ := List.exists_cons_of_ne_nil (List.splitOn_ne_nil .newLine ns)
  refine ⟨first.splitOn .alignMark, others.map (·.splitOn .alignMark), by simp [cells, hsplit], ?_⟩
  have hrun : Node.newLine ∉ run ++ [.alignMark] := by simpa using hline
  rw [cells, ← List.singleton_append, ← List.append_assoc, splitOn_append hrun, hsplit,
    List.modifyHead_cons, List.map_cons, List.append_assoc, List.singleton_append,
    List.splitOn_append_cons_self_of_not_mem hmark]

/-- Induction on a run of siblings, cell by cell. -/
theorem cellInduction {P : List Node → Prop}
    (last : ∀ run, Node.newLine ∉ run → Node.alignMark ∉ run → P run)
    (cell : ∀ run ns, Node.newLine ∉ run → Node.alignMark ∉ run → P ns →
      P (run ++ .alignMark :: ns))
    (row : ∀ run ns, Node.newLine ∉ run → Node.alignMark ∉ run → P ns → P (run ++ .newLine :: ns))
    (ns : List Node) : P ns := by
  suffices h : ∀ run, Node.newLine ∉ run → Node.alignMark ∉ run → P (run ++ ns) from
    h [] (by simp) (by simp)
  induction ns with
  | nil =>
    intro run hline hmark
    rw [List.append_nil]
    exact last run hline hmark
  | cons n ns ih =>
    intro run hline hmark
    have hrest : P ns := ih [] (by simp) (by simp)
    by_cases hn : n = .newLine
    · subst hn
      exact row run ns hline hmark hrest
    by_cases hn' : n = .alignMark
    · subst hn'
      exact cell run ns hline hmark hrest
    rw [← List.singleton_append, ← List.append_assoc]
    exact ih (run ++ [n]) (by simp [hline, Ne.symm hn]) (by simp [hmark, Ne.symm hn'])

theorem mem_of_mem_cells {ns run : List Node} {n : Node} (hrun : run ∈ (cells ns).flatten)
    (hn : n ∈ run) : n ∈ ns := by
  induction ns using cellInduction with
  | last run' hline hmark =>
    rw [cells_of_notMem hline hmark] at hrun
    simp only [List.flatten_cons, List.flatten_nil, List.append_nil, List.mem_singleton] at hrun
    exact hrun ▸ hn
  | cell run' ns hline hmark ih =>
    obtain ⟨row, rows, hcells, hfirst⟩ := cells_alignMark hline hmark ns
    rw [hfirst, List.flatten_cons, List.cons_append, ← List.flatten_cons, ← hcells] at hrun
    rcases List.mem_cons.mp hrun with rfl | hrun
    · exact List.mem_append_left _ hn
    · exact List.mem_append_right _ (List.mem_cons_of_mem _ (ih hrun))
  | row run' ns hline hmark ih =>
    rw [cells_newLine hline hmark, List.flatten_cons] at hrun
    rcases List.mem_cons.mp hrun with rfl | hrun
    · exact List.mem_append_left _ hn
    · exact List.mem_append_right _ (List.mem_cons_of_mem _ (ih hrun))

theorem mem_stream {rows : List (List Node)} {n : Node} (h : n ∈ stream rows) :
    n = .newLine ∨ n = .alignMark ∨ ∃ c ∈ rows.flatten, n ∈ contents .cell c := by
  rcases mem_intercalate h with h | ⟨p, hp, h⟩
  · exact .inl h
  obtain ⟨row, hrow, rfl⟩ := List.mem_map.mp hp
  rcases mem_intercalate h with h | ⟨q, hq, h⟩
  · exact .inr (.inl h)
  obtain ⟨c, hc, rfl⟩ := List.mem_map.mp hq
  have hmem : c ∈ rows.flatten := List.mem_flatten.mpr ⟨row, hrow, hc⟩
  exact .inr (.inr ⟨c, hmem, h⟩)

theorem mem_intercalate_of_mem {α : Type} {a : α} {sep p : List α} {parts : List (List α)}
    (hp : p ∈ parts) (ha : a ∈ p) : a ∈ sep.intercalate parts := by
  induction parts with
  | nil => cases hp
  | cons q parts ih =>
    cases parts with
    | nil =>
      obtain rfl : p = q := by simpa using hp
      simpa using ha
    | cons r parts =>
      rw [List.intercalate_cons_cons]
      rcases List.mem_cons.mp hp with rfl | hp
      · simp [ha]
      · exact List.mem_append_right _ (ih hp)

theorem mem_stream_of_contents {rows : List (List Node)} {c n : Node} (hc : c ∈ rows.flatten)
    (hn : n ∈ contents .cell c) : n ∈ stream rows := by
  obtain ⟨row, hrow, hc⟩ := List.mem_flatten.mp hc
  have hline : n ∈ [Node.alignMark].intercalate (row.map (contents .cell)) :=
    mem_intercalate_of_mem (List.mem_map_of_mem hc) hn
  exact mem_intercalate_of_mem (List.mem_map_of_mem hrow) hline

/-- The cells of a run, put back together with their separators, are the run. -/
theorem intercalate_cells (ns : List Node) :
    [Node.newLine].intercalate ((cells ns).map [Node.alignMark].intercalate) = ns := by
  rw [cells, List.map_map]
  have hrow : ([Node.alignMark].intercalate ∘ fun row => row.splitOn Node.alignMark) = id := by
    funext row
    exact List.intercalate_splitOn _
  rw [hrow, List.map_id, List.intercalate_splitOn]

end FormulaDoc
