import FormulaDoc.Label
import FormulaDoc.Proofs.Reread

namespace FormulaDoc

namespace Node

theorem shape_withId (id : String) (n : Node) : (n.withId id).shape = n.shape := by
  cases n <;> rfl

theorem children_withId (id : String) (n : Node) : (n.withId id).children = n.children := by
  cases n <;> rfl

theorem id?_withId (id : String) (n : Node) : (n.withId id).id? = n.id?.map fun _ => id := by
  cases n <;> rfl

/-- The tree without its ids. -/
def blank (n : Node) : Node :=
  (n.withChildren (n.children.attach.map fun ⟨c, _⟩ => c.blank)).withId ""
termination_by n.size
decreasing_by exact size_lt_of_mem ‹_›

theorem blank_eq (n : Node) : n.blank = (n.mapChildren blank).withId "" := by
  rw [blank]
  simp [mapChildren]

theorem shape_blank (n : Node) : n.blank.shape = n.shape := by
  rw [blank_eq, shape_withId, shape_mapChildren]

theorem children_blank (n : Node) : n.blank.children = n.children.map blank := by
  rw [blank_eq, children_withId, children_mapChildren]

theorem id?_blank (n : Node) : n.blank.id? = n.id?.map fun _ => "" := by
  rw [blank_eq, id?_withId, id?_mapChildren]

theorem id?_isSome_eq_of_shape {m n : Node} (h : m.shape = n.shape) :
    m.id?.isSome = n.id?.isSome := by
  cases m <;> cases n <;> first | rfl | simp [shape] at h

/-- Two trees are the same apart from ids if their shapes and, apart from ids, their children are. -/
theorem blank_ext {m n : Node} (hs : m.shape = n.shape)
    (hc : m.children.map blank = n.children.map blank) : m.blank = n.blank := by
  refine ext_iff.mpr ⟨by rw [shape_blank, shape_blank, hs], ?_, by rw [children_blank, children_blank, hc]⟩
  have hid := id?_isSome_eq_of_shape hs
  rw [id?_blank, id?_blank]
  cases hm : m.id? <;> cases hn : n.id? <;> simp [hm, hn] at hid ⊢

theorem blank_blank (n : Node) : n.blank.blank = n.blank := by
  induction n using childrenInduction with
  | step n ih =>
    refine blank_ext n.shape_blank ?_
    rw [children_blank, List.map_map]
    exact List.map_congr_left ih

end Node

/-- The piece with another node in the place of the one that it refers to. -/
def Piece.map (f : Node → Node) : Piece → Piece
  | .lit s => .lit s
  | .child n asArg m => .child (f n) asArg m

namespace Node

theorem blank_array (id : String) (rows : List (List Node)) (align : Option String) :
    (array id rows align).blank = array "" (rows.map (·.map blank)) align := by
  rw [blank_eq, mapChildren_array, withId]

theorem blank_script (id : String) (base : Node) (sub sup : Option Node) :
    (script id base sub sup).blank = script "" base.blank (sub.map blank) (sup.map blank) := by
  rw [blank_eq, mapChildren_script, withId]

theorem blank_root (id : String) (body : Node) (index : Option Node) :
    (root id body index).blank = root "" body.blank (index.map blank) := by
  rw [blank_eq, mapChildren_root, withId]

theorem blank_text (id : String) (body : List Node) :
    (text id body).blank = text "" (body.map blank) := by
  rw [blank_eq]
  rfl

/-- The letters of a text are read as they are, apart from their ids. -/
theorem reread_letters {body : List Node} (h : body.all isLetter) :
    body.map reread = body.map blank := by
  refine List.map_congr_left fun c hc => ?_
  have hletter := List.all_eq_true.mp h c hc
  cases c with
  | symbol id value =>
    rw [reread_symbol, blank_eq]
    rfl
  | _ => simp [isLetter] at hletter

section

variable {f : Node → Node}

theorem map_spaced (f : Node → Node) (ns : List Node) :
    (Piece.spaced ns).map (Piece.map f) = Piece.spaced (ns.map f) := by
  rw [Piece.spaced, Piece.spaced, map_intersperse, List.map_map, List.map_map]
  rfl

theorem isEmptyGroup_map {n : Node} (hkind : (f n).kind = n.kind)
    (hgroup : ∀ id body, n = group id body → ∃ id', f n = group id' (body.map f)) :
    (f n).isEmptyGroup = n.isEmptyGroup := by
  rcases n.eq_group_or_kind_ne with ⟨id, body, rfl⟩ | hk
  · obtain ⟨id', hf⟩ := hgroup id body rfl
    rw [hf]
    cases body <;> rfl
  · have hempty : ∀ m : Node, m.kind ≠ .group → m.isEmptyGroup = false := by
      intro m hm
      cases m <;> first | rfl | exact absurd rfl hm
    rw [hempty n hk, hempty _ (hkind ▸ hk)]

theorem map_cells {rows : List (List Node)}
    (hempty : ∀ c ∈ rows.flatten, (f c).isEmptyGroup = c.isEmptyGroup) :
    (List.intercalate [Piece.lit " \\\\ "]
        (rows.map fun row => (row.map Piece.cell).intersperse (.lit " & "))).map (Piece.map f) =
      List.intercalate [Piece.lit " \\\\ "]
        ((rows.map (·.map f)).map fun row => (row.map Piece.cell).intersperse (.lit " & ")) := by
  rw [map_intercalate, List.map_map, List.map_map]
  congr 1
  refine List.map_congr_left fun row hrow => ?_
  simp only [Function.comp_apply]
  rw [map_intersperse, List.map_map, List.map_map]
  congr 1
  refine List.map_congr_left fun n hn => ?_
  simp [Piece.cell, Piece.map, hempty n (List.mem_flatten.mpr ⟨row, hrow, hn⟩)]

theorem columnSpec_map (f : Node → Node) (rows : List (List Node)) :
    columnSpec (rows.map (·.map f)) = columnSpec rows := by
  have hlengths : (rows.map (·.map f)).map List.length = rows.map List.length := by simp
  rw [columnSpec, columnSpec, hlengths]

/-- A node is written as the same pieces around other children of the same kinds. -/
theorem pieces_mapChildren {n : Node} (hkind : ∀ c ∈ n.children, (f c).kind = c.kind)
    (hempty : ∀ c ∈ n.children, (f c).isEmptyGroup = c.isEmptyGroup) (mode : Mode) (asArg : Bool) :
    (n.mapChildren f).pieces mode asArg = (n.pieces mode asArg).map (Piece.map f) := by
  cases n with
  | symbol id value =>
    show pieces mode asArg (symbol id value) = _
    simp only [pieces, Piece.tagged]
    split <;> [rfl; split <;> rfl]
  | op id operator limits =>
    show pieces mode asArg (op id operator limits) = _
    simp only [pieces, Piece.tagged]
    split <;> rfl
  | var id latex =>
    show pieces mode asArg (var id latex) = _
    simp only [pieces, Piece.tagged]
    split <;> rfl
  | text id body =>
    show pieces mode asArg (text id (body.map f)) = _
    simp [pieces, Piece.map]
  | group id body =>
    show pieces mode asArg (group id (body.map f)) = _
    simp only [pieces]
    split <;> simp [map_spaced, Piece.map]
  | color id c body =>
    show pieces mode asArg (color id c (body.map f)) = _
    simp only [pieces]
    split <;> simp [map_spaced, Piece.map]
  | aligned id cells =>
    show pieces mode asArg (aligned id (cells.map f)) = _
    simp [pieces, map_spaced, Piece.map]
  | array id rows align =>
    rw [mapChildren_array]
    simp only [pieces, List.map_cons, List.map_append, map_cells hempty, columnSpec_map, Piece.map,
      List.map_nil]
  | script id base sub sup =>
    rw [mapChildren_script]
    simp only [pieces, hkind base (by simp [children])]
    cases sub <;> cases sup <;> by_cases hk : base.kind = .script <;>
      simp [hk, Piece.map, Piece.plain, Piece.arg]
  | root id body index =>
    rw [mapChildren_root]
    cases index <;> rfl
  | brace | box | strike =>
    simp only [pieces, mapChildren, children, withChildren, List.map_cons, List.map_nil]
    split <;> rfl
  | _ => rfl

end

theorem pieces_withId {mode : Mode} (h : mode ≠ .render) (asArg : Bool) (id : String) (n : Node) :
    (n.withId id).pieces mode asArg = n.pieces mode asArg := by
  cases n <;> first | rfl | simp only [withId, pieces, Piece.tagged, if_neg h]

theorem kind_blank (n : Node) : n.blank.kind = n.kind :=
  kind_eq_of_shape n.shape_blank

theorem blank_group (id : String) (body : List Node) :
    (group id body).blank = group "" (body.map blank) := by
  rw [blank_eq]
  rfl

/-- Without ids a node is written as the same pieces around the same children. -/
theorem pieces_blank {mode : Mode} (h : mode ≠ .render) (asArg : Bool) (n : Node) :
    n.blank.pieces mode asArg = (n.pieces mode asArg).map (Piece.map blank) := by
  rw [blank_eq, pieces_withId h]
  refine pieces_mapChildren (fun c _ => c.kind_blank) (fun c _ => ?_) mode asArg
  refine isEmptyGroup_map c.kind_blank ?_
  rintro id body rfl
  exact ⟨"", blank_group id body⟩

/-- Only the render mode writes ids. -/
theorem markup_blank {mode : Mode} (h : mode ≠ .render) (asArg : Bool) (n : Node) :
    n.blank.markup mode asArg = n.markup mode asArg := by
  induction n using childrenInduction generalizing mode asArg with
  | step n ih =>
    rw [markup_eq, markup_eq, pieces_blank h, List.flatMap_map]
    refine List.flatMap_congr fun p hp => ?_
    cases p with
    | lit s => rfl
    | child c a m =>
      have hmode : m.getD mode ≠ .render := by
        rcases ownMode_of_mem_pieces hp with hm | ⟨hm, -⟩ <;> rw [Piece.ownMode] at hm <;> subst hm
        · exact h
        · simp
      exact ih c (mem_children_of_piece hp) hmode a

theorem ast_blank (n : Node) : n.blank.ast = n.ast :=
  markup_blank (by decide) false n

theorem ast_eq_of_blank {m n : Node} (h : m.blank = n.blank) : m.ast = n.ast := by
  rw [← ast_blank m, h, ast_blank]

/-- The names of the slots do not depend on what is in them. -/
theorem slots_eq_of_shape {m n : Node} (hs : m.shape = n.shape)
    (hlength : m.children.length = n.children.length) : m.slots = n.slots := by
  cases m with
  | array id rows align =>
    cases n with
    | array id' rows' align' =>
      have hrows : rows.map List.length = rows'.map List.length := (Shape.array.inj hs).1
      have hcount : rows.length = rows'.length := by simpa using congrArg List.length hrows
      rw [slots, slots]
      congr 1
      refine List.ext_getElem (by simpa using hcount) fun r hr hr' => ?_
      rw [List.getElem_mapIdx, List.getElem_mapIdx]
      have hrow := List.getElem_of_eq hrows (i := r) (by simpa using hr)
      simp only [List.getElem_map] at hrow
      exact List.ext_getElem (by simpa using hrow) fun c hc hc' => by simp
    | _ => cases hs
  | script id base sub sup =>
    cases n with
    | script id' base' sub' sup' =>
      cases sub <;> cases sub' <;> cases sup <;> cases sup' <;> first | rfl | cases hs
    | _ => cases hs
  | root id body index =>
    cases n with
    | root id' body' index' => cases index <;> cases index' <;> first | rfl | cases hs
    | _ => cases hs
  | text | group | color | aligned =>
    cases n <;> first | exact congrArg (fun k => (List.range k).map toString) hlength | cases hs
  | _ => cases n <;> first | rfl | cases hs

theorem slots_mapChildren (g : Node → Node) (n : Node) : (n.mapChildren g).slots = n.slots := by
  have hshape : (n.mapChildren g).shape = n.shape := n.shape_mapChildren g
  have hlength : (n.mapChildren g).children.length = n.children.length := by
    rw [children_mapChildren, List.length_map]
  exact slots_eq_of_shape hshape hlength

theorem slots_blank (n : Node) : n.blank.slots = n.slots :=
  slots_eq_of_shape n.shape_blank (by simp [children_blank])

theorem zipWith_congr {α β γ : Type} {f g : α → β → γ} {as : List α} {bs : List β}
    (h : ∀ a ∈ as, ∀ b, f a b = g a b) : List.zipWith f as bs = List.zipWith g as bs := by
  induction as generalizing bs with
  | nil => rfl
  | cons a as ih =>
    cases bs with
    | nil => rfl
    | cons b bs =>
      rw [List.zipWith_cons_cons, List.zipWith_cons_cons, h a List.mem_cons_self,
        ih fun x hx => h x (List.mem_cons_of_mem _ hx)]

theorem length_zipWith_slots {f : Node → String → Node} (n : Node) :
    (List.zipWith f n.children n.slots).length = n.children.length := by
  rw [List.length_zipWith, length_slots, Nat.min_self]

theorem zipWith_slots (f : Node → Node) (n : Node) :
    List.zipWith (fun c _ => f c) n.children n.slots = n.children.map f := by
  refine List.ext_getElem (by simp [length_slots]) fun i hi hi' => ?_
  simp

theorem shape_relabel (keep : Bool) (path : String) (n : Node) :
    (n.relabel keep path).shape = n.shape := by
  rw [relabel_eq]
  split
  next => rfl
  next => rw [shape_withId, shape_withChildren n.length_zipWith_slots]

theorem id?_relabel (keep : Bool) (path : String) (n : Node) :
    (n.relabel keep path).id? = n.id?.map (pathId keep path) := by
  rw [relabel_eq]
  split
  next h => rw [h, Option.map_none]
  next id h => rw [id?_withId, id?_withChildren n.length_zipWith_slots, h, Option.map_some, Option.map_some]

theorem children_eq_nil_of_id? {n : Node} (h : n.id? = none) : n.children = [] := by
  cases n <;> first | rfl | simp [id?] at h

theorem children_relabel (keep : Bool) (path : String) (n : Node) :
    (n.relabel keep path).children = List.zipWith
      (fun c slot => c.relabel keep (pathId keep path (n.id?.getD "") ++ "." ++ slot))
      n.children n.slots := by
  rw [relabel_eq]
  split
  next h => rw [children_eq_nil_of_id? h, List.zipWith_nil_left]
  next id h => rw [children_withId, children_withChildren n.length_zipWith_slots, h, Option.getD_some]

/-- Path ids are given by the places of the nodes alone. -/
theorem relabel_blank (keep : Bool) (path : String) (n : Node) :
    n.blank.relabel keep path = n.relabel false path := by
  induction n using childrenInduction generalizing path with
  | step n ih =>
    have hid : ∀ id, pathId keep path "" = pathId false path id := by simp [pathId]
    refine ext_iff.mpr ⟨?_, ?_, ?_⟩
    · rw [shape_relabel, shape_relabel, shape_blank]
    · rw [id?_relabel, id?_relabel, id?_blank, Option.map_map]
      congr 1
      funext id
      exact hid id
    · have hpath : pathId keep path (n.blank.id?.getD "") = pathId false path (n.id?.getD "") := by
        rw [id?_blank]
        cases n.id? <;> exact hid _
      rw [children_relabel, children_relabel, children_blank, slots_blank, List.zipWith_map_left, hpath]
      exact zipWith_congr fun c hc slot => ih c hc _

/-- A tree is not changed by path ids apart from its ids. -/
theorem blank_relabel (keep : Bool) (path : String) (n : Node) :
    (n.relabel keep path).blank = n.blank := by
  induction n using childrenInduction generalizing path with
  | step n ih =>
    refine blank_ext (shape_relabel keep path n) ?_
    rw [children_relabel, List.map_zipWith]
    rw [← zipWith_slots blank]
    exact zipWith_congr fun c hc slot => ih c hc _

theorem slots_relabel (keep : Bool) (path : String) (n : Node) :
    (n.relabel keep path).slots = n.slots := by
  rw [← slots_blank, blank_relabel, slots_blank]

theorem ast_relabel (keep : Bool) (path : String) (n : Node) : (n.relabel keep path).ast = n.ast :=
  ast_eq_of_blank (blank_relabel keep path n)

theorem blank_eq_self {n : Node} (hid : ∀ id, n.id? = some id → id = "")
    (hc : ∀ c ∈ n.children, c.blank = c) : n.blank = n := by
  refine ext_iff.mpr ⟨n.shape_blank, ?_, ?_⟩
  · rw [id?_blank]
    cases h : n.id? with
    | none => rfl
    | some id => rw [hid id h, Option.map_some]
  · rw [children_blank]
    exact (List.map_congr_left hc).trans (List.map_id' _)

theorem blank_collapse {ns : List Node} (h : ∀ n ∈ ns, n.blank = n) :
    (collapse ns).blank = collapse ns := by
  unfold collapse
  split
  next n => exact h n (by simp)
  next => exact blank_eq_self (by simp [id?]) h

theorem blank_contents {stop : Stop} {m n : Node} (h : n.blank = n) (hm : m ∈ contents stop n) :
    m.blank = m := by
  rcases mem_contents hm with rfl | ⟨-, hm⟩
  · exact h
  · have hc := n.children_blank
    rw [h] at hc
    obtain ⟨i, hi, rfl⟩ := List.mem_iff_getElem.mp hm
    have hget := List.getElem_map blank (l := n.children) (i := i) (h := by simpa using hi)
    simp only [← hc] at hget
    exact hget.symm

theorem blank_slot {stop : Stop} {n : Node} (h : n.blank = n) : (n.slot stop).blank = n.slot stop :=
  blank_collapse fun _ hm => blank_contents h hm

theorem blank_cutCells {rows : List (List Node)} (h : ∀ c ∈ rows.flatten, c.blank = c) {n : Node}
    (hn : n ∈ (cutCells (stream rows)).flatten) : n.blank = n := by
  unfold cutCells at hn
  split at hn
  next => simp at hn
  next =>
    rw [← List.map_flatten] at hn
    obtain ⟨run, hrun, rfl⟩ := List.mem_map.mp hn
    refine blank_collapse fun m hm => ?_
    rcases mem_stream (mem_of_mem_cells hrun hm) with rfl | rfl | ⟨c, hc, hm⟩
    · rw [blank_eq]
      rfl
    · rw [blank_eq]
      rfl
    · exact blank_contents (h c hc) hm

theorem blank_settle {n : Node} (h : ∀ c ∈ n.children, c.blank = c) : n.settle.blank = n.settle := by
  have hslot : ∀ stop, ∀ s ∈ n.children, (s.slot stop).blank = s.slot stop :=
    fun stop s hs => blank_slot (h s hs)
  refine blank_eq_self ?_ ?_
  · cases n <;> simp [settle, withId, id?]
  · intro c hc
    cases n with
    | array id rows align => exact blank_cutCells h hc
    | frac id numerator denominator =>
      simp only [settle, children, List.mem_cons, List.not_mem_nil, or_false] at hc
      rcases hc with rfl | rfl <;> exact hslot _ _ (by simp [children])
    | script id base sub sup =>
      simp only [settle, children, List.mem_cons, List.mem_append, Option.mem_toList,
        Option.map_eq_some_iff] at hc
      rcases hc with rfl | ⟨s, hs, rfl⟩ | ⟨s, hs, rfl⟩
      · exact h c (by simp [children])
      · exact hslot _ s (by simp [children, hs])
      · exact hslot _ s (by simp [children, hs])
    | root id body index =>
      simp only [settle, children, List.mem_cons, Option.mem_toList,
        Option.map_eq_some_iff] at hc
      rcases hc with rfl | ⟨s, hs, rfl⟩
      · exact hslot _ _ (by simp [children])
      · exact hslot _ s (by simp [children, hs])
    | brace | box | strike =>
      obtain rfl := List.mem_singleton.mp hc
      exact hslot _ _ (by simp [children])
    | _ => exact h c hc

/-- What a reader makes of markup has no ids. -/
theorem blank_reread (n : Node) : n.reread.blank = n.reread := by
  induction n using childrenInduction with
  | step n ih =>
    rw [reread_eq]
    refine blank_settle fun c hc => ?_
    rw [mapChildren, children_withChildren (by simp)] at hc
    obtain ⟨m, hm, rfl⟩ := List.mem_map.mp hc
    exact ih m hm

end Node

end FormulaDoc
