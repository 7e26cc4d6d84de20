import FormulaDoc.Proofs.RoundTrip

namespace FormulaDoc

/-- A text under a tag. -/
def tag (id s : String) : String :=
  "\\cssId\x7b" ++ id ++ "\x7d\x7b" ++ s ++ "\x7d"

theorem toList_tag (id s : String) :
    (tag id s).toList = "\\cssId".toList ++ '{' :: (id.toList ++ '}' :: '{' :: (s.toList ++ ['}'])) := by
  simp [tag]

namespace Node

/-- The leaves whose ids are read back from a tag. -/
def isTagged : Node → Bool
  | symbol .. | op .. => true
  | _ => false

def dressLeaf : Node → Node
  | symbol id value => symbol id (tag id value)
  | op id operator limits => op id (tag id (operator ++ if limits then "\\limits" else "")) false
  | var id latex => var id (tag id latex)
  | n => n

/-- The tree with the tags of its leaves as parts of their values. Texts have no tags. -/
def dress (n : Node) : Node :=
  if n.isBranch then n.withChildren (n.children.attach.map fun ⟨c, _⟩ => c.dress) else n.dressLeaf
termination_by n.size
decreasing_by exact size_lt_of_mem ‹_›

/-- The tree with the ids that its tags have and no others. -/
def tagsOnly (n : Node) : Node :=
  if n.isBranch then (n.withChildren (n.children.attach.map fun ⟨c, _⟩ => c.tagsOnly)).withId ""
  else if n.isTagged then n else n.blank
termination_by n.size
decreasing_by exact size_lt_of_mem ‹_›

variable {n : Node}

theorem dress_branch (h : n.isBranch) : n.dress = n.mapChildren dress := by
  rw [dress, if_pos h]
  simp [mapChildren]

theorem dress_leaf (h : n.isBranch = false) : n.dress = n.dressLeaf := by
  rw [dress, h]
  rfl

theorem tagsOnly_branch (h : n.isBranch) : n.tagsOnly = (n.mapChildren tagsOnly).withId "" := by
  rw [tagsOnly, if_pos h]
  simp [mapChildren]

theorem tagsOnly_tagged (h : n.isTagged) : n.tagsOnly = n := by
  cases n with
  | symbol | op => rw [tagsOnly]; rfl
  | _ => cases h

theorem tagsOnly_leaf (h : n.isBranch = false) (h' : n.isTagged = false) : n.tagsOnly = n.blank := by
  rw [tagsOnly, h, h']
  rfl

theorem isTagged_eq_of_kind {m n : Node} (h : m.kind = n.kind) : m.isTagged = n.isTagged := by
  cases m <;> cases n <;> first | rfl | cases h

theorem children_eq_nil_of_isTagged (h : n.isTagged) : n.children = [] := by
  cases n <;> first | rfl | cases h

theorem kind_dressLeaf (n : Node) : n.dressLeaf.kind = n.kind := by
  cases n <;> rfl

theorem kind_dress (n : Node) : n.dress.kind = n.kind := by
  cases h : n.isBranch with
  | true => rw [dress_branch h, kind_mapChildren]
  | false => rw [dress_leaf h, kind_dressLeaf]

theorem dress_group (id : String) (body : List Node) :
    (group id body).dress = group id (body.map dress) :=
  dress_branch rfl

/-- A tree without some ids has the shape of the tree. -/
theorem shape_tagsOnly (n : Node) : n.tagsOnly.shape = n.shape := by
  cases h : n.isBranch with
  | true => rw [tagsOnly_branch h, shape_withId, shape_mapChildren]
  | false =>
    cases h' : n.isTagged with
    | true => rw [tagsOnly_tagged h']
    | false => rw [tagsOnly_leaf h h', shape_blank]

theorem kind_tagsOnly (n : Node) : n.tagsOnly.kind = n.kind :=
  kind_eq_of_shape n.shape_tagsOnly

theorem unlabelsGroups_tagsOnly : UnlabelsGroups tagsOnly :=
  ⟨kind_tagsOnly, fun _ _ => tagsOnly_branch rfl⟩

/-- The nodes with tags are those of the tree. -/
theorem filter_outer_tagsOnly (n : Node) : n.tagsOnly.outer.filter isTagged = n.outer.filter isTagged := by
  induction n using childrenInduction with
  | step n ih =>
    cases htag : n.isTagged with
    | true => rw [tagsOnly_tagged htag]
    | false =>
      have htag' : n.tagsOnly.isTagged = false := by rw [isTagged_eq_of_kind n.kind_tagsOnly, htag]
      rw [outer_eq, outer_eq n, List.filter_cons_of_neg (by simp [htag']),
        List.filter_cons_of_neg (by simp [htag]), kind_tagsOnly]
      cases hbranch : n.isBranch with
      | true =>
        have htext := kind_ne_text_of_isBranch hbranch
        rw [if_neg htext, if_neg htext, tagsOnly_branch hbranch, children_withId, children_mapChildren,
          List.flatMap_map, List.filter_flatMap, List.filter_flatMap]
        exact List.flatMap_congr ih
      | false =>
        rw [tagsOnly_leaf hbranch htag, children_blank]
        cases n <;> first | rfl | cases hbranch

theorem pieces_render (h : n.isBranch) (asArg : Bool) :
    n.pieces .render asArg = n.pieces .ast asArg := by
  cases n <;> first | rfl | cases h

/-- The rendered markup of a tree is the plain markup of the dressed tree. -/
theorem markup_dress (n : Node) (asArg : Bool) : n.dress.markup .ast asArg = n.markup .render asArg := by
  induction n using childrenInduction generalizing asArg with
  | step n ih =>
    cases h : n.isBranch with
    | true =>
      have hempty : ∀ c ∈ n.children, c.dress.isEmptyGroup = c.isEmptyGroup := by
        intro c _
        refine isEmptyGroup_map c.kind_dress ?_
        rintro id body rfl
        exact ⟨id, dress_group id body⟩
      rw [dress_branch h, markup_eq, markup_eq, pieces_render h,
        pieces_mapChildren (fun c _ => c.kind_dress) hempty, List.flatMap_map]
      refine List.flatMap_congr fun p hp => ?_
      cases p with
      | lit s => rfl
      | child c a m =>
        obtain rfl : m = none := by
          rcases ownMode_of_mem_pieces hp with hm | ⟨-, hk⟩
          · exact hm
          · exact absurd hk (kind_ne_text_of_isBranch h)
        exact ih c (mem_children_of_piece hp) a
    | false =>
      rw [dress_leaf h, markup_eq, markup_eq]
      cases n with
      | symbol | op | var => simp [dressLeaf, pieces, Piece.tagged, Piece.markup, tag]
      | text id body => simp [dressLeaf, pieces, Piece.markup, List.flatMap_map]
      | space | newLine | alignMark => rfl
      | _ => cases h

theorem spelledAt_dress (h : n.spelledAt []) (hbranch : n.isBranch) (hkind : n.kind ≠ .script) :
    n.dress.spelledAt [] := by
  rw [dress_branch hbranch]
  cases n with
  | symbol | space | text | op | newLine | alignMark | var => cases hbranch
  | script => exact absurd rfl hkind
  | array id rows align =>
    rw [mapChildren_array]
    simpa [spelledAt] using h
  | root id body index => rw [mapChildren_root]; rfl
  | _ => rfl

/-- A leaf with a tag is written as the tag around the leaf. -/
theorem ast_dress_tagged (h : n.isTagged) {id : String} (hid : n.id? = some id) :
    n.dress.ast = "\\cssId".toList ++ '{' :: (id.toList ++ '}' :: '{' :: (n.ast ++ ['}'])) := by
  cases n with
  | symbol id' value =>
    obtain rfl : id' = id := by simpa [id?] using hid
    rw [dress_leaf rfl, dressLeaf, ast_symbol, ast_symbol, toList_tag]
  | op id' operator limits =>
    obtain rfl : id' = id := by simpa [id?] using hid
    rw [dress_leaf rfl, dressLeaf, ast_op, ast_op, toList_tag, String.toList_append]
    simp
  | _ => cases h

theorem exists_id_of_isTagged (h : n.isTagged) : ∃ id, n.id? = some id := by
  cases n with
  | symbol id | op id => exact ⟨id, rfl⟩
  | _ => cases h

theorem command?_dress_tagged (h : n.isTagged) :
    ∃ after, command? n.dress.ast = some ("\\cssId".toList, after) := by
  obtain ⟨id, hid⟩ := exists_id_of_isTagged h
  rw [ast_dress_tagged h hid]
  exact ⟨_, rfl⟩

theorem dress_eq_self (hbranch : n.isBranch = false) (htag : n.isTagged = false)
    (h : n.spelledAt []) : n.dress = n := by
  rw [dress_leaf hbranch]
  cases n with
  | symbol | op => cases htag
  | var => simp [spelledAt] at h
  | _ => rfl

/-- A dressed tree begins like an item. -/
theorem begins_dress (h : n.Spelled []) : Starts n.dress.ast := by
  induction n using childrenInduction with
  | step n ih =>
    cases htag : n.isTagged with
    | true =>
      obtain ⟨after, hs⟩ := command?_dress_tagged htag
      exact .inr ⟨_, after, hs, by rw [String.ofList_toList]; decide⟩
    | false =>
      cases hbranch : n.isBranch with
      | false =>
        rw [dress_eq_self hbranch htag h.self]
        exact (opening_ast h.outlined).starts
      | true =>
        by_cases hscript : n.kind = .script
        · cases n with
          | script id base sub sup =>
            have hbase : base.Spelled [] := h.child (by simp [kind]) (by simp [children])
            rw [dress_branch rfl, mapChildren_script]
            exact opensBut_script id (ih base (by simp [children]) hbase)
          | _ => cases hscript
        · have hspelled := spelledAt_dress h.self hbranch hscript
          have hkind : n.dress.kind ≠ .script := by rwa [kind_dress]
          exact (begins hspelled hkind).opening.starts

theorem holds_dress_of_kind_ne {stop : Stop} (h : n.Spelled []) (hscript : n.kind ≠ .script)
    (hcell : stop = .cell → n.isMark = false) : stop.holds n.dress.ast = false := by
  cases hbranch : n.isBranch with
  | true =>
    refine goesOn_of_branch (spelledAt_dress h.self hbranch hscript) ?_ ?_ stop
    · rw [isBranch_eq_of_kind n.kind_dress, hbranch]
    · rwa [kind_dress]
  | false =>
    cases htag : n.isTagged with
    | true =>
      obtain ⟨after, hs⟩ := command?_dress_tagged htag
      exact Stop.holds_of_command (begins_dress h) hs (by decide)
    | false =>
      rw [dress_eq_self hbranch htag h.self]
      cases n with
      | symbol | op => cases htag
      | var => exact absurd h.self (by simp [spelledAt])
      | text id body => rw [ast_text]; cases stop <;> rfl
      | space id s =>
        have hs : s ∈ spacingCommands := by simpa [spelledAt] using h.self
        have hcommand : command? (space id s).ast = some (s.toList, []) := by
          rw [ast_space, command?_spacing s hs]
        refine Stop.holds_of_command (opening_ast h.outlined).starts hcommand ?_
        have hlines : ∀ s ∈ spacingCommands, s.toList ≠ ['\\', '\\'] := by decide
        exact hlines s hs
      | newLine => rw [ast_newLine]; cases stop <;> first | rfl | cases hcell rfl
      | alignMark => rw [ast_alignMark]; cases stop <;> first | rfl | cases hcell rfl
      | _ => cases hbranch

/-- No run ends in front of a dressed tree, but a cell in front of its separators. -/
theorem holds_dress {stop : Stop} (h : n.Spelled []) (hcell : stop = .cell → n.separates = false) :
    stop.holds n.dress.ast = false := by
  by_cases hscript : n.kind = .script
  · cases n with
    | script id base sub sup =>
      have hbase : base.Spelled [] := h.child (by simp [kind]) (by simp [children])
      rw [dress_branch rfl, mapChildren_script, Stop.holds_script (begins_dress hbase)]
      unfold braced
      rw [kind_dress]
      split
      next =>
        rw [ast_group]
        cases stop <;> rfl
      next hk => exact holds_dress_of_kind_ne hbase hk hcell
    | _ => cases hscript
  · exact holds_dress_of_kind_ne h hscript fun hs => by rw [← separates_of_kind_ne hscript, hcell hs]

end Node

theorem toList_latex_render (f : Formula) :
    (f.latex .render).toList = joined (f.children.map Node.dress) := by
  rw [Formula.latex, f.layout_eq, Layout.toList_textAll, List.flatMap_map, ← flatMap_spaced,
    ← Node.map_spaced, List.flatMap_map]
  refine List.flatMap_congr fun p hp => ?_
  have hmode := Piece.ownMode_of_mem_spaced hp
  cases p with
  | lit s => rfl
  | child c a m =>
    obtain rfl : m = none := hmode
    exact (c.markup_dress a).symm

end FormulaDoc
