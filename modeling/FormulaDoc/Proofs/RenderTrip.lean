import FormulaDoc.Proofs.Tagging

namespace FormulaDoc

namespace Node

variable {n : Node}

/-- A leaf is read from its tag with its id. -/
theorem readsAlone_tagged (h : n.spelledAt []) (htag : n.isTagged) {id : String}
    (hid : n.id? = some id) (hname : Verbatim id) : ReadsAlone n.dress.ast n := by
  have hleaf : n.isBranch = false ∧ n.kind ≠ .script ∧ n.reread.withId id = n ∧
      n.reread.id?.isSome := by
    cases n with
    | symbol id' value =>
      obtain rfl : id' = id := by simpa [id?] using hid
      rw [reread_symbol]
      exact ⟨rfl, by simp [kind], rfl, rfl⟩
    | op id' operator limits =>
      obtain rfl : id' = id := by simpa [id?] using hid
      rw [reread_eq]
      exact ⟨rfl, by simp [kind], rfl, rfl⟩
    | _ => cases htag
  obtain ⟨hbranch, hscript, hwith, hsome⟩ := hleaf
  have hstarts : Starts n.ast := (begins h hscript).opening.starts
  have hrun : Writing.plain.RunReads .brace [n] := fun c hc => by
    obtain rfl := List.mem_singleton.mp hc
    exact ⟨hstarts, (readsAlone_leaf h hbranch).readsItem, hstarts.holds_brace⟩
  intro w hw
  have hread : readBraced (siblings []) ('{' :: (n.ast ++ '}' :: w)) = .ok ([n.reread], w) := by
    have hjoined : joined ([n].map Writing.plain.write) = n.ast := List.append_nil _
    rw [← hjoined]
    exact Writing.readBraced_run hrun w
  have htagged := ReadsCommand.tag (hname.readName _) hread hsome
  rw [hwith] at htagged
  rw [ast_dress_tagged htag hid]
  simp only [List.append_assoc, List.cons_append, List.nil_append]
  exact readsCommand_ast "\\cssId" rfl htagged

theorem tagsOnly_eq_reread (hbranch : n.isBranch = false) (htag : n.isTagged = false)
    (h : n.spelledAt []) : n.tagsOnly = n.reread := by
  rw [tagsOnly_leaf hbranch htag]
  cases n with
  | text id body => rw [blank_text, reread_text, reread_letters h]
  | space | newLine | alignMark =>
    rw [blank_eq, reread_eq]
    rfl
  | var => simp [spelledAt] at h
  | symbol | op => cases htag
  | _ => cases hbranch

/-- What a reader makes of rendered markup: the tree with its slots filled as a reader fills them, and with
the ids of its tags. -/
def retag (n : Node) : Node :=
  if n.isBranch then (n.withChildren (n.children.attach.map fun ⟨c, _⟩ => c.retag)).settle
  else n.tagsOnly
termination_by n.size
decreasing_by exact size_lt_of_mem ‹_›

theorem retag_branch (h : n.isBranch) : n.retag = (n.mapChildren retag).settle := by
  rw [retag, if_pos h]
  simp [mapChildren]

theorem retag_leaf (h : n.isBranch = false) : n.retag = n.tagsOnly := by
  rw [retag, h]
  rfl

theorem kind_retag (n : Node) : n.retag.kind = n.kind := by
  cases h : n.isBranch with
  | true => rw [retag_branch h, kind_settle, kind_mapChildren]
  | false => rw [retag_leaf h, kind_tagsOnly]

theorem unlabelsGroups_retag : UnlabelsGroups retag :=
  ⟨kind_retag, fun _ _ => retag_branch rfl⟩

/-- A node whose slots are read as they are keeps its children. -/
theorem retag_of_fills (hbranch : n.isBranch) (hspelled : n.spelledAt [])
    (h : ∀ stop s, (stop, s) ∈ n.arguments → s.Fills stop) :
    n.retag = (n.mapChildren retag).withId "" := by
  rw [retag_branch hbranch, unlabelsGroups_retag.settle_mapChildren hspelled h]

theorem retag_eq_tagsOnly (h : ∀ m ∈ n.outer, m.CanonicalAt) : n.retag = n.tagsOnly := by
  induction n using childrenInduction with
  | step n ih =>
    cases hbranch : n.isBranch with
    | true =>
      have hself := h n n.self_mem_outer
      have hkind : n.kind ≠ .text := kind_ne_text_of_isBranch hbranch
      have heach : ∀ c ∈ n.children, c.retag = c.tagsOnly := fun c hc =>
        ih c hc fun m hm => h m (mem_outer_of_child hkind hc hm)
      have hbelow : n.mapChildren retag = n.mapChildren tagsOnly := mapChildren_congr heach
      rw [retag_of_fills hbranch hself.spelled hself.fills, hbelow, tagsOnly_branch hbranch]
    | false => exact retag_leaf hbranch

end Node

/-- Trees as they are written with the ids of their leaves. -/
def Writing.rendered : Writing where
  write := Node.dress
  read := Node.retag
  kind_write := Node.kind_dress
  kind_read := Node.kind_retag

namespace Node

variable {n : Node}

/-- A node whose id, if it is a symbol or an operator, is not empty and is given back by a tag. -/
def Tagged (n : Node) : Prop :=
  n.isTagged → ∀ id ∈ n.id?, id ≠ "" ∧ Verbatim id

instance (n : Node) : Decidable n.Tagged :=
  inferInstanceAs (Decidable (_ → _))

/-- A node whose own rendered markup is read as it was written. -/
structure RendersAt (n : Node) : Prop where
  spelled : n.spelledAt []
  names : ∀ c ∈ n.names, Verbatim c
  tagged : n.Tagged
  cells : ∀ s, (.cell, s) ∈ n.arguments → ∀ c ∈ contents .cell s, c.separates = false

theorem CanonicalAt.rendersAt (h : n.CanonicalAt) (htag : n.Tagged) : n.RendersAt := by
  refine ⟨h.spelled, h.names, htag, ?_⟩
  intro s hs
  exact (h.fills .cell s hs).2 rfl

theorem shows_rendered (h : n.RendersAt) (hspelled : n.Spelled []) : Writing.rendered.Shows n where
  spelled := h.spelled
  names := h.names
  runs stop run hrun c hc := by
    obtain ⟨s, hs, rfl⟩ := exists_argument_of_mem_runs h.spelled h.cells hrun
    have hchild : s.Spelled [] :=
      hspelled.child (kind_ne_text_of_isBranch (isBranch_of_arguments hs)) (mem_children_of_arguments hs)
    refine holds_dress (Spelled.of_mem_contents hchild hc) ?_
    rintro rfl
    exact h.cells s hs c hc
  starts := begins_dress hspelled
  leaf hbranch := by
    show ReadsAlone n.dress.ast n.retag
    rw [retag_leaf hbranch]
    cases ht : n.isTagged with
    | true =>
      obtain ⟨id, hid⟩ := exists_id_of_isTagged ht
      rw [tagsOnly_tagged ht]
      exact readsAlone_tagged h.spelled ht hid (h.tagged ht id hid).2
    | false =>
      rw [dress_eq_self hbranch ht h.spelled, tagsOnly_eq_reread hbranch ht h.spelled]
      exact readsAlone_leaf h.spelled hbranch
  write_eq := dress_branch
  read_eq := retag_branch

/-- Rendered markup shows every node of a tree that is read as it was written. -/
theorem reproduces_rendered (h : ∀ m ∈ n.outer, m.RendersAt) : Writing.rendered.Reproduces n := by
  intro m hm
  have hspelled : m.Spelled [] := fun k hk => (h k (mem_outer_trans hm hk)).spelled
  exact shows_rendered (h m hm) hspelled

end Node

namespace Node

variable {m n : Node}

/-- Trees of one shape are the same up to ids without tags if they have the same tag themselves and
their children are the same in this way. -/
theorem tagsOnly_ext (hs : m.shape = n.shape) (htag : n.isTagged → m.id? = n.id?)
    (hbranch : n.isBranch → m.children.map tagsOnly = n.children.map tagsOnly)
    (hleaf : n.isBranch = false → m.children.map blank = n.children.map blank) :
    m.tagsOnly = n.tagsOnly := by
  have hkind := kind_eq_of_shape hs
  cases hb : n.isBranch with
  | true =>
    have hb' : m.isBranch = true := by rw [isBranch_eq_of_kind hkind, hb]
    rw [tagsOnly_branch hb, tagsOnly_branch hb']
    refine ext_iff.mpr ⟨?_, ?_, ?_⟩
    · rw [shape_withId, shape_withId, shape_mapChildren, shape_mapChildren, hs]
    · have hid := id?_isSome_eq_of_shape hs
      rw [id?_withId, id?_withId, id?_mapChildren, id?_mapChildren]
      cases hm : m.id? <;> cases hn : n.id? <;> simp [hm, hn] at hid ⊢
    · rw [children_withId, children_withId, children_mapChildren, children_mapChildren, hbranch hb]
  | false =>
    have hb' : m.isBranch = false := by rw [isBranch_eq_of_kind hkind, hb]
    cases ht : n.isTagged with
    | true =>
      have ht' : m.isTagged = true := by rw [isTagged_eq_of_kind hkind, ht]
      rw [tagsOnly_tagged ht, tagsOnly_tagged ht']
      refine ext_iff.mpr ⟨hs, htag ht, ?_⟩
      rw [children_eq_nil_of_isTagged ht, children_eq_nil_of_isTagged ht']
    | false =>
      have ht' : m.isTagged = false := by rw [isTagged_eq_of_kind hkind, ht]
      rw [tagsOnly_leaf hb ht, tagsOnly_leaf hb' ht']
      exact blank_ext hs (hleaf hb)

theorem blank_tagsOnly (n : Node) : n.tagsOnly.blank = n.blank := by
  induction n using childrenInduction with
  | step n ih =>
    cases hb : n.isBranch with
    | true =>
      refine blank_ext n.shape_tagsOnly ?_
      rw [tagsOnly_branch hb, children_withId, children_mapChildren, List.map_map]
      exact List.map_congr_left ih
    | false =>
      cases ht : n.isTagged with
      | true => rw [tagsOnly_tagged ht]
      | false => rw [tagsOnly_leaf hb ht, blank_blank]

theorem slots_tagsOnly (n : Node) : n.tagsOnly.slots = n.slots := by
  rw [← slots_blank, blank_tagsOnly, slots_blank]

/-- Labels do not change the ids of tags. -/
theorem tagsOnly_relabel (path : String) (h : ∀ m ∈ n.outer, m.Tagged) :
    (n.tagsOnly.relabel true path).tagsOnly = n.tagsOnly := by
  induction n using childrenInduction generalizing path with
  | step n ih =>
    have hself := h n n.self_mem_outer
    rw [tagsOnly_ext (n := n)]
    · rw [shape_relabel, shape_tagsOnly]
    · intro ht
      obtain ⟨id, hid⟩ := exists_id_of_isTagged ht
      rw [tagsOnly_tagged ht, id?_relabel, hid, Option.map_some]
      simp [pathId, (hself ht id hid).1]
    · intro hb
      rw [children_relabel, slots_tagsOnly, tagsOnly_branch hb, children_withId, children_mapChildren,
        List.zipWith_map_left, List.map_zipWith]
      rw [← zipWith_slots tagsOnly]
      exact zipWith_congr fun c hc slot =>
        ih c hc _ fun m hm => h m (mem_outer_of_child (kind_ne_text_of_isBranch hb) hc hm)
    · intro _
      rw [← children_blank, ← children_blank, blank_relabel, blank_tagsOnly]

theorem eq_path_of_relabel {path id : String} (h : n.relabel false path = n) (hid : n.id? = some id) :
    id = path := by
  have hpath := id?_relabel false path n
  rw [h, hid, Option.map_some, Option.some.injEq] at hpath
  exact hpath

theorem relabel_getElem {path : String} (h : n.relabel false path = n) {i : Nat}
    (hi : i < n.children.length) (hi' : i < n.slots.length) :
    n.children[i].relabel false (path ++ "." ++ n.slots[i]) = n.children[i] := by
  have hpath : pathId false path (n.id?.getD "") = path := by simp [pathId]
  have hchildren := children_relabel false path n
  rw [h, hpath] at hchildren
  have hget := List.getElem_of_eq hchildren hi
  rw [List.getElem_zipWith] at hget
  exact hget.symm

/-- Path ids come back when labels fill in those that have no tags. -/
theorem relabel_tagsOnly {path : String} (h : n.relabel false path = n) :
    n.tagsOnly.relabel true path = n := by
  induction n using childrenInduction generalizing path with
  | step n ih =>
    cases hb : n.isBranch with
    | false =>
      cases ht : n.isTagged with
      | false => rw [tagsOnly_leaf hb ht, relabel_blank, h]
      | true =>
        obtain ⟨id, hid⟩ := exists_id_of_isTagged ht
        obtain rfl := eq_path_of_relabel h hid
        rw [tagsOnly_tagged ht]
        refine ext_iff.mpr ⟨shape_relabel true id n, ?_, ?_⟩
        · rw [id?_relabel, hid, Option.map_some, pathId]
          split <;> rfl
        · rw [children_relabel, children_eq_nil_of_isTagged ht, List.zipWith_nil_left]
    | true =>
      obtain ⟨id, hid⟩ := exists_id_of_isBranch hb
      obtain rfl := eq_path_of_relabel h hid
      have hblank : n.tagsOnly.id? = some "" := by
        rw [tagsOnly_branch hb, id?_withId, id?_mapChildren, hid, Option.map_some]
      have hpath : pathId true id "" = id := rfl
      refine ext_iff.mpr ⟨by rw [shape_relabel, shape_tagsOnly], ?_, ?_⟩
      · rw [id?_relabel, hblank, hid, Option.map_some, hpath]
      · rw [children_relabel, hblank, Option.getD_some, hpath, slots_tagsOnly, tagsOnly_branch hb,
          children_withId, children_mapChildren, List.zipWith_map_left]
        refine List.ext_getElem (by simp [length_slots]) fun i hi hi' => ?_
        have hslot : i < n.slots.length := n.length_slots.symm ▸ hi'
        rw [List.getElem_zipWith]
        exact ih _ (List.getElem_mem hi') (relabel_getElem h hi' hslot)

end Node

namespace Formula

/-- Symbols and operators outside of texts have ids that their tags give back. -/
def Tagged (f : Formula) : Prop :=
  ∀ n ∈ f.children.flatMap Node.outer, n.Tagged

instance (f : Formula) : Decidable f.Tagged :=
  inferInstanceAs (Decidable (∀ n ∈ f.children.flatMap Node.outer, n.Tagged))

/-- The symbols and operators outside of texts, from left to right. -/
def tags (f : Formula) : List Node :=
  (f.children.flatMap Node.outer).filter Node.isTagged

variable {f : Formula}

theorem readNodes_render (h : ∀ n ∈ f.children.flatMap Node.outer, n.RendersAt) :
    readNodes [] (f.latex .render) = .ok (f.children.map Node.retag) := by
  have hreproduces : ∀ n ∈ f.children, Writing.rendered.Reproduces n := fun n hn =>
    Node.reproduces_rendered fun m hm => h m (List.mem_flatMap.mpr ⟨n, hn, hm⟩)
  exact Writing.readNodes_joined hreproduces (toList_latex_render f)

theorem Canonical.rendersAt (h : f.Canonical) (htags : f.Tagged) :
    ∀ n ∈ f.children.flatMap Node.outer, n.RendersAt :=
  fun n hn => (h n hn).rendersAt (htags n hn)

/-- The rendered markup of a canonical formula is read with the ids of its tags. -/
theorem Canonical.readNodes_render (h : f.Canonical) (htags : f.Tagged) :
    readNodes [] (f.latex .render) = .ok (f.children.map Node.tagsOnly) := by
  have hretag : f.children.map Node.retag = f.children.map Node.tagsOnly :=
    List.map_congr_left fun n hn => Node.retag_eq_tagsOnly fun m hm =>
      h m (List.mem_flatMap.mpr ⟨n, hn, hm⟩)
  rw [Formula.readNodes_render (h.rendersAt htags), hretag]

theorem map_tagsOnly_labelNodes (htags : f.Tagged) :
    (labelNodes true (f.children.map Node.tagsOnly)).map Node.tagsOnly =
      f.children.map Node.tagsOnly := by
  refine List.ext_getElem (by simp [labelNodes]) fun i hi hi' => ?_
  simp only [labelNodes, List.getElem_map, List.getElem_mapIdx]
  refine Node.tagsOnly_relabel _ fun m hm => htags m ?_
  exact List.mem_flatMap.mpr ⟨_, List.getElem_mem (by simpa using hi'), hm⟩

theorem labelNodes_tagsOnly (h : f.assignPathIds = .ok f) :
    labelNodes true (f.children.map Node.tagsOnly) = f.children := by
  have hlabels : labelNodes false f.children = f.children := (children_of_ofNodes h).symm
  refine List.ext_getElem (by simp [labelNodes]) fun i hi hi' => ?_
  have hget := List.getElem_of_eq hlabels (i := i) (by simpa [labelNodes] using hi')
  simp only [labelNodes, List.getElem_map, List.getElem_mapIdx] at hget ⊢
  exact Node.relabel_tagsOnly hget

theorem tags_eq {g : Formula} (h : g.children.map Node.tagsOnly = f.children.map Node.tagsOnly) :
    g.tags = f.tags := by
  have htags : ∀ ns : List Node, ((ns.map Node.tagsOnly).flatMap Node.outer).filter Node.isTagged =
      (ns.flatMap Node.outer).filter Node.isTagged := by
    intro ns
    rw [List.flatMap_map, List.filter_flatMap, List.filter_flatMap]
    exact List.flatMap_congr fun n _ => n.filter_outer_tagsOnly
  rw [tags, tags, ← htags, h, htags]

theorem latex_ast_eq {g : Formula} (h : g.children.map Node.tagsOnly = f.children.map Node.tagsOnly) :
    g.latex .ast = f.latex .ast := by
  have hjoined : ∀ ns : List Node, joined (ns.map Node.tagsOnly) = joined ns := fun ns =>
    joined_congr fun n _ => Node.ast_eq_of_blank n.blank_tagsOnly
  rw [← String.toList_inj, toList_latex, toList_latex, ← hjoined, h, hjoined]

/-- Rendered markup carries the ids of its tags through a parse. Unless two nodes come to share an id,
the formula that is read is written the same way, and it has the same symbols and operators with the
same ids in the same places. A formula under path ids is read as itself. -/
theorem Canonical.parse_latex_render (h : f.Canonical) (htags : f.Tagged) :
    ((∃ d, Formula.parse [] (f.latex .render) = .error (.duplicate d)) ∨
      ∃ g, Formula.parse [] (f.latex .render) = .ok g ∧ g.latex .ast = f.latex .ast ∧
        g.tags = f.tags ∧ g.children.map Node.tagsOnly = f.children.map Node.tagsOnly) ∧
    (f.assignPathIds = .ok f → Formula.parse [] (f.latex .render) = .ok f) := by
  have hread := h.readNodes_render htags
  rw [Formula.parse, hread]
  dsimp only
  constructor
  · cases hg : ofNodes (labelNodes true (f.children.map Node.tagsOnly)) with
    | error d => exact .inl ⟨d, rfl⟩
    | ok g =>
      have hchildren : g.children.map Node.tagsOnly = f.children.map Node.tagsOnly := by
        rw [children_of_ofNodes hg, map_tagsOnly_labelNodes htags]
      have hlatex : g.latex .ast = f.latex .ast := latex_ast_eq hchildren
      have hsame : g.tags = f.tags := tags_eq hchildren
      exact .inr ⟨g, rfl, hlatex, hsame, hchildren⟩
  · intro hpath
    rw [labelNodes_tagsOnly hpath, ofNodes_eq_ok f.nodup]

/-- A sum with a script, a fraction, a text and an array with an empty cell, all under path ids. -/
theorem parse_latex_render_of_fraction : ∃ f : Formula,
    f.children = [.script "0" (.op "0.base" "\\sum" true) (some (.symbol "0.sub" "n")) none,
      .frac "1" (.symbol "1.numerator" "x") (.script "1.denominator" (.symbol "1.denominator.base" "y") none
        (some (.symbol "1.denominator.sup" "2"))),
      .text "2" [.symbol "2.0" "\x7b"],
      .array "3" [[.symbol "3.0.0" "1", .group "3.0.1" []]] (some "rl")] ∧
    f.Canonical ∧ f.Tagged ∧ f.assignPathIds = .ok f ∧
    Formula.parse [] (f.latex .render) = .ok f := by
  let f : Formula := ⟨[.script "0" (.op "0.base" "\\sum" true) (some (.symbol "0.sub" "n")) none,
    .frac "1" (.symbol "1.numerator" "x") (.script "1.denominator" (.symbol "1.denominator.base" "y") none
      (some (.symbol "1.denominator.sup" "2"))),
    .text "2" [.symbol "2.0" "\x7b"],
    .array "3" [[.symbol "3.0.0" "1", .group "3.0.1" []]] (some "rl")], by decide +kernel⟩
  have hcanonical : f.Canonical := by decide +kernel
  have htags : f.Tagged := by decide +kernel
  have hpath : f.assignPathIds = .ok f := by
    rw [f.assignPathIds_eq_ok]
    have hlabels : labelNodes false f.children = f.children := by decide +kernel
    simp only [hlabels]
  exact ⟨f, rfl, hcanonical, htags, hpath, (hcanonical.parse_latex_render htags).2 hpath⟩

/-- A tag can name the path of another node. -/
example : Formula.parse [] (latex ⟨[.symbol "1" "x", .group "g" []], by decide +kernel⟩ .render) =
    .error (.duplicate ⟨"1"⟩) := by
  decide +kernel

end Formula

end FormulaDoc
