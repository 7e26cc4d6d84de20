import FormulaDoc.Proofs.KeptIds
import FormulaDoc.Proofs.Painting

namespace FormulaDoc

namespace Node

/-- A change of the names that colors and boxes have. -/
structure Recolors (g : Node → Node) : Prop extends Repaints g where
  other : ∀ n, n.kind ≠ .color → n.kind ≠ .box → g n = n
  spelledAt : ∀ n, (g n).spelledAt [] = n.spelledAt []
  arguments : ∀ n, (g n).arguments = n.arguments
  slots : ∀ n, (g n).slots = n.slots

theorem recolors_id : Recolors id :=
  ⟨repaints_id, fun _ _ _ => rfl, fun _ => rfl, fun _ => rfl, fun _ => rfl⟩

theorem recolors_recolor (c : String) : Recolors (recolor c) where
  toRepaints := repaints_recolor c
  other _ h _ := recolor_of_kind h
  spelledAt n := by cases n <;> rfl
  arguments n := by cases n <;> rfl
  slots n := by cases n <;> rfl

theorem recolors_rebox (border background : String) : Recolors (rebox border background) where
  toRepaints := repaints_rebox border background
  other _ _ h := rebox_of_kind h
  spelledAt n := by cases n <;> rfl
  arguments n := by cases n <;> rfl
  slots n := by cases n <;> rfl

theorem Recolors.paintOn {g : Node → Node} (h : Recolors g) (ids : List String) :
    Recolors (paintOn ids g) where
  toRepaints := h.toRepaints.paintOn ids
  other n hcolor hbox := by
    rw [Node.paintOn, h.other n hcolor hbox, ite_self]
  spelledAt := apply_paintOn h.spelledAt ids
  arguments := apply_paintOn h.arguments ids
  slots := apply_paintOn h.slots ids

/-- A tree that is read in each slot as it is, if another one is. -/
structure StandsFor (m n : Node) : Prop where
  single : m.isSingleGroup → n.isSingleGroup
  scriptGroup : m.isScriptGroup → n.isScriptGroup
  cells : ∀ c ∈ contents .cell m, c.separates → ∃ d ∈ contents .cell n, d.separates

theorem StandsFor.fills {m n : Node} {stop : Stop} (h : m.StandsFor n) (hn : n.Fits stop) :
    m.Fills stop := by
  refine ⟨Bool.eq_false_iff.mpr fun hm => ?_, ?_⟩
  · have hsingle := h.single hm
    rw [hn.1] at hsingle
    cases hsingle
  · rintro rfl c hc
    refine Bool.eq_false_iff.mpr fun hsep => ?_
    obtain ⟨d, hd, hsep⟩ := h.cells c hc hsep
    rw [hn.separates hd] at hsep
    cases hsep

theorem spelledAt_mapChildren {h : Node → Node} {n : Node} (hbranch : n.isBranch)
    (hspelled : n.spelledAt []) (hchildren : ∀ c ∈ n.children, (h c).StandsFor c) :
    (n.mapChildren h).spelledAt [] := by
  cases n with
  | script id base sub sup =>
    rw [mapChildren_script]
    have hself : (sub.isSome || sup.isSome) = true ∧ base.isScriptGroup = false := by
      simpa [spelledAt] using hspelled
    have hgroup : (h base).isScriptGroup = false := Bool.eq_false_iff.mpr fun hb => by
      have hbase := (hchildren base List.mem_cons_self).scriptGroup hb
      rw [hself.2] at hbase
      cases hbase
    simpa [spelledAt, hgroup] using hself.1
  | array id rows align =>
    rw [mapChildren_array]
    simpa [spelledAt] using hspelled
  | root id body index => rw [mapChildren_root]; rfl
  | symbol | space | text | op | newLine | alignMark | var => cases hbranch
  | _ => rfl

/-- A tree that can stand in the place of any node. -/
def Solid (w : Node) : Prop :=
  w.kind ≠ .group ∧ w.kind ≠ .script ∧ w.isMark = false

theorem standsFor_of_kind_ne {m n : Node} (hm : m.kind ≠ .group)
    (h : m.separates → ∃ d ∈ contents .cell n, d.separates) : m.StandsFor n := by
  refine ⟨fun hs => ?_, fun hs => ?_, fun c hc hsep => ?_⟩
  · cases m <;> first | cases hs | exact absurd rfl hm
  · rw [isScriptGroup_of_kind_ne hm] at hs
    cases hs
  · rw [contents_eq_singleton hm] at hc
    rw [List.mem_singleton.mp hc] at hsep
    exact h hsep

theorem Solid.standsFor {w : Node} (h : w.Solid) (n : Node) : w.StandsFor n := by
  obtain ⟨hgroup, hscript, hmark⟩ := h
  refine standsFor_of_kind_ne hgroup fun hsep => ?_
  rw [separates_of_kind_ne hscript, hmark] at hsep
  cases hsep

end Node

/-- A tree for the place of the nodes with some ids, and new attributes for the other nodes. -/
structure Swap where
  ids : List String
  tree : Node
  paint : Node → Node

namespace Swap

variable {p : Swap} {n : Node}

def apply (p : Swap) : Node → Node :=
  Node.everywhere fun b => if b.selectedIn p.ids then p.tree else p.paint b

theorem apply_selected (h : n.selectedIn p.ids) : p.apply n = p.tree := by
  rw [apply, Node.everywhere_eq, Node.selectedIn, Node.id?_mapChildren, ← Node.selectedIn, if_pos h]

theorem apply_of_not_selected (hp : Node.Repaints p.paint) (h : ¬ n.selectedIn p.ids) :
    p.apply n = (p.paint n).mapChildren p.apply := by
  rw [hp.mapChildren, apply, Node.everywhere_eq, Node.selectedIn, Node.id?_mapChildren,
    ← Node.selectedIn, if_neg h]

/-- A swap that leaves everything readable: the tree can stand anywhere, and only colors are changed. -/
structure Sound (p : Swap) : Prop where
  recolors : Node.Recolors p.paint
  solid : p.tree.Solid

namespace Sound

variable (hp : p.Sound)

include hp

theorem apply_eq (h : ¬ n.selectedIn p.ids) : p.apply n = (p.paint n).mapChildren p.apply :=
  apply_of_not_selected hp.recolors.toRepaints h

theorem kind_apply (h : ¬ n.selectedIn p.ids) : (p.apply n).kind = n.kind := by
  rw [hp.apply_eq h, Node.kind_mapChildren, hp.recolors.kind]

theorem apply_group {id : String} {body : List Node} (h : ¬ (Node.group id body).selectedIn p.ids) :
    p.apply (.group id body) = .group id (body.map p.apply) := by
  rw [hp.apply_eq h, hp.recolors.other _ (by simp [Node.kind]) (by simp [Node.kind])]
  rfl

theorem isMark_apply (h : (p.apply n).isMark) : n.isMark := by
  by_cases hsel : n.selectedIn p.ids
  · rw [apply_selected hsel, hp.solid.2.2] at h
    cases h
  · rwa [Node.isMark_eq_of_kind (hp.kind_apply hsel)] at h

theorem separates_apply (h : (p.apply n).separates) : n.separates := by
  by_cases hsel : n.selectedIn p.ids
  · rw [apply_selected hsel, Node.separates_of_kind_ne hp.solid.2.1, hp.solid.2.2] at h
    cases h
  by_cases hk : n.kind = .script
  · cases n with
    | script id base sub sup =>
      rw [hp.apply_eq hsel, hp.recolors.other _ (by simp [Node.kind]) (by simp [Node.kind]),
        Node.mapChildren_script] at h
      exact hp.isMark_apply h
    | _ => cases hk
  · have hk' : (p.apply n).kind ≠ .script := by rwa [hp.kind_apply hsel]
    rw [Node.separates_of_kind_ne hk'] at h
    rw [Node.separates_of_kind_ne hk]
    exact hp.isMark_apply h

/-- What a node becomes can stand in its place. -/
theorem standsFor (n : Node) : (p.apply n).StandsFor n := by
  by_cases hsel : n.selectedIn p.ids
  · rw [apply_selected hsel]
    exact hp.solid.standsFor n
  have hkind : (p.apply n).kind = n.kind := hp.kind_apply hsel
  rcases n.eq_group_or_kind_ne with ⟨id, body, rfl⟩ | hk
  · have hcontents : contents .cell (p.apply (.group id body)) =
        (contents .cell (.group id body)).map p.apply := by
      refine Node.contents_map .cell hkind ?_
      rintro id' body' ⟨⟩
      exact ⟨id, hp.apply_group hsel⟩
    refine ⟨fun hs => ?_, fun hs => ?_, fun c hc hsep => ?_⟩
    · rw [hp.apply_group hsel] at hs
      rcases body with _ | ⟨m, _ | ⟨m', body⟩⟩ <;> first | rfl | cases hs
    · rw [hp.apply_group hsel] at hs
      rcases body with _ | ⟨m, _ | ⟨m', body⟩⟩
      · cases hs
      · have hm : (p.apply m).kind = .script := by simpa [Node.isScriptGroup] using hs
        by_cases hmsel : m.selectedIn p.ids
        · rw [apply_selected hmsel] at hm
          exact absurd hm hp.solid.2.1
        · rw [hp.kind_apply hmsel] at hm
          simpa [Node.isScriptGroup] using hm
      · cases hs
    · rw [hcontents] at hc
      obtain ⟨d, hd, rfl⟩ := List.mem_map.mp hc
      exact ⟨d, hd, hp.separates_apply hsep⟩
  · refine Node.standsFor_of_kind_ne (by rwa [hkind]) fun hsep => ⟨n, ?_, hp.separates_apply hsep⟩
    rw [contents_eq_singleton hk]
    exact List.mem_singleton_self n

end Sound

/-- A node that is read back when it is rendered, also after a swap, if what is below it is. -/
structure Meets (p : Swap) (n : Node) : Prop where
  canonical : n.CanonicalAt
  tagged : n.Tagged
  names : ∀ c ∈ (p.paint n).names, Verbatim c
  letters : n.kind = .text → ∀ c ∈ n.children, ¬ c.selectedIn p.ids

/-- A leaf stays as it is, and so do the letters of a text. -/
theorem apply_leaf (hp : Node.Recolors p.paint) (h : p.Meets n) (hbranch : n.isBranch = false)
    (hsel : ¬ n.selectedIn p.ids) : p.apply n = n := by
  have hpaint : ∀ m : Node, m.isBranch = false → p.paint m = m := by
    intro m hm
    refine hp.other m ?_ ?_ <;> rintro hk <;> cases m <;> simp_all [Node.isBranch, Node.kind]
  rw [apply_of_not_selected hp.toRepaints hsel, hpaint n hbranch]
  refine Node.mapChildren_eq_self fun c hc => ?_
  cases n with
  | text id body =>
    have hletter : c.isLetter := List.all_eq_true.mp h.canonical.spelled c hc
    have hleaf : c.isBranch = false ∧ c.children = [] := by
      cases c <;> first | exact ⟨rfl, rfl⟩ | cases hletter
    rw [apply_of_not_selected hp.toRepaints (h.letters rfl c hc), hpaint c hleaf.1]
    refine Node.mapChildren_eq_self fun d hd => ?_
    rw [hleaf.2] at hd
    cases hd
  | symbol | space | op | newLine | alignMark | var => cases hc
  | _ => cases hbranch

namespace Sound

variable (hp : p.Sound)

include hp

/-- A node around what its children become is read as it is written. -/
theorem fills_apply (h : p.Meets n) (hbranch : n.isBranch) (hsel : ¬ n.selectedIn p.ids) :
    (p.apply n).spelledAt [] ∧ ∀ stop s, (stop, s) ∈ (p.apply n).arguments → s.Fills stop := by
  have hbranch' : (p.paint n).isBranch := by
    rwa [Node.isBranch_eq_of_kind (hp.recolors.kind n)]
  rw [hp.apply_eq hsel]
  refine ⟨Node.spelledAt_mapChildren hbranch' ?_ fun c _ => hp.standsFor c, fun stop s hs => ?_⟩
  · rw [hp.recolors.spelledAt]
    exact h.canonical.spelled
  · rw [Node.arguments_mapChildren, hp.recolors.arguments] at hs
    obtain ⟨⟨stop', c⟩, hc, he⟩ := List.mem_map.mp hs
    cases he
    exact (hp.standsFor c).fills (h.canonical.slots _ c hc)

theorem rendersAt_apply (h : ∀ m ∈ n.outer, p.Meets m) (htree : ∀ m ∈ p.tree.outer, m.RendersAt) :
    ∀ m ∈ (p.apply n).outer, m.RendersAt := by
  induction n using Node.childrenInduction with
  | step n ih =>
    have hself := h n n.self_mem_outer
    by_cases hsel : n.selectedIn p.ids
    · rwa [apply_selected hsel]
    cases hbranch : n.isBranch with
    | false =>
      rw [apply_leaf hp.recolors hself hbranch hsel, Node.outer_eq]
      intro m hm
      have hnone : (if n.kind = .text then [] else n.children.flatMap Node.outer) = [] := by
        cases n <;> first | rfl | cases hbranch
      rw [hnone] at hm
      rw [List.mem_singleton.mp hm]
      exact hself.canonical.rendersAt hself.tagged
    | true =>
      obtain ⟨hspelled, hfills⟩ := hp.fills_apply hself hbranch hsel
      have hbelow : ∀ c ∈ n.children, ∀ m ∈ (p.apply c).outer, m.RendersAt := fun c hc =>
        ih c hc fun m hm => h m (Node.mem_outer_of_child (Node.kind_ne_text_of_isBranch hbranch) hc hm)
      have hchildren : (p.apply n).children = n.children.map p.apply := by
        rw [hp.apply_eq hsel, Node.children_mapChildren, hp.recolors.children]
      have htag : (p.apply n).isTagged = false := by
        rw [Node.isTagged_eq_of_kind (hp.kind_apply hsel)]
        cases n <;> first | rfl | cases hbranch
      refine Node.forall_outer ?_ fun _ d hd => ?_
      · refine ⟨hspelled, ?_, (fun ht => by rw [htag] at ht; cases ht),
          fun s hs => (hfills .cell s hs).2 rfl⟩
        rw [hp.apply_eq hsel, Node.names_mapChildren]
        exact hself.names
      · rw [hchildren] at hd
        obtain ⟨c, hc, rfl⟩ := List.mem_map.mp hd
        exact hbelow c hc

/-- Labels give the paths back that a tree had before the swap. -/
theorem relabel_retag_apply {path : String} {tree : Node} (h : ∀ m ∈ n.outer, p.Meets m)
    (hpath : n.relabel false path = n)
    (htree : ∀ t ∈ p.ids, p.tree.retag.relabel true t = tree) :
    (p.apply n).retag.relabel true path = Swap.apply { p with tree := tree } n := by
  induction n using Node.childrenInduction generalizing path with
  | step n ih =>
    have hself := h n n.self_mem_outer
    by_cases hsel : n.selectedIn p.ids
    · obtain ⟨t, ht, hid⟩ := Node.selectedIn_iff.mp hsel
      rw [apply_selected hsel, apply_selected (p := { p with tree := tree }) hsel,
        ← Node.eq_path_of_relabel hpath hid]
      exact htree t ht
    cases hbranch : n.isBranch with
    | false =>
      have hmeets : Swap.Meets { p with tree := tree } n :=
        ⟨hself.canonical, hself.tagged, hself.names, hself.letters⟩
      rw [apply_leaf hp.recolors hself hbranch hsel,
        apply_leaf (p := { p with tree := tree }) hp.recolors hmeets hbranch hsel,
        Node.retag_leaf hbranch, Node.relabel_tagsOnly hpath]
    | true =>
      have htext := Node.kind_ne_text_of_isBranch hbranch
      obtain ⟨hspelled, hfills⟩ := hp.fills_apply hself hbranch hsel
      obtain ⟨id, hid⟩ := Node.exists_id_of_isBranch hbranch
      obtain rfl := Node.eq_path_of_relabel hpath hid
      have hbranch' : (p.apply n).isBranch := by
        rwa [Node.isBranch_eq_of_kind (hp.kind_apply hsel)]
      rw [Node.retag_of_fills hbranch' hspelled hfills, hp.apply_eq hsel,
        apply_of_not_selected (p := { p with tree := tree }) hp.recolors.toRepaints hsel,
        Node.mapChildren_mapChildren]
      have hblank : ((p.paint n).mapChildren fun c => (p.apply c).retag).id? = some id := by
        rw [Node.id?_mapChildren, hp.recolors.id?, hid]
      refine Node.ext_iff.mpr ⟨?_, ?_, ?_⟩
      · rw [Node.shape_relabel, Node.shape_withId, Node.shape_mapChildren, Node.shape_mapChildren]
      · rw [Node.id?_relabel, Node.id?_withId, hblank, Node.id?_mapChildren, hp.recolors.id?, hid]
        rfl
      · have hslots : (((p.paint n).mapChildren fun c => (p.apply c).retag).withId "").slots = n.slots := by
          rw [Node.slots_eq_of_shape (Node.shape_withId _ _) (by rw [Node.children_withId]),
            Node.slots_mapChildren, hp.recolors.slots]
        rw [Node.children_relabel, hslots, Node.id?_withId, hblank, Node.children_withId,
          Node.children_mapChildren, Node.children_mapChildren, hp.recolors.children,
          List.zipWith_map_left]
        refine List.ext_getElem (by simp [Node.length_slots]) fun i hi hi' => ?_
        rw [List.length_map] at hi'
        have hc := List.getElem_mem hi'
        have hslot : i < n.slots.length := n.length_slots.symm ▸ hi'
        have hbelow : ∀ m ∈ n.children[i].outer, p.Meets m := fun m hm =>
          h m (Node.mem_outer_of_child htext hc hm)
        rw [List.getElem_zipWith, List.getElem_map]
        exact ih _ hc hbelow (Node.relabel_getElem hpath hi' hslot)

end Sound

section

variable (hp : Node.Recolors p.paint)

include hp

/-- Where the tree has different ids under the path of its place, all ids are different. -/
theorem ids_apply {path : String} (hpath : n.relabel false path = n)
    (htree : ∀ t ∈ p.ids, (∀ id ∈ p.tree.ids, Under t id) ∧ p.tree.ids.Nodup) :
    (∀ id ∈ (p.apply n).ids, Under path id) ∧ (p.apply n).ids.Nodup := by
  induction n using Node.childrenInduction generalizing path with
  | step n ih =>
    by_cases hsel : n.selectedIn p.ids
    · obtain ⟨t, ht, hid⟩ := Node.selectedIn_iff.mp hsel
      rw [apply_selected hsel, ← Node.eq_path_of_relabel hpath hid]
      exact htree t ht
    · rw [apply_of_not_selected hp.toRepaints hsel]
      refine Node.ids_of_slots (fun id hid => ?_) fun i hi hi' => ?_
      · rw [Node.id?_mapChildren, hp.id?] at hid
        exact Node.eq_path_of_relabel hpath hid
      · have hi₁ : i < n.children.length := by
          rwa [Node.children_mapChildren, hp.children, List.length_map] at hi
        have hi₂ : i < n.slots.length := n.length_slots.symm ▸ hi₁
        simp only [Node.children_mapChildren, hp.children, List.getElem_map, Node.slots_mapChildren,
          hp.slots]
        exact ih _ (List.getElem_mem hi₁) (Node.relabel_getElem hpath hi₁ hi₂)

/-- Trees with the same tags leave the same tags behind. -/
theorem filter_outer_apply {tree : Node} (htags : tree.outer.filter Node.isTagged =
    p.tree.outer.filter Node.isTagged) (n : Node) :
    (Swap.apply { p with tree := tree } n).outer.filter Node.isTagged =
      (p.apply n).outer.filter Node.isTagged := by
  induction n using Node.childrenInduction with
  | step n ih =>
    by_cases hsel : n.selectedIn p.ids
    · rw [apply_selected hsel, apply_selected (p := { p with tree := tree }) hsel, htags]
    rw [apply_of_not_selected hp.toRepaints hsel,
      apply_of_not_selected (p := { p with tree := tree }) hp.toRepaints hsel]
    have hkind : ∀ h : Node → Node, ((p.paint n).mapChildren h).kind = n.kind := fun h => by
      rw [Node.kind_mapChildren, hp.kind]
    cases htag : n.isTagged with
    | true =>
      have hsame : ∀ h : Node → Node, (p.paint n).mapChildren h = p.paint n := fun h => by
        refine Node.mapChildren_eq_self fun c hc => ?_
        rw [hp.children, Node.children_eq_nil_of_isTagged htag] at hc
        cases hc
      rw [hsame, hsame]
    | false =>
      have hnot : ∀ h : Node → Node, ((p.paint n).mapChildren h).isTagged = false := fun h => by
        rw [Node.isTagged_eq_of_kind (hkind h), htag]
      rw [Node.outer_eq, Node.outer_eq ((p.paint n).mapChildren p.apply),
        List.filter_cons_of_neg (by simp [hnot]), List.filter_cons_of_neg (by simp [hnot]), hkind, hkind,
        Node.children_mapChildren, Node.children_mapChildren, hp.children, List.flatMap_map,
        List.flatMap_map]
      split
      next => rfl
      next =>
        rw [List.filter_flatMap, List.filter_flatMap]
        exact List.flatMap_congr ih

end

end Swap

/-- Rendered markup after a swap is parsed as the result of another one, which puts in what labels make
of the tree, unless two nodes come to share an id. -/
theorem Formula.parse_latex_render_swap {f r : Formula} {p : Swap} (tree : Node) (hp : p.Sound)
    (hpath : f.assignPathIds = .ok f) (hmeets : ∀ n ∈ f.children.flatMap Node.outer, p.Meets n)
    (htree : ∀ m ∈ p.tree.outer, m.RendersAt)
    (hlabel : ∀ t ∈ p.ids, p.tree.retag.relabel true t = tree)
    (htags : tree.outer.filter Node.isTagged = p.tree.outer.filter Node.isTagged)
    (hr : r.children = f.children.map p.apply) :
    (∃ g, Formula.parse [] (r.latex .render) = .ok g ∧ g.tags = r.tags ∧
      g.children = f.children.map (Swap.apply { p with tree := tree })) ∨
    (∃ d, Formula.parse [] (r.latex .render) = .error (.duplicate d)) ∧
      ¬ (forestIds (f.children.map (Swap.apply { p with tree := tree }))).Nodup := by
  have hbelow : ∀ n ∈ f.children, ∀ m ∈ n.outer, p.Meets m := fun n hn m hm =>
    hmeets m (List.mem_flatMap.mpr ⟨n, hn, hm⟩)
  have hrenders : ∀ m ∈ r.children.flatMap Node.outer, m.RendersAt := by
    intro m hm
    rw [hr, List.flatMap_map] at hm
    obtain ⟨n, hn, hm⟩ := List.mem_flatMap.mp hm
    exact hp.rendersAt_apply (hbelow n hn) htree m hm
  have hlabels : labelNodes true (r.children.map Node.retag) =
      f.children.map (Swap.apply { p with tree := tree }) := by
    rw [hr, List.map_map]
    refine List.ext_getElem (by simp [labelNodes]) fun i hi hi' => ?_
    rw [List.length_map] at hi'
    simp only [labelNodes, List.getElem_mapIdx, List.getElem_map, Function.comp_apply]
    exact hp.relabel_retag_apply (hbelow _ (List.getElem_mem hi')) (relabel_getElem hpath i hi') hlabel
  rw [parse, readNodes_render hrenders]
  dsimp only
  rw [hlabels]
  cases hg : ofNodes (f.children.map (Swap.apply { p with tree := tree })) with
  | ok g =>
    have hchildren := children_of_ofNodes hg
    refine .inl ⟨g, rfl, ?_, hchildren⟩
    rw [tags, tags, hchildren, hr, List.flatMap_map, List.flatMap_map, List.filter_flatMap,
      List.filter_flatMap]
    exact List.flatMap_congr fun n _ => Swap.filter_outer_apply hp.recolors htags n
  | error d =>
    refine .inr ⟨⟨d, rfl⟩, fun hnodup => ?_⟩
    rw [ofNodes_eq_ok hnodup] at hg
    cases hg

end FormulaDoc
