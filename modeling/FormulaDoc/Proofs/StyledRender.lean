import FormulaDoc.Proofs.Reparsing
import FormulaDoc.Proofs.Swapping
import FormulaDoc.Proofs.Unstyling

namespace FormulaDoc

namespace Node

variable {n : Node}

theorem tagsOnly_collapse (ns : List Node) : (collapse ns).tagsOnly = collapse (ns.map tagsOnly) := by
  rcases ns with _ | ⟨n, _ | ⟨m, ns⟩⟩ <;> first | rfl | exact tagsOnly_branch rfl

theorem slot_tagsOnly (stop : Stop) (n : Node) : n.tagsOnly.slot stop = (n.slot stop).tagsOnly := by
  rw [slot, unlabelsGroups_tagsOnly.contents_eq, slot, tagsOnly_collapse]

theorem filter_outer_group (id : String) (body : List Node) :
    (group id body).outer.filter isTagged = (body.flatMap outer).filter isTagged := by
  rw [outer_eq]
  rfl

/-- A slot that takes no braces away from a group, or takes them, keeps the tags. -/
theorem filter_outer_slot (stop : Stop) (n : Node) :
    (n.slot stop).outer.filter isTagged = n.outer.filter isTagged := by
  have hcollapse : ∀ ns : List Node, (collapse ns).outer.filter isTagged =
      (ns.flatMap outer).filter isTagged := by
    intro ns
    rcases ns with _ | ⟨n, _ | ⟨m, ns⟩⟩
    · exact filter_outer_group "" []
    · rw [collapse, List.flatMap_singleton]
    · exact filter_outer_group "" _
  rw [slot, hcollapse]
  rcases n.eq_group_or_kind_ne with ⟨id, body, rfl⟩ | hk
  · rw [filter_outer_group]
    cases body with
    | nil =>
      rw [contents]
      split
      next => rw [List.flatMap_singleton, filter_outer_group]
      next => rfl
    | cons c cs => rfl
  · rw [contents_eq_singleton hk, List.flatMap_singleton]

end Node

namespace Styling

/-- What a reader finds in a new carrier around a node. The slot of a color takes the node as it is. -/
def content : Styling → Node → Node
  | color _, n => n
  | box .., n => n.slot .dollar
  | _, n => n.slot .brace

/-- A new carrier around a node as it is read, without ids for the carrier. -/
def enclosed (s : Styling) (n : Node) : Node :=
  s.carrier "" (s.content n)

/-- A command puts a new carrier around the node, and there the path of a node without a tag is an id that
a symbol or an operator has already. -/
def Clashes (s : Styling) (f : Formula) (t : String) (n : Node) : Prop :=
  s.Alone f t n ∧ ∃ id ∈ n.tagIds, id ∈ ((s.enclosed n).relabel false t).unnamed

variable {s : Styling} {c : Formula} {fresh : Supply} {n x : Node} {t i : String}

theorem recolors_change (h : s.kind ≠ .brace) : Node.Recolors s.change := by
  cases s with
  | color c => exact Node.recolors_recolor c
  | box border background => exact Node.recolors_rebox border background
  | strike => exact Node.recolors_id
  | brace => exact absurd rfl h

/-- A command that finds a carrier changes its attributes and nothing else. -/
theorem applyAll_eq_everywhere (hs : s.kind ≠ .brace) (hn : n ∈ c.nodes) (hid : n.id? = some t)
    (hfound : ¬ s.Alone c t n) (hx : x ∈ c.nodes) :
    (s.maker c [t]).applyAll fresh x =
      x.everywhere (Node.paintOn (c.touched s.kind [t]) s.change) := by
  induction x using Node.childrenInduction with
  | step x ih =>
    have hbelow : (s.maker c [t]).rebuilt fresh x =
        x.mapChildren (Node.everywhere (Node.paintOn (c.touched s.kind [t]) s.change)) :=
      Node.mapChildren_congr fun ch hch => ih ch hch (Formula.mem_nodes_of_child hx hch)
    have hmake : s.make c [t] (fresh.of x) ((s.maker c [t]).rebuilt fresh x) =
        if s.finds [t] x then s.change ((s.maker c [t]).rebuilt fresh x)
        else (s.maker c [t]).rebuilt fresh x := by
      rw [make, finds_rebuilt hx, wraps_rebuilt]
      split
      next => rfl
      next hfinds =>
        refine if_neg fun hwraps => hfound ?_
        rw [wraps, Bool.and_eq_true] at hwraps
        obtain ⟨t', ht', hxid⟩ := Node.selectedIn_iff.mp hwraps.1
        rw [List.mem_singleton.mp ht'] at hxid
        obtain rfl := Formula.eq_of_mem_nodes hx hn hxid hid
        refine ⟨hn, hid, fun hkind => hfinds (finds_of_selectedIn hkind hwraps.1), fun p hp hkind => ?_⟩
        simp [Formula.parentIs, hid, hp, hkind] at hwraps
    have hselected : (x.mapChildren (Node.everywhere
        (Node.paintOn (c.touched s.kind [t]) s.change))).selectedIn (c.touched s.kind [t]) ↔
        s.finds [t] x := by
      rw [Node.selectedIn, Node.id?_mapChildren, ← Node.selectedIn, Formula.selectedIn_touched hx,
        finds_iff hs]
    rw [Maker.applyAll_eq, Node.everywhere_eq, Node.paintOn]
    refine hmake.trans ?_
    rw [hbelow]
    exact if_congr hselected.symm rfl rfl

theorem wrapper_eq (h : s.kind ≠ .brace) (new : List String) (n : Node) :
    s.wrapper new n = s.carrier (new.headD "") n := by
  cases s <;> first | rfl | exact absurd rfl h

theorem solid_carrier (s : Styling) (id : String) (n : Node) : (s.carrier id n).Solid := by
  refine ⟨?_, ?_, ?_⟩ <;> cases s <;> first | rfl | simp [carrier, Node.kind]

theorem isTagged_carrier (s : Styling) (id : String) (n : Node) : (s.carrier id n).isTagged = false := by
  cases s <;> rfl

/-- A new carrier is read with what its slot holds. -/
theorem retag_carrier (hn : ∀ m ∈ n.outer, m.CanonicalAt) :
    (s.carrier i n).retag = (s.enclosed n).tagsOnly := by
  have hretag := Node.retag_eq_tagsOnly hn
  have hbranch : ∀ i m, (s.carrier i m).isBranch := fun i m => by cases s <;> rfl
  rw [Node.retag_branch (hbranch _ _), mapChildren_carrier, hretag, enclosed,
    Node.tagsOnly_branch (hbranch _ _), mapChildren_carrier]
  cases s with
  | color => rfl
  | box border background =>
    exact congrArg (fun b => Node.box "" border b background) (Node.slot_tagsOnly .dollar n)
  | strike => exact congrArg (Node.strike "") (Node.slot_tagsOnly .brace n)
  | brace above => exact congrArg (Node.brace "" above) (Node.slot_tagsOnly .brace n)

theorem filter_outer_carrier (s : Styling) (id : String) (n : Node) :
    (s.carrier id n).outer.filter Node.isTagged = n.outer.filter Node.isTagged := by
  rw [Node.outer_eq, children_carrier]
  cases s <;> simp [carrier, Node.isTagged, Node.kind]

theorem filter_outer_enclosed (s : Styling) (n : Node) :
    (s.enclosed n).outer.filter Node.isTagged = n.outer.filter Node.isTagged := by
  rw [enclosed, filter_outer_carrier]
  cases s <;> simp only [content, Node.filter_outer_slot]

theorem tagIds_enclosed (s : Styling) (n : Node) : (s.enclosed n).tagIds = n.tagIds := by
  rw [Node.tagIds, filter_outer_enclosed, Node.tagIds]

theorem tagged_enclosed (s : Styling) (h : ∀ m ∈ n.outer, m.Tagged) : ∀ m ∈ (s.enclosed n).outer, m.Tagged := by
  intro m hm htag
  have hmem : m ∈ (s.enclosed n).outer.filter Node.isTagged := List.mem_filter.mpr ⟨hm, htag⟩
  rw [filter_outer_enclosed] at hmem
  exact h m (List.mem_filter.mp hmem).1 htag

section

variable (hcanonical : ∀ m ∈ n.outer, m.CanonicalAt) (htags : ∀ m ∈ n.outer, m.Tagged)

include hcanonical htags

/-- A new carrier is rendered in such a way that it is read back. -/
theorem rendersAt_carrier (hs : ∀ name ∈ s.names, Verbatim name) :
    ∀ m ∈ (s.carrier i n).outer, m.RendersAt := by
  refine Node.forall_outer ?_ fun _ c hc => ?_
  · have htagged : (s.carrier i n).Tagged := by
      rw [Node.Tagged, isTagged_carrier]
      exact Bool.noConfusion
    refine ⟨?_, ?_, htagged, ?_⟩
    · cases s <;> rfl
    · cases s <;> exact hs
    · cases s <;> simp [carrier, Node.arguments]
  · rw [children_carrier] at hc
    rw [List.mem_singleton.mp hc]
    exact fun m hm => (hcanonical m hm).rendersAt (htags m hm)

/-- Labels do not change the tags in a carrier that was read. -/
theorem filter_outer_relabel (t : String) :
    ((s.carrier i n).retag.relabel true t).outer.filter Node.isTagged =
      (s.carrier i n).outer.filter Node.isTagged := by
  rw [retag_carrier hcanonical, ← Node.filter_outer_tagsOnly,
    Node.tagsOnly_relabel t (s.tagged_enclosed htags), Node.filter_outer_tagsOnly, filter_outer_enclosed,
    filter_outer_carrier]

/-- The ids that labels give below a new carrier lie under the path of the node that it was put around. -/
theorem ids_relabel_carrier (hpath : n.relabel false t = n) :
    (∀ id ∈ ((s.carrier i n).retag.relabel true t).ids, Under t id) ∧
      (((s.carrier i n).retag.relabel true t).ids.Nodup ↔
        ∀ id ∈ n.tagIds, id ∉ ((s.enclosed n).relabel false t).unnamed) := by
  have hn := Node.ids_relabel t n
  have hc := Node.ids_relabel t (s.enclosed n)
  rw [hpath] at hn
  rw [retag_carrier hcanonical, ← s.tagIds_enclosed]
  constructor
  · intro id hid
    rw [(Node.ids_relabel_tagsOnly t (s.tagged_enclosed htags)).mem_iff, s.tagIds_enclosed] at hid
    rcases List.mem_append.mp hid with hid | hid
    · exact hn.1 id (n.tagIds_sublist.subset hid)
    · exact hc.1 id ((Node.unnamed_sublist _).subset hid)
  · refine Node.nodup_relabel_tagsOnly t (s.tagged_enclosed htags) ?_
    rw [s.tagIds_enclosed]
    exact hn.2.sublist n.tagIds_sublist

end

end Styling

namespace Formula

variable {f r : Formula} {s : Styling} {n : Node} {t : String}

theorem exists_parent_of_mem_outer {m n : Node} (h : m ∈ n.outer) :
    m = n ∨ ∃ p ∈ n.outer, p.kind ≠ .text ∧ m ∈ p.children := by
  induction n using Node.childrenInduction with
  | step n ih =>
    rcases Node.mem_outer_iff.mp h with rfl | ⟨hk, c, hc, h⟩
    · exact .inl rfl
    · rcases ih c hc h with rfl | ⟨p, hp, hkind, hm⟩
      · exact .inr ⟨n, n.self_mem_outer, hk, hc⟩
      · exact .inr ⟨p, Node.mem_outer_of_child hk hc hp, hkind, hm⟩

/-- A node outside of texts is no child of one. -/
theorem not_selectedIn_text (hn : n ∈ f.children.flatMap Node.outer) (hid : n.id? = some t) {x c : Node}
    (hx : x ∈ f.nodes) (hkind : x.kind = .text) (hc : c ∈ x.children) : ¬ c.selectedIn [t] := by
  intro hsel
  obtain ⟨t', ht', hcid⟩ := Node.selectedIn_iff.mp hsel
  rw [List.mem_singleton.mp ht'] at hcid
  have hparent := parent?_of_child hx hc hcid
  obtain ⟨top, htop, houter⟩ := List.mem_flatMap.mp hn
  rcases exists_parent_of_mem_outer houter with rfl | ⟨p, hp, hpkind, hch⟩
  · rw [parent?_of_top htop hid] at hparent
    cases hparent
  · have hpn : p ∈ f.nodes := mem_nodes_of_outer (List.mem_flatMap.mpr ⟨top, htop, hp⟩)
    rw [parent?_of_child hpn hch hid, Option.some.injEq] at hparent
    rw [hparent] at hpkind
    exact hpkind hkind

theorem meets_of_canonical {p : Swap} (hf : f.Canonical) (hpath : f.assignPathIds = .ok f)
    (hnames : ∀ m : Node, (∀ name ∈ m.names, Verbatim name) → ∀ name ∈ (p.paint m).names, Verbatim name)
    (hletters : ∀ x ∈ f.nodes, x.kind = .text → ∀ c ∈ x.children, ¬ c.selectedIn p.ids) :
    ∀ m ∈ f.children.flatMap Node.outer, p.Meets m := by
  intro m hm
  have hm' : m.CanonicalAt := hf m hm
  refine ⟨hm', tagged_of_assignPathIds hpath m hm, hnames m hm'.names, ?_⟩
  exact hletters m (mem_nodes_of_outer hm)

section

variable (hf : f.Canonical) (hpath : f.assignPathIds = .ok f)
  (hnames : ∀ name ∈ s.names, Verbatim name)

include hf hpath hnames

/-- New attributes of carriers do not keep rendered markup from being read back. -/
theorem parse_latex_render_change {ids : List String} (hs : s.kind ≠ .brace)
    (hr : r.children = f.children.map (Node.everywhere (Node.paintOn ids s.change))) :
    ∃ g, parse [] (r.latex .render) = .ok g ∧ g.tags = r.tags := by
  -- nothing is put in the place of another node
  let p : Swap := ⟨[], .text "" [], Node.paintOn ids s.change⟩
  have hsolid : (Node.text "" []).Solid := ⟨by decide, by decide, rfl⟩
  have hsound : p.Sound := ⟨(Styling.recolors_change hs).paintOn ids, hsolid⟩
  have happly : p.apply = Node.everywhere (Node.paintOn ids s.change) := by
    have hnone : ∀ b : Node, ¬ b.selectedIn p.ids := fun b hb => by
      obtain ⟨_, hmem, -⟩ := Node.selectedIn_iff.mp hb
      cases hmem
    rw [Swap.apply]
    congr 1
    funext b
    rw [if_neg (hnone b)]
  have hmeets : ∀ m ∈ f.children.flatMap Node.outer, p.Meets m := by
    refine meets_of_canonical hf hpath (fun m hm name hname => ?_) fun x _ _ c _ hc => ?_
    · unfold p Node.paintOn at hname
      dsimp only at hname
      split at hname
      next => exact (Styling.mem_names_change hname).elim (hnames name) (hm name)
      next => exact hm name hname
    · obtain ⟨_, hmem, -⟩ := Node.selectedIn_iff.mp hc
      cases hmem
  have htree : ∀ m ∈ p.tree.outer, m.RendersAt := by
    intro m hm
    rw [Node.outer_eq] at hm
    obtain rfl : m = .text "" [] := List.mem_singleton.mp hm
    exact ⟨rfl, List.forall_mem_nil _, by decide, fun s hs => absurd hs List.not_mem_nil⟩
  rw [← happly] at hr
  have hlabel : ∀ t ∈ p.ids, p.tree.retag.relabel true t = p.tree := List.forall_mem_nil _
  rcases parse_latex_render_swap p.tree hsound hpath hmeets htree hlabel rfl hr with
    ⟨g, hg, htags, -⟩ | ⟨-, hnot⟩
  · exact ⟨g, hg, htags⟩
  · refine absurd ?_ hnot
    have hnodup := r.nodup
    rwa [hr] at hnodup

/-- Markup with a new carrier is read back just when no id of a tag is the path of another node. -/
theorem parse_latex_render_carrier {i : String} (hn : n ∈ f.children.flatMap Node.outer)
    (hid : n.id? = some t)
    (hr : r.children = f.children.map (Node.everywhere (Node.substitute t (s.carrier i n)))) :
    ((∃ g, parse [] (r.latex .render) = .ok g ∧ g.tags = r.tags) ∧
      ∀ id ∈ n.tagIds, id ∉ ((s.enclosed n).relabel false t).unnamed) ∨
    (∃ d, parse [] (r.latex .render) = .error (.duplicate d)) ∧
      ∃ id ∈ n.tagIds, id ∈ ((s.enclosed n).relabel false t).unnamed := by
  let p : Swap := ⟨[t], s.carrier i n, id⟩
  let q : Swap := ⟨[t], (s.carrier i n).retag.relabel true t, id⟩
  have hsound : p.Sound := ⟨Node.recolors_id, s.solid_carrier i n⟩
  have happly : ∀ w, Swap.apply ⟨[t], w, id⟩ = Node.everywhere (Node.substitute t w) := by
    intro w
    rw [Swap.apply]
    congr 1
    funext b
    rw [Node.substitute]
    exact if_congr (by simp [Node.selectedIn_iff]) rfl rfl
  have hmeets : ∀ m ∈ f.children.flatMap Node.outer, p.Meets m :=
    meets_of_canonical hf hpath (fun _ h => h) fun x hx hkind c hc =>
      not_selectedIn_text hn hid hx hkind hc
  have houter : ∀ m ∈ n.outer, m ∈ f.children.flatMap Node.outer := by
    intro m hm
    exact Node.mem_flatMap_outer_trans hn hm
  have hcanonical : ∀ m ∈ n.outer, m.CanonicalAt := fun m hm => hf m (houter m hm)
  have htagged : ∀ m ∈ n.outer, m.Tagged := fun m hm =>
    tagged_of_assignPathIds hpath m (houter m hm)
  have hself : n.relabel false t = n := relabel_of_mem_nodes hpath (mem_nodes_of_outer hn) hid
  obtain ⟨hunder, hiff⟩ := Styling.ids_relabel_carrier (s := s) (i := i) hcanonical htagged hself
  rw [← happly] at hr
  rcases parse_latex_render_swap q.tree hsound hpath hmeets
      (Styling.rendersAt_carrier hcanonical htagged hnames) (by simp [p, q])
      (Styling.filter_outer_relabel hcanonical htagged t) hr with ⟨g, hg, htags, hchildren⟩ | ⟨hd, hnot⟩
  · refine .inl ⟨⟨g, hg, htags⟩, hiff.mp ?_⟩
    have hmem : q.tree ∈ g.nodes :=
      mem_nodes_of_substitute (mem_nodes_of_outer hn) hid (by rw [hchildren, happly])
    exact nodup_ids hmem
  · refine .inr ⟨hd, ?_⟩
    by_contra hclear
    have hnodup := hiff.mpr fun id hid hmem => hclear ⟨id, hid, hmem⟩
    refine hnot (nodup_forestIds fun j hj => ?_)
    rw [List.length_map] at hj
    rw [List.getElem_map]
    exact Swap.ids_apply (p := q) Node.recolors_id (relabel_getElem hpath j hj)
      (by simpa [q] using ⟨hunder, hnodup⟩)

end

/-- The rendered markup of a formula with one node colored, boxed or struck out is parsed to a formula
with the same symbols and operators under the same ids, unless there is a clash of ids in the new
carrier: then it is refused. The node stands outside of texts, and the formula is parsed from its own
markup. -/
theorem parse_latex_render_apply {text : String} (hf : parse [] text = .ok f)
    (hagain : parse [] (f.latex .ast) = .ok f) (hs : s.kind ≠ .brace)
    (hnames : ∀ name ∈ s.names, ∀ c ∈ name.toList, c.isAlpha)
    (hn : n ∈ f.children.flatMap Node.outer) (hid : n.id? = some t) (m : Minter) :
    (s.apply f [[t]]).Ensures (m.pool f.ids) m fun e _ =>
      (¬ s.Clashes f t n → ∃ g, parse [] (e.formula.latex .render) = .ok g ∧
        g.tags = e.formula.tags) ∧
      (s.Clashes f t n → ∃ d, parse [] (e.formula.latex .render) = .error (.duplicate d)) := by
  obtain ⟨hcanonical, hpath⟩ := canonical_of_parse_latex hf hagain
  have hverbatim : ∀ name ∈ s.names, Verbatim name := fun name hname =>
    verbatim_of_isAlpha (hnames name hname)
  have hmem : n ∈ f.nodes := mem_nodes_of_outer hn
  refine (s.ensures_apply f [[t]] m).mono fun e _ h => ?_
  obtain ⟨c, targets, m', fresh, hrun, hgroups, hmade⟩ := h
  -- one id is not grouped
  have hsame : (consolidate false f [[t]]).run m =
      (.ok (⟨f, false⟩, [some t].map fun o => o.filter f.contains), { m with taken := f.ids }) := rfl
  have htarget : (some t).filter f.contains = some t := by
    simp [contains_iff.mpr (mem_ids_iff.mpr ⟨n, hmem, hid⟩)]
  rw [hsame, List.map_singleton, htarget] at hrun
  cases hrun
  have hmap := hmade.children_eq
  by_cases halone : s.Alone f t n
  · have hr : e.formula.children = f.children.map
        (Node.everywhere (Node.substitute t (s.carrier ((fresh t).headD "") n))) := by
      rw [hmap, ← Styling.wrapper_eq hs]
      refine List.map_congr_left fun x hx => halone.applyAll_eq_substitute ?_
      exact mem_nodes_of_top hx
    rcases parse_latex_render_carrier hcanonical hpath hverbatim hn hid hr with
      ⟨hread, hclear⟩ | ⟨hrefused, id, hid', hclash⟩
    · refine ⟨fun _ => hread, ?_⟩
      rintro ⟨-, id, hid', hclash⟩
      exact absurd hclash (hclear id hid')
    · exact ⟨fun hnot => absurd ⟨halone, id, hid', hclash⟩ hnot, fun _ => hrefused⟩
  · have hr : e.formula.children = f.children.map
        (Node.everywhere (Node.paintOn (f.touched s.kind [t]) s.change)) := by
      rw [hmap]
      refine List.map_congr_left fun x hx => Styling.applyAll_eq_everywhere hs hmem hid halone ?_
      exact mem_nodes_of_top hx
    exact ⟨fun _ => parse_latex_render_change hcanonical hpath hverbatim hs hr,
      fun hclash => absurd hclash.1 halone⟩

/-- A colored fraction is read back: its parts keep their ids, which are no paths in the color. -/
theorem parse_latex_render_apply_of_fraction : ∃ (f : Formula) (n : Node),
    parse [] "\\frac\x7ba\x7d\x7bb\x7d" = .ok f ∧ parse [] (f.latex .ast) = .ok f ∧
    n ∈ f.children.flatMap Node.outer ∧ n.id? = some "0" ∧ ¬ (Styling.color "red").Clashes f "0" n ∧
    ((Styling.color "red").apply f [["0"]]).Ensures ((Minter.mk [] (.counting "n" 1)).pool f.ids)
      ⟨[], .counting "n" 1⟩ fun e _ => ∃ g, parse [] (e.formula.latex .render) = .ok g ∧
        g.tags = e.formula.tags := by
  let n := Node.frac "0" (.symbol "0.numerator" "a") (.symbol "0.denominator" "b")
  obtain ⟨f, hf, hagain, hn⟩ := exists_ok_of_any (p := fun f : Formula =>
      (parse [] (f.latex .ast)).toOption = some f ∧ n ∈ f.children.flatMap Node.outer)
    (show (parse [] "\\frac\x7ba\x7d\x7bb\x7d").toOption.any _ by decide +kernel)
  have hnot : ¬ (Styling.color "red").Clashes f "0" n := by
    rintro ⟨-, hclash⟩
    exact absurd hclash (by decide +kernel)
  have hnames : ∀ name ∈ (Styling.color "red").names, ∀ c ∈ name.toList, c.isAlpha := by
    intro name hname
    rw [List.mem_singleton.mp hname]
    exact List.all_eq_true.mp (by decide)
  have hread := parse_latex_render_apply (s := .color "red") hf (ok_of_toOption hagain) (by decide) hnames hn
    rfl ⟨[], .counting "n" 1⟩
  exact ⟨f, n, hf, ok_of_toOption hagain, hn, rfl, hnot, hread.mono fun e _ h => h.1 hnot⟩

/-- A colored symbol keeps as its id the path that its color has now. -/
theorem parse_latex_render_colored_symbol : ∃ (f : Formula) (e : Edited),
    parse [] "x" = .ok f ∧ parse [] (f.latex .ast) = .ok f ∧
    (((Styling.color "red").apply f [["0"]]).run ⟨[], .counting "n" 1⟩).1 = .ok e ∧
    e.formula.latex .render = "\\textcolor\x7bred\x7d\x7b\\cssId\x7b0\x7d\x7bx\x7d\x7d" ∧
    parse [] (e.formula.latex .render) = .error (.duplicate ⟨"0"⟩) := by
  obtain ⟨f, hf, hagain, hrun⟩ := exists_ok_of_any (p := fun f : Formula =>
      (parse [] (f.latex .ast)).toOption = some f ∧
        (((Styling.color "red").apply f [["0"]]).run ⟨[], .counting "n" 1⟩).1.toOption.any fun e =>
          e.formula.latex .render = "\\textcolor\x7bred\x7d\x7b\\cssId\x7b0\x7d\x7bx\x7d\x7d")
    (show (parse [] "x").toOption.any _ by decide +kernel)
  obtain ⟨e, he, hrender⟩ := exists_ok_of_any hrun
  refine ⟨f, e, hf, ok_of_toOption hagain, he, hrender, ?_⟩
  rw [hrender]
  decide +kernel

end Formula

end FormulaDoc
