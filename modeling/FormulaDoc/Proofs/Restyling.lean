import FormulaDoc.Proofs.Consolidation
import FormulaDoc.Proofs.Wrapping

namespace FormulaDoc

namespace Formula

variable {c : Formula} {kind : Kind} {g : Node → Node} {selected : List String} {m m' m'' : Minter}
  {p : Pool}

/-- A new wrapper of a kind around a node. -/
structure NewWrapper (kind : Kind) (b : Node) (m : Minter) (w : Node) (m' : Minter) : Prop where
  draws : ∃ id, m.Draws [id] m' ∧ w.id? = some id
  kind_eq : w.kind = kind
  children_eq : w.children = [b]

/-- What a visitor makes of a node in a formula: nothing, the node with its attributes changed, or a new
wrapper around it. -/
inductive Visits (c : Formula) (kind : Kind) (g : Node → Node) (b : Node) (m : Minter) :
    Option Node → Minter → Prop
  | keep (h : g b = b) : Visits c kind g b m none m
  | change : Visits c kind g b m (some (g b)) m
  | wrap {w : Node} {m' : Minter} (h : g b = b) (hwrapper : NewWrapper kind b m w m')
      (hknown : b.id?.isSome) (hparent : ¬ c.parentIs kind b) : Visits c kind g b m (some w) m'

/-- What rewriting makes of siblings in a formula. Siblings that stand directly inside a carrier of the
kind keep their ids. -/
structure Rewrites (c : Formula) (kind : Kind) (g : Node → Node) (ns : List Node) (m : Minter)
    (below : List Rewritten) (m' : Minter) : Prop where
  wraps : ∃ new, m.Draws new m' ∧ Wraps kind g ns (below.map Prod.fst) new
  unchanged : below.any Prod.snd = false → below.map Prod.fst = ns
  ids : (∀ n ∈ ns, n.id?.isSome → c.parentIs kind n) →
    (below.map Prod.fst).map Node.id? = ns.map Node.id?

theorem Rewrites.nil (m : Minter) : c.Rewrites kind g [] m [] m := by
  refine ⟨?_, fun _ => rfl, fun _ => rfl⟩
  exact ⟨[], .refl m, .nil⟩

theorem Rewrites.cons {n : Node} {ns : List Node} {p : Rewritten} {below : List Rewritten}
    (h : c.Rewrites kind g [n] m [p] m') (h' : c.Rewrites kind g ns m' below m'') :
    c.Rewrites kind g (n :: ns) m (p :: below) m'' := by
  obtain ⟨new, hdraws, hwraps⟩ := h.wraps
  obtain ⟨new', hdraws', hwraps'⟩ := h'.wraps
  refine ⟨⟨_, hdraws.trans hdraws', hwraps.append hwraps'⟩, fun hsame => ?_, fun hparent => ?_⟩
  · rw [List.any_cons, Bool.or_eq_false_iff] at hsame
    have hhead := h.unchanged (by simp [hsame.1])
    rw [List.map_cons, h'.unchanged hsame.2]
    exact congrArg (· ++ ns) hhead
  · have hhead := h.ids fun k hk => hparent k (List.mem_singleton.mp hk ▸ List.mem_cons_self)
    have htail := h'.ids fun k hk => hparent k (List.mem_cons_of_mem n hk)
    rw [List.map_cons, List.map_cons, List.map_cons, htail]
    exact congrArg (· ++ ns.map Node.id?) hhead

theorem ensures_mapM_rewrite {x : Node → Minting Rewritten} {ns : List Node}
    (h : ∀ n ∈ ns, ∀ m, m.DrawsFrom p → (x n).Ensures p m fun r m' => c.Rewrites kind g [n] m [r] m')
    (hm : m.DrawsFrom p) : (ns.mapM x).Ensures p m (c.Rewrites kind g ns m) := by
  induction ns generalizing m with
  | nil => exact Minting.ensures_pure hm (.nil m)
  | cons n ns ih =>
    rw [List.mapM_cons]
    refine (h n List.mem_cons_self m hm).bind fun r m₁ _ hm₁ hhead => ?_
    have hrest := ih (fun k hk => h k (List.mem_cons_of_mem n hk)) hm₁
    refine hrest.bind fun below m₂ _ hm₂ htail => ?_
    exact Minting.ensures_pure hm₂ (hhead.cons htail)

/-- A node as a visitor receives it: rebuilt around its rewritten children. -/
structure Rebuilt (kind : Kind) (n b : Node) : Prop where
  kind_eq : b.kind = n.kind
  id?_eq : b.id? = n.id?
  ids_eq : n.kind = kind → b.children.map Node.id? = n.children.map Node.id?

theorem Rewrites.rebuilt {n : Node} {below : List Rewritten} (hn : n ∈ c.nodes)
    (h : c.Rewrites kind g n.children m below m') :
    Rebuilt kind n (n.withChildren (below.map Prod.fst)) := by
  obtain ⟨_, _, hwraps⟩ := h.wraps
  refine ⟨n.kind_withChildren_any _, n.id?_withChildren_any _, fun hkind => ?_⟩
  rw [Node.children_withChildren hwraps.length]
  refine h.ids fun child hchild hknown => ?_
  obtain ⟨id, hid⟩ := Option.isSome_iff_exists.mp hknown
  simp [parentIs, hid, parent?_of_child hn hchild hid, hkind]

/-- One visit after the children were rewritten. -/
theorem Rewrites.visit {n : Node} {below : List Rewritten} {o : Option Node} (hg : Node.Repaints g)
    (h : c.Rewrites kind g n.children m below m')
    (hvisit : c.Visits kind g (n.withChildren (below.map Prod.fst)) m' o m'') :
    c.Rewrites kind g [n] m
      [match o with
        | some r => (r, true)
        | none => (n.withChildren (below.map Prod.fst), below.any Prod.snd)] m'' := by
  obtain ⟨new, hdraws, hwraps⟩ := h.wraps
  have hrebuild := hwraps.rebuild hg
  have hid := n.id?_withChildren_any (below.map Prod.fst)
  cases hvisit with
  | keep hself =>
    rw [hself] at hrebuild
    refine ⟨⟨new, hdraws, hrebuild⟩, fun hsame => ?_, fun _ => congrArg (· :: []) hid⟩
    have hbelow := h.unchanged (by simpa using hsame)
    simp [hbelow, Node.withChildren_children]
  | change =>
    refine ⟨⟨new, hdraws, hrebuild⟩, fun hsame => absurd hsame (by simp), fun _ => ?_⟩
    simp [hg.id?, hid]
  | wrap hself hwrapper hknown hparent =>
    obtain ⟨id, hdraw, hwid⟩ := hwrapper.draws
    rw [hself] at hrebuild
    have hwrap := hrebuild.wrap hwid hwrapper.kind_eq hwrapper.children_eq
    refine ⟨⟨_, hdraws.trans hdraw, hwrap⟩, fun hsame => absurd hsame (by simp),
      fun hinside => absurd ?_ hparent⟩
    -- a node inside a carrier of the kind is not wrapped
    rw [hid] at hknown
    rw [parentIs, hid]
    exact hinside n List.mem_cons_self hknown

/-- What a visitor does throughout a formula, as far as ids can be drawn from a pool. -/
def Visitor (c : Formula) (kind : Kind) (g : Node → Node) (p : Pool)
    (visit : Node → Minting (Option Node)) : Prop :=
  ∀ n ∈ c.nodes, ∀ b, Rebuilt kind n b → ∀ m, m.DrawsFrom p →
    (visit b).Ensures p m (c.Visits kind g b m)

/-- Rewriting a node of a formula, given what its visitor makes of the nodes it receives. -/
theorem ensures_rewrite_node {visit : Node → Minting (Option Node)} (hg : Node.Repaints g)
    (hvisit : c.Visitor kind g p visit) {n : Node} (hn : n ∈ c.nodes) (hm : m.DrawsFrom p) :
    (n.rewrite visit).Ensures p m fun r m' => c.Rewrites kind g [n] m [r] m' := by
  induction n using Node.childrenInduction generalizing m with
  | step n ih =>
    rw [Node.rewrite_eq]
    have hbelow := ensures_mapM_rewrite (fun k hk m => ih k hk (mem_nodes_of_child hn hk)) hm
    refine hbelow.bind fun below m₁ _ hm₁ hchildren => ?_
    refine (hvisit n hn _ (hchildren.rebuilt hn) m₁ hm₁).bind fun o m₂ _ hm₂ ho => ?_
    have hdone := hchildren.visit hg ho
    cases o with
    | none => exact Minting.ensures_pure hm₂ hdone
    | some r => exact Minting.ensures_pure hm₂ hdone

/-- Rewriting a formula has a result: the ids of the wrappers are new. -/
theorem ensures_rewrite {visit : Node → Minting (Option Node)} (hg : Node.Repaints g)
    (hvisit : c.Visitor kind g p visit) (hm : m.DrawsFrom p) (htaken : m.taken = c.ids) :
    (c.rewrite visit).Ensures p m fun x m' => ∃ e new, x = .ok e ∧ m.Draws new m' ∧
      Wraps kind g c.children e.formula.children new := by
  have hbelow := ensures_mapM_rewrite (fun n hn _ =>
    ensures_rewrite_node hg hvisit (mem_nodes_of_top hn)) hm
  refine hbelow.bind fun below m' _ hm' h => ?_
  obtain ⟨new, hdraws, hwraps⟩ := h.wraps
  split
  next =>
    have hnodup : (new ++ c.ids).Nodup :=
      List.nodup_append'.mpr ⟨hdraws.nodup, c.nodup, fun id hid => htaken ▸ hdraws.fresh id hid⟩
    rw [ofNodes_eq_ok (hwraps.ids.nodup_iff.mpr hnodup)]
    exact Minting.ensures_pure hm' ⟨_, new, rfl, hdraws, hwraps⟩
  next hsame =>
    rw [h.unchanged (Bool.eq_false_iff.mpr hsame)] at hwraps
    exact Minting.ensures_pure hm' ⟨_, new, rfl, hdraws, hwraps⟩

section

variable {n b : Node} {paint : Node → Node}

theorem Rebuilt.touchedBy_eq (h : Rebuilt kind n b) (hkind : n.kind = kind) :
    b.touchedBy selected = n.touchedBy selected := by
  have hany : ∀ ns : List Node, ns.any (·.selectedIn selected) =
      (ns.map Node.id?).any fun id? => id?.any selected.contains := fun ns => by
    rw [List.any_map]
    rfl
  rw [Node.touchedBy, Node.touchedBy, hany, hany, h.ids_eq hkind, Node.selectedIn, Node.selectedIn,
    h.id?_eq]

/-- A carrier is changed just when the visitor finds it or one of its children selected. -/
theorem Rebuilt.selectedIn_touched (h : Rebuilt kind n b) (hn : n ∈ c.nodes) :
    b.selectedIn (c.touched kind selected) ↔ b.kind = kind ∧ b.touchedBy selected := by
  rw [Node.selectedIn, h.id?_eq, ← Node.selectedIn, Formula.selectedIn_touched hn, h.kind_eq]
  exact and_congr_right fun hkind => by rw [h.touchedBy_eq hkind]

theorem ensures_wrapTarget {wrap : Node → Minting Node} (hm : m.DrawsFrom p) (hself : g b = b)
    (hwrap : (wrap b).Ensures p m (NewWrapper kind b m)) :
    (wrapTarget kind wrap c selected b).Ensures p m (c.Visits kind g b m) := by
  unfold wrapTarget
  split
  next h =>
    rw [Bool.and_eq_true, Bool.not_eq_true'] at h
    obtain ⟨id, -, hid⟩ := Node.selectedIn_iff.mp h.1
    rw [map_eq_pure_bind]
    refine hwrap.bind fun w m' _ hm' hwrapper => Minting.ensures_pure hm' ?_
    exact .wrap hself hwrapper (by simp [hid]) (by simp [h.2])
  next => exact Minting.ensures_pure hm (.keep hself)

theorem ensures_wrapper {wrapper : String → Node} (hm : m.DrawsFrom p)
    (hid : ∀ id, (wrapper id).id? = some id)
    (hkind : ∀ id, (wrapper id).kind = kind) (hchildren : ∀ id, (wrapper id).children = [b]) :
    (do pure (wrapper (← mint)) : Minting Node).Ensures p m (NewWrapper kind b m) := by
  refine (Minting.ensures_mint hm).bind fun id m' _ hm' hdraws => ?_
  exact Minting.ensures_pure hm' ⟨⟨id, hdraws, hid id⟩, hkind id, hchildren id⟩

theorem ensures_carrierTarget {wrap : Node → Minting Node} (hn : n ∈ c.nodes) (hb : Rebuilt kind n b)
    (hm : m.DrawsFrom p) (hwrap : (wrap b).Ensures p m (NewWrapper kind b m)) :
    (if b.kind = kind ∧ b.touchedBy selected then pure (some (paint b))
      else wrapTarget kind wrap c selected b).Ensures p m
      (c.Visits kind (Node.paintOn (c.touched kind selected) paint) b m) := by
  have htouched : b.selectedIn (c.touched kind selected) ↔ b.kind = kind ∧ b.touchedBy selected :=
    hb.selectedIn_touched hn
  split
  next h =>
    have hpaint : Node.paintOn (c.touched kind selected) paint b = paint b := if_pos (htouched.mpr h)
    rw [← hpaint]
    exact Minting.ensures_pure hm .change
  next h => exact ensures_wrapTarget hm (if_neg (mt htouched.mp h)) hwrap

theorem colorTarget_eq (color : String) (c : Formula) (selected : List String) (n : Node) :
    colorTarget color c selected n =
      if n.kind = .color ∧ n.touchedBy selected then pure (some (n.recolor color))
      else wrapTarget .color (fun n => do pure (.color (← mint) color [n])) c selected n := by
  cases n with
  | color =>
    refine if_congr ?_ rfl rfl
    simp [Node.touchedBy, Node.selectedIn, Node.id?, Node.children, Node.kind]
  | _ => rfl

theorem boxTarget_eq (border background : String) (c : Formula) (selected : List String) (n : Node) :
    boxTarget border background c selected n =
      if n.kind = .box ∧ n.touchedBy selected then pure (some (n.rebox border background))
      else wrapTarget .box (fun n => do pure (.box (← mint) border n background)) c selected n := by
  cases n with
  | box =>
    refine if_congr ?_ rfl rfl
    simp [Node.touchedBy, Node.selectedIn, Node.id?, Node.children, Node.kind]
  | _ => rfl

end

/-- A formula `r` made of `f` by a style command, with `c` the consolidated one: new groups, as in `c`,
wrappers of the kind with one child each, and `painted` once wrappers and groups are taken out. -/
structure Restyles (f c r : Formula) (kind : Kind) (groups wrappers : List String)
    (painted : List Node) : Prop where
  consolidated : c.ids.Perm (groups ++ f.ids)
  ids : r.ids.Perm (wrappers ++ c.ids)
  kept : ∀ n ∈ f.nodes, ∃ n' ∈ r.nodes, n'.id? = n.id? ∧ n'.kind = n.kind
  group_of_mem : ∀ id ∈ groups, ∃ n ∈ r.nodes, n.id? = some id ∧ n.kind = .group
  wrapper_of_mem : ∀ id ∈ wrappers, ∃ w ∈ r.nodes,
    w.id? = some id ∧ w.kind = kind ∧ w.children.length = 1
  restored : spliceAll groups (r.children.map (Node.unwrap wrappers)) = painted

/-- What a style command makes of a formula, given what is left of it once the new nodes are taken out
again: this may depend on the consolidated formula and the targets in it. -/
def StyledAs (f : Formula) (runs : List (List String)) (m : Minter) (kind : Kind)
    (painted : Formula → List String → List Node) (r : Formula) : Prop :=
  ∃ c targets m' groups wrappers, (consolidate false f runs).run m = (.ok (c, targets), m') ∧
    f.Restyles c.formula r kind groups wrappers (painted c.formula (targets.filterMap id))

variable {f r : Formula} {groups wrappers : List String}

theorem Regroups.restyles (h : f.Regroups c groups) (hg : Node.Repaints g) (hm : m.taken = c.ids)
    (hdraws : m.Draws wrappers m') (hwraps : Wraps kind g c.children r.children wrappers) :
    f.Restyles c r kind groups wrappers (f.children.map (Node.everywhere g)) := by
  refine ⟨h.ids, hwraps.ids, fun n hn => ?_, fun id hid => ?_, hwraps.wrappers, ?_⟩
  · obtain ⟨n', hn', rfl⟩ := h.exists_splice hn
    obtain ⟨k, hk, hid, hkind⟩ := hwraps.kept n' hn'
    exact ⟨k, hk, by rw [hid, Node.id?_splice], by rw [hkind, Node.kind_splice]⟩
  · obtain ⟨body, hbody, -⟩ := h.groups id hid
    exact hwraps.kept _ hbody
  · have hnew := hdraws.fresh
    rw [hm] at hnew
    rw [hwraps.unwrap wrappers (fun _ hid => hid) hnew, spliceAll_map_everywhere hg, h.splice]

/-- A style command whose visitor leaves nodes alone, changes their attributes or wraps them. -/
theorem ensures_restyle {visit : Formula → List String → Node → Minting (Option Node)}
    {g : Formula → List String → Node → Node} (hg : ∀ c selected, Node.Repaints (g c selected))
    (hvisit : ∀ (c : Formula) (selected : List String) (p : Pool),
      c.Visitor kind (g c selected) p (visit c selected))
    (f : Formula) (runs : List (List String)) (m : Minter) :
    (restyle visit f runs).Ensures (m.pool f.ids) m fun e _ => f.StyledAs runs m kind
      (fun c selected => f.children.map (Node.everywhere (g c selected))) e.formula := by
  refine (ensures_consolidate false f runs m).bind fun a m₁ hrun hm₁ h => ?_
  obtain ⟨groups, hdraws, hregroups⟩ := h.regroups
  have htaken : ∀ id ∈ a.1.formula.ids, id ∈ m₁.taken := by
    intro id hid
    rw [hdraws.taken]
    exact hregroups.ids.mem_iff.mp hid
  have hm₂ := hm₁.retake htaken
  refine (Minting.ensures_mintBeside hm₂).bind fun _ m₂ _ _ he => ?_
  rw [he]
  refine (ensures_rewrite (hg _ _) (hvisit _ _ _) hm₂ rfl).bind fun x m₃ _ hm₃ hx => ?_
  obtain ⟨e, wrappers, rfl, hdraws, hwraps⟩ := hx
  have hrestyles := hregroups.restyles (hg _ _) rfl hdraws hwraps
  exact Minting.ensures_pure hm₃ ⟨a.1, a.2, m₁, groups, wrappers, hrun, hrestyles⟩

/-- The frame of the wrapping style commands. They fail for want of ids only; otherwise every node is
still there under its id, the new nodes are groups of the consolidation and wrappers of one child, and
taking the wrappers and the groups out again gives the formula back, but for the attributes of the
carriers that are targets or hold one. -/
theorem styled_frame (f : Formula) (runs : List (List String)) (m : Minter)
    (color border background : String) :
    ((applyColor f runs color).Ensures (m.pool f.ids) m fun e _ => f.StyledAs runs m .color
      (fun c targets => f.children.map
        (Node.everywhere (Node.paintOn (c.touched .color targets) (Node.recolor color)))) e.formula) ∧
    ((applyBox f runs border background).Ensures (m.pool f.ids) m fun e _ => f.StyledAs runs m .box
      (fun c targets => f.children.map
        (Node.everywhere (Node.paintOn (c.touched .box targets) (Node.rebox border background))))
      e.formula) ∧
    ((applyStrike f runs).Ensures (m.pool f.ids) m fun e _ => f.StyledAs runs m .strike
      (fun _ _ => f.children) e.formula) := by
  refine ⟨?_, ?_, ?_⟩
  · have hpaint := Node.repaints_recolor color
    refine ensures_restyle (fun c targets => hpaint.paintOn _) ?_ f runs m
    intro c targets p n hn b hb m hm
    rw [colorTarget_eq]
    refine ensures_carrierTarget hn hb hm ?_
    exact ensures_wrapper hm (fun _ => rfl) (fun _ => rfl) fun _ => rfl
  · have hpaint := Node.repaints_rebox border background
    refine ensures_restyle (fun c targets => hpaint.paintOn _) ?_ f runs m
    intro c targets p n hn b hb m hm
    rw [boxTarget_eq]
    refine ensures_carrierTarget hn hb hm ?_
    exact ensures_wrapper hm (fun _ => rfl) (fun _ => rfl) fun _ => rfl
  · have hself : ∀ n ∈ f.children, n.everywhere id = n :=
      fun n _ => Node.everywhere_eq_self fun _ _ => rfl
    have hsame : f.children.map (Node.everywhere id) = f.children := by
      rw [List.map_congr_left hself, List.map_id']
    rw [← hsame]
    refine ensures_restyle (fun _ _ => Node.repaints_id) ?_ f runs m
    intro c targets p n hn b hb m hm
    unfold strikeTarget
    split
    next => exact Minting.ensures_pure hm (.keep rfl)
    next =>
      refine ensures_wrapTarget hm rfl ?_
      exact ensures_wrapper hm (fun _ => rfl) (fun _ => rfl) fun _ => rfl

/-- A run inside a color is grouped and the color changed; a symbol outside is put in a new color. -/
example : ((applyColor ⟨[.color "c" "red" [.symbol "a" "x", .symbol "b" "y"], .symbol "d" "z"],
      by decide +kernel⟩ [["a", "b"], ["d"]] "blue").run ⟨[], .listed ["c", "g", "w"]⟩).1.toOption.map
        (·.formula.children) =
    some [.color "c" "blue" [.group "g" [.symbol "a" "x", .symbol "b" "y"]],
      .color "w" "blue" [.symbol "d" "z"]] := by
  decide +kernel

end Formula

end FormulaDoc
