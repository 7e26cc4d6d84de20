import FormulaDoc.Proofs.FreshIds
import FormulaDoc.Proofs.Runs

namespace FormulaDoc

theorem perm_forestIds_group (new : String) (before body after : List Node) :
    (forestIds (before ++ .group new body :: after)).Perm
      (new :: forestIds (before ++ body ++ after)) := by
  have hgroup : (Node.group new body).ids = new :: forestIds body := by
    rw [Node.ids_eq, forestIds_eq]
    rfl
  have hcons : forestIds (.group new body :: after) = new :: (forestIds body ++ forestIds after) := by
    rw [forestIds_eq, List.flatMap_cons, hgroup, ← forestIds_eq]
    rfl
  rw [forestIds_append, hcons, forestIds_append, forestIds_append, List.append_assoc]
  exact List.perm_middle

namespace Formula

variable {f g r : Formula} {new new' : List String} {p : Pool} {m : Minter}

/-- The formula does not have what a run names. A run of one id that is not to be grouped is stale if
the id is unknown. -/
def Stale (singles : Bool) (f : Formula) (run : List String) : Prop :=
  if run.length = 1 ∧ !singles then ∀ id ∈ run, id ∉ f.ids else run = [] ∨ ¬ f.Contiguous run

/-- A formula that differs from another one in new groups only, none of them empty. -/
structure Regroups (f r : Formula) (new : List String) : Prop where
  ids : r.ids.Perm (new ++ f.ids)
  groups : ∀ id ∈ new, ∃ body, .group id body ∈ r.nodes ∧ body ≠ []
  splice : spliceAll new r.children = f.children

namespace Regroups

theorem refl (f : Formula) : f.Regroups f [] := by
  have hsame : spliceAll [] f.children = f.children := spliceAll_eq_self (by simp)
  exact ⟨.refl _, by simp, hsame⟩

/-- A node that was there before is still there, with what it holds in new groups. -/
theorem exists_splice (h : f.Regroups r new) {n : Node} (hn : n ∈ f.nodes) :
    ∃ n' ∈ r.nodes, n = n'.splice new := by
  rw [nodes, ← h.splice] at hn
  exact exists_of_mem_spliceAll hn

theorem trans (h : f.Regroups g new) (h' : g.Regroups r new') : f.Regroups r (new' ++ new) := by
  refine ⟨?_, ?_, ?_⟩
  · rw [List.append_assoc]
    exact h'.ids.trans (h.ids.append_left new')
  · intro id hid
    rcases List.mem_append.mp hid with hid | hid
    · exact h'.groups id hid
    · obtain ⟨body, hbody, hne⟩ := h.groups id hid
      obtain ⟨n, hn, he⟩ := h'.exists_splice hbody
      have hkind : n.kind = .group := (n.kind_splice new').symm.trans (he ▸ rfl)
      cases n with
      | group id' body' =>
        rw [Node.splice_group, Node.group.injEq] at he
        rw [← he.1] at hn
        refine ⟨body', hn, ?_⟩
        rintro rfl
        exact hne he.2
      | _ => cases hkind
  · rw [spliceAll_append, h'.splice, h.splice]

end Regroups

section

variable {id : String} {p : Node} {before body after : List Node}

/-- A group around siblings at the top. -/
theorem regroups_top (hitems : f.children = before ++ body ++ after) (hbody : body ≠ [])
    (hnew : id ∉ f.ids) :
    ∃ g, ofNodes (before ++ .group id body :: after) = .ok g ∧ f.Regroups g [id] := by
  have hids := perm_forestIds_group id before body after
  rw [ids, hitems] at hnew
  have hnodup : (forestIds (before ++ body ++ after)).Nodup := hitems ▸ f.nodup
  have hnodup' : (forestIds (before ++ .group id body :: after)).Nodup :=
    hids.nodup_iff.mpr (List.nodup_cons.mpr ⟨hnew, hnodup⟩)
  refine ⟨_, ofNodes_eq_ok hnodup', ?_, ?_, ?_⟩
  · show (forestIds _).Perm (id :: forestIds f.children)
    rw [hitems]
    exact hids
  · intro i hi
    have hgroup : Node.group id body ∈ before ++ .group id body :: after := by simp
    refine ⟨body, ?_, hbody⟩
    rw [List.mem_singleton.mp hi]
    exact mem_nodes_of_top hgroup
  · rw [hitems]
    exact spliceAll_group hnew

/-- A group around siblings that a node holds. -/
theorem regroups_replaceNode (hp : p ∈ f.nodes)
    (hitems : p.sequence? = some (before ++ body ++ after)) (hbody : body ≠ []) (hnew : id ∉ f.ids) :
    ∃ e, f.replaceNode (p.id?.getD "") (p.withChildren (before ++ .group id body :: after)) = .ok e ∧
      f.Regroups e.formula [id] := by
  obtain ⟨pid, hpid⟩ := Node.exists_id?_of_sequence hitems
  have hrefill := Node.children_withChildren_of_sequence (Option.isSome_of_eq_some hitems)
    (before ++ .group id body :: after)
  have hids : (p.withChildren (before ++ .group id body :: after)).ids.Perm (id :: p.ids) := by
    have hgrouped := perm_forestIds_group id before body after
    rw [Node.ids_eq, p.ids_eq, p.id?_withChildren_any, hrefill, Node.children_of_sequence hitems,
      ← forestIds_eq, ← forestIds_eq]
    exact (hgrouped.append_left _).trans List.perm_middle
  obtain ⟨e, he, hchildren⟩ := replaceNode_eq hp hpid hids hnew
  refine ⟨e, by rw [hpid]; exact he, ?_, ?_, ?_⟩
  · show (forestIds e.formula.children).Perm _
    rw [hchildren]
    exact ids_substitute hp hpid hids
  · intro i hi
    have hgroup : Node.group id body ∈ before ++ .group id body :: after := by simp
    refine ⟨body, ?_, hbody⟩
    rw [List.mem_singleton.mp hi]
    refine mem_nodes_of_child (mem_nodes_of_substitute hp hpid hchildren) ?_
    rw [hrefill]
    exact hgroup
  · rw [hchildren]
    exact spliceAll_substitute hp hpid hitems hnew

end

/-- What consolidating one run gives: a formula with the run in a new group, or the same one, and the id
of a node in it unless the run is stale. -/
structure GroupsRun (singles : Bool) (f : Formula) (run : List String) (m : Minter)
    (a : Edited × Option String) (m' : Minter) : Prop where
  regroups : ∃ new, m.Draws new m' ∧ f.Regroups a.1.formula new
  mem : ∀ id, a.2 = some id → id ∈ a.1.formula.ids
  stale : a.2 = none ↔ f.Stale singles run
  target : ∀ id ∈ a.1.formula.ids, id ∈ f.ids ∨ a.2 = some id

theorem ensures_consolidateRun (singles : Bool) (run : List String) (hm : m.DrawsFrom p)
    (htaken : ∀ id ∈ f.ids, id ∈ m.taken) :
    (consolidateRun singles f run).Ensures p m (f.GroupsRun singles run m) := by
  unfold consolidateRun
  split
  next hsingle =>
    obtain ⟨id, rfl⟩ := List.length_eq_one_iff.mp hsingle.1
    have htarget : [id].head?.filter f.contains = if id ∈ f.ids then some id else none := by
      simp [Option.filter, contains_iff]
    rw [htarget]
    refine Minting.ensures_pure hm ⟨⟨[], .refl m, .refl f⟩, ?_, ?_, fun _ => .inl⟩
    · simp +contextual
    · rw [Stale, if_pos hsingle]
      simp
  next hgrouped =>
    have hstale : f.Stale singles run ↔ f.locate? run = none := by
      rw [Stale, if_neg hgrouped, locate?_eq_none_iff]
    split
    next hnone =>
      exact Minting.ensures_pure hm
        ⟨⟨[], .refl m, .refl f⟩, by simp, by simp [hstale, hnone], fun _ => .inl⟩
    next r hr =>
      obtain ⟨before, body, after, hholds, hrun, hbody, hitems⟩ := exists_of_locate? hr
      have hne : body ≠ [] := by
        rintro rfl
        exact hrun (List.map_eq_nil_iff.mp hbody.symm)
      refine (Minting.ensures_mint hm).bind fun id m' _ hm' hdraws => ?_
      have hnew : id ∉ f.ids :=
        fun hid => hdraws.fresh id (List.mem_singleton_self id) (htaken id hid)
      have hdone : ∀ e : Edited, f.Regroups e.formula [id] →
          f.GroupsRun singles run m (e, some id) m' := by
        intro e he
        refine ⟨⟨[id], hdraws, he⟩, ?_, by simp [hstale, hr], fun i hi => ?_⟩
        · rintro i ⟨⟩
          exact he.ids.mem_iff.mpr (by simp)
        · rcases List.mem_cons.mp (he.ids.mem_iff.mp hi) with rfl | hi
          · exact .inr rfl
          · exact .inl hi
      simp only [hitems]
      split
      next hparent =>
        rw [hparent] at hholds
        obtain ⟨g, hg, hregroups⟩ := regroups_top (Option.some.inj hholds.2) hne hnew
        rw [hg]
        exact Minting.ensures_pure hm' (hdone ⟨g, true⟩ hregroups)
      next p hparent =>
        rw [hparent] at hholds
        obtain ⟨e, he, hregroups⟩ := regroups_replaceNode (hholds.1 p rfl) hholds.2 hne hnew
        rw [he]
        exact Minting.ensures_pure hm' (hdone e hregroups)

/-- What consolidating the runs of a selection gives. Each run is stale or not in the formula that the
runs before it give. -/
structure GroupsRuns (singles : Bool) (f : Formula) (runs : List (List String)) (m : Minter)
    (a : Edited × List (Option String)) (m' : Minter) : Prop where
  regroups : ∃ new, m.Draws new m' ∧ f.Regroups a.1.formula new
  length : a.2.length = runs.length
  mem : ∀ id, some id ∈ a.2 → id ∈ a.1.formula.ids
  stale : ∀ i run, runs[i]? = some run → ∃ e targets m₁,
    (consolidateRuns singles f (runs.take i)).run m = (.ok (e, targets), m₁) ∧
      (a.2[i]? = some none ↔ e.formula.Stale singles run)
  targets : ∀ id ∈ a.1.formula.ids, id ∈ f.ids ∨ some id ∈ a.2

theorem ensures_consolidateRuns (singles : Bool) (runs : List (List String)) (hm : m.DrawsFrom p)
    (htaken : ∀ id ∈ f.ids, id ∈ m.taken) :
    (consolidateRuns singles f runs).Ensures p m (f.GroupsRuns singles runs m) := by
  induction runs generalizing f m with
  | nil =>
    exact Minting.ensures_pure hm ⟨⟨[], .refl m, .refl f⟩, rfl, by simp, by simp, fun _ => .inl⟩
  | cons run runs ih =>
    refine (ensures_consolidateRun singles run hm htaken).bind fun a m₁ hfirst hm₁ hstep => ?_
    obtain ⟨new, hdraws, hregroups⟩ := hstep.regroups
    have htaken₁ : ∀ id ∈ a.1.formula.ids, id ∈ m₁.taken := by
      intro id hid
      rw [hdraws.taken]
      rcases List.mem_append.mp (hregroups.ids.mem_iff.mp hid) with hnew | hold
      · exact List.mem_append_left _ hnew
      · exact List.mem_append_right _ (htaken id hold)
    refine (ih hm₁ htaken₁).bind fun b m₂ _ hm₂ hrest => Minting.ensures_pure hm₂ ?_
    obtain ⟨new', hdraws', hregroups'⟩ := hrest.regroups
    refine ⟨⟨new' ++ new, hdraws.trans hdraws', hregroups.trans hregroups'⟩, ?_, ?_, ?_, ?_⟩
    · exact congrArg (· + 1) hrest.length
    · intro id hid
      rcases List.mem_cons.mp hid with hid | hid
      · have hmem := hstep.mem id hid.symm
        exact hregroups'.ids.mem_iff.mpr (List.mem_append_right _ hmem)
      · exact hrest.mem id hid
    · intro i r hr
      cases i with
      | zero =>
        cases Option.some.inj hr
        exact ⟨⟨f, false⟩, [], m, rfl, by simpa using hstep.stale⟩
      | succ i =>
        obtain ⟨e, targets, m₃, hrun, hstale⟩ := hrest.stale i r hr
        refine ⟨⟨e.formula, a.1.changed || e.changed⟩, a.2 :: targets, m₃, ?_, hstale⟩
        -- the runs before this one are the first and those that the rest has before it
        rw [List.take_succ_cons, consolidateRuns, Minting.run_bind, hfirst]
        simp only
        rw [Minting.run_bind, hrun]
        rfl
    · intro id hid
      rcases hrest.targets id hid with hid | hid
      · rcases hstep.target id hid with hid | htarget
        · exact .inl hid
        · exact .inr (htarget ▸ List.mem_cons_self)
      · exact .inr (List.mem_cons_of_mem _ hid)

theorem ensures_consolidate (singles : Bool) (f : Formula) (runs : List (List String)) (m : Minter) :
    (consolidate singles f runs).Ensures (m.pool f.ids) m
      (f.GroupsRuns singles runs { m with taken := f.ids }) := by
  have hm := m.drawsFrom_pool f.ids
  refine (Minting.ensures_mintBeside hm).bind fun _ m' _ _ he => ?_
  rw [he]
  exact ensures_consolidateRuns singles runs hm fun _ hid => hid

/-- Consolidating a selection loses nothing. Either there are not enough ids to be drawn, or the result
has the ids of the formula and new ones, each of a group that is not empty, and is the formula again
once these groups are taken out; a run has no target just when it is stale in what the runs before it
give. -/
theorem consolidate_lossless (singles : Bool) (f : Formula) (runs : List (List String)) (m : Minter) :
    (consolidate singles f runs).Ensures (m.pool f.ids) m fun (e, targets) _ =>
      (∃ new : List String, new.Nodup ∧ "" ∉ new ∧ e.formula.ids.Perm (new ++ f.ids) ∧
        (∀ id ∈ new, ∃ body, .group id body ∈ e.formula.nodes ∧ body ≠ []) ∧
        spliceAll new e.formula.children = f.children) ∧
      targets.length = runs.length ∧
      (∀ id, some id ∈ targets → id ∈ e.formula.ids) ∧
      ∀ i run, runs[i]? = some run → ∃ before done m',
        (consolidate singles f (runs.take i)).run m = (.ok (before, done), m') ∧
          (targets[i]? = some none ↔ before.formula.Stale singles run) := by
  refine (ensures_consolidate singles f runs m).mono fun a m' h => ?_
  obtain ⟨new, hdraws, hregroups⟩ := h.regroups
  refine ⟨⟨new, hdraws.nodup, hdraws.ne_empty, ?_, ?_, ?_⟩, h.length, h.mem, h.stale⟩
  · exact hregroups.ids
  · exact hregroups.groups
  · exact hregroups.splice

/-- The second run takes in the group that the first one makes, and the third is stale by then. -/
example : ((consolidate true ⟨[.symbol "a" "x", .symbol "b" "y", .symbol "c" "z"], by decide +kernel⟩
      [["b", "c"], ["a", "g"], ["a", "b"]]).run ⟨[], .listed ["a", "g", "h"]⟩).1.toOption.map
        (fun (e, targets) => (e.formula.children, targets)) =
    some ([.group "h" [.symbol "a" "x", .group "g" [.symbol "b" "y", .symbol "c" "z"]]],
      [some "g", some "h", none]) := by
  decide +kernel

end Formula

end FormulaDoc
