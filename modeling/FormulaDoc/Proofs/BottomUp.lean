import FormulaDoc.Proofs.Index
import FormulaDoc.Rewrite
import Mathlib.Data.List.Perm.Basic

namespace FormulaDoc

theorem any_congr_of_mem {α : Type} {p q : α → Bool} {l : List α} (h : ∀ a ∈ l, p a = q a) :
    l.any p = l.any q := by
  rw [List.any_eq, List.any_eq]
  exact decide_eq_decide.mpr (exists_congr fun a => and_congr_right fun ha => by rw [h a ha])

namespace Node

variable {g : Node → Node} {n : Node}

theorem id?_withChildren_any (n : Node) (cs : List Node) : (n.withChildren cs).id? = n.id? := by
  unfold withChildren
  split <;> rfl

theorem kind_withChildren_any (n : Node) (cs : List Node) : (n.withChildren cs).kind = n.kind := by
  unfold withChildren
  split <;> rfl

theorem withChildren_withChildren {cs ds : List Node} (hcs : cs.length = n.children.length)
    (hds : ds.length = n.children.length) :
    (n.withChildren cs).withChildren ds = n.withChildren ds := by
  have hlength : ds.length = (n.withChildren cs).children.length := by
    rw [children_withChildren hcs, hds, hcs]
  refine ext_iff.mpr ⟨?_, ?_, ?_⟩
  · rw [shape_withChildren hlength, shape_withChildren hcs, shape_withChildren hds]
  · rw [id?_withChildren hlength, id?_withChildren hcs, id?_withChildren hds]
  · rw [children_withChildren hlength, children_withChildren hds]

theorem mapChildren_mapChildren (g g' : Node → Node) (n : Node) :
    (n.mapChildren g).mapChildren g' = n.mapChildren fun c => g' (g c) := by
  rw [mapChildren, children_mapChildren, List.map_map, mapChildren,
    withChildren_withChildren (by simp) (by simp)]
  rfl

/-- The node that a function makes of a tree when it is applied to every node in turn, to the children
of a node before the node. -/
def everywhere (g : Node → Node) (n : Node) : Node :=
  g (n.withChildren (n.children.attach.map fun ⟨c, _⟩ => c.everywhere g))
termination_by n.size
decreasing_by exact size_lt_of_mem ‹_›

theorem everywhere_eq (g : Node → Node) (n : Node) :
    n.everywhere g = g (n.mapChildren (everywhere g)) := by
  rw [everywhere, mapChildren]
  simp

theorem everywhere_eq_self (h : ∀ m ∈ n.preorder, g m = m) : n.everywhere g = n := by
  induction n using childrenInduction with
  | step n ih =>
    have hbelow : ∀ c ∈ n.children, c.everywhere g = c :=
      fun c hc => ih c hc fun m hm => h m (mem_preorder_of_child hc hm)
    rw [everywhere_eq, mapChildren_eq_self hbelow, h n n.self_mem_preorder]

section

variable (v : Node → Option Node)

theorem run_rewrite (n : Node) : Id.run (n.rewrite fun n => pure (v n)) =
    match v (n.mapChildren fun c => (Id.run (c.rewrite fun n => pure (v n))).1) with
    | some r => (r, true)
    | none => (n.mapChildren fun c => (Id.run (c.rewrite fun n => pure (v n))).1,
      n.children.any fun c => (Id.run (c.rewrite fun n => pure (v n))).2) := by
  rw [rewrite_eq, Id.run_bind, List.idRun_mapM, List.map_map, List.any_map, mapChildren]
  simp only [Function.comp_def, Id.run_bind, Id.run_pure]
  cases v _ <;> rfl

/-- A visitor without effects makes a function of nodes, applied from the leaves up. -/
theorem fst_run_rewrite (n : Node) :
    (Id.run (n.rewrite fun n => pure (v n))).1 = n.everywhere fun n => (v n).getD n := by
  induction n using childrenInduction with
  | step n ih =>
    rw [run_rewrite, everywhere_eq, mapChildren_congr ih]
    split
    next r hr => rw [hr]; rfl
    next hr => rw [hr]; rfl

/-- A tree that the visitor leaves alone throughout stays as it is. -/
theorem everywhere_of_not_changed {n : Node}
    (h : (Id.run (n.rewrite fun n => pure (v n))).2 = false) :
    (n.everywhere fun n => (v n).getD n) = n := by
  induction n using childrenInduction with
  | step n ih =>
    rw [run_rewrite] at h
    split at h
    next => cases h
    next hr =>
      have hbelow := fun c hc => ih c hc (by simpa using List.any_eq_false.mp h c hc)
      have hself : v n = none := by
        rwa [mapChildren_eq_self fun c hc => (fst_run_rewrite v c).trans (hbelow c hc)] at hr
      rw [everywhere_eq, mapChildren_eq_self hbelow, hself]
      rfl

end

end Node

/-- A visitor without effects makes a function of formulas, except that ids may be repeated. -/
theorem Formula.run_rewrite_eq (f : Formula) (v : Node → Option Node) :
    Id.run (f.rewrite fun n => pure (v n)) =
      (ofNodes (f.children.map (Node.everywhere fun n => (v n).getD n))).map fun g =>
        ⟨g, f.children.any fun n => (Id.run (n.rewrite fun n => pure (v n))).2⟩ := by
  have hfst : (f.children.map fun n => Id.run (n.rewrite fun n => pure (v n))).map Prod.fst =
      f.children.map (Node.everywhere fun n => (v n).getD n) := by
    rw [List.map_map]
    exact List.map_congr_left fun n _ => Node.fst_run_rewrite v n
  rw [rewrite, Id.run_bind, List.idRun_mapM, hfst, List.any_map]
  simp only [Function.comp_def]
  split
  next hany =>
    rw [hany]
    rfl
  next hany =>
    have hany := Bool.eq_false_iff.mpr hany
    have hself : ∀ n ∈ f.children, (n.everywhere fun n => (v n).getD n) = n := fun n hn =>
      Node.everywhere_of_not_changed v (by simpa using List.any_eq_false.mp hany n hn)
    rw [hany, List.map_congr_left hself, List.map_id', ofNodes_eq_ok f.nodup]
    rfl

theorem Formula.run_rewrite (f : Formula) (v : Node → Option Node)
    (h : (forestIds (f.children.map (Node.everywhere fun n => (v n).getD n))).Nodup) :
    ∃ e, Id.run (f.rewrite fun n => pure (v n)) = .ok e ∧
      e.formula.children = f.children.map (Node.everywhere fun n => (v n).getD n) := by
  rw [run_rewrite_eq, ofNodes_eq_ok h]
  exact ⟨_, rfl, rfl⟩

/-- Ids with a new one before each occurrence of one of them. -/
def beside (new id : String) (ids : List String) : List String :=
  ids.flatMap fun id' => if id' = id then [new, id'] else [id']

theorem beside_of_not_mem {new id : String} {ids : List String} (h : id ∉ ids) :
    beside new id ids = ids := by
  have hkeep : ∀ id' ∈ ids, (if id' = id then [new, id'] else [id']) = [id'] := by
    intro id' hid'
    refine if_neg ?_
    rintro rfl
    exact h hid'
  rw [beside, List.flatMap_congr hkeep, List.flatMap_singleton']

theorem perm_beside {new id : String} {ids : List String} (hnodup : ids.Nodup) (h : id ∈ ids) :
    (beside new id ids).Perm (new :: ids) := by
  obtain ⟨before, after, rfl⟩ := List.append_of_mem h
  have hnot : id ∉ before ∧ id ∉ after := by
    rw [List.nodup_middle, List.nodup_cons, List.mem_append, not_or] at hnodup
    exact hnodup.1
  have hsplit : beside new id (before ++ id :: after) = before ++ new :: id :: after := by
    have happend : ∀ a b, beside new id (a ++ b) = beside new id a ++ beside new id b :=
      fun a b => List.flatMap_append
    rw [← List.singleton_append, happend, happend, beside_of_not_mem hnot.1, beside_of_not_mem hnot.2]
    simp [beside]
  rw [hsplit]
  exact List.perm_middle

namespace Node

/-- The node put in the place of the one with this id. -/
def substitute (id : String) (r n : Node) : Node :=
  if n.id? = some id then r else n

theorem everywhere_substitute_eq (id : String) (r n : Node) : n.everywhere (substitute id r) =
    if n.id? = some id then r else n.mapChildren (everywhere (substitute id r)) := by
  rw [everywhere_eq, substitute, id?_mapChildren]

/-- A node put in the place of one that has all its ids but a new one adds this one to the ids. -/
theorem ids_substitute {id new : String} {p r n : Node} (hid : p.id? = some id)
    (hnodup : p.ids.Nodup) (hr : r.ids.Perm (new :: p.ids))
    (hn : ∀ m ∈ n.preorder, m.id? = some id → m = p) :
    (n.everywhere (substitute id r)).ids.Perm (beside new id n.ids) := by
  induction n using childrenInduction with
  | step n ih =>
    by_cases h : n.id? = some id
    · obtain rfl := hn n n.self_mem_preorder h
      have hmem : id ∈ n.ids := mem_ids_of_id? h
      have hbeside : (beside new id n.ids).Perm (new :: n.ids) := perm_beside hnodup hmem
      rw [everywhere_substitute_eq, if_pos h]
      exact hr.trans hbeside.symm
    · have hnot : id ∉ n.id?.toList := fun hmem => h (Option.mem_toList.mp hmem)
      have hkeep : beside new id n.id?.toList = n.id?.toList := beside_of_not_mem hnot
      have hchild : ∀ c ∈ n.children, (c.everywhere (substitute id r)).ids.Perm (beside new id c.ids) := by
        intro c hc
        exact ih c hc fun m hm => hn m (mem_preorder_of_child hc hm)
      have hbelow : (n.children.flatMap fun c => (c.everywhere (substitute id r)).ids).Perm
          (n.children.flatMap fun c => beside new id c.ids) := .flatMap_left _ hchild
      have hsplit : beside new id n.ids =
          beside new id n.id?.toList ++ n.children.flatMap fun c => beside new id c.ids := by
        rw [n.ids_eq, beside, List.flatMap_append, List.flatMap_assoc]
        rfl
      rw [everywhere_substitute_eq, if_neg h, ids_eq, id?_mapChildren, children_mapChildren,
        List.flatMap_map, hsplit, hkeep]
      exact hbelow.append_left _

theorem mem_preorder_substitute {id : String} {p n : Node} (r : Node) (hp : p ∈ n.preorder)
    (hid : p.id? = some id) : r ∈ (n.everywhere (substitute id r)).preorder := by
  induction n using childrenInduction with
  | step n ih =>
    rw [everywhere_substitute_eq]
    split
    next => exact r.self_mem_preorder
    next h =>
      rcases mem_preorder_iff.mp hp with rfl | ⟨c, hc, hpc⟩
      · exact absurd hid h
      · refine mem_preorder_of_child ?_ (ih c hc hpc)
        rw [children_mapChildren]
        exact List.mem_map_of_mem hc

end Node

namespace Formula

variable {f : Formula} {id new : String} {p r : Node}

theorem ids_substitute (hp : p ∈ f.nodes) (hid : p.id? = some id) (hr : r.ids.Perm (new :: p.ids)) :
    (forestIds (f.children.map (Node.everywhere (Node.substitute id r)))).Perm (new :: f.ids) := by
  have honly : ∀ n ∈ f.children, ∀ m ∈ n.preorder, m.id? = some id → m = p := by
    intro n hn m hm hmid
    have hnode : m ∈ f.nodes := List.mem_flatMap.mpr ⟨n, hn, hm⟩
    exact eq_of_mem_nodes hnode hp hmid hid
  have hbelow : (f.children.flatMap fun n => (n.everywhere (Node.substitute id r)).ids).Perm
      (f.children.flatMap fun n => beside new id n.ids) := by
    refine .flatMap_left _ fun n hn => ?_
    exact Node.ids_substitute hid (nodup_ids hp) hr (honly n hn)
  have hbeside : (f.children.flatMap fun n => beside new id n.ids) = beside new id f.ids := by
    rw [ids, forestIds_eq, beside, List.flatMap_assoc]
    rfl
  have hmem : id ∈ f.ids := mem_ids_iff.mpr ⟨p, hp, hid⟩
  rw [hbeside] at hbelow
  rw [forestIds_eq, List.flatMap_map]
  exact hbelow.trans (perm_beside f.nodup hmem)

theorem mem_nodes_of_substitute {g : Formula} (hp : p ∈ f.nodes) (hid : p.id? = some id)
    (hg : g.children = f.children.map (Node.everywhere (Node.substitute id r))) : r ∈ g.nodes := by
  obtain ⟨n, hn, hpn⟩ := List.mem_flatMap.mp hp
  rw [nodes, hg, List.flatMap_map]
  exact List.mem_flatMap.mpr ⟨n, hn, Node.mem_preorder_substitute r hpn hid⟩

/-- Replacing a node by one that has all its ids and a new one. -/
theorem replaceNode_eq (hp : p ∈ f.nodes) (hid : p.id? = some id) (hr : r.ids.Perm (new :: p.ids))
    (hnew : new ∉ f.ids) : ∃ e, f.replaceNode id r = .ok e ∧
      e.formula.children = f.children.map (Node.everywhere (Node.substitute id r)) := by
  have hids := ids_substitute hp hid hr
  have hfresh : (new :: f.ids).Nodup := List.nodup_cons.mpr ⟨hnew, f.nodup⟩
  have hnodup : (forestIds (f.children.map (Node.everywhere (Node.substitute id r)))).Nodup :=
    hids.nodup_iff.mpr hfresh
  have hvisit : (fun n : Node => (n.replacement? fun i => if i = id then some r else none).getD n) =
      Node.substitute id r := by
    funext n
    rw [Node.replacement?, Node.substitute]
    cases n.id? with
    | none => rfl
    | some i => by_cases h : i = id <;> simp [h]
  rw [← hvisit] at hnodup ⊢
  exact f.run_rewrite _ hnodup

end Formula

end FormulaDoc
