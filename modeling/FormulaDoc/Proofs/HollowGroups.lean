import FormulaDoc.Proofs.Splicing
import Mathlib.Data.List.Flatten

namespace FormulaDoc

theorem flatMap_filter_not {α β : Type} (p : α → Bool) (f : α → List β) (l : List α) :
    (l.filter (!p ·)).flatMap f = l.flatMap fun a => if p a then [] else f a := by
  induction l with
  | nil => rfl
  | cons a l ih => cases h : p a <;> simp [h, ih]

theorem any_or {α : Type} (p q : α → Bool) (l : List α) :
    (l.any fun a => p a || q a) = (l.any p || l.any q) := by
  rw [Bool.eq_iff_iff]
  simp only [List.any_eq_true, Bool.or_eq_true, and_or_left, exists_or]

namespace Node

/-- A group below which there are only groups. -/
def isHollow (n : Node) : Bool :=
  n.preorder.all fun m => m.kind = .group

/-- The children of a node, but for hollow groups among siblings. -/
def staying (n : Node) : List Node :=
  if n.sequence?.isSome then n.children.filter (!·.isHollow) else n.children

theorem staying_sublist (n : Node) : n.staying.Sublist n.children := by
  unfold staying
  split
  next => exact List.filter_sublist
  next => exact .refl _

/-- The tree without the hollow groups that stand among siblings in it. -/
def cleared (n : Node) : Node :=
  n.withChildren (n.staying.attach.map fun ⟨c, _⟩ => c.cleared)
termination_by n.size
decreasing_by exact size_lt_of_mem ((staying_sublist _).subset ‹_›)

variable {n : Node}

theorem isHollow_iff : n.isHollow ↔ n.kind = .group ∧ ∀ c ∈ n.children, c.isHollow := by
  simp only [isHollow, preorder_eq n, List.all_cons, List.all_flatMap, Bool.and_eq_true,
    decide_eq_true_eq, List.all_eq_true]

theorem isEmptyGroup_iff : n.isEmptyGroup ↔ n.kind = .group ∧ n.children = [] := by
  cases n with
  | group id body => cases body <;> simp [isEmptyGroup, kind, children]
  | _ => simp [isEmptyGroup, kind]

theorem isSome_sequence?_of_group (h : n.kind = .group) : n.sequence?.isSome := by
  cases n with
  | group => rfl
  | _ => cases h

theorem staying_of_sequence (h : n.sequence?.isSome) : n.staying = n.children.filter (!·.isHollow) :=
  if_pos h

theorem staying_of_not_sequence (h : ¬ n.sequence?.isSome) : n.staying = n.children :=
  if_neg h

theorem staying_eq_nil (h : n.isHollow) : n.staying = [] := by
  obtain ⟨hkind, hbelow⟩ := isHollow_iff.mp h
  rw [staying_of_sequence (isSome_sequence?_of_group hkind), List.filter_eq_nil_iff]
  simpa using hbelow

theorem cleared_eq (n : Node) : n.cleared = n.withChildren (n.staying.map cleared) := by
  rw [cleared]
  simp

theorem cleared_of_not_sequence (h : ¬ n.sequence?.isSome) : n.cleared = n.mapChildren cleared := by
  rw [cleared_eq, staying_of_not_sequence h, mapChildren]

theorem kind_cleared (n : Node) : n.cleared.kind = n.kind := by
  rw [cleared_eq, kind_withChildren_any]

theorem id?_cleared (n : Node) : n.cleared.id? = n.id? := by
  rw [cleared_eq, id?_withChildren_any]

theorem shape_withChildren_of_sequence (h : n.sequence?.isSome) (cs : List Node) :
    (n.withChildren cs).shape = n.shape := by
  cases n with
  | group | color | aligned => rfl
  | _ => cases h

theorem shape_cleared (n : Node) : n.cleared.shape = n.shape := by
  by_cases h : n.sequence?.isSome
  · rw [cleared_eq, shape_withChildren_of_sequence h]
  · rw [cleared_of_not_sequence h, shape_mapChildren]

theorem children_cleared (n : Node) : n.cleared.children = n.staying.map cleared := by
  by_cases h : n.sequence?.isSome
  · rw [cleared_eq, children_withChildren_of_sequence h]
  · rw [cleared_of_not_sequence h, children_mapChildren, staying_of_not_sequence h]

/-- When the hollow groups in a group are gone, it is empty exactly if it is hollow. -/
theorem isEmptyGroup_cleared (n : Node) : n.cleared.isEmptyGroup = n.isHollow := by
  rw [Bool.eq_iff_iff, isEmptyGroup_iff, isHollow_iff, kind_cleared, children_cleared, List.map_eq_nil_iff]
  refine and_congr_right fun hkind => ?_
  rw [staying_of_sequence (isSome_sequence?_of_group hkind), List.filter_eq_nil_iff]
  simp

theorem getD_dropEmptyGroups_of_sequence (h : n.sequence?.isSome) :
    n.dropEmptyGroups.getD n = n.withChildren (n.children.filter (!·.isEmptyGroup)) := by
  obtain ⟨items, hitems⟩ := Option.isSome_iff_exists.mp h
  rw [children_of_sequence hitems, dropEmptyGroups, hitems, Option.bind_some]
  split
  next => rfl
  next hnone =>
    have hall : items.filter (!·.isEmptyGroup) = items := by
      rw [List.filter_eq_self]
      simpa using hnone
    rw [hall, ← children_of_sequence hitems, withChildren_children]
    rfl

theorem getD_dropEmptyGroups_of_not_sequence (h : ¬ n.sequence?.isSome) :
    n.dropEmptyGroups.getD n = n := by
  rw [dropEmptyGroups, Option.not_isSome_iff_eq_none.mp h]
  rfl

/-- Taking out empty groups from the leaves up takes out the hollow ones. -/
theorem everywhere_dropEmptyGroups (n : Node) :
    (n.everywhere fun m => m.dropEmptyGroups.getD m) = n.cleared := by
  induction n using childrenInduction with
  | step n ih =>
    have hbelow : n.mapChildren (everywhere fun m => m.dropEmptyGroups.getD m) = n.mapChildren cleared :=
      mapChildren_congr ih
    have hsequence := isSome_sequence?_of_kind (n.kind_mapChildren cleared)
    rw [everywhere_eq, hbelow, cleared_eq]
    by_cases h : n.sequence?.isSome
    · rw [getD_dropEmptyGroups_of_sequence (hsequence.trans h), children_mapChildren, mapChildren,
        withChildren_withChildren_of_sequence h, List.filter_map, staying_of_sequence h]
      simp only [Function.comp_def, isEmptyGroup_cleared]
    · rw [getD_dropEmptyGroups_of_not_sequence (hsequence ▸ h), staying_of_not_sequence h, mapChildren]

/-- Whether a hollow group stands among the children of a node. -/
def shedsGroups (n : Node) : Bool :=
  n.sequence?.isSome && n.children.any isHollow

theorem isSome_dropEmptyGroups (n : Node) :
    n.dropEmptyGroups.isSome = (n.sequence?.isSome && n.children.any isEmptyGroup) := by
  rw [dropEmptyGroups]
  cases h : n.sequence? with
  | none => rfl
  | some items =>
    rw [children_of_sequence h, Option.bind_some]
    cases items.any isEmptyGroup <;> rfl

/-- A tree counts as rewritten exactly if a hollow group stands among siblings in it. -/
theorem snd_run_rewrite_dropEmptyGroups (n : Node) :
    (Id.run (n.rewrite fun n => pure n.dropEmptyGroups)).2 = n.preorder.any shedsGroups := by
  induction n using childrenInduction with
  | step n ih =>
    have hfst : (fun c => (Id.run (c.rewrite fun n => pure n.dropEmptyGroups)).1) = cleared :=
      funext fun c => (fst_run_rewrite _ c).trans c.everywhere_dropEmptyGroups
    have hbelow : (n.children.any fun c => (Id.run (c.rewrite fun n => pure n.dropEmptyGroups)).2) =
        n.children.any fun c => c.preorder.any shedsGroups :=
      any_congr_of_mem ih
    have hself : (n.mapChildren cleared).dropEmptyGroups.isSome = n.shedsGroups := by
      rw [isSome_dropEmptyGroups, isSome_sequence?_of_kind (n.kind_mapChildren cleared),
        children_mapChildren, List.any_map, shedsGroups]
      simp only [Function.comp_def, isEmptyGroup_cleared]
    rw [run_rewrite, hfst, hbelow, preorder_eq, List.any_cons, List.any_flatMap, ← hself]
    cases (n.mapChildren cleared).dropEmptyGroups <;> simp

/-- What is left of a hollow group is hollow, and nothing else is. -/
theorem isHollow_cleared (n : Node) : n.cleared.isHollow = n.isHollow := by
  induction n using childrenInduction with
  | step n ih =>
    rw [Bool.eq_iff_iff, isHollow_iff, isHollow_iff, kind_cleared, children_cleared, List.forall_mem_map]
    refine and_congr_right fun hkind => ?_
    rw [staying_of_sequence (isSome_sequence?_of_group hkind)]
    constructor
    · intro h c hc
      by_contra hne
      have hstays : c ∈ n.children.filter (!·.isHollow) := List.mem_filter.mpr ⟨hc, by simpa using hne⟩
      exact hne (ih c hc ▸ h c hstays)
    · intro h c hc
      have hmem := List.mem_of_mem_filter hc
      rw [ih c hmem]
      exact h c hmem

theorem ids_cleared (n : Node) : n.cleared.ids.Sublist n.ids := by
  induction n using childrenInduction with
  | step n ih =>
    rw [ids_eq, n.ids_eq, id?_cleared, children_cleared, List.flatMap_map]
    have hfewer : (n.staying.flatMap fun c => c.cleared.ids).Sublist
        (n.children.flatMap fun c => c.cleared.ids) :=
      n.staying_sublist.flatMap _
    have hbelow : (n.children.flatMap fun c => c.cleared.ids).Sublist (n.children.flatMap ids) :=
      List.Sublist.flatMap_right _ ih
    exact (hfewer.trans hbelow).append_left _

theorem isSome_sequence?_cleared (n : Node) : n.cleared.sequence?.isSome = n.sequence?.isSome :=
  isSome_sequence?_of_kind n.kind_cleared

theorem cleared_eq_self (h : ∀ m ∈ n.preorder, m.shedsGroups = false) : n.cleared = n := by
  induction n using childrenInduction with
  | step n ih =>
    have hstaying : n.staying = n.children := by
      have hself := h n n.self_mem_preorder
      unfold staying
      split
      next hsequence =>
        rw [shedsGroups, hsequence, Bool.true_and] at hself
        rw [List.filter_eq_self]
        simpa using hself
      next => rfl
    have hbelow : ∀ c ∈ n.children, c.cleared = c :=
      fun c hc => ih c hc fun m hm => h m (mem_preorder_of_child hc hm)
    rw [cleared_eq, hstaying, List.map_congr_left hbelow, List.map_id', withChildren_children]

/-- What is left of a hollow group is an empty one with its id. -/
theorem exists_cleared_eq_group (h : n.isHollow) : ∃ id, n.id? = some id ∧ n.cleared = .group id [] := by
  have hempty : ∀ {m : Node}, m.isEmptyGroup → ∃ id, m = .group id [] := by
    intro m hm
    unfold isEmptyGroup at hm
    split at hm
    next id => exact ⟨id, rfl⟩
    next => cases hm
  obtain ⟨id, hid⟩ := hempty (n.isEmptyGroup_cleared.trans h)
  exact ⟨id, by rw [← id?_cleared, hid, id?], hid⟩

end Node

/-- Whether a node stands among siblings: at the top, or in a node that holds a sequence. -/
def Entry.amongSiblings (e : Entry) : Bool :=
  e.ancestors.getLast?.all fun p => p.sequence?.isSome

/-- Whether a node is a hollow group among siblings. -/
def Entry.goes (e : Entry) : Bool :=
  e.amongSiblings && e.node.isHollow

/-- A node apart from its children, and its ancestors in the same way. -/
def Entry.outline (e : Entry) : (Shape × Option String) × List (Shape × Option String) :=
  ((e.node.shape, e.node.id?), e.ancestors.map fun a => (a.shape, a.id?))

def Entry.cleared (e : Entry) : Entry :=
  ⟨e.node.cleared, e.ancestors.map Node.cleared⟩

theorem Entry.outline_cleared (e : Entry) : e.cleared.outline = e.outline := by
  simp [outline, cleared, Node.shape_cleared, Node.id?_cleared, Function.comp_def]

theorem Entry.goes_cleared (e : Entry) : e.cleared.goes = e.goes := by
  rw [goes, goes, amongSiblings, amongSiblings, cleared, List.getLast?_map, Option.all_map,
    Node.isHollow_cleared]
  simp only [Node.isSome_sequence?_cleared]

theorem Entry.goes_of_child (n c : Node) (above : List Node) :
    (⟨c, above ++ [n]⟩ : Entry).goes = (n.sequence?.isSome && c.isHollow) := by
  rw [goes, amongSiblings, List.getLast?_concat, Option.all_some]

namespace Node

theorem filter_map_entries (above : List Node) (n : Node) :
    ((n.entries above).filter (!·.goes)).map Entry.cleared =
      if (⟨n, above⟩ : Entry).goes then [] else n.cleared.entries (above.map cleared) := by
  induction n using childrenInduction generalizing above with
  | step n ih =>
    have hbelow : ((n.children.flatMap (entries (above ++ [n]))).filter (!·.goes)).map Entry.cleared =
        n.staying.flatMap fun c => c.cleared.entries ((above ++ [n]).map cleared) := by
      rw [List.filter_flatMap, List.map_flatMap, List.flatMap_congr fun c hc => ih c hc (above ++ [n])]
      simp only [Entry.goes_of_child]
      by_cases h : n.sequence?.isSome
      · rw [staying_of_sequence h, flatMap_filter_not]
        simp [h]
      · rw [staying_of_not_sequence h]
        simp [h]
    rw [entries_eq, List.filter_cons]
    split
    next hstays =>
      rw [List.map_cons, hbelow, if_neg (by simpa using hstays), entries_eq, children_cleared,
        List.flatMap_map, List.map_append]
      rfl
    next hgoes =>
      have hgoes : (⟨n, above⟩ : Entry).goes := by simpa using hgoes
      have hnone : n.staying = [] := staying_eq_nil (Bool.and_eq_true _ _ ▸ hgoes).2
      rw [hbelow, hnone, if_pos hgoes]
      rfl

theorem any_entries (above : List Node) (n : Node) :
    (n.entries above).any Entry.goes = ((⟨n, above⟩ : Entry).goes || n.preorder.any shedsGroups) := by
  induction n using childrenInduction generalizing above with
  | step n ih =>
    have hbelow : (n.children.flatMap (entries (above ++ [n]))).any Entry.goes =
        (n.shedsGroups || n.children.any fun c => c.preorder.any shedsGroups) := by
      have hgoes : (n.children.any fun c => n.sequence?.isSome && c.isHollow) = n.shedsGroups := by
        rw [shedsGroups]
        cases n.sequence?.isSome <;> simp
      rw [List.any_flatMap, any_congr_of_mem fun c hc => ih c hc _, any_or]
      simp only [Entry.goes_of_child]
      rw [hgoes]
    rw [entries_eq, List.any_cons, hbelow, preorder_eq, List.any_cons, List.any_flatMap]

end Node

namespace Formula

/-- The forest without the hollow groups that stand among siblings. -/
def cleared (f : Formula) : List Node :=
  (f.children.filter (!·.isHollow)).map Node.cleared

theorem goes_of_top (n : Node) : (⟨n, []⟩ : Entry).goes = n.isHollow :=
  Bool.true_and _

theorem entries_cleared (f : Formula) :
    f.cleared.flatMap (Node.entries []) = (f.entries.filter (!·.goes)).map Entry.cleared := by
  have htrees : (f.entries.filter (!·.goes)).map Entry.cleared =
      f.children.flatMap fun n => if n.isHollow then [] else n.cleared.entries [] := by
    rw [entries, List.filter_flatMap, List.map_flatMap]
    exact List.flatMap_congr fun n _ => (n.filter_map_entries []).trans (by rw [goes_of_top]; rfl)
  rw [htrees, cleared, List.flatMap_map, flatMap_filter_not]

theorem any_goes (f : Formula) :
    f.entries.any Entry.goes = (f.children.any Node.isHollow || f.nodes.any Node.shedsGroups) := by
  rw [entries, List.any_flatMap, any_congr_of_mem fun n _ => n.any_entries [], any_or, nodes,
    List.any_flatMap]
  simp only [goes_of_top]

theorem nodup_map_cleared (f : Formula) : (forestIds (f.children.map Node.cleared)).Nodup := by
  refine f.nodup.sublist ?_
  rw [forestIds_eq, forestIds_eq, List.flatMap_map]
  exact List.Sublist.flatMap_right _ fun n _ => n.ids_cleared

theorem filter_map_cleared (f : Formula) :
    (f.children.map Node.cleared).filter (!·.isEmptyGroup) = f.cleared := by
  rw [List.filter_map, cleared]
  simp only [Function.comp_def, Node.isEmptyGroup_cleared]

theorem nodup_cleared (f : Formula) : (forestIds f.cleared).Nodup := by
  refine f.nodup_map_cleared.sublist ?_
  rw [← filter_map_cleared]
  exact (List.filter_sublist.flatMap _).filterMap _

/-- Rewriting takes out the hollow groups below the top. -/
theorem run_rewrite_dropEmptyGroups (f : Formula) :
    Id.run (f.rewrite fun n => pure n.dropEmptyGroups) =
      .ok ⟨⟨f.children.map Node.cleared, f.nodup_map_cleared⟩, f.nodes.any Node.shedsGroups⟩ := by
  have hbelow : f.children.map (Node.everywhere fun m => m.dropEmptyGroups.getD m) =
      f.children.map Node.cleared :=
    List.map_congr_left fun n _ => n.everywhere_dropEmptyGroups
  have hchanged : (f.children.any fun n =>
      (Id.run (n.rewrite fun n => pure n.dropEmptyGroups)).2) = f.nodes.any Node.shedsGroups := by
    rw [nodes, List.any_flatMap]
    exact List.any_congr rfl fun n => n.snd_run_rewrite_dropEmptyGroups
  rw [run_rewrite_eq, hbelow, hchanged, ofNodes_eq_ok f.nodup_map_cleared]
  rfl

/-- One pass takes out the hollow groups that stand among siblings. -/
theorem removeEmptyGroups_eq (f : Formula) :
    f.removeEmptyGroups = .ok ⟨⟨f.cleared, f.nodup_cleared⟩, f.entries.any Entry.goes⟩ := by
  have hsame : f.cleared.length = (f.children.map Node.cleared).length ↔
      ¬ f.children.any Node.isHollow := by
    rw [← filter_map_cleared, List.length_filter_eq_length_iff, List.forall_mem_map]
    simp [Node.isEmptyGroup_cleared]
  rw [removeEmptyGroups, run_rewrite_dropEmptyGroups, any_goes]
  show (if ((f.children.map Node.cleared).filter (!·.isEmptyGroup)).length =
    (f.children.map Node.cleared).length then _ else _) = _
  split
  next hlength =>
    have hall : f.cleared = f.children.map Node.cleared := by
      rw [← filter_map_cleared]
      exact List.filter_sublist.eq_of_length hlength
    rw [filter_map_cleared] at hlength
    have hnone : f.children.any Node.isHollow = false := Bool.eq_false_iff.mpr (hsame.mp hlength)
    simp only [hnone, hall]
    rfl
  next hlength =>
    rw [filter_map_cleared] at hlength
    have hany : f.children.any Node.isHollow = true := not_not.mp (mt hsame.mpr hlength)
    show (ofNodes ((f.children.map Node.cleared).filter (!·.isEmptyGroup))).bind _ = _
    simp only [filter_map_cleared, hany, ofNodes_eq_ok f.nodup_cleared]
    rfl

theorem cleared_eq_self {f : Formula} (h : f.entries.any Entry.goes = false) : f.cleared = f.children := by
  rw [any_goes, Bool.or_eq_false_iff, List.any_eq_false, List.any_eq_false] at h
  have hself : ∀ n ∈ f.children, n.cleared = n := fun n hn =>
    Node.cleared_eq_self fun m hm => by simpa using h.2 m (List.mem_flatMap.mpr ⟨n, hn, hm⟩)
  have htop : f.children.filter (!·.isHollow) = f.children := by
    rw [List.filter_eq_self]
    simpa using h.1
  rw [cleared, htop, List.map_congr_left hself, List.map_id']

/-- Removing the empty groups takes out exactly the hollow groups among siblings: what is left is the
other nodes, in their order and with their ancestors. A hollow group elsewhere is left as an empty one, and
removing the empty groups again changes nothing. -/
theorem removeEmptyGroups_normal (f : Formula) :
    ∃ g, f.removeEmptyGroups = .ok ⟨g, f.entries.any Entry.goes⟩ ∧
      g.entries.map Entry.outline = (f.entries.filter (!·.goes)).map Entry.outline ∧
      (∀ e ∈ f.entries, e.node.isHollow → e.amongSiblings = false →
        ∃ id, e.node.id? = some id ∧ g.find? id = some (.group id [])) ∧
      g.removeEmptyGroups = .ok ⟨g, false⟩ := by
  have hentries : (⟨f.cleared, f.nodup_cleared⟩ : Formula).entries =
      (f.entries.filter (!·.goes)).map Entry.cleared :=
    f.entries_cleared
  refine ⟨⟨f.cleared, f.nodup_cleared⟩, f.removeEmptyGroups_eq, ?_, ?_, ?_⟩
  · rw [hentries, List.map_map]
    exact List.map_congr_left fun e _ => e.outline_cleared
  · intro e he hhollow hslot
    obtain ⟨id, hid, hempty⟩ := Node.exists_cleared_eq_group hhollow
    have hgoes : e.goes = false := by rw [Entry.goes, hslot]; rfl
    have hstays : e ∈ f.entries.filter (!·.goes) := List.mem_filter.mpr ⟨he, by rw [hgoes]; rfl⟩
    have hmem : e.cleared ∈ (⟨f.cleared, f.nodup_cleared⟩ : Formula).entries :=
      hentries ▸ List.mem_map_of_mem hstays
    have hfind := find?_eq (node_mem_nodes hmem) ((Node.id?_cleared _).trans hid)
    exact ⟨id, hid, hempty ▸ hfind⟩
  · have hnone : (⟨f.cleared, f.nodup_cleared⟩ : Formula).entries.any Entry.goes = false := by
      rw [hentries, List.any_map, List.any_filter]
      simp [Entry.goes_cleared]
    rw [removeEmptyGroups_eq, hnone]
    simp only [cleared_eq_self hnone]

end Formula

end FormulaDoc
