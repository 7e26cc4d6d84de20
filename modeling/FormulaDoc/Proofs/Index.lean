import FormulaDoc.Proofs.PathIds
import Mathlib.Data.List.Pairwise

namespace FormulaDoc

theorem eq_of_nodup_filterMap {α β : Type} {g : α → Option β} {l : List α} {a b : α} {x : β}
    (h : (l.filterMap g).Nodup) (ha : a ∈ l) (hb : b ∈ l) (hax : g a = some x) (hbx : g b = some x) :
    a = b := by
  induction l with
  | nil => cases ha
  | cons c l ih =>
    have hsub : (l.filterMap g).Sublist ((c :: l).filterMap g) :=
      (List.sublist_cons_self c l).filterMap g
    have hnot : g c = some x → ∀ d ∈ l, g d ≠ some x := by
      intro hc d hd hdx
      rw [List.filterMap_cons_some hc] at h
      have hx : x ∈ l.filterMap g := List.mem_filterMap.mpr ⟨d, hd, hdx⟩
      exact (List.nodup_cons.mp h).1 hx
    rcases List.mem_cons.mp ha with rfl | hal
    · rcases List.mem_cons.mp hb with rfl | hbl
      · rfl
      · exact absurd hbx (hnot hax b hbl)
    · rcases List.mem_cons.mp hb with rfl | hbl
      · exact absurd hax (hnot hbx a hal)
      · exact ih (h.sublist hsub) hal hbl

namespace Node

variable {above : List Node} {n c : Node} {e : Entry}

/-- The children of an entry are entries, one level further down. -/
theorem mem_entries_of_child (h : e ∈ n.entries above) (hc : c ∈ e.node.children) :
    ⟨c, e.ancestors ++ [e.node]⟩ ∈ n.entries above := by
  induction n using childrenInduction generalizing above with
  | step n ih =>
    apply mem_entries_iff.mpr
    rcases mem_entries_iff.mp h with rfl | ⟨d, hd, he⟩
    · have hself : (⟨c, above ++ [n]⟩ : Entry) ∈ c.entries (above ++ [n]) :=
        mem_entries_iff.mpr (.inl rfl)
      exact .inr ⟨c, hc, hself⟩
    · exact .inr ⟨d, hd, ih d hd he⟩

/-- An entry stands at the top of the tree or below another one. -/
theorem parent_of_mem_entries (h : e ∈ n.entries above) : e = ⟨n, above⟩ ∨
    ∃ p ∈ n.entries above, e.node ∈ p.node.children ∧ e.ancestors = p.ancestors ++ [p.node] := by
  induction n using childrenInduction generalizing above with
  | step n ih =>
    rcases mem_entries_iff.mp h with rfl | ⟨d, hd, he⟩
    · exact .inl rfl
    · have hbelow : ∀ p ∈ d.entries (above ++ [n]), p ∈ n.entries above :=
        fun p hp => mem_entries_iff.mpr (.inr ⟨d, hd, hp⟩)
      rcases ih d hd he with rfl | ⟨p, hp, hparent⟩
      · exact .inr ⟨⟨n, above⟩, mem_entries_iff.mpr (.inl rfl), hd, rfl⟩
      · exact .inr ⟨p, hbelow p hp, hparent⟩

theorem mem_ids_iff {id : String} : id ∈ n.ids ↔ ∃ m ∈ n.preorder, m.id? = some id :=
  List.mem_filterMap

theorem mem_ids_of_id? {id : String} (h : n.id? = some id) : id ∈ n.ids :=
  mem_ids_iff.mpr ⟨n, n.self_mem_preorder, h⟩

theorem sublist_ids {m : Node} (h : m ∈ n.preorder) : m.ids.Sublist n.ids := by
  induction n using childrenInduction with
  | step n ih =>
    rcases mem_preorder_iff.mp h with rfl | ⟨c, hc, hm⟩
    · exact .refl _
    · have hbelow : m.ids.Sublist c.ids := ih c hc hm
      have hchild : c.ids.Sublist (n.children.flatMap ids) :=
        List.sublist_flatten_of_mem (List.mem_map_of_mem hc)
      rw [n.ids_eq]
      exact (hbelow.trans hchild).trans (List.sublist_append_right _ _)

theorem ids_subset_of_child {c : Node} (hc : c ∈ n.children) : ∀ id ∈ c.ids, id ∈ n.ids := by
  have hsub : c.ids.Sublist n.ids := sublist_ids (mem_preorder_of_child hc c.self_mem_preorder)
  intro id hid
  exact hsub.subset hid

end Node

theorem forestIds_append (ms ns : List Node) : forestIds (ms ++ ns) = forestIds ms ++ forestIds ns := by
  rw [forestIds_eq, forestIds_eq, forestIds_eq, List.flatMap_append]

theorem mem_forestIds {ns : List Node} {n : Node} {id : String} (hn : n ∈ ns) (hid : n.id? = some id) :
    id ∈ forestIds ns := by
  have hmem : n ∈ ns.flatMap Node.preorder := List.mem_flatMap.mpr ⟨n, hn, n.self_mem_preorder⟩
  exact List.mem_filterMap.mpr ⟨n, hmem, hid⟩

theorem not_mem_ids {ns : List Node} {n : Node} {id : String} (h : id ∉ forestIds ns) (hn : n ∈ ns) :
    id ∉ n.ids := by
  rw [forestIds_eq] at h
  exact fun hmem => h (List.mem_flatMap.mpr ⟨n, hn, hmem⟩)

/-- Of trees without common ids only one has a given id. -/
theorem eq_of_mem_ids {ns : List Node} {a b : Node} {id : String} (h : (forestIds ns).Nodup)
    (ha : a ∈ ns) (hb : b ∈ ns) (haid : id ∈ a.ids) (hbid : id ∈ b.ids) : a = b := by
  rw [forestIds_eq, List.nodup_flatMap] at h
  have hsymm : Std.Symm (Function.onFun List.Disjoint Node.ids) := ⟨fun _ _ h _ ha hb => h hb ha⟩
  by_contra hne
  exact h.2.forall ha hb hne haid hbid

namespace Formula

variable {f : Formula} {n c : Node} {e e' : Entry} {id : String}

theorem map_node_entries (f : Formula) : f.entries.map Entry.node = f.nodes := by
  rw [entries, nodes, List.map_flatMap]
  exact List.flatMap_congr fun n _ => n.map_node_entries []

theorem node_mem_nodes (h : e ∈ f.entries) : e.node ∈ f.nodes := by
  rw [← f.map_node_entries]
  exact List.mem_map_of_mem h

theorem exists_entry (h : n ∈ f.nodes) : ∃ above, (⟨n, above⟩ : Entry) ∈ f.entries := by
  rw [← f.map_node_entries] at h
  obtain ⟨⟨m, above⟩, he, rfl⟩ := List.mem_map.mp h
  exact ⟨above, he⟩

theorem mem_ids_iff : id ∈ f.ids ↔ ∃ n ∈ f.nodes, n.id? = some id :=
  List.mem_filterMap

theorem mem_entries_of_top (h : n ∈ f.children) : ⟨n, []⟩ ∈ f.entries := by
  have hself : (⟨n, []⟩ : Entry) ∈ n.entries [] := Node.mem_entries_iff.mpr (.inl rfl)
  exact List.mem_flatMap.mpr ⟨n, h, hself⟩

theorem mem_entries_of_child (h : e ∈ f.entries) (hc : c ∈ e.node.children) :
    ⟨c, e.ancestors ++ [e.node]⟩ ∈ f.entries := by
  obtain ⟨n, hn, he⟩ := List.mem_flatMap.mp h
  exact List.mem_flatMap.mpr ⟨n, hn, Node.mem_entries_of_child he hc⟩

theorem mem_nodes_of_child (hn : n ∈ f.nodes) (hc : c ∈ n.children) : c ∈ f.nodes := by
  obtain ⟨above, he⟩ := exists_entry hn
  exact node_mem_nodes (mem_entries_of_child he hc)

theorem mem_nodes_of_top (h : n ∈ f.children) : n ∈ f.nodes :=
  List.mem_flatMap.mpr ⟨n, h, n.self_mem_preorder⟩

theorem mem_nodes_of_mem_preorder {m : Node} (hn : n ∈ f.nodes) (hm : m ∈ n.preorder) : m ∈ f.nodes := by
  obtain ⟨t, ht, hn⟩ := List.mem_flatMap.mp hn
  exact List.mem_flatMap.mpr ⟨t, ht, Node.mem_preorder_trans hn hm⟩

theorem parent_of_mem_entries (h : e ∈ f.entries) : e.ancestors = [] ∧ e.node ∈ f.children ∨
    ∃ p ∈ f.entries, e.node ∈ p.node.children ∧ e.ancestors = p.ancestors ++ [p.node] := by
  obtain ⟨n, hn, he⟩ := List.mem_flatMap.mp h
  rcases Node.parent_of_mem_entries he with rfl | ⟨p, hp, hparent⟩
  · exact .inl ⟨rfl, hn⟩
  · exact .inr ⟨p, List.mem_flatMap.mpr ⟨n, hn, hp⟩, hparent⟩

theorem sublist_ids (h : n ∈ f.nodes) : n.ids.Sublist f.ids := by
  obtain ⟨t, ht, hn⟩ := List.mem_flatMap.mp h
  have htop : t.ids.Sublist (f.children.flatMap Node.ids) :=
    List.sublist_flatten_of_mem (List.mem_map_of_mem ht)
  rw [ids, forestIds_eq]
  exact (Node.sublist_ids hn).trans htop

theorem nodup_ids (h : n ∈ f.nodes) : n.ids.Nodup :=
  List.Nodup.sublist (sublist_ids h) f.nodup

/-- An id belongs to one node. -/
theorem eq_of_mem_nodes {m : Node} (hm : m ∈ f.nodes) (hn : n ∈ f.nodes) (hmid : m.id? = some id)
    (hnid : n.id? = some id) : m = n :=
  eq_of_nodup_filterMap f.nodup hm hn hmid hnid

theorem eq_of_mem_entries (he : e ∈ f.entries) (he' : e' ∈ f.entries) (hid : e.node.id? = some id)
    (hid' : e'.node.id? = some id) : e = e' := by
  have hnodup : (f.entries.filterMap fun e => e.node.id?).Nodup := by
    rw [← Function.comp_def Node.id? Entry.node, ← List.filterMap_map, f.map_node_entries]
    exact f.nodup
  exact eq_of_nodup_filterMap hnodup he he' hid hid'

/-- The entry that is found under an id is the one whose node has it. -/
theorem entry?_eq_some_iff : f.entry? id = some e ↔ e ∈ f.entries ∧ e.node.id? = some id := by
  constructor
  · intro h
    exact ⟨List.mem_of_find?_eq_some h, by simpa using List.find?_some h⟩
  · rintro ⟨he, hid⟩
    cases hfind : f.entry? id with
    | none => exact absurd hid (by simpa using List.find?_eq_none.mp hfind e he)
    | some e' =>
      have hid' : e'.node.id? = some id := by simpa using List.find?_some hfind
      rw [eq_of_mem_entries (List.mem_of_find?_eq_some hfind) he hid' hid]

theorem contains_iff : f.contains id ↔ id ∈ f.ids := by
  rw [contains, Option.isSome_iff_exists, mem_ids_iff]
  constructor
  · rintro ⟨e, he⟩
    obtain ⟨he, hid⟩ := entry?_eq_some_iff.mp he
    exact ⟨e.node, node_mem_nodes he, hid⟩
  · rintro ⟨n, hn, hid⟩
    obtain ⟨above, he⟩ := exists_entry hn
    exact ⟨⟨n, above⟩, entry?_eq_some_iff.mpr ⟨he, hid⟩⟩

theorem parent?_eq (he : e ∈ f.entries) (hid : e.node.id? = some id) :
    f.parent? id = e.ancestors.getLast? := by
  rw [parent?, ancestors, entry?_eq_some_iff.mpr ⟨he, hid⟩]
  rfl

theorem parent?_of_top (h : n ∈ f.children) (hid : n.id? = some id) : f.parent? id = none :=
  parent?_eq (mem_entries_of_top h) hid

theorem parent?_of_child (hn : n ∈ f.nodes) (hc : c ∈ n.children) (hid : c.id? = some id) :
    f.parent? id = some n := by
  obtain ⟨above, he⟩ := exists_entry hn
  rw [parent?_eq (mem_entries_of_child he hc) hid]
  exact List.getLast?_concat

theorem mem_children_of_parent? {p : Node} (h : f.parent? id = some p) (hn : n ∈ f.nodes)
    (hid : n.id? = some id) : n ∈ p.children := by
  obtain ⟨above, he⟩ := exists_entry hn
  rw [parent?_eq he hid] at h
  rcases parent_of_mem_entries he with ⟨htop, -⟩ | ⟨q, -, hchild, habove⟩
  · rw [show above = [] from htop] at h
    cases h
  · rw [show above = q.ancestors ++ [q.node] from habove, List.getLast?_concat] at h
    exact Option.some.inj h ▸ hchild

theorem find?_eq (hn : n ∈ f.nodes) (hid : n.id? = some id) : f.find? id = some n := by
  obtain ⟨above, he⟩ := exists_entry hn
  rw [find?, entry?_eq_some_iff.mpr ⟨he, hid⟩]
  rfl

theorem mem_nodes_of_parent? {p : Node} (h : f.parent? id = some p) : p ∈ f.nodes := by
  rw [parent?, ancestors] at h
  cases hentry : f.entry? id with
  | none =>
    rw [hentry] at h
    cases h
  | some e =>
    rw [hentry, Option.map_some, Option.getD_some] at h
    rcases parent_of_mem_entries (entry?_eq_some_iff.mp hentry).1 with ⟨htop, -⟩ | ⟨q, hq, -, habove⟩
    · rw [htop] at h
      cases h
    · rw [habove, List.getLast?_concat] at h
      exact Option.some.inj h ▸ node_mem_nodes hq

end Formula

end FormulaDoc
