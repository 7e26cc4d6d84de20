import FormulaDoc.Proofs.Index

namespace FormulaDoc

namespace Node

/-- The stack gives out what is below the tree on top before the next one. -/
theorem walk_eq (stack : List Node) : walk stack = stack.flatMap preorder := by
  induction stack using walk.induct with
  | case1 => rw [walk]; rfl
  | case2 n stack ih =>
    rw [walk, ih, List.flatMap_append, List.flatMap_cons, preorder_eq, List.cons_append]

/-- Whether no two of some nodes share an id. -/
def Distinct (ns : List Node) : Prop :=
  ns.Pairwise fun a b => ∀ id, a.id? = some id → b.id? ≠ some id

theorem distinct_iff {ns : List Node} : Distinct ns ↔ (ns.filterMap id?).Nodup := by
  rw [Distinct, List.Nodup, List.pairwise_filterMap]
  refine List.Pairwise.iff fun a b => ?_
  constructor
  · rintro h id ha _ hb rfl
    exact h id ha hb
  · exact fun h id ha hb => h id ha id hb rfl

/-- Whether a path leads down from some siblings to a node: it begins with one of them, each of its nodes
is a child of the one before, and the node is a child of the last one. -/
def Leads : List Node → List Node → Node → Prop
  | siblings, [], n => n ∈ siblings
  | siblings, a :: path, n => a ∈ siblings ∧ Leads a.children path n

variable {above path ns : List Node} {n : Node}

theorem mem_entries_of_leads (h : Leads ns path n) : ⟨n, above ++ path⟩ ∈ ns.flatMap (entries above) := by
  induction path generalizing ns above with
  | nil =>
    have hself : ⟨n, above⟩ ∈ n.entries above := mem_entries_iff.mpr (.inl rfl)
    rw [List.append_nil]
    exact List.mem_flatMap.mpr ⟨n, h, hself⟩
  | cons a path ih =>
    obtain ⟨ha, hpath⟩ := h
    have hbelow : ⟨n, above ++ [a] ++ path⟩ ∈ a.children.flatMap (entries (above ++ [a])) := ih hpath
    rw [List.append_assoc, List.singleton_append] at hbelow
    have hentry : ⟨n, above ++ a :: path⟩ ∈ a.entries above :=
      mem_entries_iff.mpr (.inr (List.mem_flatMap.mp hbelow))
    exact List.mem_flatMap.mpr ⟨a, ha, hentry⟩

theorem leads_of_mem_entries {e : Entry} (hn : n ∈ ns) (h : e ∈ n.entries above) :
    ∃ path, e.ancestors = above ++ path ∧ Leads ns path e.node := by
  induction n using childrenInduction generalizing ns above with
  | step n ih =>
    rcases mem_entries_iff.mp h with rfl | ⟨c, hc, he⟩
    · exact ⟨[], (List.append_nil above).symm, hn⟩
    · obtain ⟨path, hpath, hleads⟩ := ih c hc hc he
      exact ⟨n :: path, by rw [hpath, List.append_assoc, List.singleton_append], hn, hleads⟩

theorem mem_entries_iff_leads : ⟨n, path⟩ ∈ ns.flatMap (entries []) ↔ Leads ns path n := by
  constructor
  · intro h
    obtain ⟨t, ht, he⟩ := List.mem_flatMap.mp h
    obtain ⟨path', rfl, hleads⟩ := leads_of_mem_entries ht he
    exact hleads
  · exact fun h => mem_entries_of_leads h

end Node

namespace Index

/-- The index of some entries, each under the id of its node. -/
def ofEntries (es : List Entry) : Index :=
  es.filterMap fun e => e.node.id?.map fun id => (id, e)

variable {index : Index} {e : Entry} {i : String}

theorem add_of_id? (hid : e.node.id? = some i) : index.add e =
    if (index.lookup i).isSome then .error ⟨i⟩ else .ok (index ++ [(i, e)]) := by
  rw [add, hid]

theorem add_of_id?_eq_none (hid : e.node.id? = none) : index.add e = .ok index := by
  rw [add, hid]

theorem lookup_singleton (i id : String) (e : Entry) :
    [(i, e)].lookup id = if i = id then some e else none := by
  rw [List.lookup_cons]
  by_cases h : i = id
  · rw [h, beq_self_eq_true, if_pos rfl]
  · rw [beq_false_of_ne (Ne.symm h), if_neg h]
    rfl

theorem ofEntries_cons_none (hid : e.node.id? = none) (es : List Entry) :
    ofEntries (e :: es) = ofEntries es :=
  List.filterMap_cons_none (by rw [hid]; rfl)

theorem ofEntries_cons_some (hid : e.node.id? = some i) (es : List Entry) :
    ofEntries (e :: es) = [(i, e)] ++ ofEntries es :=
  List.filterMap_cons_some (by rw [hid]; rfl)

theorem lookup_ofEntries (es : List Entry) (id : String) :
    (ofEntries es).lookup id = es.find? fun e => e.node.id? = some id := by
  induction es with
  | nil => rfl
  | cons e es ih =>
    rw [List.find?_cons]
    cases hid : e.node.id? with
    | none => rw [ofEntries_cons_none hid, ih]; rfl
    | some i =>
      rw [ofEntries_cons_some hid, List.lookup_append, lookup_singleton, ih]
      by_cases h : i = id <;> simp [h]

/-- Filing entries one by one fails at the first id that is filed already. -/
theorem foldlM_add {seen : List String} (hseen : ∀ id, (index.lookup id).isSome ↔ id ∈ seen)
    (es : List Entry) :
    es.foldlM add index = match firstRepeat? seen ((es.map Entry.node).filterMap Node.id?) with
      | none => .ok (index ++ ofEntries es)
      | some id => .error ⟨id⟩ := by
  induction es generalizing index seen with
  | nil => exact congrArg Except.ok (List.append_nil index).symm
  | cons e es ih =>
    rw [List.foldlM_cons, List.map_cons]
    cases hid : e.node.id? with
    | none =>
      rw [add_of_id?_eq_none hid, List.filterMap_cons_none hid, ofEntries_cons_none hid]
      exact ih hseen
    | some i =>
      rw [add_of_id? hid, List.filterMap_cons_some hid, ofEntries_cons_some hid, firstRepeat?]
      by_cases hi : i ∈ seen
      · rw [if_pos ((hseen i).mpr hi), if_pos hi]
        rfl
      · have hadded : ∀ id, ((index ++ [(i, e)]).lookup id).isSome ↔ id ∈ i :: seen := by
          intro id
          rw [List.lookup_append, Option.isSome_or, Bool.or_eq_true, hseen id, List.mem_cons,
            lookup_singleton]
          by_cases h : i = id
          · simp [h]
          · simp [h, Ne.symm h]
        rw [if_neg (mt (hseen i).mp hi), if_neg hi, ← List.append_assoc]
        exact ih hadded

end Index

theorem foldlM_index {above : List Node} {ns : List Node} (h : ∀ n ∈ ns, ∀ index,
    n.index above index = (n.entries above).foldlM Index.add index) (index : Index) :
    ns.foldlM (Node.index above) index = (ns.flatMap (Node.entries above)).foldlM Index.add index := by
  induction ns generalizing index with
  | nil => rfl
  | cons n ns ih =>
    have hrest := ih fun m hm => h m (List.mem_cons_of_mem n hm)
    rw [List.foldlM_cons, List.flatMap_cons, List.foldlM_append, h n List.mem_cons_self]
    exact bind_congr hrest

/-- A tree is filed entry by entry. -/
theorem Node.index_eq_foldlM (above : List Node) (index : Index) (n : Node) :
    n.index above index = (n.entries above).foldlM Index.add index := by
  induction n using childrenInduction generalizing above index with
  | step n ih =>
    rw [index_eq, entries_eq, List.foldlM_cons]
    exact bind_congr fun filed => foldlM_index (fun c hc => ih c hc _) filed

theorem firstRepeat?_eq_some {seen xs : List String} {id : String} :
    firstRepeat? seen xs = some id ↔ ∃ before after, xs = before ++ id :: after ∧ before.Nodup ∧
      (∀ x ∈ before, x ∉ seen) ∧ (id ∈ seen ∨ id ∈ before) := by
  induction xs generalizing seen with
  | nil => simp [firstRepeat?]
  | cons x xs ih =>
    rw [firstRepeat?]
    split
    next hx =>
      constructor
      · rintro ⟨⟩
        exact ⟨[], xs, rfl, .nil, List.forall_mem_nil _, .inl hx⟩
      · rintro ⟨before, after, heq, -, hout, -⟩
        cases before with
        | nil => rw [(List.cons.inj heq).1]
        | cons b before => exact absurd ((List.cons.inj heq).1 ▸ hx) (hout b List.mem_cons_self)
    next hx =>
      rw [ih]
      constructor
      · rintro ⟨before, after, rfl, hnodup, hout, hid⟩
        refine ⟨x :: before, after, rfl, ?_, ?_, ?_⟩ <;> grind
      · rintro ⟨before, after, heq, hnodup, hout, hid⟩
        cases before with
        | nil =>
          obtain ⟨rfl, -⟩ := List.cons.inj heq
          exact absurd (hid.resolve_right List.not_mem_nil) hx
        | cons b before =>
          obtain ⟨rfl, rfl⟩ := List.cons.inj heq
          refine ⟨before, after, rfl, ?_, ?_, ?_⟩ <;> grind

/-- Whether an id is the first that comes again among some nodes: the nodes before some node have
different ids, and the id of the node is one of them. -/
def Node.FirstRepeated (id : String) (ns : List Node) : Prop :=
  ∃ before n after, ns = before ++ n :: after ∧ Distinct before ∧ n.id? = some id ∧
    ∃ m ∈ before, m.id? = some id

theorem Node.firstRepeated_iff {id : String} {ns : List Node} :
    FirstRepeated id ns ↔ firstRepeat? [] (ns.filterMap id?) = some id := by
  rw [firstRepeat?_eq_some]
  constructor
  · rintro ⟨before, n, after, rfl, hdistinct, hid, m, hm, hmid⟩
    have hrepeat : id ∈ before.filterMap id? := List.mem_filterMap.mpr ⟨m, hm, hmid⟩
    refine ⟨before.filterMap id?, after.filterMap id?, ?_, distinct_iff.mp hdistinct,
      fun _ _ => List.not_mem_nil, .inr hrepeat⟩
    rw [List.filterMap_append, List.filterMap_cons_some hid]
  · rintro ⟨ids, rest, heq, hnodup, -, hmem⟩
    obtain ⟨before, tail, rfl, rfl, htail⟩ := List.filterMap_eq_append_iff.mp heq
    obtain ⟨gap, n, after, rfl, hgap, hid, -⟩ := List.filterMap_eq_cons_iff.mp htail
    have hids : (before ++ gap).filterMap id? = before.filterMap id? := by
      rw [List.filterMap_append, List.filterMap_eq_nil_iff.mpr hgap, List.append_nil]
    obtain ⟨m, hm, hmid⟩ := List.mem_filterMap.mp (hmem.resolve_left List.not_mem_nil)
    refine ⟨before ++ gap, n, after, (List.append_assoc _ _ _).symm, ?_, hid, m,
      List.mem_append_left gap hm, hmid⟩
    rw [distinct_iff, hids]
    exact hnodup

namespace Formula

variable {f : Formula} {id : String} {n : Node} {path : List Node}

theorem ofNodes_eq_error {ns : List Node} (h : firstRepeat? [] (forestIds ns) = some id) :
    ofNodes ns = .error ⟨id⟩ := by
  unfold ofNodes
  split
  next h' =>
    rw [h] at h'
    cases h'
  next h' =>
    rw [h] at h'
    cases h'
    rfl

theorem exists_ofNodes_eq_error_iff {ns : List Node} :
    (∃ e, ofNodes ns = .error e) ↔ ¬ (forestIds ns).Nodup := by
  constructor
  · rintro ⟨e, he⟩ hnodup
    rw [ofNodes_eq_ok hnodup] at he
    cases he
  · intro h
    cases hrepeat : firstRepeat? [] (forestIds ns) with
    | none => exact absurd (firstRepeat?_eq_none.mp hrepeat).1 h
    | some id => exact ⟨⟨id⟩, ofNodes_eq_error hrepeat⟩

/-- The index refuses what is no formula, and holds the entries of what is one. -/
theorem index_eq_map (ns : List Node) :
    index ns = (ofNodes ns).map fun f => Index.ofEntries f.entries := by
  have hids : ((ns.flatMap (Node.entries [])).map Entry.node).filterMap Node.id? = forestIds ns := by
    rw [List.map_flatMap, List.flatMap_congr fun n _ => n.map_node_entries [], forestIds]
  have hnone : ∀ id, (([] : Index).lookup id).isSome ↔ id ∈ ([] : List String) := by simp
  rw [index, foldlM_index fun n _ index => n.index_eq_foldlM [] index, Index.foldlM_add hnone, hids]
  cases h : firstRepeat? [] (forestIds ns) with
  | none =>
    rw [ofNodes_eq_ok (firstRepeat?_eq_none.mp h).1]
    rfl
  | some id =>
    rw [ofNodes_eq_error h]
    rfl

theorem entry?_eq_map (f : Formula) (id : String) :
    f.entry? id = (f.find? id).map fun n => ⟨n, f.ancestors id⟩ := by
  rw [find?, ancestors]
  cases f.entry? id <;> rfl

theorem find?_eq_some_iff : f.find? id = some n ↔ n ∈ f.nodes ∧ n.id? = some id := by
  constructor
  · intro h
    obtain ⟨e, he, rfl⟩ := Option.map_eq_some_iff.mp h
    obtain ⟨hmem, hid⟩ := entry?_eq_some_iff.mp he
    exact ⟨node_mem_nodes hmem, hid⟩
  · exact fun ⟨hn, hid⟩ => find?_eq hn hid

/-- The node that is found under an id is the only one with it. -/
theorem filter_nodes_eq (f : Formula) (id : String) :
    f.nodes.filter (fun n => n.id? = some id) = (f.find? id).toList := by
  have hdistinct : (f.nodes.filter fun n => n.id? = some id).Pairwise
      fun a b => ∀ id, a.id? = some id → b.id? ≠ some id :=
    (Node.distinct_iff.mpr f.nodup).sublist List.filter_sublist
  have hmem : ∀ n, n ∈ f.nodes.filter (fun n => n.id? = some id) ↔ f.find? id = some n := by
    intro n
    rw [List.mem_filter, decide_eq_true_eq, find?_eq_some_iff]
  cases hnodes : f.nodes.filter fun n => n.id? = some id with
  | nil =>
    cases hfind : f.find? id with
    | none => rfl
    | some n =>
      have hn := (hmem n).mpr hfind
      rw [hnodes] at hn
      cases hn
  | cons n rest =>
    rw [hnodes] at hdistinct hmem
    have hn := (hmem n).mp List.mem_cons_self
    cases rest with
    | nil => rw [hn]; rfl
    | cons m rest =>
      have hm := (hmem m).mp (List.mem_cons_of_mem n List.mem_cons_self)
      have hother : m.id? ≠ some id :=
        (List.pairwise_cons.mp hdistinct).1 m List.mem_cons_self id (find?_eq_some_iff.mp hn).2
      exact absurd (find?_eq_some_iff.mp hm).2 hother

/-- The ancestors of a node are the only path that leads down to it. -/
theorem leads_iff (h : f.find? id = some n) : Node.Leads f.children path n ↔ path = f.ancestors id := by
  have hid : n.id? = some id := (find?_eq_some_iff.mp h).2
  calc Node.Leads f.children path n
      ↔ ⟨n, path⟩ ∈ f.entries := Node.mem_entries_iff_leads.symm
    _ ↔ f.entry? id = some ⟨n, path⟩ := ⟨fun he => entry?_eq_some_iff.mpr ⟨he, hid⟩,
        fun he => (entry?_eq_some_iff.mp he).1⟩
    _ ↔ path = f.ancestors id := by
        rw [entry?_eq_map, h, Option.map_some, Option.some.injEq, Entry.mk.injEq]
        exact ⟨fun he => he.2.symm, fun he => ⟨rfl, he.symm⟩⟩

theorem ancestors_eq_nil (h : f.find? id = none) : f.ancestors id = [] := by
  rw [find?, Option.map_eq_none_iff] at h
  rw [ancestors, h]
  rfl

/-- The parent of a node is the only node that it is a child of. -/
theorem parent?_eq_some_iff (h : f.find? id = some n) {p : Node} :
    f.parent? id = some p ↔ p ∈ f.nodes ∧ n ∈ p.children := by
  obtain ⟨hn, hid⟩ := find?_eq_some_iff.mp h
  exact ⟨fun hp => ⟨mem_nodes_of_parent? hp, mem_children_of_parent? hp hn hid⟩,
    fun ⟨hp, hchild⟩ => parent?_of_child hp hchild hid⟩

/-- That what is looked up in a formula is what is in it. -/
structure Faithful (f : Formula) : Prop where
  /-- The stack gives out the nodes in pre-order. -/
  walk : f.walk = f.children.flatMap Node.preorder
  /-- Under an id the only node with it is found, if there is one. -/
  find : ∀ id, f.walk.filter (fun n => n.id? = some id) = (f.find? id).toList
  contains : ∀ id, f.contains id = (f.find? id).isSome
  /-- The ancestors of a node are the only path that leads down to it. -/
  ancestors : ∀ id n, f.find? id = some n → ∀ path,
    Node.Leads f.children path n ↔ path = f.ancestors id
  ancestors_top : ∀ id n, n ∈ f.children → n.id? = some id → f.ancestors id = []
  ancestors_unknown : ∀ id, f.find? id = none → f.ancestors id = []
  parent : ∀ id, f.parent? id = (f.ancestors id).getLast?
  /-- Its parent is the only node that it is a child of. -/
  parent_iff : ∀ id n p, f.find? id = some n → (f.parent? id = some p ↔ p ∈ f.walk ∧ n ∈ p.children)
  /-- The index holds the same nodes and ancestors. -/
  table : ∃ table, index f.children = .ok table ∧
    ∀ id, table.lookup id = (f.find? id).map fun n => ⟨n, f.ancestors id⟩

theorem faithful (f : Formula) : f.Faithful where
  walk := Node.walk_eq f.children
  find id := by
    rw [walk, Node.walk_eq]
    exact f.filter_nodes_eq id
  contains id := (Option.isSome_map (f := Entry.node)).symm
  ancestors id n h path := leads_iff h
  ancestors_top id n hn hid := by
    have htop : Node.Leads f.children [] n := hn
    exact ((leads_iff (find?_eq (mem_nodes_of_top hn) hid)).mp htop).symm
  ancestors_unknown id h := ancestors_eq_nil h
  parent id := rfl
  parent_iff id n p h := by
    rw [walk, Node.walk_eq]
    exact parent?_eq_some_iff h
  table := by
    refine ⟨_, (index_eq_map f.children).trans (by rw [ofNodes_eq_ok f.nodup]; rfl), fun id => ?_⟩
    rw [Index.lookup_ofEntries, ← entry?_eq_map]
    rfl

/-- The index of a formula is faithful. A sequence of trees in which two nodes share an id is refused, by
the index as well, and the id is named that comes again first in pre-order; any other sequence is a
formula, in which every lookup gives what is there. -/
theorem ofNodes_faithful (ns : List Node) :
    match ofNodes ns with
    | .error e => ¬ Node.Distinct (ns.flatMap Node.preorder) ∧
        Node.FirstRepeated e.id (ns.flatMap Node.preorder) ∧ index ns = .error e
    | .ok f => Node.Distinct (ns.flatMap Node.preorder) ∧ f.children = ns ∧ f.Faithful := by
  cases h : firstRepeat? [] (forestIds ns) with
  | none =>
    have hnodup : (forestIds ns).Nodup := (firstRepeat?_eq_none.mp h).1
    have hdistinct := Node.distinct_iff.mpr hnodup
    rw [ofNodes_eq_ok hnodup]
    exact ⟨hdistinct, rfl, faithful _⟩
  | some id =>
    have hrepeated := Node.firstRepeated_iff.mpr h
    rw [index_eq_map, ofNodes_eq_error h]
    refine ⟨?_, hrepeated, rfl⟩
    intro hdistinct
    have hnodup : (forestIds ns).Nodup := Node.distinct_iff.mp hdistinct
    have hnone : firstRepeat? [] (forestIds ns) = none := firstRepeat?_eq_none.mpr ⟨hnodup, by simp⟩
    rw [hnone] at h
    cases h

end Formula

end FormulaDoc
