import FormulaDoc.Proofs.BottomUp
import FormulaDoc.Proofs.FreshIds
import Mathlib.Data.List.Perm.Subperm

namespace FormulaDoc

/-- What a visitor makes of a node with the ids that it draws for it, and how many these are. A maker
puts in no other ids than these, and draws none for a node without an id. -/
structure Maker where
  count : Node → Nat
  make : List String → Node → Node
  count_of_id? : ∀ b, b.id? = none → count b = 0
  ids_make : ∀ new b, new.length = count b → (make new b).ids.Subperm (new ++ b.ids)

/-- The ids that are drawn for each node, by the id of the node. -/
abbrev Supply := String → List String

/-- The ids that are drawn for a node; for one without an id there are none. -/
def Supply.of (fresh : Supply) (n : Node) : List String :=
  n.id?.elim [] fresh

theorem Supply.of_congr {fresh fresh' : Supply} {n : Node} (h : ∀ id ∈ n.ids, fresh id = fresh' id) :
    fresh.of n = fresh'.of n := by
  unfold Supply.of
  cases hid : n.id? with
  | none => rfl
  | some id => exact h id (Node.mem_ids_of_id? hid)

theorem Supply.of_eq (fresh : Supply) (n : Node) : fresh.of n = n.id?.toList.flatMap fresh := by
  unfold Supply.of
  cases n.id? <;> simp

namespace Maker

variable {k : Maker} {fresh fresh' : Supply} {c n : Node} {ns : List Node}

/-- What a maker makes of a tree from the leaves up, given a supply of ids. -/
def applyAll (k : Maker) (fresh : Supply) : Node → Node :=
  Node.everywhere fun b => k.make (fresh.of b) b

/-- A node as a maker receives it: rebuilt around what was made of its children. -/
def rebuilt (k : Maker) (fresh : Supply) (n : Node) : Node :=
  n.mapChildren (k.applyAll fresh)

theorem id?_rebuilt (k : Maker) (fresh : Supply) (n : Node) : (k.rebuilt fresh n).id? = n.id? :=
  n.id?_mapChildren _

theorem kind_rebuilt (k : Maker) (fresh : Supply) (n : Node) : (k.rebuilt fresh n).kind = n.kind :=
  n.kind_mapChildren _

theorem children_rebuilt (k : Maker) (fresh : Supply) (n : Node) :
    (k.rebuilt fresh n).children = n.children.map (k.applyAll fresh) :=
  n.children_mapChildren _

theorem applyAll_eq (k : Maker) (fresh : Supply) (n : Node) :
    k.applyAll fresh n = k.make (fresh.of n) (k.rebuilt fresh n) := by
  have hof : fresh.of (k.rebuilt fresh n) = fresh.of n := by
    rw [Supply.of, Supply.of, id?_rebuilt]
  rw [applyAll, Node.everywhere_eq, ← applyAll, ← rebuilt, hof]

/-- Of a supply only what it has for the nodes of a tree counts. -/
theorem applyAll_congr (h : ∀ id ∈ n.ids, fresh id = fresh' id) :
    k.applyAll fresh n = k.applyAll fresh' n := by
  induction n using Node.childrenInduction with
  | step n ih =>
    have hbelow : ∀ c ∈ n.children, k.applyAll fresh c = k.applyAll fresh' c := fun c hc =>
      ih c hc fun id hid => h id (Node.ids_subset_of_child hc id hid)
    have hrebuilt : k.rebuilt fresh n = k.rebuilt fresh' n := Node.mapChildren_congr hbelow
    rw [applyAll_eq, applyAll_eq, hrebuilt, Supply.of_congr h]

theorem rebuilt_congr (h : ∀ id ∈ n.ids, fresh id = fresh' id) :
    k.rebuilt fresh n = k.rebuilt fresh' n := by
  refine Node.mapChildren_congr fun c hc => ?_
  exact applyAll_congr fun id hid => h id (Node.ids_subset_of_child hc id hid)

/-- The supply has as many ids for each node of a tree as the maker draws for it. -/
def Fed (k : Maker) (fresh : Supply) (n : Node) : Prop :=
  ∀ m ∈ n.preorder, (fresh.of m).length = k.count (k.rebuilt fresh m)

theorem Fed.child (h : k.Fed fresh n) (hc : c ∈ n.children) : k.Fed fresh c :=
  fun m hm => h m (Node.mem_preorder_of_child hc hm)

theorem Fed.mk (hself : (fresh.of n).length = k.count (k.rebuilt fresh n))
    (hbelow : ∀ c ∈ n.children, k.Fed fresh c) : k.Fed fresh n := by
  intro m hm
  rcases Node.mem_preorder_iff.mp hm with rfl | ⟨c, hc, hm⟩
  · exact hself
  · exact hbelow c hc m hm

theorem Fed.congr (h : k.Fed fresh n) (hfresh : ∀ id ∈ n.ids, fresh id = fresh' id) :
    k.Fed fresh' n := by
  intro m hm
  have hids : ∀ id ∈ m.ids, fresh id = fresh' id := fun id hid =>
    hfresh id ((Node.sublist_ids hm).subset hid)
  rw [← Supply.of_congr hids, ← rebuilt_congr hids]
  exact h m hm

theorem subperm_flatMap {α β : Type} {f g : α → List β} {l : List α}
    (h : ∀ a ∈ l, (f a).Subperm (g a)) : (l.flatMap f).Subperm (l.flatMap g) := by
  induction l with
  | nil => exact .refl _
  | cons a l ih =>
    have ha : (f a).Subperm (g a) := h a List.mem_cons_self
    have hrest := ih fun b hb => h b (List.mem_cons_of_mem a hb)
    rw [List.flatMap_cons, List.flatMap_cons]
    exact ha.append hrest

/-- The ids of what is made are among those that were there and those that are supplied. -/
theorem ids_applyAll (h : k.Fed fresh n) :
    (k.applyAll fresh n).ids.Subperm (n.ids.flatMap fresh ++ n.ids) := by
  induction n using Node.childrenInduction with
  | step n ih =>
    have hbelow : (n.children.flatMap fun c => (k.applyAll fresh c).ids).Subperm
        ((n.children.flatMap Node.ids).flatMap fresh ++ n.children.flatMap Node.ids) := by
      have heach := subperm_flatMap fun c hc => ih c hc (h.child hc)
      rw [List.flatMap_assoc]
      exact heach.trans (List.flatMap_append_perm _ _ _).symm.subperm
    have hmake := k.ids_make _ _ (h n n.self_mem_preorder)
    rw [Node.ids_eq (k.rebuilt fresh n), id?_rebuilt, children_rebuilt, List.flatMap_map] at hmake
    rw [applyAll_eq, n.ids_eq, List.flatMap_append, ← Supply.of_eq, List.append_assoc]
    refine hmake.trans ?_
    rw [List.subperm_append_left]
    exact ((List.subperm_append_left _).mpr hbelow).trans
      (List.perm_append_comm_assoc _ _ _).subperm

theorem forestIds_map_applyAll (h : ∀ n ∈ ns, k.Fed fresh n) :
    (forestIds (ns.map (k.applyAll fresh))).Subperm ((forestIds ns).flatMap fresh ++ forestIds ns) := by
  have heach := subperm_flatMap fun n hn => ids_applyAll (h n hn)
  rw [forestIds_eq, forestIds_eq, List.flatMap_map, List.flatMap_assoc]
  exact heach.trans (List.flatMap_append_perm _ _ _).symm.subperm

end Maker

/-- A visitor that makes of each node what the maker does with the ids that it draws. -/
def Follows (visit : Node → Minting (Option Node)) (k : Maker) : Prop :=
  ∀ (b : Node) (p : Pool) (m : Minter), m.DrawsFrom p → (visit b).Ensures p m fun o m' =>
    ∃ new, m.Draws new m' ∧ new.length = k.count b ∧ o.getD b = k.make new b

variable {c : Formula} {k : Maker} {visit : Node → Minting (Option Node)} {p : Pool} {m m' m'' : Minter}
  {n : Node} {ns : List Node} {fresh fresh' : Supply}

/-- What rewriting makes of siblings with the ids that are drawn: for some supply of these ids, what the
maker makes of them. -/
structure Supplied (k : Maker) (ns : List Node) (m : Minter) (below : List Rewritten) (m' : Minter)
    (fresh : Supply) : Prop where
  draws : ∃ new, m.Draws new m' ∧ ((forestIds ns).flatMap fresh).Perm new
  fed : ∀ n ∈ ns, k.Fed fresh n
  made : below.map Prod.fst = ns.map (k.applyAll fresh)
  unchanged : below.any Prod.snd = false → below.map Prod.fst = ns

namespace Supplied

variable {r : Rewritten} {below : List Rewritten}

theorem nil (k : Maker) (m : Minter) (fresh : Supply) : Supplied k [] m [] m fresh := by
  refine ⟨?_, by simp, rfl, fun _ => rfl⟩
  exact ⟨[], .refl m, .refl _⟩

/-- Of the supply only what it has for the siblings counts. -/
theorem congr (h : Supplied k ns m below m' fresh) (hfresh : ∀ id ∈ forestIds ns, fresh id = fresh' id) :
    Supplied k ns m below m' fresh' := by
  have hids : ∀ n ∈ ns, ∀ id ∈ n.ids, fresh id = fresh' id := by
    intro n hn id hid
    rw [forestIds_eq] at hfresh
    exact hfresh id (List.mem_flatMap.mpr ⟨n, hn, hid⟩)
  refine ⟨?_, fun n hn => (h.fed n hn).congr (hids n hn), ?_, h.unchanged⟩
  · rw [← List.flatMap_congr hfresh]
    exact h.draws
  · rw [h.made]
    exact List.map_congr_left fun n hn => Maker.applyAll_congr (hids n hn)

theorem cons (h : Supplied k [n] m [r] m' fresh) (h' : Supplied k ns m' below m'' fresh) :
    Supplied k (n :: ns) m (r :: below) m'' fresh := by
  obtain ⟨new, hdraws, hnew⟩ := h.draws
  obtain ⟨new', hdraws', hnew'⟩ := h'.draws
  refine ⟨⟨_, hdraws.trans hdraws', ?_⟩, ?_, ?_, ?_⟩
  · rw [← List.singleton_append, forestIds_append, List.flatMap_append]
    exact (hnew.append hnew').trans List.perm_append_comm
  · exact List.forall_mem_cons.mpr ⟨h.fed n List.mem_cons_self, h'.fed⟩
  · have hhead := h.made
    rw [List.map_cons, List.map_cons, h'.made]
    exact congrArg (· ++ ns.map (k.applyAll fresh)) hhead
  · intro hsame
    rw [List.any_cons, Bool.or_eq_false_iff] at hsame
    have hhead := h.unchanged (by simp [hsame.1])
    rw [List.map_cons, h'.unchanged hsame.2]
    exact congrArg (· ++ ns) hhead

/-- The supplies of different trees together. -/
theorem glue (hnodup : (forestIds (n :: ns)).Nodup) (h : Supplied k [n] m [r] m' fresh)
    (h' : Supplied k ns m' below m'' fresh') :
    ∃ all, Supplied k (n :: ns) m (r :: below) m'' all := by
  rw [← List.singleton_append, forestIds_append, List.nodup_append'] at hnodup
  let all : Supply := fun id => if id ∈ forestIds [n] then fresh id else fresh' id
  have hhead : ∀ id ∈ forestIds [n], fresh id = all id := fun id hid => (if_pos hid).symm
  have htail : ∀ id ∈ forestIds ns, fresh' id = all id := fun id hid =>
    (if_neg fun hmem => hnodup.2.2 hmem hid).symm
  exact ⟨all, (h.congr hhead).cons (h'.congr htail)⟩

/-- A visit after the children were rewritten. What was drawn on it is put into the supply. -/
theorem visited {b : Node} {new : List String} (hnodup : n.ids.Nodup)
    (h : Supplied k n.children m below m' fresh) (hb : n.withChildren (below.map Prod.fst) = b)
    (hdraw : m'.Draws new m'') (hnew : new.length = k.count b) (hmake : r.1 = k.make new b)
    (hsame : r.2 = false → r.1 = b ∧ below.any Prod.snd = false) :
    Supplied k [n] m [r] m'' fun id => if n.id? = some id then new else fresh id := by
  have hrebuilt : b = k.rebuilt fresh n := by
    rw [← hb, h.made]
    rfl
  have hself : Supply.of (fun id => if n.id? = some id then new else fresh id) n = new := by
    unfold Supply.of
    cases hid : n.id? with
    | none =>
      rw [hrebuilt, k.count_of_id? _ ((k.id?_rebuilt fresh n).trans hid)] at hnew
      exact (List.eq_nil_of_length_eq_zero hnew).symm
    | some id => exact if_pos rfl
  have hagree : ∀ id ∈ forestIds n.children,
      fresh id = if n.id? = some id then new else fresh id := by
    intro id hid
    refine (if_neg fun hmem => ?_).symm
    rw [n.ids_eq, hmem, ← forestIds_eq] at hnodup
    exact (List.nodup_cons.mp hnodup).1 hid
  have hchildren := h.congr hagree
  have hrebuilt' : b = k.rebuilt (fun id => if n.id? = some id then new else fresh id) n := by
    rw [← hb, hchildren.made]
    rfl
  obtain ⟨drawn, hdraws, hdrawn⟩ := hchildren.draws
  refine ⟨⟨_, hdraws.trans hdraw, ?_⟩, ?_, ?_, fun hunchanged => ?_⟩
  · rw [forestIds_eq, List.flatMap_singleton, n.ids_eq, List.flatMap_append, ← Supply.of_eq, hself,
      ← forestIds_eq]
    exact hdrawn.append_left new
  · intro x hx
    obtain rfl := List.mem_singleton.mp hx
    exact .mk (by rw [hself, hnew, hrebuilt']) hchildren.fed
  · rw [List.map_singleton, List.map_singleton, hmake, Maker.applyAll_eq, hself, hrebuilt']
  · obtain ⟨hr, hbelow⟩ := hsame (by simpa using hunchanged)
    rw [List.map_singleton, hr, ← hb, h.unchanged hbelow, Node.withChildren_children]

end Supplied

theorem ensures_rewrite_nodes {x : Node → Minting Rewritten}
    (h : ∀ n ∈ ns, ∀ m, m.DrawsFrom p →
      (x n).Ensures p m fun r m' => ∃ fresh, Supplied k [n] m [r] m' fresh)
    (hnodup : (forestIds ns).Nodup) (hm : m.DrawsFrom p) :
    (ns.mapM x).Ensures p m fun below m' => ∃ fresh, Supplied k ns m below m' fresh := by
  induction ns generalizing m with
  | nil => exact Minting.ensures_pure hm ⟨fun _ => [], .nil k m _⟩
  | cons n ns ih =>
    have hrest : (forestIds ns).Nodup := by
      rw [← List.singleton_append, forestIds_append] at hnodup
      exact hnodup.of_append_right
    rw [List.mapM_cons]
    refine (h n List.mem_cons_self m hm).bind fun r m₁ _ hm₁ ⟨fresh, hhead⟩ => ?_
    have hns := ih (fun k hk => h k (List.mem_cons_of_mem n hk)) hrest hm₁
    refine hns.bind fun below m₂ _ hm₂ ⟨fresh', htail⟩ => ?_
    exact Minting.ensures_pure hm₂ (hhead.glue hnodup htail)

theorem ensures_rewrite_node (hvisit : Follows visit k) (hnodup : n.ids.Nodup) (hm : m.DrawsFrom p) :
    (n.rewrite visit).Ensures p m fun r m' => ∃ fresh, Supplied k [n] m [r] m' fresh := by
  induction n using Node.childrenInduction generalizing m with
  | step n ih =>
    have hchildren : (forestIds n.children).Nodup := by
      rw [n.ids_eq, ← forestIds_eq] at hnodup
      exact hnodup.of_append_right
    have hbelow : ∀ c ∈ n.children, c.ids.Nodup := fun c hc =>
      hnodup.sublist (Node.sublist_ids (Node.mem_preorder_of_child hc c.self_mem_preorder))
    have hrewrite := ensures_rewrite_nodes (fun c hc m => ih c hc (hbelow c hc)) hchildren hm
    rw [Node.rewrite_eq]
    refine hrewrite.bind fun below m₁ _ hm₁ ⟨fresh, h⟩ => ?_
    refine (hvisit _ p m₁ hm₁).bind fun o m₂ _ hm₂ ⟨new, hdraw, hnew, hmake⟩ => ?_
    cases o with
    | none =>
      exact Minting.ensures_pure hm₂ ⟨_, h.visited hnodup rfl hdraw hnew hmake fun hsame => ⟨rfl, hsame⟩⟩
    | some r =>
      exact Minting.ensures_pure hm₂ ⟨_, h.visited hnodup rfl hdraw hnew hmake fun hsame => by cases hsame⟩

/-- A formula made of `c` by a maker, with ids that are new and all different. -/
structure Formula.Made (k : Maker) (c : Formula) (fresh : Supply) (r : Formula) : Prop where
  nodup : (c.ids.flatMap fresh).Nodup
  new : ∀ id ∈ c.ids.flatMap fresh, id ∉ c.ids
  fed : ∀ n ∈ c.children, k.Fed fresh n
  children_eq : r.children = c.children.map (k.applyAll fresh)

theorem Formula.Made.fed_of_mem {r : Formula} (h : Made k c fresh r) (hn : n ∈ c.nodes) :
    k.Fed fresh n := by
  obtain ⟨t, ht, hn⟩ := List.mem_flatMap.mp hn
  exact fun m hm => h.fed t ht m (Node.mem_preorder_trans hn hm)

/-- A visitor that follows a maker makes of a formula what the maker does: there is a result, since the
ids that are drawn are new. -/
theorem Formula.ensures_rewrite_supplied (hvisit : Follows visit k) (hm : m.DrawsFrom p)
    (htaken : m.taken = c.ids) :
    (c.rewrite visit).Ensures p m fun x _ => ∃ fresh e, x = .ok e ∧ Made k c fresh e.formula := by
  have hnodup : ∀ n ∈ c.children, n.ids.Nodup := fun n hn =>
    nodup_ids (mem_nodes_of_top hn)
  have hnodes := ensures_rewrite_nodes (fun n hn _ => ensures_rewrite_node hvisit (hnodup n hn)) c.nodup hm
  refine hnodes.bind fun below m' _ hm' ⟨fresh, h⟩ => ?_
  obtain ⟨new, hdraws, hnew⟩ := h.draws
  have hfresh : (c.ids.flatMap fresh).Nodup := hnew.nodup_iff.mpr hdraws.nodup
  have hapart : ∀ id ∈ c.ids.flatMap fresh, id ∉ c.ids := fun id hid =>
    htaken ▸ hdraws.fresh id (hnew.mem_iff.mp hid)
  split
  next =>
    have hall : (c.ids.flatMap fresh ++ c.ids).Nodup := List.nodup_append'.mpr ⟨hfresh, c.nodup, hapart⟩
    have hids : (forestIds (below.map Prod.fst)).Nodup := by
      rw [h.made]
      obtain ⟨ids, hperm, hsub⟩ := Maker.forestIds_map_applyAll h.fed
      exact hperm.nodup_iff.mp (hall.sublist hsub)
    rw [ofNodes_eq_ok hids]
    exact Minting.ensures_pure hm' ⟨fresh, _, rfl, hfresh, hapart, h.fed, h.made⟩
  next hsame =>
    have hmade := h.made
    rw [h.unchanged (Bool.eq_false_iff.mpr hsame)] at hmade
    exact Minting.ensures_pure hm' ⟨fresh, _, rfl, hfresh, hapart, h.fed, hmade⟩

end FormulaDoc
