import FormulaDoc.Proofs.Painting

namespace FormulaDoc

namespace Node

/-- The child of a wrapper with one of these ids. -/
def unwrapTop (ids : List String) (n : Node) : Node :=
  match n.children with
  | [c] => if n.selectedIn ids then c else n
  | _ => n

/-- A tree with the child of each wrapper that has one of these ids in the place of the wrapper. -/
def unwrap (ids : List String) : Node → Node :=
  everywhere (unwrapTop ids)

theorem unwrapTop_of_not_selectedIn {ids : List String} {n : Node} (h : ¬ n.selectedIn ids) :
    n.unwrapTop ids = n := by
  unfold unwrapTop
  split
  next => exact if_neg h
  next => rfl

theorem unwrapTop_of_selectedIn {ids : List String} {n c : Node} (hchildren : n.children = [c])
    (h : n.selectedIn ids) : n.unwrapTop ids = c := by
  rw [unwrapTop, hchildren]
  exact if_pos h

end Node

/-- Siblings `ns` and what is made of them, `rs`: the wrappers with the ids `new` and the change `g` of
attributes, and nothing else. -/
structure Wraps (kind : Kind) (g : Node → Node) (ns rs : List Node) (new : List String) : Prop where
  length : rs.length = ns.length
  ids : (forestIds rs).Perm (new ++ forestIds ns)
  kept : ∀ n ∈ ns.flatMap Node.preorder, ∃ r ∈ rs.flatMap Node.preorder, r.id? = n.id? ∧ r.kind = n.kind
  wrappers : ∀ id ∈ new, ∃ w ∈ rs.flatMap Node.preorder, w.id? = some id ∧ w.kind = kind ∧
    w.children.length = 1
  -- of any larger set, so that the wrappers of all siblings can be taken out together
  unwrap : ∀ all : List String, (∀ id ∈ new, id ∈ all) → (∀ id ∈ all, id ∉ forestIds ns) →
    rs.map (Node.unwrap all) = ns.map (Node.everywhere g)

namespace Wraps

variable {kind : Kind} {g : Node → Node} {ns ns' rs rs' : List Node} {new new' : List String}
  {n r w : Node} {id : String}

theorem nil : Wraps kind g [] [] [] :=
  ⟨rfl, .refl _, by simp, by simp, fun _ _ _ => rfl⟩

theorem append (h : Wraps kind g ns rs new) (h' : Wraps kind g ns' rs' new') :
    Wraps kind g (ns ++ ns') (rs ++ rs') (new' ++ new) := by
  refine ⟨?_, ?_, ?_, ?_, ?_⟩
  · rw [List.length_append, List.length_append, h.length, h'.length]
  · have hswap := (h.ids.append h'.ids).trans (List.perm_append_comm_assoc _ _ _)
    rw [forestIds_append, forestIds_append, List.append_assoc, ← List.append_assoc new]
    exact hswap
  · intro n hn
    rw [List.flatMap_append, List.mem_append] at hn
    rw [List.flatMap_append]
    rcases hn with hn | hn
    · obtain ⟨r, hr, hrn⟩ := h.kept n hn
      exact ⟨r, List.mem_append_left _ hr, hrn⟩
    · obtain ⟨r, hr, hrn⟩ := h'.kept n hn
      exact ⟨r, List.mem_append_right _ hr, hrn⟩
  · intro id hid
    rw [List.flatMap_append]
    rcases List.mem_append.mp hid with hid | hid
    · obtain ⟨w, hw, hwid⟩ := h'.wrappers id hid
      exact ⟨w, List.mem_append_right _ hw, hwid⟩
    · obtain ⟨w, hw, hwid⟩ := h.wrappers id hid
      exact ⟨w, List.mem_append_left _ hw, hwid⟩
  · intro all hall hnew
    rw [forestIds_append] at hnew
    rw [List.map_append, List.map_append,
      h.unwrap all (fun id hid => hall id (List.mem_append_right _ hid))
        fun id hid hmem => hnew id hid (List.mem_append_left _ hmem),
      h'.unwrap all (fun id hid => hall id (List.mem_append_left _ hid))
        fun id hid hmem => hnew id hid (List.mem_append_right _ hmem)]

theorem mem_flatMap_singleton {m : Node} : m ∈ [n].flatMap Node.preorder ↔ m ∈ n.preorder := by
  rw [List.flatMap_singleton]

/-- A node around its wrapped children, with its attributes changed. -/
theorem rebuild (hg : Node.Repaints g) (h : Wraps kind g n.children rs new) :
    Wraps kind g [n] [g (n.withChildren rs)] new := by
  have hid : (g (n.withChildren rs)).id? = n.id? := by
    rw [hg.id?, Node.id?_withChildren h.length]
  have hkind : (g (n.withChildren rs)).kind = n.kind := by
    rw [hg.kind, n.kind_withChildren_any]
  have hchildren : (g (n.withChildren rs)).children = rs := by
    rw [hg.children, Node.children_withChildren h.length]
  have hbelow : ∀ r ∈ rs.flatMap Node.preorder, r ∈ (g (n.withChildren rs)).preorder := by
    intro r hr
    rw [← hchildren] at hr
    exact Node.mem_preorder_iff.mpr (.inr (List.mem_flatMap.mp hr))
  refine ⟨rfl, ?_, ?_, ?_, ?_⟩
  · rw [forestIds_eq, forestIds_eq, List.flatMap_singleton, List.flatMap_singleton, Node.ids_eq,
      n.ids_eq, hid, hchildren, ← forestIds_eq, ← forestIds_eq]
    exact (h.ids.append_left _).trans (List.perm_append_comm_assoc _ _ _)
  · intro m hm
    simp only [mem_flatMap_singleton] at hm ⊢
    rcases Node.mem_preorder_iff.mp hm with rfl | hm
    · exact ⟨_, Node.self_mem_preorder _, hid, hkind⟩
    · obtain ⟨r, hr, hrm⟩ := h.kept m (List.mem_flatMap.mpr hm)
      exact ⟨r, hbelow r hr, hrm⟩
  · intro id hid
    obtain ⟨w, hw, hwid⟩ := h.wrappers id hid
    exact ⟨w, mem_flatMap_singleton.mpr (hbelow w hw), hwid⟩
  · intro all hall hnew
    have hold : ∀ id ∈ all, id ∉ n.ids := fun id hid => not_mem_ids (hnew id hid) (by simp)
    have hrs : rs.map (Node.unwrap all) = n.children.map (Node.everywhere g) := by
      refine h.unwrap all hall fun id hid hmem => hold id hid ?_
      rw [n.ids_eq, ← forestIds_eq]
      exact List.mem_append_right _ hmem
    have hbelow : (g (n.withChildren rs)).mapChildren (Node.unwrap all) = n.everywhere g := by
      rw [Node.mapChildren, hchildren, hrs, ← hg.withChildren,
        Node.withChildren_withChildren h.length (by simp), Node.everywhere_eq, Node.mapChildren]
    have hsel : ¬ (n.everywhere g).selectedIn all := by
      rw [Node.selectedIn, hg.id?_everywhere]
      exact Node.not_selectedIn hold
    rw [List.map_singleton, List.map_singleton, Node.unwrap, Node.everywhere_eq, ← Node.unwrap, hbelow,
      Node.unwrapTop_of_not_selectedIn hsel]

/-- A new wrapper around a node. -/
theorem wrap (h : Wraps kind g [n] [r] new) (hid : w.id? = some id) (hkind : w.kind = kind)
    (hchildren : w.children = [r]) : Wraps kind g [n] [w] (id :: new) := by
  have hbelow : ∀ m ∈ [r].flatMap Node.preorder, m ∈ [w].flatMap Node.preorder := by
    intro m hm
    rw [mem_flatMap_singleton] at hm ⊢
    exact Node.mem_preorder_of_child (by simp [hchildren]) hm
  refine ⟨rfl, ?_, ?_, ?_, ?_⟩
  · have hids : forestIds [w] = id :: forestIds [r] := by
      rw [forestIds_eq, List.flatMap_singleton, w.ids_eq, hid, hchildren, ← forestIds_eq]
      rfl
    rw [hids]
    exact h.ids.cons id
  · intro m hm
    obtain ⟨r, hr, hrm⟩ := h.kept m hm
    exact ⟨r, hbelow r hr, hrm⟩
  · intro i hi
    rcases List.mem_cons.mp hi with rfl | hi
    · exact ⟨w, mem_flatMap_singleton.mpr w.self_mem_preorder, hid, hkind, by simp [hchildren]⟩
    · obtain ⟨w', hw', hwid⟩ := h.wrappers i hi
      exact ⟨w', hbelow w' hw', hwid⟩
  · intro all hall hnew
    have hrest := h.unwrap all (fun i hi => hall i (List.mem_cons_of_mem _ hi)) hnew
    have hsel : (w.mapChildren (Node.unwrap all)).selectedIn all := by
      rw [Node.selectedIn_iff]
      exact ⟨id, hall id List.mem_cons_self, by rw [Node.id?_mapChildren, hid]⟩
    have htop : w.unwrap all = r.unwrap all := by
      rw [Node.unwrap, Node.everywhere_eq]
      refine Node.unwrapTop_of_selectedIn ?_ hsel
      rw [Node.children_mapChildren, hchildren]
      rfl
    rw [List.map_singleton, htop]
    exact hrest

end Wraps

end FormulaDoc
