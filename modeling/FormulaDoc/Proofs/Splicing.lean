import FormulaDoc.Proofs.BottomUp
import FormulaDoc.Style

namespace FormulaDoc

namespace Node

variable {m n c : Node} {ids : List String}

theorem selectedIn_iff : n.selectedIn ids ↔ ∃ id ∈ ids, n.id? = some id := by
  rw [selectedIn]
  cases n.id? with
  | none => simp
  | some id => simp [eq_comm]

theorem not_selectedIn (h : ∀ id ∈ ids, id ∉ n.ids) : ¬ n.selectedIn ids := by
  intro hsel
  obtain ⟨id, hid, hn⟩ := selectedIn_iff.mp hsel
  exact h id hid (mem_ids_of_id? hn)

/-- What stands for a node once the groups with these ids are taken out: its children, if it is one of
them. -/
def dissolve (ids : List String) (n : Node) : List Node :=
  if n.kind = .group ∧ n.selectedIn ids then n.children else [n]

/-- A sequence node without the groups with these ids among its siblings. -/
def dissolveBelow (ids : List String) (n : Node) : Node :=
  if n.sequence?.isSome then n.withChildren (n.children.flatMap (dissolve ids)) else n

/-- A tree without the groups with these ids in its sequences. -/
def splice (ids : List String) : Node → Node :=
  everywhere (dissolveBelow ids)

theorem dissolve_of_not_selectedIn (h : ¬ n.selectedIn ids) : n.dissolve ids = [n] :=
  if_neg fun hgroup => h hgroup.2

theorem flatMap_dissolve_eq_self {ns : List Node} (h : ∀ n ∈ ns, ¬ n.selectedIn ids) :
    ns.flatMap (dissolve ids) = ns := by
  rw [List.flatMap_congr fun n hn => dissolve_of_not_selectedIn (h n hn), List.flatMap_singleton']

end Node

/-- A sequence of trees with the body of each group that has one of these ids in the place of the group,
in the sequence itself and in those inside of it. -/
def spliceAll (ids : List String) (ns : List Node) : List Node :=
  ns.flatMap fun n => (n.splice ids).dissolve ids

namespace Node

variable {m n c : Node} {ids : List String}

/-- A sequence node takes any children. -/
theorem children_withChildren_of_sequence (h : n.sequence?.isSome) (cs : List Node) :
    (n.withChildren cs).children = cs := by
  cases n with
  | group | color | aligned => rfl
  | _ => cases h

theorem withChildren_withChildren_of_sequence (h : n.sequence?.isSome) (cs ds : List Node) :
    (n.withChildren cs).withChildren ds = n.withChildren ds := by
  cases n with
  | group | color | aligned => rfl
  | _ => cases h

theorem isSome_sequence?_of_kind (h : m.kind = n.kind) :
    m.sequence?.isSome = n.sequence?.isSome := by
  cases m <;> cases n <;> first | rfl | cases h

theorem exists_id?_of_sequence {items : List Node} (h : n.sequence? = some items) :
    ∃ id, n.id? = some id := by
  cases n <;> first | exact ⟨_, rfl⟩ | cases h

theorem children_of_sequence {items : List Node} (h : n.sequence? = some items) :
    n.children = items := by
  cases n with
  | group | color | aligned => exact Option.some.inj h
  | _ => cases h

theorem splice_of_sequence (h : n.sequence?.isSome) :
    n.splice ids = n.withChildren (spliceAll ids n.children) := by
  have hkind := isSome_sequence?_of_kind (n.kind_mapChildren (splice ids))
  rw [splice, everywhere_eq, dissolveBelow, ← splice, hkind, if_pos h, children_mapChildren,
    mapChildren, withChildren_withChildren_of_sequence h, List.flatMap_map]
  rfl

theorem splice_group (id : String) (body : List Node) :
    (group id body).splice ids = group id (spliceAll ids body) :=
  splice_of_sequence rfl

theorem splice_of_not_sequence (h : ¬ n.sequence?.isSome) :
    n.splice ids = n.mapChildren (splice ids) := by
  have hkind := isSome_sequence?_of_kind (n.kind_mapChildren (splice ids))
  rw [splice, everywhere_eq, dissolveBelow, ← splice, hkind, if_neg h]

theorem kind_splice (ids : List String) (n : Node) : (n.splice ids).kind = n.kind := by
  by_cases h : n.sequence?.isSome
  · rw [splice_of_sequence h, kind_withChildren_any]
  · rw [splice_of_not_sequence h, kind_mapChildren]

theorem id?_splice (ids : List String) (n : Node) : (n.splice ids).id? = n.id? := by
  by_cases h : n.sequence?.isSome
  · rw [splice_of_sequence h, id?_withChildren_any]
  · rw [splice_of_not_sequence h, id?_mapChildren]

theorem children_splice_of_sequence (h : n.sequence?.isSome) :
    (n.splice ids).children = spliceAll ids n.children := by
  rw [splice_of_sequence h, children_withChildren_of_sequence h]

theorem selectedIn_splice (ids sel : List String) (n : Node) :
    (n.splice ids).selectedIn sel = n.selectedIn sel := by
  rw [selectedIn, selectedIn, id?_splice]

theorem dissolveBelow_eq_self (h : ∀ id ∈ ids, id ∉ n.ids) : n.dissolveBelow ids = n := by
  have hbelow : ∀ c ∈ n.children, ¬ c.selectedIn ids := by
    intro c hc
    exact not_selectedIn fun id hid hmem => h id hid (ids_subset_of_child hc id hmem)
  rw [dissolveBelow, flatMap_dissolve_eq_self hbelow, withChildren_children, ite_self]

/-- Splicing takes nothing out of a tree in which none of the ids occurs. -/
theorem splice_eq_self (h : ∀ id ∈ ids, id ∉ n.ids) : n.splice ids = n := by
  refine everywhere_eq_self fun m hm => dissolveBelow_eq_self fun id hid hmem => h id hid ?_
  exact (sublist_ids hm).subset hmem

end Node

theorem spliceAll_eq_self {ids : List String} {ns : List Node}
    (h : ∀ id ∈ ids, id ∉ forestIds ns) : spliceAll ids ns = ns := by
  have hn : ∀ n ∈ ns, ∀ id ∈ ids, id ∉ n.ids := fun n hn id hid => not_mem_ids (h id hid) hn
  have hself : ∀ n ∈ ns, (n.splice ids).dissolve ids = n.dissolve ids := by
    intro n hmem
    rw [Node.splice_eq_self (hn n hmem)]
  rw [spliceAll, List.flatMap_congr hself,
    Node.flatMap_dissolve_eq_self fun n hmem => Node.not_selectedIn (hn n hmem)]

namespace Node

variable {new new' : List String}

theorem selectedIn_append (n : Node) :
    n.selectedIn (new ++ new') ↔ n.selectedIn new ∨ n.selectedIn new' := by
  simp only [selectedIn_iff, List.mem_append, or_and_right, exists_or]

theorem dissolve_append (n : Node) :
    (n.splice new').dissolve (new ++ new') = spliceAll new' (n.dissolve new) := by
  have hkind := n.kind_splice new'
  have hsel := n.selectedIn_splice new'
  by_cases h : n.kind = .group ∧ n.selectedIn new
  · have hsequence : n.sequence?.isSome := by
      cases n <;> first | rfl | cases h.1
    have hgroup : (n.splice new').kind = .group ∧ (n.splice new').selectedIn (new ++ new') := by
      rw [hkind, hsel]
      exact ⟨h.1, (selectedIn_append n).mpr (.inl h.2)⟩
    rw [dissolve, dissolve, if_pos h, if_pos hgroup, children_splice_of_sequence hsequence]
  · -- it is none of the first groups, so that it is dissolved with both sets as with the second
    have hiff : (n.splice new').kind = .group ∧ (n.splice new').selectedIn (new ++ new') ↔
        (n.splice new').kind = .group ∧ (n.splice new').selectedIn new' := by
      rw [hkind, hsel, hsel, selectedIn_append]
      constructor
      · rintro ⟨hk, hs | hs⟩
        · exact absurd ⟨hk, hs⟩ h
        · exact ⟨hk, hs⟩
      · exact fun hgroup => ⟨hgroup.1, .inr hgroup.2⟩
    have hrest : n.dissolve new = [n] := if_neg h
    rw [hrest, spliceAll, List.flatMap_singleton, dissolve, dissolve, if_congr hiff rfl rfl]

end Node

theorem spliceAll_append_of {new new' : List String} {ns : List Node}
    (h : ∀ n ∈ ns, n.splice (new ++ new') = (n.splice new).splice new') :
    spliceAll (new ++ new') ns = spliceAll new' (spliceAll new ns) := by
  have hboth : ∀ n ∈ ns, (n.splice (new ++ new')).dissolve (new ++ new') =
      spliceAll new' ((n.splice new).dissolve new) := by
    intro n hn
    rw [h n hn, Node.dissolve_append]
  rw [spliceAll, List.flatMap_congr hboth]
  exact List.flatMap_assoc.symm

/-- Both sets at once are the first and then the second. -/
theorem Node.splice_append (new new' : List String) (n : Node) :
    n.splice (new ++ new') = (n.splice new).splice new' := by
  induction n using childrenInduction with
  | step n ih =>
    have hsequence := isSome_sequence?_of_kind (n.kind_splice new)
    by_cases h : n.sequence?.isSome
    · rw [splice_of_sequence (hsequence.trans h), children_splice_of_sequence h, splice_of_sequence h,
        splice_of_sequence h, withChildren_withChildren_of_sequence h, spliceAll_append_of ih]
    · have hcomp : n.mapChildren (splice (new ++ new')) =
          n.mapChildren fun c => (c.splice new).splice new' :=
        mapChildren_congr ih
      have hsecond : (n.splice new).splice new' = (n.splice new).mapChildren (splice new') :=
        splice_of_not_sequence (hsequence ▸ h)
      rw [hsecond, splice_of_not_sequence h, splice_of_not_sequence h, mapChildren_mapChildren, hcomp]

theorem spliceAll_append (new new' : List String) (ns : List Node) :
    spliceAll (new ++ new') ns = spliceAll new' (spliceAll new ns) :=
  spliceAll_append_of fun n _ => n.splice_append new new'

namespace Node

variable {ids : List String} {m n c : Node}

theorem mem_preorder_of_dissolve (hc : c ∈ n.dissolve ids) (hm : m ∈ c.preorder) :
    m ∈ n.preorder := by
  unfold dissolve at hc
  split at hc
  next => exact mem_preorder_of_child hc hm
  next => rwa [List.mem_singleton.mp hc] at hm

/-- A node of a spliced tree is a node of the tree, spliced. -/
theorem exists_of_mem_splice (h : m ∈ (n.splice ids).preorder) :
    ∃ m' ∈ n.preorder, m = m'.splice ids := by
  induction n using childrenInduction with
  | step n ih =>
    rcases mem_preorder_iff.mp h with rfl | ⟨c, hc, hm⟩
    · exact ⟨n, n.self_mem_preorder, rfl⟩
    · have hchild : ∃ d ∈ n.children, m ∈ (d.splice ids).preorder := by
        by_cases hsequence : n.sequence?.isSome
        · rw [children_splice_of_sequence hsequence, spliceAll] at hc
          obtain ⟨d, hd, hc⟩ := List.mem_flatMap.mp hc
          exact ⟨d, hd, mem_preorder_of_dissolve hc hm⟩
        · rw [splice_of_not_sequence hsequence, children_mapChildren] at hc
          obtain ⟨d, hd, rfl⟩ := List.mem_map.mp hc
          exact ⟨d, hd, hm⟩
      obtain ⟨d, hd, hm⟩ := hchild
      obtain ⟨m', hm', he⟩ := ih d hd hm
      exact ⟨m', mem_preorder_of_child hd hm', he⟩

end Node

theorem exists_of_mem_spliceAll {ids : List String} {ns : List Node} {m : Node}
    (h : m ∈ (spliceAll ids ns).flatMap Node.preorder) :
    ∃ m' ∈ ns.flatMap Node.preorder, m = m'.splice ids := by
  obtain ⟨c, hc, hm⟩ := List.mem_flatMap.mp h
  obtain ⟨n, hn, hc⟩ := List.mem_flatMap.mp hc
  obtain ⟨m', hm', he⟩ := Node.exists_of_mem_splice (Node.mem_preorder_of_dissolve hc hm)
  exact ⟨m', List.mem_flatMap.mpr ⟨n, hn, hm'⟩, he⟩

section

variable {new : String} {before body after : List Node}

/-- A group put around some siblings and taken out again. -/
theorem spliceAll_group (h : new ∉ forestIds (before ++ body ++ after)) :
    spliceAll [new] (before ++ .group new body :: after) = before ++ body ++ after := by
  have hkeep : ∀ ns : List Node, (∀ id ∈ forestIds ns, id ∈ forestIds (before ++ body ++ after)) →
      spliceAll [new] ns = ns := by
    intro ns hns
    refine spliceAll_eq_self fun id hid hmem => h ?_
    exact List.mem_singleton.mp hid ▸ hns id hmem
  simp only [forestIds_eq, List.flatMap_append, List.mem_append] at hkeep
  have hbefore := hkeep before fun id hid => .inl (.inl hid)
  have hbody := hkeep body fun id hid => .inl (.inr hid)
  have hafter := hkeep after fun id hid => .inr hid
  have hgroup : ((Node.group new body).splice [new]).dissolve [new] = body := by
    rw [Node.splice_group, hbody]
    exact if_pos ⟨rfl, by simp [Node.selectedIn, Node.id?]⟩
  rw [spliceAll] at hbefore hafter ⊢
  rw [List.flatMap_append, List.flatMap_cons, hgroup, hbefore, hafter, List.append_assoc]

/-- A node with some of its children in a new group, put in the place of the node, and the group taken
out again. -/
theorem Node.splice_substitute {id : String} {p n : Node} (hid : p.id? = some id)
    (hitems : p.sequence? = some (before ++ body ++ after))
    (hn : ∀ m ∈ n.preorder, m.id? = some id → m = p) (hnew : new ∉ n.ids) :
    (n.everywhere (substitute id (p.withChildren (before ++ .group new body :: after)))).splice [new] =
      n := by
  induction n using childrenInduction with
  | step n ih =>
    have hids : ∀ id ∈ [new], id ∉ n.ids := fun id hid => List.mem_singleton.mp hid ▸ hnew
    by_cases h : n.id? = some id
    · obtain rfl := hn n n.self_mem_preorder h
      have hsequence : n.sequence?.isSome := hitems ▸ rfl
      have hchildren := children_of_sequence hitems
      have hkind := n.kind_withChildren_any (before ++ .group new body :: after)
      have hnew' : new ∉ forestIds (before ++ body ++ after) := by
        rw [← hchildren, forestIds_eq]
        exact fun hmem => hnew (n.ids_eq ▸ List.mem_append_right _ hmem)
      rw [everywhere_substitute_eq, if_pos h,
        splice_of_sequence ((isSome_sequence?_of_kind hkind).trans hsequence),
        children_withChildren_of_sequence hsequence, withChildren_withChildren_of_sequence hsequence,
        spliceAll_group hnew', ← hchildren, withChildren_children]
    · have hbelow : ∀ c ∈ n.children, (c.everywhere
          (substitute id (p.withChildren (before ++ .group new body :: after)))).splice [new] = c := by
        intro c hc
        have hnew : new ∉ c.ids := fun hmem => hnew (ids_subset_of_child hc new hmem)
        exact ih c hc (fun m hm => hn m (mem_preorder_of_child hc hm)) hnew
      rw [everywhere_substitute_eq, if_neg h, splice, everywhere_eq,
        mapChildren_mapChildren, ← splice, mapChildren_eq_self hbelow, dissolveBelow_eq_self hids]

theorem spliceAll_substitute {f : Formula} {id : String} {p : Node} (hp : p ∈ f.nodes)
    (hid : p.id? = some id) (hitems : p.sequence? = some (before ++ body ++ after))
    (hnew : new ∉ f.ids) :
    spliceAll [new] (f.children.map (Node.everywhere
      (Node.substitute id (p.withChildren (before ++ .group new body :: after))))) = f.children := by
  have hback : ∀ n ∈ f.children, (n.everywhere
      (Node.substitute id (p.withChildren (before ++ .group new body :: after)))).splice [new] = n := by
    intro n hn
    refine Node.splice_substitute hid hitems (fun m hm hmid => ?_) (not_mem_ids hnew hn)
    exact Formula.eq_of_mem_nodes (List.mem_flatMap.mpr ⟨n, hn, hm⟩) hp hmid hid
  have hself : ∀ n ∈ f.children, ¬ n.selectedIn [new] := fun n hn =>
    Node.not_selectedIn fun i hi => List.mem_singleton.mp hi ▸ not_mem_ids hnew hn
  rw [spliceAll, List.flatMap_map,
    List.flatMap_congr fun n hn => congrArg (Node.dissolve [new]) (hback n hn)]
  exact Node.flatMap_dissolve_eq_self hself

end

end FormulaDoc
