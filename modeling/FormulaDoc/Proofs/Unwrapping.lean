import FormulaDoc.Proofs.Unstyling

namespace FormulaDoc

namespace Node

/-- A script around a brace with one of the given ids. -/
def surrounds (ids : List String) : Node → Bool
  | script _ base _ _ => decide (base.kind = .brace) && base.selectedIn ids
  | _ => false

/-- The scripts of a node. -/
def captions : Node → List Node
  | script _ _ sub sup => sub.toList ++ sup.toList
  | _ => []

variable {ids captions : List String} {b c m n x : Node} {new : List String}

theorem mem_children_of_captions (h : x ∈ n.captions) : x ∈ n.children := by
  cases n with
  | script => exact List.mem_cons_of_mem _ h
  | _ => cases h

theorem not_isStyle_of_captions (h : x ∈ n.captions) : ¬ n.isStyle := by
  cases n with
  | script => nofun
  | _ => cases h

theorem exists_id_of_child (h : c ∈ n.children) : ∃ id, n.id? = some id := by
  cases hid : n.id? with
  | none =>
    rw [children_eq_nil_of_id? hid] at h
    cases h
  | some id => exact ⟨id, rfl⟩

/-- A node in a tree is its top or stands below another one. -/
theorem parent_of_mem_preorder (h : m ∈ n.preorder) : m = n ∨ ∃ p ∈ n.preorder, m ∈ p.children := by
  induction n using childrenInduction with
  | step n ih =>
    rcases mem_preorder_iff.mp h with rfl | ⟨c, hc, hm⟩
    · exact .inl rfl
    · rcases ih c hc hm with rfl | ⟨p, hp, hmp⟩
      · exact .inr ⟨n, n.self_mem_preorder, hc⟩
      · exact .inr ⟨p, mem_preorder_of_child hc hp, hmp⟩

theorem unwrapped?_mem_children (h : b.unwrapped? ids captions = some x) : x ∈ b.children := by
  cases b with
  | script id base sub sup =>
    obtain ⟨-, ⟨⟩⟩ := Option.ite_none_right_eq_some.mp h
    exact List.mem_cons_self
  | color id c body =>
    obtain _ | ⟨child, _ | ⟨next, rest⟩⟩ := body
    · cases h
    · obtain ⟨-, ⟨⟩⟩ := Option.ite_none_right_eq_some.mp h
      exact List.mem_cons_self
    · cases h
  | box | brace | strike =>
    obtain ⟨-, ⟨⟩⟩ := Option.ite_none_right_eq_some.mp h
    exact List.mem_cons_self
  | _ => cases h

theorem unwrapped?_mapChildren (g : Node → Node) (n : Node) :
    (n.mapChildren g).unwrapped? ids captions = (n.unwrapped? ids captions).map g := by
  cases n with
  | script id base sub sup =>
    rw [mapChildren_script, unwrapped?, unwrapped?]
    split <;> rfl
  | color id c body =>
    obtain _ | ⟨child, _ | ⟨next, rest⟩⟩ := body
    · rfl
    · show (if ids.contains id then some (g child) else none) = _
      rw [unwrapped?]
      split <;> rfl
    · rfl
  | box id _ body _ | brace id _ body | strike id body =>
    show (if ids.contains id then some (g body) else none) = _
    rw [unwrapped?]
    split <;> rfl
  | array => rw [mapChildren_array]; rfl
  | root => rw [mapChildren_root]; rfl
  | _ => rfl

theorem regroups_mapChildren (g : Node → Node) (n : Node) :
    (n.mapChildren g).regroups ids = n.regroups ids := by
  rw [regroups, regroups, kind_mapChildren, selectedIn, selectedIn, id?_mapChildren, children_mapChildren,
    List.length_map]

theorem exists_of_regroups (h : n.regroups ids) :
    ∃ id c body, n = color id c body ∧ id ∈ ids ∧ body.length ≠ 1 := by
  obtain ⟨hkind, hsel, hlength⟩ := regroups_iff.mp h
  cases n with
  | color id c body => exact ⟨id, c, body, rfl, by simpa [selectedIn, id?] using hsel, hlength⟩
  | _ => cases hkind

/-- A named carrier over one node is unwrapped. -/
theorem exists_unwrapped?_of_isStyle (hstyle : n.isStyle) (hsel : n.selectedIn ids)
    (hregroups : ¬ n.regroups ids) :
    ∃ c, n.children = c :: n.captions ∧ n.unwrapped? ids captions = some c := by
  cases n with
  | color id c body =>
    have hlength : body.length = 1 := by
      by_contra hlength
      exact hregroups (regroups_iff.mpr ⟨rfl, hsel, hlength⟩)
    obtain ⟨child, rfl⟩ := List.length_eq_one_iff.mp hlength
    exact ⟨child, rfl, if_pos (by simpa [selectedIn, id?] using hsel)⟩
  | box | brace | strike => exact ⟨_, rfl, if_pos (by simpa [selectedIn, id?] using hsel)⟩
  | _ => cases hstyle

/-- What unwrapping leaves in the place of a node: a group of what was in a color, or what was in
another carrier. -/
def unwrappedWith (ids captions new : List String) (b : Node) : Node :=
  if b.regroups ids then .group (new.headD "") b.children else (b.unwrapped? ids captions).getD b

theorem ids_unwrappedWith (h : new.length = if b.regroups ids then 1 else 0) :
    (b.unwrappedWith ids captions new).ids.Subperm (new ++ b.ids) := by
  unfold unwrappedWith
  split
  next hregroups =>
    rw [if_pos hregroups] at h
    obtain ⟨id, rfl⟩ := List.length_eq_one_iff.mp h
    rw [ids_eq, List.singleton_append, ids_eq b]
    exact ((List.sublist_append_right _ _).cons_cons id).subperm
  next =>
    refine List.Sublist.subperm (List.Sublist.trans ?_ (List.sublist_append_right _ _))
    cases hx : b.unwrapped? ids captions with
    | none => exact .refl _
    | some x => exact sublist_ids (mem_preorder_of_child (unwrapped?_mem_children hx) x.self_mem_preorder)

end Node

/-- What unwrapping makes of a node with the ids that are drawn for it. -/
def unwrapping (ids captions : List String) : Maker where
  count b := if b.regroups ids then 1 else 0
  make := Node.unwrappedWith ids captions
  count_of_id? b h := by
    refine if_neg fun hregroups => ?_
    obtain ⟨id, c, body, rfl, -⟩ := Node.exists_of_regroups hregroups
    cases h
  ids_make _ _ := Node.ids_unwrappedWith

theorem follows_unwrapTarget (ids captions : List String) :
    Follows (unwrapTarget ids captions) (unwrapping ids captions) := by
  intro b p m hm
  by_cases hregroups : b.regroups ids
  · obtain ⟨id, c, body, rfl, hid, hlength⟩ := Node.exists_of_regroups hregroups
    have hvisit : unwrapTarget ids captions (.color id c body) =
        (do pure (some (.group (← mint) body))) := by
      obtain _ | ⟨child, _ | ⟨next, rest⟩⟩ := body
      · exact if_pos (by simpa using hid)
      · exact absurd rfl hlength
      · exact if_pos (by simpa using hid)
    rw [hvisit]
    refine (Minting.ensures_mint hm).bind fun new m' _ hm' hdraws => ?_
    refine Minting.ensures_pure hm' ⟨[new], hdraws, (if_pos hregroups).symm, ?_⟩
    exact (if_pos hregroups).symm
  · rw [unwrapTarget_eq hregroups]
    refine Minting.ensures_pure hm ⟨[], .refl m, (if_neg hregroups).symm, ?_⟩
    exact (if_neg hregroups).symm

end FormulaDoc
