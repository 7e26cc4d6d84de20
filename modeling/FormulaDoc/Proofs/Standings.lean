import FormulaDoc.Proofs.Index

namespace FormulaDoc

/-- A node in its place: its id and kind, and the ids of the nodes above it, the outermost first. -/
structure Standing where
  id? : Option String
  kind : Kind
  above : List String

namespace Standing

/-- A node under another name, where nodes without a name are gone. What takes a new name is a group; a
node without an id stays. -/
def renamed (name : String → Option String) (st : Standing) : Option Standing :=
  match st.id? with
  | none => some ⟨none, st.kind, st.above.filterMap name⟩
  | some id => (name id).map fun new =>
      ⟨some new, if new = id then st.kind else .group, st.above.filterMap name⟩

/-- The ids of a list under their own names. -/
def namedIn (ids : List String) (id : String) : Option String :=
  if id ∈ ids then some id else none

/-- A node among those with the given ids. -/
def among (ids : List String) : Standing → Option Standing :=
  renamed (namedIn ids)

variable {name name' : String → Option String} {ids : List String} {st : Standing}

theorem renamed_congr (hid : ∀ id ∈ st.id?, name id = name' id)
    (habove : ∀ id ∈ st.above, name id = name' id) : st.renamed name = st.renamed name' := by
  unfold renamed
  rw [List.filterMap_congr habove]
  split
  next => rfl
  next id h => rw [hid id h]

/-- Of renamed nodes some are left. -/
theorem renamed_bind_among (st : Standing) (name : String → Option String) (ids : List String) :
    (st.renamed name).bind (among ids) = st.renamed fun id => (name id).bind (namedIn ids) := by
  obtain ⟨id?, kind, above⟩ := st
  cases id? with
  | none => simp [among, renamed, List.filterMap_filterMap]
  | some id =>
    cases hname : name id with
    | none => simp [renamed, hname]
    | some new => by_cases hnew : new ∈ ids <;> simp [among, renamed, namedIn, hname, hnew,
        List.filterMap_filterMap]

end Standing

def Entry.standing (e : Entry) : Standing :=
  ⟨e.node.id?, e.node.kind, e.ancestors.filterMap Node.id?⟩

/-- The nodes of a formula in their places, in document order. -/
def Formula.standings (f : Formula) : List Standing :=
  f.entries.map Entry.standing

namespace Node

/-- The nodes of a tree in their places below a path. -/
def standings (path : List String) (n : Node) : List Standing :=
  ⟨n.id?, n.kind, path⟩ :: n.children.attach.flatMap fun ⟨c, _⟩ => c.standings (path ++ n.id?.toList)
termination_by n.size
decreasing_by exact size_lt_of_mem ‹_›

theorem standings_eq (path : List String) (n : Node) :
    n.standings path = ⟨n.id?, n.kind, path⟩ ::
      n.children.flatMap (standings (path ++ n.id?.toList)) := by
  rw [standings]
  simp

theorem map_standing_entries (above : List Node) (n : Node) :
    (n.entries above).map Entry.standing = n.standings (above.filterMap id?) := by
  induction n using childrenInduction generalizing above with
  | step n ih =>
    have hpath : (above ++ [n]).filterMap id? = above.filterMap id? ++ n.id?.toList := by
      rw [List.filterMap_append]
      cases hid : n.id? <;> simp [hid]
    rw [entries_eq, standings_eq, List.map_cons, List.map_flatMap]
    congr 1
    refine List.flatMap_congr fun c hc => ?_
    rw [ih c hc, hpath]

theorem filterMap_id?_standings (path : List String) (n : Node) :
    (n.standings path).filterMap Standing.id? = n.ids := by
  induction n using childrenInduction generalizing path with
  | step n ih =>
    rw [standings_eq, ids_eq, List.filterMap_cons, List.filterMap_flatMap,
      List.flatMap_congr fun c hc => ih c hc _]
    cases n.id? <;> rfl

theorem above_of_mem_standings {path : List String} {n : Node} {st : Standing}
    (h : st ∈ n.standings path) : ∀ id ∈ st.above, id ∈ path ∨ id ∈ n.ids := by
  induction n using childrenInduction generalizing path with
  | step n ih =>
    rw [standings_eq] at h
    rw [ids_eq]
    intro id hid
    rcases List.mem_cons.mp h with rfl | h
    · exact .inl hid
    · obtain ⟨c, hc, h⟩ := List.mem_flatMap.mp h
      rcases ih c hc h id hid with hid | hid
      · rcases List.mem_append.mp hid with hid | hid
        · exact .inl hid
        · exact .inr (List.mem_append_left _ hid)
      · have hmem : id ∈ n.children.flatMap ids := List.mem_flatMap.mpr ⟨c, hc, hid⟩
        exact .inr (List.mem_append_right _ hmem)

end Node

namespace Formula

theorem standings_eq (f : Formula) : f.standings = f.children.flatMap (Node.standings []) := by
  rw [standings, entries, List.map_flatMap]
  exact List.flatMap_congr fun n _ => n.map_standing_entries []

theorem filterMap_id?_standings (f : Formula) : f.standings.filterMap Standing.id? = f.ids := by
  rw [standings_eq, List.filterMap_flatMap, ids, forestIds_eq]
  exact List.flatMap_congr fun n _ => n.filterMap_id?_standings []

variable {f : Formula} {st : Standing} {id : String}

theorem mem_ids_iff_standings : id ∈ f.ids ↔ ∃ st ∈ f.standings, st.id? = some id := by
  rw [← filterMap_id?_standings, List.mem_filterMap]

theorem mem_ids_of_standings (h : st ∈ f.standings) (hid : st.id? = some id) : id ∈ f.ids :=
  mem_ids_iff_standings.mpr ⟨st, h, hid⟩

theorem above_mem_ids (h : st ∈ f.standings) : ∀ id ∈ st.above, id ∈ f.ids := by
  rw [standings_eq] at h
  obtain ⟨n, hn, hst⟩ := List.mem_flatMap.mp h
  intro id hid
  rcases Node.above_of_mem_standings hst id hid with hid | hid
  · cases hid
  · rw [ids, forestIds_eq]
    exact List.mem_flatMap.mpr ⟨n, hn, hid⟩

end Formula

end FormulaDoc
