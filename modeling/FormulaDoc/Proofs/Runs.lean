import FormulaDoc.Consolidate
import FormulaDoc.Proofs.Splicing

namespace FormulaDoc

theorem not_mem_before {before after : List Node} {n : Node} {id : String}
    (h : (forestIds (before ++ after)).Nodup) (hn : n ∈ after) (hid : n.id? = some id) :
    some id ∉ before.map Node.id? := by
  intro hmem
  obtain ⟨m, hm, hmid⟩ := List.mem_map.mp hmem
  rw [forestIds_append, List.nodup_append'] at h
  exact h.2.2 (mem_forestIds hm hmid) (mem_forestIds hn hid)

namespace Formula

variable {f : Formula} {parent : Option Node} {items : List Node} {run : List String}

/-- The sequence at the top, or the one that a node holds. -/
def siblings? (f : Formula) : Option Node → Option (List Node)
  | none => some f.children
  | some p => p.sequence?

/-- The sequences of a formula: the one at the top, and those that nodes of it hold. -/
def Holds (f : Formula) (parent : Option Node) (items : List Node) : Prop :=
  (∀ p ∈ parent, p ∈ f.nodes) ∧ f.siblings? parent = some items

/-- A run of adjacent siblings in one sequence of a formula. -/
def Contiguous (f : Formula) (run : List String) : Prop :=
  ∃ parent items, f.Holds parent items ∧ run.map some <:+: items.map Node.id?

theorem Holds.mem_nodes {n : Node} (h : f.Holds parent items) (hn : n ∈ items) : n ∈ f.nodes := by
  cases parent with
  | none =>
    cases Option.some.inj h.2
    exact mem_nodes_of_top hn
  | some p => exact mem_nodes_of_child (h.1 p rfl) (Node.children_of_sequence h.2 ▸ hn)

theorem Holds.nodup (h : f.Holds parent items) : (forestIds items).Nodup := by
  cases parent with
  | none =>
    cases Option.some.inj h.2
    exact f.nodup
  | some p =>
    have hp := nodup_ids (h.1 p rfl)
    rw [p.ids_eq, Node.children_of_sequence h.2, ← forestIds_eq] at hp
    exact hp.sublist (List.sublist_append_right _ _)

theorem Holds.parent?_eq {n : Node} {id : String} (h : f.Holds parent items) (hn : n ∈ items)
    (hid : n.id? = some id) : f.parent? id = parent := by
  cases parent with
  | none =>
    cases Option.some.inj h.2
    exact parent?_of_top hn hid
  | some p => exact parent?_of_child (h.1 p rfl) (Node.children_of_sequence h.2 ▸ hn) hid

theorem locate?_cons (f : Formula) (first : String) (rest : List String) :
    f.locate? (first :: rest) = (f.entry? first).bind fun _ =>
      (f.siblings? (f.parent? first)).bind fun siblings =>
        let ids := siblings.map Node.id?
        let start := ids.idxOf (some first)
        if (ids.drop start).take (first :: rest).length = (first :: rest).map some then
          some ⟨f.parent? first, siblings, start⟩
        else none := by
  refine congrArg (f.entry? first).bind (funext fun _ => ?_)
  simp only
  cases f.parent? first <;> rfl

/-- A run that is found cuts its sequence into the siblings before it, itself and those after it. -/
theorem exists_of_locate? {r : Run} (h : f.locate? run = some r) : ∃ before body after,
    f.Holds r.parent (before ++ body ++ after) ∧ run ≠ [] ∧ body.map Node.id? = run.map some ∧
      ∀ id, r.grouped run.length id = before ++ .group id body :: after := by
  cases run with
  | nil => cases h
  | cons first rest =>
    rw [locate?_cons] at h
    obtain ⟨e, -, h⟩ := Option.bind_eq_some_iff.mp h
    obtain ⟨siblings, hsiblings, h⟩ := Option.bind_eq_some_iff.mp h
    obtain ⟨hrun, h⟩ := Option.ite_none_right_eq_some.mp h
    cases Option.some.inj h
    generalize (siblings.map Node.id?).idxOf (some first) = start at hrun
    have hcut : siblings.take start ++ (siblings.drop start).take (first :: rest).length ++
        siblings.drop (start + (first :: rest).length) = siblings := by
      rw [List.append_assoc, ← List.drop_drop, List.take_append_drop, List.take_append_drop]
    refine ⟨_, _, _, ⟨fun p hp => mem_nodes_of_parent? hp, ?_⟩, by simp, ?_, fun id => rfl⟩
    · rw [hcut]
      exact hsiblings
    · rw [← hrun, List.map_take, List.map_drop]

theorem contiguous_of_locate? {r : Run} (h : f.locate? run = some r) : f.Contiguous run := by
  obtain ⟨before, body, after, hholds, -, hrun, -⟩ := exists_of_locate? h
  refine ⟨_, _, hholds, before.map Node.id?, after.map Node.id?, ?_⟩
  rw [← hrun, List.map_append, List.map_append]

/-- Adjacent siblings are found: the id of the first of them stands nowhere before it. -/
theorem isSome_locate?_of_contiguous (hrun : run ≠ []) (h : f.Contiguous run) :
    (f.locate? run).isSome := by
  obtain ⟨first, rest, rfl⟩ := List.exists_cons_of_ne_nil hrun
  obtain ⟨parent, items, hholds, before, after, hitems⟩ := h
  obtain ⟨firsts, afters, rfl, hfirsts, hafters⟩ := List.map_eq_append_iff.mp hitems.symm
  obtain ⟨befores, body, rfl, hbefores, hbody⟩ := List.map_eq_append_iff.mp hfirsts
  obtain ⟨n, others, rfl, hid, -⟩ := List.map_eq_cons_iff.mp hbody
  have hn : n ∈ n :: others ++ afters := by simp
  have hmem : n ∈ befores ++ n :: others ++ afters := by simp
  have hfound : first ∈ f.ids := mem_ids_iff.mpr ⟨n, hholds.mem_nodes hmem, hid⟩
  obtain ⟨e, he⟩ := Option.isSome_iff_exists.mp (contains_iff.mpr hfound)
  have hnot : some first ∉ before := by
    have hnodup := hholds.nodup
    rw [List.append_assoc] at hnodup
    exact hbefores ▸ not_mem_before hnodup hn hid
  have hstart : (before ++ (first :: rest).map some ++ after).idxOf (some first) = before.length := by
    rw [List.append_assoc, List.idxOf_append_of_notMem hnot]
    simp
  rw [locate?_cons, he, hholds.parent?_eq hmem hid, Option.bind_some, hholds.2, Option.bind_some]
  simp only [← hitems, hstart]
  rw [if_pos]
  · rfl
  · rw [List.append_assoc, List.drop_left]
    exact List.take_left' (List.length_map _)

theorem locate?_eq_none_iff : f.locate? run = none ↔ run = [] ∨ ¬ f.Contiguous run := by
  constructor
  · intro h
    by_cases hrun : run = []
    · exact .inl hrun
    · refine .inr fun hcontiguous => ?_
      have hsome := isSome_locate?_of_contiguous hrun hcontiguous
      rw [h] at hsome
      cases hsome
  · rintro (rfl | h)
    · rfl
    · cases hr : f.locate? run with
      | none => rfl
      | some r => exact absurd (contiguous_of_locate? hr) h

end Formula

end FormulaDoc
