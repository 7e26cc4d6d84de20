import FormulaDoc.Proofs.Consolidation
import FormulaDoc.Proofs.Stability

namespace FormulaDoc

namespace Node

variable {m n : Node} {ids : List String}

theorem mem_outer_of_dissolve (hm : m ∈ (n.dissolve ids).flatMap outer) : m ∈ n.outer := by
  unfold dissolve at hm
  split at hm
  next hgroup =>
    obtain ⟨c, hc, hm⟩ := List.mem_flatMap.mp hm
    exact mem_outer_of_child (by rw [hgroup.1]; decide) hc hm
  next => simpa using hm

/-- A node is still there after groups were taken out, if it is none of them. -/
theorem splice_mem_outer (hm : m ∈ n.outer) (hsel : ¬ m.selectedIn ids) :
    m.splice ids ∈ ((n.splice ids).dissolve ids).flatMap outer := by
  induction n using childrenInduction with
  | step n ih =>
    rcases mem_outer_iff.mp hm with rfl | ⟨hk, c, hc, hm⟩
    · rw [dissolve_of_not_selectedIn (by rwa [selectedIn_splice]), List.flatMap_singleton]
      exact self_mem_outer _
    · have hbelow := ih c hc hm
      have hchildren : m.splice ids ∈ (n.splice ids).children.flatMap outer := by
        by_cases hseq : n.sequence?.isSome
        · rw [children_splice_of_sequence hseq, spliceAll, List.flatMap_assoc]
          exact List.mem_flatMap.mpr ⟨c, hc, hbelow⟩
        · rw [splice_of_not_sequence hseq, children_mapChildren, List.flatMap_map]
          exact List.mem_flatMap.mpr ⟨c, hc, mem_outer_of_dissolve hbelow⟩
      unfold dissolve
      split
      next => exact hchildren
      next =>
        rw [List.flatMap_singleton, outer_eq, kind_splice, if_neg hk]
        exact List.mem_cons_of_mem _ hchildren

theorem shape_splice (ids : List String) (n : Node) : (n.splice ids).shape = n.shape := by
  by_cases hseq : n.sequence?.isSome
  · rw [splice_of_sequence hseq]
    cases n <;> first | rfl | cases hseq
  · rw [splice_of_not_sequence hseq, shape_mapChildren]

theorem sequence?_of_arguments {stop : Stop} (h : (stop, m) ∈ n.arguments) : n.sequence? = none := by
  cases n with
  | group | color | aligned => cases h
  | _ => rfl

end Node

namespace Formula

variable {f c : Formula} {new : List String} {y ch : Node} {stop : Stop}

namespace Regroups

variable (h : f.Regroups c new)

include h

theorem not_mem_ids {id : String} (hid : id ∈ new) : id ∉ f.ids := by
  have hnodup : (new ++ f.ids).Nodup := h.ids.nodup_iff.mp c.nodup
  exact (List.nodup_append'.mp hnodup).2.2 hid

theorem splice_mem_outer (hy : y ∈ c.children.flatMap Node.outer) (hsel : ¬ y.selectedIn new) :
    y.splice new ∈ f.children.flatMap Node.outer := by
  rw [← h.splice, spliceAll, List.flatMap_assoc]
  obtain ⟨n, hn, hy⟩ := List.mem_flatMap.mp hy
  exact List.mem_flatMap.mpr ⟨n, hn, Node.splice_mem_outer hy hsel⟩

theorem eq_group (hy : y ∈ c.nodes) (hsel : y.selectedIn new) : ∃ id body, y = .group id body := by
  obtain ⟨id, hid, hyid⟩ := Node.selectedIn_iff.mp hsel
  obtain ⟨body, hbody, -⟩ := h.groups id hid
  exact ⟨id, body, eq_of_mem_nodes hy hbody hyid rfl⟩

/-- What stands in a slot is spelled and fits there as it did before the runs were grouped. -/
theorem fits_splice (hf : f.Canonical) (hy : y ∈ c.children.flatMap Node.outer)
    (hch : (stop, ch) ∈ y.arguments) : (ch.splice new).Spelled [] ∧ (ch.splice new).Fits stop := by
  have hseq : ¬ y.sequence?.isSome := by simp [Node.sequence?_of_arguments hch]
  have hk : y.kind ≠ .text := Node.kind_ne_text_of_isBranch (Node.isBranch_of_arguments hch)
  have hsel : ¬ y.selectedIn new := fun hsel => by
    obtain ⟨id, body, rfl⟩ := h.eq_group (mem_nodes_of_outer hy) hsel
    exact hseq rfl
  have hmem := h.splice_mem_outer hy hsel
  have hargument : (stop, ch.splice new) ∈ (y.splice new).arguments := by
    rw [Node.splice_of_not_sequence hseq, Node.arguments_mapChildren]
    exact List.mem_map.mpr ⟨(stop, ch), hch, rfl⟩
  refine ⟨fun m hm => (hf m ?_).spelled, (hf _ hmem).slots stop _ hargument⟩
  refine Node.mem_flatMap_outer_trans hmem ?_
  exact Node.mem_outer_of_child (by rwa [Node.kind_splice]) (Node.mem_children_of_arguments hargument) hm

end Regroups

end Formula

end FormulaDoc
