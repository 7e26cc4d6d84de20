import FormulaDoc.Proofs.Occurrences
import Mathlib.Data.List.Infix

namespace FormulaDoc

section
variable {α : Type} {le : α → α → Bool} {l : List α} {R : α → α → Prop} {a b : α}
  (htrans : ∀ a b c, le a b → le b c → le a c) (htotal : ∀ a b, le a b || le b a)
include htrans htotal

/-- Sorting keeps the order of the elements that tie. -/
theorem filter_mergeSort_of_ties {p : α → Bool} (hp : ∀ a b, p a → p b → le a b) :
    (l.mergeSort le).filter p = l.filter p := by
  have hties : (l.filter p).Pairwise fun a b => le a b := by
    refine List.pairwise_of_forall_mem_list fun a ha b hb => ?_
    exact hp a b (List.mem_filter.mp ha).2 (List.mem_filter.mp hb).2
  have hsub := (List.sublist_mergeSort htrans htotal hties List.filter_sublist).filter p
  have hlength : ((l.mergeSort le).filter p).length = (l.filter p).length :=
    ((List.mergeSort_perm l le).filter p).length_eq
  rw [List.filter_filter] at hsub
  simp only [Bool.and_self] at hsub
  exact (hsub.eq_of_length hlength.symm).symm

theorem sublist_of_sublist_mergeSort (h : [a, b].Sublist (l.mergeSort le)) (hba : le b a) :
    [a, b].Sublist l := by
  have hab : le a b := List.pairwise_iff_forall_sublist.mp (List.pairwise_mergeSort htrans htotal l) h
  have haa : le a a := htrans a b a hab hba
  have hties : ∀ x y, (le x a && le a x) → (le y a && le a y) → le x y := fun x y hx hy => by
    simp only [Bool.and_eq_true] at hx hy
    exact htrans x a y hx.1 hy.2
  have hpair := h.filter fun x => le x a && le a x
  rw [filter_mergeSort_of_ties htrans htotal hties] at hpair
  simp only [List.filter_cons, hab, hba, haa, Bool.and_self, if_true, List.filter_nil] at hpair
  exact hpair.trans List.filter_sublist

theorem pairwise_mergeSort_of_pairwise (h : l.Pairwise R) :
    (l.mergeSort le).Pairwise fun a b => le a b ∧ (le b a → R a b) := by
  refine List.pairwise_iff_forall_sublist.mpr fun {a b} hab => ⟨?_, fun hba => ?_⟩
  · exact List.pairwise_iff_forall_sublist.mp (List.pairwise_mergeSort htrans htotal l) hab
  · exact List.pairwise_iff_forall_sublist.mp h (sublist_of_sublist_mergeSort htrans htotal hab hba)

/-- Sorting can be done after elements are left out. -/
theorem filter_mergeSort (p : α → Bool) (l : List α) :
    (l.mergeSort le).filter p = (l.filter p).mergeSort le := by
  -- with their indices the elements of a sorted list are in an order that is strict
  let leFst (x y : α × Nat) : Bool := le x.1 y.1
  have hsort : ∀ ks : List (α × Nat), (ks.mergeSort leFst).map Prod.fst = (ks.map Prod.fst).mergeSort le :=
    fun ks => List.map_mergeSort fun _ _ _ _ => rfl
  have hindices : l.zipIdx.Pairwise fun x y => x.2 < y.2 := by
    rw [← List.pairwise_map, List.zipIdx_map_snd]
    exact List.pairwise_lt_range'
  have hstrict : ∀ {ks : List (α × Nat)}, ks.Pairwise (fun x y => x.2 < y.2) →
      (ks.mergeSort leFst).Pairwise fun x y => leFst x y ∧ (leFst y x → x.2 < y.2) :=
    fun h => pairwise_mergeSort_of_pairwise (fun x y z => htrans x.1 y.1 z.1)
      (fun x y => htotal x.1 y.1) h
  have hfilter : (l.zipIdx.mergeSort leFst).filter (p ∘ Prod.fst) =
      (l.zipIdx.filter (p ∘ Prod.fst)).mergeSort leFst := by
    refine List.Perm.eq_of_pairwise (fun x y _ _ hxy hyx => ?_) ((hstrict hindices).filter _)
      (hstrict (hindices.filter _)) ?_
    · exact absurd (hxy.2 hyx.1) (Nat.lt_asymm (hyx.2 hxy.1))
    · exact ((List.mergeSort_perm _ _).filter _).trans (List.mergeSort_perm _ _).symm
  have hmap := congrArg (List.map Prod.fst) hfilter
  rwa [← List.filter_map, hsort, hsort, ← List.filter_map, List.zipIdx_map_fst] at hmap

end

/-- By the start, and of two with the same start the outer one first. -/
def Placed.precedes (p q : Placed) : Bool :=
  p.start < q.start || (p.start == q.start && p.depth ≤ q.depth)

theorem Placed.precedes_iff {p q : Placed} :
    p.precedes q ↔ p.start < q.start ∨ p.start = q.start ∧ p.depth ≤ q.depth := by
  simp [precedes]

theorem Placed.precedes_trans (p q r : Placed) (h : p.precedes q) (h' : q.precedes r) : p.precedes r := by
  rw [precedes_iff] at *
  omega

theorem Placed.precedes_total (p q : Placed) : p.precedes q || q.precedes p := by
  rw [Bool.or_eq_true, precedes_iff, precedes_iff]
  omega

namespace Range

/-- What it means that a listing shows the occurrences in a forest whose places satisfy a condition: each
stands in it once, with its place. -/
structure Lists (rs : List Range) (P : Placed → Prop) (os : List Occurrence) (ps : List Placed) : Prop where
  nodup : os.Nodup
  mem_iff : ∀ o, o ∈ os ↔ at? rs o.address = some o.range ∧ P (o.placed rs)
  places : ps = os.map (·.placed rs)

variable {rs : List Range} {p : Placed → Bool} {le : Placed → Placed → Bool}

/-- The depths that a listing shows are the numbers of ranges around. -/
theorem Lists.map_depth {P : Placed → Prop} {os : List Occurrence} {ps : List Placed}
    (h : Lists rs P os ps) :
    ps.map Placed.depth = (os.map Occurrence.address).map fun a => a.length - 1 := by
  rw [h.places, List.map_map, List.map_map]
  exact List.map_congr_left fun o _ => Nat.zero_add _

/-- A part of the collected ranges, in a sorted order, shows the occurrences that belong to it; those that
tie stand in the order of their addresses. -/
theorem exists_lists_mergeSort (htrans : ∀ x y z, le x y → le y z → le x z)
    (htotal : ∀ x y, le x y || le y x) (rs : List Range) (p : Placed → Bool) :
    ∃ os, Lists rs (p ·) os (((placedAll 0 0 rs).filter p).mergeSort le) ∧
      os.Pairwise fun o o' => le (o.placed rs) (o'.placed rs) ∧
        (le (o'.placed rs) (o.placed rs) → o.address < o'.address) := by
  let lePlaced (o o' : Occurrence) : Bool := le (o.placed rs) (o'.placed rs)
  have hcollected : (placedAll 0 0 rs).filter p =
      ((occurrences rs).filter fun o => p (o.placed rs)).map (·.placed rs) := by
    rw [← map_occurrences, List.filter_map]
    rfl
  have hpairwise := (pairwise_occurrences rs).filter fun o => p (o.placed rs)
  have hnodup := (nodup_occurrences rs).filter fun o => p (o.placed rs)
  refine ⟨((occurrences rs).filter fun o => p (o.placed rs)).mergeSort lePlaced,
    ⟨(List.mergeSort_perm _ _).nodup_iff.mpr hnodup, fun o => ?_, ?_⟩, ?_⟩
  · rw [List.mem_mergeSort, List.mem_filter, mem_occurrences]
  · rw [hcollected]
    exact (List.map_mergeSort (r := lePlaced) (f := (·.placed rs)) fun _ _ _ _ => rfl).symm
  · exact pairwise_mergeSort_of_pairwise (fun x y z => htrans _ _ _) (fun x y => htotal _ _) hpairwise

theorem flatten_eq (rs : List Range) : flatten rs = (placedAll 0 0 rs).mergeSort Placed.precedes :=
  rfl

theorem flattenStyled_eq (rs : List Range) :
    flattenStyled rs = ((placedAll 0 0 rs).filter (·.range.isStyled)).mergeSort Placed.precedes :=
  rfl

variable {o o' : Occurrence}

/-- What a listing by the start and the depth shows first is not inside of what it shows later. -/
theorem not_prefix_of_precedes (ho : at? rs o.address = some o.range)
    (ho' : at? rs o'.address = some o'.range)
    (h : (o.placed rs).precedes (o'.placed rs) ∧
      ((o'.placed rs).precedes (o.placed rs) → o.address < o'.address)) :
    ¬ o'.address <+: o.address := by
  intro habove
  by_cases heq : o'.address = o.address
  · have hback : (o'.placed rs).precedes (o.placed rs) := by
      rw [Placed.precedes_iff]
      simp [Occurrence.placed, Occurrence.placedFrom, heq]
    exact List.lt_irrefl o.address (heq ▸ h.2 hback)
  · have hwithin := placed_within_of_prefix ho' ho habove heq
    have hprecedes := Placed.precedes_iff.mp h.1
    omega

/-- Siblings that start together are listed in the order in which they stand. -/
theorem lt_of_precedes {parent : Address} {i j : Nat} (hi : o.address = parent ++ [i])
    (hj : o'.address = parent ++ [j]) (hstart : (o.placed rs).start = (o'.placed rs).start)
    (h : (o'.placed rs).precedes (o.placed rs) → o.address < o'.address) : i < j := by
  have hdepth : (o'.placed rs).depth = (o.placed rs).depth := by
    simp [Occurrence.placed, Occurrence.placedFrom, hi, hj]
  have hlt := h (Placed.precedes_iff.mpr (.inr ⟨hstart.symm, hdepth.le⟩))
  rw [hi, hj] at hlt
  clear hi hj hstart hdepth h
  induction parent with
  | nil => simpa [List.cons_lt_cons_iff] using hlt
  | cons k parent ih => exact ih (by simpa [List.cons_lt_cons_iff] using hlt)

/-- The sorted listing of a forest shows every occurrence once, with the number of ranges around it and the
span that cuts its text out of that of the forest. It follows the text: starts do not decrease, a range
comes after all ranges around it, and siblings that start together keep their order. The styled ranges
are listed as they stand in it. -/
theorem flatten_listing (rs : List Range) : ∃ order : List Occurrence,
    Lists rs (fun _ => True) order (flatten rs) ∧
    (∀ p ∈ flatten rs, Span.slice ⟨p.start, p.stop⟩ (textAll rs) = p.range.text) ∧
    (flatten rs).Pairwise (fun p q => p.start ≤ q.start) ∧
    order.Pairwise (fun o o' => ¬ o'.address <+: o.address) ∧
    order.Pairwise (fun o o' => ∀ parent i j, o.address = parent ++ [i] → o'.address = parent ++ [j] →
      (o.placed rs).start = (o'.placed rs).start → i < j) ∧
    flattenStyled rs = (flatten rs).filter (·.range.isStyled) := by
  obtain ⟨order, horder, hsorted⟩ := exists_lists_mergeSort Placed.precedes_trans Placed.precedes_total rs
    fun _ => true
  rw [List.filter_true, ← flatten_eq] at horder
  have hlists : Lists rs (fun _ => True) order (flatten rs) :=
    ⟨horder.nodup, by simpa using horder.mem_iff, horder.places⟩
  refine ⟨order, hlists, ?_, ?_, ?_, ?_, ?_⟩
  · intro p hp
    rw [flatten_eq] at hp
    exact slice_of_mem_placedAll (List.mem_mergeSort.mp hp)
  · have hprecedes := List.pairwise_mergeSort Placed.precedes_trans Placed.precedes_total (placedAll 0 0 rs)
    refine hprecedes.imp fun h => ?_
    rw [Placed.precedes_iff] at h
    omega
  · refine hsorted.imp_of_mem fun {o o'} ho ho' h => ?_
    have hat := ((horder.mem_iff o).mp ho).1
    have hat' := ((horder.mem_iff o').mp ho').1
    exact not_prefix_of_precedes hat hat' h
  · refine hsorted.imp fun h parent i j hi hj hstart => ?_
    exact lt_of_precedes hi hj hstart h.2
  · rw [flattenStyled_eq, flatten_eq, filter_mergeSort Placed.precedes_trans Placed.precedes_total]

/-- Ranges without a text start together with what follows them, at several depths. -/
example : (flatten [plain "", styled "a" "" [plain "", plain "x"] "" none, plain ""]).map
    (fun p => (p.start, p.stop, p.depth)) =
      [(0, 0, 0), (0, 1, 0), (0, 0, 1), (0, 1, 1), (1, 1, 0)] := by
  cbv

end Range

end FormulaDoc
