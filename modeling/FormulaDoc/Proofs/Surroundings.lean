import FormulaDoc.Proofs.CaretTracking
import FormulaDoc.Proofs.Listing
import Mathlib.Data.List.Chain
import Mathlib.Data.List.Infix

namespace FormulaDoc

/-- An occurrence and the occurrence of one of its children. -/
def Occurrence.ParentOf (o c : Occurrence) : Prop :=
  ∃ i, c.address = o.address ++ [i] ∧ o.range.children[i]? = some c.range

theorem isChain_inits (a : Address) : a.inits.IsChain fun p c => ∃ i, c = p ++ [i] := by
  induction a with
  | nil => exact .singleton []
  | cons i a ih =>
    rw [List.inits_cons, List.isChain_cons, List.isChain_map]
    constructor
    · intro c hc
      cases a <;> cases hc <;> exact ⟨i, rfl⟩
    · exact ih.imp fun p c ⟨j, hj⟩ => ⟨j, by rw [hj, List.cons_append]⟩

theorem map_length_inits (a : Address) : a.inits.map List.length = List.range (a.length + 1) := by
  induction a with
  | nil => rfl
  | cons i a ih =>
    rw [List.inits_cons, List.map_cons, List.map_map, List.length_cons, List.range_succ_eq_map, ← ih,
      List.map_map]
    rfl

/-- The depths at which the addresses above an address stand. -/
theorem map_depth_tail_inits (a : Address) :
    a.inits.tail.map (fun b => b.length - 1) = List.range a.length := by
  have hlengths := congrArg (fun ls => ls.tail.map (· - 1)) (map_length_inits a)
  rw [List.range_succ_eq_map, List.tail_cons, List.map_map, ← List.map_tail, List.map_map] at hlengths
  exact hlengths.trans (List.map_id _)

theorem pairwise_length_inits (a : Address) : a.inits.Pairwise fun b c => b.length ≤ c.length := by
  rw [← List.pairwise_map (f := List.length), map_length_inits]
  exact List.pairwise_lt_range.imp Nat.le_of_lt

/-- The addresses from one address up to the top, in any order in which none is longer than one before. -/
theorem eq_reverse_tail_inits {as : List Address} {a : Address} (hperm : as.Perm a.inits.tail)
    (hsorted : as.Pairwise fun b c => c.length ≤ b.length) : as = a.inits.tail.reverse := by
  have habove : ∀ b ∈ a.inits.tail, b <+: a := fun b hb =>
    (List.mem_inits b a).mp (List.mem_of_mem_tail hb)
  have hreverse : a.inits.tail.reverse.Pairwise fun b c => c.length ≤ b.length :=
    List.pairwise_reverse.mpr (pairwise_length_inits a).tail
  refine List.Perm.eq_of_pairwise (fun b c hb hc hbc hcb => ?_) hsorted hreverse
    (hperm.trans (List.reverse_perm _).symm)
  have hb := habove b (hperm.mem_iff.mp hb)
  have hc := habove c (List.mem_reverse.mp hc)
  exact (List.prefix_of_prefix_length_le hb hc hcb).eq_of_length (Nat.le_antisymm hcb hbc)

theorem tail_inits_modifyHead (a : Address) :
    (a.modifyHead (· + 1)).inits.tail = a.inits.tail.map (List.modifyHead (· + 1)) := by
  cases a with
  | nil => rfl
  | cons i a =>
    rw [List.modifyHead_cons, List.inits_cons, List.inits_cons, List.tail_cons, List.tail_cons,
      List.map_map]
    rfl

theorem Placed.holds_closed {p : Placed} {x : Int} : p.holds true x ↔ p.start ≤ x ∧ x ≤ p.stop := by
  simp [holds]

theorem Placed.holds_open {p : Placed} {x : Int} : p.holds false x ↔ p.start < x ∧ x < p.stop := by
  simp [holds]

namespace Range

variable {rs : List Range} {r : Range} {o o' : Occurrence} {x : Int} {s d : Nat}

theorem holds_placedFrom (ho : o ∈ occurrences rs) (hx : (o.placedFrom s d rs).holds false x) :
    s < x ∧ x < s + lengthAll rs := by
  have hmem : o.placedFrom s d rs ∈ placedAll s d rs := by
    rw [← map_occurrences]
    exact List.mem_map_of_mem ho
  have hbounds := bounds_of_mem_placedAll hmem
  rw [Placed.holds_open] at hx
  omega

theorem length_children_le (r : Range) : r.opening.length + lengthAll r.children ≤ r.length := by
  cases r with
  | plain => exact Nat.zero_le _
  | styled => exact Nat.le_add_right _ _

/-- The occurrences that hold a position strictly inside, in a forest that begins at an offset. -/
def insideFrom (s d : Nat) (x : Int) (rs : List Range) : List Occurrence :=
  (occurrences rs).filter fun o => (o.placedFrom s d rs).holds false x

theorem insideFrom_eq_nil (h : ¬ (s < x ∧ x < s + lengthAll rs)) : insideFrom s d x rs = [] := by
  rw [insideFrom, List.filter_eq_nil_iff]
  intro o ho hx
  exact h (holds_placedFrom ho hx)

theorem insideFrom_cons (s d : Nat) (x : Int) (r : Range) (rs : List Range) :
    insideFrom s d x (r :: rs) =
      (if s < x ∧ x < s + r.length then [⟨[0], r⟩] else []) ++
        ((insideFrom (s + r.opening.length) (d + 1) x r.children).map Occurrence.under ++
          (insideFrom (s + r.length) d x rs).map Occurrence.behind) := by
  have hunder : (occurrences r.children).filter
      ((fun o => (o.placedFrom s d (r :: rs)).holds false x) ∘ Occurrence.under) =
        insideFrom (s + r.opening.length) (d + 1) x r.children :=
    List.filter_congr fun o ho => by rw [Function.comp_apply, placedFrom_under ho]
  have hbehind : (occurrences rs).filter
      ((fun o => (o.placedFrom s d (r :: rs)).holds false x) ∘ Occurrence.behind) =
        insideFrom (s + r.length) d x rs :=
    List.filter_congr fun o ho => by rw [Function.comp_apply, placedFrom_behind ho]
  rw [insideFrom, occurrences_cons, List.filter_cons, List.filter_append, List.filter_map, List.filter_map,
    hunder, hbehind, placedFrom_first]
  by_cases hin : s < x ∧ x < s + r.length
  · rw [if_pos hin, if_pos (Placed.holds_open.mpr hin)]
    rfl
  · rw [if_neg hin, if_neg (mt Placed.holds_open.mp hin)]
    rfl

/-- The ranges that hold a position strictly inside stand at one address and at all that are above it. -/
theorem exists_address_of_inside (s d : Nat) (x : Int) (rs : List Range) :
    ∃ a : Address, (insideFrom s d x rs).map Occurrence.address = a.inits.tail := by
  induction rs using forest_induct generalizing s d with
  | nil => exact ⟨[], rfl⟩
  | cons r rs ihr ih =>
    have hinner := length_children_le r
    rw [insideFrom_cons, List.map_append, List.map_append, List.map_map, List.map_map]
    by_cases hin : s < x ∧ x < s + r.length
    · -- what is behind the range begins where it ends
      obtain ⟨b, hb⟩ := ihr (s + r.opening.length) (d + 1)
      refine ⟨0 :: b, ?_⟩
      have htail : b.inits.map (0 :: ·) =
          [0] :: ((insideFrom (s + r.opening.length) (d + 1) x r.children).map Occurrence.address).map
            (0 :: ·) := by
        rw [hb]
        cases b <;> rfl
      have hbehind : insideFrom (s + r.length) d x rs = [] := insideFrom_eq_nil (by omega)
      rw [if_pos hin, hbehind, List.inits_cons, List.tail_cons, htail, List.map_nil, List.append_nil,
        List.map_map]
      rfl
    · obtain ⟨a, ha⟩ := ih (s + r.length) d
      refine ⟨a.modifyHead (· + 1), ?_⟩
      have hunder : insideFrom (s + r.opening.length) (d + 1) x r.children = [] :=
        insideFrom_eq_nil (by omega)
      rw [if_neg hin, hunder, tail_inits_modifyHead, ← ha, List.map_map]
      rfl

/-- Nothing holds a position outside of the forest, so leaving the search out there changes nothing. -/
theorem around_eq (rs : List Range) (edges : Bool) (x : Int) : around rs edges x =
    ((placedAll 0 0 rs).filter (·.holds edges x)).mergeSort fun p q => q.depth ≤ p.depth := by
  have hmem : ∀ p, p ∈ around rs edges x ↔ p ∈ (placedAll 0 0 rs).filter (·.holds edges x) := by
    intro p
    rw [mem_around, List.mem_filter]
  unfold around at hmem ⊢
  split at hmem
  next hout =>
    have hnone : (placedAll 0 0 rs).filter (·.holds edges x) = [] := by
      refine List.eq_nil_iff_forall_not_mem.mpr fun p hp => ?_
      exact List.not_mem_nil ((hmem p).mpr hp)
    rw [if_pos hout, hnone, List.mergeSort_nil]
  next hin => rw [if_neg hin]

/-- The listing of the ranges around a position shows the occurrences that hold it, the innermost first. -/
theorem exists_lists_around (rs : List Range) (edges : Bool) (x : Int) : ∃ os : List Occurrence,
    Lists rs (·.holds edges x) os (around rs edges x) ∧
      os.Pairwise fun o o' => (o'.placed rs).depth ≤ (o.placed rs).depth := by
  let deeper (p q : Placed) : Bool := q.depth ≤ p.depth
  have htrans : ∀ p q r, deeper p q → deeper q r → deeper p r := by
    intro p q r hpq hqr
    simp only [deeper, decide_eq_true_eq] at *
    omega
  have htotal : ∀ p q, deeper p q || deeper q p := by
    intro p q
    simp only [deeper, Bool.or_eq_true, decide_eq_true_eq]
    omega
  obtain ⟨os, hlists, hsorted⟩ := exists_lists_mergeSort htrans htotal rs (·.holds edges x)
  rw [← around_eq] at hlists
  exact ⟨os, hlists, hsorted.imp fun h => of_decide_eq_true h.1⟩

/-- What is around a range holds the positions that the range holds or touches. -/
theorem holds_of_above (ho : at? rs o.address = some o.range) (ho' : at? rs o'.address = some o'.range)
    (h : o.address <+: o'.address) (hx : (o'.placed rs).holds true x) : (o.placed rs).holds true x := by
  by_cases heq : o.address = o'.address
  · rwa [eq_of_address ho ho' heq]
  · obtain ⟨hstart, hstop, -⟩ := placed_within_of_prefix ho ho' h heq
    rw [Placed.holds_closed] at hx ⊢
    omega

theorem parentOf_of_address {c : Occurrence} {i : Nat} (ho : at? rs o.address = some o.range)
    (hc : at? rs c.address = some c.range) (h : c.address = o.address ++ [i]) : o.ParentOf c := by
  refine ⟨i, h, ?_⟩
  rwa [h, at?_append (ne_nil_of_at? ho).1 (by simp), ho, Option.bind_some, at?_singleton] at hc

variable {os : List Occurrence}

/-- A listing of the ranges that hold a position strictly inside, the innermost first, goes from one address
up to the top. -/
theorem exists_map_address_eq {ps : List Placed} (h : Lists rs (·.holds false x) os ps)
    (hsorted : os.Pairwise fun o o' => (o'.placed rs).depth ≤ (o.placed rs).depth) :
    ∃ a : Address, os.map Occurrence.address = a.inits.tail.reverse := by
  obtain ⟨a, ha⟩ := exists_address_of_inside 0 0 x rs
  have hmem : ∀ o ∈ os, at? rs o.address = some o.range := fun o ho => ((h.mem_iff o).mp ho).1
  have hperm : os.Perm (insideFrom 0 0 x rs) := by
    refine (List.perm_ext_iff_of_nodup h.nodup ((nodup_occurrences rs).filter _)).mpr fun o => ?_
    rw [h.mem_iff, List.mem_filter, mem_occurrences]
    rfl
  have haddress : (os.map Occurrence.address).Perm a.inits.tail := ha ▸ hperm.map _
  refine ⟨a, eq_reverse_tail_inits haddress ?_⟩
  rw [List.pairwise_map]
  refine hsorted.imp_of_mem fun {o o'} ho ho' hdepth => ?_
  have hpos := List.length_pos_iff.mpr (ne_nil_of_at? (hmem o ho)).1
  simp only [Occurrence.placed, Occurrence.placedFrom] at hdepth
  omega

/-- Around a position the ranges that hold it strictly inside form one chain: they are listed from the
innermost to the outermost, each the parent of the one before. Those that hold or touch it include these and,
with each of them, all ranges around it. Positions outside of the text need no case of their own. -/
theorem around_nesting (rs : List Range) (x : Int) :
    (∀ edges, around rs edges x =
      ((placedAll 0 0 rs).filter (·.holds edges x)).mergeSort fun p q => q.depth ≤ p.depth) ∧
    ∃ inside touching : List Occurrence,
      Lists rs (·.holds false x) inside (around rs false x) ∧
      (around rs false x).map Placed.depth = (List.range inside.length).reverse ∧
      inside.IsChain (fun o p => p.ParentOf o) ∧
      Lists rs (·.holds true x) touching (around rs true x) ∧
      inside ⊆ touching ∧
      (∀ o ∈ touching, ∀ p : Occurrence, at? rs p.address = some p.range → p.address <+: o.address →
        p ∈ touching) ∧
      (around rs true x).Pairwise (fun p q => q.depth ≤ p.depth) := by
  obtain ⟨inside, hinside, hsorted⟩ := exists_lists_around rs false x
  obtain ⟨touching, htouching, hsorted'⟩ := exists_lists_around rs true x
  obtain ⟨a, ha⟩ := exists_map_address_eq hinside hsorted
  refine ⟨fun edges => around_eq rs edges x, inside, touching, hinside, ?_, ?_, htouching, ?_, ?_, ?_⟩
  · have hlength : inside.length = a.length := by
      have hlengths := congrArg List.length ha
      simpa using hlengths
    rw [hinside.map_depth, ha, List.map_reverse, map_depth_tail_inits, hlength]
  · have hchain : (inside.map Occurrence.address).IsChain fun c p => ∃ i, c = p ++ [i] :=
      ha ▸ List.isChain_reverse.mpr (isChain_inits a).tail
    refine ((List.isChain_map _).mp hchain).imp_of_mem_imp fun c p hc hp hcp => ?_
    obtain ⟨i, hi⟩ := hcp
    have hatp := ((hinside.mem_iff p).mp hp).1
    have hatc := ((hinside.mem_iff c).mp hc).1
    exact parentOf_of_address hatp hatc hi
  · intro o ho
    obtain ⟨hat, hx⟩ := (hinside.mem_iff o).mp ho
    rw [Placed.holds_open] at hx
    have hclosed : (o.placed rs).holds true x := Placed.holds_closed.mpr (by omega)
    exact (htouching.mem_iff o).mpr ⟨hat, hclosed⟩
  · intro o ho p hp habove
    obtain ⟨hat, hx⟩ := (htouching.mem_iff o).mp ho
    have hheld : (p.placed rs).holds true x := holds_of_above hp hat habove hx
    exact (htouching.mem_iff p).mpr ⟨hp, hheld⟩
  · rw [htouching.places, List.pairwise_map]
    exact hsorted'

end Range

end FormulaDoc
