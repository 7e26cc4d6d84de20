import FormulaDoc.Proofs.Blank
import Mathlib.Data.List.Nodup
import Std.Data.String.ToNat

namespace FormulaDoc

/-- The dots in a name. -/
def dots (s : String) : Nat :=
  s.toList.count '.'

/-- An id that is the path or continues it at a dot. -/
def Under (path id : String) : Prop :=
  path.toList ++ ['.'] <+: id.toList ++ ['.']

theorem under_refl (path : String) : Under path path :=
  List.prefix_refl _

theorem toList_slot (path slot : String) :
    (path ++ "." ++ slot).toList ++ ['.'] = path.toList ++ ['.'] ++ (slot.toList ++ ['.']) := by
  simp

theorem Under.of_slot {path slot id : String} (h : Under (path ++ "." ++ slot) id) :
    Under path id := by
  unfold Under at h ⊢
  rw [toList_slot] at h
  exact (List.prefix_append _ _).trans h

theorem Under.ne_of_slot {path slot id : String} (h : Under (path ++ "." ++ slot) id) : id ≠ path := by
  rintro rfl
  unfold Under at h
  rw [toList_slot] at h
  have hle := h.length_le
  simp only [List.length_append, List.length_cons, List.length_nil] at hle
  omega

/-- Of two names with as many dots neither continues the other at a dot. -/
theorem eq_of_isPrefix {s t : String} (hdots : dots s = dots t)
    (h : s.toList ++ ['.'] <+: t.toList ++ ['.']) : s = t := by
  obtain ⟨u, hu⟩ := h
  have hcount := congrArg (List.count '.') hu
  simp only [List.count_append] at hcount
  unfold dots at hdots
  rcases List.eq_nil_or_concat u with rfl | ⟨v, c, rfl⟩
  · rw [List.append_nil] at hu
    exact String.toList_inj.mp (List.append_cancel_right hu)
  · rw [List.concat_eq_append, ← List.append_assoc] at hu
    rw [List.concat_eq_append, List.count_append, List.append_inj_right' hu rfl] at hcount
    simp only [List.count_singleton_self] at hcount
    omega

theorem eq_of_under {s t id : String} (hdots : dots s = dots t) (hs : Under s id) (ht : Under t id) :
    s = t := by
  rcases List.prefix_or_prefix_of_prefix hs ht with h | h
  · exact eq_of_isPrefix hdots h
  · exact (eq_of_isPrefix hdots.symm h).symm

theorem eq_of_under_slots {path s t id : String} (hdots : dots s = dots t)
    (hs : Under (path ++ "." ++ s) id) (ht : Under (path ++ "." ++ t) id) : s = t := by
  unfold Under at hs ht
  rw [toList_slot] at hs ht
  rcases List.prefix_or_prefix_of_prefix hs ht with h | h
  · exact eq_of_isPrefix hdots ((List.prefix_append_right_inj _).mp h)
  · exact (eq_of_isPrefix hdots.symm ((List.prefix_append_right_inj _).mp h)).symm

theorem dots_toString (n : Nat) : dots (toString n) = 0 := by
  rw [dots, List.count_eq_zero]
  intro h
  have hdigit : '.'.isDigit = true := by
    refine Nat.isDigit_of_mem_toDigits (b := 10) (n := n) (by decide) (by decide) ?_
    simpa [toString, Nat.repr_eq_ofList_toDigits] using h
  exact absurd hdigit (by decide)

theorem dots_cell (r c : Nat) : dots (toString r ++ "." ++ toString c) = 1 := by
  have hr := dots_toString r
  have hc := dots_toString c
  unfold dots at hr hc ⊢
  rw [String.toList_append, String.toList_append, List.count_append, List.count_append, hr, hc]
  rfl

theorem cell_injective {r c r' c' : Nat}
    (h : toString r ++ "." ++ toString c = toString r' ++ "." ++ toString c') : r = r' ∧ c = c' := by
  have hr : toString r = toString r' := by
    have hdots : dots (toString r) = dots (toString r') := by rw [dots_toString, dots_toString]
    refine eq_of_under hdots (under_refl (toString r ++ "." ++ toString c)).of_slot ?_
    rw [h]
    exact (under_refl _).of_slot
  rw [hr] at h
  have hc := congrArg String.toList h
  simp only [String.toList_append, List.append_cancel_left_eq, String.toList_inj] at hc
  exact ⟨Nat.repr_injective hr, Nat.repr_injective hc⟩

namespace Node

theorem dots_slots (n : Node) : ∃ k, ∀ s ∈ n.slots, dots s = k := by
  have hrange : ∀ k, ∀ s ∈ (List.range k).map toString, dots s = 0 := by
    intro k s hs
    obtain ⟨i, -, rfl⟩ := List.mem_map.mp hs
    exact dots_toString i
  cases n with
  | symbol | space | op | var | newLine | alignMark => exact ⟨0, by simp [slots]⟩
  | text id body | group id body | color id c body => exact ⟨0, hrange body.length⟩
  | aligned id cells => exact ⟨0, hrange cells.length⟩
  | array id rows align =>
    refine ⟨1, fun s hs => ?_⟩
    obtain ⟨row, hrow, hs⟩ := List.mem_flatten.mp hs
    obtain ⟨r, hr, rfl⟩ := List.mem_mapIdx.mp hrow
    obtain ⟨c, hc, rfl⟩ := List.mem_mapIdx.mp hs
    exact dots_cell r c
  | frac | brace | box | strike => exact ⟨0, by simp only [slots]; decide⟩
  | script id base sub sup =>
    refine ⟨0, ?_⟩
    cases sub <;> cases sup <;> simp only [slots, Option.map_none, Option.map_some] <;> decide
  | root id body index =>
    refine ⟨0, ?_⟩
    cases index <;> simp only [slots, Option.map_none, Option.map_some] <;> decide

theorem nodup_slots (n : Node) : n.slots.Nodup := by
  have hrange : ∀ k, ((List.range k).map toString).Nodup := fun k =>
    List.nodup_range.map fun _ _ h => Nat.repr_injective h
  cases n with
  | symbol | space | op | var | newLine | alignMark => exact List.nodup_nil
  | text id body | group id body | color id c body => exact hrange body.length
  | aligned id cells => exact hrange cells.length
  | array id rows align =>
    rw [slots, List.nodup_flatten]
    constructor
    · intro names hnames
      obtain ⟨r, hr, rfl⟩ := List.mem_mapIdx.mp hnames
      rw [List.nodup_iff_pairwise_ne, List.pairwise_iff_getElem]
      intro i j hi hj hij
      rw [List.getElem_mapIdx, List.getElem_mapIdx]
      intro he
      have := (cell_injective he).2
      omega
    · rw [List.pairwise_iff_getElem]
      intro i j hi hj hij name hname hname'
      rw [List.getElem_mapIdx] at hname hname'
      obtain ⟨c, hc, rfl⟩ := List.mem_mapIdx.mp hname
      obtain ⟨c', hc', he⟩ := List.mem_mapIdx.mp hname'
      have := (cell_injective he).1
      omega
  | frac | brace | box | strike => simp only [slots]; decide
  | script id base sub sup => cases sub <;> cases sup <;> simp only [slots, Option.map_none, Option.map_some] <;> decide
  | root id body index => cases index <;> simp only [slots, Option.map_none, Option.map_some] <;> decide

end Node

namespace Node

/-- The ids of a tree in pre-order. -/
def ids (n : Node) : List String :=
  n.preorder.filterMap id?

theorem ids_eq (n : Node) : n.ids = n.id?.toList ++ n.children.flatMap ids := by
  rw [ids, preorder_eq, List.filterMap_cons, List.filterMap_flatMap]
  cases n.id? <;> rfl

end Node

theorem forestIds_eq (ns : List Node) : forestIds ns = ns.flatMap Node.ids := by
  rw [forestIds, List.filterMap_flatMap]
  rfl

/-- Trees whose ids lie under different paths share no id. -/
theorem nodup_flatMap_ids {ns : List Node} {paths : List String} (hlength : ns.length = paths.length)
    (hns : ∀ i (hi : i < ns.length), (∀ id ∈ ns[i].ids, Under paths[i] id) ∧ ns[i].ids.Nodup)
    (hpaths : paths.Pairwise fun p q => ∀ id, Under p id → ¬ Under q id) :
    (ns.flatMap Node.ids).Nodup := by
  rw [List.nodup_flatMap, List.pairwise_iff_getElem]
  constructor
  · intro n hn
    obtain ⟨i, hi, rfl⟩ := List.mem_iff_getElem.mp hn
    exact (hns i hi).2
  · intro i j hi hj hij id hid hid'
    have hi' : Under paths[i] id := (hns i hi).1 id hid
    have hj' : Under paths[j] id := (hns j hj).1 id hid'
    exact List.pairwise_iff_getElem.mp hpaths i j (by omega) (by omega) hij id hi' hj'

namespace Node

/-- If the ids of each child lie under the path of its slot, the ids of a node under a path do so, and
they are different. -/
theorem ids_of_slots {path : String} {n : Node} (hself : ∀ id, n.id? = some id → id = path)
    (hbelow : ∀ i (hi : i < n.children.length) (hi' : i < n.slots.length),
      (∀ id ∈ n.children[i].ids, Under (path ++ "." ++ n.slots[i]) id) ∧ n.children[i].ids.Nodup) :
    (∀ id ∈ n.ids, Under path id) ∧ n.ids.Nodup := by
  obtain ⟨k, hdots⟩ := n.dots_slots
  have hslot : ∀ i, i < n.children.length → i < n.slots.length := fun i hi => n.length_slots.symm ▸ hi
  have hnodup : (n.children.flatMap ids).Nodup := by
    refine @nodup_flatMap_ids _ (n.slots.map (path ++ "." ++ ·)) ?_ (fun i hi => ?_) ?_
    · rw [List.length_map, length_slots]
    · rw [List.getElem_map]
      exact hbelow i hi (hslot i hi)
    · rw [List.pairwise_map]
      refine n.nodup_slots.imp_of_mem fun hs ht hne id hid hid' => hne ?_
      exact eq_of_under_slots (by rw [hdots _ hs, hdots _ ht]) hid hid'
  have hunder : ∀ id ∈ n.children.flatMap ids, Under path id ∧ id ≠ path := by
    intro id hid
    obtain ⟨c, hc, hid⟩ := List.mem_flatMap.mp hid
    obtain ⟨i, hi, rfl⟩ := List.mem_iff_getElem.mp hc
    have hslot := (hbelow i hi (hslot i hi)).1 id hid
    exact ⟨hslot.of_slot, hslot.ne_of_slot⟩
  rw [ids_eq]
  cases hid : n.id? with
  | none => exact ⟨fun id hmem => (hunder id (by simpa using hmem)).1, by simpa using hnodup⟩
  | some id =>
    obtain rfl := hself id hid
    constructor
    · intro id' hmem
      rcases List.mem_cons.mp hmem with rfl | hmem
      · exact under_refl _
      · exact (hunder id' hmem).1
    · exact List.nodup_cons.mpr ⟨fun hmem => (hunder id hmem).2 rfl, hnodup⟩

/-- The path ids of a tree lie under its path and are different. -/
theorem ids_relabel (path : String) (n : Node) :
    (∀ id ∈ (n.relabel false path).ids, Under path id) ∧ (n.relabel false path).ids.Nodup := by
  induction n using childrenInduction generalizing path with
  | step n ih =>
    have hpath : ∀ id, pathId false path id = path := fun id => by simp [pathId]
    refine ids_of_slots (fun id hid => ?_) fun i hi hi' => ?_
    · rw [id?_relabel] at hid
      cases h : n.id? with
      | none => simp [h] at hid
      | some old => simpa [h, hpath] using hid.symm
    · simp only [children_relabel, slots_relabel, hpath, List.getElem_zipWith]
      exact ih _ (List.getElem_mem _) _

end Node

/-- Trees whose ids lie under their positions share no id. -/
theorem nodup_forestIds {ns : List Node} (h : ∀ i (hi : i < ns.length),
    (∀ id ∈ ns[i].ids, Under (toString i) id) ∧ ns[i].ids.Nodup) : (forestIds ns).Nodup := by
  have hapart : ((List.range ns.length).map toString).Pairwise
      fun p q => ∀ id, Under p id → ¬ Under q id := by
    rw [List.pairwise_map]
    refine List.nodup_range.imp fun hne id hid hid' => hne ?_
    have hpath := eq_of_under (by rw [dots_toString, dots_toString]) hid hid'
    exact Nat.repr_injective hpath
  rw [forestIds_eq]
  refine nodup_flatMap_ids (by simp) (fun i hi => ?_) hapart
  rw [List.getElem_map, List.getElem_range]
  exact h i hi

/-- Path ids are different throughout. -/
theorem nodup_labelNodes (ns : List Node) : (forestIds (labelNodes false ns)).Nodup := by
  refine nodup_forestIds fun i hi => ?_
  simp only [labelNodes, List.getElem_mapIdx]
  exact Node.ids_relabel _ _

theorem ofNodes_eq_ok {ns : List Node} (h : (forestIds ns).Nodup) :
    Formula.ofNodes ns = .ok ⟨ns, h⟩ := by
  unfold Formula.ofNodes
  split
  next => rfl
  next id hid =>
    rw [firstRepeat?_eq_none.mpr ⟨h, by simp⟩] at hid
    cases hid

theorem children_of_ofNodes {ns : List Node} {f : Formula} (h : Formula.ofNodes ns = .ok f) :
    f.children = ns := by
  unfold Formula.ofNodes at h
  split at h
  next =>
    cases h
    rfl
  next => cases h

/-- Labels of trees without ids are path ids. -/
theorem labelNodes_blank (keep : Bool) (ns : List Node) :
    labelNodes keep (ns.map Node.blank) = labelNodes false ns := by
  rw [labelNodes, labelNodes]
  refine List.ext_getElem (by simp) fun i hi hi' => ?_
  rw [List.getElem_mapIdx, List.getElem_mapIdx, List.getElem_map, Node.relabel_blank]

theorem labelNodes_of_blank {ns : List Node} (h : ns.map Node.blank = ns) (keep : Bool) :
    labelNodes keep ns = labelNodes false ns := by
  rw [← labelNodes_blank keep, h]

/-- Labels change nothing but ids. -/
theorem map_blank_labelNodes (keep : Bool) (ns : List Node) :
    (labelNodes keep ns).map Node.blank = ns.map Node.blank := by
  refine List.ext_getElem (by simp [labelNodes]) fun i hi hi' => ?_
  simp [labelNodes, Node.blank_relabel]

theorem exists_of_mem_labelNodes {keep : Bool} {ns : List Node} {n : Node} (h : n ∈ labelNodes keep ns) :
    ∃ m ∈ ns, m.blank = n.blank := by
  have hmem : n.blank ∈ ns.map Node.blank := by
    rw [← map_blank_labelNodes keep]
    exact List.mem_map_of_mem h
  exact List.mem_map.mp hmem

theorem exists_mem_labelNodes {ns : List Node} {n : Node} (keep : Bool) (h : n ∈ ns) :
    ∃ m ∈ labelNodes keep ns, m.blank = n.blank := by
  have hmem : n.blank ∈ (labelNodes keep ns).map Node.blank := by
    rw [map_blank_labelNodes]
    exact List.mem_map_of_mem h
  exact List.mem_map.mp hmem

theorem Formula.assignPathIds_eq_ok (f : Formula) :
    f.assignPathIds = .ok ⟨labelNodes false f.children, nodup_labelNodes f.children⟩ :=
  ofNodes_eq_ok _

end FormulaDoc
