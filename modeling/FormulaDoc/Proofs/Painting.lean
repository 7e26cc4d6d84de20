import FormulaDoc.Proofs.Splicing

namespace FormulaDoc

namespace Node

variable {g : Node → Node} {n : Node}

/-- A change of nodes that leaves their ids, their kinds and their children alone and does not depend on
the children. -/
structure Repaints (g : Node → Node) : Prop where
  id? : ∀ n, (g n).id? = n.id?
  kind : ∀ n, (g n).kind = n.kind
  children : ∀ n, (g n).children = n.children
  withChildren : ∀ n cs, g (n.withChildren cs) = (g n).withChildren cs

theorem repaints_id : Repaints id :=
  ⟨fun _ => rfl, fun _ => rfl, fun _ => rfl, fun _ _ => rfl⟩

namespace Repaints

variable (hg : Repaints g) {ids : List String}

include hg

theorem mapChildren (h : Node → Node) (n : Node) : (g n).mapChildren h = g (n.mapChildren h) := by
  rw [Node.mapChildren, Node.mapChildren, hg.children, hg.withChildren]

theorem kind_everywhere (n : Node) : (n.everywhere g).kind = n.kind := by
  rw [everywhere_eq, hg.kind, kind_mapChildren]

theorem id?_everywhere (n : Node) : (n.everywhere g).id? = n.id? := by
  rw [everywhere_eq, hg.id?, id?_mapChildren]

theorem children_everywhere (n : Node) :
    (n.everywhere g).children = n.children.map (everywhere g) := by
  rw [everywhere_eq, hg.children, children_mapChildren]

theorem dissolve_everywhere (n : Node) :
    (n.everywhere g).dissolve ids = (n.dissolve ids).map (everywhere g) := by
  have hsel : (n.everywhere g).selectedIn ids = n.selectedIn ids := by
    rw [selectedIn, selectedIn, hg.id?_everywhere]
  rw [dissolve, dissolve, hg.kind_everywhere, hsel, apply_ite (List.map (everywhere g)),
    hg.children_everywhere]
  rfl

theorem spliceAll_of {ns : List Node}
    (h : ∀ n ∈ ns, (n.everywhere g).splice ids = (n.splice ids).everywhere g) :
    spliceAll ids (ns.map (everywhere g)) = (spliceAll ids ns).map (everywhere g) := by
  rw [spliceAll, spliceAll, List.flatMap_map, List.map_flatMap]
  refine List.flatMap_congr fun n hn => ?_
  rw [h n hn, hg.dissolve_everywhere]

/-- Changing attributes and taking out groups do not depend on their order. -/
theorem splice_everywhere (n : Node) :
    (n.everywhere g).splice ids = (n.splice ids).everywhere g := by
  induction n using childrenInduction with
  | step n ih =>
    have hsequence := isSome_sequence?_of_kind (hg.kind_everywhere n)
    by_cases h : n.sequence?.isSome
    · have hleft : ∀ cs, (n.everywhere g).withChildren cs = g (n.withChildren cs) := by
        intro cs
        rw [everywhere_eq, ← hg.withChildren, Node.mapChildren, withChildren_withChildren_of_sequence h]
      have hright : ∀ cs, (n.withChildren cs).everywhere g =
          g (n.withChildren (cs.map (everywhere g))) := by
        intro cs
        rw [everywhere_eq, Node.mapChildren, children_withChildren_of_sequence h,
          withChildren_withChildren_of_sequence h]
      rw [splice_of_sequence (hsequence.trans h), splice_of_sequence h, hleft, hright,
        hg.children_everywhere, hg.spliceAll_of ih]
    · have hbelow : (n.mapChildren fun c => (c.everywhere g).splice ids) =
          n.mapChildren fun c => (c.splice ids).everywhere g :=
        mapChildren_congr ih
      rw [splice_of_not_sequence (hsequence ▸ h), splice_of_not_sequence h, everywhere_eq,
        hg.mapChildren, mapChildren_mapChildren, hbelow, everywhere_eq, mapChildren_mapChildren]

end Repaints

end Node

theorem spliceAll_map_everywhere {g : Node → Node} (hg : Node.Repaints g) (ids : List String)
    (ns : List Node) :
    spliceAll ids (ns.map (Node.everywhere g)) = (spliceAll ids ns).map (Node.everywhere g) :=
  hg.spliceAll_of fun n _ => hg.splice_everywhere n

namespace Node

variable {n : Node}

/-- A change of the nodes with these ids only. -/
def paintOn (ids : List String) (g : Node → Node) (n : Node) : Node :=
  if n.selectedIn ids then g n else n

/-- What the change leaves alone on every node it leaves alone on these. -/
theorem apply_paintOn {α : Type} {g : Node → Node} {k : Node → α} (h : ∀ n, k (g n) = k n)
    (ids : List String) (n : Node) : k (paintOn ids g n) = k n := by
  unfold paintOn
  split
  next => exact h n
  next => rfl

theorem Repaints.paintOn {g : Node → Node} (hg : Repaints g) (ids : List String) :
    Repaints (paintOn ids g) := by
  refine ⟨apply_paintOn hg.id? ids, apply_paintOn hg.kind ids, apply_paintOn hg.children ids, ?_⟩
  intro n cs
  have hsel : (n.withChildren cs).selectedIn ids = n.selectedIn ids := by
    rw [Node.selectedIn, Node.selectedIn, id?_withChildren_any]
  rw [Node.paintOn, Node.paintOn, hsel, hg.withChildren, apply_ite (Node.withChildren · cs)]

/-- A color with another color. -/
def recolor (c : String) : Node → Node
  | color id _ body => color id c body
  | n => n

/-- A box with other colors. -/
def rebox (border background : String) : Node → Node
  | box id _ body _ => box id border body background
  | n => n

theorem recolor_of_kind {c : String} (h : n.kind ≠ .color) : n.recolor c = n := by
  cases n <;> first | rfl | exact absurd rfl h

theorem rebox_of_kind {border background : String} (h : n.kind ≠ .box) :
    n.rebox border background = n := by
  cases n <;> first | rfl | exact absurd rfl h

theorem repaints_recolor (c : String) : Repaints (recolor c) := by
  refine ⟨fun n => ?_, fun n => ?_, fun n => ?_, fun n cs => ?_⟩
  · cases n <;> rfl
  · cases n <;> rfl
  · cases n <;> rfl
  · by_cases h : n.kind = .color
    · cases n <;> first | rfl | cases h
    · rw [recolor_of_kind h, recolor_of_kind (n.kind_withChildren_any cs ▸ h)]

theorem repaints_rebox (border background : String) : Repaints (rebox border background) := by
  refine ⟨fun n => ?_, fun n => ?_, fun n => ?_, fun n cs => ?_⟩
  · cases n <;> rfl
  · cases n <;> rfl
  · cases n <;> rfl
  · by_cases h : n.kind = .box
    · cases n with
      | box => obtain _ | ⟨_, _ | _⟩ := cs <;> rfl
      | _ => cases h
    · rw [rebox_of_kind h, rebox_of_kind (n.kind_withChildren_any cs ▸ h)]

/-- A node that is selected, or has a child that is. -/
def touchedBy (selected : List String) (n : Node) : Bool :=
  n.selectedIn selected || n.children.any (·.selectedIn selected)

theorem exists_id?_of_touchedBy {selected : List String} (h : n.touchedBy selected) :
    ∃ id, n.id? = some id := by
  cases n <;> first | exact ⟨_, rfl⟩ | cases h

end Node

namespace Formula

/-- The ids of the nodes of a kind that are selected or have a child that is. -/
def touched (f : Formula) (kind : Kind) (selected : List String) : List String :=
  (f.nodes.filter fun n => n.kind = kind ∧ n.touchedBy selected).filterMap Node.id?

variable {f : Formula} {kind : Kind} {selected : List String} {n : Node}

theorem selectedIn_touched (hn : n ∈ f.nodes) :
    n.selectedIn (f.touched kind selected) ↔ n.kind = kind ∧ n.touchedBy selected := by
  constructor
  · rw [Node.selectedIn_iff]
    rintro ⟨id, hid, hnid⟩
    obtain ⟨n', hn', hn'id⟩ := List.mem_filterMap.mp hid
    obtain ⟨hn', htouched⟩ := List.mem_filter.mp hn'
    rw [← eq_of_mem_nodes hn' hn hn'id hnid]
    exact of_decide_eq_true htouched
  · intro htouched
    have hmem : n ∈ f.nodes.filter fun n => decide (n.kind = kind ∧ n.touchedBy selected) :=
      List.mem_filter.mpr ⟨hn, decide_eq_true htouched⟩
    obtain ⟨id, hid⟩ := Node.exists_id?_of_touchedBy htouched.2
    rw [Node.selectedIn_iff]
    exact ⟨id, List.mem_filterMap.mpr ⟨n, hmem, hid⟩, hid⟩

end Formula

end FormulaDoc
