import FormulaDoc.Parse
import FormulaDoc.Proofs.Lookups
import FormulaDoc.Proofs.Reading
import FormulaDoc.Proofs.Spans

namespace FormulaDoc

/-- A node where it is written, and the mode that it is written in. -/
structure Spot where
  node : Node
  mode : Mode
  span : Span

namespace Layout

/-- The nodes of some layouts where they are written, each in front of those inside it. -/
def spots (start : Nat) : List Layout → List Spot
  | [] => []
  | .lit s :: ls => spots (start + s.length) ls
  | .node n mode _ inner :: ls =>
    ⟨n, mode, ⟨start, start + (textAll inner).length⟩⟩ ::
      (spots start inner ++ spots (start + (textAll inner).length) ls)

variable {start : Nat} {ls : List Layout} {p : Spot}

theorem spots_cons (start : Nat) (l : Layout) (ls : List Layout) :
    spots start (l :: ls) = spots start [l] ++ spots (start + l.text.length) ls := by
  cases l with
  | lit s => simp [spots, text]
  | node n mode asArg inner => simp [spots, text]

theorem spots_bounds (h : p ∈ spots start ls) :
    start ≤ p.span.start ∧ p.span.start ≤ start + (textAll ls).length := by
  induction start, ls using spots.induct with
  | case1 start =>
    rw [spots] at h
    cases h
  | case2 start s ls ih =>
    rw [spots] at h
    have hp := ih h
    rw [length_textAll_cons, text]
    omega
  | case3 start n mode asArg inner ls ihinner ihrest =>
    rw [length_textAll_cons, text]
    rw [spots, List.mem_cons, List.mem_append] at h
    rcases h with rfl | h | h
    · exact ⟨Nat.le_refl _, Nat.le_add_right _ _⟩
    · have hp := ihinner h
      omega
    · have hp := ihrest h
      omega

/-- Of two nodes the one that is listed first begins no later. -/
theorem pairwise_spots (start : Nat) (ls : List Layout) :
    (spots start ls).Pairwise fun p q => p.span.start ≤ q.span.start := by
  induction start, ls using spots.induct with
  | case1 start =>
    rw [spots]
    exact .nil
  | case2 start s ls ih => rwa [spots]
  | case3 start n mode asArg inner ls ihinner ihrest =>
    rw [spots, List.pairwise_cons, List.pairwise_append]
    refine ⟨fun q hq => ?_, ihinner, ihrest, fun p hp q hq => ?_⟩
    · rcases List.mem_append.mp hq with hq | hq
      · exact (spots_bounds hq).1
      · have hbound := (spots_bounds hq).1
        show start ≤ q.span.start
        omega
    · have hp := (spots_bounds hp).2
      have hq := (spots_bounds hq).1
      omega

theorem mem_spansAll_of_mem_spots {id : String} (h : p ∈ spots start ls) (hid : p.node.id? = some id) :
    (id, p.span) ∈ spansAll start ls := by
  induction start, ls using spots.induct with
  | case1 start =>
    rw [spots] at h
    cases h
  | case2 start s ls ih =>
    rw [spots] at h
    rw [spansAll, spans, List.nil_append]
    exact ih h
  | case3 start n mode asArg inner ls ihinner ihrest =>
    rw [spots, List.mem_cons, List.mem_append] at h
    rw [spansAll, spans, text, List.mem_append, List.mem_append]
    rcases h with rfl | h | h
    · exact .inl (.inr (by simp [hid]))
    · exact .inl (.inl (ihinner h))
    · exact .inr (ihrest h)

end Layout

namespace Node

open Layout

variable {n : Node}

theorem ids_eq_nil (h : n.id? = none) : n.ids = [] := by
  cases n with
  | newLine | alignMark => simp [ids_eq, id?, children]
  | _ => cases h

/-- Whether a node is written in the order of its children, as far as they have ids. -/
def InOrder (n : Node) : Prop :=
  ∀ id body index, n = .root id body (some index) → body.id? = none ∨ index.id? = none

theorem InOrder.flatMap_ids (h : n.InOrder) (mode : Mode) (asArg : Bool) :
    (Piece.references (n.pieces mode asArg)).flatMap ids = n.children.flatMap ids := by
  by_cases hroot : ∃ id body index, n = .root id body (some index)
  · obtain ⟨id, body, index, rfl⟩ := hroot
    rcases h id body index rfl with hnone | hnone
    · simp [pieces, Piece.references, Piece.arg, children, ids_eq_nil hnone]
    · simp [pieces, Piece.references, Piece.arg, children, ids_eq_nil hnone]
  · simp only [not_exists] at hroot
    rw [references_eq hroot]

/-- Some pieces list the ids below the nodes that they refer to, in this order. -/
theorem ids_spots_pieces {mode : Mode} {ps : List Piece}
    (h : ∀ c ∈ Piece.references ps, ∀ start m a, (spots start [c.layout m a]).filterMap (·.node.id?) = c.ids)
    (start : Nat) : (spots start (ps.map (Piece.layout mode))).filterMap (·.node.id?) =
      (Piece.references ps).flatMap ids := by
  induction ps generalizing start with
  | nil => simp [spots, Piece.references]
  | cons p ps ih =>
    rw [List.map_cons, spots_cons, List.filterMap_append]
    cases p with
    | lit s =>
      rw [ih h]
      simp [spots, Piece.layout, Piece.references]
    | child c a m =>
      rw [Piece.layout, Piece.references, List.flatMap_cons, h c List.mem_cons_self,
        ih fun d hd => h d (List.mem_cons_of_mem _ hd)]

/-- A tree whose nodes are all written in the order of their children lists its ids in pre-order. -/
theorem ids_spots_layout (h : ∀ m ∈ n.preorder, m.InOrder) (start : Nat) (mode : Mode) (asArg : Bool) :
    (spots start [n.layout mode asArg]).filterMap (·.node.id?) = n.ids := by
  induction n using childrenInduction generalizing start mode asArg with
  | step n ih =>
    have hself := h n n.self_mem_preorder
    have hbelow : ∀ c ∈ Piece.references (n.pieces mode asArg), ∀ start m a,
        (spots start [c.layout m a]).filterMap (·.node.id?) = c.ids := by
      intro c hc
      have hmem := (n.references_pieces mode asArg).mem_iff.mp hc
      exact ih c hmem fun m hm => h m (mem_preorder_of_child hmem hm)
    rw [layout_eq, spots, spots, List.append_nil, List.filterMap_cons, ids_spots_pieces hbelow,
      hself.flatMap_ids, ids_eq]
    cases n.id? <;> rfl

end Node

namespace Formula

open Layout

variable {f : Formula} {mode : Mode}

/-- Whether the nodes are given out in the order of their markup: those with ids have spans, and the starts
of these never decrease. -/
def InDocumentOrder (f : Formula) (mode : Mode) : Prop :=
  ∃ starts : List Nat, starts.Pairwise (· ≤ ·) ∧
    (f.walk.filterMap Node.id?).map (fun id => (f.span? mode id).map Span.start) = starts.map some

theorem filterMap_walk (f : Formula) : f.walk.filterMap Node.id? = f.ids := by
  rw [walk, Node.walk_eq]
  rfl

theorem span?_of_mem_spots {p : Spot} {id : String} (h : p ∈ spots 0 (f.layout mode))
    (hid : p.node.id? = some id) : f.span? mode id = some p.span := by
  have hkeys : ((f.spans mode).map Prod.fst).Nodup := (f.keys_spans mode).nodup_iff.mpr f.nodup
  have hspan := mem_spansAll_of_mem_spots h hid
  exact lookup_of_mem hkeys hspan

theorem inDocumentOrder_of_inOrder (h : ∀ n ∈ f.nodes, n.InOrder) (mode : Mode) :
    f.InDocumentOrder mode := by
  have hids : (spots 0 (f.layout mode)).filterMap (·.node.id?) = f.ids := by
    have htop : ∀ c ∈ Piece.references (Piece.spaced f.children), ∀ start m a,
        (spots start [c.layout m a]).filterMap (·.node.id?) = c.ids := by
      intro c hc
      rw [Piece.references_spaced] at hc
      exact Node.ids_spots_layout fun m hm => h m (List.mem_flatMap.mpr ⟨c, hc, hm⟩)
    rw [f.layout_eq, Node.ids_spots_pieces htop, Piece.references_spaced, ← forestIds_eq]
    rfl
  refine ⟨(spots 0 (f.layout mode)).filterMap fun p => p.node.id?.map fun _ => p.span.start, ?_, ?_⟩
  · rw [List.pairwise_filterMap]
    refine (pairwise_spots 0 _).imp fun hle k hk l hl => ?_
    obtain ⟨-, -, rfl⟩ := Option.map_eq_some_iff.mp hk
    obtain ⟨-, -, rfl⟩ := Option.map_eq_some_iff.mp hl
    exact hle
  · rw [filterMap_walk, ← hids, List.map_filterMap, List.map_filterMap]
    refine List.filterMap_congr fun p hp => ?_
    cases hid : p.node.id? with
    | none => rfl
    | some id => simp [span?_of_mem_spots hp hid]

/-- Of two ids that are given out one behind the other, the first begins no later. -/
theorem InDocumentOrder.start_le (h : f.InDocumentOrder mode) {i j : String} {s t : Span}
    (hij : [i, j].Sublist f.ids) (hs : f.span? mode i = some s) (ht : f.span? mode j = some t) :
    s.start ≤ t.start := by
  obtain ⟨starts, hsorted, hstarts⟩ := h
  rw [filterMap_walk] at hstarts
  have hsome : (starts.map some).Pairwise fun a b => ∀ k ∈ a, ∀ l ∈ b, k ≤ l := by
    rw [List.pairwise_map]
    simpa using hsorted
  have hpair := hsome.sublist (hstarts ▸ hij.map _)
  simpa [hs, ht] using hpair

/-- The index of a root is written in front of the body. -/
theorem span_index_lt_body (mode : Mode) {id i j : String} {body index : Node}
    (hn : .root id body (some index) ∈ f.nodes) (hi : body.id? = some i) (hj : index.id? = some j) :
    ∃ s t, f.span? mode i = some s ∧ f.span? mode j = some t ∧ t.start < s.start := by
  obtain ⟨m, a, hw⟩ := exists_writes mode hn
  obtain ⟨k, hk⟩ := hw.within
  rw [Node.layout_eq] at hk
  have hindex := hk.trans (.tail (.tail .head) : Within _ _ (index.layout m true))
  have hbody := hk.trans (.tail (.tail (.tail (.tail (.tail .head)))) : Within _ _ (body.layout m true))
  have hindexspan := span?_of_within hindex hj
  have hbodyspan := span?_of_within hbody hi
  refine ⟨_, _, hbodyspan, hindexspan, ?_⟩
  simp only [Layout.text, Piece.layout]
  have hbracket : "[".length = 1 := rfl
  have hclose : "]".length = 1 := rfl
  omega

/-- A root with an id in its body and one in its index gives out the body first. -/
theorem not_inDocumentOrder_of_root {id i j : String} {body index : Node}
    (hn : .root id body (some index) ∈ f.nodes) (hi : body.id? = some i) (hj : index.id? = some j) :
    ¬ f.InDocumentOrder mode := by
  intro h
  have hbelow : [i, j].Sublist (Node.root id body (some index)).ids := by
    have hbody : [i].Sublist body.ids := by simp [Node.ids_eq body, hi]
    have hindex : [j].Sublist index.ids := by simp [Node.ids_eq index, hj]
    have hboth := hbody.append hindex
    rw [Node.ids_eq]
    simpa [Node.children, Node.id?] using hboth.trans (List.sublist_cons_self id _)
  obtain ⟨s, t, hs, ht, hlt⟩ := span_index_lt_body mode hn hi hj
  have hle := h.start_le (hbelow.trans (sublist_ids hn)) hs ht
  omega

/-- In every mode, the nodes with ids are given out in the order in which their markup begins exactly if no
root has an id in its body and one in its index. -/
theorem inDocumentOrder_iff (f : Formula) (mode : Mode) : f.InDocumentOrder mode ↔
    ∀ id body index, .root id body (some index) ∈ f.nodes → body.id? = none ∨ index.id? = none := by
  constructor
  · intro h id body index hn
    cases hi : body.id? with
    | none => exact .inl rfl
    | some i =>
      cases hj : index.id? with
      | none => exact .inr rfl
      | some j => exact absurd h (not_inDocumentOrder_of_root hn hi hj)
  · intro h
    have horder : ∀ n ∈ f.nodes, n.InOrder := by
      intro n hn id body index he
      rw [he] at hn
      exact h id body index hn
    exact inDocumentOrder_of_inOrder horder mode

/-- The stack gives out the body of a root before the index, which is written first. -/
theorem parse_root_not_inDocumentOrder : ∃ f, parse [] "\\sqrt[3]\x7bx\x7d" = .ok f ∧
    f.walk.filterMap Node.id? = ["0", "0.body", "0.index"] ∧
    f.span? .ast "0.body" = some ⟨9, 10⟩ ∧ f.span? .ast "0.index" = some ⟨6, 7⟩ ∧
    ¬ f.InDocumentOrder .ast := by
  have hparse : (parse [] "\\sqrt[3]\x7bx\x7d").toOption.any fun f =>
      f.children = [.root "0" (.symbol "0.body" "x") (some (.symbol "0.index" "3"))] ∧
      f.walk.filterMap Node.id? = ["0", "0.body", "0.index"] ∧
      f.span? .ast "0.body" = some ⟨9, 10⟩ ∧ f.span? .ast "0.index" = some ⟨6, 7⟩ := by
    decide +kernel
  obtain ⟨f, hf, hchildren, hwalk, hbody, hindex⟩ := exists_ok_of_any hparse
  have hroot : Node.root "0" (.symbol "0.body" "x") (some (.symbol "0.index" "3")) ∈ f.nodes := by
    refine mem_nodes_of_top ?_
    rw [hchildren]
    exact List.mem_cons_self
  exact ⟨f, hf, hwalk, hbody, hindex, not_inDocumentOrder_of_root hroot rfl rfl⟩

end Formula

end FormulaDoc
