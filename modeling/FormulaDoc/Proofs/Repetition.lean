import FormulaDoc.Proofs.Targets
import FormulaDoc.Proofs.Unstyling

namespace FormulaDoc

section

variable {M : Type → Type} [Monad M] [LawfulMonad M] {visit : Node → M (Option Node)} {n : Node}
  {f : Formula}

/-- A visitor without effects that keeps every node keeps the tree. -/
theorem Node.rewrite_eq_self (h : ∀ m ∈ n.preorder, ∃ o : Option Node, visit m = pure o ∧ o.getD m = m) :
    ∃ changed, n.rewrite visit = pure (n, changed) := by
  induction n using childrenInduction with
  | step n ih =>
    have hchildren : ∀ c ∈ n.children, ∃ changed, c.rewrite visit = pure (c, changed) := fun c hc =>
      ih c hc fun m hm => h m (mem_preorder_of_child hc hm)
    choose! changed hchanged using hchildren
    obtain ⟨o, hvisit, ho⟩ := h n n.self_mem_preorder
    have hsame : n.withChildren ((n.children.map fun c => (c, changed c)).map Prod.fst) = n := by
      rw [List.map_map]
      exact (congrArg n.withChildren (List.map_id _)).trans n.withChildren_children
    rw [rewrite_eq, mapM_eq_pure hchanged, pure_bind]
    dsimp only
    rw [hsame, hvisit, pure_bind]
    cases o with
    | none => exact ⟨_, rfl⟩
    | some r => exact ⟨true, by rw [← ho]; rfl⟩

theorem Formula.rewrite_eq_self (h : ∀ m ∈ f.nodes, ∃ o : Option Node, visit m = pure o ∧ o.getD m = m) :
    ∃ changed, f.rewrite visit = pure (.ok ⟨f, changed⟩) := by
  have hchildren : ∀ n ∈ f.children, ∃ changed, n.rewrite visit = pure (n, changed) := fun n hn =>
    Node.rewrite_eq_self fun m hm => h m (List.mem_flatMap.mpr ⟨n, hn, hm⟩)
  choose! changed hchanged using hchildren
  have hsame : (f.children.map fun c => (c, changed c)).map Prod.fst = f.children := by
    rw [List.map_map]
    exact List.map_id _
  rw [rewrite, mapM_eq_pure hchanged, pure_bind, hsame]
  split
  next =>
    refine ⟨true, ?_⟩
    rw [ofNodes_eq_ok f.nodup]
    rfl
  next => exact ⟨false, rfl⟩

end

/-- Single nodes of a formula stand for themselves, and no id is drawn for them. -/
theorem consolidateRuns_single {f : Formula} {runs : List (List String)}
    (h : ∀ run ∈ runs, run.length = 1) :
    consolidateRuns false f runs = pure (⟨f, false⟩, runs.map fun run => run.head?.filter f.contains) := by
  induction runs with
  | nil => rfl
  | cons run runs ih =>
    obtain ⟨hrun, hruns⟩ := List.forall_mem_cons.mp h
    have hone : consolidateRun false f run = pure (⟨f, false⟩, run.head?.filter f.contains) :=
      if_pos ⟨hrun, rfl⟩
    rw [consolidateRuns, hone, pure_bind]
    dsimp only
    rw [ih hruns]
    rfl

/-- The targets of a selection of single nodes: those that the formula has. -/
theorem filterMap_targets {f : Formula} {runs : List (List String)} (h : ∀ run ∈ runs, run.length = 1) :
    (runs.map fun run => run.head?.filter f.contains).filterMap id =
      runs.flatten.filter (· ∈ f.ids) := by
  induction runs with
  | nil => rfl
  | cons run runs ih =>
    obtain ⟨hrun, hruns⟩ := List.forall_mem_cons.mp h
    obtain ⟨i, rfl⟩ := List.length_eq_one_iff.mp hrun
    rw [List.map_cons, List.flatten_cons, List.filter_append, ← ih hruns]
    by_cases hi : i ∈ f.ids
    · have htarget : [i].head?.filter f.contains = some i := if_pos (Formula.contains_iff.mpr hi)
      rw [htarget]
      simp [hi]
    · have htarget : [i].head?.filter f.contains = none := if_neg (mt Formula.contains_iff.mp hi)
      rw [htarget]
      simp [hi]

namespace Styling

variable {s : Styling} {c f r : Formula} {selected selected' new : List String} {b m n x : Node}
  {fresh : Supply} {i : String}

theorem change_change (s : Styling) (b : Node) : s.change (s.change b) = s.change b := by
  cases s with
  | color | box => cases b <;> rfl
  | strike => rfl
  | brace above =>
    cases b with
    | script id base sub sup => cases above <;> cases sub <;> cases sup <;> rfl
    | _ => rfl

theorem change_carrier (s : Styling) (id : String) (b : Node) :
    s.change (s.carrier id b) = s.carrier id b := by
  cases s <;> rfl

theorem change_of_not_kind (h : b.kind ≠ s.kind) (hscript : b.kind ≠ .script) : s.change b = b := by
  cases s with
  | strike => rfl
  | color | box => cases b <;> first | rfl | exact absurd rfl h
  | brace above => cases b <;> first | rfl | exact absurd rfl h | exact absurd rfl hscript

theorem kind_of_mem_label {caption : String} {ids : List String} (hx : x ∈ (label caption ids).preorder) :
    x.kind ≠ .brace ∧ x.kind ≠ .script ∧ ∃ i, x.id? = some i := by
  rcases Node.mem_preorder_iff.mp hx with rfl | ⟨ch, hch, hx⟩
  · exact ⟨Kind.noConfusion, Kind.noConfusion, _, rfl⟩
  · obtain ⟨j, hj, rfl⟩ := List.mem_iff_getElem.mp hch
    simp only [label, Node.children, List.getElem_zipWith, symbolsOf, List.getElem_map] at hx
    rcases Node.mem_preorder_iff.mp hx with rfl | ⟨ch', hch', -⟩
    · exact ⟨Kind.noConfusion, Kind.noConfusion, _, rfl⟩
    · cases hch'

/-- A wrapper needs no change, and all of it that is not in the wrapped node is new. -/
theorem mem_preorder_wrapper_cases (hlength : new.length = s.cost)
    (hx : x ∈ (s.wrapper new b).preorder) :
    x ∈ b.preorder ∨ s.change x = x ∧ ∃ i ∈ new, x.id? = some i := by
  have hcarrier : x ∈ (s.carrier (new.headD "") b).preorder →
      x ∈ b.preorder ∨ s.change x = x ∧ ∃ i ∈ new, x.id? = some i := by
    intro hx
    rcases Node.mem_preorder_iff.mp hx with rfl | ⟨ch, hch, hx⟩
    · exact .inr ⟨change_carrier _ _ _, _, headD_mem hlength, id?_carrier _ _ _⟩
    · rw [children_carrier, List.mem_singleton] at hch
      exact .inl (hch ▸ hx)
  cases s with
  | brace above caption =>
    obtain ⟨id, script, ids, rfl⟩ : ∃ id script ids, new = id :: script :: ids := by
      match new, hlength with
      | id :: script :: ids, _ => exact ⟨id, script, ids, rfl⟩
    rcases Node.mem_preorder_iff.mp hx with rfl | ⟨ch, hch, hx⟩
    · refine .inr ⟨?_, script, by simp, id?_captioned _ _ _ _⟩
      rw [wrapper, change]
      cases above <;> rfl
    · rw [wrapper, children_captioned] at hch
      rcases List.mem_pair.mp hch with rfl | rfl
      · exact hcarrier hx
      · obtain ⟨hkind, hscript, i, hi⟩ := kind_of_mem_label hx
        refine .inr ⟨change_of_not_kind hkind hscript, i, ?_, hi⟩
        have hids : (label caption ids).ids.Perm ids := ids_label (by simpa [cost] using hlength)
        have hmem : i ∈ ids := hids.subset (Node.mem_ids_iff.mpr ⟨x, hx, hi⟩)
        simp [hmem]
  | _ => exact hcarrier hx

theorem mem_preorder_make_cases (hlength : new.length = s.count c selected b)
    (hx : x ∈ (s.make c selected new b).preorder) :
    x ∈ (s.own selected b).preorder ∨ s.change x = x ∧ ∃ i ∈ new, x.id? = some i := by
  unfold make at hx
  unfold count at hlength
  unfold own
  split at hx
  next hfinds =>
    rw [if_pos hfinds]
    exact .inl hx
  next hfinds =>
    rw [if_neg hfinds] at hlength ⊢
    split at hx
    next hwraps => exact mem_preorder_wrapper_cases (by rwa [if_pos hwraps] at hlength) hx
    next => exact .inl hx

/-- Every node of the result is one that there was, changed or not, or it is new and needs no change. -/
theorem mem_preorder_applyAll (h : Formula.Made (s.maker f selected) f fresh r) (hn : n ∈ f.nodes)
    (hx : x ∈ ((s.maker f selected).applyAll fresh n).preorder) :
    (∃ m ∈ f.nodes, x = s.own selected ((s.maker f selected).rebuilt fresh m)) ∨
      s.change x = x ∧ ∃ i, x.id? = some i ∧ i ∉ f.ids := by
  induction n using Node.childrenInduction with
  | step n ih =>
    have hlength := h.fed_of_mem hn n n.self_mem_preorder
    rw [Maker.applyAll_eq] at hx
    rcases mem_preorder_make_cases hlength hx with hx | ⟨hchange, i, hi, hid⟩
    · rcases Node.mem_preorder_iff.mp hx with rfl | ⟨y, hy, hx⟩
      · exact .inl ⟨n, hn, rfl⟩
      · have hbelow := (s.children_own_sublist selected _).subset hy
        rw [Maker.children_rebuilt] at hbelow
        obtain ⟨ch, hch, rfl⟩ := List.mem_map.mp hbelow
        exact ih ch hch (Formula.mem_nodes_of_child hn hch) hx
    · refine .inr ⟨hchange, i, hid, h.new i ?_⟩
      rw [Supply.of_eq] at hi
      obtain ⟨q, hq, hi⟩ := List.mem_flatMap.mp hi
      exact List.mem_flatMap.mpr ⟨q, Formula.mem_ids_iff.mpr ⟨n, hn, Option.mem_toList.mp hq⟩, hi⟩

theorem mem_nodes_cases (h : Formula.Made (s.maker f selected) f fresh r) (hx : x ∈ r.nodes) :
    (∃ m ∈ f.nodes, x = s.own selected ((s.maker f selected).rebuilt fresh m)) ∨
      s.change x = x ∧ ∃ i, x.id? = some i ∧ i ∉ f.ids := by
  obtain ⟨t, ht, hx⟩ := List.mem_flatMap.mp hx
  rw [h.children_eq] at ht
  obtain ⟨n, hn, rfl⟩ := List.mem_map.mp ht
  exact mem_preorder_applyAll h (Formula.mem_nodes_of_top hn) hx

theorem captionsSelected_change (hs : s.kind = .brace) :
    (s.change b).captionsSelected selected = b.captionsSelected selected := by
  cases s with
  | brace above =>
    cases b with
    | script => cases above <;> rfl
    | _ => rfl
  | _ => cases hs

/-- What a command changes it would find again. -/
theorem finds_own (h : s.finds selected b) : s.finds selected (s.own selected b) := by
  have hcases : b.kind = s.kind ∧ b.touchedBy selected ∨ s.kind = .brace ∧ b.captionsSelected selected := by
    simpa [finds] using h
  rcases hcases with ⟨hkind, htouched⟩ | ⟨hs, hcaptions⟩
  · simp [finds, kind_own, hkind, touchedBy_own hkind, htouched]
  · rw [own, if_pos h]
    simp [finds, hs, captionsSelected_change hs, hcaptions]

section

variable (hselected : ∀ i ∈ r.ids, i ∈ selected' ↔ i ∈ selected)

include hselected

theorem selectedIn_of_left (hx : x ∈ r.nodes) : x.selectedIn selected' = x.selectedIn selected := by
  unfold Node.selectedIn
  cases hid : x.id? with
  | none => rfl
  | some i => simp [hselected i (Formula.mem_ids_iff.mpr ⟨x, hx, hid⟩)]

theorem touchedBy_of_left (hx : x ∈ r.nodes) : x.touchedBy selected' = x.touchedBy selected := by
  have hchildren : x.children.any (·.selectedIn selected') = x.children.any (·.selectedIn selected) := by
    rw [Bool.eq_iff_iff, List.any_eq_true, List.any_eq_true]
    refine exists_congr fun ch => and_congr_right fun hch => ?_
    rw [selectedIn_of_left hselected (Formula.mem_nodes_of_child hx hch)]
  rw [Node.touchedBy, Node.touchedBy, selectedIn_of_left hselected hx, hchildren]

/-- What is left of the selection finds the same carriers. -/
theorem finds_of_left (hx : x ∈ r.nodes) : s.finds selected' x = s.finds selected x := by
  have hcaptions : x.captionsSelected selected' = x.captionsSelected selected := by
    cases x with
    | script id base sub sup =>
      have hbase : base ∈ r.nodes := Formula.mem_nodes_of_child hx List.mem_cons_self
      rw [Node.captionsSelected, Node.captionsSelected, braceSelected_eq, braceSelected_eq,
        touchedBy_of_left hselected hbase]
    | _ => rfl
  rw [finds, finds, touchedBy_of_left hselected hx, hcaptions]

end

theorem kind_of_carries (h : s.Carries n) : n.kind = s.kind := by
  cases s <;> cases n <;> first | rfl | cases h

/-- The second time there is nothing to do: a node in which a carrier is found is as it should be, and
no other node is outside a carrier. -/
theorem done_of_made (h : Formula.Made (s.maker f selected) f fresh r)
    (hselected : ∀ i ∈ selected, i ∈ f.ids) (hx : x ∈ r.nodes) :
    (s.finds (selected.filter (· ∈ r.ids)) x → s.change x = x) ∧
      (¬ s.finds (selected.filter (· ∈ r.ids)) x → ¬ s.wraps r (selected.filter (· ∈ r.ids)) x) := by
  have hleft : ∀ i ∈ r.ids, i ∈ selected.filter (· ∈ r.ids) ↔ i ∈ selected := by
    intro i hi
    simp [hi]
  rw [finds_of_left hleft hx]
  rcases mem_nodes_cases h hx with ⟨m, hm, rfl⟩ | ⟨hchange, i, hid, hnew⟩
  · cases hfinds : s.finds selected m with
    | true =>
      have hb : s.finds selected ((s.maker f selected).rebuilt fresh m) := (finds_rebuilt hm).trans hfinds
      refine ⟨fun _ => ?_, fun hnot => absurd (finds_own hb) hnot⟩
      rw [own, if_pos hb, change_change]
    | false =>
      have hown : s.own selected ((s.maker f selected).rebuilt fresh m) =
          (s.maker f selected).rebuilt fresh m := by
        rw [own, finds_rebuilt hm, hfinds]
        exact if_neg Bool.false_ne_true
      rw [hown] at hx ⊢
      rw [finds_rebuilt hm, hfinds]
      refine ⟨fun hfalse => absurd hfalse Bool.false_ne_true, fun _ hwraps => ?_⟩
      rw [wraps, Bool.and_eq_true, Node.selectedIn_iff, Formula.parentIs] at hwraps
      obtain ⟨⟨i, hi, hid⟩, hparent⟩ := hwraps
      obtain ⟨hi, hir⟩ := List.mem_filter.mp hi
      have hmid : m.id? = some i := (Maker.id?_rebuilt _ _ _).symm.trans hid
      have hkept := not_loses_of_mem_ids h (hselected i hi) (of_decide_eq_true hir)
      obtain ⟨p, hp, hcarries⟩ := exists_parent_of_selected h hm hmid hi hkept hfinds
      rw [hid, Option.bind_some, hp, Option.any_some, decide_eq_true (kind_of_carries hcarries)] at hparent
      cases hparent
  · refine ⟨fun _ => hchange, fun _ hwraps => ?_⟩
    rw [wraps, Bool.and_eq_true, Node.selectedIn_iff] at hwraps
    obtain ⟨j, hj, hjd⟩ := hwraps.1
    rw [hid] at hjd
    cases hjd
    exact hnew (hselected i (List.mem_of_mem_filter hj))

theorem wrapTarget_eq_pure {wrap : Node → Minting Node} (hwraps : ¬ s.wraps c selected b) :
    wrapTarget s.kind wrap c selected b = pure none :=
  if_neg hwraps

/-- A visitor that finds no node to wrap draws nothing. -/
theorem visit_eq_pure (hchange : s.finds selected b → s.change b = b)
    (hwraps : ¬ s.finds selected b → ¬ s.wraps c selected b) :
    ∃ o : Option Node, s.visit c selected b = pure o ∧ o.getD b = b := by
  cases s with
  | color col =>
    have hiff : (color col).finds selected b ↔ b.kind = .color ∧ b.touchedBy selected := finds_iff Kind.noConfusion
    rw [visit, Formula.colorTarget_eq]
    split
    next h => exact ⟨_, rfl, hchange (hiff.mpr h)⟩
    next h => exact ⟨none, wrapTarget_eq_pure (hwraps (mt hiff.mp h)), rfl⟩
  | box border background =>
    have hiff : (box border background).finds selected b ↔ b.kind = .box ∧ b.touchedBy selected :=
      finds_iff Kind.noConfusion
    rw [visit, Formula.boxTarget_eq]
    split
    next h => exact ⟨_, rfl, hchange (hiff.mpr h)⟩
    next h => exact ⟨none, wrapTarget_eq_pure (hwraps (mt hiff.mp h)), rfl⟩
  | strike =>
    have hiff : strike.finds selected b ↔ b.kind = .strike ∧ b.touchedBy selected := finds_iff Kind.noConfusion
    rw [visit, strikeTarget]
    split
    next => exact ⟨none, rfl, rfl⟩
    next hkind => exact ⟨none, wrapTarget_eq_pure (hwraps fun h => hkind (hiff.mp h).1), rfl⟩
  | brace above caption =>
    obtain ⟨o, ho, heq⟩ := exists_braceTarget_eq above caption c selected b
    rw [visit, heq]
    split
    next h => exact ⟨o, rfl, ho.trans (hchange h)⟩
    next h => exact ⟨none, wrapTarget_eq_pure (hwraps h), rfl⟩

end Styling

namespace Formula

/-- A style command given twice. On single nodes the second run gives the formula of the first one, and
draws no id, whatever it could draw them from. -/
theorem apply_apply (s : Styling) (f : Formula) (runs : List (List String)) (m : Minter)
    (hruns : ∀ run ∈ runs, ∃ i ∈ f.ids, run = [i]) :
    (s.apply f runs).Ensures (m.pool f.ids) m fun e _ => ∀ m₂ : Minter, ∃ e',
      (s.apply e.formula runs).run m₂ = (.ok e', { m₂ with taken := e.formula.ids }) ∧
        e'.formula = e.formula := by
  refine (s.ensures_apply f runs m).mono fun e _ h m₂ => ?_
  obtain ⟨c, targets, m', fresh, hrun, -, hmade⟩ := h
  have hsingle : ∀ run ∈ runs, run.length = 1 := by
    intro run hrun
    obtain ⟨i, -, rfl⟩ := hruns run hrun
    rfl
  have hids : ∀ i ∈ runs.flatten, i ∈ f.ids := by
    intro i hi
    obtain ⟨run, hrun, hi⟩ := List.mem_flatten.mp hi
    obtain ⟨j, hj, rfl⟩ := hruns run hrun
    rwa [List.mem_singleton.mp hi]
  -- the first run leaves the selected nodes in place, and so does the second
  rw [consolidate, consolidateRuns_single hsingle] at hrun
  cases hrun
  rw [filterMap_targets hsingle, List.filter_eq_self.mpr (by simpa using hids)] at hmade
  have hvisit : ∀ x ∈ e.formula.nodes, ∃ o : Option Node,
      s.visit e.formula (runs.flatten.filter (· ∈ e.formula.ids)) x = pure o ∧ o.getD x = x := by
    intro x hx
    obtain ⟨hchange, hwraps⟩ := Styling.done_of_made hmade hids hx
    exact Styling.visit_eq_pure hchange hwraps
  obtain ⟨changed, hrewrite⟩ := rewrite_eq_self hvisit
  refine ⟨⟨e.formula, false || changed⟩, ?_, rfl⟩
  rw [Styling.apply_eq, restyle, consolidate, consolidateRuns_single hsingle]
  simp only [bind_assoc, pure_bind, filterMap_targets hsingle, hrewrite]
  rfl

theorem apply_apply_of_fraction : ∃ f : Formula,
    f.children = [.frac "f" (.symbol "a" "x") (.symbol "b" "y")] ∧
    (∀ run ∈ [["a"], ["f"]], ∃ i ∈ f.ids, run = [i]) ∧
    ((Styling.brace true "n").apply f [["a"], ["f"]]).Ensures
      ((Minter.mk [] (.counting "n" 1)).pool f.ids) ⟨[], .counting "n" 1⟩ fun e _ =>
        ∀ m₂ : Minter, ∃ e', ((Styling.brace true "n").apply e.formula [["a"], ["f"]]).run m₂ =
          (.ok e', { m₂ with taken := e.formula.ids }) ∧ e'.formula = e.formula := by
  obtain ⟨f, hf⟩ : ∃ f : Formula, f.children = [.frac "f" (.symbol "a" "x") (.symbol "b" "y")] :=
    ⟨⟨_, by decide +kernel⟩, rfl⟩
  have hids : f.ids = ["f", "a", "b"] := by
    rw [ids, hf]
    decide +kernel
  have hruns : ∀ run ∈ [["a"], ["f"]], ∃ i ∈ f.ids, run = [i] := by
    simp [hids]
  exact ⟨f, hf, hruns, apply_apply (.brace true "n") f [["a"], ["f"]] _ hruns⟩

end Formula

end FormulaDoc
