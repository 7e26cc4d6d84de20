import FormulaDoc.Proofs.Styled

namespace FormulaDoc

theorem Node.mem_ids_of_selectedIn {selected : List String} {n : Node} (h : n.selectedIn selected) :
    ∃ t ∈ selected, t ∈ n.ids := by
  obtain ⟨t, ht, hid⟩ := Node.selectedIn_iff.mp h
  exact ⟨t, ht, Node.mem_ids_of_id? hid⟩

namespace Styling

variable {s : Styling} {c r : Formula} {selected : List String} {fresh : Supply} {n p : Node}
  {t : String}

/-- A selected brace, or the selected body of one, is in the tree of the brace. -/
theorem mem_ids_of_braceSelected {base : Node} (h : braceSelected selected base) :
    ∃ t ∈ selected, t ∈ base.ids := by
  rw [braceSelected_eq, Bool.and_eq_true, Node.touchedBy, Bool.or_eq_true, List.any_eq_true] at h
  rcases h.2 with hself | ⟨ch, hch, hsel⟩
  · exact Node.mem_ids_of_selectedIn hself
  · obtain ⟨t, ht, hid⟩ := Node.mem_ids_of_selectedIn hsel
    exact ⟨t, ht, Node.ids_subset_of_child hch t hid⟩

/-- What alone is selected is not in a caption: a caption is dropped when its brace is selected. -/
theorem not_loses_of_selected (h : s.kind = .brace → selected = [t]) : ¬ s.Loses c selected t := by
  intro hloses
  obtain ⟨hs, q, base, sub, sup, hq, hsel, hid⟩ := loses_iff.mp hloses
  obtain ⟨t', ht', hbase⟩ := mem_ids_of_braceSelected hsel
  rw [h hs, List.mem_singleton] at ht'
  subst ht'
  have hdropped : s.dropped selected (.script q base (some sub) (some sup)) = some sub :=
    if_pos ⟨hs, hsel⟩
  refine not_mem_heirs_of_dropped (Formula.nodup_ids hq) hdropped hid base ?_ hbase
  rw [heirs, if_pos ⟨hs, hsel⟩]
  exact List.mem_cons_self

/-- A caption that is dropped takes whole trees. -/
theorem Loses.below {i : String} (hp : p ∈ c.nodes) (hpid : p.id? = some i) (hn : n ∈ p.preorder)
    (hid : n.id? = some t) (h : s.Loses c selected i) : s.Loses c selected t := by
  obtain ⟨q, hq, l, hl, hmem⟩ := h
  obtain ⟨p', hp', hp'id⟩ := Node.mem_ids_iff.mp hmem
  have hlc : l ∈ c.nodes := Formula.mem_nodes_of_child hq (mem_children_of_dropped hl)
  have hp'c : p' ∈ c.nodes := Formula.mem_nodes_of_mem_preorder hlc hp'
  rw [Formula.eq_of_mem_nodes hp'c hp hp'id hpid] at hp'
  exact ⟨q, hq, l, hl, Node.mem_ids_iff.mpr ⟨n, Node.mem_preorder_trans hp' hn, hid⟩⟩

/-- A script around a selected brace is not selected alone. -/
theorem captionsSelected_of_selected (hn : n ∈ c.nodes) (hid : n.id? = some t) :
    n.captionsSelected [t] = false := by
  refine Bool.eq_false_iff.mpr fun h => ?_
  cases n with
  | script q base sub sup =>
    obtain ⟨t', ht', hbase⟩ := mem_ids_of_braceSelected h
    cases List.mem_singleton.mp ht'
    have hnodup := Formula.nodup_ids hn
    rw [Node.ids_eq, hid] at hnodup
    refine (List.nodup_cons.mp hnodup).1 (List.mem_flatMap.mpr ⟨base, ?_, hbase⟩)
    exact List.mem_cons_self
  | _ => cases h

theorem kind_of_finds (hn : n ∈ c.nodes) (hid : n.id? = some t)
    (hsingle : s.kind = .brace → selected = [t]) (h : s.finds selected n) : n.kind = s.kind := by
  simp only [finds, Bool.or_eq_true, Bool.and_eq_true, decide_eq_true_eq] at h
  rcases h with h | ⟨hs, h⟩
  · exact h.1
  · rw [hsingle hs, captionsSelected_of_selected hn hid] at h
    cases h

/-- The parent of a target, where it is a carrier, is changed. -/
theorem carries_own_of_child (hp : p ∈ c.nodes) (hkind : p.kind = s.kind) (hch : n ∈ p.children)
    (hsel : n.selectedIn selected) :
    s.Carries (s.own selected ((s.maker c selected).rebuilt fresh p)) ∧
      (s.maker c selected).applyAll fresh n ∈
        (s.own selected ((s.maker c selected).rebuilt fresh p)).children := by
  have hfinds : s.finds selected ((s.maker c selected).rebuilt fresh p) := by
    rw [finds_rebuilt hp, finds, hkind, Node.touchedBy, List.any_eq_true.mpr ⟨n, hch, hsel⟩]
    simp
  have hb : ((s.maker c selected).rebuilt fresh p).kind = s.kind :=
    (Maker.kind_rebuilt _ _ _).trans hkind
  rw [own, if_pos hfinds]
  refine ⟨carries_change hb, ?_⟩
  rw [children_change hb, Maker.children_rebuilt]
  exact List.mem_map_of_mem hch

section

variable (h : Formula.Made (s.maker c selected) c fresh r)

include h

/-- A target that is wrapped stands in a new carrier. -/
theorem exists_carrier_of_wraps (hn : n ∈ c.nodes) (hid : n.id? = some t)
    (hkept : ¬ s.Loses c selected t) (hfinds : s.finds selected n = false)
    (hwraps : s.wraps c selected n) :
    ∃ w ∈ r.nodes, s.Carries w ∧ w.children = [(s.maker c selected).rebuilt fresh n] := by
  obtain ⟨top, htop, hw⟩ := List.mem_flatMap.mp (applyAll_mem_nodes h hn hid hkept)
  have hmake : (s.maker c selected).applyAll fresh n =
      s.wrapper (fresh.of n) ((s.maker c selected).rebuilt fresh n) := by
    have hnot : ¬ s.finds selected ((s.maker c selected).rebuilt fresh n) := by
      rw [finds_rebuilt hn, hfinds]
      nofun
    rw [Maker.applyAll_eq]
    exact (if_neg hnot).trans (if_pos ((s.wraps_rebuilt c selected fresh n).trans hwraps))
  rw [hmake] at hw
  refine ⟨s.carrier ((fresh.of n).headD "") ((s.maker c selected).rebuilt fresh n), ?_,
    carries_carrier _ _ _, children_carrier _ _ _⟩
  have hinside := Node.mem_preorder_trans hw (mem_preorder_wrapper (Node.self_mem_preorder _))
  exact List.mem_flatMap.mpr ⟨top, htop, hinside⟩

/-- A selected node in which no carrier is found ends up directly inside a carrier: a new one, or the
one that is its parent already. -/
theorem exists_parent_of_selected (hn : n ∈ c.nodes) (hid : n.id? = some t) (ht : t ∈ selected)
    (hkept : ¬ s.Loses c selected t) (hfinds : s.finds selected n = false) :
    ∃ p, r.parent? t = some p ∧ s.Carries p := by
  have hsel : n.selectedIn selected := Node.selectedIn_iff.mpr ⟨t, ht, hid⟩
  have hownid : (s.own selected ((s.maker c selected).rebuilt fresh n)).id? = some t := by
    rw [id?_own, Maker.id?_rebuilt, hid]
  cases hwraps : s.wraps c selected n with
  | true =>
    obtain ⟨w, hw, hcarries, hchildren⟩ := exists_carrier_of_wraps h hn hid hkept hfinds hwraps
    refine ⟨w, Formula.parent?_of_child hw (hchildren ▸ List.mem_singleton_self _) ?_, hcarries⟩
    rw [Maker.id?_rebuilt, hid]
  | false =>
    have hparent : c.parentIs s.kind n = true := by simpa [wraps, hsel] using hwraps
    rw [Formula.parentIs, hid, Option.bind_some, Option.any_eq_true] at hparent
    obtain ⟨p, hp, hkind⟩ := hparent
    have hpc : p ∈ c.nodes := Formula.mem_nodes_of_parent? hp
    have hch : n ∈ p.children := Formula.mem_children_of_parent? hp hn hid
    obtain ⟨hcarries, hchild⟩ := carries_own_of_child hpc (of_decide_eq_true hkind) hch hsel
    rw [applyAll_of_not_wraps hwraps] at hchild
    cases hpid : p.id? with
    | none => exact absurd hch (by simp [Node.children_eq_nil_of_id? hpid])
    | some i =>
      have hpkept : ¬ s.Loses c selected i := fun hloses =>
        hkept (hloses.below hpc hpid (Node.mem_preorder_of_child hch n.self_mem_preorder) hid)
      exact ⟨_, Formula.parent?_of_child (own_mem_nodes h hpc hpid hpkept) hchild hownid, hcarries⟩

/-- A selected node ends up styled. -/
theorem exists_carrier (hn : n ∈ c.nodes) (hid : n.id? = some t) (ht : t ∈ selected)
    (hsingle : s.kind = .brace → selected = [t]) :
    ∃ n', r.find? t = some n' ∧ (s.Carries n' ∨ ∃ p, r.parent? t = some p ∧ s.Carries p) := by
  have hkept : ¬ s.Loses c selected t := not_loses_of_selected hsingle
  have hown := own_mem_nodes h hn hid hkept
  have hownid : (s.own selected ((s.maker c selected).rebuilt fresh n)).id? = some t := by
    rw [id?_own, Maker.id?_rebuilt, hid]
  refine ⟨_, Formula.find?_eq hown hownid, ?_⟩
  cases hfinds : s.finds selected n with
  | true =>
    have hkind := kind_of_finds hn hid hsingle hfinds
    rw [own, finds_rebuilt hn, if_pos hfinds]
    exact .inl (carries_change ((Maker.kind_rebuilt _ _ _).trans hkind))
  | false => exact .inr (exists_parent_of_selected h hn hid ht hkept hfinds)

end

end Styling

namespace Formula

/-- Every target of a style command ends up styled: in the result it is a carrier with the attributes
that were asked for, or its parent is. A brace is put around one run only. -/
theorem styled_targets (s : Styling) (f : Formula) (runs : List (List String)) (m : Minter)
    (hsingle : s.kind = .brace → runs.length = 1) :
    (s.apply f runs).Ensures (m.pool f.ids) m fun e _ => ∃ c targets m',
      (consolidate false f runs).run m = (.ok (c, targets), m') ∧
      ∀ t, some t ∈ targets → ∃ n, e.formula.find? t = some n ∧
        (s.Carries n ∨ ∃ p, e.formula.parent? t = some p ∧ s.Carries p) := by
  refine (s.ensures_apply f runs m).mono fun e _ h => ?_
  obtain ⟨c, targets, m', fresh, hrun, hgroups, hmade⟩ := h
  refine ⟨c, targets, m', hrun, ?_⟩
  intro t ht
  obtain ⟨n, hn, hid⟩ := mem_ids_iff.mp (hgroups.mem t ht)
  have hselected : t ∈ targets.filterMap id := List.mem_filterMap.mpr ⟨some t, ht, rfl⟩
  refine Styling.exists_carrier hmade hn hid hselected fun hs => ?_
  have hlength : targets.length = 1 := hgroups.length.trans (hsingle hs)
  obtain ⟨target, rfl⟩ := List.length_eq_one_iff.mp hlength
  cases List.mem_singleton.mp ht
  rfl

/-- A brace around the numerator of a fraction. -/
theorem styled_targets_of_fraction : ∃ f : Formula,
    f.children = [.frac "f" (.symbol "a" "x") (.symbol "b" "y")] ∧
    ((Styling.brace true "n").kind = .brace → [["a"]].length = 1) ∧
    ((Styling.brace true "n").apply f [["a"]]).Ensures
      ((Minter.mk [] (.counting "n" 1)).pool f.ids) ⟨[], .counting "n" 1⟩ fun e _ => ∃ c targets m',
        (consolidate false f [["a"]]).run ⟨[], .counting "n" 1⟩ = (.ok (c, targets), m') ∧
        ∀ t, some t ∈ targets → ∃ n, e.formula.find? t = some n ∧
          ((Styling.brace true "n").Carries n ∨
            ∃ p, e.formula.parent? t = some p ∧ (Styling.brace true "n").Carries p) :=
  ⟨⟨[.frac "f" (.symbol "a" "x") (.symbol "b" "y")], by decide +kernel⟩, rfl, fun _ => rfl,
    styled_targets (.brace true "n") _ [["a"]] _ fun _ => rfl⟩

end Formula

end FormulaDoc
