import FormulaDoc.Proofs.Styling

namespace FormulaDoc

namespace Styling

variable {s : Styling} {c : Formula} {selected new : List String} {b n m ch : Node} {fresh : Supply}
  {id : String}

/-- The node itself after a command, without a wrapper around it. -/
def own (s : Styling) (selected : List String) (b : Node) : Node :=
  if s.finds selected b then s.change b else b

theorem id?_own (s : Styling) (selected : List String) (b : Node) :
    (s.own selected b).id? = b.id? := by
  unfold own
  split
  next => exact s.id?_change b
  next => rfl

theorem kind_own (s : Styling) (selected : List String) (b : Node) :
    (s.own selected b).kind = b.kind := by
  unfold own
  split
  next => exact s.kind_change b
  next => rfl

theorem own_mem_make (s : Styling) (c : Formula) (selected new : List String) (b : Node) :
    s.own selected b ∈ (s.make c selected new b).preorder := by
  unfold own make
  split
  next => exact Node.self_mem_preorder _
  next =>
    split
    next =>
      refine mem_preorder_wrapper (Node.mem_preorder_of_child ?_ b.self_mem_preorder)
      rw [children_carrier]
      exact List.mem_singleton_self b
    next => exact b.self_mem_preorder

theorem make_of_not_wraps (h : s.wraps c selected b = false) :
    s.make c selected new b = s.own selected b := by
  simp [make, own, h]

/-- The colors that a command is given. -/
def names : Styling → List String
  | color c => [c]
  | box border background => [border, background]
  | _ => []

theorem mem_names_change {name : String} (hname : name ∈ (s.change n).names) :
    name ∈ s.names ∨ name ∈ n.names := by
  cases s with
  | color c => cases n <;> first | exact .inr hname | exact .inl hname
  | box border background => cases n <;> first | exact .inr hname | exact .inl hname
  | strike => exact .inr hname
  | brace above caption =>
    cases n with
    | script => cases above <;> cases hname
    | _ => exact .inr hname

theorem mem_names_own {name : String} (hname : name ∈ (s.own selected n).names) :
    name ∈ s.names ∨ name ∈ n.names := by
  unfold own at hname
  split at hname
  next => exact mem_names_change hname
  next => exact .inr hname

/-- The caption that a command drops from a node: of the two captions of a selected brace the lower
one. -/
def dropped (s : Styling) (selected : List String) : Node → Option Node
  | .script _ base (some sub) (some _) =>
    if s.kind = .brace ∧ braceSelected selected base then some sub else none
  | _ => none

theorem mem_children_of_dropped {l : Node} (h : s.dropped selected n = some l) : l ∈ n.children := by
  unfold dropped at h
  split at h
  next =>
    obtain ⟨-, h⟩ := Option.ite_none_right_eq_some.mp h
    cases h
    simp [Node.children]
  next => cases h

/-- The children that a command leaves in a node. -/
def heirs (s : Styling) (selected : List String) : Node → List Node
  | .script _ base (some sub) (some sup) =>
    if s.kind = .brace ∧ braceSelected selected base then [base, sup] else [base, sub, sup]
  | n => n.children

theorem heirs_sublist (s : Styling) (selected : List String) (n : Node) :
    (s.heirs selected n).Sublist n.children := by
  unfold heirs
  split
  next id base sub sup =>
    split
    next =>
      have hone : [sup].Sublist [sub, sup] := List.sublist_cons_self sub [sup]
      exact hone.cons_cons base
    next => exact .refl _
  next => exact .refl _

theorem mem_heirs_or_dropped (h : ch ∈ n.children) :
    ch ∈ s.heirs selected n ∨ s.dropped selected n = some ch := by
  unfold heirs dropped
  split
  next id base sub sup =>
    split
    next =>
      have hcases : ch = base ∨ ch = sub ∨ ch = sup := by simpa [Node.children] using h
      rcases hcases with rfl | rfl | rfl <;> simp
    next => exact .inl h
  next => exact .inl h

/-- No heir shares an id with the caption that is dropped. -/
theorem not_mem_heirs_of_dropped {l : Node} (hn : n.ids.Nodup) (hl : s.dropped selected n = some l)
    (hid : id ∈ l.ids) : ∀ ch ∈ s.heirs selected n, id ∉ ch.ids := by
  unfold dropped at hl
  split at hl
  next script base sub sup =>
    split at hl
    next hsel =>
      cases hl
      rw [Node.ids_eq] at hn
      have hn : (base.ids ++ (l.ids ++ sup.ids)).Nodup := by
        simpa [Node.children, Node.id?] using hn.of_append_right
      rw [List.nodup_append', List.nodup_append'] at hn
      intro ch hch
      rw [heirs, if_pos hsel] at hch
      rcases List.mem_pair.mp hch with rfl | rfl
      · exact fun hmem => hn.2.2 hmem (List.mem_append_left _ hid)
      · exact fun hmem => hn.2.1.2.2 hid hmem
    next => cases hl
  next => cases hl

theorem heirs_of_not_finds (h : s.finds selected b = false) : s.heirs selected b = b.children := by
  unfold heirs
  split
  next id base sub sup =>
    refine if_neg fun hsel => ?_
    simp [finds, Node.captionsSelected, hsel] at h
  next => rfl

theorem children_change_of_finds (h : s.finds selected b) :
    (s.change b).children = s.heirs selected b := by
  by_cases hkind : b.kind = s.kind
  · rw [children_change hkind]
    unfold heirs
    split
    next id base sub sup => exact (if_neg fun hsel => by rw [hsel.1] at hkind; cases hkind).symm
    next => rfl
  · have hsel : s.kind = .brace ∧ b.captionsSelected selected := by simpa [finds, hkind] using h
    cases s with
    | brace above caption =>
      cases b with
      | script id base sub sup =>
        rw [change, Node.turn, children_captioned]
        cases sub <;> cases sup <;> first | rfl | exact (if_pos hsel).symm
      | _ => cases hsel.2
    | _ => cases hsel.1

theorem children_own_sublist (s : Styling) (selected : List String) (b : Node) :
    (s.own selected b).children.Sublist b.children := by
  unfold own
  split
  next h =>
    rw [children_change_of_finds h]
    exact s.heirs_sublist selected b
  next => exact .refl _

/-- What is in an heir is in what a command makes. -/
theorem mem_preorder_make {y : Node} (hy : y ∈ s.heirs selected b) (hm : m ∈ y.preorder) :
    m ∈ (s.make c selected new b).preorder := by
  unfold make
  split
  next h =>
    refine Node.mem_preorder_of_child ?_ hm
    rwa [children_change_of_finds h]
  next h =>
    have hb : m ∈ b.preorder :=
      Node.mem_preorder_of_child ((s.heirs_sublist selected b).subset hy) hm
    split
    next =>
      refine mem_preorder_wrapper (Node.mem_preorder_of_child ?_ hb)
      rw [children_carrier]
      exact List.mem_singleton_self b
    next => exact hb

/-- Besides the ids that are drawn only the node and the heirs have ids. -/
theorem mem_ids_make (h : new.length = s.count c selected b)
    (hid : id ∈ (s.make c selected new b).ids) :
    id ∈ new ∨ b.id? = some id ∨ ∃ y ∈ s.heirs selected b, id ∈ y.ids := by
  have hnode : ∀ x : Node, x.id? = b.id? → x.children = s.heirs selected b → id ∈ x.ids →
      b.id? = some id ∨ ∃ y ∈ s.heirs selected b, id ∈ y.ids := by
    intro x hxid hx hmem
    rw [x.ids_eq, hxid, hx, List.mem_append, Option.mem_toList, List.mem_flatMap] at hmem
    exact hmem
  unfold make at hid
  unfold count at h
  split at hid
  next hfinds => exact .inr (hnode _ (s.id?_change b) (children_change_of_finds hfinds) hid)
  next hfinds =>
    have hb := hnode b rfl (heirs_of_not_finds (Bool.eq_false_iff.mpr hfinds)).symm
    rw [if_neg hfinds] at h
    split at hid
    next hwraps =>
      rw [if_pos hwraps] at h
      have hparts : id ∈ new ++ b.ids := (ids_wrapper h).mem_iff.mp hid
      rcases List.mem_append.mp hparts with hnew | hold
      · exact .inl hnew
      · exact .inr (hb hold)
    next => exact .inr (hb hid)

theorem heirs_of_kind (h : n.kind ≠ .script) : s.heirs selected n = n.children := by
  cases n with
  | script => exact absurd rfl h
  | _ => rfl

theorem braceSelected_eq (selected : List String) (n : Node) :
    braceSelected selected n = (decide (n.kind = .brace) && n.touchedBy selected) := by
  cases n with
  | brace => simp [braceSelected, Node.touchedBy, Node.selectedIn, Node.kind, Node.id?, Node.children]
  | _ => rfl

theorem wraps_rebuilt (s : Styling) (c : Formula) (selected : List String) (fresh : Supply) (n : Node) :
    s.wraps c selected ((s.maker c selected).rebuilt fresh n) = s.wraps c selected n := by
  simp [wraps, Node.selectedIn, Formula.parentIs, Maker.id?_rebuilt]

/-- A node directly inside a carrier is not wrapped. -/
theorem wraps_of_parent {p : Node} (hp : p ∈ c.nodes) (hkind : p.kind = s.kind)
    (hch : ch ∈ p.children) : s.wraps c selected ch = false := by
  cases hid : ch.id? with
  | none => simp [wraps, Node.selectedIn, hid]
  | some id => simp [wraps, Formula.parentIs, hid, Formula.parent?_of_child hp hch hid, hkind]

theorem applyAll_of_not_wraps (h : s.wraps c selected n = false) :
    (s.maker c selected).applyAll fresh n =
      s.own selected ((s.maker c selected).rebuilt fresh n) := by
  rw [Maker.applyAll_eq]
  exact make_of_not_wraps ((s.wraps_rebuilt c selected fresh n).trans h)

theorem rebuilt_rebuilt (hn : n ∈ c.nodes) :
    Formula.Rebuilt s.kind n ((s.maker c selected).rebuilt fresh n) := by
  refine ⟨Maker.kind_rebuilt _ _ _, Maker.id?_rebuilt _ _ _, fun hkind => ?_⟩
  rw [Maker.children_rebuilt, List.map_map]
  refine List.map_congr_left fun ch hch => ?_
  rw [Function.comp_apply, applyAll_of_not_wraps (wraps_of_parent hn hkind hch), id?_own,
    Maker.id?_rebuilt]

theorem touchedBy_own (h : b.kind = s.kind) :
    (s.own selected b).touchedBy selected = b.touchedBy selected := by
  have hchildren : (s.own selected b).children = b.children := by
    unfold own
    split
    next => exact children_change h
    next => rfl
  rw [Node.touchedBy, Node.touchedBy, hchildren, Node.selectedIn, Node.selectedIn, id?_own]

/-- A carrier is never wrapped in another one of its kind. -/
theorem make_of_kind (h : b.kind = s.kind) : s.make c selected new b = s.own selected b := by
  cases hfinds : s.finds selected b with
  | true => simp [make, own, hfinds]
  | false =>
    refine make_of_not_wraps (Bool.eq_false_iff.mpr fun hwraps => ?_)
    rw [wraps, Bool.and_eq_true] at hwraps
    rw [finds_of_selectedIn h hwraps.1] at hfinds
    cases hfinds

/-- A new brace stands in a script, so nothing but a brace is made a brace. -/
theorem kind_make_ne (hs : s.kind = .brace) (h : b.kind ≠ .brace) :
    (s.make c selected new b).kind ≠ .brace := by
  have hwrapper : (s.wrapper new b).kind = .script := by
    cases s with
    | brace above caption => exact kind_captioned _ _ _ _
    | _ => cases hs
  unfold make
  split
  next => rwa [kind_change]
  next =>
    split
    next => simp [hwrapper]
    next => exact h

/-- Whether a brace or its body is selected is the same after the command. -/
theorem braceSelected_applyAll (hs : s.kind = .brace) (hn : n ∈ c.nodes) :
    braceSelected selected ((s.maker c selected).applyAll fresh n) = braceSelected selected n := by
  have hrebuilt : Formula.Rebuilt s.kind n ((s.maker c selected).rebuilt fresh n) :=
    rebuilt_rebuilt hn
  have hmake : (s.maker c selected).applyAll fresh n =
      s.make c selected (fresh.of n) ((s.maker c selected).rebuilt fresh n) := Maker.applyAll_eq _ _ n
  rw [braceSelected_eq, braceSelected_eq, hmake]
  by_cases hkind : n.kind = .brace
  · have hcarrier : n.kind = s.kind := hkind.trans hs.symm
    have hb : ((s.maker c selected).rebuilt fresh n).kind = s.kind := hrebuilt.kind_eq.trans hcarrier
    rw [make_of_kind hb, touchedBy_own hb, kind_own, hrebuilt.kind_eq, hrebuilt.touchedBy_eq hcarrier]
  · have hb : ((s.maker c selected).rebuilt fresh n).kind ≠ .brace := hrebuilt.kind_eq ▸ hkind
    rw [decide_eq_false (kind_make_ne hs hb), decide_eq_false hkind, Bool.false_and, Bool.false_and]

theorem captionsSelected_of_kind (h : n.kind ≠ .script) : n.captionsSelected selected = false := by
  cases n with
  | script => exact absurd rfl h
  | _ => rfl

theorem rebuilt_script (k : Maker) (fresh : Supply) (id : String) (base : Node)
    (sub sup : Option Node) : k.rebuilt fresh (.script id base sub sup) =
      .script id (k.applyAll fresh base) (sub.map (k.applyAll fresh)) (sup.map (k.applyAll fresh)) := by
  cases sub <;> cases sup <;> rfl

theorem finds_rebuilt (hn : n ∈ c.nodes) :
    s.finds selected ((s.maker c selected).rebuilt fresh n) = s.finds selected n := by
  have hrebuilt : Formula.Rebuilt s.kind n ((s.maker c selected).rebuilt fresh n) :=
    rebuilt_rebuilt hn
  have htouched : (decide (n.kind = s.kind) &&
      ((s.maker c selected).rebuilt fresh n).touchedBy selected) =
        (decide (n.kind = s.kind) && n.touchedBy selected) := by
    by_cases hkind : n.kind = s.kind
    · rw [hrebuilt.touchedBy_eq hkind]
    · simp [hkind]
  have hcaptions : (decide (s.kind = .brace) &&
      ((s.maker c selected).rebuilt fresh n).captionsSelected selected) =
        (decide (s.kind = .brace) && n.captionsSelected selected) := by
    by_cases hs : s.kind = .brace
    · by_cases hscript : n.kind = .script
      · cases n with
        | script id base sub sup =>
          have hbase : base ∈ c.nodes := Formula.mem_nodes_of_child hn List.mem_cons_self
          rw [rebuilt_script, Node.captionsSelected, Node.captionsSelected,
            braceSelected_applyAll hs hbase]
        | _ => cases hscript
      · rw [captionsSelected_of_kind hscript, captionsSelected_of_kind (hrebuilt.kind_eq ▸ hscript)]
    · simp [hs]
  rw [finds, finds, hrebuilt.kind_eq, htouched, hcaptions]

theorem heirs_rebuilt (hn : n ∈ c.nodes) :
    s.heirs selected ((s.maker c selected).rebuilt fresh n) =
      (s.heirs selected n).map ((s.maker c selected).applyAll fresh) := by
  by_cases hscript : n.kind = .script
  · cases n with
    | script id base sub sup =>
      have hbase : base ∈ c.nodes := Formula.mem_nodes_of_child hn List.mem_cons_self
      rw [rebuilt_script]
      cases sub with
      | none => cases sup <;> rfl
      | some sub =>
        cases sup with
        | none => rfl
        | some sup =>
          have hiff : (s.kind = .brace ∧
              braceSelected selected ((s.maker c selected).applyAll fresh base)) ↔
                (s.kind = .brace ∧ braceSelected selected base) :=
            and_congr_right fun hs => by rw [braceSelected_applyAll hs hbase]
          rw [Option.map_some, Option.map_some, heirs, heirs, if_congr hiff rfl rfl, apply_ite (List.map _)]
          rfl
    | _ => cases hscript
  · rw [heirs_of_kind hscript, heirs_of_kind (by rwa [Maker.kind_rebuilt]), Maker.children_rebuilt]

/-- The ids in the captions that a command drops. -/
def Loses (s : Styling) (c : Formula) (selected : List String) (id : String) : Prop :=
  ∃ q ∈ c.nodes, ∃ l, s.dropped selected q = some l ∧ id ∈ l.ids

theorem loses_iff : s.Loses c selected id ↔ s.kind = .brace ∧ ∃ q base sub sup,
    .script q base (some sub) (some sup) ∈ c.nodes ∧ braceSelected selected base ∧ id ∈ sub.ids := by
  constructor
  · rintro ⟨q, hq, l, hl, hid⟩
    unfold dropped at hl
    split at hl
    next script base sub sup =>
      obtain ⟨hsel, hl⟩ := Option.ite_none_right_eq_some.mp hl
      cases hl
      exact ⟨hsel.1, script, base, _, sup, hq, hsel.2, hid⟩
    next => cases hl
  · rintro ⟨hs, q, base, sub, sup, hq, hsel, hid⟩
    exact ⟨_, hq, sub, if_pos ⟨hs, hsel⟩, hid⟩

/-- A node outside the captions that are dropped is still in what a command makes of a tree. -/
theorem applyAll_mem_preorder (hn : n ∈ c.nodes) (hm : m ∈ n.preorder) (hid : m.id? = some id)
    (hkept : ¬ s.Loses c selected id) :
    (s.maker c selected).applyAll fresh m ∈ ((s.maker c selected).applyAll fresh n).preorder := by
  induction n using Node.childrenInduction with
  | step n ih =>
    rcases Node.mem_preorder_iff.mp hm with rfl | ⟨ch, hch, hm⟩
    · exact Node.self_mem_preorder _
    · rcases mem_heirs_or_dropped hch with hheir | hdropped
      · have hbelow := ih ch hch (Formula.mem_nodes_of_child hn hch) hm
        rw [Maker.applyAll_eq _ _ n]
        refine mem_preorder_make ?_ hbelow
        rw [heirs_rebuilt hn]
        exact List.mem_map_of_mem hheir
      · exact absurd ⟨n, hn, ch, hdropped, Node.mem_ids_iff.mpr ⟨m, hm, hid⟩⟩ hkept

section

variable {r : Formula} (h : Formula.Made (s.maker c selected) c fresh r)

include h

theorem applyAll_mem_nodes (hn : n ∈ c.nodes) (hid : n.id? = some id)
    (hkept : ¬ s.Loses c selected id) : (s.maker c selected).applyAll fresh n ∈ r.nodes := by
  obtain ⟨t, ht, hnt⟩ := List.mem_flatMap.mp hn
  have htop : t ∈ c.nodes := Formula.mem_nodes_of_top ht
  refine List.mem_flatMap.mpr ⟨_, ?_, applyAll_mem_preorder htop hnt hid hkept⟩
  rw [h.children_eq]
  exact List.mem_map_of_mem ht

theorem own_mem_nodes (hn : n ∈ c.nodes) (hid : n.id? = some id) (hkept : ¬ s.Loses c selected id) :
    s.own selected ((s.maker c selected).rebuilt fresh n) ∈ r.nodes := by
  refine Formula.mem_nodes_of_mem_preorder (applyAll_mem_nodes h hn hid hkept) ?_
  rw [Maker.applyAll_eq]
  exact s.own_mem_make c selected _ _

/-- Of the ids that a tree had, it has no others after the command. -/
theorem mem_ids_of_applyAll (hn : n ∈ c.nodes) (hid : id ∈ c.ids)
    (hmem : id ∈ ((s.maker c selected).applyAll fresh n).ids) : id ∈ n.ids := by
  have hparts := (Maker.ids_applyAll (h.fed_of_mem hn)).subset hmem
  rcases List.mem_append.mp hparts with hnew | hold
  · refine absurd hid (h.new id ?_)
    obtain ⟨i, hi, hnew⟩ := List.mem_flatMap.mp hnew
    obtain ⟨k, hk, hki⟩ := Node.mem_ids_iff.mp hi
    have hkc : k ∈ c.nodes := Formula.mem_nodes_of_mem_preorder hn hk
    exact List.mem_flatMap.mpr ⟨i, Formula.mem_ids_iff.mpr ⟨k, hkc, hki⟩, hnew⟩
  · exact hold

/-- A caption that is dropped takes its ids with it. -/
theorem not_mem_ids_of_dropped {q l : Node} (hn : n ∈ c.nodes) (hq : q ∈ n.preorder)
    (hl : s.dropped selected q = some l) (hid : id ∈ l.ids) :
    id ∉ ((s.maker c selected).applyAll fresh n).ids := by
  have hlq : ∀ i ∈ l.ids, i ∈ q.ids := Node.ids_subset_of_child (mem_children_of_dropped hl)
  have hidc : id ∈ c.ids := by
    have hqc : q ∈ c.nodes := Formula.mem_nodes_of_mem_preorder hn hq
    exact (Formula.sublist_ids hqc).subset (hlq id hid)
  induction n using Node.childrenInduction with
  | step n ih =>
    have hnodup := Formula.nodup_ids hn
    rw [n.ids_eq, List.nodup_append'] at hnodup
    -- the id belongs to a node below `n`
    have hbelow : id ∈ n.children.flatMap Node.ids := by
      rw [List.mem_flatMap]
      rcases Node.mem_preorder_iff.mp hq with rfl | ⟨ch, hch, hqch⟩
      · exact ⟨l, mem_children_of_dropped hl, hid⟩
      · exact ⟨ch, hch, (Node.sublist_ids hqch).subset (hlq id hid)⟩
    intro hmem
    rw [Maker.applyAll_eq] at hmem
    rcases mem_ids_make (h.fed_of_mem hn n n.self_mem_preorder) hmem with hnew | hnid | ⟨y, hy, hyid⟩
    · rw [Supply.of_eq] at hnew
      obtain ⟨i, hi, hnew⟩ := List.mem_flatMap.mp hnew
      refine h.new id (List.mem_flatMap.mpr ⟨i, ?_, hnew⟩) hidc
      exact Formula.mem_ids_iff.mpr ⟨n, hn, Option.mem_toList.mp hi⟩
    · rw [Maker.id?_rebuilt] at hnid
      exact hnodup.2.2 (Option.mem_toList.mpr hnid) hbelow
    · rw [heirs_rebuilt hn] at hy
      obtain ⟨ch, hheir, rfl⟩ := List.mem_map.mp hy
      have hch : ch ∈ n.children := (s.heirs_sublist selected n).subset hheir
      have hchc : ch ∈ c.nodes := Formula.mem_nodes_of_child hn hch
      have hchid : id ∈ ch.ids := mem_ids_of_applyAll h hchc hidc hyid
      rcases Node.mem_preorder_iff.mp hq with rfl | ⟨d, hd, hqd⟩
      · exact not_mem_heirs_of_dropped (Formula.nodup_ids hn) hl hid ch hheir hchid
      · have hdid : id ∈ d.ids := (Node.sublist_ids hqd).subset (hlq id hid)
        have hsiblings : (forestIds n.children).Nodup := (forestIds_eq _).symm ▸ hnodup.2.1
        obtain rfl := eq_of_mem_ids hsiblings hch hd hchid hdid
        exact ih ch hch hchc hqd hyid

/-- What is left of a formula is not in a caption that is dropped. -/
theorem not_loses_of_mem_ids (hid : id ∈ c.ids) (hleft : id ∈ r.ids) : ¬ s.Loses c selected id := by
  rintro ⟨q, hq, l, hl, hmem⟩
  obtain ⟨n', hn', hn'id⟩ := Formula.mem_ids_iff.mp hleft
  obtain ⟨t', ht', hn't⟩ := List.mem_flatMap.mp hn'
  rw [h.children_eq] at ht'
  obtain ⟨t, ht, rfl⟩ := List.mem_map.mp ht'
  have htc : t ∈ c.nodes := Formula.mem_nodes_of_top ht
  have hafter : id ∈ ((s.maker c selected).applyAll fresh t).ids :=
    Node.mem_ids_iff.mpr ⟨n', hn't, hn'id⟩
  have htid := mem_ids_of_applyAll h htc hid hafter
  obtain ⟨u, hu, hqu⟩ := List.mem_flatMap.mp hq
  have hqid : id ∈ q.ids := Node.ids_subset_of_child (mem_children_of_dropped hl) id hmem
  have huid : id ∈ u.ids := (Node.sublist_ids hqu).subset hqid
  obtain rfl := eq_of_mem_ids c.nodup ht hu htid huid
  exact not_mem_ids_of_dropped h htc hqu hl hmem hafter

/-- The ids of a formula that are left after a command are those outside the captions that it drops. -/
theorem mem_nodes_iff (hn : n ∈ c.nodes) (hid : n.id? = some id) :
    (∃ n' ∈ r.nodes, n'.id? = some id ∧ n'.kind = n.kind) ↔ ¬ s.Loses c selected id := by
  constructor
  · rintro ⟨n', hn', hn'id, -⟩
    have hbefore : id ∈ c.ids := Formula.mem_ids_iff.mpr ⟨n, hn, hid⟩
    have hafter : id ∈ r.ids := Formula.mem_ids_iff.mpr ⟨n', hn', hn'id⟩
    exact not_loses_of_mem_ids h hbefore hafter
  · intro hkept
    refine ⟨_, own_mem_nodes h hn hid hkept, ?_, ?_⟩
    · rw [id?_own, Maker.id?_rebuilt, hid]
    · rw [kind_own, Maker.kind_rebuilt]

end

end Styling

namespace Formula

/-- What a brace leaves of a formula. Every node is still there under its id and with its kind, unless it
stands in the lower one of two captions of a selected brace. -/
theorem applyBrace_keeps_iff (f : Formula) (runs : List (List String)) (m : Minter) (above : Bool)
    (caption : String) :
    (applyBrace f runs above caption).Ensures (m.pool f.ids) m fun e _ => ∃ c targets m',
      (consolidate false f runs).run m = (.ok (c, targets), m') ∧
      ∀ n ∈ f.nodes, ∀ i, n.id? = some i →
        ((∃ n' ∈ e.formula.nodes, n'.id? = some i ∧ n'.kind = n.kind) ↔
          ∀ q base sub sup, .script q base (some sub) (some sup) ∈ c.formula.nodes →
            braceSelected (targets.filterMap id) base → i ∉ sub.ids) := by
  refine ((Styling.brace above caption).ensures_apply f runs m).mono fun e _ h => ?_
  obtain ⟨c, targets, m', fresh, hrun, hgroups, hmade⟩ := h
  obtain ⟨groups, -, hregroups⟩ := hgroups.regroups
  refine ⟨c, targets, m', hrun, ?_⟩
  intro n hn i hi
  obtain ⟨n', hn', rfl⟩ := hregroups.exists_splice hn
  rw [Node.id?_splice] at hi
  have hkept := Styling.mem_nodes_iff hmade hn' hi
  rw [Node.kind_splice, hkept, Styling.loses_iff]
  constructor
  · intro hkept q base sub sup hq hsel hmem
    exact hkept ⟨rfl, q, base, sub, sup, hq, hsel, hmem⟩
  · rintro hkept ⟨-, q, base, sub, sup, hq, hsel, hmem⟩
    exact hkept q base sub sup hq hsel hmem

/-- A brace that has the asked orientation already and captions on both sides loses the lower one. -/
theorem applyBrace_loses_caption : ∃ (f : Formula) (m : Minter) (e : Edited),
    f.children = [.script "0" (.brace "0.base" true (.symbol "0.base.body" "x"))
      (some (.symbol "0.sub" "1")) (some (.symbol "0.sup" "2"))] ∧
    ((applyBrace f [["0.base"]] true "caption").run m).1.toOption = some e ∧
      "0.sub" ∈ f.ids ∧ "0.sub" ∉ e.formula.ids := by
  have hrun : ((applyBrace ⟨[.script "0" (.brace "0.base" true (.symbol "0.base.body" "x"))
      (some (.symbol "0.sub" "1")) (some (.symbol "0.sup" "2"))], by decide +kernel⟩
        [["0.base"]] true "caption").run ⟨[], .counting "n" 1⟩).1.toOption.map (·.formula.ids) =
      some ["0", "0.base", "0.base.body", "0.sup"] := by
    decide +kernel
  obtain ⟨e, he, hids⟩ := Option.map_eq_some_iff.mp hrun
  refine ⟨_, _, e, rfl, he, by decide +kernel, ?_⟩
  rw [hids]
  decide

end Formula

end FormulaDoc
