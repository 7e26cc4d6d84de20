import FormulaDoc.Proofs.Standings
import FormulaDoc.Proofs.Unwrapping

namespace FormulaDoc

namespace Formula

/-- The ids of the named carriers. -/
def strippedStyles (f : Formula) (ids : List String) : List String :=
  (f.nodes.filter fun n => n.isStyle && n.selectedIn ids).filterMap Node.id?

/-- The ids of the scripts around named braces. -/
def strippedScripts (f : Formula) (ids : List String) : List String :=
  (f.nodes.filter (·.surrounds ids)).filterMap Node.id?

/-- The ids in the captions of these scripts. -/
def strippedCaptions (f : Formula) (ids : List String) : List String :=
  forestIds ((f.nodes.filter (·.surrounds ids)).flatMap Node.captions)

variable {f r : Formula} {ids : List String} {c n : Node} {i : String} {fresh : Supply}

theorem mem_strippedStyles : i ∈ f.strippedStyles ids ↔
    ∃ n ∈ f.nodes, n.isStyle ∧ n.selectedIn ids ∧ n.id? = some i := by
  simp [strippedStyles, and_assoc]

theorem mem_strippedScripts : i ∈ f.strippedScripts ids ↔
    ∃ n ∈ f.nodes, n.surrounds ids ∧ n.id? = some i := by
  simp [strippedScripts, and_assoc]

theorem mem_strippedCaptions : i ∈ f.strippedCaptions ids ↔
    ∃ n ∈ f.nodes, n.surrounds ids ∧ ∃ x ∈ n.captions, i ∈ x.ids := by
  simp only [strippedCaptions, forestIds_eq, List.mem_flatMap, List.mem_filter]
  grind

theorem mem_strippedScripts_iff (ids : List String) (hn : n ∈ f.nodes) (hid : n.id? = some i) :
    i ∈ f.strippedScripts ids ↔ n.surrounds ids := by
  rw [mem_strippedScripts]
  constructor
  · rintro ⟨m, hm, hsurrounds, hmid⟩
    rwa [eq_of_mem_nodes hn hm hid hmid]
  · exact fun h => ⟨n, hn, h, hid⟩

/-- The scripts that go are the ones that are taken for captions of the named ids. -/
theorem mem_captionOf?_iff {base : Node} {sub sup : Option Node} (hn : .script i base sub sup ∈ f.nodes) :
    i ∈ ids.filterMap f.captionOf? ↔ (Node.script i base sub sup).surrounds ids := by
  have hbase : base ∈ f.nodes := mem_nodes_of_child hn List.mem_cons_self
  rw [List.mem_filterMap, Node.surrounds, Bool.and_eq_true, decide_eq_true_eq]
  constructor
  · rintro ⟨q, hq, hcaption⟩
    unfold captionOf? at hcaption
    split at hcaption
    next id o body i' base' sub' sup' hfind hparent =>
      obtain ⟨hid, ⟨⟩⟩ := Option.ite_none_right_eq_some.mp hcaption
      have hscript : Node.script i base sub sup = .script i base' sub' sup' :=
        eq_of_mem_nodes hn (mem_nodes_of_parent? hparent) rfl rfl
      cases hscript
      rw [find?_eq hbase hid] at hfind
      cases hfind
      exact ⟨rfl, Node.selectedIn_iff.mpr ⟨q, hq, hid⟩⟩
    next => cases hcaption
  · rintro ⟨hkind, hsel⟩
    obtain ⟨q, hq, hid⟩ := Node.selectedIn_iff.mp hsel
    refine ⟨q, hq, ?_⟩
    have hparent : f.parent? q = some (.script i base sub sup) :=
      parent?_of_child hn List.mem_cons_self hid
    cases base with
    | brace =>
      rw [captionOf?, find?_eq hbase hid, hparent]
      exact if_pos hid
    | _ => cases hkind

/-- The parent of a node in a caption that goes is the script of the caption, or it is in the caption
itself. -/
theorem parent_of_mem_strippedCaptions (h : i ∈ f.strippedCaptions ids) :
    ∃ p ∈ f.nodes, f.parent? i = some p ∧ (p.surrounds ids ∧ (∃ x ∈ p.captions, i ∈ x.ids) ∨
      ∃ j, p.id? = some j ∧ j ∈ f.strippedCaptions ids) := by
  obtain ⟨n, hn, hsurrounds, x, hx, hi⟩ := mem_strippedCaptions.mp h
  obtain ⟨m, hm, hid⟩ := Node.mem_ids_iff.mp hi
  have hchild : x ∈ n.children := Node.mem_children_of_captions hx
  have hxf : x ∈ f.nodes := mem_nodes_of_child hn hchild
  rcases Node.parent_of_mem_preorder hm with rfl | ⟨p, hp, hmp⟩
  · exact ⟨n, hn, parent?_of_child hn hchild hid, .inl ⟨hsurrounds, m, hx, hi⟩⟩
  · have hpf : p ∈ f.nodes := mem_nodes_of_mem_preorder hxf hp
    obtain ⟨j, hj⟩ := Node.exists_id_of_child hmp
    have hjx : j ∈ x.ids := Node.mem_ids_iff.mpr ⟨p, hp, hj⟩
    have hcaption : j ∈ f.strippedCaptions ids := mem_strippedCaptions.mpr ⟨n, hn, hsurrounds, x, hx, hjx⟩
    exact ⟨p, hpf, parent?_of_child hpf hmp hid, .inr ⟨j, hj, hcaption⟩⟩

theorem not_mem_strippedCaptions_of_top (hn : n ∈ f.children) (hid : n.id? = some i) :
    i ∉ f.strippedCaptions ids := by
  intro h
  obtain ⟨p, -, hparent, -⟩ := parent_of_mem_strippedCaptions h
  rw [parent?_of_top hn hid] at hparent
  cases hparent

/-- Outside the captions that go, only the captions of a script that goes lead into one. -/
theorem mem_captions_of_child (hn : n ∈ f.nodes) (hout : ∀ j ∈ n.id?, j ∉ f.strippedCaptions ids)
    (hc : c ∈ n.children) (hid : c.id? = some i) (h : i ∈ f.strippedCaptions ids) :
    n.surrounds ids ∧ ∃ x ∈ n.captions, i ∈ x.ids := by
  obtain ⟨p, hp, hparent, hcases⟩ := parent_of_mem_strippedCaptions h
  rw [parent?_of_child hn hc hid, Option.some.injEq] at hparent
  subst hparent
  exact hcases.resolve_right fun ⟨j, hj, hmem⟩ => hout j hj hmem

/-- Whether a node stays for all that its place says. A node without an id goes with the caption in which
it stands. -/
def remains (f : Formula) (ids : List String) (st : Standing) : Bool :=
  st.id?.isSome || !(st.above.any (f.strippedCaptions ids).contains ||
    st.above.getLast?.any (f.strippedScripts ids).contains)

/-- The nodes of a formula in their places, but for nodes without an id in captions that go. -/
def remaining (f : Formula) (ids : List String) : List Standing :=
  f.standings.filter (f.remains ids)

/-- The name of a node after unwrapping: its own, or the id of the group in its place. -/
def strippedName (f : Formula) (ids : List String) (fresh : Supply) (id : String) : Option String :=
  if id ∈ f.strippedCaptions ids ∨ id ∈ f.strippedScripts ids then none
  else if (f.find? id).any (·.regroups ids) then some ((fresh id).headD "")
  else if id ∈ f.strippedStyles ids then none else some id

theorem mem_strippedStyles_iff (hn : n ∈ f.nodes) (hid : n.id? = some i) :
    i ∈ f.strippedStyles ids ↔ n.isStyle ∧ n.selectedIn ids := by
  rw [mem_strippedStyles]
  constructor
  · rintro ⟨m, hm, hstyle, hsel, hmid⟩
    rw [eq_of_mem_nodes hn hm hid hmid]
    exact ⟨hstyle, hsel⟩
  · exact fun h => ⟨n, hn, h.1, h.2, hid⟩

theorem strippedName_eq (fresh : Supply) (hn : n ∈ f.nodes) (hid : n.id? = some i)
    (hout : i ∉ f.strippedCaptions ids) :
    f.strippedName ids fresh i = if n.surrounds ids then none
      else if n.regroups ids then some ((fresh i).headD "")
      else if n.isStyle ∧ n.selectedIn ids then none else some i := by
  rw [strippedName, find?_eq hn hid]
  simp only [hout, false_or, mem_strippedScripts_iff ids hn hid, mem_strippedStyles_iff hn hid,
    Option.any_some]

/-- What unwrapping makes of the trees of a formula. -/
abbrev strip (f : Formula) (ids : List String) (fresh : Supply) : Node → Node :=
  (unwrapping ids (ids.filterMap f.captionOf?)).applyAll fresh

/-- A node gives way to its first child, or to a group, or stays. -/
theorem strip_cases (ids : List String) (fresh : Supply) (hn : n ∈ f.nodes) :
    (∃ c, n.children = c :: n.captions ∧ (n.surrounds ids → ∃ j, c.id? = some j) ∧
      ¬ n.regroups ids ∧ (n.surrounds ids ∨ n.isStyle ∧ n.selectedIn ids) ∧
      f.strip ids fresh n = f.strip ids fresh c) ∨
    (n.regroups ids ∧
      f.strip ids fresh n = .group ((fresh.of n).headD "") (n.children.map (f.strip ids fresh))) ∨
    (¬ n.surrounds ids ∧ ¬ n.regroups ids ∧ ¬ (n.isStyle ∧ n.selectedIn ids) ∧
      f.strip ids fresh n = n.mapChildren (f.strip ids fresh)) := by
  have hstrip : f.strip ids fresh n = Node.unwrappedWith ids (ids.filterMap f.captionOf?)
      (fresh.of n) (n.mapChildren (f.strip ids fresh)) := Maker.applyAll_eq _ _ n
  rw [Node.unwrappedWith, Node.regroups_mapChildren, Node.unwrapped?_mapChildren,
    Node.children_mapChildren] at hstrip
  by_cases hregroups : n.regroups ids
  · rw [if_pos hregroups] at hstrip
    exact .inr (.inl ⟨hregroups, hstrip⟩)
  rw [if_neg hregroups] at hstrip
  by_cases hsurrounds : n.surrounds ids
  · cases n with
    | script id base sub sup =>
      have hcaption : (ids.filterMap f.captionOf?).contains id := by
        simpa using (mem_captionOf?_iff hn).mpr hsurrounds
      rw [Node.unwrapped?, if_pos hcaption, Option.map_some, Option.getD_some] at hstrip
      refine .inl ⟨base, rfl, fun _ => ?_, hregroups, .inl hsurrounds, hstrip⟩
      rw [Node.surrounds, Bool.and_eq_true] at hsurrounds
      obtain ⟨j, -, hj⟩ := Node.selectedIn_iff.mp hsurrounds.2
      exact ⟨j, hj⟩
    | _ => cases hsurrounds
  by_cases hstyle : n.isStyle ∧ n.selectedIn ids
  · obtain ⟨c, hchildren, hc⟩ : ∃ c, n.children = c :: n.captions ∧
        n.unwrapped? ids (ids.filterMap f.captionOf?) = some c :=
      Node.exists_unwrapped?_of_isStyle hstyle.1 hstyle.2 hregroups
    rw [hc, Option.map_some, Option.getD_some] at hstrip
    exact .inl ⟨c, hchildren, fun h => absurd h hsurrounds, hregroups, .inr hstyle, hstrip⟩
  · have hscript : n.kind = .script → ¬ n.selectedIn (ids.filterMap f.captionOf?) := by
      intro hkind hsel
      cases n with
      | script id base sub sup =>
        exact hsurrounds ((mem_captionOf?_iff hn).mp (by simpa [Node.selectedIn, Node.id?] using hsel))
      | _ => cases hkind
    rw [Node.unwrapped?_eq_none hstyle hscript, Option.map_none, Option.getD_none] at hstrip
    exact .inr (.inr ⟨hsurrounds, hregroups, hstyle, hstrip⟩)

/-- The nodes of a tree after unwrapping, as far as they can be told from before. -/
def carried (f : Formula) (ids : List String) (fresh : Supply) (path : List String) (n : Node) :
    List Standing :=
  ((n.standings path).filter (f.remains ids)).filterMap (Standing.renamed (f.strippedName ids fresh))

variable {path : List String} {kind : Kind}

theorem remains_mark : f.remains ids ⟨none, kind, path⟩ ↔
    (∀ a ∈ path, a ∉ f.strippedCaptions ids) ∧ ∀ a ∈ path.getLast?, a ∉ f.strippedScripts ids := by
  cases hlast : path.getLast? <;> simp [remains, hlast]

theorem carried_eq (f : Formula) (ids : List String) (fresh : Supply) (path : List String) (n : Node) :
    f.carried ids fresh path n =
      ([⟨n.id?, n.kind, path⟩].filter (f.remains ids)).filterMap
          (Standing.renamed (f.strippedName ids fresh)) ++
        n.children.flatMap (f.carried ids fresh (path ++ n.id?.toList)) := by
  unfold carried
  rw [Node.standings_eq, ← List.singleton_append, List.filter_append, List.filterMap_append,
    List.filter_flatMap, List.filterMap_flatMap]

theorem carried_of_id? (fresh : Supply) (path : List String) (hid : n.id? = some i) :
    f.carried ids fresh path n = ((f.strippedName ids fresh i).map fun new =>
        ⟨some new, if new = i then n.kind else .group, path.filterMap (f.strippedName ids fresh)⟩).toList ++
      n.children.flatMap (f.carried ids fresh (path ++ [i])) := by
  rw [carried_eq, hid, Option.toList_some, List.filter_cons_of_pos (by simp [remains])]
  cases hname : f.strippedName ids fresh i <;> simp [Standing.renamed, hname]

/-- Of a tree in a caption that goes nothing stays. -/
theorem carried_eq_nil (hids : ∀ j ∈ n.ids, j ∈ f.strippedCaptions ids)
    (hpath : (∃ a ∈ path, a ∈ f.strippedCaptions ids) ∨ ∃ a ∈ path.getLast?, a ∈ f.strippedScripts ids) :
    f.carried ids fresh path n = [] := by
  induction n using Node.childrenInduction generalizing path with
  | step n ih =>
    rw [carried_eq, List.append_eq_nil_iff, List.flatMap_eq_nil_iff]
    constructor
    · cases hid : n.id? with
      | none =>
        have hgoes : ¬ f.remains ids ⟨none, n.kind, path⟩ := by
          rw [remains_mark]
          rintro ⟨hcaptions, hscripts⟩
          rcases hpath with ⟨a, ha, hmem⟩ | ⟨a, ha, hmem⟩
          · exact hcaptions a ha hmem
          · exact hscripts a ha hmem
        rw [List.filter_cons_of_neg hgoes]
        rfl
      | some j =>
        have hj := hids j (Node.mem_ids_of_id? hid)
        have hname : f.strippedName ids fresh j = none := if_pos (.inl hj)
        simp [remains, Standing.renamed, hname]
    · intro c hc
      obtain ⟨j, hid⟩ := Node.exists_id_of_child hc
      have hj := hids j (Node.mem_ids_of_id? hid)
      refine ih c hc (fun i hi => hids i (Node.ids_subset_of_child hc i hi)) (.inl ⟨j, ?_, hj⟩)
      simp [hid]

/-- Only captions of scripts that go share ids with captions that go. -/
theorem not_mem_strippedCaptions_of_child (hn : n ∈ f.nodes)
    (hout : ∀ j ∈ n.id?, j ∉ f.strippedCaptions ids) (hc : c ∈ n.children)
    (hapart : n.surrounds ids → ∀ x ∈ n.captions, ∀ j ∈ x.ids, j ∉ c.ids) :
    ∀ j ∈ c.id?, j ∉ f.strippedCaptions ids := by
  intro j hj hmem
  obtain ⟨hsurrounds, x, hx, hjx⟩ := mem_captions_of_child hn hout hc hj hmem
  exact hapart hsurrounds x hx j hjx (Node.mem_ids_of_id? hj)

/-- After unwrapping a tree has the nodes that stay, each in its place. -/
def Stands (f : Formula) (ids : List String) (fresh : Supply) (path : List String) (n : Node) : Prop :=
  (f.strip ids fresh n).standings (path.filterMap (f.strippedName ids fresh)) = f.carried ids fresh path n

theorem stands_of_id?_eq_none (hn : n ∈ f.nodes) (hid : n.id? = none)
    (hremains : f.remains ids ⟨none, n.kind, path⟩) : f.Stands ids fresh path n := by
  -- a node without an id has no children either
  have hnil : n.children = [] := Node.children_eq_nil_of_id? hid
  have hstrip : f.strip ids fresh n = n := by
    rcases strip_cases ids fresh hn with ⟨c, hc, -⟩ | ⟨hregroups, -⟩ | ⟨-, -, -, hstrip⟩
    · rw [hnil] at hc
      cases hc
    · obtain ⟨q, c, body, rfl, -⟩ := Node.exists_of_regroups hregroups
      cases hid
    · rw [hstrip, Node.mapChildren_eq_self (by simp [hnil])]
  rw [Stands, hstrip, Node.standings_eq, carried_eq, hid, hnil, List.filter_cons_of_pos hremains]
  rfl

section

variable (hn : n ∈ f.nodes) (hid : n.id? = some i)

include hn hid

/-- Where a node gives way to a child, its captions go along. -/
theorem stands_of_child (hchildren : n.children = c :: n.captions)
    (hgone : f.strippedName ids fresh i = none)
    (hgoes : n.surrounds ids ∨ n.isStyle ∧ n.selectedIn ids)
    (hstrip : f.strip ids fresh n = f.strip ids fresh c) (h : f.Stands ids fresh (path ++ [i]) c) :
    f.Stands ids fresh path n := by
  have hcaptions : ∀ x ∈ n.captions, f.carried ids fresh (path ++ [i]) x = [] := by
    intro x hx
    have hsurrounds := hgoes.resolve_right fun hstyle => Node.not_isStyle_of_captions hx hstyle.1
    refine carried_eq_nil (fun j hj => ?_) (.inr ⟨i, by simp, ?_⟩)
    · exact mem_strippedCaptions.mpr ⟨n, hn, hsurrounds, x, hx, hj⟩
    · exact (mem_strippedScripts_iff ids hn hid).mpr hsurrounds
  have hpath : (path ++ [i]).filterMap (f.strippedName ids fresh) =
      path.filterMap (f.strippedName ids fresh) := by
    simp [hgone]
  rw [Stands, hpath] at h
  rw [Stands, hstrip, h, carried_of_id? fresh path hid, hgone, hchildren, List.flatMap_cons,
    List.flatMap_eq_nil_iff.mpr hcaptions, List.append_nil]
  rfl

/-- Where a color leaves a group, its children stand below the group. -/
theorem stands_of_regroups (hregroups : n.regroups ids) (hnew : (fresh i).headD "" ∉ f.ids)
    (hname : f.strippedName ids fresh i = some ((fresh i).headD ""))
    (hstrip : f.strip ids fresh n =
      .group ((fresh.of n).headD "") (n.children.map (f.strip ids fresh)))
    (h : ∀ c ∈ n.children, f.Stands ids fresh (path ++ [i]) c) : f.Stands ids fresh path n := by
  obtain ⟨q, color, body, rfl, -⟩ := Node.exists_of_regroups hregroups
  obtain rfl : q = i := Option.some.inj hid
  have hne : (fresh q).headD "" ≠ q := fun heq => hnew (heq.symm ▸ mem_ids_iff.mpr ⟨_, hn, rfl⟩)
  have hof : (fresh.of (.color q color body)).headD "" = (fresh q).headD "" := rfl
  have hpath : (path ++ [q]).filterMap (f.strippedName ids fresh) =
      path.filterMap (f.strippedName ids fresh) ++ [(fresh q).headD ""] := by
    simp [hname]
  rw [Stands, hstrip, hof, Node.standings_eq, carried_of_id? fresh path hid, hname,
    ← List.flatMap_congr h, hpath]
  generalize (fresh q).headD "" = new at hne ⊢
  simp [Node.id?, Node.kind, Node.children, List.flatMap_map, hne]

omit hn in
theorem stands_of_kept (hname : f.strippedName ids fresh i = some i)
    (hstrip : f.strip ids fresh n = n.mapChildren (f.strip ids fresh))
    (h : ∀ c ∈ n.children, f.Stands ids fresh (path ++ [i]) c) : f.Stands ids fresh path n := by
  have hpath : (path ++ [i]).filterMap (f.strippedName ids fresh) =
      path.filterMap (f.strippedName ids fresh) ++ [i] := by
    simp [hname]
  rw [Stands, hstrip, Node.standings_eq, carried_of_id? fresh path hid, hname, ← List.flatMap_congr h,
    hpath, Node.id?_mapChildren, Node.kind_mapChildren, Node.children_mapChildren, List.flatMap_map, hid]
  simp

end

/-- Outside the captions that go, every tree has after unwrapping the nodes that stay. -/
theorem stands_of_not_mem_strippedCaptions
    (hnew : ∀ n ∈ f.nodes, n.regroups ids → ∀ q ∈ n.id?, (fresh q).headD "" ∉ f.ids)
    (hn : n ∈ f.nodes) (hout : ∀ j ∈ n.id?, j ∉ f.strippedCaptions ids)
    (hpath : ∀ a ∈ path, a ∉ f.strippedCaptions ids)
    (hmark : n.id? = none → ∀ a ∈ path.getLast?, a ∉ f.strippedScripts ids) :
    f.Stands ids fresh path n := by
  induction n using Node.childrenInduction generalizing path with
  | step n ih =>
    cases hid : n.id? with
    | none => exact stands_of_id?_eq_none hn hid (remains_mark.mpr ⟨hpath, hmark hid⟩)
    | some q =>
      have hname := strippedName_eq fresh hn hid (hout q hid)
      have hpath' : ∀ a ∈ path ++ [q], a ∉ f.strippedCaptions ids := by
        simpa [or_imp, forall_and] using ⟨hpath, hout q hid⟩
      have hbelow : ¬ n.surrounds ids → ∀ c ∈ n.children, f.Stands ids fresh (path ++ [q]) c := by
        intro hsurrounds c hc
        refine ih c hc (mem_nodes_of_child hn hc) ?_ hpath' fun _ => ?_
        · exact not_mem_strippedCaptions_of_child hn hout hc fun h => absurd h hsurrounds
        · simp [mem_strippedScripts_iff ids hn hid, hsurrounds]
      rcases strip_cases ids fresh hn with
        ⟨c, hchildren, hcid, hregroups, hgoes, hstrip⟩ | ⟨hregroups, hstrip⟩ |
        ⟨hsurrounds, hregroups, hstyle, hstrip⟩
      · have hgone : f.strippedName ids fresh q = none := by
          rw [hname]
          rcases hgoes with h | h <;> simp [h, hregroups]
        have hc : c ∈ n.children := hchildren ▸ List.mem_cons_self
        refine stands_of_child hn hid hchildren hgone hgoes hstrip ?_
        refine ih c hc (mem_nodes_of_child hn hc) ?_ hpath' fun hnone => ?_
        · refine not_mem_strippedCaptions_of_child hn hout hc fun _ x hx j hj hjc => ?_
          have hnodup := nodup_ids hn
          rw [Node.ids_eq, hchildren, List.flatMap_cons, List.nodup_append', List.nodup_append'] at hnodup
          exact hnodup.2.1.2.2 hjc (List.mem_flatMap.mpr ⟨x, hx, hj⟩)
        · have hsurrounds : ¬ n.surrounds ids := fun h => by simpa [hnone] using hcid h
          simp [mem_strippedScripts_iff ids hn hid, hsurrounds]
      · obtain ⟨q', c, body, rfl, -⟩ := Node.exists_of_regroups hregroups
        have hsurrounds : ¬ (Node.color q' c body).surrounds ids := nofun
        rw [if_neg hsurrounds, if_pos hregroups] at hname
        exact stands_of_regroups hn hid hregroups (hnew _ hn hregroups q hid) hname hstrip
          (hbelow hsurrounds)
      · rw [if_neg hsurrounds, if_neg hregroups, if_neg hstyle] at hname
        exact stands_of_kept hid hname hstrip (hbelow hsurrounds)

/-- What taking styles off makes of a formula. -/
structure Unstyles (f : Formula) (ids : List String) (r : Formula) : Prop where
  /-- Of the ids that there were, those of the named carriers, of the scripts around named braces and in
  the captions of these scripts are gone. -/
  mem_ids : ∀ i ∈ f.ids, i ∈ r.ids ↔
    i ∉ f.strippedStyles ids ∧ i ∉ f.strippedScripts ids ∧ i ∉ f.strippedCaptions ids
  /-- An id that is new is the one of a group, in the place of a named color with no child or several. -/
  groups : ∀ j ∈ r.ids, j ∉ f.ids → ∃ q ∈ ids, ∃ c body items, .color q c body ∈ f.nodes ∧
    body.length ≠ 1 ∧ .group j items ∈ r.nodes ∧
    r.standings.filterMap (Standing.among (j :: f.ids)) =
      (f.remaining ids).filterMap (Standing.renamed fun i =>
        if i = q then some j else Standing.namedIn r.ids i)
  /-- The nodes that are left keep their kinds, their order and the nodes above them that are left. -/
  survivors : r.standings.filterMap (Standing.among f.ids) =
    (f.remaining ids).filterMap (Standing.among r.ids)

section

variable (h : Made (unwrapping ids (ids.filterMap f.captionOf?)) f fresh r)

include h

/-- A color that is regrouped takes one id, which is new. -/
theorem fresh_of_regroups (hn : n ∈ f.nodes) (hregroups : n.regroups ids) (hid : n.id? = some i) :
    ∃ j, fresh i = [j] ∧ j ∉ f.ids := by
  have hfed := h.fed_of_mem hn n n.self_mem_preorder
  have hlength : (fresh i).length = 1 := by
    have hof : fresh.of n = fresh i := by rw [Supply.of, hid, Option.elim_some]
    have hcount : (unwrapping ids (ids.filterMap f.captionOf?)).count
        ((unwrapping ids (ids.filterMap f.captionOf?)).rebuilt fresh n) = 1 :=
      if_pos ((Node.regroups_mapChildren _ n).trans hregroups)
    rw [← hof, hfed, hcount]
  obtain ⟨j, hj⟩ := List.length_eq_one_iff.mp hlength
  have hi : i ∈ f.ids := mem_ids_iff.mpr ⟨n, hn, hid⟩
  have hmem : j ∈ fresh i := by
    rw [hj]
    exact List.mem_singleton_self j
  exact ⟨j, hj, h.new j (List.mem_flatMap.mpr ⟨i, hi, hmem⟩)⟩

theorem standings_of_made :
    r.standings = (f.remaining ids).filterMap (Standing.renamed (f.strippedName ids fresh)) := by
  have hnew : ∀ n ∈ f.nodes, n.regroups ids → ∀ q ∈ n.id?, (fresh q).headD "" ∉ f.ids := by
    intro n hn hregroups q hid
    obtain ⟨j, hj, hnot⟩ := fresh_of_regroups h hn hregroups hid
    rwa [hj]
  have htop : ∀ n ∈ f.children, (f.strip ids fresh n).standings [] = f.carried ids fresh [] n := by
    intro n hn
    have hnf : n ∈ f.nodes := mem_nodes_of_top hn
    have hout : ∀ j ∈ n.id?, j ∉ f.strippedCaptions ids := fun j hj =>
      not_mem_strippedCaptions_of_top hn hj
    exact @stands_of_not_mem_strippedCaptions _ _ _ _ [] hnew hnf hout (by simp) (by simp)
  rw [standings_eq, h.children_eq, List.flatMap_map, List.flatMap_congr htop, remaining, standings_eq,
    List.filter_flatMap, List.filterMap_flatMap]
  rfl

theorem mem_standings_of_name {st : Standing} {q j : String} (hst : st ∈ f.standings)
    (hid : st.id? = some q) (hname : f.strippedName ids fresh q = some j) :
    ⟨some j, if j = q then st.kind else .group, st.above.filterMap (f.strippedName ids fresh)⟩ ∈
      r.standings := by
  rw [standings_of_made h, List.mem_filterMap]
  refine ⟨st, List.mem_filter.mpr ⟨hst, by simp [remains, hid]⟩, ?_⟩
  simp [Standing.renamed, hid, hname]

theorem mem_ids_iff_strippedName {j : String} :
    j ∈ r.ids ↔ ∃ q ∈ f.ids, f.strippedName ids fresh q = some j := by
  constructor
  · intro hj
    obtain ⟨st', hst', hjd⟩ := mem_ids_iff_standings.mp hj
    rw [standings_of_made h] at hst'
    obtain ⟨st, hst, hrenamed⟩ := List.mem_filterMap.mp hst'
    have hstf : st ∈ f.standings := List.mem_of_mem_filter hst
    unfold Standing.renamed at hrenamed
    split at hrenamed
    next =>
      cases hrenamed
      cases hjd
    next q hq =>
      obtain ⟨new, hname, rfl⟩ := Option.map_eq_some_iff.mp hrenamed
      cases hjd
      exact ⟨q, mem_ids_of_standings hstf hq, hname⟩
  · rintro ⟨q, hq, hname⟩
    obtain ⟨st, hst, hid⟩ := mem_ids_iff_standings.mp hq
    exact mem_ids_of_standings (mem_standings_of_name h hst hid hname) rfl

/-- The new names of the nodes: their own, or the new id of a group in the place of a color. -/
theorem strippedName_cases (hi : i ∈ f.ids) :
    ((i ∉ f.strippedStyles ids ∧ i ∉ f.strippedScripts ids ∧ i ∉ f.strippedCaptions ids) ∧
      f.strippedName ids fresh i = some i) ∨
    (¬ (i ∉ f.strippedStyles ids ∧ i ∉ f.strippedScripts ids ∧ i ∉ f.strippedCaptions ids) ∧
      ∀ j, f.strippedName ids fresh i = some j → j ∉ f.ids ∧ fresh i = [j] ∧ i ∈ ids ∧
        ∃ c body, .color i c body ∈ f.nodes ∧ body.length ≠ 1) := by
  obtain ⟨n, hn, hid⟩ := mem_ids_iff.mp hi
  by_cases hout : i ∈ f.strippedCaptions ids
  · have hname : f.strippedName ids fresh i = none := if_pos (.inl hout)
    exact .inr ⟨fun hnot => hnot.2.2 hout, by simp [hname]⟩
  have hname := strippedName_eq fresh hn hid hout
  rw [mem_strippedScripts_iff ids hn hid, mem_strippedStyles_iff hn hid]
  by_cases hsurrounds : n.surrounds ids
  · rw [if_pos hsurrounds] at hname
    exact .inr ⟨fun hnot => hnot.2.1 hsurrounds, by simp [hname]⟩
  rw [if_neg hsurrounds] at hname
  by_cases hregroups : n.regroups ids
  · rw [if_pos hregroups] at hname
    obtain ⟨j, hj, hnot⟩ := fresh_of_regroups h hn hregroups hid
    obtain ⟨q, c, body, rfl, hq, hlength⟩ := Node.exists_of_regroups hregroups
    cases hid
    refine .inr ⟨fun hkept => hkept.1 ⟨rfl, ?_⟩, fun j' hj' => ?_⟩
    · exact Node.selectedIn_iff.mpr ⟨i, hq, rfl⟩
    · rw [hname, hj] at hj'
      cases hj'
      exact ⟨hnot, hj, hq, c, body, hn, hlength⟩
  rw [if_neg hregroups] at hname
  by_cases hstyle : n.isStyle ∧ n.selectedIn ids
  · rw [if_pos hstyle] at hname
    exact .inr ⟨fun hnot => hnot.1 hstyle, by simp [hname]⟩
  · rw [if_neg hstyle] at hname
    exact .inl ⟨⟨hstyle, hsurrounds, hout⟩, hname⟩

theorem mem_ids_of_made (hi : i ∈ f.ids) : i ∈ r.ids ↔
    i ∉ f.strippedStyles ids ∧ i ∉ f.strippedScripts ids ∧ i ∉ f.strippedCaptions ids := by
  rw [mem_ids_iff_strippedName h]
  constructor
  · rintro ⟨q, hq, hname⟩
    rcases strippedName_cases h hq with ⟨hkept, hsame⟩ | ⟨-, hnew⟩
    · rw [hsame] at hname
      cases hname
      exact hkept
    · exact absurd hi (hnew i hname).1
  · intro hkept
    rcases strippedName_cases h hi with ⟨-, hsame⟩ | ⟨hgone, -⟩
    · exact ⟨i, hi, hsame⟩
    · exact absurd hkept hgone

/-- Of the ids that there were, those that are left are the ones that keep their names. -/
theorem strippedName_bind (hi : i ∈ f.ids) : (f.strippedName ids fresh i).bind (Standing.namedIn f.ids) =
    Standing.namedIn r.ids i := by
  have hmem := mem_ids_of_made h hi
  rcases strippedName_cases h hi with ⟨hkept, hsame⟩ | ⟨hgone, hnew⟩
  · rw [hsame, Option.bind_some, Standing.namedIn, Standing.namedIn, if_pos hi, if_pos (hmem.mpr hkept)]
  · rw [Standing.namedIn, if_neg (mt hmem.mp hgone)]
    cases hname : f.strippedName ids fresh i with
    | none => rfl
    | some j => exact if_neg (hnew j hname).1

theorem exists_group_of_name {q j : String} (hq : q ∈ f.ids)
    (hname : f.strippedName ids fresh q = some j) (hj : j ∉ f.ids) :
    ∃ items, Node.group j items ∈ r.nodes := by
  obtain ⟨st, hst, hid⟩ := mem_ids_iff_standings.mp hq
  have hne : j ≠ q := fun heq => hj (heq ▸ hq)
  have hgroup := mem_standings_of_name h hst hid hname
  rw [if_neg hne] at hgroup
  obtain ⟨⟨n, above⟩, he, hstanding⟩ := List.mem_map.mp hgroup
  obtain ⟨hnid, hkind, -⟩ := Standing.mk.inj hstanding
  have hn : n ∈ r.nodes := node_mem_nodes he
  cases n with
  | group id items =>
    cases hnid
    exact ⟨items, hn⟩
  | _ => cases hkind

/-- No two nodes get the same new id. -/
theorem eq_of_strippedName {q j : String} (hi : i ∈ f.ids) (hq : q ∈ f.ids)
    (hiname : f.strippedName ids fresh i = some j) (hqname : f.strippedName ids fresh q = some j)
    (hj : j ∉ f.ids) : i = q := by
  have hdrawn : ∀ p ∈ f.ids, f.strippedName ids fresh p = some j → j ∈ fresh p := by
    intro p hp hname
    rcases strippedName_cases h hp with ⟨-, hsame⟩ | ⟨-, hnew⟩
    · rw [hsame] at hname
      cases hname
      exact absurd hp hj
    · rw [(hnew j hname).2.1]
      exact List.mem_singleton_self j
  have hapart := (List.nodup_flatMap.mp h.nodup).2
  have hsymm : Std.Symm (Function.onFun List.Disjoint fresh) := ⟨fun _ _ h _ ha hb => h hb ha⟩
  by_contra hne
  exact hapart.forall hi hq hne (hdrawn i hi hiname) (hdrawn q hq hqname)

theorem strippedName_bind_cons {q j : String} (hq : q ∈ f.ids)
    (hqname : f.strippedName ids fresh q = some j) (hj : j ∉ f.ids) (hi : i ∈ f.ids) :
    (f.strippedName ids fresh i).bind (Standing.namedIn (j :: f.ids)) =
      if i = q then some j else Standing.namedIn r.ids i := by
  split
  next hiq =>
    rw [hiq, hqname]
    exact if_pos List.mem_cons_self
  next hiq =>
    rw [← strippedName_bind h hi]
    cases hname : f.strippedName ids fresh i with
    | none => rfl
    | some j' =>
      have hne : j' ≠ j := by
        rintro rfl
        exact hiq (eq_of_strippedName h hi hq hname hqname hj)
      simp [Standing.namedIn, hne]

/-- The nodes of the result among some of the ids. -/
theorem filterMap_among {kept : List String} {name : String → Option String}
    (hname : ∀ i ∈ f.ids, (f.strippedName ids fresh i).bind (Standing.namedIn kept) = name i) :
    r.standings.filterMap (Standing.among kept) = (f.remaining ids).filterMap (Standing.renamed name) := by
  rw [standings_of_made h, List.filterMap_filterMap]
  refine List.filterMap_congr fun st hst => ?_
  have hstf : st ∈ f.standings := List.mem_of_mem_filter hst
  rw [Standing.renamed_bind_among]
  exact Standing.renamed_congr (fun i hi => hname i (mem_ids_of_standings hstf hi)) fun i hi =>
    hname i (above_mem_ids hstf i hi)

theorem unstyles_of_made : f.Unstyles ids r where
  mem_ids i hi := mem_ids_of_made h hi
  groups j hj hjf := by
    obtain ⟨q, hq, hname⟩ := (mem_ids_iff_strippedName h).mp hj
    rcases strippedName_cases h hq with ⟨-, hsame⟩ | ⟨-, hnew⟩
    · rw [hsame] at hname
      cases hname
      exact absurd hq hjf
    · obtain ⟨-, -, hqids, c, body, hcolor, hlength⟩ := hnew j hname
      obtain ⟨items, hitems⟩ := exists_group_of_name h hq hname hjf
      exact ⟨q, hqids, c, body, items, hcolor, hlength, hitems,
        filterMap_among h fun i hi => strippedName_bind_cons h hq hname hjf hi⟩
  survivors := filterMap_among h fun i hi => strippedName_bind h hi

end

/-- The exact effect of taking styles off. There is a result, unless there are not enough ids to be drawn,
and in it the named carriers, the scripts around named braces and their captions are gone. -/
theorem removeStyle_effect (f : Formula) (ids : List String) (m : Minter) :
    (removeStyle f ids).Ensures (m.pool f.ids) m fun e _ => f.Unstyles ids e.formula := by
  refine (Minting.ensures_mintBeside (m.drawsFrom_pool f.ids)).bind fun _ m₁ _ hm₁ he => ?_
  rw [he] at hm₁ ⊢
  refine (ensures_rewrite_supplied (follows_unwrapTarget ids _) hm₁ rfl).bind fun x m₂ _ hm₂ hx => ?_
  obtain ⟨fresh, e, rfl, hmade⟩ := hx
  exact Minting.ensures_pure hm₂ (unstyles_of_made hmade)

end Formula

end FormulaDoc
