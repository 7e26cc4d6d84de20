import FormulaDoc.Proofs.Stability

namespace FormulaDoc

theorem length_cells (ns : List Node) : (cells ns).flatten.length = ns.countP Node.isMark + 1 := by
  have hnone : ∀ run : List Node, .newLine ∉ run → .alignMark ∉ run → run.countP Node.isMark = 0 := by
    intro run hline hmark
    rw [List.countP_eq_zero]
    intro c hc hcmark
    cases c with
    | newLine => exact hline hc
    | alignMark => exact hmark hc
    | _ => cases hcmark
  induction ns using cellInduction with
  | last run hline hmark =>
    rw [cells_of_notMem hline hmark, hnone run hline hmark]
    rfl
  | cell run ns hline hmark ih =>
    obtain ⟨row, rows, hcells, hfirst⟩ := cells_alignMark hline hmark ns
    rw [hcells] at ih
    rw [hfirst, List.countP_append, hnone run hline hmark, List.countP_cons_of_pos rfl, Nat.zero_add,
      ← ih]
    simp only [List.flatten_cons, List.cons_append, List.length_cons]
  | row run ns hline hmark ih =>
    rw [cells_newLine hline hmark, List.countP_append, hnone run hline hmark,
      List.countP_cons_of_pos rfl, Nat.zero_add, ← ih]
    simp only [List.flatten_cons, List.cons_append, List.length_cons, List.nil_append]

theorem countP_intercalate {sep : Node} (hsep : sep.isMark) {parts : List (List Node)}
    (h : parts ≠ []) : ([sep].intercalate parts).countP Node.isMark + 1 =
      parts.length + parts.flatten.countP Node.isMark := by
  induction parts with
  | nil => exact absurd rfl h
  | cons p parts ih =>
    cases parts with
    | nil => simp [Nat.add_comm]
    | cons q parts =>
      have hrest := ih (List.cons_ne_nil q parts)
      rw [List.intercalate_cons_cons, List.countP_append, List.countP_append,
        List.countP_cons_of_pos hsep, List.countP_nil, List.flatten_cons, List.countP_append,
        List.length_cons]
      omega

/-- The separators that an array writes are one less than its cells, and those in its cells. -/
theorem countP_stream {rows : List (List Node)} (hne : rows ≠ []) (hrows : ∀ row ∈ rows, row ≠ []) :
    (stream rows).countP Node.isMark + 1 =
      rows.flatten.length + (rows.flatten.flatMap (contents .cell)).countP Node.isMark := by
  rw [stream, countP_intercalate rfl (by simpa using hne), List.length_map]
  clear hne
  induction rows with
  | nil => rfl
  | cons row rows ih =>
    have hrow : row.map (contents .cell) ≠ [] := by simpa using hrows row (by simp)
    have hcount := countP_intercalate (show Node.alignMark.isMark from rfl) hrow
    have hrest := ih fun r hr => hrows r (List.mem_cons_of_mem _ hr)
    rw [List.length_map, ← List.flatMap_def] at hcount
    simp only [List.length_cons, List.map_cons, List.flatten_cons, List.length_append,
      List.flatMap_append, List.countP_append] at hrest ⊢
    omega

namespace Node

variable {c n s : Node} {stop : Stop}

theorem unlabelsGroups_reread : UnlabelsGroups reread :=
  ⟨kind_reread, reread_group⟩

/-- A slot that is read as what is in it holds no group around a single node, since the braces of the
group would be lost. -/
theorem Settled.reread_eq_blank_of_slot (h : s.Settled) (hs : s.reread.slot stop = s.blank) :
    s.isSingleGroup = false ∧ s.reread = s.blank := by
  have hsingle : s.isSingleGroup = false := by
    refine Bool.eq_false_iff.mpr fun hsingle => ?_
    unfold isSingleGroup at hsingle
    split at hsingle
    next id x =>
      rw [reread_group, blank_group] at hs
      have hx : x.reread = group "" [x.blank] := hs
      have hast := (h.child (c := x) (by simp [kind]) (by simp [children])).ast_reread
      rw [hx, ast_group] at hast
      have hlength := congrArg List.length hast
      simp [joined, following, ast_blank] at hlength
      omega
    next => cases hsingle
  exact ⟨hsingle, by rw [← hs, unlabelsGroups_reread.slot_eq hsingle]⟩

/-- A node that is read as it is holds in each slot what is read there, and below it everything else is
read as it is. -/
theorem slots_of_reread (hk : n.kind ≠ .array) (h : n.reread = n.blank) :
    (∀ stop s, (stop, s) ∈ n.arguments → s.reread.slot stop = s.blank) ∧
      ∀ c ∈ n.children, (∃ stop, (stop, c) ∈ n.arguments) ∨ c.reread = c.blank := by
  have hsequence : ∀ ns : List Node, ns.map reread = ns.map blank → ∀ c ∈ ns, c.reread = c.blank :=
    fun ns hns => List.map_inj_left.mp hns
  cases n with
  | array => exact absurd rfl hk
  | text id body | group id body | color id col body | aligned id body =>
    rw [reread_eq, blank_eq] at h
    refine ⟨by simp [arguments], fun c hc => .inr (hsequence body ?_ c hc)⟩
    simpa [mapChildren, children, withChildren, settle, withId] using h
  | frac id numerator denominator =>
    rw [reread_frac, blank_eq] at h
    simp only [mapChildren, children, withChildren, withId, List.map_cons, List.map_nil, frac.injEq,
      true_and] at h
    refine ⟨fun stop s hs => ?_, by simp [arguments, children]⟩
    simp only [arguments, List.mem_cons, Prod.mk.injEq, List.not_mem_nil, or_false] at hs
    rcases hs with ⟨rfl, rfl⟩ | ⟨rfl, rfl⟩
    · exact h.1
    · exact h.2
  | script id base sub sup =>
    rw [reread_script, blank_script, script.injEq] at h
    obtain ⟨-, hbase, hsub, hsup⟩ := h
    refine ⟨fun stop s hs => ?_, fun c hc => ?_⟩
    · obtain ⟨m, hm, he⟩ := List.mem_map.mp hs
      cases he
      rw [List.mem_append, Option.mem_toList, Option.mem_toList] at hm
      rcases hm with rfl | rfl
      · exact Option.some.inj hsub
      · exact Option.some.inj hsup
    · rcases List.mem_cons.mp hc with rfl | hc
      · exact .inr hbase
      · exact .inl ⟨.brace, List.mem_map_of_mem hc⟩
  | root id body index =>
    rw [reread_root, blank_root, root.injEq] at h
    obtain ⟨-, hbody, hindex⟩ := h
    refine ⟨fun stop s hs => ?_, fun c hc => ?_⟩
    · rcases List.mem_cons.mp hs with he | hs
      · cases he
        exact hbody
      · obtain ⟨m, hm, he⟩ := List.mem_map.mp hs
        cases he
        obtain rfl := Option.mem_toList.mp hm
        exact Option.some.inj hindex
    · rcases List.mem_cons.mp hc with rfl | hc
      · exact .inl ⟨.brace, List.mem_cons_self⟩
      · exact .inl ⟨.bracket, List.mem_cons_of_mem _ (List.mem_map_of_mem hc)⟩
  | brace id above body =>
    rw [reread_brace, blank_eq] at h
    simp only [mapChildren, children, withChildren, withId, List.map_cons, List.map_nil, brace.injEq,
      true_and] at h
    simp [arguments, children, h]
  | box id border body background =>
    rw [reread_box, blank_eq] at h
    simp only [mapChildren, children, withChildren, withId, List.map_cons, List.map_nil, box.injEq,
      true_and, and_true] at h
    simp [arguments, children, h]
  | strike id body =>
    rw [reread_strike, blank_eq] at h
    simp only [mapChildren, children, withChildren, withId, List.map_cons, List.map_nil, strike.injEq,
      true_and] at h
    simp [arguments, children, h]
  | _ => simp [arguments, children]

/-- The cells of an array that is read as it is are read as they are, too. -/
theorem cells_of_reread {id : String} {rows : List (List Node)} {align : Option String}
    (hrows : ∀ row ∈ rows, row ≠ []) (h : (array id rows align).reread = (array id rows align).blank) :
    (∀ s ∈ rows.flatten, s.reread.slot .cell = s.blank) ∧
      ∀ s ∈ rows.flatten, (.cell, contents .cell s) ∈ (array id rows align).runs := by
  by_cases hne : rows = []
  · simp [hne]
  rw [reread_array, blank_array, array.injEq, stream_reread, cutCells,
    if_neg (by simpa using stream_ne_nil hne hrows)] at h
  obtain ⟨-, hcut, -⟩ := h
  have hcount : (rows.flatten.flatMap (contents .cell)).countP isMark = 0 := by
    have hlength := congrArg (fun rows => rows.flatten.length) hcut
    have hmarks : ((stream rows).map reread).countP isMark = (stream rows).countP isMark := by
      rw [List.countP_map]
      exact List.countP_congr fun c _ => by simp [isMark_eq_of_kind c.kind_reread]
    have hstream := countP_stream hne hrows
    simp only [← List.map_flatten, List.length_map, length_cells, hmarks] at hlength
    omega
  have hcells := cells_stream hne hrows fun s hs c hc => by
    have hc := List.countP_eq_zero.mp hcount c (List.mem_flatMap.mpr ⟨s, hs, hc⟩)
    exact ⟨by rintro rfl; exact hc rfl, by rintro rfl; exact hc rfl⟩
  constructor
  · intro s hs
    obtain ⟨row, hrow, hs⟩ := List.mem_flatten.mp hs
    rw [cells_map_reread, hcells] at hcut
    simp only [List.map_map] at hcut
    have hline := List.map_inj_left.mp hcut row hrow
    simp only [Function.comp_apply, List.map_map] at hline
    rw [slot_reread]
    exact List.map_inj_left.mp hline s hs
  · intro s hs
    rw [runs, if_neg hne, hcells, ← List.map_flatten, List.map_map]
    exact List.mem_map_of_mem hs

/-- A settled node that is read as it is is canonical, and so is all that is below it. -/
theorem Settled.canonicalAt (h : n.Settled) (hblank : n.reread = n.blank) :
    n.CanonicalAt ∧ (n.kind ≠ .text → ∀ c ∈ n.children, c.reread = c.blank) := by
  by_cases htext : n.kind = .text
  · refine ⟨⟨h.self.1, h.self.2.1, ?_⟩, fun hk => absurd htext hk⟩
    cases n with
    | text => simp [arguments]
    | _ => cases htext
  have hsettled : ∀ c ∈ n.children, c.Settled := fun c hc => h.child htext hc
  by_cases hk : n.kind = .array
  · cases n with
    | array id rows align =>
      have hspelled : align.isSome ∧ ∀ row ∈ rows, row ≠ [] := by simpa [spelledAt] using h.self.1
      obtain ⟨hslots, hruns⟩ := cells_of_reread hspelled.2 hblank
      refine ⟨⟨h.self.1, h.self.2.1, fun stop s hs => ?_⟩, fun _ c hc => ?_⟩
      · obtain ⟨m, hm, he⟩ := List.mem_map.mp hs
        cases he
        exact ⟨((hsettled s hm).reread_eq_blank_of_slot (hslots s hm)).1,
          (h.self.2.2 _ _ (hruns s hm)).1⟩
      · exact ((hsettled c hc).reread_eq_blank_of_slot (hslots c hc)).2
    | _ => cases hk
  · obtain ⟨hslots, hrest⟩ := slots_of_reread hk hblank
    refine ⟨⟨h.self.1, h.self.2.1, fun stop s hs => ?_⟩, fun _ c hc => ?_⟩
    · have hs' := hsettled s (mem_children_of_arguments hs)
      exact ⟨(hs'.reread_eq_blank_of_slot (hslots stop s hs)).1,
        (h.self.2.2 _ _ (mem_runs_of_arguments hk hs)).1⟩
    · rcases hrest c hc with ⟨stop, hs⟩ | hc'
      · exact ((hsettled c hc).reread_eq_blank_of_slot (hslots stop c hs)).2
      · exact hc'

theorem Settled.canonicalAt_of_mem_outer {m : Node} (h : n.Settled) (hblank : n.reread = n.blank)
    (hm : m ∈ n.outer) : m.CanonicalAt := by
  induction n using childrenInduction with
  | step n ih =>
    obtain ⟨hself, hbelow⟩ := h.canonicalAt hblank
    rcases mem_outer_iff.mp hm with rfl | ⟨hk, c, hc, hm⟩
    · exact hself
    · exact ih c hc (h.child hk hc) (hbelow hk c hc) hm

end Node

namespace Formula

variable {f : Formula}

theorem settled_of_parse_self {text : String} (hf : parse [] text = .ok f)
    (hagain : parse [] (f.latex .ast) = .ok f) : ∀ n ∈ f.children, n.Settled := by
  have hmarkup := fromMarkup_of_parse hf
  exact settled_of_parse_latex rfl hmarkup hagain (by simp [equivalent])

/-- A formula that is parsed from its own markup is canonical, and its ids are path ids. -/
theorem canonical_of_parse_latex {text : String} (hf : parse [] text = .ok f)
    (hagain : parse [] (f.latex .ast) = .ok f) : f.Canonical ∧ f.assignPathIds = .ok f := by
  have hsettled := settled_of_parse_self hf hagain
  have hread := parse_joined (fun n hn => (hsettled n hn).legible) (toList_latex f)
  rw [hagain, Except.ok.injEq, Formula.mk.injEq] at hread
  have hreread : ∀ n ∈ f.children, n.reread = n.blank := by
    have hmap : f.children.map Node.reread = f.children.map Node.blank := by
      have hblank := congrArg (List.map Node.blank) hread
      rw [hblank, map_blank_labelNodes, List.map_map]
      exact List.map_congr_left fun n _ => n.blank_reread.symm
    exact List.map_inj_left.mp hmap
  have hlabels : labelNodes false f.children = f.children := by
    rw [← labelNodes_blank false, ← List.map_congr_left hreread, ← hread]
  refine ⟨fun n hn => ?_, ?_⟩
  · obtain ⟨top, htop, hn⟩ := List.mem_flatMap.mp hn
    exact (hsettled top htop).canonicalAt_of_mem_outer (hreread top htop) hn
  · rw [f.assignPathIds_eq_ok]
    simp only [hlabels]

end Formula

end FormulaDoc
