import FormulaDoc.Proofs.BottomUp
import FormulaDoc.Proofs.Stability

namespace FormulaDoc

namespace Node

variable {k m n : Node}

/-- A base without the braces that are written around a script in any case. -/
def bared : Node → Node
  | group _ [script id base sub sup] => script id base sub sup
  | n => n

/-- A script over a bared base. -/
def bareBase : Node → Node
  | script id base sub sup => script id base.bared sub sup
  | n => n

/-- A tree with all bases bared. -/
def unbraced : Node → Node :=
  everywhere bareBase

theorem bared_cases (n : Node) : n.bared = n ∨ ∃ id, n = group id [n.bared] ∧ n.bared.kind = .script := by
  unfold bared
  split
  next id s base sub sup => exact .inr ⟨id, rfl, rfl⟩
  next => exact .inl rfl

theorem isScriptGroup_bared (n : Node) : n.bared.isScriptGroup = false := by
  unfold bared
  split
  next => rfl
  next hn =>
    unfold isScriptGroup
    split
    next id c =>
      refine Bool.eq_false_iff.mpr fun hk => ?_
      cases c with
      | script i b s p => exact hn id i b s p rfl
      | _ => simp [kind] at hk
    next => rfl

theorem kind_bareBase (n : Node) : n.bareBase.kind = n.kind := by
  cases n <;> rfl

theorem bareBase_of_kind_ne (h : n.kind ≠ .script) : n.bareBase = n := by
  cases n <;> first | rfl | exact absurd rfl h

theorem arguments_bareBase (n : Node) : n.bareBase.arguments = n.arguments := by
  cases n <;> rfl

theorem shape_bareBase (n : Node) : n.bareBase.shape = n.shape := by
  cases n <;> rfl

theorem names_bareBase (n : Node) : n.bareBase.names = n.names :=
  names_eq_of_shape n.shape_bareBase

theorem unbraced_eq (n : Node) : n.unbraced = (n.mapChildren unbraced).bareBase :=
  everywhere_eq bareBase n

theorem kind_unbraced (n : Node) : n.unbraced.kind = n.kind := by
  rw [unbraced_eq, kind_bareBase, kind_mapChildren]

theorem unbraced_of_kind_ne (h : n.kind ≠ .script) : n.unbraced = n.mapChildren unbraced := by
  rw [unbraced_eq, bareBase_of_kind_ne]
  rwa [kind_mapChildren]

theorem unbraced_script (id : String) (base : Node) (sub sup : Option Node) :
    (script id base sub sup).unbraced =
      script id base.unbraced.bared (sub.map unbraced) (sup.map unbraced) := by
  rw [unbraced_eq, mapChildren_script, bareBase]

theorem keepsGroups_unbraced : KeepsGroups unbraced := by
  have hgroup : ∀ id zs, ∃ id', unbraced (.group id zs) = .group id' (zs.map unbraced) :=
    fun id _ => ⟨id, unbraced_of_kind_ne (by simp [kind])⟩
  exact ⟨kind_unbraced, hgroup⟩

theorem arguments_unbraced (n : Node) :
    n.unbraced.arguments = n.arguments.map fun p => (p.1, p.2.unbraced) := by
  rw [unbraced_eq, arguments_bareBase, arguments_mapChildren]

theorem shape_unbraced (n : Node) : n.unbraced.shape = n.shape := by
  rw [unbraced_eq, shape_bareBase, shape_mapChildren]

theorem names_unbraced (n : Node) : n.unbraced.names = n.names :=
  names_eq_of_shape n.shape_unbraced

theorem unbraced_leaf (h : n.isBranch = false) (htext : n.kind ≠ .text) : n.unbraced = n := by
  rw [unbraced_eq]
  cases n <;> first | exact absurd rfl htext | rfl | cases h

theorem all_isLetter_unbraced (body : List Node) :
    (body.map unbraced).all isLetter = body.all isLetter := by
  rw [List.all_map]
  exact List.all_congr rfl fun n => isLetter_eq_of_shape n.shape_unbraced

theorem markup_bareBase (n : Node) (mode : Mode) (asArg : Bool) :
    n.bareBase.markup mode asArg = n.markup mode asArg := by
  cases n with
  | script id base sub sup =>
    rcases base.bared_cases with hbase | ⟨i, hbase, hkind⟩
    · rw [bareBase, hbase]
    · rw [bareBase]
      generalize base.bared = b at hbase hkind
      subst hbase
      have hgroup : (group i [b]).markup mode false = '{' :: (b.markup mode false ++ ['}']) := by
        rw [markup_eq]
        simp [pieces, Piece.spaced, Piece.plain, Piece.markup]
      rw [markup_eq, markup_eq (script id _ sub sup)]
      have hkind' : (group i [b]).kind ≠ .script := by simp [kind]
      simp only [pieces, if_pos hkind, if_neg hkind']
      simp [Piece.plain, Piece.markup, hgroup]
  | _ => rfl

theorem markup_unbraced (n : Node) (mode : Mode) (asArg : Bool) :
    n.unbraced.markup mode asArg = n.markup mode asArg := by
  induction n using childrenInduction generalizing mode asArg with
  | step n ih =>
    have hempty : ∀ c ∈ n.children, c.unbraced.isEmptyGroup = c.isEmptyGroup := by
      intro c _
      refine isEmptyGroup_map c.kind_unbraced ?_
      rintro id body rfl
      exact keepsGroups_unbraced.group id body
    rw [unbraced_eq, markup_bareBase, markup_eq, markup_eq,
      pieces_mapChildren (fun c _ => c.kind_unbraced) hempty, List.flatMap_map]
    refine List.flatMap_congr fun p hp => ?_
    cases p with
    | lit s => rfl
    | child c a m => exact ih c (mem_children_of_piece hp) (m.getD mode) a

theorem ast_unbraced (n : Node) : n.unbraced.ast = n.ast :=
  n.markup_unbraced .ast false

theorem stable_unbraced {stop : Stop} {s : Node} :
    Stable stop (contents stop s.unbraced) ↔ Stable stop (contents stop s) := by
  rw [keepsGroups_unbraced.contents_eq]
  refine and_congr ?_ keepsGroups_unbraced.contents_collapse_iff
  simp [ast_unbraced]

theorem mem_outer_of_bared (h : m ∈ n.bared.outer) : m ∈ n.outer := by
  rcases n.bared_cases with hn | ⟨id, hn, -⟩
  · rwa [hn] at h
  · rw [hn]
    exact mem_outer_of_child (by simp [kind]) List.mem_cons_self h

theorem mem_outer_bared (h : m ∈ n.outer) (hm : m.kind ≠ .group) : m ∈ n.bared.outer := by
  rcases n.bared_cases with hn | ⟨id, hn, -⟩
  · rwa [hn]
  · rw [hn] at h
    rcases mem_outer_iff.mp h with rfl | ⟨-, c, hc, h⟩
    · exact absurd rfl hm
    · rwa [List.mem_singleton.mp hc] at h

/-- Besides the bases that are bared the children are those of the tree. -/
theorem mem_children_unbraced (h : m ∈ n.unbraced.children) :
    ∃ c ∈ n.children, m = c.unbraced ∨ m = c.unbraced.bared := by
  by_cases hscript : n.kind = .script
  · cases n with
    | script id base sub sup =>
      rw [unbraced_script] at h
      simp only [children, List.mem_cons, List.mem_append, Option.mem_toList,
        Option.map_eq_some_iff] at h ⊢
      rcases h with rfl | ⟨c, hc, rfl⟩ | ⟨c, hc, rfl⟩
      · exact ⟨base, .inl rfl, .inr rfl⟩
      · exact ⟨c, .inr (.inl hc), .inl rfl⟩
      · exact ⟨c, .inr (.inr hc), .inl rfl⟩
    | _ => cases hscript
  · rw [unbraced_of_kind_ne hscript, children_mapChildren] at h
    obtain ⟨c, hc, rfl⟩ := List.mem_map.mp h
    exact ⟨c, hc, .inl rfl⟩

theorem exists_children_unbraced {c : Node} (h : c ∈ n.children) :
    c.unbraced ∈ n.unbraced.children ∨ c.unbraced.bared ∈ n.unbraced.children := by
  by_cases hscript : n.kind = .script
  · cases n with
    | script id base sub sup =>
      rw [unbraced_script]
      simp only [children, List.mem_cons, List.mem_append, Option.mem_toList] at h ⊢
      rcases h with rfl | hsub | hsup
      · exact .inr (.inl rfl)
      · have hslot : sub.map unbraced = some c.unbraced := by rw [hsub]; rfl
        exact .inl (.inr (.inl hslot))
      · have hslot : sup.map unbraced = some c.unbraced := by rw [hsup]; rfl
        exact .inl (.inr (.inr hslot))
    | _ => cases hscript
  · rw [unbraced_of_kind_ne hscript, children_mapChildren]
    exact .inl (List.mem_map_of_mem h)

theorem exists_of_mem_outer_unbraced (h : m ∈ n.unbraced.outer) : ∃ k ∈ n.outer, m = k.unbraced := by
  induction n using childrenInduction with
  | step n ih =>
    rcases mem_outer_iff.mp h with rfl | ⟨hk, d, hd, h⟩
    · exact ⟨n, n.self_mem_outer, rfl⟩
    · rw [kind_unbraced] at hk
      obtain ⟨c, hc, hd⟩ := mem_children_unbraced hd
      have hmem : m ∈ c.unbraced.outer := by
        rcases hd with rfl | rfl
        · exact h
        · exact mem_outer_of_bared h
      obtain ⟨k, hk', rfl⟩ := ih c hc hmem
      exact ⟨k, mem_outer_of_child hk hc hk', rfl⟩

/-- Only groups get lost. -/
theorem unbraced_mem_outer (h : m ∈ n.outer) (hm : m.kind ≠ .group) : m.unbraced ∈ n.unbraced.outer := by
  have hm' : m.unbraced.kind ≠ .group := by rwa [kind_unbraced]
  induction n using childrenInduction with
  | step n ih =>
    rcases mem_outer_iff.mp h with rfl | ⟨hk, c, hc, h⟩
    · exact self_mem_outer _
    · have hk' : n.unbraced.kind ≠ .text := by rwa [kind_unbraced]
      have hbelow := ih c hc h
      rcases exists_children_unbraced hc with hd | hd
      · exact mem_outer_of_child hk' hd hbelow
      · have hbare := mem_outer_bared hbelow hm'
        exact mem_outer_of_child hk' hd hbare

/-- A bared node is spelled if, apart from braces around its base, it was spelled before. -/
theorem spelledAt_unbraced (h : n.bareBase.spelledAt []) : n.unbraced.spelledAt [] := by
  cases n with
  | script id base sub sup =>
    rw [unbraced_script]
    have hscripts : (sub.isSome || sup.isSome) = true ∧ base.bared.isScriptGroup = false := by
      simpa [bareBase, spelledAt] using h
    simpa [spelledAt, isScriptGroup_bared] using hscripts.1
  | text id body =>
    rw [unbraced_of_kind_ne (by simp [kind])]
    have hbody : body.all isLetter := h
    show (body.map unbraced).all isLetter
    rwa [all_isLetter_unbraced]
  | array id rows align =>
    rw [unbraced_of_kind_ne (by simp [kind]), mapChildren_array]
    simpa [bareBase, spelledAt] using h
  | root id body index =>
    rw [unbraced_of_kind_ne (by simp [kind]), mapChildren_root]
    rfl
  | symbol | space | op | var | newLine | alignMark =>
    rw [unbraced_leaf rfl (by simp [kind])]
    exact h
  | _ =>
    rw [unbraced_of_kind_ne (by simp [kind])]
    rfl

/-- A tree that markup can spell, if braces around bases are not counted and its texts may hold carriers. -/
def Writable (n : Node) : Prop :=
  ∀ m ∈ n.outer, m.bareBase.WordedAt

/-- A node with a text or slots that are read as they were written. -/
structure Steady (n : Node) : Prop where
  letters : n.kind = .text → ∀ c ∈ n.children, c.isLetter
  slots : ∀ stop s, (stop, s) ∈ n.arguments → Stable stop (contents stop s)

theorem Writable.self (h : n.Writable) : n.bareBase.WordedAt :=
  h n n.self_mem_outer

theorem Writable.child {c : Node} (h : n.Writable) (hn : n.kind ≠ .text) (hc : c ∈ n.children) :
    c.Writable :=
  fun m hm => h m (mem_outer_of_child hn hc hm)

theorem Writable.of_mem_contents {stop : Stop} (h : n.Writable) (hm : m ∈ contents stop n) :
    m.Writable :=
  fun k hk => h k (mem_outer_of_mem_contents hm hk)

theorem Writable.worded (h : n.Writable) : n.unbraced.Worded := by
  intro m hm
  obtain ⟨k, hk, rfl⟩ := exists_of_mem_outer_unbraced hm
  have hworded := h k hk
  refine ⟨?_, ?_, ?_⟩
  · intro htext
    rw [kind_unbraced] at htext
    have hspelled := hworded.spelled (by rwa [kind_bareBase])
    exact spelledAt_unbraced hspelled
  · intro c hc
    rw [names_unbraced] at hc
    exact hworded.names c (by rwa [names_bareBase])
  · intro htext c hc
    rw [kind_unbraced] at htext
    have hscript : k.kind ≠ .script := by simp [htext]
    have hletters := hworded.letters ((kind_bareBase k).trans htext)
    rw [bareBase_of_kind_ne hscript] at hletters
    rw [unbraced_of_kind_ne hscript, children_mapChildren] at hc
    obtain ⟨d, hd, rfl⟩ := List.mem_map.mp hc
    have hsame : d.unbraced.isLetter = d.isLetter := isLetter_eq_of_shape d.shape_unbraced
    rcases hletters d hd with hletter | ⟨s, hs, hprefix⟩
    · exact .inl (hsame.trans hletter)
    · exact .inr ⟨s, hs, by rwa [markup_unbraced]⟩

/-- The markup of a writable tree begins like an item. -/
theorem Writable.opening (h : n.Writable) : Opening n.ast := by
  rw [← ast_unbraced]
  exact opening_ast h.worded.outlined

theorem Writable.settled (h : n.Writable) (hsteady : ∀ m ∈ n.outer, m.Steady) : n.unbraced.Settled := by
  intro m hm
  have hnames := (h.worded m hm).names
  obtain ⟨k, hk, rfl⟩ := exists_of_mem_outer_unbraced hm
  have hspelled : k.unbraced.spelledAt [] := by
    refine spelledAt_unbraced ?_
    by_cases htext : k.kind = .text
    · have hletters := (hsteady k hk).letters htext
      cases k with
      | text id body => exact List.all_eq_true.mpr hletters
      | _ => cases htext
    · exact (h k hk).spelled (by rwa [kind_bareBase])
  have hstable : ∀ stop s, (stop, s) ∈ k.unbraced.arguments → Stable stop (contents stop s) := by
    intro stop s hs
    rw [arguments_unbraced] at hs
    obtain ⟨⟨stop', s'⟩, hs', he⟩ := List.mem_map.mp hs
    obtain ⟨rfl, rfl⟩ := Prod.mk.inj he
    have hslot := (hsteady k hk).slots _ s' hs'
    exact stable_unbraced.mpr hslot
  have hcells : ∀ s, (.cell, s) ∈ k.unbraced.arguments → ∀ c ∈ contents .cell s,
      c.separates = false := by
    intro s hs c hc
    refine Bool.eq_false_iff.mpr fun hsep => ?_
    have hends := holds_of_separates hsep
    rw [(hstable .cell s hs).1 c hc] at hends
    cases hends
  refine ⟨hspelled, hnames, ?_⟩
  intro stop run hrun
  obtain ⟨s, hs, rfl⟩ := exists_argument_of_mem_runs hspelled hcells hrun
  exact hstable stop s hs

/-- In a tree that stays settled without braces around bases all texts, and all slots but cells, are read
as they were written. -/
theorem Settled.steady (h : n.unbraced.Settled) (hm : m ∈ n.outer) (harray : m.kind ≠ .array) :
    m.Steady := by
  constructor
  · intro htext
    have hscript : m.kind ≠ .script := by simp [htext]
    have houter := unbraced_mem_outer hm (by simp [htext])
    have hspelled := (h m.unbraced houter).1
    rw [unbraced_of_kind_ne hscript] at hspelled
    cases m with
    | text id body =>
      have hall : (body.map unbraced).all isLetter := hspelled
      rw [all_isLetter_unbraced] at hall
      exact List.all_eq_true.mp hall
    | _ => cases htext
  · intro stop s hs
    have hgroup : m.kind ≠ .group := by
      intro hk
      cases m with
      | group => cases hs
      | _ => cases hk
    have hargument : (stop, s.unbraced) ∈ m.unbraced.arguments := by
      rw [arguments_unbraced]
      exact List.mem_map.mpr ⟨(stop, s), hs, rfl⟩
    have hrun : (stop, contents stop s.unbraced) ∈ m.unbraced.runs :=
      mem_runs_of_arguments (by rwa [kind_unbraced]) hargument
    have hstable := (h m.unbraced (unbraced_mem_outer hm hgroup)).2.2 stop _ hrun
    exact stable_unbraced.mp hstable

end Node

namespace Formula

variable {f g : Formula}

theorem joined_unbraced (ns : List Node) : joined (ns.map Node.unbraced) = joined ns :=
  joined_congr fun n _ => n.ast_unbraced

/-- The markup of a formula is parsed again and written the same way if the slots of its nodes are. -/
theorem parse_latex_of_steady (h : ∀ n ∈ f.children, n.Writable)
    (hsteady : ∀ m ∈ f.children.flatMap Node.outer, m.Steady) :
    ∃ g, parse [] (f.latex .ast) = .ok g ∧ g.equivalent f := by
  have hsettled : ∀ m ∈ f.children.map Node.unbraced, m.Settled := by
    intro m hm
    obtain ⟨n, hn, rfl⟩ := List.mem_map.mp hm
    exact (h n hn).settled fun k hk => hsteady k (List.mem_flatMap.mpr ⟨n, hn, hk⟩)
  exact parse_latex_of_settled (joined_unbraced f.children) hsettled

theorem steady_of_parse_latex (h : ∀ n ∈ f.children, n.Writable)
    (hg : parse [] (f.latex .ast) = .ok g) (he : g.equivalent f) :
    ∀ m ∈ f.children.flatMap Node.outer, m.kind ≠ .array → m.Steady := by
  have hworded : ∀ m ∈ f.children.map Node.unbraced, m.Worded := by
    intro m hm
    obtain ⟨n, hn, rfl⟩ := List.mem_map.mp hm
    exact (h n hn).worded
  have hsettled := settled_of_worded (joined_unbraced f.children) hworded hg he
  intro m hm harray
  obtain ⟨n, hn, hm⟩ := List.mem_flatMap.mp hm
  have hn' : n.unbraced.Settled := hsettled _ (List.mem_map_of_mem hn)
  exact hn'.steady hm harray

end Formula

end FormulaDoc
