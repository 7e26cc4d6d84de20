import FormulaDoc.Parse
import FormulaDoc.Proofs.PathIds
import FormulaDoc.Proofs.ReadBack

namespace FormulaDoc

/-- A group around a single node, which the braces of a slot would swallow. -/
def Node.isSingleGroup : Node → Bool
  | .group _ [_] => true
  | _ => false

/-- What a slot that ends at the given stop can hold. -/
def Node.Fits (stop : Stop) (s : Node) : Prop :=
  s.isSingleGroup = false ∧ ∀ c ∈ contents stop s, stop.holds c.ast = false

instance (stop : Stop) (s : Node) : Decidable (s.Fits stop) :=
  inferInstanceAs (Decidable (_ ∧ _))

structure Node.CanonicalAt (n : Node) : Prop where
  spelled : n.spelledAt []
  names : ∀ c ∈ n.names, Verbatim c
  slots : ∀ stop s, (stop, s) ∈ n.arguments → s.Fits stop

theorem Node.canonicalAt_iff {n : Node} : n.CanonicalAt ↔
    n.spelledAt [] ∧ (∀ c ∈ n.names, Verbatim c) ∧ ∀ p ∈ n.arguments, p.2.Fits p.1 := by
  constructor
  · intro h
    refine ⟨h.spelled, h.names, ?_⟩
    intro p hp
    exact h.slots p.1 p.2 hp
  · rintro ⟨hspelled, hnames, hslots⟩
    refine ⟨hspelled, hnames, ?_⟩
    intro stop s hs
    exact hslots (stop, s) hs

instance (n : Node) : Decidable n.CanonicalAt :=
  decidable_of_iff _ Node.canonicalAt_iff.symm

/-- All nodes outside of texts are canonical. -/
def Formula.Canonical (f : Formula) : Prop :=
  ∀ n ∈ f.children.flatMap Node.outer, n.CanonicalAt

instance (f : Formula) : Decidable f.Canonical :=
  inferInstanceAs (Decidable (∀ n ∈ f.children.flatMap Node.outer, n.CanonicalAt))

namespace Node

variable {n : Node}

/-- Cells that show no separators are cut where they were put together. -/
theorem cells_stream {rows : List (List Node)} (hne : rows ≠ []) (hrows : ∀ row ∈ rows, row ≠ [])
    (hcells : ∀ s ∈ rows.flatten, ∀ c ∈ contents .cell s, c ≠ .newLine ∧ c ≠ .alignMark) :
    cells (stream rows) = rows.map (·.map (contents .cell)) := by
  have hrow : ∀ row ∈ rows, ∀ c ∈ [Node.alignMark].intercalate (row.map (contents .cell)),
      c = .alignMark ∨ c ≠ .newLine ∧ c ≠ .alignMark := by
    intro row hrow c hc
    refine (mem_intercalate hc).imp_right ?_
    rintro ⟨p, hp, hc⟩
    obtain ⟨s, hs, rfl⟩ := List.mem_map.mp hp
    exact hcells s (List.mem_flatten.mpr ⟨row, hrow, hs⟩) c hc
  have hlines : ∀ p ∈ rows.map fun row => [Node.alignMark].intercalate (row.map (contents .cell)),
      Node.newLine ∉ p := by
    intro p hp hline
    obtain ⟨row, hmem, rfl⟩ := List.mem_map.mp hp
    rcases hrow row hmem _ hline with h | h
    · cases h
    · exact h.1 rfl
  have hmarks : ∀ row ∈ rows, ∀ p ∈ row.map (contents .cell), Node.alignMark ∉ p := by
    intro row hmem p hp hmark
    obtain ⟨s, hs, rfl⟩ := List.mem_map.mp hp
    exact (hcells s (List.mem_flatten.mpr ⟨row, hmem, hs⟩) _ hmark).2 rfl
  rw [cells, stream, List.splitOn_intercalate _ hlines (by simpa using hne), List.map_map]
  refine List.map_congr_left fun row hmem => ?_
  exact List.splitOn_intercalate _ (hmarks row hmem) (by simpa using hrows row hmem)

/-- Whether a cell ends in front of a node: a separator, also with scripts. -/
def separates : Node → Bool
  | script _ base _ _ => base.isMark
  | n => n.isMark

theorem isMark_eq_of_kind {m n : Node} (h : m.kind = n.kind) : m.isMark = n.isMark := by
  cases m <;> cases n <;> first | rfl | cases h

theorem separates_of_kind_ne (h : n.kind ≠ .script) : n.separates = n.isMark := by
  cases n <;> first | rfl | exact absurd rfl h

theorem ne_marks_of_separates (h : n.separates = false) : n ≠ .newLine ∧ n ≠ .alignMark := by
  constructor <;> (rintro rfl; cases h)

theorem holds_of_isMark (h : n.isMark) : Stop.cell.holds n.ast := by
  cases n with
  | newLine => rw [ast_newLine]; rfl
  | alignMark => rw [ast_alignMark]; rfl
  | _ => cases h

theorem begins_of_isMark (h : n.isMark) : n.Begins := by
  cases n with
  | newLine => exact .newLine
  | alignMark => exact .alignMark
  | _ => cases h

theorem holds_of_separates (h : n.separates) : Stop.cell.holds n.ast := by
  cases n with
  | script id base sub sup =>
    have hbase : base.isMark := h
    have hbraced : base.braced = base := by cases base <;> first | rfl | cases hbase
    rw [Stop.holds_script (begins_of_isMark hbase).opening, hbraced]
    exact holds_of_isMark hbase
  | _ => exact holds_of_isMark h

/-- A run goes on in front of any branch that is no script. -/
theorem goesOn_of_branch (h : n.spelledAt []) (hbranch : n.isBranch) (hkind : n.kind ≠ .script)
    (stop : Stop) : stop.holds n.ast = false := by
  cases n with
  | symbol | space | text | op | newLine | alignMark | var => cases hbranch
  | script => exact absurd rfl hkind
  | group => rw [ast_group]; cases stop <;> rfl
  | frac => rw [ast_frac]; cases stop <;> rfl
  | root id body index =>
    cases index with
    | none => rw [ast_root_none]; cases stop <;> rfl
    | some m => rw [ast_root_some]; cases stop <;> rfl
  | array id rows align =>
    have hspelled : align.isSome ∧ ∀ row ∈ rows, row ≠ [] := by simpa [spelledAt] using h
    obtain ⟨align, rfl⟩ := Option.isSome_iff_exists.mp hspelled.1
    rw [ast_array id align hspelled.2]
    cases stop <;> rfl
  | brace id above body => rw [ast_brace]; cases above <;> cases stop <;> rfl
  | color => rw [ast_color]; cases stop <;> rfl
  | box => rw [ast_box]; cases stop <;> rfl
  | strike => rw [ast_strike]; cases stop <;> rfl
  | aligned => rw [ast_aligned]; cases stop <;> rfl

theorem Fits.separates {s c : Node} (h : s.Fits .cell) (hc : c ∈ contents .cell s) :
    c.separates = false := by
  refine Bool.eq_false_iff.mpr fun hsep => ?_
  have hstop := holds_of_separates hsep
  rw [h.2 c hc] at hstop
  cases hstop

/-- What is read in a slot as it is: no group around a single node and, in a cell, no separators. -/
def Fills (stop : Stop) (s : Node) : Prop :=
  s.isSingleGroup = false ∧ (stop = .cell → ∀ c ∈ contents .cell s, c.separates = false)

theorem CanonicalAt.fills (h : n.CanonicalAt) :
    ∀ stop s, (stop, s) ∈ n.arguments → s.Fills stop := by
  intro stop s hs
  have hfits := h.slots stop s hs
  refine ⟨hfits.1, ?_⟩
  rintro rfl c hc
  exact hfits.separates hc

/-- If no cell holds separators, each run of a node is what stands in a slot. -/
theorem exists_argument_of_mem_runs {stop : Stop} {run : List Node} (hspelled : n.spelledAt [])
    (hcells : ∀ s, (.cell, s) ∈ n.arguments → ∀ c ∈ contents .cell s, c.separates = false)
    (hrun : (stop, run) ∈ n.runs) : ∃ s, (stop, s) ∈ n.arguments ∧ run = contents stop s := by
  rcases exists_of_mem_runs hrun with ⟨id, rows, align, rfl, hne, rfl, hr⟩ | ⟨-, s, hs, rfl⟩
  · have hrows : align.isSome ∧ ∀ row ∈ rows, row ≠ [] := by simpa [spelledAt] using hspelled
    have hargument : ∀ s ∈ rows.flatten, (Stop.cell, s) ∈ (array id rows align).arguments :=
      fun s hs => List.mem_map.mpr ⟨s, hs, rfl⟩
    rw [cells_stream hne hrows.2 fun s hs c hc =>
      ne_marks_of_separates (hcells s (hargument s hs) c hc), ← List.map_flatten] at hr
    obtain ⟨s, hs, rfl⟩ := List.mem_map.mp hr
    exact ⟨s, hargument s hs, rfl⟩
  · exact ⟨s, hs, rfl⟩

theorem CanonicalAt.legibleAt (h : n.CanonicalAt) : n.LegibleAt := by
  have hcells : ∀ s, (.cell, s) ∈ n.arguments → ∀ c ∈ contents .cell s, c.separates = false :=
    fun s hs => (h.fills .cell s hs).2 rfl
  refine ⟨h.spelled, h.names, fun stop run hrun => ?_⟩
  obtain ⟨s, hs, rfl⟩ := exists_argument_of_mem_runs h.spelled hcells hrun
  exact (h.slots stop s hs).2

/-- A function on trees that keeps their kinds, takes the ids of groups away and goes on with the
members of groups. -/
structure UnlabelsGroups (f : Node → Node) : Prop where
  kind (n : Node) : (f n).kind = n.kind
  group (id : String) (body : List Node) : f (group id body) = Node.group "" (body.map f)

theorem unlabelsGroups_blank : UnlabelsGroups blank :=
  ⟨kind_blank, blank_group⟩

namespace UnlabelsGroups

variable {f : Node → Node} (hf : UnlabelsGroups f)

include hf

theorem contents_eq (stop : Stop) (n : Node) : contents stop (f n) = (contents stop n).map f := by
  have hgroups : KeepsGroups f := ⟨hf.kind, fun id body => ⟨"", hf.group id body⟩⟩
  exact hgroups.contents_eq stop n

/-- A slot that holds no group around a single node is filled with what it holds. -/
theorem slot_eq {s : Node} (h : s.isSingleGroup = false) (stop : Stop) : (f s).slot stop = f s := by
  rcases s.eq_group_or_kind_ne with ⟨id, body, rfl⟩ | hk
  · rw [hf.group]
    rcases body with _ | ⟨c, _ | ⟨d, body⟩⟩
    · rw [List.map_nil, slot, contents]
      split <;> rfl
    · simp [isSingleGroup] at h
    · rfl
  · rw [slot, hf.contents_eq, contents_eq_singleton hk]
    rfl

/-- Cells without separators of their own are what the array is read with. -/
theorem cutCells_stream {rows : List (List Node)} (hrows : ∀ row ∈ rows, row ≠ [])
    (hfilled : ∀ s ∈ rows.flatten, s.Fills .cell) :
    cutCells (stream (rows.map (·.map f))) = rows.map (·.map f) := by
  by_cases hne : rows = []
  · subst hne
    rfl
  have hcells := @cells_stream (rows.map (·.map f)) (by simpa using hne) (by simpa using hrows) ?_
  · have hstream : stream (rows.map (·.map f)) ≠ [] :=
      stream_ne_nil (by simpa using hne) (by simpa using hrows)
    rw [cutCells, if_neg hstream, hcells, List.map_map, List.map_map]
    refine List.map_congr_left fun row hrow => ?_
    simp only [Function.comp_apply, List.map_map]
    refine List.map_congr_left fun s hs => ?_
    exact hf.slot_eq (hfilled s (List.mem_flatten.mpr ⟨row, hrow, hs⟩)).1 .cell
  · intro s' hs' c' hc'
    rw [← List.map_flatten] at hs'
    obtain ⟨s, hs, rfl⟩ := List.mem_map.mp hs'
    rw [hf.contents_eq] at hc'
    obtain ⟨c, hc, rfl⟩ := List.mem_map.mp hc'
    have hmarks := ne_marks_of_separates ((hfilled s hs).2 rfl c hc)
    have hmark : ∀ m : Node, m.isMark → f c = m → c = m := by
      intro m hm he
      exact eq_of_isMark hm (by rw [← hf.kind c, he])
    exact ⟨fun he => hmarks.1 (hmark .newLine rfl he), fun he => hmarks.2 (hmark .alignMark rfl he)⟩

/-- The slots of a node are filled with what they hold, if that is read as it is. -/
theorem settle_mapChildren (hspelled : n.spelledAt [])
    (h : ∀ stop s, (stop, s) ∈ n.arguments → s.Fills stop) :
    (n.mapChildren f).settle = (n.mapChildren f).withId "" := by
  have hslot : ∀ stop s, (stop, s) ∈ n.arguments → (f s).slot stop = f s := fun stop s hs =>
    hf.slot_eq (h stop s hs).1 stop
  cases n with
  | frac id numerator denominator =>
    show Node.frac "" ((f numerator).slot .brace) ((f denominator).slot .brace) = _
    rw [hslot _ _ (by simp [arguments]), hslot _ _ (by simp [arguments])]
    rfl
  | script id base sub sup =>
    rw [mapChildren_script, settle, withId, Option.map_map, Option.map_map]
    congr 1
    · exact Option.map_congr fun s hs => hslot _ s (by simp [arguments, hs])
    · exact Option.map_congr fun s hs => hslot _ s (by simp [arguments, hs])
  | root id body index =>
    rw [mapChildren_root, settle, withId, Option.map_map, hslot _ _ (by simp [arguments])]
    congr 1
    exact Option.map_congr fun s hs => hslot _ s (by simp [arguments, hs])
  | array id rows align =>
    have hspelled : align.isSome ∧ ∀ row ∈ rows, row ≠ [] := by simpa [spelledAt] using hspelled
    rw [mapChildren_array, settle, withId, hf.cutCells_stream hspelled.2]
    exact fun s hs => h .cell s (List.mem_map.mpr ⟨s, hs, rfl⟩)
  | brace id above body =>
    show Node.brace "" above ((f body).slot .brace) = _
    rw [hslot _ _ (by simp [arguments])]
    rfl
  | box id border body background =>
    show Node.box "" border ((f body).slot .dollar) background = _
    rw [hslot _ _ (by simp [arguments])]
    rfl
  | strike id body =>
    show Node.strike "" ((f body).slot .brace) = _
    rw [hslot _ _ (by simp [arguments])]
    rfl
  | _ => rfl

end UnlabelsGroups

theorem reread_eq_blank (h : ∀ m ∈ n.outer, m.CanonicalAt) : n.reread = n.blank := by
  induction n using childrenInduction with
  | step n ih =>
    have hself := h n n.self_mem_outer
    by_cases hk : n.kind = .text
    · cases n with
      | text id body => rw [reread_text, reread_letters hself.spelled, blank_text]
      | _ => cases hk
    · have heach : ∀ c ∈ n.children, c.reread = c.blank := fun c hc =>
        ih c hc fun m hm => h m (mem_outer_of_child hk hc hm)
      have hbelow : n.mapChildren reread = n.mapChildren blank := mapChildren_congr heach
      rw [reread_eq, hbelow, unlabelsGroups_blank.settle_mapChildren hself.spelled hself.fills, ← blank_eq]

end Node

/-- Nodes without ids are put under path ids. -/
theorem parse_of_readNodes {ns : List Node} {text : String} (hread : readNodes [] text = .ok ns)
    (hblank : ns.map Node.blank = ns) :
    Formula.parse [] text = .ok ⟨labelNodes false ns, nodup_labelNodes ns⟩ := by
  rw [Formula.parse, hread]
  dsimp only
  rw [labelNodes_of_blank hblank, ofNodes_eq_ok (nodup_labelNodes ns)]

/-- The markup of legible trees is parsed as what a reader makes of them, under path ids. -/
theorem parse_joined {ns : List Node} (h : ∀ n ∈ ns, n.Legible) {text : String}
    (htext : text.toList = joined ns) :
    Formula.parse [] text = .ok ⟨labelNodes false (ns.map Node.reread), nodup_labelNodes _⟩ := by
  have htext' : text.toList = joined (ns.map id) := htext.trans (congrArg joined (List.map_id ns).symm)
  have hread := Writing.readNodes_joined (fun n hn => (h n hn).reproduces) htext'
  refine parse_of_readNodes hread ?_
  rw [List.map_map]
  exact List.map_congr_left fun n _ => n.blank_reread

/-- The plain markup of a canonical formula is parsed as the formula under path ids. -/
theorem Formula.Canonical.parse_latex {f : Formula} (h : f.Canonical) :
    ∃ g, f.assignPathIds = .ok g ∧ Formula.parse [] (f.latex .ast) = .ok g := by
  have houter : ∀ n ∈ f.children, ∀ m ∈ n.outer, m.CanonicalAt := by
    intro n hn m hm
    exact h m (List.mem_flatMap.mpr ⟨n, hn, hm⟩)
  have hlegible : ∀ n ∈ f.children, n.Legible := fun n hn m hm => (houter n hn m hm).legibleAt
  have hreread : f.children.map Node.reread = f.children.map Node.blank :=
    List.map_congr_left fun n hn => Node.reread_eq_blank (houter n hn)
  have hparse := parse_joined hlegible (toList_latex f)
  refine ⟨_, f.assignPathIds_eq_ok, ?_⟩
  rw [hparse]
  congr 2
  rw [hreread, labelNodes_blank]

/-- A fraction with a script, a colored text and an array with an empty cell are canonical. -/
theorem Formula.parse_latex_of_fraction : ∃ f g : Formula,
    f.children = [.frac "f" (.symbol "x" "x") (.script "s" (.symbol "y" "y") none (some (.symbol "n" "2"))),
      .color "c" "red" [.text "t" [.symbol "u" "\x7b"]],
      .array "m" [[.symbol "p" "1", .group "e" []]] (some "rl")] ∧
    f.Canonical ∧ f.assignPathIds = .ok g ∧ Formula.parse [] (f.latex .ast) = .ok g := by
  let f : Formula := ⟨[.frac "f" (.symbol "x" "x") (.script "s" (.symbol "y" "y") none
    (some (.symbol "n" "2"))), .color "c" "red" [.text "t" [.symbol "u" "\x7b"]],
    .array "m" [[.symbol "p" "1", .group "e" []]] (some "rl")], by decide +kernel⟩
  have hcanonical : f.Canonical := by decide +kernel
  obtain ⟨g, hg, hparse⟩ := hcanonical.parse_latex
  exact ⟨f, g, rfl, hcanonical, hg, hparse⟩

end FormulaDoc
