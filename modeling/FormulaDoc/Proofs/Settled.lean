import FormulaDoc.Proofs.Blank
import FormulaDoc.Proofs.ReadBack

namespace FormulaDoc

/-- A run that a reader ends where it was ended, and that is written again after it was collapsed. -/
def Stable (stop : Stop) (run : List Node) : Prop :=
  (∀ c ∈ run, stop.holds c.ast = false) ∧ contents stop (collapse run) = run

instance (stop : Stop) (run : List Node) : Decidable (Stable stop run) :=
  inferInstanceAs (Decidable (_ ∧ _))

/-- A node that the markup of its slots and names gives back. -/
def Node.SettledAt (n : Node) : Prop :=
  (∀ c ∈ n.names, Verbatim c) ∧ ∀ stop run, (stop, run) ∈ n.runs → Stable stop run

instance (n : Node) : Decidable n.SettledAt :=
  decidable_of_iff ((∀ c ∈ n.names, Verbatim c) ∧ ∀ p ∈ n.runs, Stable p.1 p.2)
    (and_congr_right fun _ => ⟨fun h stop run hrun => h (stop, run) hrun, fun h p hp => h p.1 p.2 hp⟩)

/-- A spelled tree that is settled throughout. -/
def Node.Settled (n : Node) : Prop :=
  ∀ m ∈ n.outer, m.spelledAt [] ∧ m.SettledAt

/-- A stable run of settled trees. -/
def SettledRun (stop : Stop) (run : List Node) : Prop :=
  (∀ n ∈ run, n.Settled) ∧ Stable stop run

theorem cells_map_reread (ns : List Node) :
    cells (ns.map Node.reread) = (cells ns).map (·.map (·.map Node.reread)) := by
  induction ns using cellInduction with
  | last run hline hmark =>
    rw [cells_of_notMem hline hmark,
      cells_of_notMem (notMem_reread rfl hline) (notMem_reread rfl hmark)]
    rfl
  | cell run ns hline hmark ih =>
    obtain ⟨row, rows, hcells, hrun⟩ := cells_alignMark hline hmark ns
    obtain ⟨row', rows', hcells', hrun'⟩ := cells_alignMark (notMem_reread rfl hline)
      (notMem_reread rfl hmark) (ns.map Node.reread)
    rw [hcells, hcells', List.map_cons, List.cons.injEq] at ih
    rw [List.map_append, List.map_cons, reread_mark (m := .alignMark) rfl, hrun', hrun, ih.1, ih.2]
    rfl
  | row run ns hline hmark ih =>
    rw [List.map_append, List.map_cons, reread_mark (m := .newLine) rfl, cells_newLine hline hmark,
      cells_newLine (notMem_reread rfl hline) (notMem_reread rfl hmark), ih]
    rfl

/-- Cells that are written again as they were are written as the same run. -/
theorem stream_cutCells {ns : List Node} (h : ∀ run ∈ (cells ns).flatten,
    contents .cell (collapse run) = run) : stream (cutCells ns) = ns := by
  unfold cutCells
  split
  next hns => rw [hns]; rfl
  next =>
    have hrow : ∀ row ∈ cells ns, (row.map collapse).map (contents .cell) = row := by
      intro row hrow
      rw [List.map_map]
      refine (List.map_congr_left fun run hrun => ?_).trans (List.map_id' row)
      exact h run (List.mem_flatten.mpr ⟨row, hrow, hrun⟩)
    have hcells : ((cells ns).map (·.map collapse)).map (fun row =>
        [Node.alignMark].intercalate (row.map (contents .cell))) =
        (cells ns).map [Node.alignMark].intercalate := by
      rw [List.map_map]
      refine List.map_congr_left fun row hmem => ?_
      rw [Function.comp_apply, hrow row hmem]
    rw [stream, hcells, intercalate_cells]

theorem cutCells_row_ne_nil {ns : List Node} : ∀ row ∈ cutCells ns, row ≠ [] := by
  unfold cutCells
  split
  next => simp
  next =>
    intro row hrow
    obtain ⟨r, hr, rfl⟩ := List.mem_map.mp hrow
    obtain ⟨l, -, rfl⟩ := List.mem_map.mp hr
    simp

namespace Node

variable {n : Node}

theorem Settled.mk (hself : n.spelledAt []) (hat : n.SettledAt)
    (hchildren : n.kind ≠ .text → ∀ c ∈ n.children, c.Settled) : n.Settled :=
  forall_outer ⟨hself, hat⟩ hchildren

theorem settled_group {id : String} {body : List Node} (h : ∀ c ∈ body, c.Settled) :
    (group id body).Settled := by
  refine .mk rfl ?_ fun _ => h
  exact ⟨by simp [names], by simp [runs, arguments]⟩

theorem settled_newLine : newLine.Settled := by
  refine .mk rfl ?_ (by simp [children])
  exact ⟨by simp [names], by simp [runs, arguments]⟩

theorem settled_alignMark : alignMark.Settled := by
  refine .mk rfl ?_ (by simp [children])
  exact ⟨by simp [names], by simp [runs, arguments]⟩

/-- A node whose contents in a slot are settled is settled itself. -/
theorem settled_of_contents {stop : Stop} (h : ∀ c ∈ contents stop n, c.Settled) : n.Settled := by
  rcases n.eq_group_or_kind_ne with ⟨id, body, rfl⟩ | hk
  · cases body with
    | nil => exact settled_group (by simp)
    | cons c body => exact settled_group h
  · rw [contents_eq_singleton hk] at h
    exact h n List.mem_cons_self

theorem settled_script {id : String} {base : Node} {sub sup : Option Node}
    (hself : (script id base sub sup).spelledAt []) (hbase : base.Settled)
    (hsub : ∀ s ∈ sub, SettledRun .brace (contents .brace s))
    (hsup : ∀ s ∈ sup, SettledRun .brace (contents .brace s)) : (script id base sub sup).Settled := by
  refine .mk hself ⟨by simp [names], ?_⟩ fun _ k hk => ?_
  · intro stop run hrun
    rcases exists_of_mem_runs hrun with ⟨_, _, _, ⟨⟩, -⟩ | ⟨-, k, hk, rfl⟩
    obtain ⟨k', hk', he⟩ := List.mem_map.mp hk
    cases he
    rcases List.mem_append.mp hk' with h | h
    · exact (hsub k (by simpa using h)).2
    · exact (hsup k (by simpa using h)).2
  · simp only [children, List.mem_cons, List.mem_append, Option.mem_toList] at hk
    rcases hk with rfl | hk | hk
    · exact hbase
    · exact settled_of_contents (hsub k hk).1
    · exact settled_of_contents (hsup k hk).1

theorem Settled.legible (h : n.Settled) : n.Legible := by
  intro m hm
  obtain ⟨hspelled, hnames, hruns⟩ := h m hm
  exact ⟨hspelled, hnames, fun stop run hrun => (hruns stop run hrun).1⟩

theorem Settled.child {c : Node} (h : n.Settled) (hn : n.kind ≠ .text) (hc : c ∈ n.children) :
    c.Settled :=
  fun m hm => h m (mem_outer_of_child hn hc hm)

theorem Settled.self (h : n.Settled) : n.spelledAt [] ∧ n.SettledAt :=
  h n n.self_mem_outer

theorem Settled.of_mem_contents {stop : Stop} {m : Node} (h : n.Settled) (hm : m ∈ contents stop n) :
    m.Settled :=
  fun k hk => h k (mem_outer_of_mem_contents hm hk)

theorem ast_braced_reread {base : Node} (h : base.reread.ast = base.ast) :
    base.reread.braced.ast = base.braced.ast := by
  rw [braced, braced, base.kind_reread]
  split
  next => rw [ast_group, ast_group, joined, joined, h]
  next => exact h

theorem scriptMarkup_reread (mark : Char) {script : Option Node}
    (h : ∀ s ∈ script, joined (contents .brace (s.reread.slot .brace)) = joined (contents .brace s)) :
    scriptMarkup mark (script.map (·.reread.slot .brace)) = scriptMarkup mark script := by
  cases script with
  | none => rfl
  | some s => rw [Option.map_some, scriptMarkup_some, scriptMarkup_some, h s rfl]

/-- An array whose cells are stable is written as it was, if all that stands in its cells is. -/
theorem ast_array_reread {id align : String} {rows : List (List Node)} (hrows : ∀ row ∈ rows, row ≠ [])
    (hstable : ∀ run, (.cell, run) ∈ (array id rows (some align)).runs → Stable .cell run)
    (hsame : ∀ s ∈ rows.flatten, ∀ c ∈ contents .cell s, c.reread.ast = c.ast) :
    (array id rows (some align)).reread.ast = (array id rows (some align)).ast := by
  have hstream : joined (stream (cutCells ((stream rows).map reread))) = joined (stream rows) := by
    by_cases hne : rows = []
    · rw [hne]
      rfl
    have hread : ∀ run ∈ (cells ((stream rows).map reread)).flatten,
        contents .cell (collapse run) = run := by
      intro run hrun
      rw [cells_map_reread, ← List.map_flatten] at hrun
      obtain ⟨written, hwritten, rfl⟩ := List.mem_map.mp hrun
      exact keepsGroups_reread.contents_collapse_iff.mpr (hstable written (by simpa [runs, hne] using hwritten)).2
    have hsame' : ∀ c ∈ stream rows, c.reread.ast = c.ast := by
      intro c hc
      rcases mem_stream hc with rfl | rfl | ⟨s, hs, hmem⟩
      · rw [reread_mark (m := .newLine) rfl]
      · rw [reread_mark (m := .alignMark) rfl]
      · exact hsame s hs c hmem
    rw [stream_cutCells hread, joined_congr hsame']
  rw [reread_array, stream_reread, ast_array _ _ cutCells_row_ne_nil, ast_array _ _ hrows, hstream]

/-- What a reader makes of the markup of a settled tree is written the same way. -/
theorem Settled.ast_reread (h : n.Settled) : n.reread.ast = n.ast := by
  induction hk : n.size using Nat.strong_induction_on generalizing n with
  | _ k ih =>
    subst hk
    have hchild : n.kind ≠ .text → ∀ c ∈ n.children, c.reread.ast = c.ast := fun hkind c hc =>
      ih c.size (size_lt_of_mem hc) (h.child hkind hc) rfl
    have hbelow : n.kind ≠ .text → ∀ s ∈ n.children, ∀ stop, ∀ c ∈ contents stop s,
        c.reread.ast = c.ast := by
      intro hkind s hs stop c hc
      have := size_lt_of_mem hs
      have := size_le_of_mem_contents hc
      exact ih c.size (by omega) ((h.child hkind hs).of_mem_contents hc) rfl
    have hruns : ∀ stop run, (stop, run) ∈ n.runs → ∀ c ∈ run, c.reread.ast = c.ast := by
      intro stop run hrun c hc
      rcases mem_runs hrun hc with ⟨-, rfl | rfl⟩ | ⟨s, hs, hkind, hmem⟩
      · rw [reread_mark (m := .newLine) rfl]
      · rw [reread_mark (m := .alignMark) rfl]
      · exact hbelow hkind s hs stop c hmem
    have hslot : ∀ stop s, (stop, contents stop s) ∈ n.runs →
        joined (contents stop (s.reread.slot stop)) = joined (contents stop s) := by
      intro stop s hrun
      rw [slot_reread, keepsGroups_reread.contents_collapse_iff.mpr (h.self.2.2 stop _ hrun).2]
      exact joined_congr (hruns stop _ hrun)
    cases n with
    | symbol | space | op | var | newLine | alignMark =>
      refine Eq.trans ?_ (ast_blank _)
      rw [reread_eq, blank_eq]
      rfl
    | text id body =>
      rw [reread_text, reread_letters h.self.1, ← blank_text, ast_blank]
    | group id body =>
      rw [reread_group, ast_group, ast_group]
      rw [@joined_congr reread body (hchild (by simp [kind]))]
    | color id c body =>
      rw [reread_color, ast_color, ast_color]
      rw [@joined_congr reread body (hchild (by simp [kind]))]
    | aligned id cells =>
      rw [reread_aligned, ast_aligned, ast_aligned]
      rw [@joined_congr reread cells (hchild (by simp [kind]))]
    | frac id numerator denominator =>
      rw [reread_frac, ast_frac, ast_frac, hslot .brace numerator (by simp [runs, arguments]),
        hslot .brace denominator (by simp [runs, arguments])]
    | script id base sub sup =>
      have hbase := ast_braced_reread (hchild (by simp [kind]) base (by simp [children]))
      rw [reread_script, ast_script, ast_script, hbase, scriptMarkup_reread '_' ?_,
        scriptMarkup_reread '^' ?_]
      · exact fun s hs => hslot .brace s (by simp [runs, arguments, Option.mem_def.mp hs])
      · exact fun s hs => hslot .brace s (by simp [runs, arguments, Option.mem_def.mp hs])
    | root id body index =>
      have hbody := hslot .brace body (by cases index <;> simp [runs, arguments])
      cases index with
      | none => rw [reread_root, Option.map_none, ast_root_none, ast_root_none, hbody]
      | some s =>
        rw [reread_root, Option.map_some, ast_root_some, ast_root_some, hbody,
          hslot .bracket s (by simp [runs, arguments])]
    | array id rows align =>
      have hspelled : align.isSome ∧ ∀ row ∈ rows, row ≠ [] := by
        simpa [spelledAt] using h.self.1
      obtain ⟨align, rfl⟩ := Option.isSome_iff_exists.mp hspelled.1
      exact ast_array_reread hspelled.2 (fun run hrun => h.self.2.2 .cell run hrun) fun s hs c hc =>
        hbelow (by simp [kind]) s hs .cell c hc
    | brace id above body =>
      rw [reread_brace, ast_brace, ast_brace, hslot .brace body (by simp [runs, arguments])]
    | box id border body background =>
      rw [reread_box, ast_box, ast_box, hslot .dollar body (by simp [runs, arguments])]
    | strike id body =>
      rw [reread_strike, ast_strike, ast_strike, hslot .brace body (by simp [runs, arguments])]

end Node

end FormulaDoc
