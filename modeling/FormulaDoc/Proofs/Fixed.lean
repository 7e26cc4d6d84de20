import FormulaDoc.Proofs.Lead
import FormulaDoc.Proofs.Settled

namespace FormulaDoc

/-- The texts that a run of siblings ends in front of and that items can begin with. -/
def Stop.marks : Stop → List (List Char)
  | .bracket => [[']']]
  | .dollar => [['$']]
  | .cell => [['&'], ['\\', '\\']]
  | _ => []

namespace Node

variable {n : Node} {stop : Stop}

theorem exposed_of_kind_ne (h : n.Outlined) (hscript : n.kind ≠ .script) (hstop : stop.holds n.ast) :
    n.ast ∈ stop.marks ∧ (stop = .cell → n = .newLine ∨ n = .alignMark) := by
  have hbegins := h.begins hscript
  cases hbegins with
  | @character _ c hast hgap hc =>
    simp only [List.mem_cons, List.not_mem_nil, or_false, not_or] at hc
    have hnone : command? [c] = none := command?_eq_none hc.2.2.2.2.2
    rw [hast] at hstop ⊢
    cases stop <;> simp_all [Stop.holds, Stop.marks, startsCommand]
  | command name hast hname =>
    have hline : name.toList ≠ ['\\', '\\'] := by
      intro he
      obtain rfl : name = "\\\\" := by
        rw [← String.ofList_toList (s := name), he]
      exact hname (by decide)
    rw [Stop.holds_of_command (opening_ast h).starts hast hline] at hstop
    cases hstop
  | group id body =>
    rw [ast_group] at hstop
    cases stop <;> cases hstop
  | newLine =>
    rw [ast_newLine] at hstop ⊢
    cases stop with
    | cell => simp [Stop.marks]
    | _ => cases hstop
  | alignMark =>
    rw [ast_alignMark] at hstop ⊢
    cases stop with
    | cell => simp [Stop.marks]
    | _ => cases hstop

/-- An item that a run ends in front of is a mark, or a mark with scripts. -/
theorem exposed (h : n.Outlined) (hstop : stop.holds n.ast) :
    ∃ mark ∈ stop.marks, (n.ast = mark ∧ (stop = .cell → n = .newLine ∨ n = .alignMark)) ∨
      ∃ c t, (c = '_' ∨ c = '^') ∧ n.ast = mark ++ c :: t := by
  by_cases hscript : n.kind = .script
  · cases n with
    | script id base sub sup =>
      have hbase := h.child (by simp [kind]) (c := base) (by simp [children])
      have hself : (sub.isSome || sup.isSome) = true ∧ base.isScriptGroup = false := by
        simpa [spelledAt] using h.self (by simp [kind])
      obtain ⟨c, t, hc, hafter⟩ := scripts_eq_cons hself.1
      rw [Stop.holds_script (opening_ast hbase)] at hstop
      rw [ast_script, List.append_assoc, hafter]
      unfold braced at hstop ⊢
      split at hstop
      next hk =>
        rw [ast_group] at hstop
        cases stop <;> cases hstop
      next hk =>
        rw [if_neg hk]
        exact ⟨_, (exposed_of_kind_ne hbase hk hstop).1, .inr ⟨c, t, hc, rfl⟩⟩
    | _ => cases hscript
  · obtain ⟨hmark, hcell⟩ := exposed_of_kind_ne h hscript hstop
    exact ⟨_, hmark, .inl ⟨rfl, hcell⟩⟩

end Node

/-- A tree that is settled if it is read from its markup and written as the beginning of it. -/
def Node.Recurs (n : Node) : Prop :=
  ∀ w m r, CutOff w → Unscripted w → readItem [] (siblings []) (n.ast ++ w) = .ok (m, r) →
    m.ast <+: n.ast ++ w → n.Settled

/-- The reading of a settled tree. -/
theorem Node.Settled.eq_of_readItem {n m : Node} {w r : List Char} (h : n.Settled) (hw : CutOff w)
    (hw' : Unscripted w) (hread : readItem [] (siblings []) (n.ast ++ w) = .ok (m, r)) :
    m = n.reread ∧ m.ast = n.ast ∧ r = skipGap w := by
  have hback := h.legible.readsBack w hw hw'
  rw [hread] at hback
  cases hback
  exact ⟨rfl, h.ast_reread, rfl⟩

theorem Node.Settled.runReadsBack {stop : Stop} {ns : List Node}
    (h : ∀ n ∈ ns, n.Settled ∧ stop.holds n.ast = false) : RunReadsBack stop ns := by
  intro n hn
  obtain ⟨hsettled, hstop⟩ := h n hn
  have hlegible := hsettled.legible
  exact ⟨hlegible.spelled, hlegible.readsBack, hstop⟩

section

variable {stop : Stop} {ns items : List Node} {w d r : List Char}

theorem siblings_cons (stop : Stop) (n : Node) (ns : List Node) (w : List Char) :
    siblings [] stop (following (n :: ns) ++ w) = siblings [] stop (joined (n :: ns) ++ w) := by
  rw [following_cons]
  exact siblings_skipGap rfl

/-- A reader of siblings stops in front of the first one, or reads an item from it. -/
theorem siblings_joined_cons {n : Node} (hns : ∀ m ∈ n :: ns, m.Outlined) (hw : Ends stop w)
    (hread : siblings [] stop (joined (n :: ns) ++ w) = .ok (items, r)) :
    (stop.holds n.ast ∧ items = []) ∨ (stop.holds n.ast = false ∧ ∃ m ms r', items = m :: ms ∧
      readItem [] (siblings []) (n.ast ++ (following ns ++ w)) = .ok (m, r') ∧
      siblings [] stop r' = .ok (ms, r)) := by
  have hcut := following_cutOff (fun m hm => hns m (List.mem_cons_of_mem _ hm)) hw.cutOff
  have hopen := Node.opening_ast (hns n List.mem_cons_self)
  have hgap : skipGap (joined (n :: ns) ++ w) = n.ast ++ (following ns ++ w) := by
    rw [joined, List.append_assoc]
    exact (hopen.append hcut.1).skipGap
  have hread' := (siblings_eq_ok (by simp)).mp hread
  rw [hgap, Stop.holds_append hopen hcut.1] at hread'
  rcases hread' with ⟨hend, rfl, -⟩ | ⟨-, hstop, m, ms, r', rfl, hm, hms⟩
  · obtain ⟨c, t, hc, -⟩ := hopen.head
    exact .inl ⟨hend.resolve_left (by simp [hc]), rfl⟩
  · exact .inr ⟨hstop, m, ms, r', rfl, hm, hms⟩

theorem settled_following (hns : ∀ n ∈ ns, n.Outlined ∧ n.Recurs) (hw : Ends stop w)
    (hread : siblings [] stop (following ns ++ w) = .ok (items, r))
    (hp : following items ++ d <+: following ns ++ w)
    (hexposed : ∀ n ∈ ns, stop.holds n.ast → ∀ u, ¬ d <+: ' ' :: (n.ast ++ u)) :
    ∀ n ∈ ns, n.Settled ∧ stop.holds n.ast = false := by
  induction ns generalizing items with
  | nil => simp
  | cons n ns ih =>
    have htext : following (n :: ns) ++ w = ' ' :: (n.ast ++ (following ns ++ w)) := by
      rw [following_cons, joined, List.cons_append, List.append_assoc]
    rw [siblings_cons] at hread
    rw [htext] at hp
    rcases siblings_joined_cons (fun m hm => (hns m hm).1) hw hread with
      ⟨hstop, rfl⟩ | ⟨hstop, m, ms, r', rfl, hm, hms⟩
    · exact absurd hp (hexposed n List.mem_cons_self hstop _)
    · have hothers : ∀ m ∈ ns, m.Outlined ∧ m.Recurs := fun m hm => hns m (List.mem_cons_of_mem _ hm)
      have hmore : ∀ m ∈ ns, m.Outlined := fun m hm => (hothers m hm).1
      have hcut := following_cutOff hmore hw.cutOff
      have hunscripted := following_unscripted hmore hw.cutOff hw.unscripted
      rw [following_cons, joined, List.cons_append, List.append_assoc, List.prefix_cons_inj] at hp
      have hitem : m.ast <+: n.ast ++ (following ns ++ w) := (List.prefix_append _ _).trans hp
      have hsettled := (hns n List.mem_cons_self).2 _ m r' hcut hunscripted hm hitem
      obtain ⟨-, hast, rfl⟩ := hsettled.eq_of_readItem hcut hunscripted hm
      rw [hast, List.prefix_append_right_inj] at hp
      rw [siblings_skipGap (skipGap_idem _)] at hms
      have hrest := ih hothers hms hp fun m hm => hexposed m (List.mem_cons_of_mem _ hm)
      intro k hk
      rcases List.mem_cons.mp hk with rfl | hk
      · exact ⟨hsettled, hstop⟩
      · exact hrest k hk

/-- Runs that are read up to their end and written again are settled. -/
theorem settled_joined (hns : ∀ n ∈ ns, n.Outlined ∧ n.Recurs) (hw : Ends stop w)
    (hread : siblings [] stop (joined ns ++ w) = .ok (items, r))
    (hp : joined items ++ d <+: joined ns ++ w)
    (hexposed : ∀ n ∈ ns, stop.holds n.ast →
      (∀ ms, ¬ d <+: n.ast ++ (following ms ++ w)) ∧ ∀ u, ¬ d <+: ' ' :: (n.ast ++ u)) :
    ∀ n ∈ ns, n.Settled ∧ stop.holds n.ast = false := by
  cases ns with
  | nil => simp
  | cons n ns =>
    rcases siblings_joined_cons (fun m hm => (hns m hm).1) hw hread with
      ⟨hstop, rfl⟩ | ⟨-, m, ms, r', rfl, -⟩
    · rw [joined, joined, List.append_assoc] at hp
      exact absurd hp ((hexposed n List.mem_cons_self hstop).1 ns)
    · rw [← siblings_cons] at hread
      refine settled_following hns hw hread ?_ fun n hn hstop => (hexposed n hn hstop).2
      rw [following_cons, following_cons, List.cons_append, List.cons_append]
      exact (List.prefix_cons_inj _).mpr hp

theorem contents_collapse (hstop : stop ≠ .cell) (h : ∀ id zs, ns ≠ [.group id zs]) :
    contents stop (collapse ns) = ns := by
  rcases ns with _ | ⟨n, _ | ⟨m, ns⟩⟩
  · simp [collapse, contents, hstop]
  · refine contents_eq_singleton fun hk => ?_
    cases n with
    | group id zs => exact h id zs rfl
    | _ => cases hk
  · rfl

/-- A run of settled nodes is stable if what it is read as is written with all its braces. -/
theorem settledRun_of_contents (hns : ∀ n ∈ ns, n.Settled ∧ stop.holds n.ast = false)
    (hread : contents stop (collapse (ns.map Node.reread)) = ns.map Node.reread) : SettledRun stop ns := by
  have hgroups := Node.keepsGroups_reread.contents_collapse_iff.mp hread
  exact ⟨fun n hn => (hns n hn).1, fun n hn => (hns n hn).2, hgroups⟩

/-- A slot that is read up to its end and written again holds a stable run. -/
theorem settledRun_slot (hstop : stop ≠ .cell) (hns : ∀ n ∈ ns, n.Outlined ∧ n.Recurs)
    (hw : Ends stop w) (htag : Untagged w) (hread : siblings [] stop (joined ns ++ w) = .ok (items, r))
    (hp : joined (contents stop (collapse items)) ++ d <+: joined ns ++ w)
    (hd : ∃ c t, d = c :: t ∧ isLead c = false)
    (hexposed : ∀ n ∈ ns, stop.holds n.ast →
      (∀ ms, ¬ d <+: n.ast ++ (following ms ++ w)) ∧ ∀ u, ¬ d <+: ' ' :: (n.ast ++ u)) :
    SettledRun stop ns ∧ items = ns.map Node.reread ∧ r = skipGap w := by
  have houtlined : ∀ n ∈ ns, n.Outlined := fun n hn => (hns n hn).1
  have huntagged : Untagged (joined ns ++ w) := Node.untagged_joined houtlined
    (fun n hn u hu => Node.untagged_ast (houtlined n hn) hu) hw.cutOff htag
  have hsingle : ∀ id zs, items ≠ [.group id zs] := by
    rintro id zs rfl
    rw [collapse, contents_group hstop] at hp
    exact not_prefix_of_group hread huntagged (.inr hd) hp
  have hitems := contents_collapse hstop hsingle
  rw [hitems] at hp
  have hsettled := settled_joined hns hw hread hp hexposed
  have hback := siblings_joined (Node.Settled.runReadsBack hsettled) hw
  rw [hread] at hback
  cases hback
  exact ⟨settledRun_of_contents hsettled hitems, rfl, rfl⟩

/-- What is written after a cell: a separator and another cell, or the end of the array. -/
inductive CellEnd : List Char → Prop
  | cell (s) : CellEnd (' ' :: '&' :: ' ' :: s)
  | row (s) : CellEnd (' ' :: '\\' :: '\\' :: ' ' :: s)
  | last (s) : CellEnd ('\n' :: s)

theorem exposed_cell {n : Node} (hn : n.Outlined) (hmarks : n ≠ .newLine ∧ n ≠ .alignMark)
    (hstop : Stop.cell.holds n.ast) : ∃ c t, (c = '_' ∨ c = '^') ∧
      (n.ast = '&' :: c :: t ∨ n.ast = '\\' :: '\\' :: c :: t) := by
  obtain ⟨mark, hmark, ⟨-, hcell⟩ | ⟨c, t, hc, hast⟩⟩ := Node.exposed hn hstop
  · rcases hcell rfl with rfl | rfl
    · exact absurd rfl hmarks.1
    · exact absurd rfl hmarks.2
  · simp only [Stop.marks, List.mem_cons, List.not_mem_nil, or_false] at hmark
    rcases hmark with rfl | rfl
    · exact ⟨c, t, hc, .inl hast⟩
    · exact ⟨c, t, hc, .inr hast⟩

theorem CellEnd.not_isPrefix {n : Node} (hd : CellEnd d) (hn : n.Outlined)
    (hmarks : n ≠ .newLine ∧ n ≠ .alignMark) (hstop : Stop.cell.holds n.ast) (u : List Char) :
    ¬ d <+: ' ' :: (n.ast ++ u) := by
  obtain ⟨c, t, hc, hast⟩ := exposed_cell hn hmarks hstop
  rintro ⟨v, hv⟩
  have hne : c ≠ ' ' := by rcases hc with rfl | rfl <;> decide
  rcases hast with hast | hast <;> rw [hast] at hv <;> cases hd <;> simp at hv
  · exact hne hv.1.symm
  · exact hne hv.1.symm

theorem contents_collapse_cell (hne : ns ≠ []) (h : ∀ id z zs, ns ≠ [.group id (z :: zs)]) :
    contents .cell (collapse ns) = ns := by
  rcases ns with _ | ⟨n, _ | ⟨m, ns⟩⟩
  · exact absurd rfl hne
  · rcases n.eq_group_or_kind_ne with ⟨id, zs, rfl⟩ | hk
    · cases zs with
      | nil => rfl
      | cons z zs => exact absurd rfl (h id z zs)
    · exact contents_eq_singleton hk
  · rfl

/-- A cell that shows no separators is not read as an empty one and written again. -/
theorem ne_nil_of_cell (houtlined : ∀ n ∈ ns, n.Outlined)
    (hmarks : ∀ n ∈ ns, n ≠ .newLine ∧ n ≠ .alignMark) (hw : Ends .cell w) (hbrace : ¬ [' ', '{'] <+: w)
    (hread : siblings [] .cell (following ns ++ w) = .ok (items, r))
    (hp : following (contents .cell (collapse items)) ++ d <+: following ns ++ w) : items ≠ [] := by
  rintro rfl
  have hempty : following (contents .cell (collapse [])) ++ d = [' ', '{'] ++ '}' :: d := by
    have hcontents : contents .cell (collapse []) = [.group "" []] := rfl
    rw [hcontents, following_cons, joined, Node.ast_group]
    rfl
  rw [hempty] at hp
  cases ns with
  | nil => exact hbrace ((List.prefix_append _ _).trans hp)
  | cons n ns =>
    rw [siblings_cons] at hread
    rcases siblings_joined_cons houtlined hw hread with ⟨hstop, -⟩ | ⟨-, _, _, _, hcons, -⟩
    · obtain ⟨c, t, -, hast⟩ := exposed_cell (houtlined n List.mem_cons_self)
        (hmarks n List.mem_cons_self) hstop
      rw [following_cons, joined] at hp
      obtain ⟨v, hv⟩ := hp
      rcases hast with hast | hast <;> simp [hast] at hv
    · cases hcons

/-- A cell is not read as a group whose braces are dropped when it is written again. -/
theorem ne_group_of_cell (houtlined : ∀ n ∈ ns, n.Outlined) (hw : Ends .cell w) (htag : Untagged w)
    (hread : siblings [] .cell (following ns ++ w) = .ok (items, r))
    (hp : following (contents .cell (collapse items)) ++ d <+: following ns ++ w) (id : String)
    (z : Node) (zs : List Node) : items ≠ [.group id (z :: zs)] := by
  rintro rfl
  have hcontents : contents .cell (collapse [.group id (z :: zs)]) = z :: zs := rfl
  rw [hcontents] at hp
  cases ns with
  | nil =>
    have hback := @siblings_following .cell [] _ (by simp [RunReadsBack]) hw
    rw [hread] at hback
    cases hback
  | cons n ns =>
    have huntagged : Untagged (joined (n :: ns) ++ w) := Node.untagged_joined houtlined
      (fun n hn u hu => Node.untagged_ast (houtlined n hn) hu) hw.cutOff htag
    rw [siblings_cons] at hread
    rw [following_cons, following_cons, List.cons_append, List.cons_append, List.prefix_cons_inj] at hp
    exact not_prefix_of_group hread huntagged (.inl (by simp)) hp

/-- A cell that is read up to its end and written again is a stable run. -/
theorem settledRun_cell (hns : ∀ n ∈ ns, n.Outlined ∧ n.Recurs)
    (hmarks : ∀ n ∈ ns, n ≠ .newLine ∧ n ≠ .alignMark) (hw : Ends .cell w) (htag : Untagged w)
    (hbrace : ¬ [' ', '{'] <+: w)
    (hread : siblings [] .cell (following ns ++ w) = .ok (items, r))
    (hp : following (contents .cell (collapse items)) ++ d <+: following ns ++ w) (hd : CellEnd d) :
    SettledRun .cell ns ∧ items = ns.map Node.reread ∧ r = skipGap w := by
  have houtlined : ∀ n ∈ ns, n.Outlined := fun n hn => (hns n hn).1
  have hitems := contents_collapse_cell (ne_nil_of_cell houtlined hmarks hw hbrace hread hp)
    (ne_group_of_cell houtlined hw htag hread hp)
  rw [hitems] at hp
  have hsettled := settled_following hns hw hread hp fun n hn hstop u =>
    hd.not_isPrefix (houtlined n hn) (hmarks n hn) hstop u
  have hback := siblings_following (Node.Settled.runReadsBack hsettled) hw
  rw [hread] at hback
  cases hback
  exact ⟨settledRun_of_contents hsettled hitems, rfl, rfl⟩

theorem consCell_ne_nil (n : Node) (rows : List (List Node)) : consCell n rows ≠ [] := by
  cases rows <;> simp [consCell]

theorem ReadsRows.ne_nil {nested : Nested} {bound : Nat} {s rest : List Char} {rows : List (List Node)}
    (h : ReadsRows nested bound true s rows rest) : rows ≠ [] := by
  cases h with
  | cell => exact consCell_ne_nil _ _
  | row => simp
  | last => simp

theorem stream_cons_cons (c n : Node) (row : List Node) (rows : List (List Node)) :
    stream ((c :: n :: row) :: rows) = contents .cell c ++ .alignMark :: stream ((n :: row) :: rows) := by
  cases rows <;> simp [stream]

theorem stream_singleton_cons (c : Node) {rows : List (List Node)} (h : rows ≠ []) :
    stream ([c] :: rows) = contents .cell c ++ .newLine :: stream rows := by
  cases rows with
  | nil => exact absurd rfl h
  | cons row rows => simp [stream]

/-- The first cell of the rows that were read, and what is read and written after it. -/
theorem ReadsRows.first {bound : Nat} {started : Bool} {s rest : List Char}
    {rows : List (List Node)} (h : ReadsRows (siblings []) bound started s rows rest)
    (hrows : rows ≠ []) :
    ∃ items r d, siblings [] .cell s = .ok (items, r) ∧
      following (stream rows) ++ arrayEnd [] = following (contents .cell (collapse items)) ++ d ∧
      ((∃ bound more t, r = '&' :: t ∧ ReadsRows (siblings []) bound true t more rest ∧
          d = ' ' :: '&' :: (following (stream more) ++ arrayEnd [])) ∨
        (∃ bound more t, r = '\\' :: '\\' :: t ∧ ReadsRows (siblings []) bound true t more rest ∧
          d = ' ' :: '\\' :: '\\' :: (following (stream more) ++ arrayEnd [])) ∨
        startsCommand "\\end" r ∧ d = arrayEnd []) := by
  cases h with
  | @cell bound _ _ t _ items more hs h =>
    refine ⟨items, _, _, hs, ?_, .inl ⟨bound, more, t, rfl, h, rfl⟩⟩
    obtain ⟨row, rows, rfl⟩ := List.exists_cons_of_ne_nil h.ne_nil
    obtain ⟨n, row, rfl⟩ := List.exists_cons_of_ne_nil
      (h.row_ne_nil row List.mem_cons_self)
    rw [consCell, stream_cons_cons, following_append, following_cons, joined, Node.ast_alignMark]
    simp
  | @row bound _ _ t _ items more hs h =>
    refine ⟨items, _, _, hs, ?_, .inr (.inl ⟨bound, more, t, rfl, h, rfl⟩)⟩
    rw [stream_singleton_cons _ h.ne_nil, following_append, following_cons, joined, Node.ast_newLine]
    simp
  | @last _ _ _ _ items hs hend =>
    refine ⟨items, _, _, hs, ?_, .inr (.inr ⟨hend, rfl⟩)⟩
    split at hrows
    next hc => simp [hc, stream]
    next => exact absurd rfl hrows

theorem ReadsRows.following_stream {bound : Nat} {s rest : List Char} {rows : List (List Node)}
    (h : ReadsRows (siblings []) bound true s rows rest) : ∃ t, following (stream rows) = ' ' :: t := by
  have hrow := h.row_ne_nil
  rw [following_eq (stream_ne_nil h.ne_nil hrow)]
  exact ⟨_, rfl⟩

theorem SettledRun.following_reread (h : SettledRun stop ns) :
    following (contents stop (collapse (ns.map Node.reread))) = following ns := by
  rw [Node.keepsGroups_reread.contents_collapse_iff.mpr h.2.2]
  exact following_congr fun n hn => (h.1 n hn).ast_reread

/-- The first cell of rows that are read up to their end and written again is a stable run, and it
is followed by the separator that stands behind it. -/
theorem settledRun_first {bound : Nat} {started : Bool} {s rest : List Char} {rows : List (List Node)}
    (hns : ∀ n ∈ ns, n.Outlined ∧ n.Recurs) (hline : .newLine ∉ ns) (hmark : .alignMark ∉ ns)
    (hw : Ends .cell w) (htag : Untagged w) (hbrace : ¬ [' ', '{'] <+: w)
    (h : ReadsRows (siblings []) bound started s rows rest) (hrows : rows ≠ [])
    (hs : skipGap s = skipGap (following ns ++ w))
    (hp : following (stream rows) ++ arrayEnd [] <+: following ns ++ w) :
    SettledRun .cell ns ∧
      ((∃ bound more t, skipGap w = '&' :: t ∧ ReadsRows (siblings []) bound true t more rest ∧
          ' ' :: '&' :: (following (stream more) ++ arrayEnd []) <+: w) ∨
        (∃ bound more t, skipGap w = '\\' :: '\\' :: t ∧
          ReadsRows (siblings []) bound true t more rest ∧
          ' ' :: '\\' :: '\\' :: (following (stream more) ++ arrayEnd []) <+: w) ∨
        startsCommand "\\end" (skipGap w)) := by
  obtain ⟨items, r, d, hread, hstream, halt⟩ := h.first hrows
  have hd : CellEnd d := by
    rcases halt with ⟨_, _, _, -, hmore, rfl⟩ | ⟨_, _, _, -, hmore, rfl⟩ | ⟨-, rfl⟩
    · obtain ⟨t, ht⟩ := hmore.following_stream
      rw [ht]
      exact .cell _
    · obtain ⟨t, ht⟩ := hmore.following_stream
      rw [ht]
      exact .row _
    · exact .last _
  have hmarks : ∀ n ∈ ns, n ≠ .newLine ∧ n ≠ .alignMark := fun n hn =>
    ⟨fun he => hline (he ▸ hn), fun he => hmark (he ▸ hn)⟩
  rw [hstream] at hp
  rw [siblings_skipGap hs] at hread
  obtain ⟨hsettled, rfl, rfl⟩ := settledRun_cell hns hmarks hw htag hbrace hread hp hd
  rw [hsettled.following_reread, List.prefix_append_right_inj] at hp
  refine ⟨hsettled, ?_⟩
  rcases halt with ⟨b, more, t, ht, hmore, rfl⟩ | ⟨b, more, t, ht, hmore, rfl⟩ | ⟨hend, -⟩
  · exact .inl ⟨b, more, t, ht, hmore, hp⟩
  · exact .inr (.inl ⟨b, more, t, ht, hmore, hp⟩)
  · exact .inr (.inr hend)

/-- The cells of an array that is read up to its end and written again are stable runs. -/
theorem settledRun_cells {bound : Nat} {started : Bool} {s rest : List Char} {rows : List (List Node)}
    (hns : ∀ n ∈ ns, n.Outlined ∧ n.Recurs) (h : ReadsRows (siblings []) bound started s rows rest)
    (hrows : rows ≠ []) (hs : skipGap s = skipGap (following ns ++ arrayEnd w))
    (hp : following (stream rows) ++ arrayEnd [] <+: following ns ++ arrayEnd w) :
    ∀ run ∈ (cells ns).flatten, SettledRun .cell run := by
  induction ns using cellInduction generalizing bound started s rows with
  | last run hline hmark =>
    obtain ⟨hfirst, -⟩ := settledRun_first hns hline hmark (ends_array w) rfl (by rintro ⟨t, ⟨⟩⟩) h hrows
      hs hp
    simpa [cells_of_notMem hline hmark] using hfirst
  | cell run ns hline hmark ih =>
    have hsplit : following (run ++ .alignMark :: ns) ++ arrayEnd w =
        following run ++ ' ' :: '&' :: (following ns ++ arrayEnd w) := by
      rw [following_append_cons, Node.ast_alignMark]
      rfl
    rw [hsplit] at hs hp
    obtain ⟨hfirst, ⟨_, more, t, ht, hmore, hp⟩ | ⟨_, _, _, ⟨⟩, -⟩ | ⟨⟨⟩⟩⟩ :=
      settledRun_first (fun n hn => hns n (List.mem_append_left _ hn)) hline hmark (ends_alignMark _) rfl
        (by rintro ⟨t, ⟨⟩⟩) h hrows hs hp
    obtain rfl : following ns ++ arrayEnd w = t := (List.cons.inj ht).2
    have hrest := ih (fun n hn => hns n (by simp [hn])) hmore hmore.ne_nil rfl (by simpa using hp)
    obtain ⟨row, rows', hcells, hrun⟩ := cells_alignMark hline hmark ns
    intro r hr
    rw [hrun, List.flatten_cons, List.cons_append, ← List.flatten_cons, ← hcells] at hr
    rcases List.mem_cons.mp hr with rfl | hr
    · exact hfirst
    · exact hrest r hr
  | row run ns hline hmark ih =>
    have hsplit : following (run ++ .newLine :: ns) ++ arrayEnd w =
        following run ++ ' ' :: '\\' :: '\\' :: (following ns ++ arrayEnd w) := by
      rw [following_append_cons, Node.ast_newLine]
      rfl
    rw [hsplit] at hs hp
    obtain ⟨hfirst, ⟨_, _, _, ⟨⟩, -⟩ | ⟨_, more, t, ht, hmore, hp⟩ | ⟨⟨⟩⟩⟩ :=
      settledRun_first (fun n hn => hns n (List.mem_append_left _ hn)) hline hmark (ends_newLine _) rfl
        (by rintro ⟨t, ⟨⟩⟩) h hrows hs hp
    obtain rfl : following ns ++ arrayEnd w = t := (List.cons.inj (List.cons.inj ht).2).2
    have hrest := ih (fun n hn => hns n (by simp [hn])) hmore hmore.ne_nil rfl (by simpa using hp)
    rw [cells_newLine hline hmark, List.flatten_cons]
    intro r hr
    rcases List.mem_cons.mp hr with rfl | hr
    · exact hfirst
    · exact hrest r hr

end

end FormulaDoc
