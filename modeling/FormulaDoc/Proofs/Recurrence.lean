import FormulaDoc.Proofs.Fixed

namespace FormulaDoc

section

variable {stop : Stop} {c close : Char} {ns : List Node} {d e w r : List Char} {n : Node}

theorem following_cases (ns : List Node) (w : List Char) :
    following ns ++ w = w ∨ ∃ v, following ns ++ w = ' ' :: v := by
  cases ns with
  | nil => exact .inl rfl
  | cons n ns => exact .inr ⟨_, by rw [following_cons, List.cons_append]⟩

/-- A delimiter with a brace behind it is not what an exposed item and its neighbours are written
as. -/
theorem not_prefix_of_exposed (hn : n.Outlined) (hmarks : stop.marks = [[close]])
    (hclose : close ≠ ' ') (hc : c ∉ ['_', '^', ' ', close])
    (hstop : stop.holds n.ast) : (∀ ms, ¬ close :: c :: e <+: n.ast ++ (following ms ++ close :: w)) ∧
      ∀ u, ¬ close :: c :: e <+: ' ' :: (n.ast ++ u) := by
  simp only [List.mem_cons, List.not_mem_nil, or_false, not_or] at hc
  refine ⟨fun ms hp => ?_, fun u hp => hclose (List.cons_prefix_cons.mp hp).1⟩
  obtain ⟨mark, hmark, ⟨hast, -⟩ | ⟨a, t, ha, hast⟩⟩ := Node.exposed hn hstop
  · obtain rfl : mark = [close] := by simpa [hmarks] using hmark
    rw [hast, List.singleton_append, List.prefix_cons_inj] at hp
    rcases following_cases ms (close :: w) with hw | ⟨v, hv⟩
    · rw [hw] at hp
      exact hc.2.2.2 (List.cons_prefix_cons.mp hp).1
    · rw [hv] at hp
      exact hc.2.2.1 (List.cons_prefix_cons.mp hp).1
  · obtain rfl : mark = [close] := by simpa [hmarks] using hmark
    rw [hast, List.singleton_append, List.cons_append, List.cons_append, List.prefix_cons_inj] at hp
    obtain rfl := (List.cons_prefix_cons.mp hp).1
    rcases ha with rfl | rfl
    · exact hc.1 rfl
    · exact hc.2.1 rfl

theorem SettledRun.joined_reread (h : SettledRun stop ns) :
    joined (contents stop (collapse (ns.map Node.reread))) = joined ns := by
  rw [Node.keepsGroups_reread.contents_collapse_iff.mpr h.2.2]
  exact joined_congr fun n hn => (h.1 n hn).ast_reread

/-- A braced slot that is read and written again holds a settled run. -/
theorem settledRun_argument {m : Node} (hns : ∀ n ∈ ns, n.Outlined ∧ n.Recurs)
    (hread : readArgument (siblings []) ('{' :: (joined ns ++ '}' :: w)) = .ok (m, r))
    (hp : joined (contents .brace m) ++ '}' :: e <+: joined ns ++ '}' :: w) :
    SettledRun .brace ns ∧ r = w ∧ e <+: w := by
  obtain ⟨items, hitems, rfl⟩ := readArgument_eq_ok.mp hread
  obtain ⟨t, ht, hclosed⟩ := readBraced_eq_ok.mp hitems
  obtain rfl : joined ns ++ '}' :: w = t := (List.cons.inj ht).2
  obtain ⟨r', hr', hclose⟩ := readClosed_eq_ok.mp hclosed
  obtain ⟨hsettled, rfl, rfl⟩ := settledRun_slot brace_ne_cell hns (ends_brace w) rfl hr' hp
    ⟨'}', e, rfl, rfl⟩ fun n hn hstop =>
      absurd hstop (by simp [(Node.opening_ast (hns n hn).1).holds_brace])
  rw [hsettled.joined_reread, List.prefix_append_right_inj, List.prefix_cons_inj] at hp
  exact ⟨hsettled, ((List.cons.inj hclose).2).symm, hp⟩

/-- A slot between other delimiters that is read and written again holds a settled run, if a brace is
written behind it. -/
theorem settledRun_closed {items : List Node} (hns : ∀ n ∈ ns, n.Outlined ∧ n.Recurs)
    (hmarks : stop.marks = [[close]]) (hcell : stop ≠ .cell) (hends : ∀ w, Ends stop (close :: w))
    (hclose : isLead close = false) (htag : Untagged (close :: w)) (hc : c ∉ ['_', '^', ' ', close])
    (hread : readClosed (siblings []) stop close (joined ns ++ close :: w) = .ok (items, r))
    (hp : joined (contents stop (collapse items)) ++ close :: c :: e <+: joined ns ++ close :: w) :
    SettledRun stop ns ∧ r = w ∧ c :: e <+: w := by
  have hgap : isGap close = false := by
    rw [isLead, Bool.or_eq_false_iff] at hclose
    exact hclose.1
  have hblank : close ≠ ' ' := by
    rintro rfl
    exact absurd hgap (by decide)
  obtain ⟨r', hr', hrest⟩ := readClosed_eq_ok.mp hread
  obtain ⟨hsettled, rfl, rfl⟩ := settledRun_slot hcell hns (hends w) htag hr' hp
    ⟨close, c :: e, rfl, hclose⟩ fun n hn hstop =>
      not_prefix_of_exposed (hns n hn).1 hmarks hblank hc hstop
  rw [hsettled.joined_reread, List.prefix_append_right_inj, List.prefix_cons_inj] at hp
  have hskip : skipGap (close :: w) = close :: w := by simp [skipGap, hgap]
  rw [skipGap_idem, hskip] at hrest
  exact ⟨hsettled, ((List.cons.inj hrest).2).symm, hp⟩

end

/-- The commands of carriers, each with the brace behind it. -/
def carrierCommands : List String :=
  ["\\textcolor\x7b", "\\fcolorbox\x7b", "\\overbrace\x7b", "\\underbrace\x7b", "\\cancel\x7b"]

/-- A node that begins with the command of a carrier where it stands in a text. -/
def Node.ShowsCarrier (n : Node) : Prop :=
  ∃ s ∈ carrierCommands, s.toList <+: n.markup .text false

section

variable {cs e w : List Char}

/-- No character of a text is written like the command of a carrier. -/
theorem not_prefix_carrierCommand {s : String} (hs : s ∈ carrierCommands) :
    ¬ '}' :: e <+: s.toList ++ w ∧ ∀ c, ¬ escapeChar c ++ e <+: s.toList ++ w := by
  obtain ⟨d, t, hcommand, hd, hname, hlength⟩ : ∃ d t, s.toList = '\\' :: d :: t ∧ d ∉ ['{', '}'] ∧
      ¬ backslashName.take 5 <+: d :: t ∧ 5 ≤ (d :: t).length := by
    simp only [carrierCommands, List.mem_cons, List.not_mem_nil, or_false] at hs
    rcases hs with rfl | rfl | rfl | rfl | rfl <;>
      exact ⟨_, _, rfl, by decide, by decide, by decide⟩
  rw [hcommand]
  refine ⟨fun h => absurd (List.cons_prefix_cons.mp h).1 (by decide), fun c h => ?_⟩
  rcases escapeChar_cases c with ⟨hc, hslash, -⟩ | ⟨a, u, hc, ha⟩
  · rw [hc] at h
    exact hslash (List.cons_prefix_cons.mp h).1
  · rw [hc] at h
    have hprefix : a :: u ++ e <+: d :: t ++ w := (List.cons_prefix_cons.mp h).2
    have hda := (List.cons_prefix_cons.mp hprefix).1
    simp only [List.mem_cons, Prod.mk.injEq, List.not_mem_nil, or_false, not_or] at ha hd
    rcases ha with ⟨rfl, rfl⟩ | ⟨-, rfl⟩ | ⟨-, rfl⟩
    · have hbackslash : backslashName <+: d :: t ++ w := by
        obtain rfl : backslashName.tail = u := (List.cons.inj (List.cons.inj hc).2).2
        exact (List.prefix_append backslashName e).trans hprefix
      exact hname (List.prefix_of_prefix_length_le ((List.take_prefix 5 _).trans hbackslash)
        (List.prefix_append _ _) hlength)
    · exact hd.1 hda.symm
    · exact hd.2 hda.symm

/-- The nodes in a text are letters if it is written like letters. -/
theorem all_isLetter_of_isPrefix {body : List Node} (hbody : ∀ n ∈ body, n.isLetter ∨ n.ShowsCarrier)
    (h : escape cs ++ '}' :: e <+: body.flatMap (·.markup .text false) ++ w) : body.all Node.isLetter := by
  induction body generalizing cs with
  | nil => rfl
  | cons n body ih =>
    rw [List.flatMap_cons, List.append_assoc] at h
    rcases hbody n List.mem_cons_self with hletter | ⟨s, hs, t, ht⟩
    · cases n with
      | symbol id value =>
        obtain ⟨d, hd⟩ : ∃ d, value.toList = [d] := 
          List.length_eq_one_iff.mp (by simpa [Node.isLetter, String.length_toList] using hletter)
        rw [Node.markup_text_symbol, hd, escape_singleton] at h
        cases cs with
        | nil => exact absurd h not_close_prefix_escapeChar
        | cons c cs =>
          rw [escape_cons, List.append_assoc] at h
          have hrest := ih (fun m hm => hbody m (List.mem_cons_of_mem _ hm)) (eq_of_escapeChar_isPrefix h).2
          simp [hletter, hrest]
      | _ => cases hletter
    · rw [← ht, List.append_assoc] at h
      cases cs with
      | nil => exact absurd h (not_prefix_carrierCommand hs).1
      | cons c cs =>
        rw [escape_cons, List.append_assoc] at h
        exact absurd h ((not_prefix_carrierCommand hs).2 c)

end

section

variable {nested : Nested} {s rest : List Char} {n : Node}

theorem readsCommand_of_readsAtom {name : String} {c : Char}
    (hname : command? name.toList = some (name.toList, [])) (hc : c.isAlpha = false)
    (h : ReadsAtom [] nested (name.toList ++ c :: s) n rest) :
    ReadsCommand nested name (c :: s) n rest := by
  have hs := command?_append (w := c :: s) hname fun d t he => (List.cons.inj he).1 ▸ hc
  obtain ⟨d, t, ht⟩ := exists_of_command? hs
  rw [ht] at h hs
  cases h with
  | var hv => simp at hv
  | command hs' h =>
    rw [hs] at hs'
    cases hs'
    rwa [String.ofList_toList] at h
  | symbol hc => simp at hc

theorem readsCommand_frac (h : ReadsCommand nested "\\frac" s n rest) :
    ∃ a b s', readArgument nested s = .ok (a, s') ∧ readArgument nested s' = .ok (b, rest) ∧
      n = .frac "" a b := by
  generalize hname : "\\frac" = name at h
  cases h with
  | frac ha hb => exact ⟨_, _, _, ha, hb, rfl⟩
  | spacing h | operator h _ | limits h _ | leaf h =>
    subst hname
    exact absurd h (by decide)
  | _ => exact absurd hname (by decide)

theorem readsCommand_sqrt (h : ReadsCommand nested "\\sqrt" s n rest) :
    (∃ a, (∀ r, skipGap s ≠ '[' :: r) ∧ readArgument nested (skipGap s) = .ok (a, rest) ∧
        n = .root "" a none) ∨
      ∃ a items s' s'', skipGap s = '[' :: s' ∧ readClosed nested .bracket ']' s' = .ok (items, s'') ∧
        readArgument nested s'' = .ok (a, rest) ∧ n = .root "" a (some (collapse items)) := by
  generalize hname : "\\sqrt" = name at h
  cases h with
  | sqrt hs ha => exact .inl ⟨_, hs, ha, rfl⟩
  | index hs hitems ha => exact .inr ⟨_, _, _, _, hs, hitems, ha, rfl⟩
  | spacing h | operator h _ | limits h _ | leaf h =>
    subst hname
    exact absurd h (by decide)
  | _ => exact absurd hname (by decide)

theorem readsCommand_text (h : ReadsCommand nested "\\text" s n rest) :
    ∃ cs : List Char, n = .text "" (cs.map fun c => .symbol "" (String.singleton c)) := by
  generalize hname : "\\text" = name at h
  cases h with
  | text => exact ⟨_, rfl⟩
  | spacing h | operator h _ | limits h _ | leaf h =>
    subst hname
    exact absurd h (by decide)
  | _ => exact absurd hname (by decide)

theorem readsCommand_textColor (h : ReadsCommand nested "\\textcolor" s n rest) :
    ∃ c items s', readName s = .ok (c, s') ∧ readBraced nested s' = .ok (items, rest) ∧
      n = .color "" c items := by
  generalize hname : "\\textcolor" = name at h
  cases h with
  | textColor hc hitems => exact ⟨_, _, _, hc, hitems, rfl⟩
  | spacing h | operator h _ | limits h _ | leaf h =>
    subst hname
    exact absurd h (by decide)
  | _ => exact absurd hname (by decide)

theorem readsCommand_frameBox (h : ReadsCommand nested "\\fcolorbox" s n rest) :
    ∃ border background items s₁ s₂ s₃ s₄ s₅, readName s = .ok (border, s₁) ∧
      readName s₁ = .ok (background, s₂) ∧ skipGap s₂ = '{' :: s₃ ∧ skipGap s₃ = '$' :: s₄ ∧
      readClosed nested .dollar '$' s₄ = .ok (items, s₅) ∧ skipGap s₅ = '}' :: rest ∧
      n = .box "" border (collapse items) background := by
  generalize hname : "\\fcolorbox" = name at h
  cases h with
  | frameBox hborder hback hopen hdollar hitems hclose =>
    exact ⟨_, _, _, _, _, _, _, _, hborder, hback, hopen, hdollar, hitems, hclose, rfl⟩
  | spacing h | operator h _ | limits h _ | leaf h =>
    subst hname
    exact absurd h (by decide)
  | _ => exact absurd hname (by decide)

theorem readsCommand_brace {above : Bool}
    (h : ReadsCommand nested (if above then "\\overbrace" else "\\underbrace") s n rest) :
    ∃ a, readArgument nested s = .ok (a, rest) ∧ n = .brace "" above a := by
  generalize hname : (if above then "\\overbrace" else "\\underbrace") = name at h
  cases h with
  | overbrace ha =>
    obtain rfl : above = true := by
      cases above <;> first | rfl | exact absurd hname (by decide)
    exact ⟨_, ha, rfl⟩
  | underbrace ha =>
    obtain rfl : above = false := by
      cases above <;> first | rfl | exact absurd hname (by decide)
    exact ⟨_, ha, rfl⟩
  | spacing h | operator h _ | limits h _ | leaf h =>
    subst hname
    exact absurd h (by cases above <;> decide)
  | _ => exact absurd hname (by cases above <;> decide)

theorem readsCommand_cancel (h : ReadsCommand nested "\\cancel" s n rest) :
    ∃ a, readArgument nested s = .ok (a, rest) ∧ n = .strike "" a := by
  generalize hname : "\\cancel" = name at h
  cases h with
  | cancel ha => exact ⟨_, ha, rfl⟩
  | spacing h | operator h _ | limits h _ | leaf h =>
    subst hname
    exact absurd h (by decide)
  | _ => exact absurd hname (by decide)

theorem readsCommand_begin (h : ReadsCommand nested "\\begin" s n rest) :
    (∃ align rows s₁ s₂ s₃, readName s = .ok ("array", s₁) ∧ readName s₁ = .ok (align, s₂) ∧
        readRows nested (s₂.length + 1) false s₂ = .ok (rows, s₃) ∧ readEnd "array" s₃ = .ok rest ∧
        n = .array "" rows (some align)) ∨
      ∃ cells s₁ s₂, readName s = .ok ("aligned", s₁) ∧ nested .aligned s₁ = .ok (cells, s₂) ∧
        readEnd "aligned" s₂ = .ok rest ∧ n = .aligned "" cells := by
  generalize hname : "\\begin" = name at h
  cases h with
  | array henv halign hrows hend => exact .inl ⟨_, _, _, _, _, henv, halign, hrows, hend, rfl⟩
  | aligned henv hcells hend => exact .inr ⟨_, _, _, henv, hcells, hend, rfl⟩
  | spacing h | operator h _ | limits h _ | leaf h =>
    subst hname
    exact absurd h (by decide)
  | _ => exact absurd hname (by decide)

end

section

variable {n m : Node} {w r e : List Char}

/-- What stands below a node is settled if it is read and written again. -/
def Node.BelowRecurs (n : Node) : Prop :=
  n.kind ≠ .text → ∀ c ∈ n.children, (c.Outlined ∧ c.Recurs) ∧
    ∀ stop, ∀ k ∈ contents stop c, k.Outlined ∧ k.Recurs

theorem settled_braced {ns items : List Node} (hns : ∀ n ∈ ns, n.Outlined ∧ n.Recurs)
    (hread : readClosed (siblings []) .brace '}' (joined ns ++ '}' :: w) = .ok (items, r))
    (hp : joined items ++ '}' :: e <+: joined ns ++ '}' :: w) : ∀ n ∈ ns, n.Settled := by
  obtain ⟨r', hr', -⟩ := readClosed_eq_ok.mp hread
  have hsettled := settled_joined hns (ends_brace w) hr' hp fun n hn hstop =>
    absurd hstop (by simp [(Node.opening_ast (hns n hn).1).holds_brace])
  exact fun n hn => (hsettled n hn).1

theorem mem_cells_of_mem {ns : List Node} (h : n ∈ ns) :
    n = .newLine ∨ n = .alignMark ∨ ∃ run ∈ (cells ns).flatten, n ∈ run := by
  rw [← intercalate_cells ns] at h
  rcases mem_intercalate h with h | ⟨p, hp, h⟩
  · exact .inl h
  obtain ⟨row, hrow, rfl⟩ := List.mem_map.mp hp
  rcases mem_intercalate h with h | ⟨run, hrun, h⟩
  · exact .inr (.inl h)
  · have hmem : run ∈ (cells ns).flatten := List.mem_flatten.mpr ⟨row, hrow, hrun⟩
    exact .inr (.inr ⟨run, hmem, h⟩)

/-- An array is settled if the cells that it is read as are settled runs. -/
theorem settled_of_cells {id : String} {rows : List (List Node)} {align : Option String}
    (hself : (Node.array id rows align).spelledAt [])
    (hnames : ∀ c ∈ (Node.array id rows align).names, Verbatim c)
    (h : ∀ run ∈ (cells (stream rows)).flatten, SettledRun .cell run) :
    (Node.array id rows align).Settled := by
  refine .mk hself ⟨hnames, ?_⟩ fun _ c hc => ?_
  · intro stop run hrun
    rcases Node.exists_of_mem_runs hrun with ⟨_, _, _, ⟨⟩, -, rfl, hr⟩ | ⟨hk, -⟩
    · exact (h run hr).2
    · exact absurd rfl hk
  · refine @Node.settled_of_contents _ .cell fun k hk => ?_
    rcases mem_cells_of_mem (mem_stream_of_contents hc hk) with rfl | rfl | ⟨run, hrun, hmem⟩
    · exact Node.settled_newLine
    · exact Node.settled_alignMark
    · exact (h run hrun).1 k hmem

/-- An outlined node with verbatim names whose parts are settled if they are read and written again. In a
text stand letters, and nodes that begin like carriers. -/
structure Node.Grounded (n : Node) : Prop where
  outlined : n.Outlined
  names : ∀ c ∈ n.names, Verbatim c
  letters : n.kind = .text → ∀ c ∈ n.children, c.isLetter ∨ c.ShowsCarrier
  below : n.BelowRecurs

/-- A node that is settled if it is read as an atom and written again. -/
def Node.AtomRecurs (n : Node) : Prop :=
  ∀ ⦃w m r⦄, ReadsAtom [] (siblings []) (n.ast ++ w) m r → m.ast <+: n.ast ++ w → n.Settled

namespace Node.Grounded

variable {id : String} {n s body : Node}

theorem child (h : n.Grounded) (hn : n.kind ≠ .text) (hs : s ∈ n.children) :
    s.Outlined ∧ s.Recurs :=
  (h.below hn s hs).1

theorem slot (h : n.Grounded) (hn : n.kind ≠ .text) (hs : s ∈ n.children) (stop : Stop) :
    ∀ k ∈ contents stop s, k.Outlined ∧ k.Recurs :=
  (h.below hn s hs).2 stop

/-- A node with a single slot is settled if the slot is. -/
theorem settled_of_slot (h : n.Grounded) {stop : Stop} (hn : n.kind ≠ .text)
    (hruns : n.runs = [(stop, contents stop s)])
    (hchildren : n.children = [s]) (hs : SettledRun stop (contents stop s)) : n.Settled := by
  refine .mk (h.outlined.self hn) ⟨h.names, ?_⟩ ?_
  · rw [hruns]
    simp [hs.2]
  · rw [hchildren]
    simp [settled_of_contents hs.1]

theorem atomRecurs_leaf (h : n.Grounded) (hn : n.kind ≠ .text) (hruns : n.runs = [])
    (hchildren : n.children = []) : n.AtomRecurs := by
  intro w m r _ _
  refine .mk (h.outlined.self hn) ⟨h.names, by simp [hruns]⟩ fun _ => ?_
  simp [hchildren]

theorem atomRecurs_text {body : List Node} (hn : (text id body).Grounded) :
    (text id body).AtomRecurs := by
  intro w m r h hp
  rw [ast_text] at h hp
  simp only [List.append_assoc, List.cons_append, List.nil_append] at h hp
  obtain ⟨cs, rfl⟩ := readsCommand_text (readsCommand_of_readsAtom rfl rfl h)
  have hcs : (cs.map fun c => symbol "" (String.singleton c)).flatMap (·.markup .text false) =
      escape cs := by
    rw [List.flatMap_map]
    refine List.flatMap_congr fun c _ => ?_
    rw [markup_text_symbol, String.toList_singleton, escape_singleton]
  rw [ast_text, hcs, List.prefix_append_right_inj, List.prefix_cons_inj] at hp
  exact .mk (all_isLetter_of_isPrefix (hn.letters rfl) hp) ⟨hn.names, by simp [runs, arguments]⟩
    fun hk => absurd rfl hk

theorem atomRecurs_group {body : List Node} (hn : (group id body).Grounded) :
    (group id body).AtomRecurs := by
  intro w m r h hp
  rw [ast_group] at h hp
  simp only [List.append_assoc, List.cons_append, List.nil_append] at h hp
  have hbody : ∀ c ∈ body, c.Outlined ∧ c.Recurs := fun c hc => hn.child (by simp [kind]) hc
  cases h with
  | var hv => simp at hv
  | command hs => exact absurd hs (by simp [command?])
  | symbol hc => simp at hc
  | group h =>
    rw [ast_group, List.prefix_cons_inj] at hp
    exact settled_group (settled_braced hbody h hp)

theorem atomRecurs_frac {a b : Node} (hn : (frac id a b).Grounded) : (frac id a b).AtomRecurs := by
  intro w m r h hp
  rw [ast_frac] at h hp
  simp only [List.append_assoc, List.cons_append, List.nil_append] at h hp
  obtain ⟨a', b', s, ha, hb, rfl⟩ := readsCommand_frac (readsCommand_of_readsAtom rfl rfl h)
  have ha' := hn.slot (s := a) (by simp [kind]) (by simp [children]) .brace
  have hb' := hn.slot (s := b) (by simp [kind]) (by simp [children]) .brace
  rw [ast_frac, List.prefix_append_right_inj, List.prefix_cons_inj] at hp
  obtain ⟨hnum, rfl, hp⟩ := settledRun_argument ha' ha hp
  rw [List.prefix_cons_inj] at hp
  obtain ⟨hden, -⟩ := settledRun_argument hb' hb hp
  refine .mk (hn.outlined.self (by simp [kind])) ⟨hn.names, ?_⟩ ?_
  · simpa [runs, arguments, or_imp, forall_and] using ⟨hnum.2, hden.2⟩
  · simp [children, settled_of_contents hnum.1, settled_of_contents hden.1]

theorem atomRecurs_root (hn : (root id body none).Grounded) : (root id body none).AtomRecurs := by
  intro w m r h hp
  rw [ast_root_none] at h hp
  simp only [List.append_assoc, List.cons_append, List.nil_append] at h hp
  rcases readsCommand_sqrt (readsCommand_of_readsAtom rfl rfl h) with
    ⟨a, -, ha, rfl⟩ | ⟨_, _, _, _, ⟨⟩, -⟩
  have hbody' := hn.slot (s := body) (by simp [kind]) (by simp [children]) .brace
  rw [ast_root_none, List.prefix_append_right_inj, List.prefix_cons_inj] at hp
  obtain ⟨hbody, -⟩ := settledRun_argument hbody' ha hp
  exact hn.settled_of_slot (by simp [kind]) rfl rfl hbody

theorem atomRecurs_index {k : Node} (hn : (root id body (some k)).Grounded) :
    (root id body (some k)).AtomRecurs := by
  intro w m r h hp
  rw [ast_root_some] at h hp
  simp only [List.append_assoc, List.cons_append, List.nil_append] at h hp
  rcases readsCommand_sqrt (readsCommand_of_readsAtom rfl rfl h) with
    ⟨_, hne, -, -⟩ | ⟨a, items, s', s'', hs', hitems, ha, rfl⟩
  · exact absurd rfl (hne _)
  obtain rfl := (List.cons.inj hs').2
  have hk := hn.slot (s := k) (by simp [kind]) (by simp [children]) .bracket
  have hbody' := hn.slot (s := body) (by simp [kind]) (by simp [children]) .brace
  rw [ast_root_some, List.prefix_append_right_inj, List.prefix_cons_inj] at hp
  obtain ⟨hindex, rfl, hp⟩ :=
    settledRun_closed hk rfl bracket_ne_cell ends_bracket rfl rfl (by decide) hitems hp
  rw [List.prefix_cons_inj] at hp
  obtain ⟨hbody, -⟩ := settledRun_argument hbody' ha hp
  refine .mk (hn.outlined.self (by simp [kind])) ⟨hn.names, ?_⟩ ?_
  · simpa [runs, arguments, or_imp, forall_and] using ⟨hbody.2, hindex.2⟩
  · simp [children, settled_of_contents hbody.1, settled_of_contents hindex.1]

theorem atomRecurs_brace {above : Bool} (hn : (brace id above body).Grounded) :
    (brace id above body).AtomRecurs := by
  intro w m r h hp
  have hname : ∀ name, name = (if above then "\\overbrace" else "\\underbrace") →
      command? name.toList = some (name.toList, []) := by
    rintro name rfl
    cases above <;> rfl
  rw [ast_brace] at h hp
  simp only [List.append_assoc, List.cons_append, List.nil_append] at h hp
  obtain ⟨a, ha, rfl⟩ := readsCommand_brace (readsCommand_of_readsAtom (hname _ rfl) rfl h)
  have hbody' := hn.slot (s := body) (by simp [kind]) (by simp [children]) .brace
  rw [ast_brace, List.prefix_append_right_inj, List.prefix_cons_inj] at hp
  obtain ⟨hbody, -⟩ := settledRun_argument hbody' ha hp
  exact hn.settled_of_slot (by simp [kind]) rfl rfl hbody

theorem atomRecurs_strike (hn : (strike id body).Grounded) : (strike id body).AtomRecurs := by
  intro w m r h hp
  rw [ast_strike] at h hp
  simp only [List.append_assoc, List.cons_append, List.nil_append] at h hp
  obtain ⟨a, ha, rfl⟩ := readsCommand_cancel (readsCommand_of_readsAtom rfl rfl h)
  have hbody' := hn.slot (s := body) (by simp [kind]) (by simp [children]) .brace
  rw [ast_strike, List.prefix_append_right_inj, List.prefix_cons_inj] at hp
  obtain ⟨hbody, -⟩ := settledRun_argument hbody' ha hp
  exact hn.settled_of_slot (by simp [kind]) rfl rfl hbody

theorem atomRecurs_color {c : String} {body : List Node} (hn : (color id c body).Grounded) :
    (color id c body).AtomRecurs := by
  intro w m r h hp
  have hname : Verbatim c := hn.names c (by simp [Node.names])
  have hbody : ∀ k ∈ body, k.Outlined ∧ k.Recurs := fun k hk => hn.child (by simp [kind]) hk
  rw [ast_color] at h hp
  simp only [List.append_assoc, List.cons_append, List.nil_append] at h hp
  obtain ⟨c', items, s, hc, hitems, rfl⟩ :=
    readsCommand_textColor (readsCommand_of_readsAtom rfl rfl h)
  rw [hname.readName] at hc
  cases hc
  obtain ⟨t, ht, hclosed⟩ := readBraced_eq_ok.mp hitems
  obtain rfl := (List.cons.inj ht).2
  rw [ast_color, List.prefix_append_right_inj, List.prefix_cons_inj, List.prefix_append_right_inj,
    List.prefix_cons_inj, List.prefix_cons_inj] at hp
  have hsettled := settled_braced hbody hclosed hp
  exact .mk (hn.outlined.self (by simp [kind])) ⟨hn.names, by simp [runs, arguments]⟩ fun _ => hsettled

theorem atomRecurs_box {border background : String} (hn : (box id border body background).Grounded) :
    (box id border body background).AtomRecurs := by
  intro w m r h hp
  have hborder : Verbatim border := hn.names border (by simp [Node.names])
  have hback : Verbatim background := hn.names background (by simp [Node.names])
  have hbody' := hn.slot (s := body) (by simp [kind]) (by simp [children]) .dollar
  rw [ast_box] at h hp
  simp only [List.append_assoc, List.cons_append, List.nil_append] at h hp
  obtain ⟨border', back', items, s₁, s₂, s₃, s₄, s₅, hb, hk, hopen, hdollar, hitems, -, rfl⟩ :=
    readsCommand_frameBox (readsCommand_of_readsAtom rfl rfl h)
  rw [hborder.readName] at hb
  cases hb
  rw [hback.readName] at hk
  cases hk
  obtain rfl := (List.cons.inj hopen).2
  obtain rfl := (List.cons.inj hdollar).2
  rw [ast_box, List.prefix_append_right_inj, List.prefix_cons_inj, List.prefix_append_right_inj,
    List.prefix_cons_inj, List.prefix_cons_inj, List.prefix_append_right_inj, List.prefix_cons_inj,
    List.prefix_cons_inj, List.prefix_cons_inj] at hp
  obtain ⟨hbody, -⟩ :=
    settledRun_closed hbody' rfl dollar_ne_cell ends_dollar rfl rfl (by decide) hitems hp
  exact hn.settled_of_slot (by simp [kind]) rfl rfl hbody

theorem atomRecurs_aligned {cells : List Node} (hn : (aligned id cells).Grounded) :
    (aligned id cells).AtomRecurs := by
  intro w m r h hp
  have hcells : ∀ c ∈ cells, c.Outlined ∧ c.Recurs := fun c hc => hn.child (by simp [kind]) hc
  have hstarts : ∀ c ∈ cells, Starts c.ast := fun c hc => (opening_ast (hcells c hc).1).starts
  rw [ast_aligned] at h hp
  simp only [List.append_assoc, List.cons_append, List.nil_append] at h hp
  rcases readsCommand_begin (readsCommand_of_readsAtom rfl rfl h) with
    ⟨_, _, _, _, _, henv, -⟩ | ⟨items, s₁, s₂, henv, hitems, -, rfl⟩
  · rw [verbatim_aligned.readName] at henv
    simp at henv
  rw [verbatim_aligned.readName] at henv
  cases henv
  rw [ast_aligned, List.prefix_append_right_inj, List.prefix_cons_inj, List.prefix_append_right_inj,
    List.prefix_cons_inj] at hp
  have hsettled := settled_joined hcells (ends_aligned w) hitems hp fun c hc hstop =>
    absurd hstop (by simp [(hstarts c hc).holds_aligned])
  refine .mk (hn.outlined.self (by simp [kind])) ⟨hn.names, by simp [runs, arguments]⟩ fun _ c hc => ?_
  exact (hsettled c hc).1

theorem atomRecurs_array {align : String} {rows : List (List Node)} (hrow : ∀ row ∈ rows, row ≠ [])
    (hn : (array id rows (some align)).Grounded) : (array id rows (some align)).AtomRecurs := by
  intro w m r h hp
  have halign : Verbatim align := hn.names align (by simp [Node.names])
  by_cases hrows : rows = []
  · subst hrows
    exact .mk (hn.outlined.self (by simp [kind])) ⟨hn.names, by simp [runs]⟩ (by simp [children])
  have hstream := stream_ne_nil hrows hrow
  have hns : ∀ k ∈ stream rows, k.Outlined ∧ k.Recurs := by
    intro k hk
    rcases mem_stream hk with rfl | rfl | ⟨c, hc, hk⟩
    · exact ⟨settled_newLine.legible.spelled.outlined, fun _ _ _ _ _ _ _ => settled_newLine⟩
    · exact ⟨settled_alignMark.legible.spelled.outlined, fun _ _ _ _ _ _ _ => settled_alignMark⟩
    · exact hn.slot (by simp [kind]) hc .cell k hk
  rw [ast_array id align hrow] at h hp
  simp only [List.append_assoc, List.cons_append, List.nil_append] at h hp
  rcases readsCommand_begin (readsCommand_of_readsAtom rfl rfl h) with
    ⟨align', rows', s₁, s₂, s₃, henv, hname, hread, -, rfl⟩ | ⟨_, _, _, henv, -⟩
  · rw [verbatim_array.readName] at henv
    cases henv
    rw [halign.readName] at hname
    cases hname
    have hcells := readRows_eq_ok.mp hread
    have hrow' := hcells.row_ne_nil
    rw [ast_array "" align hrow', List.prefix_append_right_inj, List.prefix_cons_inj,
      List.prefix_append_right_inj, List.prefix_cons_inj, List.prefix_cons_inj,
      List.prefix_append_right_inj, List.prefix_cons_inj, List.prefix_cons_inj] at hp
    have hrows' : rows' ≠ [] := by
      rintro rfl
      obtain ⟨k, ns, hk⟩ := List.exists_cons_of_ne_nil hstream
      obtain ⟨c, t, hc, hgap, -⟩ := (opening_ast (hns k (by simp [hk])).1).head
      rw [hk, joined, hc] at hp
      obtain rfl := (List.cons_prefix_cons.mp hp).1
      exact absurd hgap (by decide)
    have hruns := settledRun_cells (w := w) hns hcells hrows' (by rw [following_eq hstream]; rfl) (by
      rw [following_eq hstream, following_eq (stream_ne_nil hrows' hrow'), List.cons_append,
        List.cons_append, List.prefix_cons_inj]
      exact hp)
    exact settled_of_cells (hn.outlined.self (by simp [kind])) hn.names fun run hrun => hruns run hrun
  · rw [verbatim_array.readName] at henv
    simp at henv

end Node.Grounded

/-- A node that is no script is settled if it is read and written again. -/
theorem Node.Grounded.atomRecurs (hn : n.Grounded) (hkind : n.kind ≠ .script) : n.AtomRecurs := by
  cases n with
  | script => exact absurd rfl hkind
  | symbol | space | op | var | newLine | alignMark =>
    exact hn.atomRecurs_leaf (by simp [Node.kind]) rfl rfl
  | text => exact hn.atomRecurs_text
  | group => exact hn.atomRecurs_group
  | frac => exact hn.atomRecurs_frac
  | root id body index =>
    cases index with
    | none => exact hn.atomRecurs_root
    | some k => exact hn.atomRecurs_index
  | array id rows align =>
    obtain ⟨hsome, hrow⟩ : align.isSome ∧ ∀ row ∈ rows, row ≠ [] := by
      simpa [Node.spelledAt] using hn.outlined.self (by simp [Node.kind])
    obtain ⟨align, rfl⟩ := Option.isSome_iff_exists.mp hsome
    exact hn.atomRecurs_array hrow
  | brace => exact hn.atomRecurs_brace
  | color => exact hn.atomRecurs_color
  | box => exact hn.atomRecurs_box
  | strike => exact hn.atomRecurs_strike
  | aligned => exact hn.atomRecurs_aligned

end

theorem settledRun_readScript {ns : List Node} {m : Node} {e w r : List Char}
    (hns : ∀ n ∈ ns, n.Outlined ∧ n.Recurs)
    (hread : readScript [] (siblings []) ('{' :: (joined ns ++ '}' :: w)) = .ok (m, r))
    (hp : joined (contents .brace m) ++ '}' :: e <+: joined ns ++ '}' :: w) :
    SettledRun .brace ns ∧ r = w ∧ e <+: w :=
  settledRun_argument hns hread hp

/-- Scripts that are read and written again are settled runs. -/
theorem settledRun_scripts {sub sup sub' sup' : Option Node} {w r : List Char}
    (hsub : ∀ s ∈ sub, ∀ n ∈ contents .brace s, n.Outlined ∧ n.Recurs)
    (hsup : ∀ s ∈ sup, ∀ n ∈ contents .brace s, n.Outlined ∧ n.Recurs)
    (hread : ReadsScripts [] (siblings []) (Node.scriptMarkup '_' sub ++ (Node.scriptMarkup '^' sup ++ w))
      sub' sup' r)
    (hp : Node.scriptMarkup '_' sub' ++ Node.scriptMarkup '^' sup' <+:
      Node.scriptMarkup '_' sub ++ (Node.scriptMarkup '^' sup ++ w)) :
    (∀ s ∈ sub, SettledRun .brace (contents .brace s)) ∧
      ∀ s ∈ sup, SettledRun .brace (contents .brace s) := by
  cases sub with
  | none =>
    refine ⟨by simp, ?_⟩
    rintro p rfl
    rw [scriptMarkup_some, scriptMarkup_none, List.nil_append] at hread
    rw [scriptMarkup_some _ p, scriptMarkup_none '_', List.nil_append] at hp
    simp only [List.append_assoc, List.cons_append, List.nil_append] at hread hp
    cases hread with
    | none _ hne => exact absurd rfl (hne _)
    | sub hs | subSup hs => cases hs
    | sup hs hread =>
      obtain rfl := (List.cons.inj hs).2
      rw [scriptMarkup_none, scriptMarkup_some, List.nil_append, List.prefix_cons_inj,
        List.prefix_cons_inj] at hp
      exact (settledRun_readScript (hsup p rfl) hread hp).1
    | supSub => exact absurd (List.cons_prefix_cons.mp hp).1 (by decide)
  | some s =>
    rw [scriptMarkup_some] at hread
    rw [scriptMarkup_some _ s] at hp
    simp only [List.append_assoc, List.cons_append, List.nil_append] at hread hp
    cases hread with
    | none hne => exact absurd rfl (hne _)
    | sup hs | supSub hs => cases hs
    | sub hs hread hrest =>
      obtain rfl := (List.cons.inj hs).2
      simp only [scriptMarkup_some, scriptMarkup_none, List.append_nil, List.prefix_cons_inj] at hp
      obtain ⟨hsettled, rfl, -⟩ := settledRun_readScript (hsub s rfl) hread hp
      refine ⟨by simpa using hsettled, ?_⟩
      rintro p rfl
      exact absurd rfl (hrest _)
    | subSup hs hread hr hread' =>
      obtain rfl := (List.cons.inj hs).2
      simp only [scriptMarkup_some, List.append_assoc, List.cons_append, List.nil_append,
        List.prefix_cons_inj] at hp
      obtain ⟨hsettled, rfl, hp⟩ := settledRun_readScript (hsub s rfl) hread hp
      refine ⟨by simpa using hsettled, ?_⟩
      rintro p rfl
      rw [scriptMarkup_some] at hr hp
      simp only [List.append_assoc, List.cons_append, List.nil_append] at hr hp
      obtain rfl := (List.cons.inj hr).2
      rw [List.prefix_cons_inj, List.prefix_cons_inj] at hp
      exact (settledRun_readScript (hsup p rfl) hread' hp).1

namespace Node

variable {c n : Node}

/-- A node that is spelled if it is no text, with verbatim names. In a text stand letters, and nodes that
begin like carriers. -/
structure WordedAt (n : Node) : Prop where
  spelled : n.kind ≠ .text → n.spelledAt []
  names : ∀ c ∈ n.names, Verbatim c
  letters : n.kind = .text → ∀ c ∈ n.children, c.isLetter ∨ c.ShowsCarrier

def Worded (n : Node) : Prop :=
  ∀ m ∈ n.outer, m.WordedAt

theorem Worded.outlined (h : n.Worded) : n.Outlined :=
  fun m hm => (h m hm).spelled

theorem Worded.child (h : n.Worded) (hn : n.kind ≠ .text) (hc : c ∈ n.children) : c.Worded :=
  fun m hm => h m (mem_outer_of_child hn hc hm)

theorem Worded.of_mem_contents {stop : Stop} (h : n.Worded) (hc : c ∈ contents stop n) : c.Worded :=
  fun m hm => h m (mem_outer_of_mem_contents hc hm)

theorem Worded.grounded (h : n.Worded)
    (hbelow : ∀ c : Node, c.size < n.size → c.Worded → c.Recurs) : n.Grounded := by
  have hself := h n n.self_mem_outer
  refine ⟨h.outlined, hself.names, hself.letters, fun hn c hc => ?_⟩
  have hchild := h.child hn hc
  have hsize := size_lt_of_mem hc
  refine ⟨⟨hchild.outlined, hbelow c hsize hchild⟩, fun stop k hk => ?_⟩
  have hworded := hchild.of_mem_contents hk
  have := size_le_of_mem_contents hk
  exact ⟨hworded.outlined, hbelow k (by omega) hworded⟩

/-- If an item is read and written again, then so is the atom that it begins with. -/
theorem AtomRecurs.settled_of_readItem {m : Node} {w r : List Char} (hatom : n.AtomRecurs)
    (houtlined : n.Outlined) (hw : CutOff w)
    (hread : readItem [] (siblings []) (n.ast ++ w) = .ok (m, r)) (hp : m.ast <+: n.ast ++ w) :
    n.Settled := by
  obtain ⟨base, r', sub, sup, hbase, -, rfl⟩ := readItem_eq_ok.mp hread
  have hread' := readsAtom_of_readAtom hbase
  have hgap := ((opening_ast houtlined).append hw.1).skipGap
  obtain ⟨hscript, -⟩ := lead_readAtom hread' hgap (untagged_ast houtlined hw.1)
    fun t m r _ ht htag hm => lead_readItem hm ht htag
  have hbase' : base.ast <+: n.ast ++ w := (ast_prefix_attachScripts hscript sub sup).trans hp
  exact hatom hread' hbase'

theorem AtomRecurs.recurs (hatom : n.AtomRecurs) (houtlined : n.Outlined) : n.Recurs := by
  intro w m r hw _ hread hp
  exact hatom.settled_of_readItem houtlined hw hread hp

theorem kind_braced (base : Node) : base.braced.kind ≠ .script := by
  unfold braced
  split
  next => simp [kind]
  next hk => exact hk

theorem outlined_braced {base : Node} (h : base.Outlined) : base.braced.Outlined := by
  unfold braced
  split
  next =>
    refine forall_outer (fun _ => rfl) fun _ c hc => ?_
    rwa [List.mem_singleton.mp hc]
  next => exact h

theorem Settled.of_braced {base : Node} (h : base.braced.Settled) : base.Settled := by
  unfold braced at h
  split at h
  next => exact h.child (by simp [kind]) (by simp [children])
  next => exact h

theorem recurs_script {id : String} {base : Node} {sub sup : Option Node}
    (houtlined : (script id base sub sup).Outlined)
    (hbase : base.braced.AtomRecurs)
    (hsub : ∀ s ∈ sub, ∀ n ∈ contents .brace s, n.Outlined ∧ n.Recurs)
    (hsup : ∀ s ∈ sup, ∀ n ∈ contents .brace s, n.Outlined ∧ n.Recurs) :
    (script id base sub sup).Recurs := by
  intro w m r hw hw' hread hp
  have hself : (sub.isSome || sup.isSome) = true ∧ base.isScriptGroup = false := by
    simpa [spelledAt] using houtlined.self (by simp [kind])
  have hbraced := outlined_braced (houtlined.child (by simp [kind]) (c := base) (by simp [children]))
  have hcut := cutOff_scripts hself.1 w
  rw [ast_script, List.append_assoc, List.append_assoc, ← List.append_assoc _ _ w] at hread hp
  have hsettled := hbase.settled_of_readItem hbraced hcut hread hp
  obtain ⟨base', r', sub', sup', hatom, hscripts, rfl⟩ := readItem_eq_ok.mp hread
  rw [readAtom_eq_ok.mpr (hsettled.legible.readsAtom base.kind_braced hcut)] at hatom
  cases hatom
  have hreads := readsScripts_of_readScripts hscripts
  have hsome : (sub'.isSome || sup'.isSome) = true := by
    cases hreads with
    | none hne hne' =>
      obtain ⟨c, t, hc, hs⟩ := scripts_eq_cons hself.1
      rw [hs] at hne hne'
      rcases hc with rfl | rfl
      · exact absurd rfl (hne _)
      · exact absurd rfl (hne' _)
    | _ => simp
  rw [attachScripts_braced hself.2 hsome, ast_script, ast_braced_reread hsettled.of_braced.ast_reread,
    List.append_assoc, List.prefix_append_right_inj, List.append_assoc] at hp
  rw [List.append_assoc] at hreads
  obtain ⟨hsub', hsup'⟩ := settledRun_scripts hsub hsup hreads hp
  exact settled_script (houtlined.self (by simp [kind])) hsettled.of_braced hsub' hsup'

/-- The base of a script is grounded with the braces that it is written with. -/
theorem grounded_braced {base : Node} (h : base.Grounded) (hrecurs : base.Recurs)
    (hslots : ∀ stop, ∀ k ∈ contents stop base, k.Outlined ∧ k.Recurs) : base.braced.Grounded := by
  have houtlined := outlined_braced h.outlined
  unfold braced at houtlined ⊢
  split at houtlined
  next hk =>
    rw [if_pos hk]
    refine ⟨houtlined, by simp [names], by simp [kind], fun _ c hc => ?_⟩
    obtain rfl : c = base := by simpa [children] using hc
    exact ⟨⟨h.outlined, hrecurs⟩, hslots⟩
  next hk =>
    rw [if_neg hk]
    exact h

/-- A tree that is read from its markup and written as the beginning of it is settled. -/
theorem Worded.recurs (h : n.Worded) : n.Recurs := by
  induction hk : n.size using Nat.strong_induction_on generalizing n with
  | _ k ih =>
    subst hk
    have hbelow : ∀ c : Node, c.size < n.size → c.Worded → c.Recurs := fun c hc hworded =>
      ih c.size hc hworded rfl
    have hn := h.grounded hbelow
    by_cases hscript : n.kind = .script
    · cases n with
      | script id base sub sup =>
        have hmem : base ∈ (script id base sub sup).children := by simp [children]
        have hsize := size_lt_of_mem hmem
        have hworded := h.child (by simp [kind]) hmem
        have hbase := hworded.grounded fun c hc => hbelow c (by omega)
        have hbraced := grounded_braced hbase (hbelow base hsize hworded)
          (hn.slot (by simp [kind]) hmem)
        refine recurs_script h.outlined (hbraced.atomRecurs base.kind_braced) ?_ ?_
        · intro s hs
          exact hn.slot (by simp [kind]) (by simp [children, Option.mem_def.mp hs]) .brace
        · intro s hs
          exact hn.slot (by simp [kind]) (by simp [children, Option.mem_def.mp hs]) .brace
      | _ => cases hscript
    · exact (hn.atomRecurs hscript).recurs h.outlined

end Node

end FormulaDoc
