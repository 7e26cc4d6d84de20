import FormulaDoc.Proofs.Legible

namespace FormulaDoc

theorem readsCommand_ast (name : String) {s after rest : List Char} {n : Node}
    (hs : command? s = some (name.toList, after))
    (h : ReadsCommand (siblings []) name after n rest) :
    ReadsAtom [] (siblings []) s n rest := by
  refine .command hs ?_
  rwa [String.ofList_toList]

namespace Node

/-- The nodes that are written around what is written for their children. -/
def isBranch : Node → Bool
  | symbol .. | space .. | text .. | op .. | newLine | alignMark | var .. => false
  | _ => true

theorem isBranch_eq_of_kind {m n : Node} (h : m.kind = n.kind) : m.isBranch = n.isBranch := by
  cases m <;> cases n <;> first | rfl | cases h

theorem kind_ne_text_of_isBranch {n : Node} (h : n.isBranch) : n.kind ≠ .text := by
  rintro hk
  cases n with
  | text => cases h
  | _ => cases hk

theorem exists_id_of_isBranch {n : Node} (h : n.isBranch) : ∃ id, n.id? = some id := by
  cases n <;> first | exact ⟨_, rfl⟩ | cases h

theorem isBranch_of_arguments {n s : Node} {stop : Stop} (h : (stop, s) ∈ n.arguments) : n.isBranch := by
  cases n <;> first | rfl | cases h

end Node

namespace Writing

/-- What a writing shows of one node. -/
structure Shows (W : Writing) (n : Node) : Prop where
  spelled : n.spelledAt []
  names : ∀ c ∈ n.names, Verbatim c
  runs : ∀ stop run, (stop, run) ∈ n.runs → ∀ c ∈ run, stop.holds (W.write c).ast = false
  starts : Starts (W.write n).ast
  leaf : n.isBranch = false → ReadsAlone (W.write n).ast (W.read n)
  write_eq : n.isBranch → W.write n = n.mapChildren W.write
  read_eq : n.isBranch → W.read n = (n.mapChildren W.read).settle

/-- All nodes outside of texts are shown. -/
def Reproduces (W : Writing) (n : Node) : Prop :=
  ∀ m ∈ n.outer, W.Shows m

variable {W : Writing} {c m n : Node} {stop : Stop} {w : List Char}

theorem Reproduces.self (h : W.Reproduces n) : W.Shows n :=
  h n n.self_mem_outer

theorem Reproduces.child (h : W.Reproduces n) (hn : n.kind ≠ .text) (hc : c ∈ n.children) :
    W.Reproduces c :=
  fun m hm => h m (Node.mem_outer_of_child hn hc hm)

theorem Reproduces.of_mem_contents (h : W.Reproduces n) (hm : m ∈ contents stop n) :
    W.Reproduces m :=
  fun k hk => h k (Node.mem_outer_of_mem_contents hm hk)

namespace Shows

theorem write_group {id : String} {body : List Node} (h : W.Shows (.group id body)) :
    W.write (.group id body) = .group id (body.map W.write) :=
  h.write_eq rfl

theorem read_group {id : String} {body : List Node} (h : W.Shows (.group id body)) :
    W.read (.group id body) = .group "" (body.map W.read) :=
  h.read_eq rfl

theorem contents_write (h : W.Shows n) (stop : Stop) :
    contents stop (W.write n) = (contents stop n).map W.write := by
  refine Node.contents_map stop (W.kind_write n) ?_
  rintro id body rfl
  exact ⟨id, h.write_group⟩

theorem contents_read (h : W.Shows n) (stop : Stop) :
    contents stop (W.read n) = (contents stop n).map W.read := by
  refine Node.contents_map stop (W.kind_read n) ?_
  rintro id body rfl
  exact ⟨"", h.read_group⟩

theorem slot_read (h : W.Shows n) (stop : Stop) :
    (W.read n).slot stop = collapse ((contents stop n).map W.read) := by
  rw [Node.slot, h.contents_read]

theorem readArgument_slot (h : W.Shows n) (hrun : W.RunReads .brace (contents .brace n))
    (w : List Char) :
    readArgument (siblings []) ('{' :: (joined (contents .brace (W.write n)) ++ '}' :: w)) =
      .ok ((W.read n).slot .brace, w) := by
  rw [h.contents_write, h.slot_read]
  exact readArgument_run hrun w

end Shows

/-- The rows of an array are read from the run of siblings that they are written as. -/
theorem readsRows_stream {ns : List Node} {s : List Char}
    (hruns : ns ≠ [] → ∀ run ∈ (cells ns).flatten, W.RunReads .cell run)
    (hs : s = '\n' :: (joined (ns.map W.write) ++ arrayEnd w)) :
    ReadsRows (siblings []) (s.length + 1) false s (cutCells (ns.map W.read))
      ("\\end\x7barray\x7d".toList ++ w) := by
  subst hs
  by_cases hne : ns = []
  · subst hne
    have hempty : W.RunReads .cell [] := by simp [RunReads]
    have hread := siblings_following hempty (ends_array w)
    rw [siblings_skipGap (skipGap_newLine _).symm] at hread
    exact @ReadsRows.last _ _ false _ _ _ hread rfl
  · have hwrite : ns.map W.write ≠ [] := by simpa using hne
    have hlength := length_following (ns.map W.write)
    rw [following_eq hwrite] at hlength
    rw [cutCells, if_neg (by simpa using hne)]
    refine readsRows_following (hruns hne) (.inl hne) ?_ ?_
    · simp only [List.length_cons, List.length_append, List.length_map] at hlength ⊢
      omega
    · rw [following_eq hwrite]
      rfl

theorem readsAtom_array {id : String} {rows : List (List Node)} {align : Option String}
    (h : W.Shows (.array id rows align)) (hcells : ∀ c ∈ rows.flatten, W.Shows c)
    (hruns : ∀ stop run, (stop, run) ∈ (Node.array id rows align).runs → W.RunReads stop run) :
    ReadsAtom [] (siblings []) ((W.write (.array id rows align)).ast ++ w)
      (W.read (.array id rows align)) w := by
  have hspelled : align.isSome ∧ ∀ row ∈ rows, row ≠ [] := by
    simpa [Node.spelledAt] using h.spelled
  obtain ⟨align, rfl⟩ := Option.isSome_iff_exists.mp hspelled.1
  have halign : Verbatim align := h.names align (by simp [Node.names])
  have hwrite : stream (rows.map (·.map W.write)) = (stream rows).map W.write :=
    stream_map (W.write_mark rfl) (W.write_mark rfl) fun c hc => (hcells c hc).contents_write .cell
  have hread : stream (rows.map (·.map W.read)) = (stream rows).map W.read :=
    stream_map (W.read_mark rfl) (W.read_mark rfl) fun c hc => (hcells c hc).contents_read .cell
  have hstream : stream rows ≠ [] → ∀ run ∈ (cells (stream rows)).flatten, W.RunReads .cell run := by
    intro hne run hrun
    have hrows : rows ≠ [] := by
      rintro rfl
      exact hne rfl
    exact hruns .cell run (by simpa [Node.runs, hrows] using hrun)
  rw [h.write_eq rfl, h.read_eq rfl, Node.mapChildren_array, Node.mapChildren_array, Node.settle,
    Node.ast_array id align (by simpa using hspelled.2), hwrite, hread]
  simp only [List.append_assoc, List.cons_append, List.nil_append]
  refine readsCommand_ast "\\begin" rfl ?_
  refine .array (verbatim_array.readName _) (halign.readName _) ?_ (readEnd_array w)
  exact readRows_eq_ok.mpr (readsRows_stream hstream rfl)

/-- What a branch other than a script writes is read back. -/
theorem readsAlone_of_branch (h : W.Shows n) (hbranch : n.isBranch) (hkind : n.kind ≠ .script)
    (hchildren : ∀ c ∈ n.children, W.Shows c ∧ ReadsItem (W.write c).ast (W.read c))
    (hruns : ∀ stop run, (stop, run) ∈ n.runs → W.RunReads stop run) :
    ReadsAlone (W.write n).ast (W.read n) := by
  intro w hw
  have hbraced : ∀ run : List Node, (∀ c ∈ run, c ∈ n.children) → W.RunReads .brace run :=
    fun run hrun c hc => have hchild := hchildren c (hrun c hc)
      ⟨hchild.1.starts, hchild.2, hchild.1.starts.holds_brace⟩
  have hargument : ∀ s, (.brace, s) ∈ n.arguments → n.kind ≠ .array → ∀ w,
      readArgument (siblings []) ('{' :: (joined (contents .brace (W.write s)) ++ '}' :: w)) =
        .ok ((W.read s).slot .brace, w) := fun s hs hk w =>
    (hchildren s (Node.mem_children_of_arguments hs)).1.readArgument_slot
      (hruns _ _ (Node.mem_runs_of_arguments hk hs)) w
  have hwrite := h.write_eq hbranch
  have hread := h.read_eq hbranch
  cases n with
  | symbol | space | text | op | newLine | alignMark | var => cases hbranch
  | script => exact absurd rfl hkind
  | array id rows align => exact readsAtom_array h (fun c hc => (hchildren c hc).1) hruns
  | group id body =>
    rw [h.write_group, h.read_group, Node.ast_group, List.cons_append, List.append_assoc]
    exact .group (readClosed_run rfl ends_brace (hbraced body fun c hc => hc) w)
  | frac id numerator denominator =>
    rw [hwrite, hread]
    show ReadsAtom _ _ ((Node.frac id (W.write numerator) (W.write denominator)).ast ++ w) _ w
    rw [Node.ast_frac]
    simp only [List.append_assoc, List.cons_append, List.nil_append]
    exact readsCommand_ast "\\frac" rfl (.frac (hargument _ (by simp [Node.arguments]) (by simp [Node.kind]) _)
      (hargument _ (by simp [Node.arguments]) (by simp [Node.kind]) w))
  | root id body index =>
    have hbody := hargument body (by simp [Node.arguments]) (by simp [Node.kind]) w
    rw [hwrite, hread, Node.mapChildren_root, Node.mapChildren_root]
    cases index with
    | none =>
      rw [Option.map_none, Node.ast_root_none]
      simp only [List.append_assoc, List.cons_append]
      exact readsCommand_ast "\\sqrt" rfl (.sqrt (by rintro r ⟨⟩) hbody)
    | some m =>
      have hm := (hchildren m (by simp [Node.children])).1
      have hindex := hruns .bracket (contents .bracket m) (by simp [Node.runs, Node.arguments])
      rw [Option.map_some, Option.map_some, Node.settle, Option.map_some, hm.slot_read,
        Node.ast_root_some, hm.contents_write]
      simp only [List.append_assoc, List.cons_append]
      exact readsCommand_ast "\\sqrt" rfl (.index rfl (readClosed_run rfl ends_bracket hindex _) hbody)
  | brace id above body =>
    have hbody := hargument body (by simp [Node.arguments]) (by simp [Node.kind]) w
    rw [hwrite, hread]
    show ReadsAtom _ _ ((Node.brace id above (W.write body)).ast ++ w) _ w
    rw [Node.ast_brace]
    simp only [List.append_assoc, List.cons_append, List.nil_append]
    cases above with
    | true => exact readsCommand_ast "\\overbrace" rfl (.overbrace hbody)
    | false => exact readsCommand_ast "\\underbrace" rfl (.underbrace hbody)
  | color id c body =>
    have hname : Verbatim c := h.names c (by simp [Node.names])
    rw [hwrite, hread]
    show ReadsAtom _ _ ((Node.color id c (body.map W.write)).ast ++ w) _ w
    rw [Node.ast_color]
    simp only [List.append_assoc, List.cons_append, List.nil_append]
    exact readsCommand_ast "\\textcolor" rfl (.textColor (hname.readName _)
      (readBraced_run (hbraced body fun c hc => hc) w))
  | box id border body background =>
    have hs := (hchildren body (by simp [Node.children])).1
    have hbody := hruns .dollar (contents .dollar body) (by simp [Node.runs, Node.arguments])
    have hborder : Verbatim border := h.names border (by simp [Node.names])
    have hback : Verbatim background := h.names background (by simp [Node.names])
    rw [hwrite, hread]
    show ReadsAtom _ _ ((Node.box id border (W.write body) background).ast ++ w)
      (.box "" border ((W.read body).slot .dollar) background) w
    rw [Node.ast_box, hs.contents_write, hs.slot_read]
    simp only [List.append_assoc, List.cons_append, List.nil_append]
    exact readsCommand_ast "\\fcolorbox" rfl (.frameBox (hborder.readName _)
      (hback.readName _) rfl rfl (readClosed_run rfl ends_dollar hbody _) rfl)
  | strike id body =>
    have hbody := hargument body (by simp [Node.arguments]) (by simp [Node.kind]) w
    rw [hwrite, hread]
    show ReadsAtom _ _ ((Node.strike id (W.write body)).ast ++ w) _ w
    rw [Node.ast_strike]
    simp only [List.append_assoc, List.cons_append, List.nil_append]
    exact readsCommand_ast "\\cancel" rfl (.cancel hbody)
  | aligned id cells =>
    have hcells : W.RunReads .aligned cells := fun c hc => have hchild := hchildren c hc
      ⟨hchild.1.starts, hchild.2, hchild.1.starts.holds_aligned⟩
    rw [hwrite, hread]
    show ReadsAtom _ _ ((Node.aligned id (cells.map W.write)).ast ++ w) _ w
    rw [Node.ast_aligned]
    simp only [List.append_assoc, List.cons_append, List.nil_append]
    exact readsCommand_ast "\\begin" rfl (.aligned (verbatim_aligned.readName _)
      (siblings_joined hcells (ends_aligned w)) (readEnd_aligned w))

end Writing

namespace Node

theorem isScriptGroup_map {f : Node → Node} {n : Node} (hkind : ∀ m, (f m).kind = m.kind)
    (hgroup : ∀ id body, n = group id body → ∃ id', f n = group id' (body.map f)) :
    (f n).isScriptGroup = n.isScriptGroup := by
  rcases n.eq_group_or_kind_ne with ⟨id, body, rfl⟩ | hk
  · obtain ⟨id', hf⟩ := hgroup id body rfl
    rw [hf]
    rcases body with _ | ⟨m, _ | ⟨m', body⟩⟩
    · rfl
    · simp [isScriptGroup, hkind m]
    · rfl
  · have hk' : (f n).kind ≠ .group := (hkind n).symm ▸ hk
    rw [isScriptGroup_of_kind_ne hk, isScriptGroup_of_kind_ne hk']

end Node

theorem attachScripts_eq {base : Node} (h : base.isScriptGroup = false) {sub sup : Option Node}
    (hs : (sub.isSome || sup.isSome) = true) :
    attachScripts base sub sup = .script "" base sub sup := by
  unfold attachScripts
  split
  next => simp at hs
  next =>
    split
    next => exact absurd h (by simp [Node.isScriptGroup, Node.kind])
    next => rfl

/-- Scripts find the base that they were written after, also where it has scripts of its own. -/
theorem attachScripts_of_braced {base : Node} (h : base.isScriptGroup = false)
    {sub sup : Option Node} (hs : (sub.isSome || sup.isSome) = true) :
    attachScripts base.braced sub sup = .script "" base sub sup := by
  unfold Node.braced
  split
  next hk =>
    cases base with
    | script => cases sub <;> cases sup <;> first | rfl | simp at hs
    | _ => cases hk
  next => exact attachScripts_eq h hs

theorem scriptMarkup_some (mark : Char) (n : Node) :
    Node.scriptMarkup mark (some n) = mark :: '{' :: (joined (contents .brace n) ++ ['}']) := rfl

theorem scriptMarkup_none (mark : Char) : Node.scriptMarkup mark none = [] := rfl

theorem cutOff_scripts {sub sup : Option Node} (h : sub.isSome || sup.isSome) (w : List Char) :
    CutOff (Node.scriptMarkup '_' sub ++ Node.scriptMarkup '^' sup ++ w) := by
  obtain ⟨c, t, hc, hs⟩ := Node.scripts_eq_cons h
  rw [hs]
  rcases hc with rfl | rfl
  all_goals exact ⟨by rintro d u ⟨⟩; rfl, rfl⟩

namespace Writing

variable {W : Writing} {n : Node} {w : List Char}

theorem Shows.readScript_slot (h : W.Shows n) (hrun : W.RunReads .brace (contents .brace n))
    (w : List Char) :
    readScript [] (siblings []) ('{' :: (joined (contents .brace (W.write n)) ++ '}' :: w)) =
      .ok ((W.read n).slot .brace, w) := by
  rw [← h.readArgument_slot hrun w]
  rfl

/-- Scripts that are written after a base are read back. -/
theorem readScripts_markup {sub sup : Option Node}
    (hsub : ∀ s ∈ sub, W.Shows s ∧ W.RunReads .brace (contents .brace s))
    (hsup : ∀ s ∈ sup, W.Shows s ∧ W.RunReads .brace (contents .brace s)) (hw : Unscripted w) :
    readScripts [] (siblings [])
        (Node.scriptMarkup '_' (sub.map W.write) ++ Node.scriptMarkup '^' (sup.map W.write) ++ w) =
      .ok (((sub.map W.read).map (Node.slot .brace), (sup.map W.read).map (Node.slot .brace)),
        skipGap w) := by
  rw [readScripts_eq_ok]
  cases sub with
  | none =>
    cases sup with
    | none => exact .none (fun t => (hw t).1) fun t => (hw t).2
    | some p =>
      simp only [Option.map_none, Option.map_some, scriptMarkup_some, scriptMarkup_none,
        List.nil_append, List.append_assoc, List.cons_append]
      exact .sup rfl ((hsup p rfl).1.readScript_slot (hsup p rfl).2 w) fun t => (hw t).1
  | some s =>
    have hread := (hsub s rfl).1.readScript_slot (hsub s rfl).2
    cases sup with
    | none =>
      simp only [Option.map_none, Option.map_some, scriptMarkup_some, scriptMarkup_none,
        List.nil_append, List.append_nil, List.append_assoc, List.cons_append]
      exact .sub rfl (hread w) fun t => (hw t).2
    | some p =>
      simp only [Option.map_some, scriptMarkup_some, List.nil_append, List.append_assoc,
        List.cons_append]
      exact .subSup rfl (hread _) rfl ((hsup p rfl).1.readScript_slot (hsup p rfl).2 w)

/-- The base of a script is read back, also where it is a script in braces. -/
theorem readsAlone_braced {base : Node} (h : W.Shows base)
    (hitem : ReadsItem (W.write base).ast (W.read base))
    (halone : base.kind ≠ .script → ReadsAlone (W.write base).ast (W.read base)) :
    ReadsAlone (W.write base).braced.ast (W.read base).braced := by
  unfold Node.braced
  rw [W.kind_write, W.kind_read]
  split
  next =>
    intro w hw
    have hrun : W.RunReads .brace [base] := fun c hc => by
      obtain rfl := List.mem_singleton.mp hc
      exact ⟨h.starts, hitem, h.starts.holds_brace⟩
    rw [Node.ast_group, List.cons_append, List.append_assoc]
    exact .group (readClosed_run rfl ends_brace hrun w)
  next hk => exact halone hk

theorem readsItem_script {id : String} {base : Node} {sub sup : Option Node}
    (h : W.Shows (.script id base sub sup)) (hshows : W.Shows base)
    (hbase : ReadsAlone (W.write base).braced.ast (W.read base).braced)
    (hsub : ∀ s ∈ sub, W.Shows s ∧ W.RunReads .brace (contents .brace s))
    (hsup : ∀ s ∈ sup, W.Shows s ∧ W.RunReads .brace (contents .brace s)) :
    ReadsItem (W.write (.script id base sub sup)).ast (W.read (.script id base sub sup)) := by
  intro w hw hscripts
  have hs : (sub.isSome || sup.isSome) = true ∧ base.isScriptGroup = false := by
    simpa [Node.spelledAt] using h.spelled
  have hgroup : (W.read base).isScriptGroup = false := by
    rw [← hs.2]
    refine Node.isScriptGroup_map W.kind_read ?_
    rintro id body rfl
    exact ⟨"", hshows.read_group⟩
  have hattach : attachScripts (W.read base).braced ((sub.map W.read).map (Node.slot .brace))
      ((sup.map W.read).map (Node.slot .brace)) = .script "" (W.read base) _ _ :=
    attachScripts_of_braced hgroup (by simpa using hs.1)
  have hcut : CutOff (Node.scriptMarkup '_' (sub.map W.write) ++
      Node.scriptMarkup '^' (sup.map W.write) ++ w) := cutOff_scripts (by simpa using hs.1) w
  have hatom := readAtom_eq_ok.mpr (hbase _ hcut)
  have hboth := readScripts_markup hsub hsup hscripts
  rw [h.write_eq rfl, h.read_eq rfl, Node.mapChildren_script, Node.mapChildren_script, Node.ast_script,
    Node.settle, List.append_assoc, List.append_assoc, ← List.append_assoc _ _ w, ← hattach]
  exact readItem_eq_ok.mpr ⟨_, _, _, _, hatom, hboth, rfl⟩

end Writing

/-- Members of the runs of a node are smaller than the node, unless they separate cells. -/
theorem mem_runs {stop : Stop} {run : List Node} {c n : Node} (hrun : (stop, run) ∈ n.runs)
    (hc : c ∈ run) : stop = .cell ∧ (c = .newLine ∨ c = .alignMark) ∨
      ∃ s ∈ n.children, n.kind ≠ .text ∧ c ∈ contents stop s := by
  rcases Node.exists_of_mem_runs hrun with ⟨id, rows, align, rfl, -, rfl, hr⟩ | ⟨-, s, hs, rfl⟩
  · rcases mem_stream (mem_of_mem_cells hr hc) with h | h | ⟨s, hs, h⟩
    · exact .inl ⟨rfl, .inl h⟩
    · exact .inl ⟨rfl, .inr h⟩
    · exact .inr ⟨s, hs, by simp [Node.kind], h⟩
  · exact .inr ⟨s, Node.mem_children_of_arguments hs,
      Node.kind_ne_text_of_isBranch (Node.isBranch_of_arguments hs), hc⟩

/-- Texts without variables are read by the reader of siblings. -/
theorem readNodes_eq (text : String) :
    readNodes [] text = (siblings [] .never text.toList).map (·.1) := by
  simp [readNodes, variableOrder, siblings]

namespace Writing

variable {W : Writing} {n : Node}

/-- Below a tree all runs are read back, if all smaller trees are. -/
theorem Reproduces.runReads_of (h : W.Reproduces n)
    (hbelow : ∀ c : Node, c.size < n.size → W.Reproduces c → ReadsItem (W.write c).ast (W.read c)) :
    ∀ stop run, (stop, run) ∈ n.runs → W.RunReads stop run := by
  intro stop run hrun c hc
  have hstop := h.self.runs stop run hrun c hc
  rcases mem_runs hrun hc with ⟨rfl, rfl | rfl⟩ | ⟨s, hs, hkind, hmem⟩
  · rw [W.write_mark (m := .newLine) rfl, Node.ast_newLine] at hstop
    exact absurd hstop (by decide)
  · rw [W.write_mark (m := .alignMark) rfl, Node.ast_alignMark] at hstop
    exact absurd hstop (by decide)
  · have hshown := (h.child hkind hs).of_mem_contents hmem
    have := Node.size_lt_of_mem hs
    have := Node.size_le_of_mem_contents hmem
    exact ⟨hshown.self.starts, hbelow c (by omega) hshown, hstop⟩

theorem Reproduces.readsAlone_of (h : W.Reproduces n)
    (hbelow : ∀ c : Node, c.size < n.size → W.Reproduces c → ReadsItem (W.write c).ast (W.read c))
    (hkind : n.kind ≠ .script) : ReadsAlone (W.write n).ast (W.read n) := by
  cases hbranch : n.isBranch with
  | false => exact h.self.leaf hbranch
  | true =>
    refine readsAlone_of_branch h.self hbranch hkind (fun c hc => ?_) (h.runReads_of hbelow)
    have hchild := h.child (Node.kind_ne_text_of_isBranch hbranch) hc
    exact ⟨hchild.self, hbelow c (Node.size_lt_of_mem hc) hchild⟩

/-- A tree that a writing shows is read back. -/
theorem Reproduces.readsItem (h : W.Reproduces n) : ReadsItem (W.write n).ast (W.read n) := by
  -- The members of a group in a slot are read there, and they are no children of the node.
  induction hk : n.size using Nat.strong_induction_on generalizing n with
  | _ k ih =>
    subst hk
    have hbelow : ∀ c : Node, c.size < n.size → W.Reproduces c →
        ReadsItem (W.write c).ast (W.read c) := fun c hc hshown => ih c.size hc hshown rfl
    by_cases hscript : n.kind = .script
    · cases n with
      | script id base sub sup =>
        have hchild : ∀ c ∈ (Node.script id base sub sup).children, W.Reproduces c := fun c hc =>
          h.child (by simp [Node.kind]) hc
        have hruns := h.runReads_of hbelow
        have hbase := hchild base (by simp [Node.children])
        have hsize := Node.size_lt_of_mem (n := .script id base sub sup) (c := base)
          (by simp [Node.children])
        have halone : ReadsAlone (W.write base).braced.ast (W.read base).braced :=
          readsAlone_braced hbase.self (hbelow base hsize hbase)
            (hbase.readsAlone_of fun c hc => hbelow c (by omega))
        refine readsItem_script h.self hbase.self halone ?_ ?_
        · intro m hm
          obtain rfl : sub = some m := hm
          exact ⟨(hchild m (by simp [Node.children])).self,
            hruns .brace _ (by simp [Node.runs, Node.arguments])⟩
        · intro m hm
          obtain rfl : sup = some m := hm
          exact ⟨(hchild m (by simp [Node.children])).self,
            hruns .brace _ (by simp [Node.runs, Node.arguments])⟩
      | _ => cases hscript
    · exact (h.readsAlone_of hbelow hscript).readsItem

theorem Reproduces.readsAlone (h : W.Reproduces n) (hkind : n.kind ≠ .script) :
    ReadsAlone (W.write n).ast (W.read n) :=
  h.readsAlone_of (fun _ _ hc => hc.readsItem) hkind

/-- Trees that a writing shows are read up to the end of their text. -/
theorem readNodes_joined {ns : List Node} (h : ∀ n ∈ ns, W.Reproduces n) {text : String}
    (htext : text.toList = joined (ns.map W.write)) : readNodes [] text = .ok (ns.map W.read) := by
  have hrun : W.RunReads .never ns := fun n hn => ⟨(h n hn).self.starts, (h n hn).readsItem, rfl⟩
  have hread := siblings_joined hrun ends_never
  rw [List.append_nil, ← htext] at hread
  rw [readNodes_eq, hread]
  rfl

end Writing

end FormulaDoc
