import FormulaDoc.Proofs.Reproduction

namespace FormulaDoc

/-- The letters of a text, as it is written and as it is read. -/
theorem text_letters {body : List Node} (h : body.all Node.isLetter) :
    ∃ cs : List Char, body.flatMap (·.markup .text false) = escape cs ∧
      body.map Node.reread = cs.map fun c => .symbol "" (String.singleton c) := by
  induction body with
  | nil => exact ⟨[], rfl, rfl⟩
  | cons n body ih =>
    rw [List.all_cons, Bool.and_eq_true] at h
    obtain ⟨cs, hcs, hbody⟩ := ih h.2
    obtain ⟨id, c, rfl⟩ : ∃ id c, n = .symbol id (String.singleton c) := by
      cases n with
      | symbol id value =>
        have hlen : value.length = 1 := by simpa [Node.isLetter] using h.1
        obtain ⟨c, hc⟩ := List.length_eq_one_iff.mp (String.length_toList ▸ hlen)
        refine ⟨id, c, ?_⟩
        rw [← String.ofList_toList (s := value), hc]
        rfl
      | _ => exact absurd h.1 (by simp [Node.isLetter])
    refine ⟨c :: cs, ?_, ?_⟩
    · rw [List.flatMap_cons, hcs, Node.markup_text_symbol, escape_cons]
      simp [escape]
    · rw [List.map_cons, List.map_cons, hbody, Node.reread_symbol]

theorem readsAlone_op {id operator : String} {limits : Bool}
    (h : (Node.op id operator limits).spelledAt []) :
    ReadsAlone (Node.op id operator limits).ast (.op "" operator limits) := by
  intro w hw
  have hs : operator ∈ bigOperators := by simpa [Node.spelledAt] using h
  have hname : command? operator.toList = some (operator.toList, []) := command?_operator operator hs
  rw [Node.ast_op]
  cases limits with
  | false =>
    rw [show (if false = true then "\\limits" else "").toList = [] from rfl, List.append_nil]
    exact readsCommand_ast _ (command?_append hname hw.1) (.operator hs hw.2)
  | true =>
    rw [show (if true = true then "\\limits" else "").toList = "\\limits".toList from rfl,
      List.append_assoc]
    have hcommand := command?_append (w := "\\limits".toList ++ w) hname (by rintro c t ⟨⟩; rfl)
    have hlimits : startsCommand "\\limits" (skipGap ("\\limits".toList ++ w)) = true := by
      have hname : command? "\\limits".toList = some ("\\limits".toList, []) := by decide
      have hopen := command?_append hname hw.1
      rw [show skipGap ("\\limits".toList ++ w) = "\\limits".toList ++ w from rfl, startsCommand, hopen]
      rfl
    exact readsCommand_ast _ hcommand (.limits hs hlimits)

theorem readsAlone_symbol {id value : String} (h : isLeafName value) :
    ReadsAlone (Node.symbol id value).ast (.symbol "" value) := by
  intro w hw
  rw [Node.ast_symbol]
  rcases isLeafName_cases h with ⟨c, rfl, -, hc⟩ | ⟨hcommand, hleaf⟩
  · simpa using ReadsAtom.symbol hc
  · exact readsCommand_ast _ (command?_append hcommand hw.1) (.leaf hleaf)

/-- A text of escaped characters is read as these characters. -/
theorem readsAlone_text (cs : List Char) : ReadsAlone ("\\text".toList ++ '{' :: (escape cs ++ ['}']))
    (.text "" (cs.map fun c => .symbol "" (String.singleton c))) := by
  intro w hw
  simp only [List.append_assoc, List.cons_append, List.nil_append]
  have hread := @ReadsCommand.text (siblings []) _ _ _ (rawGroup_escape cs w)
  rw [unescape_escape] at hread
  exact readsCommand_ast "\\text" rfl hread

namespace Node

variable {n : Node}

theorem readsAlone_leaf (h : n.spelledAt []) (hleaf : n.isBranch = false) :
    ReadsAlone n.ast n.reread := by
  cases n with
  | symbol id value =>
    rw [reread_symbol]
    exact readsAlone_symbol h
  | op id operator limits =>
    rw [reread_eq]
    exact readsAlone_op h
  | var id latex => simp [spelledAt] at h
  | space id s =>
    intro w hw
    have hs : s ∈ spacingCommands := by simpa [spelledAt] using h
    have hcommand := command?_append (command?_spacing s hs) hw.1
    rw [ast_space, reread_eq]
    exact readsCommand_ast _ hcommand (.spacing hs)
  | text id body =>
    obtain ⟨cs, hcs, hbody⟩ := text_letters h
    rw [ast_text, reread_text, hcs, hbody]
    exact readsAlone_text cs
  | newLine =>
    intro w hw
    rw [ast_newLine, reread_mark (m := .newLine) rfl]
    exact readsCommand_ast "\\\\" rfl .newLine
  | alignMark =>
    intro w hw
    rw [ast_alignMark, reread_mark (m := .alignMark) rfl]
    exact .alignMark
  | _ => cases hleaf

theorem Legible.reproduces (h : n.Legible) : Writing.plain.Reproduces n := by
  intro m hm
  have hlegible : m.Legible := fun k hk => h k (mem_outer_trans hm hk)
  have hid : m.mapChildren id = m := mapChildren_eq_self fun _ _ => rfl
  have hself := hlegible.self
  exact ⟨hself.spelled, hself.names, hself.runs, (opening_ast hlegible.spelled.outlined).starts,
    readsAlone_leaf hself.spelled, fun _ => hid.symm, fun _ => m.reread_eq⟩

theorem isScriptGroup_reread (n : Node) : n.reread.isScriptGroup = n.isScriptGroup := by
  refine isScriptGroup_map kind_reread ?_
  rintro id body rfl
  exact ⟨"", reread_group id body⟩

/-- The markup of a legible tree is read as the tree that is written in the same slots. -/
theorem Legible.readsBack (h : n.Legible) : n.ReadsBack :=
  h.reproduces.readsItem

theorem Legible.readsAtom (h : n.Legible) (hkind : n.kind ≠ .script) {w : List Char} (hw : CutOff w) :
    ReadsAtom [] (siblings []) (n.ast ++ w) n.reread w :=
  h.reproduces.readsAlone hkind w hw

end Node

theorem braced_reread (base : Node) : base.braced.reread = base.reread.braced := by
  unfold Node.braced
  rw [base.kind_reread]
  split
  next => rw [Node.reread_group, List.map_singleton]
  next => rfl

theorem attachScripts_braced {base : Node} (h : base.isScriptGroup = false) {sub sup : Option Node}
    (hs : (sub.isSome || sup.isSome) = true) :
    attachScripts base.braced.reread sub sup = .script "" base.reread sub sup := by
  rw [braced_reread, attachScripts_of_braced (base.isScriptGroup_reread.trans h) hs]

end FormulaDoc
