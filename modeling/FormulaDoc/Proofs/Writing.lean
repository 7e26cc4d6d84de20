import FormulaDoc.Proofs.Reread

namespace FormulaDoc

/-- A text that the item in front of it does not take anything of: it continues no command, and no
limits stand in it. -/
def CutOff (w : List Char) : Prop :=
  (∀ c t, w = c :: t → c.isAlpha = false) ∧ startsCommand "\\limits" (skipGap w) = false

/-- A text without scripts for the item in front of it. -/
def Unscripted (w : List Char) : Prop :=
  ∀ t, skipGap w ≠ '_' :: t ∧ skipGap w ≠ '^' :: t

/-- A text in front of which a run of siblings ends. -/
structure Ends (stop : Stop) (w : List Char) : Prop where
  cutOff : CutOff w
  unscripted : Unscripted w
  stops : skipGap w = [] ∨ stop.holds (skipGap w)

theorem skipGap_space (s : List Char) : skipGap (' ' :: s) = skipGap s := rfl

theorem skipGap_newLine (s : List Char) : skipGap ('\n' :: s) = skipGap s := rfl

theorem siblings_skipGap {stop : Stop} {s t : List Char} (h : skipGap s = skipGap t) :
    siblings [] stop s = siblings [] stop t := by
  rw [siblings_eq (by simp), siblings_eq (by simp), h]

section

variable {names : List String} {s w : List Char}

theorem startsCommand_append (h : OpensBut names s) (hw : ∀ c t, w = c :: t → c.isAlpha = false)
    (name : String) : startsCommand name (s ++ w) = startsCommand name s := by
  rcases h with ⟨c, t, rfl, -, hc⟩ | ⟨cmd, after, hs, -⟩
  · have hback : c ≠ '\\' := by
      rintro rfl
      exact absurd hc (by decide)
    simp [startsCommand, command?_eq_none hback]
  · simp [startsCommand, hs, command?_append hs hw]

/-- Whether a run ends is seen on its first item alone. -/
theorem Stop.holds_append (h : OpensBut names s) (hw : ∀ c t, w = c :: t → c.isAlpha = false)
    (stop : Stop) : stop.holds (s ++ w) = stop.holds s := by
  obtain ⟨c, t, hs, -⟩ := h.head
  have hhead : (s ++ w).head? = s.head? := by rw [hs]; rfl
  cases stop <;> simp only [Stop.holds, hhead, startsCommand_append h hw]

theorem Stop.holds_script {base : Node} (h : OpensBut names base.ast) (stop : Stop) (id : String)
    (sub sup : Option Node) : stop.holds (Node.script id base sub sup).ast = stop.holds base.braced.ast := by
  rw [Node.ast_script, List.append_assoc]
  exact holds_append (Node.opensBut_braced h) (fun _ _ => Node.isAlpha_scripts) stop

theorem OpensBut.unscripted (h : OpensBut names s) : Unscripted (' ' :: s) := by
  obtain ⟨c, t, hs, -, hc⟩ := h.head
  intro u
  rw [skipGap_space, h.skipGap, hs]
  constructor <;> rintro he <;> cases he <;> exact absurd hc (by decide)

theorem OpensBut.holds_brace (h : OpensBut names s) : Stop.brace.holds s = false := by
  obtain ⟨c, t, rfl, -, hc⟩ := h.head
  simp only [List.mem_cons, List.not_mem_nil, or_false, not_or] at hc
  simpa [Stop.holds] using hc.1

theorem Starts.cutOff (h : Starts s) : CutOff (' ' :: s) := by
  refine ⟨?_, ?_⟩
  · intro c t hc
    cases hc
    rfl
  · rw [skipGap_space, h.skipGap]
    exact h.startsCommand_eq_false (by simp)

theorem Starts.holds_aligned (h : Starts s) : Stop.aligned.holds s = false := by
  have hend : startsCommand "\\end" s = false := h.startsCommand_eq_false (by simp)
  have hbrace := h.holds_brace
  simp only [Stop.holds] at hbrace ⊢
  rw [hbrace, hend]
  rfl

/-- Only one command begins an item and ends a run of siblings in front of it. -/
theorem Stop.holds_of_command {stop : Stop} {name after : List Char} (h : Starts s)
    (hs : command? s = some (name, after)) (hname : name ≠ ['\\', '\\']) : stop.holds s = false := by
  obtain ⟨c, t, rfl⟩ := exists_of_command? hs
  have hend : startsCommand "\\end" ('\\' :: c :: t) = false := h.startsCommand_eq_false (by simp)
  have hline : startsCommand "\\\\" ('\\' :: c :: t) = false := by
    rw [startsCommand, hs]
    simpa using hname
  cases stop <;> simp [holds, hend, hline]

end

theorem cutOff_following {ns : List Node} {w : List Char} (hns : ∀ n ∈ ns, Starts n.ast)
    (hw : CutOff w) : CutOff (following ns ++ w) := by
  induction ns with
  | nil => exact hw
  | cons n ns ih =>
    have hrest := ih fun m hm => hns m (List.mem_cons_of_mem _ hm)
    have hopen : Starts (n.ast ++ (following ns ++ w)) := (hns n List.mem_cons_self).append hrest.1
    simpa [following_cons, joined] using hopen.cutOff

theorem unscripted_following {ns : List Node} {w : List Char} (hns : ∀ n ∈ ns, Starts n.ast)
    (hw : CutOff w) (hw' : Unscripted w) : Unscripted (following ns ++ w) := by
  cases ns with
  | nil => exact hw'
  | cons n ns =>
    have hrest := cutOff_following (fun m hm => hns m (List.mem_cons_of_mem _ hm)) hw
    have hopen := (hns n List.mem_cons_self).append hrest.1
    simpa [following_cons, joined] using hopen.unscripted

/-- A text that is read as one item. -/
def ReadsItem (s : List Char) (n : Node) : Prop :=
  ∀ w, CutOff w → Unscripted w → readItem [] (siblings []) (s ++ w) = .ok (n, skipGap w)

/-- A text that is read as one node without scripts. -/
def ReadsAlone (s : List Char) (n : Node) : Prop :=
  ∀ w, CutOff w → ReadsAtom [] (siblings []) (s ++ w) n w

theorem ReadsAlone.readsItem {s : List Char} {n : Node} (h : ReadsAlone s n) : ReadsItem s n := by
  intro w hw hscripts
  have hatom : readAtom [] (siblings []) (s ++ w) = .ok (n, w) := readAtom_eq_ok.mpr (h w hw)
  have hnone : readScripts [] (siblings []) w = .ok ((none, none), skipGap w) :=
    readScripts_eq_ok.mpr (.none (fun t => (hscripts t).1) fun t => (hscripts t).2)
  exact readItem_eq_ok.mpr ⟨n, w, none, none, hatom, hnone, rfl⟩

/-- The tree that is written for a tree, and the tree that a reader makes of it. -/
structure Writing where
  write : Node → Node
  read : Node → Node
  kind_write (n : Node) : (write n).kind = n.kind
  kind_read (n : Node) : (read n).kind = n.kind

namespace Writing

variable (W : Writing) {stop : Stop}

/-- A tree that is written as an item of a run that goes on behind it. -/
structure IsItem (stop : Stop) (n : Node) : Prop where
  starts : Starts (W.write n).ast
  reads : ReadsItem (W.write n).ast (W.read n)
  goesOn : stop.holds (W.write n).ast = false

/-- A run of siblings that is read up to its stop. -/
def RunReads (stop : Stop) (run : List Node) : Prop :=
  ∀ n ∈ run, W.IsItem stop n

theorem write_mark {m : Node} (hm : m.isMark) : W.write m = m :=
  Node.eq_of_isMark hm (W.kind_write m)

theorem read_mark {m : Node} (hm : m.isMark) : W.read m = m :=
  Node.eq_of_isMark hm (W.kind_read m)

theorem notMem_read {m : Node} {run : List Node} (hm : m.isMark) (h : m ∉ run) : m ∉ run.map W.read := by
  intro hmem
  obtain ⟨n, hn, he⟩ := List.mem_map.mp hmem
  have hkind : n.kind = m.kind := by rw [← W.kind_read n, he]
  rw [Node.eq_of_isMark hm hkind] at hn
  exact h hn

variable {W}

/-- Siblings that are written one after the other are read back, if none of them ends the run. -/
theorem siblings_following {ns : List Node} {w : List Char} (hns : W.RunReads stop ns)
    (hw : Ends stop w) :
    siblings [] stop (following (ns.map W.write) ++ w) = .ok (ns.map W.read, skipGap w) := by
  induction ns with
  | nil => exact (siblings_eq_ok (by simp)).mpr (.inl ⟨hw.stops, rfl, rfl⟩)
  | cons n ns ih =>
    obtain ⟨hopen, hreads, hstop⟩ := hns n List.mem_cons_self
    have hmore : W.RunReads stop ns := fun m hm => hns m (List.mem_cons_of_mem _ hm)
    have hstarts : ∀ m ∈ ns.map W.write, Starts m.ast := by
      intro m hm
      obtain ⟨k, hk, rfl⟩ := List.mem_map.mp hm
      exact (hmore k hk).starts
    have hcut := cutOff_following hstarts hw.cutOff
    have hgap : skipGap (following ((n :: ns).map W.write) ++ w) =
        (W.write n).ast ++ (following (ns.map W.write) ++ w) := by
      rw [List.map_cons, following_cons, joined, List.cons_append, skipGap_space, List.append_assoc]
      exact (hopen.append hcut.1).skipGap
    obtain ⟨c, t, hc, -⟩ := hopen.head
    refine (siblings_eq_ok (by simp)).mpr (.inr ?_)
    rw [hgap, Stop.holds_append hopen hcut.1]
    refine ⟨by simp [hc], hstop, W.read n, ns.map W.read,
      skipGap (following (ns.map W.write) ++ w), rfl, ?_, ?_⟩
    · exact hreads _ hcut (unscripted_following hstarts hw.cutOff hw.unscripted)
    · rw [← ih hmore]
      exact siblings_skipGap (skipGap_idem _)

theorem siblings_joined {ns : List Node} {w : List Char} (hns : W.RunReads stop ns)
    (hw : Ends stop w) :
    siblings [] stop (joined (ns.map W.write) ++ w) = .ok (ns.map W.read, skipGap w) := by
  cases ns with
  | nil => exact siblings_following hns hw
  | cons n ns =>
    rw [← siblings_following hns hw, List.map_cons, following_cons]
    exact siblings_skipGap rfl

end Writing

/-- What is left of a run ends it if the first character behind the gaps does. -/
theorem ends_of_skipGap {stop : Stop} {b c : Char} {w t : List Char} (halpha : b.isAlpha = false)
    (hskip : skipGap (b :: w) = c :: t) (hc : c ∉ ['_', '^'])
    (hlimits : startsCommand "\\limits" (c :: t) = false) (hstop : stop.holds (c :: t)) :
    Ends stop (b :: w) := by
  simp only [List.mem_cons, List.not_mem_nil, or_false, not_or] at hc
  have hhead : ∀ d u, b :: w = d :: u → d.isAlpha = false := by
    rintro d u ⟨⟩
    exact halpha
  have hscripts : Unscripted (b :: w) := by
    intro u
    rw [hskip]
    exact ⟨fun h => hc.1 (List.cons.inj h).1, fun h => hc.2 (List.cons.inj h).1⟩
  refine ⟨⟨hhead, ?_⟩, hscripts, ?_⟩
  · rw [hskip, hlimits]
  · rw [hskip]
    exact .inr hstop

theorem ends_of_head {stop : Stop} {c : Char} {w : List Char} (hgap : isGap c = false)
    (halpha : c.isAlpha = false) (hc : c ∉ ['_', '^', '\\']) (hstop : stop.holds (c :: w)) :
    Ends stop (c :: w) := by
  simp only [List.mem_cons, List.not_mem_nil, or_false, not_or] at hc
  have hskip : skipGap (c :: w) = c :: w := by simp [skipGap, hgap]
  have hlimits : startsCommand "\\limits" (c :: w) = false := by
    rw [startsCommand, command?_eq_none hc.2.2]
    rfl
  exact ends_of_skipGap halpha hskip (by simp [hc]) hlimits hstop

theorem ends_brace (w : List Char) : Ends .brace ('}' :: w) :=
  ends_of_head rfl rfl (by decide) rfl

theorem ends_bracket (w : List Char) : Ends .bracket (']' :: w) :=
  ends_of_head rfl rfl (by decide) rfl

theorem ends_dollar (w : List Char) : Ends .dollar ('$' :: w) :=
  ends_of_head rfl rfl (by decide) rfl

theorem ends_aligned (w : List Char) : Ends .aligned ("\\end\x7baligned\x7d".toList ++ w) :=
  ends_of_skipGap rfl rfl (by decide) rfl rfl

theorem ends_never : Ends .never [] := by
  have hcut : CutOff [] := ⟨by simp, rfl⟩
  exact ⟨hcut, fun t => by simp [skipGap], .inl rfl⟩

namespace Writing

variable {W : Writing} {run : List Node}

/-- A run is read up to the character that closes it. -/
theorem readClosed_run {stop : Stop} {close : Char} (hclose : isGap close = false)
    (hends : ∀ w, Ends stop (close :: w)) (h : W.RunReads stop run) (w : List Char) :
    readClosed (siblings []) stop close (joined (run.map W.write) ++ close :: w) =
      .ok (run.map W.read, w) := by
  have hread := siblings_joined h (hends w)
  have hskip : skipGap (close :: w) = close :: w := by simp [skipGap, hclose]
  rw [hskip] at hread
  exact readClosed_eq_ok.mpr ⟨close :: w, hread, by simp [skipGap, hclose]⟩

theorem readBraced_run (h : W.RunReads .brace run) (w : List Char) :
    readBraced (siblings []) ('{' :: (joined (run.map W.write) ++ '}' :: w)) =
      .ok (run.map W.read, w) := by
  have hread := readClosed_run rfl ends_brace h w
  exact readBraced_eq_ok.mpr ⟨_, rfl, hread⟩

theorem readArgument_run (h : W.RunReads .brace run) (w : List Char) :
    readArgument (siblings []) ('{' :: (joined (run.map W.write) ++ '}' :: w)) =
      .ok (collapse (run.map W.read), w) :=
  readArgument_eq_ok.mpr ⟨_, readBraced_run h w, rfl⟩

end Writing

/-- The end of an array that is followed by some text. -/
def arrayEnd (w : List Char) : List Char :=
  "\n\\end\x7barray\x7d".toList ++ w

theorem ends_newLine (w : List Char) : Ends .cell (' ' :: '\\' :: '\\' :: w) :=
  ends_of_skipGap rfl rfl (by decide) rfl rfl

theorem ends_alignMark (w : List Char) : Ends .cell (' ' :: '&' :: w) :=
  ends_of_skipGap rfl rfl (by decide) rfl rfl

theorem ends_array (w : List Char) : Ends .cell (arrayEnd w) :=
  ends_of_skipGap rfl rfl (by decide) rfl rfl

/-- The cells of an array are read back where their separators stand in the run that was written. -/
theorem Writing.readsRows_following {W : Writing} {ns : List Node} {bound : Nat} {started : Bool}
    {s w : List Char} (hruns : ∀ run ∈ (cells ns).flatten, W.RunReads .cell run)
    (hns : ns ≠ [] ∨ started) (hbound : ns.length < bound)
    (hs : skipGap s = skipGap (following (ns.map W.write) ++ arrayEnd w)) :
    ReadsRows (siblings []) bound started s ((cells (ns.map W.read)).map (·.map collapse))
      ("\\end\x7barray\x7d".toList ++ w) := by
  induction ns using cellInduction generalizing bound started s with
  | last run hline hmark =>
    obtain ⟨bound, rfl⟩ : ∃ b, bound = b + 1 := ⟨bound - 1, by omega⟩
    have hrun : W.RunReads .cell run := hruns run (by simp [cells_of_notMem hline hmark])
    have hread := (siblings_skipGap hs).trans (siblings_following hrun (ends_array w))
    have hitems : (started || !(run.map W.read).isEmpty) = true := by
      rcases hns with h | h
      · cases run with
        | nil => exact absurd rfl h
        | cons n ns => simp
      · simp [h]
    rw [cells_of_notMem (W.notMem_read rfl hline) (W.notMem_read rfl hmark)]
    have hrows := @ReadsRows.last _ bound started _ _ _ hread rfl
    rw [if_pos hitems] at hrows
    exact hrows
  | cell run ns hline hmark ih =>
    obtain ⟨bound, rfl⟩ : ∃ b, bound = b + 1 := ⟨bound - 1, by omega⟩
    obtain ⟨row, rows, hcells, hfirst⟩ := cells_alignMark hline hmark ns
    have hrun : W.RunReads .cell run := hruns run (by simp [hfirst])
    have hruns' : ∀ r ∈ (cells ns).flatten, W.RunReads .cell r := by
      intro r hr
      refine hruns r ?_
      rw [hfirst, List.flatten_cons, List.cons_append, ← List.flatten_cons, ← hcells]
      exact List.mem_cons_of_mem _ hr
    have hbound' : ns.length < bound := by
      simp only [List.length_append, List.length_cons] at hbound
      omega
    have hmore := @ih bound true _ hruns' (.inr rfl) hbound' rfl
    have hsplit : following ((run ++ .alignMark :: ns).map W.write) ++ arrayEnd w =
        following (run.map W.write) ++ ' ' :: '&' :: (following (ns.map W.write) ++ arrayEnd w) := by
      rw [List.map_append, List.map_cons, W.write_mark (m := .alignMark) rfl, following_append_cons,
        Node.ast_alignMark]
      rfl
    rw [hsplit] at hs
    have hread := (siblings_skipGap hs).trans (siblings_following hrun (ends_alignMark _))
    obtain ⟨row', rows', hcells', hfirst'⟩ := cells_alignMark (W.notMem_read rfl hline)
      (W.notMem_read rfl hmark) (ns.map W.read)
    rw [hcells'] at hmore
    rw [List.map_append, List.map_cons, W.read_mark (m := .alignMark) rfl, hfirst']
    exact .cell hread hmore
  | row run ns hline hmark ih =>
    obtain ⟨bound, rfl⟩ : ∃ b, bound = b + 1 := ⟨bound - 1, by omega⟩
    rw [cells_newLine hline hmark] at hruns
    have hrun : W.RunReads .cell run := hruns run (by simp)
    have hruns' : ∀ r ∈ (cells ns).flatten, W.RunReads .cell r := fun r hr =>
      hruns r (List.mem_append_right _ hr)
    have hbound' : ns.length < bound := by
      simp only [List.length_append, List.length_cons] at hbound
      omega
    have hmore := @ih bound true _ hruns' (.inr rfl) hbound' rfl
    have hsplit : following ((run ++ .newLine :: ns).map W.write) ++ arrayEnd w =
        following (run.map W.write) ++ ' ' :: '\\' :: '\\' ::
          (following (ns.map W.write) ++ arrayEnd w) := by
      rw [List.map_append, List.map_cons, W.write_mark (m := .newLine) rfl, following_append_cons,
        Node.ast_newLine]
      rfl
    rw [hsplit] at hs
    have hread := (siblings_skipGap hs).trans (siblings_following hrun (ends_newLine _))
    have hline' := cells_newLine (W.notMem_read rfl hline) (W.notMem_read rfl hmark) (ns.map W.read)
    rw [List.map_append, List.map_cons, W.read_mark (m := .newLine) rfl, hline']
    exact .row hread hmore

end FormulaDoc
