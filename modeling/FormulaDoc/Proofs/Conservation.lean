import FormulaDoc.Proofs.Stability
import FormulaDoc.Proofs.Tagless

namespace FormulaDoc

/-- A character that is content: it is neither a brace nor a blank. -/
structure Ink (c : Char) : Prop where
  open_ne : '{' ≠ c
  close_ne : '}' ≠ c
  not_blank : isBlank c = false

namespace Ink

variable {c : Char} (hc : Ink c)

include hc

theorem ne_of_blank {d : Char} (hd : isBlank d) : d ≠ c := by
  rintro rfl
  rw [hc.not_blank] at hd
  cases hd

theorem count_dropWhile {p : Char → Bool} (hp : ∀ d, p d → isBlank d) (s : List Char) :
    (s.dropWhile p).count c = s.count c := by
  induction s with
  | nil => rfl
  | cons d s ih =>
    rw [List.dropWhile_cons]
    split
    next hd => rw [ih, List.count_cons_of_ne (hc.ne_of_blank (hp d hd))]
    next => rfl

theorem count_skipGap (s : List Char) : (skipGap s).count c = s.count c := by
  refine hc.count_dropWhile (fun d hd => ?_) s
  simp only [isGap, Bool.or_eq_true, beq_iff_eq] at hd
  rcases hd with ((rfl | rfl) | rfl) | rfl <;> decide

theorem count_of_skipGap {s t : List Char} (h : skipGap s = t) : s.count c = t.count c := by
  rw [← h, hc.count_skipGap]

theorem count_trim (s : List Char) : (trim s).count c = s.count c := by
  rw [trim, trimEnd, List.count_reverse, hc.count_dropWhile (fun _ => id), List.count_reverse,
    hc.count_dropWhile fun _ => id]

theorem count_open (s : List Char) : ('{' :: s).count c = s.count c :=
  List.count_cons_of_ne hc.open_ne

theorem count_close (s : List Char) : ('}' :: s).count c = s.count c :=
  List.count_cons_of_ne hc.close_ne

theorem count_space (s : List Char) : (' ' :: s).count c = s.count c :=
  List.count_cons_of_ne (hc.ne_of_blank rfl)

theorem count_line (s : List Char) : ('\n' :: s).count c = s.count c :=
  List.count_cons_of_ne (hc.ne_of_blank rfl)

theorem count_joined_cons (n : Node) (ns : List Node) :
    (joined (n :: ns)).count c = n.ast.count c + (joined ns).count c := by
  rw [joined, List.count_append]
  cases ns with
  | nil => rfl
  | cons m ms => rw [following_cons, hc.count_space]

theorem count_joined_append (ms ns : List Node) :
    (joined (ms ++ ns)).count c = (joined ms).count c + (joined ns).count c := by
  induction ms with
  | nil => simp [joined]
  | cons m ms ih =>
    rw [List.cons_append, hc.count_joined_cons, hc.count_joined_cons, ih]
    omega

theorem count_group (id : String) (ns : List Node) :
    (Node.group id ns).ast.count c = (joined ns).count c := by
  rw [Node.ast_group, hc.count_open, List.count_append, hc.count_close, List.count_nil, Nat.add_zero]

theorem count_contents (stop : Stop) (n : Node) :
    (joined (contents stop n)).count c = n.ast.count c := by
  rcases n.eq_group_or_kind_ne with ⟨id, ns, rfl⟩ | hk
  · rw [hc.count_group]
    cases ns with
    | cons m ms => rfl
    | nil =>
      rw [contents]
      split
      next => rw [joined_singleton, hc.count_group]
      next => rfl
  · rw [contents_eq_singleton hk, joined_singleton]

theorem count_collapse (ns : List Node) : (collapse ns).ast.count c = (joined ns).count c := by
  unfold collapse
  split
  next n => rw [joined_singleton]
  next => exact hc.count_group "" ns

theorem count_scriptMarkup (mark : Char) (n : Node) :
    (Node.scriptMarkup mark (some n)).count c = (mark :: n.ast).count c := by
  have hslot : ('{' :: (joined (contents .brace n) ++ ['}'])).count c = n.ast.count c := by
    rw [hc.count_open, List.count_append, hc.count_contents, hc.count_close, List.count_nil, Nat.add_zero]
  rw [Node.scriptMarkup, List.count_cons, hslot, List.count_cons]

theorem count_script (id : String) (base : Node) (sub sup : Option Node) :
    (Node.script id base sub sup).ast.count c =
      base.ast.count c + (Node.scriptMarkup '_' sub).count c + (Node.scriptMarkup '^' sup).count c := by
  have hbase : base.braced.ast.count c = base.ast.count c := by
    unfold Node.braced
    split
    next => rw [hc.count_group, joined_singleton]
    next => rfl
  rw [Node.ast_script, List.count_append, List.count_append, hbase]

theorem count_attachScripts (base : Node) (sub sup : Option Node) :
    (attachScripts base sub sup).ast.count c =
      base.ast.count c + (Node.scriptMarkup '_' sub).count c + (Node.scriptMarkup '^' sup).count c := by
  unfold attachScripts
  split
  next => simp [Node.scriptMarkup]
  next =>
    split
    next => rw [hc.count_script, hc.count_group, joined_singleton]
    next => exact hc.count_script "" base sub sup

end Ink

namespace Node

variable {n : Node}

/-- A tree with no text in it. -/
def Textless (n : Node) : Prop :=
  ∀ m ∈ n.preorder, m.kind ≠ .text

theorem Textless.child {c : Node} (h : n.Textless) (hc : c ∈ n.children) : c.Textless :=
  fun m hm => h m (mem_preorder_of_child hc hm)

theorem textless_group {id : String} {ns : List Node} (h : ∀ n ∈ ns, n.Textless) :
    (group id ns).Textless := by
  intro m hm
  rcases mem_preorder_iff.mp hm with rfl | ⟨c, hc, hm⟩
  · simp [kind]
  · exact h c hc m hm

theorem Textless.of_blank {m : Node} (h : n.Textless) (hb : m.blank = n.blank) : m.Textless := by
  have hkinds : ∀ k : Node, k.blank.preorder.map kind = k.preorder.map kind := by
    intro k
    induction k using childrenInduction with
    | step k ih =>
      rw [preorder_eq, preorder_eq, children_blank, List.map_cons, List.map_cons, kind_blank,
        List.flatMap_map, List.map_flatMap, List.map_flatMap]
      exact congrArg _ (List.flatMap_congr ih)
  intro k hk htext
  have hmem : Kind.text ∈ m.preorder.map kind := htext ▸ List.mem_map_of_mem hk
  rw [← hkinds, hb, hkinds] at hmem
  obtain ⟨k', hk', htext'⟩ := List.mem_map.mp hmem
  exact h k' hk' htext'

theorem textless_of_collapse {ns : List Node} (h : (collapse ns).Textless) : ∀ n ∈ ns, n.Textless := by
  unfold collapse at h
  split at h
  next n => simpa using h
  next => exact fun n hn => h.child hn

theorem textless_of_attachScripts {base : Node} {sub sup : Option Node}
    (h : (attachScripts base sub sup).Textless) :
    base.Textless ∧ (∀ n ∈ sub, n.Textless) ∧ ∀ n ∈ sup, n.Textless := by
  have hscript : ∀ b : Node, (script "" b sub sup).Textless →
      b.Textless ∧ (∀ n ∈ sub, n.Textless) ∧ ∀ n ∈ sup, n.Textless := by
    intro b hb
    refine ⟨hb.child (by simp [children]), fun n hn => hb.child ?_, fun n hn => hb.child ?_⟩
    · simp [children, Option.mem_def.mp hn]
    · simp [children, Option.mem_def.mp hn]
  unfold attachScripts at h
  split at h
  next => exact ⟨h, by simp, by simp⟩
  next =>
    split at h
    next =>
      obtain ⟨hb, hscripts⟩ := hscript _ h
      exact ⟨textless_group (by simpa using hb), hscripts⟩
    next => exact hscript base h

end Node

section

variable {c : Char} (hc : Ink c) {s rest : List Char}

include hc

theorem count_rawGroup {raw : List Char} (h : rawGroup s = .ok (raw, rest)) :
    s.count c = raw.count c + rest.count c := by
  obtain ⟨hs, -⟩ := rawGroup_eq_ok_iff.mp h
  rw [hc.count_of_skipGap hs, hc.count_open, List.count_append, hc.count_close]

theorem count_readName {name : String} (h : readName s = .ok (name, rest)) :
    s.count c = name.toList.count c + rest.count c := by
  obtain ⟨raw, hraw, rfl⟩ := readName_eq_ok.mp h
  rw [String.toList_ofList, hc.count_trim]
  exact count_rawGroup hc hraw

omit hc in
theorem count_startsCommand {name : String} (h : startsCommand name s) :
    s.count c = name.toList.count c + (s.drop name.toList.length).count c := by
  obtain ⟨-, after, rfl⟩ := exists_append_of_startsCommand h
  rw [List.drop_left, List.count_append]

theorem count_readEnd {name : String} (h : readEnd name s = .ok rest) :
    s.count c = "\\end".toList.count c + (name.toList.count c + rest.count c) := by
  obtain ⟨hend, hname⟩ := readEnd_eq_ok.mp h
  rw [← hc.count_skipGap, count_startsCommand hend, ← count_readName hc hname]
  rfl

end

/-- A reader of siblings that gives every character back that it takes. -/
def Conserves (c : Char) (nested : Nested) : Prop :=
  ∀ ⦃stop s items rest⦄, nested stop s = .ok (items, rest) → Tagless s → (∀ n ∈ items, n.Textless) →
    s.count c = (joined items).count c + rest.count c

section

variable {c : Char} (hc : Ink c) {nested : Nested} (hn : Conserves c nested)
  (hsuffix : LeavesSuffix nested) {s rest : List Char} {n : Node} {items : List Node}

include hc hn

theorem count_readClosed {stop : Stop} {close : Char} (h : readClosed nested stop close s = .ok (items, rest))
    (hs : Tagless s) (ht : ∀ n ∈ items, n.Textless) :
    s.count c = (joined items).count c + (close :: rest).count c := by
  obtain ⟨r, hr, hclose⟩ := readClosed_eq_ok.mp h
  rw [hn hr hs ht, hc.count_of_skipGap hclose]

theorem count_readBraced (h : readBraced nested s = .ok (items, rest)) (hs : Tagless s)
    (ht : ∀ n ∈ items, n.Textless) : s.count c = (joined items).count c + rest.count c := by
  obtain ⟨r, hopen, hr⟩ := readBraced_eq_ok.mp h
  have hinner := hs.suffix (suffix_of_skipGap hopen)
  rw [hc.count_of_skipGap hopen, hc.count_open, count_readClosed hc hn hr hinner ht, hc.count_close]

theorem count_readArgument (h : readArgument nested s = .ok (n, rest)) (hs : Tagless s)
    (ht : n.Textless) : s.count c = n.ast.count c + rest.count c := by
  obtain ⟨items, hr, rfl⟩ := readArgument_eq_ok.mp h
  rw [hc.count_collapse, count_readBraced hc hn hr hs (Node.textless_of_collapse ht)]

include hsuffix

theorem ReadsRows.conserves {bound : Nat} {started : Bool} {rows : List (List Node)}
    (h : ReadsRows nested bound started s rows rest) (hs : Tagless s)
    (ht : ∀ n ∈ rows.flatten, n.Textless) :
    s.count c = (joined (stream rows)).count c + rest.count c := by
  induction h with
  | @cell _ _ _ t _ items rows hr h ih =>
    have hafter := hs.suffix ((List.suffix_cons _ _).trans (hsuffix hr))
    have hrow := h.row_ne_nil
    obtain ⟨row, more, rfl⟩ := List.exists_cons_of_ne_nil h.ne_nil
    obtain ⟨m, row, rfl⟩ := List.exists_cons_of_ne_nil (hrow row List.mem_cons_self)
    obtain ⟨hcell, hcells⟩ := List.forall_mem_cons.mp ht
    have hrest := ih hafter hcells
    have hfirst := hn hr hs (Node.textless_of_collapse hcell)
    rw [consCell, stream_cons_cons, hc.count_joined_append, hc.count_contents, hc.count_collapse,
      hc.count_joined_cons, Node.ast_alignMark]
    simp only [List.count_cons, List.count_nil] at hfirst ⊢
    omega
  | @row _ _ _ t _ items rows hr h ih =>
    have hafter := hs.suffix ((List.suffix_cons _ _).trans ((List.suffix_cons _ _).trans (hsuffix hr)))
    obtain ⟨hcell, hcells⟩ := List.forall_mem_cons.mp ht
    have hrest := ih hafter hcells
    have hfirst := hn hr hs (Node.textless_of_collapse hcell)
    rw [stream_singleton_cons _ h.ne_nil, hc.count_joined_append, hc.count_contents, hc.count_collapse,
      hc.count_joined_cons, Node.ast_newLine]
    simp only [List.count_cons, List.count_nil] at hfirst ⊢
    omega
  | @last _ started _ _ items hr hend =>
    by_cases hcell : (started || !items.isEmpty) = true
    · rw [if_pos hcell] at ht ⊢
      have hitems := Node.textless_of_collapse (ht (collapse items) (by simp))
      have hstream : stream [[collapse items]] = contents .cell (collapse items) := by simp [stream]
      rw [hn hr hs hitems, hstream, hc.count_contents, hc.count_collapse]
    · rw [if_neg hcell]
      have hempty : started = false ∧ items = [] := by simpa using hcell
      obtain rfl := hempty.2
      have hnone := hn hr hs (by simp)
      exact hnone

/-- The name of a command stands in its markup again. -/
theorem ReadsCommand.conserves {name : String} (h : ReadsCommand nested name s n rest)
    (hname : name ≠ "\\cssId") (hs : Tagless s) (ht : n.Textless) :
    name.toList.count c + s.count c = n.ast.count c + rest.count c := by
  cases h with
  | newLine => rw [Node.ast_newLine]; rfl
  | spacing => rw [Node.ast_space]
  | operator => simp [Node.ast_op]
  | limits _ hlimits =>
    have hcount := count_startsCommand hlimits (c := c)
    rw [hc.count_skipGap] at hcount
    rw [Node.ast_op, if_pos rfl, List.count_append, hcount, Nat.add_assoc]
    rfl
  | tag => exact absurd rfl hname
  | frac hnum hden =>
    have hafter := hs.suffix (readArgument_suffix hsuffix hnum)
    have hfirst := count_readArgument hc hn hnum hs (ht.child (by simp [Node.children]))
    have hsecond := count_readArgument hc hn hden hafter (ht.child (by simp [Node.children]))
    rw [Node.ast_frac]
    simp only [List.count_append, hc.count_open, hc.count_close, hc.count_contents, List.count_nil]
    omega
  | sqrt _ hbody =>
    have hcount := count_readArgument hc hn hbody (hs.suffix (skipGap_suffix s))
      (ht.child (by simp [Node.children]))
    rw [hc.count_skipGap] at hcount
    rw [Node.ast_root_none]
    simp only [List.count_append, hc.count_open, hc.count_close, hc.count_contents, List.count_nil]
    omega
  | index hgap hitems hbody =>
    have hinner := hs.suffix (suffix_of_skipGap hgap)
    have hafter := hinner.suffix (readClosed_suffix hsuffix hitems)
    have hindex := count_readClosed hc hn hitems hinner
      (Node.textless_of_collapse (ht.child (by simp [Node.children])))
    have hcount := count_readArgument hc hn hbody hafter (ht.child (by simp [Node.children]))
    rw [hc.count_of_skipGap hgap, Node.ast_root_some]
    simp only [List.count_append, List.count_cons (b := '['), List.count_cons (b := ']'), hc.count_open,
      hc.count_close, hc.count_contents, hc.count_collapse, List.count_nil] at hindex ⊢
    omega
  | text => exact absurd rfl (ht _ (Node.self_mem_preorder _))
  | textColor hcolor hbody =>
    have hafter := hs.suffix (readName_suffix hcolor)
    have hfirst := count_readName hc hcolor
    have hsecond := count_readBraced hc hn hbody hafter fun m hm => ht.child hm
    rw [Node.ast_color]
    simp only [List.count_append, hc.count_open, hc.count_close, List.count_nil]
    omega
  | frameBox hborder hback hopen hdollar hitems hclose =>
    have hafter := (hs.suffix (readName_suffix hborder)).suffix (readName_suffix hback)
    have hinner := (hafter.suffix (suffix_of_skipGap hopen)).suffix (suffix_of_skipGap hdollar)
    have hcount := count_readClosed hc hn hitems hinner
      (Node.textless_of_collapse (ht.child (by simp [Node.children])))
    rw [count_readName hc hborder, count_readName hc hback, hc.count_of_skipGap hopen, hc.count_open,
      hc.count_of_skipGap hdollar, Node.ast_box]
    have hlast := hc.count_of_skipGap hclose
    simp only [List.count_append, List.count_cons (b := '$'), hc.count_open, hc.count_close,
      hc.count_contents, hc.count_collapse, List.count_nil] at hcount hlast ⊢
    omega
  | overbrace hbody | underbrace hbody =>
    have hcount := count_readArgument hc hn hbody hs (ht.child (by simp [Node.children]))
    rw [Node.ast_brace]
    simp only [List.count_append, hc.count_open, hc.count_close, hc.count_contents, List.count_nil, if_true,
      Bool.false_eq_true, if_false]
    omega
  | cancel hbody =>
    have hcount := count_readArgument hc hn hbody hs (ht.child (by simp [Node.children]))
    rw [Node.ast_strike]
    simp only [List.count_append, hc.count_open, hc.count_close, hc.count_contents, List.count_nil]
    omega
  | array hkind halign hrows hend =>
    have hread := readRows_eq_ok.mp hrows
    have hafter := (hs.suffix (readName_suffix hkind)).suffix (readName_suffix halign)
    have hcount := hread.conserves hc hn hsuffix hafter fun m hm => ht.child hm
    rw [count_readName hc hkind, count_readName hc halign, hcount, count_readEnd hc hend,
      Node.ast_array _ _ hread.row_ne_nil]
    simp only [List.count_append, hc.count_open, hc.count_close, hc.count_line, List.count_nil]
    omega
  | aligned hkind hcells hend =>
    have hafter := hs.suffix (readName_suffix hkind)
    have hcount := hn hcells hafter fun m hm => ht.child hm
    rw [count_readName hc hkind, hcount, count_readEnd hc hend, Node.ast_aligned]
    simp only [List.count_append, hc.count_open, hc.count_close, List.count_nil]
    omega
  | leaf => rw [Node.ast_symbol]

theorem ReadsAtom.conserves (h : ReadsAtom [] nested s n rest) (hs : Tagless s) (ht : n.Textless) :
    s.count c = n.ast.count c + rest.count c := by
  cases h with
  | var hv => simp at hv
  | group h =>
    have hinner := hs.suffix (List.suffix_cons _ _)
    have hbody := count_readClosed hc hn h hinner fun m hm => ht.child hm
    rw [hc.count_open, hbody, hc.count_close, hc.count_group]
  | alignMark => rw [Node.ast_alignMark, ← List.count_append, List.singleton_append]
  | symbol => rw [Node.ast_symbol, String.toList_singleton, ← List.count_append, List.singleton_append]
  | command hcmd h =>
    have hafter := hs.suffix (command?_suffix hcmd).1
    have hcount := h.conserves hc hn hsuffix (hs.command_ne hcmd) hafter ht
    obtain ⟨-, rfl⟩ := command?_eq_append hcmd
    rwa [String.toList_ofList, ← List.count_append] at hcount

theorem count_readScript (h : readScript [] nested s = .ok (n, rest)) (hs : Tagless s)
    (ht : n.Textless) : s.count c = n.ast.count c + rest.count c := by
  have hgap := hs.suffix (skipGap_suffix s)
  rw [← hc.count_skipGap]
  unfold readScript at h
  dsimp only at h
  split at h
  next => exact count_readArgument hc hn h hgap ht
  next => exact (readsAtom_of_readAtom h).conserves hc hn hsuffix hgap ht

/-- One mark with its script. -/
theorem count_marked {mark : Char} {r : List Char} (hmark : skipGap s = mark :: r)
    (h : readScript [] nested r = .ok (n, rest)) (hs : Tagless s) (ht : n.Textless) :
    s.count c = (Node.scriptMarkup mark (some n)).count c + (skipGap rest).count c := by
  have hafter : Tagless r := hs.suffix (suffix_of_skipGap hmark)
  have hcount := count_readScript hc hn hsuffix h hafter ht
  rw [hc.count_of_skipGap hmark, hc.count_scriptMarkup, hc.count_skipGap, List.count_cons, List.count_cons]
  omega

theorem ReadsScripts.conserves {sub sup : Option Node} (h : ReadsScripts [] nested s sub sup rest)
    (hs : Tagless s) (hsub : ∀ n ∈ sub, n.Textless) (hsup : ∀ n ∈ sup, n.Textless) :
    s.count c = (Node.scriptMarkup '_' sub).count c + (Node.scriptMarkup '^' sup).count c + rest.count c := by
  cases h with
  | none => simp [Node.scriptMarkup, hc.count_skipGap]
  | sub hmark h =>
    have hone := count_marked hc hn hsuffix hmark h hs (hsub _ rfl)
    simpa [Node.scriptMarkup] using hone
  | sup hmark h =>
    have hone := count_marked hc hn hsuffix hmark h hs (hsup _ rfl)
    simpa [Node.scriptMarkup] using hone
  | subSup hmark h hmark' h' =>
    have hafter := (hs.suffix (suffix_of_skipGap hmark)).suffix (readScript_suffix hsuffix h)
    have hone := count_marked hc hn hsuffix hmark h hs (hsub _ rfl)
    have htwo := count_marked hc hn hsuffix hmark' h' hafter (hsup _ rfl)
    rw [hc.count_skipGap] at hone
    omega
  | supSub hmark h hmark' h' =>
    have hafter := (hs.suffix (suffix_of_skipGap hmark)).suffix (readScript_suffix hsuffix h)
    have hone := count_marked hc hn hsuffix hmark h hs (hsup _ rfl)
    have htwo := count_marked hc hn hsuffix hmark' h' hafter (hsub _ rfl)
    rw [hc.count_skipGap] at hone
    omega

theorem count_readItem (h : readItem [] nested s = .ok (n, rest)) (hs : Tagless s)
    (ht : n.Textless) : s.count c = n.ast.count c + rest.count c := by
  obtain ⟨base, r, sub, sup, hbase, hscripts, rfl⟩ := readItem_eq_ok.mp h
  obtain ⟨hbaset, hsub, hsup⟩ := Node.textless_of_attachScripts ht
  have hatom := readsAtom_of_readAtom hbase
  have hafter : Tagless r := hs.suffix (hatom.suffix hsuffix)
  have hfirst := hatom.conserves hc hn hsuffix hs hbaset
  have hsecond := (readsScripts_of_readScripts hscripts).conserves hc hn hsuffix hafter hsub hsup
  rw [hc.count_attachScripts]
  omega

end

/-- What siblings take of a text without tags stands in their markup, if none of them holds a text. -/
theorem siblings_conserve {c : Char} (hc : Ink c) : Conserves c (siblings []) := by
  intro stop s items rest h
  refine siblings_induct (by simp) (P := fun _ s items rest => Tagless s → (∀ n ∈ items, n.Textless) →
    s.count c = (joined items).count c + rest.count c) ?_ ?_ h
  · intro _ s _ _ _
    rw [hc.count_skipGap, joined, List.count_nil, Nat.zero_add]
  intro nested hreads stop s n r ns rest _ _ hitem _ ih hs ht
  have hsuffix : LeavesSuffix nested := fun _ _ _ _ hr => siblings_suffix (hreads hr).1
  have hn : Conserves c nested := fun _ _ _ _ hr => (hreads hr).2
  obtain ⟨hfirst, hothers⟩ := List.forall_mem_cons.mp ht
  have hgap := hs.suffix (skipGap_suffix s)
  have hone := count_readItem hc hn hsuffix hitem hgap hfirst
  have hrest := ih (hgap.suffix (readItem_suffix hsuffix hitem)) hothers
  rw [hc.count_skipGap] at hone
  rw [hc.count_joined_cons]
  omega

namespace Formula

variable {f : Formula} {text : String}

/-- A character that is neither a brace nor a blank stands in the markup of a parsed formula as often as
in the text that it was parsed from, if there are no tags in the text and no texts in the formula. -/
theorem count_latex_of_parse (h : parse [] text = .ok f) (hs : Tagless text.toList)
    (ht : ∀ n ∈ f.nodes, n.kind ≠ .text) {c : Char} (hbrace : c ∉ ['{', '}']) (hblank : isBlank c = false) :
    (f.latex .ast).toList.count c = text.toList.count c := by
  have hc : Ink c := by
    simp only [List.mem_cons, List.not_mem_nil, or_false, not_or] at hbrace
    exact ⟨Ne.symm hbrace.1, Ne.symm hbrace.2, hblank⟩
  obtain ⟨ns, hread, hf⟩ := parse_eq_ok h
  have htextless : ∀ n ∈ ns, n.Textless := by
    intro n hn
    obtain ⟨m, hm, hblank⟩ := exists_mem_labelNodes true hn
    have htop : m.Textless := fun k hk => ht k (List.mem_flatMap.mpr ⟨m, hf ▸ hm, hk⟩)
    exact htop.of_blank hblank.symm
  rw [toList_latex, hf, joined_labelNodes, siblings_conserve hc hread hs htextless, List.count_nil,
    Nat.add_zero]

/-- Scripts change their order, an empty row is filled and blanks in a name go, but marks stay. -/
theorem count_latex_of_parse_array : ∃ f,
    parse [] "\\begin\x7barray\x7d\x7b l \x7dx^2_1\\\\&\\end\x7barray\x7d" = .ok f ∧
      (f.latex .ast).toList.count '&' =
        "\\begin\x7barray\x7d\x7b l \x7dx^2_1\\\\&\\end\x7barray\x7d".toList.count '&' := by
  have hparse : (parse [] "\\begin\x7barray\x7d\x7b l \x7dx^2_1\\\\&\\end\x7barray\x7d").toOption.any
      fun f => ∀ n ∈ f.nodes, n.kind ≠ .text := by decide +kernel
  obtain ⟨f, hf, htextless⟩ := exists_ok_of_any hparse
  exact ⟨f, hf, count_latex_of_parse hf (by decide +kernel) htextless (by decide) (by decide)⟩

end Formula

end FormulaDoc
