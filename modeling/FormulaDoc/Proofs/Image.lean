import FormulaDoc.Proofs.Siblings
import FormulaDoc.Proofs.Spelling

namespace FormulaDoc

/-- A name that can be read: a balanced text without the blanks at its ends. -/
def Trimmed (c : String) : Prop :=
  ∃ raw, Balanced raw ∧ c = String.ofList (trim raw)

/-- A node that a reader can give, as far as its own shape goes. -/
structure Node.FromMarkupAt (vars : List (List Char)) (n : Node) : Prop where
  spelled : n.spelledAt vars
  names : ∀ c ∈ n.names, Trimmed c

def Node.FromMarkup (vars : List (List Char)) (n : Node) : Prop :=
  ∀ m ∈ n.outer, m.FromMarkupAt vars

theorem trimmed_of_readName {s rest : List Char} {c : String} (h : readName s = .ok (c, rest)) :
    Trimmed c := by
  obtain ⟨raw, hraw, hc⟩ := readName_eq_ok.mp h
  exact ⟨raw, (rawGroup_eq_ok_iff.mp hraw).2, hc⟩

namespace Node

variable {vars : List (List Char)} {n : Node}

theorem FromMarkup.self (h : n.FromMarkup vars) : n.FromMarkupAt vars :=
  h n n.self_mem_outer

theorem FromMarkup.child {c : Node} (h : n.FromMarkup vars) (hn : n.kind ≠ .text) (hc : c ∈ n.children) :
    c.FromMarkup vars :=
  fun m hm => h m (mem_outer_of_child hn hc hm)

theorem FromMarkup.mk (h : n.FromMarkupAt vars) (hc : n.kind ≠ .text → ∀ c ∈ n.children, c.FromMarkup vars) :
    n.FromMarkup vars :=
  forall_outer h hc

theorem FromMarkup.withId (id : String) (h : n.FromMarkup vars) : (n.withId id).FromMarkup vars := by
  have hself := h.self
  have hkind : (n.withId id).kind = n.kind := by cases n <;> rfl
  have hchildren : (n.withId id).children = n.children := by cases n <;> rfl
  refine .mk ?_ ?_
  · cases n <;> exact ⟨hself.spelled, hself.names⟩
  · rw [hkind, hchildren]
    exact fun hk c hc => h.child hk hc

theorem fromMarkup_group {ns : List Node} (h : ∀ n ∈ ns, n.FromMarkup vars) :
    (group "" ns).FromMarkup vars :=
  .mk ⟨rfl, by simp [names]⟩ fun _ => h

theorem fromMarkup_collapse {ns : List Node} (h : ∀ n ∈ ns, n.FromMarkup vars) :
    (collapse ns).FromMarkup vars := by
  unfold collapse
  split
  next n => exact h n (by simp)
  next => exact fromMarkup_group h

end Node

theorem isCommandName_of_command? {s name after : List Char} (h : command? s = some (name, after)) :
    isCommandName name := by
  rcases command?_cases h with ⟨c, rest, hc, -, rfl, -⟩ | ⟨c, hc, -, rfl⟩
  · simp [isCommandName, hc]
  · simp [isCommandName, hc]

theorem isGap_of_skipGap {c : Char} {t : List Char} (h : skipGap (c :: t) = c :: t) :
    isGap c = false := by
  rw [skipGap, List.dropWhile_cons] at h
  split at h
  next =>
    have hle := (List.dropWhile_suffix isGap (l := t)).length_le
    rw [h, List.length_cons] at hle
    omega
  next hc => simpa using hc

theorem ReadsRows.row_ne_nil {nested : Nested} {bound : Nat} {started : Bool} {s rest : List Char}
    {rows : List (List Node)} (h : ReadsRows nested bound started s rows rest) :
    ∀ row ∈ rows, row ≠ [] := by
  induction h with
  | @cell _ _ _ _ _ _ rows _ _ ih =>
    cases rows with
    | nil => simp [consCell]
    | cons row rows =>
      obtain ⟨-, hrows⟩ := List.forall_mem_cons.mp ih
      exact List.forall_mem_cons.mpr ⟨List.cons_ne_nil _ _, hrows⟩
  | row _ _ ih => exact List.forall_mem_cons.mpr ⟨List.cons_ne_nil _ _, ih⟩
  | last => split <;> simp

/-- A reader of siblings that gives nodes that a reader can give. -/
def GivesFromMarkup (vars : List (List Char)) (nested : Nested) : Prop :=
  ∀ ⦃stop s items rest⦄, nested stop s = .ok (items, rest) → ∀ n ∈ items, n.FromMarkup vars

section

variable {vars : List (List Char)}

theorem attachScripts_fromMarkup {base : Node} {sub sup : Option Node} (hbase : base.FromMarkup vars)
    (hsub : ∀ n ∈ sub, n.FromMarkup vars) (hsup : ∀ n ∈ sup, n.FromMarkup vars) :
    (attachScripts base sub sup).FromMarkup vars := by
  have hscript : ∀ b : Node, b.FromMarkup vars → b.isScriptGroup = false →
      (sub.isSome || sup.isSome) = true → (Node.script "" b sub sup).FromMarkup vars := by
    intro b hb hgroup hs
    refine .mk ⟨by simp [Node.spelledAt, hgroup, hs], by simp [Node.names]⟩ fun _ c hc => ?_
    simp only [Node.children, List.mem_cons, List.mem_append, Option.mem_toList] at hc
    rcases hc with rfl | hc | hc
    · exact hb
    · exact hsub c hc
    · exact hsup c hc
  unfold attachScripts
  split
  next => exact hbase
  next hne =>
    have hs : (sub.isSome || sup.isSome) = true := by
      cases sub <;> cases sup <;> first | rfl | exact absurd rfl (hne rfl)
    split
    next => exact hscript _ (hbase.child (by simp [Node.kind]) (by simp [Node.children])) rfl hs
    next hgroup =>
      refine hscript _ hbase ?_ hs
      unfold Node.isScriptGroup
      split
      next n =>
        cases n with
        | script => exact absurd rfl (hgroup _ _ _ _ _)
        | _ => simp [Node.kind]
      next => rfl

variable {nested : Nested} (hn : GivesFromMarkup vars nested) {s rest : List Char} {n : Node}
  {items : List Node}

include hn

theorem readClosed_fromMarkup {stop : Stop} {close : Char}
    (h : readClosed nested stop close s = .ok (items, rest)) : ∀ n ∈ items, n.FromMarkup vars := by
  obtain ⟨r, hr, -⟩ := readClosed_eq_ok.mp h
  exact hn hr

theorem readBraced_fromMarkup (h : readBraced nested s = .ok (items, rest)) :
    ∀ n ∈ items, n.FromMarkup vars := by
  obtain ⟨r, -, hr⟩ := readBraced_eq_ok.mp h
  exact readClosed_fromMarkup hn hr

theorem readArgument_fromMarkup (h : readArgument nested s = .ok (n, rest)) : n.FromMarkup vars := by
  obtain ⟨items, hr, rfl⟩ := readArgument_eq_ok.mp h
  exact Node.fromMarkup_collapse (readBraced_fromMarkup hn hr)

theorem ReadsRows.fromMarkup {bound : Nat} {started : Bool} {rows : List (List Node)}
    (h : ReadsRows nested bound started s rows rest) : ∀ c ∈ rows.flatten, c.FromMarkup vars := by
  induction h with
  | @cell _ _ _ _ _ items rows hs _ ih =>
    have hcell := Node.fromMarkup_collapse (hn hs)
    cases rows with
    | nil => simpa [consCell] using hcell
    | cons row rows =>
      rw [consCell, List.flatten_cons, List.cons_append, ← List.flatten_cons]
      exact List.forall_mem_cons.mpr ⟨hcell, ih⟩
  | row hs _ ih => exact List.forall_mem_cons.mpr ⟨Node.fromMarkup_collapse (hn hs), ih⟩
  | last hs _ =>
    split
    next => simpa using Node.fromMarkup_collapse (hn hs)
    next => simp

theorem ReadsCommand.fromMarkup {name : String} (h : ReadsCommand nested name s n rest)
    (hname : isCommandName name.toList) : n.FromMarkup vars := by
  cases h with
  | newLine => exact .mk ⟨rfl, by simp [Node.names]⟩ (by simp [Node.children])
  | spacing hs =>
    exact .mk ⟨by simpa [Node.spelledAt] using hs, by simp [Node.names]⟩ (by simp [Node.children])
  | operator hs | limits hs =>
    exact .mk ⟨by simpa [Node.spelledAt] using hs, by simp [Node.names]⟩ (by simp [Node.children])
  | tag hid hbody => exact (readBraced_fromMarkup hn hbody _ (by simp)).withId _
  | frac hnum hden =>
    refine .mk ⟨rfl, by simp [Node.names]⟩ fun _ c hc => ?_
    simp only [Node.children, List.mem_cons, List.not_mem_nil, or_false] at hc
    rcases hc with rfl | rfl
    · exact readArgument_fromMarkup hn hnum
    · exact readArgument_fromMarkup hn hden
  | sqrt _ hbody =>
    refine .mk ⟨rfl, by simp [Node.names]⟩ fun _ c hc => ?_
    obtain rfl : c = _ := by simpa [Node.children] using hc
    exact readArgument_fromMarkup hn hbody
  | index _ hitems hbody =>
    refine .mk ⟨rfl, by simp [Node.names]⟩ fun _ c hc => ?_
    simp only [Node.children, Option.toList_some, List.mem_cons, List.not_mem_nil, or_false] at hc
    rcases hc with rfl | rfl
    · exact readArgument_fromMarkup hn hbody
    · exact Node.fromMarkup_collapse (readClosed_fromMarkup hn hitems)
  | text =>
    refine .mk ⟨?_, by simp [Node.names]⟩ fun hk => absurd rfl hk
    simp [Node.spelledAt, Node.isLetter]
  | textColor hc hbody =>
    exact .mk ⟨rfl, by simpa [Node.names] using trimmed_of_readName hc⟩
      fun _ => readBraced_fromMarkup hn hbody
  | frameBox hborder hback _ _ hitems =>
    refine .mk ⟨rfl, ?_⟩ fun _ c hc => ?_
    · simpa [Node.names] using ⟨trimmed_of_readName hborder, trimmed_of_readName hback⟩
    · obtain rfl : c = _ := by simpa [Node.children] using hc
      exact Node.fromMarkup_collapse (readClosed_fromMarkup hn hitems)
  | overbrace hbody | underbrace hbody | cancel hbody =>
    refine .mk ⟨rfl, by simp [Node.names]⟩ fun _ c hc => ?_
    obtain rfl : c = _ := by simpa [Node.children] using hc
    exact readArgument_fromMarkup hn hbody
  | array _ halign hrows =>
    have hrow := (readRows_eq_ok.mp hrows).row_ne_nil
    exact .mk ⟨by simpa [Node.spelledAt] using hrow, by simpa [Node.names] using trimmed_of_readName halign⟩
      fun _ => (readRows_eq_ok.mp hrows).fromMarkup hn
  | aligned _ hcells => exact .mk ⟨rfl, by simp [Node.names]⟩ fun _ => hn hcells
  | leaf hleaf =>
    refine .mk ⟨?_, by simp [Node.names]⟩ (by simp [Node.children])
    have hlength : 2 ≤ name.toList.length := by
      unfold isCommandName at hname
      split at hname
      next heq => simp [heq]
      next => simp at hname
    simp only [Node.spelledAt, isLeafName]
    split
    next heq => simp [heq] at hlength
    next => simp [hname, hleaf]

theorem ReadsAtom.fromMarkup (h : ReadsAtom vars nested s n rest) (hs : skipGap s = s) :
    n.FromMarkup vars := by
  cases h with
  | var hv =>
    have hmem := List.mem_of_find?_eq_some hv
    exact .mk ⟨by simpa [Node.spelledAt] using hmem, by simp [Node.names]⟩ (by simp [Node.children])
  | group h => exact Node.fromMarkup_group (readClosed_fromMarkup hn h)
  | alignMark => exact .mk ⟨rfl, by simp [Node.names]⟩ (by simp [Node.children])
  | command hs h =>
    refine h.fromMarkup hn ?_
    rw [String.toList_ofList]
    exact isCommandName_of_command? hs
  | symbol hc =>
    refine .mk ⟨?_, by simp [Node.names]⟩ (by simp [Node.children])
    simpa [Node.spelledAt, isLeafName, isGap_of_skipGap hs] using hc

theorem readScript_fromMarkup (h : readScript vars nested s = .ok (n, rest)) : n.FromMarkup vars := by
  unfold readScript at h
  dsimp only at h
  split at h
  next => exact readArgument_fromMarkup hn h
  next => exact (readsAtom_of_readAtom h).fromMarkup hn (skipGap_idem s)

theorem ReadsScripts.fromMarkup {sub sup : Option Node} (h : ReadsScripts vars nested s sub sup rest) :
    (∀ n ∈ sub, n.FromMarkup vars) ∧ ∀ n ∈ sup, n.FromMarkup vars := by
  cases h with
  | none => simp
  | sub _ h | sup _ h => simpa using readScript_fromMarkup hn h
  | subSup _ h _ h' => simpa using ⟨readScript_fromMarkup hn h, readScript_fromMarkup hn h'⟩
  | supSub _ h _ h' => simpa using ⟨readScript_fromMarkup hn h', readScript_fromMarkup hn h⟩

theorem readItem_fromMarkup (h : readItem vars nested s = .ok (n, rest)) (hs : skipGap s = s) :
    n.FromMarkup vars := by
  obtain ⟨base, r, sub, sup, hbase, hscripts, rfl⟩ := readItem_eq_ok.mp h
  obtain ⟨hsub, hsup⟩ := (readsScripts_of_readScripts hscripts).fromMarkup hn
  have hmarkup : base.FromMarkup vars := (readsAtom_of_readAtom hbase).fromMarkup hn hs
  exact attachScripts_fromMarkup hmarkup hsub hsup

omit hn

theorem readSequence_fromMarkup (bound : Nat) : GivesFromMarkup vars (readSequence vars bound) := by
  induction bound with
  | zero =>
    intro stop s items rest h
    cases h
    simp
  | succ bound ih =>
    intro stop s items rest h
    rw [readSequence] at h
    dsimp only at h
    split at h
    next =>
      cases h
      simp
    next =>
      obtain ⟨⟨n, r⟩, hr, h⟩ := bind_eq_ok.mp h
      obtain ⟨⟨ns, t⟩, ht, h⟩ := bind_eq_ok.mp h
      cases h
      intro m hm
      rcases List.mem_cons.mp hm with rfl | hm
      · exact readItem_fromMarkup ih hr (skipGap_idem s)
      · exact ih ht m hm

/-- Siblings that were read are spelled, and their names are trimmed. -/
theorem siblings_fromMarkup : GivesFromMarkup vars (siblings vars) :=
  fun _ _ _ _ h => readSequence_fromMarkup _ h

end

end FormulaDoc
