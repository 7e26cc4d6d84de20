import FormulaDoc.Proofs.Blank
import FormulaDoc.Proofs.Consumption

namespace FormulaDoc

/-- A text in which no tag command is written. -/
def Tagless (s : List Char) : Prop :=
  ¬ "\\cssId".toList <:+: s

instance (s : List Char) : Decidable (Tagless s) :=
  inferInstanceAs (Decidable (¬ "\\cssId".toList <:+: s))

theorem Tagless.suffix {s rest : List Char} (h : Tagless s) (hrest : rest <:+ s) : Tagless rest :=
  fun hs => h (hs.trans hrest.isInfix)

/-- A command is written where it is read. -/
theorem Tagless.command_ne {s name after : List Char} (h : Tagless s)
    (hs : command? s = some (name, after)) : String.ofList name ≠ "\\cssId" := by
  intro hname
  obtain ⟨-, rfl⟩ := command?_eq_append hs
  obtain rfl : name = "\\cssId".toList := by rw [← hname, String.toList_ofList]
  exact h (List.prefix_append _ after).isInfix

/-- A reader of siblings that gives no ids in a text without tags. -/
def GivesBlank (nested : Nested) : Prop :=
  ∀ ⦃stop s items rest⦄, nested stop s = .ok (items, rest) → Tagless s → ∀ n ∈ items, n.blank = n

theorem blank_attachScripts {base : Node} {sub sup : Option Node} (hbase : base.blank = base)
    (hsub : ∀ n ∈ sub, n.blank = n) (hsup : ∀ n ∈ sup, n.blank = n) :
    (attachScripts base sub sup).blank = attachScripts base sub sup := by
  have hscript : ∀ b : Node, b.blank = b → (Node.script "" b sub sup).blank = .script "" b sub sup := by
    intro b hb
    refine Node.blank_eq_self (by simp [Node.id?]) fun c hc => ?_
    simp only [Node.children, List.mem_cons, List.mem_append, Option.mem_toList] at hc
    rcases hc with rfl | hc | hc
    · exact hb
    · exact hsub c hc
    · exact hsup c hc
  unfold attachScripts
  split
  next => exact hbase
  next =>
    split
    next =>
      rw [Node.blank_group] at hbase
      simp only [Node.group.injEq, List.map_cons, List.cons.injEq] at hbase
      exact hscript _ hbase.2.1
    next => exact hscript base hbase

section

variable {nested : Nested} (hn : GivesBlank nested) (hsuffix : LeavesSuffix nested)
  {s rest : List Char} {n : Node} {items : List Node}

include hn

theorem readClosed_blank {stop : Stop} {close : Char}
    (h : readClosed nested stop close s = .ok (items, rest)) (hs : Tagless s) :
    ∀ n ∈ items, n.blank = n := by
  obtain ⟨r, hr, -⟩ := readClosed_eq_ok.mp h
  exact hn hr hs

theorem readBraced_blank (h : readBraced nested s = .ok (items, rest)) (hs : Tagless s) :
    ∀ n ∈ items, n.blank = n := by
  obtain ⟨r, hopen, hr⟩ := readBraced_eq_ok.mp h
  exact readClosed_blank hn hr (hs.suffix (suffix_of_skipGap hopen))

theorem readArgument_blank (h : readArgument nested s = .ok (n, rest)) (hs : Tagless s) :
    n.blank = n := by
  obtain ⟨items, hr, rfl⟩ := readArgument_eq_ok.mp h
  exact Node.blank_collapse (readBraced_blank hn hr hs)

include hsuffix

theorem ReadsRows.blank {bound : Nat} {started : Bool} {rows : List (List Node)}
    (h : ReadsRows nested bound started s rows rest) (hs : Tagless s) :
    ∀ c ∈ rows.flatten, c.blank = c := by
  induction h with
  | @cell _ _ _ _ _ items rows hr _ ih =>
    have hcell := Node.blank_collapse (hn hr hs)
    have hcells := ih (hs.suffix ((List.suffix_cons _ _).trans (hsuffix hr)))
    cases rows with
    | nil => simpa [consCell] using hcell
    | cons row rows => simpa [consCell, hcell] using hcells
  | row hr _ ih =>
    have hrest := (List.suffix_cons _ _).trans ((List.suffix_cons _ _).trans (hsuffix hr))
    have hcells := ih (hs.suffix hrest)
    simpa [Node.blank_collapse (hn hr hs)] using hcells
  | last hr _ =>
    split
    next => simpa using Node.blank_collapse (hn hr hs)
    next => simp

theorem ReadsCommand.blank {name : String} (h : ReadsCommand nested name s n rest)
    (hname : name ≠ "\\cssId") (hs : Tagless s) : n.blank = n := by
  cases h with
  | newLine | spacing | operator | limits | leaf =>
    exact Node.blank_eq_self (by simp [Node.id?]) (by simp [Node.children])
  | tag => exact absurd rfl hname
  | frac hnum hden =>
    have hafter := hs.suffix (readArgument_suffix hsuffix hnum)
    refine Node.blank_eq_self (by simp [Node.id?]) ?_
    simpa [Node.children] using ⟨readArgument_blank hn hnum hs, readArgument_blank hn hden hafter⟩
  | sqrt _ hbody =>
    refine Node.blank_eq_self (by simp [Node.id?]) ?_
    simpa [Node.children] using readArgument_blank hn hbody (hs.suffix (skipGap_suffix s))
  | index hgap hitems hbody =>
    have hinner := hs.suffix (suffix_of_skipGap hgap)
    have hafter := hinner.suffix (readClosed_suffix hsuffix hitems)
    have hindex := Node.blank_collapse (readClosed_blank hn hitems hinner)
    refine Node.blank_eq_self (by simp [Node.id?]) ?_
    simpa [Node.children] using ⟨readArgument_blank hn hbody hafter, hindex⟩
  | text =>
    refine Node.blank_eq_self (by simp [Node.id?]) fun c hc => ?_
    obtain ⟨d, -, rfl⟩ := List.mem_map.mp hc
    exact Node.blank_eq_self (by simp [Node.id?]) (by simp [Node.children])
  | textColor hcolor hbody =>
    exact Node.blank_eq_self (by simp [Node.id?])
      (readBraced_blank hn hbody (hs.suffix (readName_suffix hcolor)))
  | frameBox hborder hback hopen hdollar hitems =>
    have hafter := (hs.suffix (readName_suffix hborder)).suffix (readName_suffix hback)
    have hinner := (hafter.suffix (suffix_of_skipGap hopen)).suffix (suffix_of_skipGap hdollar)
    refine Node.blank_eq_self (by simp [Node.id?]) ?_
    simpa [Node.children] using Node.blank_collapse (readClosed_blank hn hitems hinner)
  | overbrace hbody | underbrace hbody | cancel hbody =>
    refine Node.blank_eq_self (by simp [Node.id?]) ?_
    simpa [Node.children] using readArgument_blank hn hbody hs
  | array hkind halign hrows =>
    have hafter := (hs.suffix (readName_suffix hkind)).suffix (readName_suffix halign)
    exact Node.blank_eq_self (by simp [Node.id?]) ((readRows_eq_ok.mp hrows).blank hn hsuffix hafter)
  | aligned hkind hcells =>
    exact Node.blank_eq_self (by simp [Node.id?]) (hn hcells (hs.suffix (readName_suffix hkind)))

variable {vars : List (List Char)}

theorem ReadsAtom.blank (h : ReadsAtom vars nested s n rest) (hs : Tagless s) : n.blank = n := by
  cases h with
  | group h =>
    have hbody := readClosed_blank hn h (hs.suffix (List.suffix_cons _ _))
    exact Node.blank_eq_self (by simp [Node.id?]) hbody
  | var | alignMark | symbol => exact Node.blank_eq_self (by simp [Node.id?]) (by simp [Node.children])
  | command hc h => exact h.blank hn hsuffix (hs.command_ne hc) (hs.suffix (command?_suffix hc).1)

theorem readScript_blank (h : readScript vars nested s = .ok (n, rest)) (hs : Tagless s) :
    n.blank = n := by
  have hgap := hs.suffix (skipGap_suffix s)
  unfold readScript at h
  dsimp only at h
  split at h
  next => exact readArgument_blank hn h hgap
  next => exact (readsAtom_of_readAtom h).blank hn hsuffix hgap

theorem ReadsScripts.blank {sub sup : Option Node} (h : ReadsScripts vars nested s sub sup rest)
    (hs : Tagless s) : (∀ n ∈ sub, n.blank = n) ∧ ∀ n ∈ sup, n.blank = n := by
  cases h with
  | none => simp
  | sub hmark h | sup hmark h =>
    simpa using readScript_blank hn hsuffix h (hs.suffix (suffix_of_skipGap hmark))
  | subSup hmark h hmark' h' | supSub hmark h hmark' h' =>
    have hone := hs.suffix (suffix_of_skipGap hmark)
    have htwo := (hone.suffix (readScript_suffix hsuffix h)).suffix (suffix_of_skipGap hmark')
    simp [readScript_blank hn hsuffix h hone, readScript_blank hn hsuffix h' htwo]

theorem readItem_blank (h : readItem vars nested s = .ok (n, rest)) (hs : Tagless s) : n.blank = n := by
  obtain ⟨base, r, sub, sup, hbase, hscripts, rfl⟩ := readItem_eq_ok.mp h
  have hatom := readsAtom_of_readAtom hbase
  have hafter : Tagless r := hs.suffix (hatom.suffix hsuffix)
  obtain ⟨hsub, hsup⟩ := (readsScripts_of_readScripts hscripts).blank hn hsuffix hafter
  exact blank_attachScripts (hatom.blank hn hsuffix hs) hsub hsup

end

/-- Siblings read from a text without tags have no ids. -/
theorem givesBlank_siblings {vars : List (List Char)} (hvars : [] ∉ vars) :
    GivesBlank (siblings vars) := by
  intro stop s items rest h
  refine siblings_induct hvars (P := fun _ s items _ => Tagless s → ∀ n ∈ items, n.blank = n)
    (by simp) ?_ h
  intro nested hreads stop s n r ns rest _ _ hitem _ ih hs
  have hsuffix : LeavesSuffix nested := fun _ _ _ _ hr => siblings_suffix (hreads hr).1
  have hn : GivesBlank nested := fun _ _ _ _ hr => (hreads hr).2
  have hgap := hs.suffix (skipGap_suffix s)
  have hafter := hgap.suffix (readItem_suffix hsuffix hitem)
  exact List.forall_mem_cons.mpr ⟨readItem_blank hn hsuffix hitem hgap, ih hafter⟩

theorem siblings_blank : GivesBlank (siblings []) :=
  givesBlank_siblings (by simp)

end FormulaDoc
