import FormulaDoc.Proofs.TryOrder
import Mathlib.Data.List.Permutation

namespace FormulaDoc

namespace Node

/-- The text of a variable. -/
def varText? : Node → Option String
  | var _ latex => some latex
  | _ => none

/-- The variables in a tree. -/
def varTexts (n : Node) : List String :=
  n.preorder.filterMap varText?

variable {n : Node} {ns : List Node} {id : String}

theorem varText?_eq_of_shape {m n : Node} (h : m.shape = n.shape) : m.varText? = n.varText? := by
  cases m <;> cases n <;> simp_all [shape, varText?]

theorem varTexts_eq (n : Node) : n.varTexts = n.varText?.toList ++ n.children.flatMap varTexts := by
  rw [varTexts, preorder_eq, List.filterMap_cons, List.filterMap_flatMap]
  cases n.varText? <;> rfl

theorem varText?_eq_none (h : n.kind ≠ .var) : n.varText? = none := by
  cases n <;> first | rfl | exact absurd rfl h

theorem varTexts_of_kind (h : n.kind ≠ .var) : n.varTexts = n.children.flatMap varTexts := by
  rw [varTexts_eq, varText?_eq_none h]
  rfl

theorem varTexts_withId (id : String) (n : Node) : (n.withId id).varTexts = n.varTexts := by
  rw [varTexts_eq, varTexts_eq, children_withId, varText?_eq_of_shape (shape_withId id n)]

theorem varTexts_blank (n : Node) : n.blank.varTexts = n.varTexts := by
  induction n using childrenInduction with
  | step n ih =>
    rw [varTexts_eq, varTexts_eq, children_blank, varText?_eq_of_shape (shape_blank n), List.flatMap_map]
    exact congrArg _ (List.flatMap_congr ih)

theorem varTexts_group (id : String) (ns : List Node) :
    (group id ns).varTexts = ns.flatMap varTexts :=
  varTexts_of_kind (by simp [kind])

theorem varTexts_collapse (ns : List Node) : (collapse ns).varTexts = ns.flatMap varTexts := by
  unfold collapse
  split
  next n => rw [List.flatMap_singleton]
  next => exact varTexts_group "" ns

theorem varTexts_attachScripts (base : Node) (sub sup : Option Node) :
    (attachScripts base sub sup).varTexts =
      base.varTexts ++ (sub.toList.flatMap varTexts ++ sup.toList.flatMap varTexts) := by
  have hscript : ∀ b : Node, (script "" b sub sup).varTexts =
      b.varTexts ++ (sub.toList.flatMap varTexts ++ sup.toList.flatMap varTexts) := by
    intro b
    rw [varTexts_of_kind (by simp [kind])]
    cases sub <;> cases sup <;> simp [children]
  unfold attachScripts
  split
  next => simp
  next =>
    split
    next => rw [hscript, varTexts_group, List.flatMap_singleton]
    next => exact hscript base

end Node

theorem varTexts_labelNodes (keep : Bool) (ns : List Node) :
    (labelNodes keep ns).flatMap Node.varTexts = ns.flatMap Node.varTexts := by
  have hblank : ∀ ms : List Node, ms.flatMap Node.varTexts = (ms.map Node.blank).flatMap Node.varTexts := by
    intro ms
    rw [List.flatMap_map]
    exact List.flatMap_congr fun n _ => (n.varTexts_blank).symm
  rw [hblank, map_blank_labelNodes, ← hblank]

/-- Variables that are read one after another between two places of a text, each the longest that the text
goes on with where it is read. -/
inductive VariableRun (vars : List String) : List Char → List String → List Char → Prop
  | none {s rest : List Char} (h : rest <:+ s) : VariableRun vars s [] rest
  | cons {s t rest : List Char} {w : String} {ws : List String} (hs : (w.toList ++ t) <:+ s)
      (hw : LongestAt vars (w.toList ++ t) w) (h : VariableRun vars t ws rest) :
      VariableRun vars s (w :: ws) rest

/-- What is read between two places of a text has these variables, in some order. -/
def ReadsVariables (vars : List String) (s : List Char) (ws : List String) (rest : List Char) : Prop :=
  ∃ read, VariableRun vars s read rest ∧ read.Perm ws

variable {vars : List String} {s t rest : List Char} {ws vs : List String}

namespace VariableRun

theorem of_suffix (h : VariableRun vars t ws rest) (hs : t <:+ s) : VariableRun vars s ws rest := by
  cases h with
  | none h => exact .none (h.trans hs)
  | cons ht hw h => exact .cons (ht.trans hs) hw h

theorem append (h : VariableRun vars s vs t) (h' : VariableRun vars t ws rest) :
    VariableRun vars s (vs ++ ws) rest := by
  induction h with
  | none hs => exact h'.of_suffix hs
  | cons hs hw _ ih => exact .cons hs hw (ih h')

/-- The places of variables that are read one after another do not overlap. -/
theorem exists_places (h : VariableRun vars s ws rest) {before text : List Char}
    (htext : text = before ++ s) : ∃ places : List (Nat × String), places.map Prod.snd = ws ∧
      places.Pairwise (fun p q => p.1 + p.2.length ≤ q.1) ∧
      ∀ p ∈ places, before.length ≤ p.1 ∧ LongestAt vars (text.drop p.1) p.2 := by
  induction h generalizing before with
  | none => exact ⟨[], rfl, .nil, by simp⟩
  | @cons s t rest w ws hs hw h ih =>
    obtain ⟨skipped, rfl⟩ := hs
    have hbehind : text = before ++ skipped ++ w.toList ++ t := by
      rw [htext]
      simp only [List.append_assoc]
    obtain ⟨places, hplaces, happart, hlongest⟩ := ih hbehind
    refine ⟨((before ++ skipped).length, w) :: places, by rw [List.map_cons, hplaces],
      List.pairwise_cons.mpr ⟨fun p hp => ?_, happart⟩, fun p hp => ?_⟩
    · have hle := (hlongest p hp).1
      rwa [List.length_append, String.length_toList] at hle
    · rcases List.mem_cons.mp hp with rfl | hp
      · refine ⟨by simp, ?_⟩
        rw [htext, ← List.append_assoc, List.drop_left]
        exact hw
      · refine ⟨?_, (hlongest p hp).2⟩
        have hle := (hlongest p hp).1
        simp only [List.length_append] at hle
        omega

end VariableRun

namespace ReadsVariables

theorem nil (h : rest <:+ s) : ReadsVariables vars s [] rest :=
  ⟨[], .none h, .refl _⟩

theorem perm (h : ReadsVariables vars s vs rest) (hperm : vs.Perm ws) :
    ReadsVariables vars s ws rest := by
  obtain ⟨read, hread, hvs⟩ := h
  exact ⟨read, hread, hvs.trans hperm⟩

theorem of_suffix (h : ReadsVariables vars t ws rest) (hs : t <:+ s) :
    ReadsVariables vars s ws rest := by
  obtain ⟨read, hread, hws⟩ := h
  exact ⟨read, hread.of_suffix hs, hws⟩

theorem append (h : ReadsVariables vars s vs t) (h' : ReadsVariables vars t ws rest) :
    ReadsVariables vars s (vs ++ ws) rest := by
  obtain ⟨read, hread, hvs⟩ := h
  obtain ⟨read', hread', hws⟩ := h'
  exact ⟨read ++ read', hread.append hread', hvs.append hws⟩

theorem to_suffix (h : ReadsVariables vars s ws t) (ht : rest <:+ t) : ReadsVariables vars s ws rest := by
  have happend := h.append (nil ht)
  rwa [List.append_nil] at happend

end ReadsVariables

/-- A reader of siblings that has read the variables of what it gives. -/
def GivesVariables (vars : List String) (nested : Nested) : Prop :=
  ∀ ⦃stop s items rest⦄, nested stop s = .ok (items, rest) →
    ReadsVariables vars s (items.flatMap Node.varTexts) rest

section

variable {nested : Nested} (hn : GivesVariables vars nested) {n : Node} {items : List Node}

include hn

theorem readClosed_reads {stop : Stop} {close : Char}
    (h : readClosed nested stop close s = .ok (items, rest)) :
    ReadsVariables vars s (items.flatMap Node.varTexts) rest := by
  obtain ⟨r, hr, hclose⟩ := readClosed_eq_ok.mp h
  exact (hn hr).to_suffix (suffix_of_skipGap hclose)

theorem readBraced_reads (h : readBraced nested s = .ok (items, rest)) :
    ReadsVariables vars s (items.flatMap Node.varTexts) rest := by
  obtain ⟨r, hopen, hr⟩ := readBraced_eq_ok.mp h
  exact (readClosed_reads hn hr).of_suffix (suffix_of_skipGap hopen)

theorem readArgument_reads (h : readArgument nested s = .ok (n, rest)) :
    ReadsVariables vars s n.varTexts rest := by
  obtain ⟨items, hr, rfl⟩ := readArgument_eq_ok.mp h
  rw [Node.varTexts_collapse]
  exact readBraced_reads hn hr

theorem ReadsRows.reads {bound : Nat} {started : Bool} {rows : List (List Node)}
    (h : ReadsRows nested bound started s rows rest) :
    ReadsVariables vars s (rows.flatten.flatMap Node.varTexts) rest := by
  induction h with
  | @cell _ _ _ t _ items rows hr h ih =>
    have hcell : (consCell (collapse items) rows).flatten = collapse items :: rows.flatten := by
      cases rows <;> rfl
    have hrest := ih.of_suffix (List.suffix_cons '&' t)
    rw [hcell, List.flatMap_cons, Node.varTexts_collapse]
    exact (hn hr).append hrest
  | @row _ _ _ t _ items rows hr h ih =>
    have hrest := ih.of_suffix ((List.suffix_cons '\\' t).trans (List.suffix_cons '\\' _))
    rw [List.flatten_cons, List.singleton_append, List.flatMap_cons, Node.varTexts_collapse]
    exact (hn hr).append hrest
  | @last _ started _ _ items hr hend =>
    have hcells : (if started || !items.isEmpty then [[collapse items]] else []).flatten.flatMap
        Node.varTexts = items.flatMap Node.varTexts := by
      split
      next => simp [Node.varTexts_collapse]
      next hempty =>
        have hnil : started = false ∧ items = [] := by simpa using hempty
        rw [hnil.2]
        rfl
    rw [hcells]
    exact hn hr

theorem ReadsCommand.reads {name : String} (h : ReadsCommand nested name s n rest) :
    ReadsVariables vars s n.varTexts rest := by
  cases h with
  | newLine | spacing | operator | leaf =>
    rw [Node.varTexts_of_kind (by simp [Node.kind])]
    exact .nil (List.suffix_refl _)
  | limits =>
    rw [Node.varTexts_of_kind (by simp [Node.kind])]
    exact .nil ((List.drop_suffix _ _).trans (skipGap_suffix s))
  | tag hid hbody =>
    have hread := readBraced_reads hn hbody
    rw [List.flatMap_singleton] at hread
    rw [Node.varTexts_withId]
    exact hread.of_suffix (readName_suffix hid)
  | frac hnum hden =>
    rw [Node.varTexts_of_kind (by simp [Node.kind])]
    have hread := (readArgument_reads hn hnum).append (readArgument_reads hn hden)
    simpa [Node.children] using hread
  | sqrt _ hbody =>
    rw [Node.varTexts_of_kind (by simp [Node.kind])]
    simpa [Node.children] using (readArgument_reads hn hbody).of_suffix (skipGap_suffix s)
  | index hgap hitems hbody =>
    rw [Node.varTexts_of_kind (by simp [Node.kind])]
    have hread := (readClosed_reads hn hitems).append (readArgument_reads hn hbody)
    refine (hread.of_suffix (suffix_of_skipGap hgap)).perm ?_
    simpa [Node.children, Node.varTexts_collapse] using List.perm_append_comm
  | text hraw =>
    have hletters : ∀ cs : List Char,
        (cs.map fun c => Node.symbol "" (String.singleton c)).flatMap Node.varTexts = [] := by
      intro cs
      rw [List.flatMap_map, List.flatMap_eq_nil_iff]
      exact fun c _ => Node.varTexts_of_kind (by simp [Node.kind])
    rw [Node.varTexts_of_kind (by simp [Node.kind]), Node.children, hletters]
    exact .nil (rawGroup_suffix hraw)
  | textColor hcolor hbody =>
    rw [Node.varTexts_of_kind (by simp [Node.kind])]
    exact (readBraced_reads hn hbody).of_suffix (readName_suffix hcolor)
  | frameBox hborder hback hopen hdollar hitems hclose =>
    rw [Node.varTexts_of_kind (by simp [Node.kind]), Node.children, List.flatMap_singleton,
      Node.varTexts_collapse]
    have hinner := (suffix_of_skipGap hdollar).trans (suffix_of_skipGap hopen)
    have hbefore := hinner.trans ((readName_suffix hback).trans (readName_suffix hborder))
    exact ((readClosed_reads hn hitems).of_suffix hbefore).to_suffix (suffix_of_skipGap hclose)
  | overbrace hbody | underbrace hbody | cancel hbody =>
    rw [Node.varTexts_of_kind (by simp [Node.kind])]
    simpa [Node.children] using readArgument_reads hn hbody
  | array hkind halign hrows hend =>
    rw [Node.varTexts_of_kind (by simp [Node.kind]), Node.children]
    have hread := (readRows_eq_ok.mp hrows).reads hn
    have hbefore := (readName_suffix halign).trans (readName_suffix hkind)
    exact (hread.of_suffix hbefore).to_suffix (readEnd_suffix hend)
  | aligned hkind hcells hend =>
    rw [Node.varTexts_of_kind (by simp [Node.kind])]
    exact ((hn hcells).of_suffix (readName_suffix hkind)).to_suffix (readEnd_suffix hend)

variable {tried : List (List Char)} (htried : TryOrder vars tried)

include htried

theorem ReadsAtom.reads (h : ReadsAtom tried nested s n rest) : ReadsVariables vars s n.varTexts rest := by
  cases h with
  | @var _ v hv =>
    have hlongest := htried.longestAt_of_find? hv
    obtain ⟨after, rfl⟩ : v <+: s := by simpa using hlongest.begins
    have htext : (String.ofList v).toList ++ after = v ++ after := by rw [String.toList_ofList]
    rw [List.drop_left, Node.varTexts_eq]
    have hrun : VariableRun vars (v ++ after) [String.ofList v] after :=
      .cons ⟨[], htext⟩ (htext ▸ hlongest) (.none (List.suffix_refl after))
    exact ⟨_, hrun, .refl _⟩
  | group h =>
    rw [Node.varTexts_group]
    exact (readClosed_reads hn h).of_suffix (List.suffix_cons _ _)
  | alignMark | symbol =>
    rw [Node.varTexts_of_kind (by simp [Node.kind])]
    exact .nil (List.suffix_cons _ _)
  | command hcmd h => exact (h.reads hn).of_suffix (command?_suffix hcmd).1

theorem readScript_reads (h : readScript tried nested s = .ok (n, rest)) :
    ReadsVariables vars s n.varTexts rest := by
  unfold readScript at h
  dsimp only at h
  split at h
  next => exact (readArgument_reads hn h).of_suffix (skipGap_suffix s)
  next => exact ((readsAtom_of_readAtom h).reads hn htried).of_suffix (skipGap_suffix s)

theorem ReadsScripts.reads {sub sup : Option Node} (h : ReadsScripts tried nested s sub sup rest) :
    ReadsVariables vars s (sub.toList.flatMap Node.varTexts ++ sup.toList.flatMap Node.varTexts) rest := by
  -- a mark with its script
  have marked : ∀ {mark : Char} {s r t : List Char} {m : Node}, skipGap s = mark :: r →
      readScript tried nested r = .ok (m, t) → ReadsVariables vars s m.varTexts (skipGap t) := by
    intro mark s r t m hmark h
    have hread := (readScript_reads hn htried h).of_suffix (suffix_of_skipGap hmark)
    exact hread.to_suffix (skipGap_suffix t)
  cases h with
  | none => exact .nil (skipGap_suffix s)
  | sub hmark h => simpa using marked hmark h
  | sup hmark h => simpa using marked hmark h
  | subSup hmark h hmark' h' =>
    have hsup := marked ((skipGap_idem _).trans hmark') h'
    simpa using (marked hmark h).append hsup
  | supSub hmark h hmark' h' =>
    have hsub := marked ((skipGap_idem _).trans hmark') h'
    refine ((marked hmark h).append hsub).perm ?_
    simpa using List.perm_append_comm

theorem readItem_reads (h : readItem tried nested s = .ok (n, rest)) :
    ReadsVariables vars s n.varTexts rest := by
  obtain ⟨base, r, sub, sup, hbase, hscripts, rfl⟩ := readItem_eq_ok.mp h
  have hatom := (readsAtom_of_readAtom hbase).reads hn htried
  have hscripts := (readsScripts_of_readScripts hscripts).reads hn htried
  rw [Node.varTexts_attachScripts]
  exact hatom.append hscripts

end

/-- The variables of siblings were read where the text goes on with them. -/
theorem siblings_reads {tried : List (List Char)} (htried : TryOrder vars tried) :
    GivesVariables vars (siblings tried) := by
  have hempty : [] ∉ tried := fun h => ((htried.mem_iff []).mp h).2 rfl
  intro stop s items rest h
  refine siblings_induct hempty (P := fun _ s items rest =>
    ReadsVariables vars s (items.flatMap Node.varTexts) rest) ?_ ?_ h
  · exact fun _ s _ => .nil (skipGap_suffix s)
  intro nested hreads stop s n r ns rest _ _ hitem _ ih
  have hn : GivesVariables vars nested := fun _ _ _ _ hr => (hreads hr).2
  have hread := (readItem_reads hn htried hitem).of_suffix (skipGap_suffix s)
  rw [List.flatMap_cons]
  exact hread.append ih

namespace Formula

/-- The variables in a formula. -/
def varTexts (f : Formula) : List String :=
  f.nodes.filterMap Node.varText?

variable {V W : List String} {text : String} {f : Formula}

theorem varTexts_eq (f : Formula) : f.varTexts = f.children.flatMap Node.varTexts := by
  rw [varTexts, nodes, List.filterMap_flatMap]
  rfl

/-- Each variable of a parsed formula was read at a place of its own, where the text goes on with it and with
no longer one. -/
theorem exists_places_of_parse (h : parse V text = .ok f) : ∃ places : List (Nat × String),
    (places.map Prod.snd).Perm f.varTexts ∧ places.Pairwise (fun p q => p.1 + p.2.length ≤ q.1) ∧
      ∀ p ∈ places, LongestAt V (text.toList.drop p.1) p.2 := by
  obtain ⟨ns, rest, hread, hf⟩ := exists_siblings_of_parse h
  obtain ⟨read, hrun, hperm⟩ := siblings_reads (tryOrder_variableOrder V) hread
  obtain ⟨places, rfl, happart, hlongest⟩ := hrun.exists_places (List.nil_append _).symm
  refine ⟨places, ?_, happart, fun p hp => (hlongest p hp).2⟩
  rwa [varTexts_eq, hf, varTexts_labelNodes]

/-- What a text is read as depends on the variables as a set. Lists with the same elements give the same
formula or the same error, in whatever order the elements of one length are tried. Where a node is read,
a variable is read exactly if the text goes on with one, and then the longest; and each variable of the
formula was read so at a place of its own. -/
theorem parse_variable_set (hne : "" ∉ V) (hsame : ∀ v, v ∈ V ↔ v ∈ W) (text : String) :
    parse V text = parse W text ∧
    (∀ tried, TryOrder V tried →
      (readSequence tried text.length .never text.toList).map (·.1) = readNodes W text) ∧
    (∀ tried, TryOrder V tried → ∀ nested s,
      (∃ w, LongestAt V s w ∧ readAtom tried nested s = .ok (.var "" w, s.drop w.length)) ∨
        (∀ w ∈ V, ¬ w.toList <+: s) ∧ readAtom tried nested s = readAtom [] nested s) ∧
    ∀ f, parse V text = .ok f → ∃ places : List (Nat × String),
      (places.map Prod.snd).Perm f.varTexts ∧ places.Pairwise (fun p q => p.1 + p.2.length ≤ q.1) ∧
        ∀ p ∈ places, LongestAt V (text.toList.drop p.1) p.2 := by
  have horder := tryOrder_variableOrder W
  have hnodes : ∀ tried, TryOrder V tried →
      (readSequence tried text.length .never text.toList).map (·.1) = readNodes W text := by
    intro tried htried
    have htried' : TryOrder W tried := htried.congr hsame
    rw [readNodes, htried'.readSequence_eq horder, String.length_toList]
  have hread : readNodes V text = readNodes W text := by
    rw [← hnodes _ (tryOrder_variableOrder V), readNodes, String.length_toList]
  have hparse : parse V text = parse W text := by rw [parse, parse, hread]
  refine ⟨hparse, hnodes, ?_, ?_⟩
  · intro tried htried
    exact htried.readAtom_cases hne
  · intro f hf
    exact exists_places_of_parse hf

/-- Variables that overlap, one of them given twice. -/
theorem parse_variable_set_of_overlap : ∃ f, parse ["ba", "ab", "a"] "abab_\x7bbaa\x7d" = .ok f ∧
    "" ∉ ["ba", "ab", "a"] ∧ (∀ v, v ∈ ["ba", "ab", "a"] ↔ v ∈ ["a", "ab", "ba", "a"]) ∧
    parse ["a", "ab", "ba", "a"] "abab_\x7bbaa\x7d" = .ok f ∧ f.varTexts = ["ab", "ab", "ba", "a"] ∧
    ∃ places : List (Nat × String), (places.map Prod.snd).Perm f.varTexts ∧
      places.Pairwise (fun p q => p.1 + p.2.length ≤ q.1) ∧
      ∀ p ∈ places, LongestAt ["ba", "ab", "a"] ("abab_\x7bbaa\x7d".toList.drop p.1) p.2 := by
  have hread : readNodes ["ba", "ab", "a"] "abab_\x7bbaa\x7d" = .ok [.var "" "ab",
      .script "" (.var "" "ab") (some (.group "" [.var "" "ba", .var "" "a"])) none] := by cbv
  have hparse : (parse ["ba", "ab", "a"] "abab_\x7bbaa\x7d").toOption.any
      fun f => f.varTexts = ["ab", "ab", "ba", "a"] := by
    rw [parse, hread]
    decide +kernel
  obtain ⟨f, hf, htexts⟩ := exists_ok_of_any hparse
  have hne : "" ∉ ["ba", "ab", "a"] := by decide
  have hsame : ∀ v, v ∈ ["ba", "ab", "a"] ↔ v ∈ ["a", "ab", "ba", "a"] := by
    intro v
    simp only [List.mem_cons, List.not_mem_nil, or_false]
    tauto
  obtain ⟨heq, -, -, hplaces⟩ := parse_variable_set hne hsame "abab_\x7bbaa\x7d"
  exact ⟨f, hf, hne, hsame, heq ▸ hf, htexts, hplaces f hf⟩

end Formula

end FormulaDoc
