import FormulaDoc.Proofs.Image
import FormulaDoc.Proofs.Legible

namespace FormulaDoc

/-- The characters that leading braces are counted over. -/
def isLead (c : Char) : Bool :=
  isGap c || c == '{'

/-- The number of opening braces at the beginning of a text. -/
def lead (s : List Char) : Nat :=
  (s.takeWhile isLead).count '{'

/-- A text that does not consist of opening braces alone. -/
def Halts (s : List Char) : Prop :=
  ∃ c ∈ s, isLead c = false

/-- A text with no tag behind its leading braces. -/
def Untagged (s : List Char) : Prop :=
  startsCommand "\\cssId" (s.dropWhile isLead) = false

theorem lead_open (s : List Char) : lead ('{' :: s) = lead s + 1 := by
  simp [lead, isLead]

theorem lead_of_head {c : Char} (h : isLead c = false) (s : List Char) : lead (c :: s) = 0 := by
  simp [lead, h]

theorem lead_skipGap (s : List Char) : lead (skipGap s) = lead s := by
  induction s with
  | nil => rfl
  | cons c s ih =>
    by_cases hc : isGap c
    · have hne : c ≠ '{' := by
        rintro rfl
        exact absurd hc (by decide)
      rw [skipGap, List.dropWhile_cons, if_pos hc, ← skipGap, ih]
      simp [lead, isLead, hc, hne]
    · rw [skipGap, List.dropWhile_cons, if_neg hc]

theorem untagged_skipGap {s : List Char} (h : Untagged s) : Untagged (skipGap s) := by
  induction s with
  | nil => exact h
  | cons c s ih =>
    by_cases hc : isGap c
    · rw [skipGap, List.dropWhile_cons, if_pos hc, ← skipGap]
      refine ih ?_
      simpa [Untagged, isLead, hc] using h
    · rwa [skipGap, List.dropWhile_cons, if_neg hc]

theorem untagged_open {s : List Char} : Untagged ('{' :: s) ↔ Untagged s := by
  simp [Untagged, isLead]

theorem lead_append {s : List Char} (h : Halts s) (w : List Char) : lead (s ++ w) = lead s := by
  obtain ⟨c, hc, hhalt⟩ := h
  have hstop : (s.takeWhile isLead).length ≠ s.length := by
    intro he
    have hwhole : s.takeWhile isLead = s := (List.takeWhile_prefix isLead).eq_of_length he
    have hall : isLead c = true := List.takeWhile_eq_self_iff.mp hwhole c hc
    rw [hall] at hhalt
    cases hhalt
  rw [lead, lead, List.takeWhile_append, if_neg hstop]

theorem lead_eq_of_isPrefix {s t : List Char} (h : Halts s) (hp : s <+: t) : lead t = lead s := by
  obtain ⟨w, rfl⟩ := hp
  exact lead_append h w

namespace Node

variable {n : Node}

/-- Only groups and what is attached to them begin with a brace. -/
theorem head_ast (h : n.Outlined) (hgroup : n.kind ≠ .group) (hscript : n.kind ≠ .script) :
    ∃ c t, n.ast = c :: t ∧ isLead c = false := by
  cases h.begins hscript with
  | @character _ c hast hgap hc =>
    simp only [List.mem_cons, not_or] at hc
    exact ⟨c, [], hast, by simp [isLead, hgap, hc.1]⟩
  | command name hast =>
    obtain ⟨c, t, hs⟩ := exists_of_command? hast
    exact ⟨'\\', c :: t, hs, rfl⟩
  | group => exact absurd rfl hgroup
  | newLine => exact ⟨'\\', _, ast_newLine, rfl⟩
  | alignMark => exact ⟨'&', _, ast_alignMark, rfl⟩

theorem halts_ast (h : n.Outlined) : Halts n.ast := by
  induction n using childrenInduction with
  | step n ih =>
    by_cases hgroup : n.kind = .group
    · cases n with
      | group id body =>
        rw [ast_group]
        exact ⟨'}', by simp, rfl⟩
      | _ => cases hgroup
    by_cases hscript : n.kind = .script
    · cases n with
      | script id base sub sup =>
        rw [ast_script]
        have hbase : Halts base.braced.ast := by
          unfold braced
          split
          next =>
            rw [ast_group]
            exact ⟨'}', by simp, rfl⟩
          next => exact ih base (by simp [children]) (h.child (by simp [kind]) (by simp [children]))
        obtain ⟨c, hc, hhalt⟩ := hbase
        exact ⟨c, by simp [hc], hhalt⟩
      | _ => cases hscript
    obtain ⟨c, t, hc, hhalt⟩ := head_ast h hgroup hscript
    exact ⟨c, by simp [hc], hhalt⟩

theorem untagged_joined {ns : List Node} {w : List Char} (hns : ∀ n ∈ ns, n.Outlined)
    (hn : ∀ n ∈ ns, ∀ u, (∀ c t, u = c :: t → c.isAlpha = false) → Untagged (n.ast ++ u))
    (hw : CutOff w) (hempty : Untagged w) : Untagged (joined ns ++ w) := by
  cases ns with
  | nil => exact hempty
  | cons n ns =>
    have hrest : ∀ m ∈ ns, m.Outlined := fun m hm => hns m (List.mem_cons_of_mem n hm)
    have hcut : CutOff (following ns ++ w) := following_cutOff hrest hw
    rw [joined, List.append_assoc]
    exact hn n List.mem_cons_self _ hcut.1

theorem untagged_ast (h : n.Outlined) {u : List Char} (hu : ∀ c t, u = c :: t → c.isAlpha = false) :
    Untagged (n.ast ++ u) := by
  induction n using childrenInduction generalizing u with
  | step n ih =>
    have hbraced : ∀ ns : List Node, (∀ m ∈ ns, m ∈ n.children) → n.kind ≠ .text → ∀ w,
        Untagged ('{' :: (joined ns ++ '}' :: w)) := by
      intro ns hns hk w
      have houtlined : ∀ m ∈ ns, m.Outlined := fun m hm => h.child hk (hns m hm)
      refine untagged_open.mpr (untagged_joined houtlined ?_ (ends_brace w).cutOff rfl)
      exact fun m hm u hu => ih m (hns m hm) (houtlined m hm) hu
    by_cases hgroup : n.kind = .group
    · cases n with
      | group id body =>
        rw [ast_group, List.cons_append, List.append_assoc]
        exact hbraced body (fun m hm => hm) (by simp [kind]) u
      | _ => cases hgroup
    by_cases hscript : n.kind = .script
    · cases n with
      | script id base sub sup =>
        have hafter : ∀ c t, scriptMarkup '_' sub ++ scriptMarkup '^' sup ++ u = c :: t →
            c.isAlpha = false := by
          intro c t hc
          cases sub <;> cases sup <;> first | exact hu c t hc | (cases hc; rfl)
        rw [ast_script, List.append_assoc, List.append_assoc, ← List.append_assoc _ _ u]
        unfold braced
        split
        next =>
          rw [ast_group, List.cons_append, List.append_assoc]
          exact hbraced [base] (by simp [children]) (by simp [kind]) _
        next =>
          exact ih base (by simp [children]) (h.child (by simp [kind]) (by simp [children])) hafter
      | _ => cases hscript
    obtain ⟨c, t, hc, hhalt⟩ := head_ast h hgroup hscript
    have hopen := (opening_ast h).append hu
    rw [Untagged, hc, List.cons_append, List.dropWhile_cons, if_neg (by simp [hhalt]),
      ← List.cons_append, ← hc]
    exact hopen.startsCommand_eq_false (by simp)

end Node

theorem ReadsCommand.kind_ne {nested : Nested} {name : String} {s rest : List Char} {n : Node}
    (h : ReadsCommand nested name s n rest) (hname : name ≠ "\\cssId") :
    n.kind ≠ .group ∧ n.kind ≠ .script := by
  cases h with
  | tag => exact absurd rfl hname
  | _ => exact ⟨by simp [Node.kind], by simp [Node.kind]⟩

/-- A base is the first thing that is written of a node with scripts. -/
theorem ast_prefix_attachScripts {base : Node} (h : base.kind ≠ .script) (sub sup : Option Node) :
    base.ast <+: (attachScripts base sub sup).ast := by
  unfold attachScripts
  split
  next => exact List.prefix_refl _
  next =>
    split
    next id b s p =>
      have hbraced : (Node.script id b s p).braced = .group "" [.script id b s p] := rfl
      rw [Node.ast_script, List.append_assoc, hbraced, Node.ast_group, Node.ast_group]
      exact List.prefix_append _ _
    next =>
      rw [Node.ast_script, List.append_assoc, Node.braced, if_neg h]
      exact List.prefix_append _ _

/-- The first part of an item is written with as many leading braces as it was read with; without a
tag it has no scripts of its own. -/
theorem lead_readAtom {s rest : List Char} {n : Node} (h : ReadsAtom [] (siblings []) s n rest)
    (hs : skipGap s = s) (htag : Untagged s)
    (hbelow : ∀ t m r, t.length < s.length → skipGap t = t → Untagged t →
      readItem [] (siblings []) t = .ok (m, r) → lead m.ast = lead t) :
    n.kind ≠ .script ∧ lead n.ast = lead s := by
  have hn := h.fromMarkup siblings_fromMarkup hs
  have houtlined : n.Outlined := fun m hm _ => (hn m hm).spelled
  cases h with
  | var hv => simp at hv
  | alignMark =>
    rw [Node.ast_alignMark]
    exact ⟨by simp [Node.kind], rfl⟩
  | @symbol c t hc =>
    simp only [List.mem_cons, not_or] at hc
    have hhalt : isLead c = false := by simp [isLead, isGap_of_skipGap hs, hc.1]
    rw [Node.ast_symbol, String.toList_singleton, lead_of_head hhalt, lead_of_head hhalt]
    exact ⟨by simp [Node.kind], rfl⟩
  | @command _ after _ name _ hcommand hread =>
    obtain ⟨c, t, rfl⟩ := exists_of_command? hcommand
    have hname : String.ofList name ≠ "\\cssId" := by
      intro he
      have hstart : startsCommand "\\cssId" ('\\' :: c :: t) = false := htag
      rw [startsCommand, hcommand, ← he] at hstart
      simp at hstart
    obtain ⟨hgroup, hscript⟩ := hread.kind_ne hname
    obtain ⟨d, u, hd, hhalt⟩ := Node.head_ast houtlined hgroup hscript
    refine ⟨hscript, ?_⟩
    rw [hd, lead_of_head hhalt, lead_of_head rfl]
  | @group t _ items hread =>
    refine ⟨by simp [Node.kind], ?_⟩
    obtain ⟨r, hr, hclose⟩ := readClosed_eq_ok.mp hread
    rw [Node.ast_group, lead_open, lead_open, ← lead_skipGap t]
    congr 1
    rcases (siblings_eq_ok (by simp)).mp hr with ⟨-, rfl, rfl⟩ | ⟨-, -, m, ms, r', rfl, hm, -⟩
    · rw [skipGap_idem] at hclose
      rw [hclose, lead_of_head rfl]
      rfl
    · have hlength := (skipGap_suffix t).length_le
      have hmlead := hbelow (skipGap t) m r' (by simp only [List.length_cons]; omega)
        (skipGap_idem t) (untagged_skipGap (untagged_open.mp htag)) hm
      have hmoutlined := houtlined.child (by simp [Node.kind]) (c := m) (by simp [Node.children])
      rw [joined, List.append_assoc, lead_append (Node.halts_ast hmoutlined), hmlead]

theorem lead_readItem {s rest : List Char} {n : Node}
    (h : readItem [] (siblings []) s = .ok (n, rest)) (hs : skipGap s = s) (htag : Untagged s) :
    lead n.ast = lead s := by
  induction hk : s.length using Nat.strong_induction_on generalizing s n rest with
  | _ k ih =>
    subst hk
    obtain ⟨base, r, sub, sup, hbase, -, rfl⟩ := readItem_eq_ok.mp h
    have hatom := readsAtom_of_readAtom hbase
    obtain ⟨hscript, hlead⟩ := lead_readAtom hatom hs htag fun t m r ht hgap htag hm =>
      ih t.length ht hm hgap htag rfl
    have hn := hatom.fromMarkup siblings_fromMarkup hs
    have hhalts := Node.halts_ast (n := base) fun m hm _ => (hn m hm).spelled
    rw [lead_eq_of_isPrefix hhalts (ast_prefix_attachScripts hscript sub sup), hlead]

/-- A group alone in a slot is not written as the text that it was read from. -/
theorem not_prefix_of_group {stop : Stop} {s rest d : List Char} {id : String} {zs : List Node}
    (h : siblings [] stop s = .ok ([.group id zs], rest)) (htag : Untagged s)
    (hd : zs ≠ [] ∨ ∃ c t, d = c :: t ∧ isLead c = false) : ¬ joined zs ++ d <+: s := by
  intro hp
  have hgroup := siblings_fromMarkup h (.group id zs) (by simp)
  rcases (siblings_eq_ok (by simp)).mp h with ⟨-, hnil, -⟩ | ⟨-, -, m, ms, r, hcons, hm, -⟩
  · cases hnil
  cases hcons
  have hlead := lead_readItem hm (skipGap_idem s) (untagged_skipGap htag)
  rw [lead_skipGap, Node.ast_group, lead_open] at hlead
  cases zs with
  | nil =>
    obtain ⟨c, t, rfl, hc⟩ := hd.resolve_left (by simp)
    have hhalts : Halts (joined [] ++ c :: t) := ⟨c, by simp [joined], hc⟩
    have hsame : lead s = lead (joined [] ++ c :: t) := lead_eq_of_isPrefix hhalts hp
    rw [hsame, joined, List.nil_append, List.nil_append, lead_of_head hc] at hlead
    omega
  | cons z zs =>
    have hz := hgroup.child (by simp [Node.kind]) (c := z) (by simp [Node.children])
    have hhalts := Node.halts_ast (n := z) fun m hm _ => (hz m hm).spelled
    have hprefix : z.ast <+: s := by
      rw [joined, List.append_assoc] at hp
      exact (List.prefix_append _ _).trans hp
    have hsame : lead s = lead z.ast := lead_eq_of_isPrefix hhalts hprefix
    rw [hsame, joined, List.append_assoc, lead_append hhalts] at hlead
    omega

end FormulaDoc
