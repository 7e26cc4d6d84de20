import FormulaDoc.Formula
import FormulaDoc.Proofs.Markup
import FormulaDoc.Proofs.Siblings

namespace FormulaDoc

namespace Node

/-- The nodes of a tree that stand in no text. -/
def outer (n : Node) : List Node :=
  n :: if n.kind = .text then [] else n.children.attach.flatMap fun ⟨c, _⟩ => c.outer
termination_by n.size
decreasing_by exact size_lt_of_mem ‹_›

theorem outer_eq (n : Node) :
    n.outer = n :: if n.kind = .text then [] else n.children.flatMap outer := by
  rw [outer]
  simp

theorem mem_outer_iff {m n : Node} :
    m ∈ n.outer ↔ m = n ∨ n.kind ≠ .text ∧ ∃ c ∈ n.children, m ∈ c.outer := by
  rw [outer_eq, List.mem_cons]
  split
  next hn => simp [hn]
  next hn => simp [hn]

theorem self_mem_outer (n : Node) : n ∈ n.outer :=
  mem_outer_iff.mpr (.inl rfl)

theorem mem_outer_of_child {c m n : Node} (hn : n.kind ≠ .text) (hc : c ∈ n.children)
    (hm : m ∈ c.outer) : m ∈ n.outer := by
  apply mem_outer_iff.mpr
  exact .inr ⟨hn, c, hc, hm⟩

theorem mem_outer_trans {k m n : Node} (hm : m ∈ n.outer) (hk : k ∈ m.outer) : k ∈ n.outer := by
  induction n using childrenInduction with
  | step n ih =>
    rcases mem_outer_iff.mp hm with rfl | ⟨hn, c, hc, hm⟩
    · exact hk
    · exact mem_outer_of_child hn hc (ih c hc hm)

theorem mem_flatMap_outer_trans {ns : List Node} {k m : Node} (hm : m ∈ ns.flatMap outer)
    (hk : k ∈ m.outer) : k ∈ ns.flatMap outer := by
  obtain ⟨n, hn, hm⟩ := List.mem_flatMap.mp hm
  exact List.mem_flatMap.mpr ⟨n, hn, mem_outer_trans hm hk⟩

/-- What holds of a node and, unless it is a text, of all outer nodes below it holds of its outer nodes. -/
theorem forall_outer {P : Node → Prop} {n : Node} (hself : P n)
    (hchildren : n.kind ≠ .text → ∀ c ∈ n.children, ∀ m ∈ c.outer, P m) : ∀ m ∈ n.outer, P m := by
  intro m hm
  rcases mem_outer_iff.mp hm with rfl | ⟨hn, c, hc, hm⟩
  · exact hself
  · exact hchildren hn c hc m hm

/-- The verbatim names that a node writes. -/
def names : Node → List String
  | color _ c _ => [c]
  | box _ border _ background => [border, background]
  | array _ _ align => align.toList
  | _ => []

/-- The nodes in argument slots, each with the stop that its slot ends at. -/
def arguments : Node → List (Stop × Node)
  | frac _ numerator denominator => [(.brace, numerator), (.brace, denominator)]
  | script _ _ sub sup => (sub.toList ++ sup.toList).map (Stop.brace, ·)
  | root _ body index => (.brace, body) :: index.toList.map (Stop.bracket, ·)
  | array _ rows _ => rows.flatten.map (Stop.cell, ·)
  | brace _ _ body | strike _ body => [(.brace, body)]
  | box _ _ body _ => [(.dollar, body)]
  | _ => []

theorem mem_children_of_arguments {n s : Node} {stop : Stop} (h : (stop, s) ∈ n.arguments) :
    s ∈ n.children := by
  cases n with
  | frac id numerator denominator =>
    simp only [arguments, List.mem_cons, Prod.mk.injEq, List.not_mem_nil, or_false] at h
    rcases h with ⟨-, rfl⟩ | ⟨-, rfl⟩ <;> simp [children]
  | script id base sub sup =>
    obtain ⟨m, hm, he⟩ := List.mem_map.mp h
    cases he
    exact List.mem_cons_of_mem _ hm
  | root id body index =>
    rcases List.mem_cons.mp h with he | h
    · cases he
      exact List.mem_cons_self
    · obtain ⟨m, hm, he⟩ := List.mem_map.mp h
      cases he
      exact List.mem_cons_of_mem _ hm
  | array id rows align =>
    obtain ⟨m, hm, he⟩ := List.mem_map.mp h
    cases he
    exact hm
  | brace | box | strike =>
    obtain ⟨-, rfl⟩ : _ ∧ s = _ := by simpa [arguments] using h
    simp [children]
  | _ => simp [arguments] at h

end Node

/-- A backslash with letters, or with one character of any other kind. -/
def isCommandName : List Char → Bool
  | '\\' :: c :: rest => if c.isAlpha then rest.all Char.isAlpha else rest.isEmpty
  | _ => false

/-- The values of symbols: a character that has no meaning of its own, or a command of that kind. -/
def isLeafName (value : String) : Bool :=
  match value.toList with
  | [c] => !isGap c && c ∉ ['{', '}', '_', '^', '&', '\\']
  | cs => isCommandName cs && Command.ofName value = .leaf

/-- A symbol of a single character. -/
def Node.isLetter : Node → Bool
  | .symbol _ value => value.length = 1
  | _ => false

theorem Node.isLetter_eq_of_shape {m n : Node} (h : m.shape = n.shape) : m.isLetter = n.isLetter := by
  cases m <;> cases n <;> simp_all [shape, isLetter]

theorem Node.names_eq_of_shape {m n : Node} (h : m.shape = n.shape) : m.names = n.names := by
  cases m <;> cases n <;> simp_all [shape, names]

/-- A group that holds a script and nothing else. -/
def Node.isScriptGroup : Node → Bool
  | .group _ [n] => n.kind = .script
  | _ => false

theorem Node.isScriptGroup_of_kind_ne {n : Node} (h : n.kind ≠ .group) : n.isScriptGroup = false := by
  cases n <;> first | rfl | exact absurd rfl h

/-- A node whose own leaf and shape a reader with these variables can give. -/
def Node.spelledAt (vars : List (List Char)) : Node → Bool
  | .symbol _ value => isLeafName value
  | .space _ s => spacingCommands.contains s
  | .op _ operator _ => bigOperators.contains operator
  | .text _ body => body.all isLetter
  | .script _ base sub sup => (sub.isSome || sup.isSome) && !base.isScriptGroup
  | .array _ rows align => align.isSome && rows.all (!·.isEmpty)
  | .var _ latex => vars.contains latex.toList
  | _ => true

def Node.Spelled (vars : List (List Char)) (n : Node) : Prop :=
  ∀ m ∈ n.outer, m.spelledAt vars

theorem Node.Spelled.self {vars : List (List Char)} {n : Node} (h : n.Spelled vars) :
    n.spelledAt vars :=
  h n n.self_mem_outer

theorem Node.Spelled.child {vars : List (List Char)} {c n : Node} (h : n.Spelled vars)
    (hn : n.kind ≠ .text) (hc : c ∈ n.children) : c.Spelled vars :=
  fun m hm => h m (mem_outer_of_child hn hc hm)

theorem command?_append {s name after w : List Char} (h : command? s = some (name, after))
    (hw : ∀ c t, w = c :: t → c.isAlpha = false) :
    command? (s ++ w) = some (name, after ++ w) := by
  rcases command?_cases h with ⟨c, rest, hc, rfl, rfl, rfl⟩ | ⟨c, hc, rfl, rfl⟩
  · have htake : (rest ++ w).takeWhile Char.isAlpha = rest.takeWhile Char.isAlpha := by
      cases w with
      | nil => simp
      | cons d t =>
        rw [List.takeWhile_append]
        split
        next he => simp [hw d t rfl, (List.takeWhile_prefix _).eq_of_length he]
        next => rfl
    have hdrop : (rest ++ w).dropWhile Char.isAlpha = rest.dropWhile Char.isAlpha ++ w := by
      cases w with
      | nil => simp
      | cons d t =>
        rw [List.dropWhile_append]
        split
        next he =>
          simp only [List.isEmpty_iff] at he
          simp [he, hw d t rfl]
        next => rfl
    simp [command?, hc, htake, hdrop]
  · simp [command?, hc]

/-- A text that begins like an item, with no blank, no closing brace, no script mark and none of some
commands. -/
def OpensBut (names : List String) (s : List Char) : Prop :=
  (∃ c t, s = c :: t ∧ isGap c = false ∧ c ∉ ['}', '_', '^', '\\']) ∨
    ∃ name after, command? s = some (name, after) ∧ String.ofList name ∉ names

/-- A text that begins like an item: with no command that ends or qualifies something else. -/
abbrev Starts (s : List Char) : Prop :=
  OpensBut ["\\end", "\\limits"] s

/-- A text that begins like an item that has no tag. -/
abbrev Opening (s : List Char) : Prop :=
  OpensBut ["\\end", "\\limits", "\\cssId"] s

theorem Opening.starts {s : List Char} (h : Opening s) : Starts s := by
  apply h.imp_right
  rintro ⟨name, after, hs, hname⟩
  refine ⟨name, after, hs, ?_⟩
  intro hmem
  exact hname (List.mem_append_left ["\\cssId"] hmem)

section

variable {names : List String} {s w : List Char}

theorem OpensBut.append (h : OpensBut names s) (hw : ∀ c t, w = c :: t → c.isAlpha = false) :
    OpensBut names (s ++ w) := by
  rcases h with ⟨c, t, rfl, hc⟩ | ⟨name, after, hs, hname⟩
  · exact .inl ⟨c, t ++ w, rfl, hc⟩
  · exact .inr ⟨name, after ++ w, command?_append hs hw, hname⟩

theorem command?_eq_none {c : Char} (h : c ≠ '\\') : command? (c :: s) = none := by
  unfold command?
  split
  next heq => exact absurd (List.cons.inj heq).1 h
  next => rfl

theorem OpensBut.head (h : OpensBut names s) :
    ∃ c t, s = c :: t ∧ isGap c = false ∧ c ∉ ['}', '_', '^'] := by
  rcases h with ⟨c, t, rfl, hgap, hc⟩ | ⟨name, after, hs, -⟩
  · refine ⟨c, t, rfl, hgap, ?_⟩
    simp only [List.mem_cons, List.not_mem_nil, or_false, not_or] at hc ⊢
    exact ⟨hc.1, hc.2.1, hc.2.2.1⟩
  · obtain ⟨c, t, rfl⟩ := exists_of_command? hs
    exact ⟨'\\', c :: t, rfl, rfl, by decide⟩

theorem OpensBut.skipGap (h : OpensBut names s) : skipGap s = s := by
  obtain ⟨c, t, rfl, hgap, -⟩ := h.head
  simp [FormulaDoc.skipGap, hgap]

theorem OpensBut.startsCommand_eq_false (h : OpensBut names s) {name : String}
    (hname : name ∈ names) : startsCommand name s = false := by
  rcases h with ⟨c, t, rfl, -, hc⟩ | ⟨cmd, after, hs, hcmd⟩
  · have hback : c ≠ '\\' := by
      rintro rfl
      exact absurd hc (by decide)
    simp [startsCommand, command?_eq_none hback]
  · have hne : cmd ≠ name.toList := by
      rintro rfl
      rw [String.ofList_toList] at hcmd
      exact hcmd hname
    simp [startsCommand, hs, hne]

end

theorem command?_of_isCommandName {s : List Char} (h : isCommandName s) :
    command? s = some (s, []) := by
  unfold isCommandName at h
  split at h
  next c rest =>
    by_cases hc : c.isAlpha
    · rw [if_pos hc] at h
      have htake : rest.takeWhile Char.isAlpha = rest := List.takeWhile_eq_self_iff.mpr (by simpa using h)
      have hdrop : rest.dropWhile Char.isAlpha = [] := List.dropWhile_eq_nil_iff.mpr (by simpa using h)
      simp [command?, hc, htake, hdrop]
    · rw [if_neg hc] at h
      obtain rfl : rest = [] := by simpa using h
      simp [command?, hc]
  next => simp at h

theorem command?_spacing : ∀ s ∈ spacingCommands, command? s.toList = some (s.toList, []) := by
  decide

theorem command?_operator : ∀ s ∈ bigOperators, command? s.toList = some (s.toList, []) := by
  decide

/-- A symbol is a single character or a command that stands for itself. -/
theorem isLeafName_cases {value : String} (h : isLeafName value) :
    (∃ c, value = String.singleton c ∧ isGap c = false ∧ c ∉ ['{', '}', '_', '^', '&', '\\']) ∨
      command? value.toList = some (value.toList, []) ∧ Command.ofName value = .leaf := by
  unfold isLeafName at h
  split at h
  next c hc =>
    refine .inl ⟨c, ?_, by simpa using h⟩
    rw [← String.toList_inj, hc]
    simp
  next =>
    simp only [Bool.and_eq_true, decide_eq_true_eq] at h
    exact .inr ⟨command?_of_isCommandName h.1, h.2⟩

/-- How the markup of a node begins that is no script. -/
inductive Node.Begins : Node → Prop
  | character {n c} (hast : n.ast = [c]) (hgap : isGap c = false)
      (hc : c ∉ ['{', '}', '_', '^', '&', '\\']) : Begins n
  | command {n after} (name : String) (hast : command? n.ast = some (name.toList, after))
      (hname : name ∉ ["\\end", "\\limits", "\\cssId", "\\\\"]) : Begins n
  | group (id body) : Begins (.group id body)
  | newLine : Begins .newLine
  | alignMark : Begins .alignMark

theorem Node.begins {n : Node} (h : n.spelledAt []) (hscript : n.kind ≠ .script) : n.Begins := by
  cases n with
  | script => exact absurd rfl hscript
  | var id latex => simp [spelledAt] at h
  | symbol id value =>
    rcases isLeafName_cases h with ⟨c, rfl, hgap, hc⟩ | ⟨hcommand, hleaf⟩
    · exact .character (by rw [ast_symbol, String.toList_singleton]) hgap hc
    · refine .command value (by rwa [ast_symbol]) ?_
      rintro hmem
      simp only [List.mem_cons, List.not_mem_nil, or_false] at hmem
      rcases hmem with rfl | rfl | rfl | rfl <;> exact absurd hleaf (by decide)
  | space id s =>
    have hs : s ∈ spacingCommands := by simpa [spelledAt] using h
    have hnames : ∀ s ∈ spacingCommands, s ∉ ["\\end", "\\limits", "\\cssId", "\\\\"] := by decide
    exact .command s (by rw [ast_space]; exact command?_spacing s hs) (hnames s hs)
  | op id operator limits =>
    have hs : operator ∈ bigOperators := by simpa [spelledAt] using h
    have hafter : ∀ c t, (if limits then "\\limits" else "").toList = c :: t → c.isAlpha = false := by
      cases limits
      · rintro c t ⟨⟩
      · rintro c t ⟨⟩
        rfl
    have hnames : ∀ s ∈ bigOperators, s ∉ ["\\end", "\\limits", "\\cssId", "\\\\"] := by decide
    have hcommand := command?_append (command?_operator operator hs) hafter
    exact .command operator (by rwa [ast_op]) (hnames operator hs)
  | group id body => exact .group id body
  | text id body => exact .command "\\text" (by rw [ast_text]; rfl) (by decide)
  | frac id a b => exact .command "\\frac" (by rw [ast_frac]; rfl) (by decide)
  | root id body index =>
    cases index with
    | none => exact .command "\\sqrt" (by rw [ast_root_none]; rfl) (by decide)
    | some s => exact .command "\\sqrt" (by rw [ast_root_some]; rfl) (by decide)
  | array id rows align =>
    have hspelled : align.isSome ∧ ∀ row ∈ rows, row ≠ [] := by simpa [spelledAt] using h
    obtain ⟨align, rfl⟩ := Option.isSome_iff_exists.mp hspelled.1
    exact .command "\\begin" (by rw [ast_array id align hspelled.2]; rfl) (by decide)
  | brace id above body =>
    cases above with
    | false => exact .command "\\underbrace" (by rw [ast_brace]; rfl) (by decide)
    | true => exact .command "\\overbrace" (by rw [ast_brace]; rfl) (by decide)
  | color id c body => exact .command "\\textcolor" (by rw [ast_color]; rfl) (by decide)
  | box id border body background =>
    exact .command "\\fcolorbox" (by rw [ast_box]; rfl) (by decide)
  | strike id body => exact .command "\\cancel" (by rw [ast_strike]; rfl) (by decide)
  | aligned id cells => exact .command "\\begin" (by rw [ast_aligned]; rfl) (by decide)
  | newLine => exact .newLine
  | alignMark => exact .alignMark

/-- A tree that is spelled but for what stands in its texts. -/
def Node.Outlined (n : Node) : Prop :=
  ∀ m ∈ n.outer, m.kind ≠ .text → m.spelledAt []

theorem Node.Spelled.outlined {n : Node} (h : n.Spelled []) : n.Outlined :=
  fun m hm _ => h m hm

theorem Node.Outlined.self {n : Node} (h : n.Outlined) (hn : n.kind ≠ .text) : n.spelledAt [] :=
  h n n.self_mem_outer hn

theorem Node.Outlined.child {c n : Node} (h : n.Outlined) (hn : n.kind ≠ .text) (hc : c ∈ n.children) :
    c.Outlined :=
  fun m hm => h m (mem_outer_of_child hn hc hm)

theorem Node.Outlined.begins {n : Node} (h : n.Outlined) (hscript : n.kind ≠ .script) : n.Begins := by
  by_cases hn : n.kind = .text
  · cases n with
    | text id body => exact .command "\\text" (by rw [ast_text]; rfl) (by decide)
    | _ => cases hn
  · exact Node.begins (h.self hn) hscript

theorem opening_brace (s : List Char) : Opening ('{' :: s) :=
  .inl ⟨'{', s, rfl, rfl, by decide⟩

theorem Node.Begins.opening {n : Node} (h : n.Begins) : Opening n.ast := by
  cases h with
  | character hast hgap hc =>
    rw [hast]
    simp only [List.mem_cons, List.not_mem_nil, or_false, not_or] at hc
    exact .inl ⟨_, [], rfl, hgap, by simp [hc]⟩
  | command name hast hname =>
    refine .inr ⟨_, _, hast, ?_⟩
    rw [String.ofList_toList]
    exact fun hmem => hname (List.mem_append_left ["\\\\"] hmem)
  | group id body =>
    rw [ast_group]
    exact opening_brace _
  | newLine =>
    rw [ast_newLine]
    exact .inr ⟨"\\\\".toList, [], rfl, by decide⟩
  | alignMark =>
    rw [ast_alignMark]
    exact .inl ⟨'&', [], rfl, rfl, by decide⟩

namespace Node

variable {names : List String} {base : Node} {sub sup : Option Node}

theorem isAlpha_scripts {c : Char} {t : List Char}
    (h : scriptMarkup '_' sub ++ scriptMarkup '^' sup = c :: t) : c.isAlpha = false := by
  cases sub <;> cases sup <;> cases h <;> rfl

theorem opensBut_braced (h : OpensBut names base.ast) : OpensBut names base.braced.ast := by
  unfold braced
  split
  next =>
    rw [ast_group]
    exact .inl ⟨'{', _, rfl, rfl, by decide⟩
  next => exact h

/-- A script begins like its base. -/
theorem opensBut_script (id : String) (h : OpensBut names base.ast) :
    OpensBut names (script id base sub sup).ast := by
  rw [ast_script, List.append_assoc]
  exact (opensBut_braced h).append fun _ _ => isAlpha_scripts

/-- The markup of an outlined tree begins like an item. -/
theorem opening_ast {n : Node} (h : n.Outlined) : Opening n.ast := by
  induction n using childrenInduction with
  | step n ih =>
    by_cases hscript : n.kind = .script
    · cases n with
      | script id base sub sup =>
        have hbase : base.Outlined := h.child (by simp [kind]) (by simp [children])
        exact opensBut_script id (ih base (by simp [children]) hbase)
      | _ => cases hscript
    · exact (h.begins hscript).opening

end Node

end FormulaDoc
