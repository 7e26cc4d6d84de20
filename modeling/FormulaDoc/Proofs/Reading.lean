import FormulaDoc.Reader

namespace FormulaDoc

theorem bind_eq_ok {ε α β : Type} {x : Except ε α} {f : α → Except ε β} {b : β} :
    x >>= f = .ok b ↔ ∃ a, x = .ok a ∧ f a = .ok b := by
  cases x with
  | error e => simp [bind, Except.bind]
  | ok a => simp [bind, Except.bind]

theorem bind_of_eq_ok {ε α β : Type} {x : Except ε α} {f : α → Except ε β} {a : α}
    (h : x = .ok a) : x >>= f = f a := by
  rw [h]
  rfl

theorem ok_of_toOption {ε α : Type} {e : Except ε α} {a : α} (h : e.toOption = some a) : e = .ok a := by
  cases e with
  | error => cases h
  | ok b =>
    cases h
    rfl

theorem exists_ok_of_any {ε α : Type} {e : Except ε α} {p : α → Prop} [DecidablePred p]
    (h : e.toOption.any p) : ∃ a, e = .ok a ∧ p a := by
  cases e with
  | error => cases h
  | ok a => exact ⟨a, rfl, of_decide_eq_true h⟩

theorem failAt_ne_ok {α : Type} {s : List Char} {cause : Cause} {a : α} :
    failAt s cause ≠ .ok a := by
  simp [failAt]

theorem expect_eq_ok {c : Char} {s rest : List Char} :
    expect c s = .ok rest ↔ skipGap s = c :: rest := by
  unfold expect
  split
  next d tail hs =>
    by_cases hd : d = c
    · simp [hd, hs]
    · simp [hd, hs, failAt]
  next hs => simp [hs, failAt]

theorem rawGroup_eq_ok {s raw rest : List Char} :
    rawGroup s = .ok (raw, rest) ↔
      ∃ r, skipGap s = '{' :: r ∧ closeGroup 0 r = some (raw, rest) := by
  unfold rawGroup
  rw [bind_eq_ok]
  constructor
  · rintro ⟨r, hr, h⟩
    refine ⟨r, expect_eq_ok.mp hr, ?_⟩
    cases hc : closeGroup 0 r with
    | none => simp [hc, failAt] at h
    | some reading => simpa [hc] using h
  · rintro ⟨r, hr, h⟩
    exact ⟨r, expect_eq_ok.mpr hr, by simp [h]⟩

theorem readName_eq_ok {s rest : List Char} {name : String} :
    readName s = .ok (name, rest) ↔
      ∃ raw, rawGroup s = .ok (raw, rest) ∧ name = String.ofList (trim raw) := by
  unfold readName
  rw [bind_eq_ok]
  constructor
  · rintro ⟨⟨raw, r⟩, hr, h⟩
    cases h
    exact ⟨raw, hr, rfl⟩
  · rintro ⟨raw, hr, rfl⟩
    exact ⟨_, hr, rfl⟩

theorem readEnd_eq_ok {name : String} {s rest : List Char} :
    readEnd name s = .ok rest ↔
      startsCommand "\\end" (skipGap s) ∧ readName ((skipGap s).drop 4) = .ok (name, rest) := by
  unfold readEnd
  by_cases hs : startsCommand "\\end" (skipGap s)
  · simp only [hs, if_true, true_and]
    rw [bind_eq_ok]
    constructor
    · rintro ⟨⟨found, r⟩, hr, h⟩
      by_cases hf : found = name
      · simp only [hf, if_true, Except.ok.injEq] at h
        rw [hr, hf, h]
      · simp [hf, failAt] at h
    · intro h
      exact ⟨_, h, by simp⟩
  · simp [hs, failAt]

section

variable {nested : Nested}

theorem readClosed_eq_ok {stop : Stop} {close : Char} {s rest : List Char} {items : List Node} :
    readClosed nested stop close s = .ok (items, rest) ↔
      ∃ r, nested stop s = .ok (items, r) ∧ skipGap r = close :: rest := by
  unfold readClosed
  rw [bind_eq_ok]
  constructor
  · rintro ⟨⟨read, r⟩, hr, h⟩
    obtain ⟨r', hr', h⟩ := bind_eq_ok.mp h
    cases h
    exact ⟨r, hr, expect_eq_ok.mp hr'⟩
  · rintro ⟨r, hr, h⟩
    exact ⟨_, hr, bind_eq_ok.mpr ⟨rest, expect_eq_ok.mpr h, rfl⟩⟩

theorem readBraced_eq_ok {s rest : List Char} {items : List Node} :
    readBraced nested s = .ok (items, rest) ↔
      ∃ r, skipGap s = '{' :: r ∧ readClosed nested .brace '}' r = .ok (items, rest) := by
  unfold readBraced
  rw [bind_eq_ok]
  simp only [expect_eq_ok]

theorem readArgument_eq_ok {s rest : List Char} {n : Node} :
    readArgument nested s = .ok (n, rest) ↔
      ∃ items, readBraced nested s = .ok (items, rest) ∧ n = collapse items := by
  unfold readArgument
  rw [bind_eq_ok]
  constructor
  · rintro ⟨⟨items, r⟩, hr, h⟩
    cases h
    exact ⟨items, hr, rfl⟩
  · rintro ⟨items, hr, rfl⟩
    exact ⟨_, hr, rfl⟩

end

/-- The rest of an array, cell by cell. -/
inductive ReadsRows (nested : Nested) :
    Nat → Bool → List Char → List (List Node) → List Char → Prop
  | cell {bound started s t rest items rows} (hs : nested .cell s = .ok (items, '&' :: t))
      (h : ReadsRows nested bound true t rows rest) :
      ReadsRows nested (bound + 1) started s (consCell (collapse items) rows) rest
  | row {bound started s t rest items rows} (hs : nested .cell s = .ok (items, '\\' :: '\\' :: t))
      (h : ReadsRows nested bound true t rows rest) :
      ReadsRows nested (bound + 1) started s ([collapse items] :: rows) rest
  | last {bound started s rest items} (hs : nested .cell s = .ok (items, rest))
      (hend : startsCommand "\\end" rest) :
      ReadsRows nested (bound + 1) started s
        (if started || !items.isEmpty then [[collapse items]] else []) rest

/-- A command is a backslash with the letters behind it, or with one character of any other kind. -/
theorem command?_cases {s name after : List Char} (h : command? s = some (name, after)) :
    (∃ c t, c.isAlpha = true ∧ s = '\\' :: c :: t ∧ name = '\\' :: c :: t.takeWhile Char.isAlpha ∧
        after = t.dropWhile Char.isAlpha) ∨
      ∃ c, c.isAlpha = false ∧ s = '\\' :: c :: after ∧ name = ['\\', c] := by
  unfold command? at h
  split at h
  next c t =>
    split at h
    next hc =>
      cases h
      exact .inl ⟨c, t, hc, rfl, rfl, rfl⟩
    next hc =>
      cases h
      exact .inr ⟨c, by simpa using hc, rfl, rfl⟩
  next => cases h

theorem exists_of_command? {s name after : List Char} (h : command? s = some (name, after)) :
    ∃ c t, s = '\\' :: c :: t := by
  rcases command?_cases h with ⟨c, t, -, hs, -⟩ | ⟨c, -, hs, -⟩
  · exact ⟨c, t, hs⟩
  · exact ⟨c, after, hs⟩

theorem exists_of_startsCommand {name : String} {s : List Char} (h : startsCommand name s) :
    ∃ c t, s = '\\' :: c :: t ∧
      name.toList = if c.isAlpha then '\\' :: c :: t.takeWhile Char.isAlpha else ['\\', c] := by
  unfold startsCommand command? at h
  split at h
  next c t =>
    refine ⟨c, t, rfl, ?_⟩
    by_cases hc : c.isAlpha <;> simp [hc] at h ⊢ <;> exact h.symm
  next => simp at h

theorem readRows_eq_ok {nested : Nested} {bound : Nat} {started : Bool} {s rest : List Char}
    {rows : List (List Node)} :
    readRows nested bound started s = .ok (rows, rest) ↔
      ReadsRows nested bound started s rows rest := by
  constructor
  · intro h
    induction bound generalizing started s rows with
    | zero => exact absurd h failAt_ne_ok
    | succ bound ih =>
      unfold readRows at h
      obtain ⟨⟨items, r⟩, hr, h⟩ := bind_eq_ok.mp h
      dsimp only at h
      split at h
      next hmark =>
        obtain ⟨⟨more, t⟩, ht, h⟩ := bind_eq_ok.mp h
        cases h
        cases r with
        | nil => cases hmark
        | cons c r =>
          cases hmark
          exact .cell hr (ih ht)
      next =>
        split at h
        next hline =>
          obtain ⟨⟨more, t⟩, ht, h⟩ := bind_eq_ok.mp h
          cases h
          obtain ⟨c, r, rfl, hname⟩ := exists_of_startsCommand hline
          obtain rfl : c = '\\' := by
            split at hname <;> exact (List.cons.inj (List.cons.inj hname).2).1.symm
          exact .row hr (ih ht)
        next =>
          split at h
          next hend =>
            cases h
            exact .last hr hend
          next => exact absurd h failAt_ne_ok
  · intro h
    induction h with
    | cell hs _ ih =>
      rw [readRows, bind_of_eq_ok hs]
      exact bind_of_eq_ok ih
    | row hs _ ih =>
      rw [readRows, bind_of_eq_ok hs]
      exact bind_of_eq_ok ih
    | @last bound started s rest items hs hend =>
      obtain ⟨c, t, rfl, hname⟩ := exists_of_startsCommand hend
      have hline : startsCommand "\\\\" ('\\' :: c :: t) = false := by
        refine Bool.eq_false_iff.mpr fun hline => ?_
        obtain ⟨c', t', heq, hname'⟩ := exists_of_startsCommand hline
        cases heq
        exact absurd (hname.trans hname'.symm) (by decide)
      rw [readRows, bind_of_eq_ok hs]
      simp [hline, hend]

/-- What a command stands for, with the text before and after what it takes along. -/
inductive ReadsCommand (nested : Nested) : String → List Char → Node → List Char → Prop
  | newLine {s} : ReadsCommand nested "\\\\" s .newLine s
  | spacing {name s} (hname : name ∈ spacingCommands) :
      ReadsCommand nested name s (.space "" name) s
  | operator {name s} (hname : name ∈ bigOperators)
      (hlimits : startsCommand "\\limits" (skipGap s) = false) :
      ReadsCommand nested name s (.op "" name false) s
  | limits {name s} (hname : name ∈ bigOperators)
      (hlimits : startsCommand "\\limits" (skipGap s) = true) :
      ReadsCommand nested name s (.op "" name true) ((skipGap s).drop 7)
  | tag {s s' rest id n} (hid : readName s = .ok (id, s'))
      (hbody : readBraced nested s' = .ok ([n], rest)) (hn : n.id?.isSome) :
      ReadsCommand nested "\\cssId" s (n.withId id) rest
  | frac {s s' rest numerator denominator}
      (hnum : readArgument nested s = .ok (numerator, s'))
      (hden : readArgument nested s' = .ok (denominator, rest)) :
      ReadsCommand nested "\\frac" s (.frac "" numerator denominator) rest
  | sqrt {s rest body} (hs : ∀ r, skipGap s ≠ '[' :: r)
      (hbody : readArgument nested (skipGap s) = .ok (body, rest)) :
      ReadsCommand nested "\\sqrt" s (.root "" body none) rest
  | index {s s' s'' rest items body} (hs : skipGap s = '[' :: s')
      (hitems : readClosed nested .bracket ']' s' = .ok (items, s''))
      (hbody : readArgument nested s'' = .ok (body, rest)) :
      ReadsCommand nested "\\sqrt" s (.root "" body (some (collapse items))) rest
  | text {s rest raw} (hraw : rawGroup s = .ok (raw, rest)) :
      ReadsCommand nested "\\text" s
        (.text "" ((unescape raw).map fun c => .symbol "" (String.singleton c))) rest
  | textColor {s s' rest c items} (hname : readName s = .ok (c, s'))
      (hbody : readBraced nested s' = .ok (items, rest)) :
      ReadsCommand nested "\\textcolor" s (.color "" c items) rest
  | frameBox {s s₁ s₂ s₃ s₄ s₅ rest border background items}
      (hborder : readName s = .ok (border, s₁)) (hback : readName s₁ = .ok (background, s₂))
      (hopen : skipGap s₂ = '{' :: s₃) (hdollar : skipGap s₃ = '$' :: s₄)
      (hitems : readClosed nested .dollar '$' s₄ = .ok (items, s₅))
      (hclose : skipGap s₅ = '}' :: rest) :
      ReadsCommand nested "\\fcolorbox" s (.box "" border (collapse items) background) rest
  | overbrace {s rest body} (hbody : readArgument nested s = .ok (body, rest)) :
      ReadsCommand nested "\\overbrace" s (.brace "" true body) rest
  | underbrace {s rest body} (hbody : readArgument nested s = .ok (body, rest)) :
      ReadsCommand nested "\\underbrace" s (.brace "" false body) rest
  | cancel {s rest body} (hbody : readArgument nested s = .ok (body, rest)) :
      ReadsCommand nested "\\cancel" s (.strike "" body) rest
  | array {s s₁ s₂ s₃ rest align rows} (hname : readName s = .ok ("array", s₁))
      (halign : readName s₁ = .ok (align, s₂))
      (hrows : readRows nested (s₂.length + 1) false s₂ = .ok (rows, s₃))
      (hend : readEnd "array" s₃ = .ok rest) :
      ReadsCommand nested "\\begin" s (.array "" rows (some align)) rest
  | aligned {s s₁ s₂ rest cells} (hname : readName s = .ok ("aligned", s₁))
      (hcells : nested .aligned s₁ = .ok (cells, s₂)) (hend : readEnd "aligned" s₂ = .ok rest) :
      ReadsCommand nested "\\begin" s (.aligned "" cells) rest
  | leaf {name s} (hname : Command.ofName name = .leaf) :
      ReadsCommand nested name s (.symbol "" name) s

/-- The names that a command of each meaning has. -/
def Command.Names : Command → String → Prop
  | .newLine, name => name = "\\\\"
  | .spacing, name => name ∈ spacingCommands
  | .operator, name => name ∈ bigOperators
  | .tag, name => name = "\\cssId"
  | .frac, name => name = "\\frac"
  | .sqrt, name => name = "\\sqrt"
  | .text, name => name = "\\text"
  | .textColor, name => name = "\\textcolor"
  | .frameBox, name => name = "\\fcolorbox"
  | .brace above, name => name = if above then "\\overbrace" else "\\underbrace"
  | .cancel, name => name = "\\cancel"
  | .environment, name => name = "\\begin"
  | .stray, name => name = "\\end" ∨ name = "\\limits"
  | .leaf, _ => True

theorem Command.names_ofName (name : String) : (Command.ofName name).Names name := by
  unfold Command.ofName
  split
  next h => exact h
  next =>
    split
    next h => exact h
    next =>
      split
      next h => exact h
      next => split <;> simp [Command.Names]

theorem Command.names_of_eq {name : String} {cmd : Command} (h : Command.ofName name = cmd) :
    cmd.Names name :=
  h ▸ Command.names_ofName name

theorem Command.ofName_spacing : ∀ name ∈ spacingCommands, Command.ofName name = .spacing := by
  decide

theorem Command.ofName_operator : ∀ name ∈ bigOperators, Command.ofName name = .operator := by
  decide

section

variable {nested : Nested}

theorem readsCommand_of_readCommand {name : String} {left : Nat} {s rest : List Char} {n : Node}
    (h : readCommand nested name left s = .ok (n, rest)) : ReadsCommand nested name s n rest := by
  unfold readCommand at h
  split at h
  next hc =>
    cases h
    rw [show name = "\\\\" from Command.names_of_eq hc]
    exact .newLine
  next hc =>
    cases h
    exact .spacing (Command.names_of_eq hc)
  next hc =>
    by_cases hl : startsCommand "\\limits" (skipGap s)
    · rw [if_pos hl] at h
      cases h
      exact .limits (Command.names_of_eq hc) hl
    · rw [if_neg hl] at h
      cases h
      exact .operator (Command.names_of_eq hc) (by simpa using hl)
  next hc =>
    obtain ⟨⟨id, s'⟩, hid, h⟩ := bind_eq_ok.mp h
    obtain ⟨⟨items, r⟩, hbody, h⟩ := bind_eq_ok.mp h
    rw [show name = "\\cssId" from Command.names_of_eq hc]
    dsimp only at h
    split at h
    next n =>
      by_cases hn : n.id?.isSome
      · rw [if_pos hn] at h
        cases h
        exact .tag hid hbody hn
      · simp [hn] at h
    next => simp at h
  next hc =>
    obtain ⟨⟨a, s'⟩, ha, h⟩ := bind_eq_ok.mp h
    obtain ⟨⟨b, r⟩, hb, h⟩ := bind_eq_ok.mp h
    cases h
    rw [show name = "\\frac" from Command.names_of_eq hc]
    exact .frac ha hb
  next hc =>
    rw [show name = "\\sqrt" from Command.names_of_eq hc]
    split at h
    next s' hs =>
      obtain ⟨⟨items, s''⟩, hi, h⟩ := bind_eq_ok.mp h
      obtain ⟨⟨body, r⟩, hb, h⟩ := bind_eq_ok.mp h
      cases h
      exact .index hs hi hb
    next hs =>
      obtain ⟨⟨body, r⟩, hb, h⟩ := bind_eq_ok.mp h
      cases h
      exact .sqrt (fun r hr => hs r hr) hb
  next hc =>
    obtain ⟨⟨raw, r⟩, hr, h⟩ := bind_eq_ok.mp h
    cases h
    rw [show name = "\\text" from Command.names_of_eq hc]
    exact .text hr
  next hc =>
    obtain ⟨⟨c, s'⟩, hn, h⟩ := bind_eq_ok.mp h
    obtain ⟨⟨items, r⟩, hb, h⟩ := bind_eq_ok.mp h
    cases h
    rw [show name = "\\textcolor" from Command.names_of_eq hc]
    exact .textColor hn hb
  next hc =>
    obtain ⟨⟨border, s₁⟩, hborder, h⟩ := bind_eq_ok.mp h
    obtain ⟨⟨background, s₂⟩, hback, h⟩ := bind_eq_ok.mp h
    obtain ⟨s₃, hopen, h⟩ := bind_eq_ok.mp h
    obtain ⟨s₄, hdollar, h⟩ := bind_eq_ok.mp h
    obtain ⟨⟨items, s₅⟩, hitems, h⟩ := bind_eq_ok.mp h
    obtain ⟨r, hclose, h⟩ := bind_eq_ok.mp h
    cases h
    rw [show name = "\\fcolorbox" from Command.names_of_eq hc]
    exact .frameBox hborder hback (expect_eq_ok.mp hopen) (expect_eq_ok.mp hdollar) hitems
      (expect_eq_ok.mp hclose)
  next above hc =>
    obtain ⟨⟨body, r⟩, hb, h⟩ := bind_eq_ok.mp h
    cases h
    rw [show name = if above then "\\overbrace" else "\\underbrace" from Command.names_of_eq hc]
    cases above with
    | true => exact .overbrace hb
    | false => exact .underbrace hb
  next hc =>
    obtain ⟨⟨body, r⟩, hb, h⟩ := bind_eq_ok.mp h
    cases h
    rw [show name = "\\cancel" from Command.names_of_eq hc]
    exact .cancel hb
  next hc =>
    obtain ⟨⟨environment, s₁⟩, hname, h⟩ := bind_eq_ok.mp h
    rw [show name = "\\begin" from Command.names_of_eq hc]
    dsimp only at h
    split at h
    next =>
      obtain ⟨⟨align, s₂⟩, halign, h⟩ := bind_eq_ok.mp h
      obtain ⟨⟨rows, s₃⟩, hrows, h⟩ := bind_eq_ok.mp h
      obtain ⟨r, hend, h⟩ := bind_eq_ok.mp h
      cases h
      exact .array hname halign hrows hend
    next =>
      obtain ⟨⟨cells, s₂⟩, hcells, h⟩ := bind_eq_ok.mp h
      obtain ⟨r, hend, h⟩ := bind_eq_ok.mp h
      cases h
      exact .aligned hname hcells hend
    next => simp at h
  next => simp at h
  next hc =>
    cases h
    exact .leaf hc

/-- The readings of a command are those that `ReadsCommand` lists. -/
theorem readCommand_eq_ok {name : String} {left : Nat} {s rest : List Char} {n : Node} :
    readCommand nested name left s = .ok (n, rest) ↔ ReadsCommand nested name s n rest := by
  refine ⟨readsCommand_of_readCommand, fun h => ?_⟩
  cases h with
  | newLine => rfl
  | spacing hname => rw [readCommand, Command.ofName_spacing _ hname]
  | operator hname hl => simp [readCommand, Command.ofName_operator _ hname, hl]
  | limits hname hl => simp [readCommand, Command.ofName_operator _ hname, hl]
  | tag hid hbody hn =>
    rw [readCommand, show Command.ofName "\\cssId" = .tag by decide]
    simp only [bind_of_eq_ok hid, bind_of_eq_ok hbody, hn, if_true]
  | frac hnum hden =>
    rw [readCommand, show Command.ofName "\\frac" = .frac by decide]
    simp only [bind_of_eq_ok hnum, bind_of_eq_ok hden]
  | sqrt hs hbody =>
    rw [readCommand, show Command.ofName "\\sqrt" = .sqrt by decide]
    dsimp only
    split
    next r hr => exact absurd hr (hs r)
    next => exact bind_of_eq_ok hbody
  | index hs hitems hbody =>
    rw [readCommand, show Command.ofName "\\sqrt" = .sqrt by decide]
    simp only [hs, bind_of_eq_ok hitems, bind_of_eq_ok hbody]
  | text hraw =>
    rw [readCommand, show Command.ofName "\\text" = .text by decide]
    simp only [bind_of_eq_ok hraw]
  | textColor hname hbody =>
    rw [readCommand, show Command.ofName "\\textcolor" = .textColor by decide]
    simp only [bind_of_eq_ok hname, bind_of_eq_ok hbody]
  | frameBox hborder hback hopen hdollar hitems hclose =>
    rw [readCommand, show Command.ofName "\\fcolorbox" = .frameBox by decide]
    simp only [bind_of_eq_ok hborder, bind_of_eq_ok hback, bind_of_eq_ok (expect_eq_ok.mpr hopen),
      bind_of_eq_ok (expect_eq_ok.mpr hdollar), bind_of_eq_ok hitems, bind_of_eq_ok (expect_eq_ok.mpr hclose)]
  | overbrace hbody =>
    rw [readCommand, show Command.ofName "\\overbrace" = .brace true by decide]
    simp only [bind_of_eq_ok hbody]
  | underbrace hbody =>
    rw [readCommand, show Command.ofName "\\underbrace" = .brace false by decide]
    simp only [bind_of_eq_ok hbody]
  | cancel hbody =>
    rw [readCommand, show Command.ofName "\\cancel" = .cancel by decide]
    simp only [bind_of_eq_ok hbody]
  | array hname halign hrows hend =>
    rw [readCommand, show Command.ofName "\\begin" = .environment by decide]
    simp only [bind_of_eq_ok hname, bind_of_eq_ok halign, bind_of_eq_ok hrows, bind_of_eq_ok hend]
  | aligned hname hcells hend =>
    rw [readCommand, show Command.ofName "\\begin" = .environment by decide]
    simp only [bind_of_eq_ok hname, bind_of_eq_ok hcells, bind_of_eq_ok hend]
  | leaf hname => rw [readCommand, hname]

end

/-- What an item can begin with. -/
inductive ReadsAtom (vars : List (List Char)) (nested : Nested) :
    List Char → Node → List Char → Prop
  | var {s v} (hv : vars.find? (·.isPrefixOf s) = some v) :
      ReadsAtom vars nested s (.var "" (String.ofList v)) (s.drop v.length)
  | group {s rest items} (h : readClosed nested .brace '}' s = .ok (items, rest)) :
      ReadsAtom vars nested ('{' :: s) (.group "" items) rest
  | alignMark {s} : ReadsAtom vars nested ('&' :: s) .alignMark s
  | command {s after rest name n} (hs : command? s = some (name, after))
      (h : ReadsCommand nested (String.ofList name) after n rest) : ReadsAtom vars nested s n rest
  | symbol {c s} (hc : c ∉ ['{', '}', '_', '^', '&', '\\']) :
      ReadsAtom vars nested (c :: s) (.symbol "" (String.singleton c)) s

/-- The scripts that follow the first part of an item. -/
inductive ReadsScripts (vars : List (List Char)) (nested : Nested) :
    List Char → Option Node → Option Node → List Char → Prop
  | none {s} (hsub : ∀ r, skipGap s ≠ '_' :: r) (hsup : ∀ r, skipGap s ≠ '^' :: r) :
      ReadsScripts vars nested s none none (skipGap s)
  | sub {s r rest sub} (hs : skipGap s = '_' :: r)
      (hsub : readScript vars nested r = .ok (sub, rest)) (hrest : ∀ t, skipGap rest ≠ '^' :: t) :
      ReadsScripts vars nested s (some sub) none (skipGap rest)
  | sup {s r rest sup} (hs : skipGap s = '^' :: r)
      (hsup : readScript vars nested r = .ok (sup, rest)) (hrest : ∀ t, skipGap rest ≠ '_' :: t) :
      ReadsScripts vars nested s none (some sup) (skipGap rest)
  | subSup {s r r' r'' rest sub sup} (hs : skipGap s = '_' :: r)
      (hsub : readScript vars nested r = .ok (sub, r')) (hr : skipGap r' = '^' :: r'')
      (hsup : readScript vars nested r'' = .ok (sup, rest)) :
      ReadsScripts vars nested s (some sub) (some sup) (skipGap rest)
  | supSub {s r r' r'' rest sub sup} (hs : skipGap s = '^' :: r)
      (hsup : readScript vars nested r = .ok (sup, r')) (hr : skipGap r' = '_' :: r'')
      (hsub : readScript vars nested r'' = .ok (sub, rest)) :
      ReadsScripts vars nested s (some sub) (some sup) (skipGap rest)

section

variable {vars : List (List Char)} {nested : Nested} {s rest : List Char} {n : Node}

theorem readsAtom_of_readAtom (h : readAtom vars nested s = .ok (n, rest)) :
    ReadsAtom vars nested s n rest := by
  unfold readAtom at h
  split at h
  next v hv =>
    cases h
    exact .var hv
  next =>
    split at h
    next => exact absurd h failAt_ne_ok
    next s =>
      obtain ⟨⟨items, r⟩, hr, h⟩ := bind_eq_ok.mp h
      cases h
      exact .group hr
    next =>
      cases h
      exact .alignMark
    next s =>
      split at h
      next name after hs => exact .command hs (readsCommand_of_readCommand h)
      next => exact absurd h failAt_ne_ok
    next c t hopen hmark hcommand _ =>
      split at h
      next => exact absurd h failAt_ne_ok
      next hc =>
        cases h
        refine .symbol ?_
        simp only [List.mem_cons, List.not_mem_nil, or_false, not_or] at hc ⊢
        exact ⟨fun e => hopen e, hc.1, hc.2.1, hc.2.2, fun e => hmark e, fun e => hcommand e⟩

/-- Without variables the readings of an item are those that `ReadsAtom` lists. -/
theorem readAtom_eq_ok : readAtom [] nested s = .ok (n, rest) ↔ ReadsAtom [] nested s n rest := by
  refine ⟨readsAtom_of_readAtom, fun h => ?_⟩
  unfold readAtom
  rw [List.find?_nil]
  dsimp only
  cases h with
  | var hv => simp at hv
  | group h => exact bind_of_eq_ok h
  | alignMark => rfl
  | @command s after rest name n hs h =>
    obtain ⟨c, t, rfl⟩ := exists_of_command? hs
    simp only [hs]
    exact readCommand_eq_ok.mpr h
  | @symbol c t hc =>
    simp only [List.mem_cons, List.not_mem_nil, or_false, not_or] at hc
    obtain ⟨hopen, hclose, hsub, hsup, hmark, hslash⟩ := hc
    split
    next heq => simp at heq
    next heq => exact absurd (List.cons.inj heq).1 hopen
    next heq => exact absurd (List.cons.inj heq).1 hmark
    next heq => exact absurd (List.cons.inj heq).1 hslash
    next heq =>
      cases heq
      simp [hclose, hsub, hsup]

theorem readsScripts_of_readScripts {sub sup : Option Node}
    (h : readScripts vars nested s = .ok ((sub, sup), rest)) :
    ReadsScripts vars nested s sub sup rest := by
  unfold readScripts at h
  split at h
  next r hs =>
    obtain ⟨⟨sub, r'⟩, hsub, h⟩ := bind_eq_ok.mp h
    dsimp only at h
    split at h
    next r'' hr =>
      obtain ⟨⟨sup, t⟩, hsup, h⟩ := bind_eq_ok.mp h
      cases h
      exact .subSup hs hsub hr hsup
    next hr =>
      cases h
      exact .sub hs hsub fun t ht => hr t ht
  next r hs =>
    obtain ⟨⟨sup, r'⟩, hsup, h⟩ := bind_eq_ok.mp h
    dsimp only at h
    split at h
    next r'' hr =>
      obtain ⟨⟨sub, t⟩, hsub, h⟩ := bind_eq_ok.mp h
      cases h
      exact .supSub hs hsup hr hsub
    next hr =>
      cases h
      exact .sup hs hsup fun t ht => hr t ht
  next hsub hsup =>
    cases h
    exact .none (fun r hr => hsub r hr) fun r hr => hsup r hr

theorem readScripts_eq_ok {sub sup : Option Node} :
    readScripts vars nested s = .ok ((sub, sup), rest) ↔
      ReadsScripts vars nested s sub sup rest := by
  refine ⟨readsScripts_of_readScripts, fun h => ?_⟩
  unfold readScripts
  cases h with
  | none hsub hsup =>
    split
    next r hr => exact absurd hr (hsub r)
    next r hr => exact absurd hr (hsup r)
    next => rfl
  | sub hs hsub hrest =>
    simp only [hs, bind_of_eq_ok hsub]
  | sup hs hsup hrest =>
    simp only [hs, bind_of_eq_ok hsup]
  | subSup hs hsub hr hsup => simp only [hs, bind_of_eq_ok hsub, hr, bind_of_eq_ok hsup]
  | supSub hs hsup hr hsub => simp only [hs, bind_of_eq_ok hsup, hr, bind_of_eq_ok hsub]

theorem readItem_eq_ok :
    readItem vars nested s = .ok (n, rest) ↔
      ∃ base r sub sup, readAtom vars nested s = .ok (base, r) ∧
        readScripts vars nested r = .ok ((sub, sup), rest) ∧ n = attachScripts base sub sup := by
  unfold readItem
  rw [bind_eq_ok]
  constructor
  · rintro ⟨⟨base, r⟩, hbase, h⟩
    obtain ⟨⟨⟨sub, sup⟩, r'⟩, hscripts, h⟩ := bind_eq_ok.mp h
    cases h
    exact ⟨base, r, sub, sup, hbase, hscripts, rfl⟩
  · rintro ⟨base, r, sub, sup, hbase, hscripts, rfl⟩
    exact ⟨_, hbase, bind_eq_ok.mpr ⟨_, hscripts, rfl⟩⟩

end

end FormulaDoc
