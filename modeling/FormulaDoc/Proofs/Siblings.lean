import FormulaDoc.Proofs.Braces
import Mathlib.Data.List.DropRight

namespace FormulaDoc

theorem skipGap_suffix (s : List Char) : skipGap s <:+ s :=
  List.dropWhile_suffix _

theorem skipGap_idem (s : List Char) : skipGap (skipGap s) = skipGap s :=
  List.dropWhile_idempotent _ s

theorem suffix_of_skipGap {s rest : List Char} {c : Char} (h : skipGap s = c :: rest) :
    rest <:+ s :=
  (List.suffix_cons c rest).trans (h ▸ skipGap_suffix s)

theorem length_lt_of_skipGap {s rest : List Char} {c : Char} (h : skipGap s = c :: rest) :
    rest.length < s.length := by
  have hle := (skipGap_suffix s).length_le
  rw [h, List.length_cons] at hle
  omega

theorem rawGroup_suffix {s raw rest : List Char} (h : rawGroup s = .ok (raw, rest)) :
    rest <:+ s := by
  obtain ⟨hs, -⟩ := rawGroup_eq_ok_iff.mp h
  refine List.IsSuffix.trans ?_ (suffix_of_skipGap hs)
  exact ⟨raw ++ ['}'], by simp⟩

theorem readName_suffix {s rest : List Char} {name : String}
    (h : readName s = .ok (name, rest)) : rest <:+ s := by
  obtain ⟨raw, hraw, -⟩ := readName_eq_ok.mp h
  exact rawGroup_suffix hraw

theorem readEnd_suffix {name : String} {s rest : List Char} (h : readEnd name s = .ok rest) :
    rest <:+ s := by
  obtain ⟨-, hname⟩ := readEnd_eq_ok.mp h
  have hread := (readName_suffix hname).trans (List.drop_suffix _ _)
  exact hread.trans (skipGap_suffix s)

theorem command?_suffix {s name after : List Char} (h : command? s = some (name, after)) :
    after <:+ s ∧ after.length < s.length := by
  rcases command?_cases h with ⟨c, rest, -, rfl, -, rfl⟩ | ⟨c, -, rfl, -⟩
  · have hle := List.dropWhile_suffix Char.isAlpha (l := rest)
    refine ⟨hle.trans ⟨['\\', c], rfl⟩, ?_⟩
    have := hle.length_le
    simp only [List.length_cons]
    omega
  · exact ⟨⟨['\\', c], rfl⟩, by simp only [List.length_cons]; omega⟩

/-- A reader of siblings that leaves an end of its text. -/
def LeavesSuffix (nested : Nested) : Prop :=
  ∀ ⦃stop s items rest⦄, nested stop s = .ok (items, rest) → rest <:+ s

section

variable {nested : Nested} (hn : LeavesSuffix nested)

include hn

theorem readClosed_suffix {stop : Stop} {close : Char} {s rest : List Char} {items : List Node}
    (h : readClosed nested stop close s = .ok (items, rest)) : rest <:+ s := by
  obtain ⟨r, hr, hclose⟩ := readClosed_eq_ok.mp h
  exact (suffix_of_skipGap hclose).trans (hn hr)

theorem readBraced_suffix {s rest : List Char} {items : List Node}
    (h : readBraced nested s = .ok (items, rest)) : rest <:+ s := by
  obtain ⟨r, hopen, hr⟩ := readBraced_eq_ok.mp h
  exact (readClosed_suffix hn hr).trans (suffix_of_skipGap hopen)

theorem readArgument_suffix {s rest : List Char} {n : Node}
    (h : readArgument nested s = .ok (n, rest)) : rest <:+ s := by
  obtain ⟨items, hr, -⟩ := readArgument_eq_ok.mp h
  exact readBraced_suffix hn hr

theorem ReadsRows.suffix {bound : Nat} {started : Bool} {s rest : List Char}
    {rows : List (List Node)} (h : ReadsRows nested bound started s rows rest) : rest <:+ s := by
  induction h with
  | cell hs _ ih =>
    have hmark := (List.suffix_cons _ _).trans (hn hs)
    exact ih.trans hmark
  | row hs _ ih =>
    have hline := (List.suffix_cons _ _).trans ((List.suffix_cons _ _).trans (hn hs))
    exact ih.trans hline
  | last hs _ => exact hn hs

theorem ReadsCommand.suffix {name : String} {s rest : List Char} {n : Node}
    (h : ReadsCommand nested name s n rest) : rest <:+ s := by
  cases h with
  | newLine | spacing | operator | leaf => exact List.suffix_refl s
  | limits => exact (List.drop_suffix _ _).trans (skipGap_suffix s)
  | tag hid hbody => exact (readBraced_suffix hn hbody).trans (readName_suffix hid)
  | frac hnum hden => exact (readArgument_suffix hn hden).trans (readArgument_suffix hn hnum)
  | sqrt _ hbody => exact (readArgument_suffix hn hbody).trans (skipGap_suffix s)
  | index hs hitems hbody =>
    have inner := (readArgument_suffix hn hbody).trans (readClosed_suffix hn hitems)
    exact inner.trans (suffix_of_skipGap hs)
  | text hraw => exact rawGroup_suffix hraw
  | textColor hname hbody => exact (readBraced_suffix hn hbody).trans (readName_suffix hname)
  | frameBox hborder hback hopen hdollar hitems hclose =>
    have inner := (suffix_of_skipGap hclose).trans (readClosed_suffix hn hitems)
    have outer := (suffix_of_skipGap hdollar).trans (suffix_of_skipGap hopen)
    exact ((inner.trans outer).trans (readName_suffix hback)).trans (readName_suffix hborder)
  | overbrace hbody | underbrace hbody | cancel hbody => exact readArgument_suffix hn hbody
  | array hname halign hrows hend =>
    have inner := (readEnd_suffix hend).trans ((readRows_eq_ok.mp hrows).suffix hn)
    exact (inner.trans (readName_suffix halign)).trans (readName_suffix hname)
  | aligned hname hcells hend =>
    have inner := (readEnd_suffix hend).trans (hn hcells)
    exact inner.trans (readName_suffix hname)

variable {vars : List (List Char)} (hvars : [] ∉ vars)

theorem ReadsAtom.suffix {s rest : List Char} {n : Node} (h : ReadsAtom vars nested s n rest) :
    rest <:+ s := by
  cases h with
  | var => exact List.drop_suffix _ _
  | group h => exact (readClosed_suffix hn h).trans (List.suffix_cons _ _)
  | alignMark | symbol => exact List.suffix_cons _ _
  | command hs h => exact (h.suffix hn).trans (command?_suffix hs).1

include hvars in
theorem ReadsAtom.length_lt {s rest : List Char} {n : Node} (h : ReadsAtom vars nested s n rest) :
    rest.length < s.length := by
  cases h with
  | @var _ v hv =>
    have hmem := List.mem_of_find?_eq_some hv
    have hpre : v <+: s := by simpa using List.find?_some hv
    have hle := hpre.length_le
    have hne : v ≠ [] := fun e => hvars (e ▸ hmem)
    have := List.length_pos_iff.mpr hne
    simp only [List.length_drop]
    omega
  | group h =>
    have := (readClosed_suffix hn h).length_le
    simp only [List.length_cons]
    omega
  | alignMark | symbol => simp
  | command hs h =>
    have := (h.suffix hn).length_le
    have := (command?_suffix hs).2
    omega

theorem readScript_suffix {s rest : List Char} {n : Node}
    (h : readScript vars nested s = .ok (n, rest)) : rest <:+ s := by
  unfold readScript at h
  dsimp only at h
  split at h
  next => exact (readArgument_suffix hn h).trans (skipGap_suffix s)
  next => exact ((readsAtom_of_readAtom h).suffix hn).trans (skipGap_suffix s)

theorem ReadsScripts.suffix {s rest : List Char} {sub sup : Option Node}
    (h : ReadsScripts vars nested s sub sup rest) : rest <:+ s := by
  cases h with
  | none => exact skipGap_suffix s
  | sub hs hscript | sup hs hscript =>
    exact ((skipGap_suffix _).trans (readScript_suffix hn hscript)).trans (suffix_of_skipGap hs)
  | subSup hs hone hr htwo | supSub hs hone hr htwo =>
    have inner := (skipGap_suffix _).trans (readScript_suffix hn htwo)
    have outer := (readScript_suffix hn hone).trans (suffix_of_skipGap hs)
    exact (inner.trans (suffix_of_skipGap hr)).trans outer

theorem readItem_suffix {s rest : List Char} {n : Node}
    (h : readItem vars nested s = .ok (n, rest)) : rest <:+ s := by
  obtain ⟨base, r, sub, sup, hbase, hscripts, -⟩ := readItem_eq_ok.mp h
  have hafter : rest <:+ r := (readsScripts_of_readScripts hscripts).suffix hn
  exact hafter.trans ((readsAtom_of_readAtom hbase).suffix hn)

include hvars in
/-- An item takes at least one character. -/
theorem length_lt_of_readItem {s rest : List Char} {n : Node}
    (h : readItem vars nested s = .ok (n, rest)) : rest.length < s.length := by
  obtain ⟨base, r, sub, sup, hbase, hscripts, -⟩ := readItem_eq_ok.mp h
  have hafter := ((readsScripts_of_readScripts hscripts).suffix hn).length_le
  have hatom := (readsAtom_of_readAtom hbase).length_lt hn hvars
  omega

end

/-- Two readers that do the same on short texts. -/
def AgreeUpTo (k : Nat) (nested nested' : Nested) : Prop :=
  ∀ ⦃stop s⦄, s.length ≤ k → nested stop s = nested' stop s

theorem bind_congr_ok {ε α β : Type} {x y : Except ε α} {f g : α → Except ε β} (hxy : x = y)
    (hfg : ∀ a, x = .ok a → f a = g a) : x >>= f = y >>= g := by
  subst hxy
  cases x with
  | error e => rfl
  | ok a => exact hfg a rfl

section

variable {k : Nat} {nested nested' : Nested} (hagree : AgreeUpTo k nested nested')
  (hn : LeavesSuffix nested)

include hagree

theorem readClosed_congr {s : List Char} (hs : s.length ≤ k) (stop : Stop) (close : Char) :
    readClosed nested stop close s = readClosed nested' stop close s := by
  rw [readClosed, readClosed, hagree hs]

theorem readBraced_congr {s : List Char} (hs : s.length ≤ k) :
    readBraced nested s = readBraced nested' s := by
  refine bind_congr_ok rfl fun r hr => ?_
  have := length_lt_of_skipGap (expect_eq_ok.mp hr)
  exact readClosed_congr hagree (by omega) _ _

theorem readArgument_congr {s : List Char} (hs : s.length ≤ k) :
    readArgument nested s = readArgument nested' s := by
  rw [readArgument, readArgument, readBraced_congr hagree hs]

include hn

theorem readRows_congr {s : List Char} (hs : s.length ≤ k) (bound : Nat) (started : Bool) :
    readRows nested bound started s = readRows nested' bound started s := by
  induction bound generalizing started s with
  | zero => rfl
  | succ bound ih =>
    unfold readRows
    refine bind_congr_ok (hagree hs) ?_
    rintro ⟨items, r⟩ hr
    have hle := (hn hr).length_le
    have step : ∀ j, readRows nested bound true (r.drop j) = readRows nested' bound true (r.drop j) :=
      fun j => ih (by simp only [List.length_drop]; omega) true
    simp only [step]

theorem readCommand_congr {s : List Char} (hs : s.length ≤ k) (name : String) (left : Nat) :
    readCommand nested name left s = readCommand nested' name left s := by
  have argument : ∀ {t r n}, t.length ≤ k → readArgument nested t = .ok (n, r) → r.length ≤ k :=
    fun ht h => (readArgument_suffix hn h).length_le.trans ht
  have naming : ∀ {t r c}, t.length ≤ k → readName t = .ok (c, r) → r.length ≤ k :=
    fun ht h => (readName_suffix h).length_le.trans ht
  unfold readCommand
  split
  next => rfl
  next => rfl
  next => rfl
  next =>
    refine bind_congr_ok rfl ?_
    rintro ⟨id, r⟩ hid
    exact bind_congr_ok (readBraced_congr hagree (naming hs hid)) fun _ _ => rfl
  next =>
    refine bind_congr_ok (readArgument_congr hagree hs) ?_
    rintro ⟨numerator, r⟩ hnum
    exact bind_congr_ok (readArgument_congr hagree (argument hs hnum)) fun _ _ => rfl
  next =>
    have hgap := (skipGap_suffix s).length_le
    split
    next s' hs' =>
      have hlt := length_lt_of_skipGap hs'
      refine bind_congr_ok (readClosed_congr hagree (by omega) _ _) ?_
      rintro ⟨items, r⟩ hr
      have hle := (readClosed_suffix hn hr).length_le
      exact bind_congr_ok (readArgument_congr hagree (by omega)) fun _ _ => rfl
    next => exact bind_congr_ok (readArgument_congr hagree (by omega)) fun _ _ => rfl
  next => rfl
  next =>
    refine bind_congr_ok rfl ?_
    rintro ⟨c, r⟩ hc
    exact bind_congr_ok (readBraced_congr hagree (naming hs hc)) fun _ _ => rfl
  next =>
    refine bind_congr_ok rfl ?_
    rintro ⟨border, r⟩ hborder
    refine bind_congr_ok rfl ?_
    rintro ⟨background, r'⟩ hback
    refine bind_congr_ok rfl fun t ht => ?_
    refine bind_congr_ok rfl fun t' ht' => ?_
    have hle := naming (naming hs hborder) hback
    have hlt := length_lt_of_skipGap (expect_eq_ok.mp ht)
    have hlt' := length_lt_of_skipGap (expect_eq_ok.mp ht')
    exact bind_congr_ok (readClosed_congr hagree (by omega) _ _) fun _ _ => rfl
  next => exact bind_congr_ok (readArgument_congr hagree hs) fun _ _ => rfl
  next => exact bind_congr_ok (readArgument_congr hagree hs) fun _ _ => rfl
  next =>
    refine bind_congr_ok rfl ?_
    rintro ⟨environment, r⟩ hname
    dsimp only
    split
    next =>
      refine bind_congr_ok rfl ?_
      rintro ⟨align, r'⟩ halign
      have hle := naming (naming hs hname) halign
      exact bind_congr_ok (readRows_congr hagree hn hle _ _) fun _ _ => rfl
    next => exact bind_congr_ok (hagree (naming hs hname)) fun _ _ => rfl
    next => rfl
  next => rfl
  next => rfl

theorem readAtom_congr {s : List Char} (hs : s.length ≤ k + 1) (vars : List (List Char)) :
    readAtom vars nested s = readAtom vars nested' s := by
  unfold readAtom
  split
  next => rfl
  next =>
    split
    next => rfl
    next rest =>
      refine bind_congr_ok (readClosed_congr hagree ?_ _ _) fun _ _ => rfl
      simpa using hs
    next => rfl
    next rest =>
      split
      next name after hc =>
        have hlt := (command?_suffix hc).2
        exact readCommand_congr hagree hn (by omega) _ _
      next => rfl
    next => rfl

theorem readScript_congr {s : List Char} (hs : s.length ≤ k) (vars : List (List Char)) :
    readScript vars nested s = readScript vars nested' s := by
  have hgap := (skipGap_suffix s).length_le
  unfold readScript
  dsimp only
  split
  next => exact readArgument_congr hagree (by omega)
  next => exact readAtom_congr hagree hn (by omega) vars

theorem readScripts_congr {s : List Char} (hs : s.length ≤ k) (vars : List (List Char)) :
    readScripts vars nested s = readScripts vars nested' s := by
  have after : ∀ {c t r n}, skipGap s = c :: t → readScript vars nested t = .ok (n, r) →
      ∀ {c' t'}, skipGap r = c' :: t' → t'.length ≤ k := by
    intro c t r n ht hr c' t' ht'
    have hlt := length_lt_of_skipGap ht
    have hle := (readScript_suffix hn hr).length_le
    have hlt' := length_lt_of_skipGap ht'
    omega
  unfold readScripts
  split
  next t ht =>
    have hlt := length_lt_of_skipGap ht
    refine bind_congr_ok (readScript_congr hagree hn (by omega) vars) ?_
    rintro ⟨sub, r⟩ hr
    dsimp only
    split
    next t' ht' =>
      exact bind_congr_ok (readScript_congr hagree hn (after ht hr ht') vars) fun _ _ => rfl
    next => rfl
  next t ht =>
    have hlt := length_lt_of_skipGap ht
    refine bind_congr_ok (readScript_congr hagree hn (by omega) vars) ?_
    rintro ⟨sup, r⟩ hr
    dsimp only
    split
    next t' ht' =>
      exact bind_congr_ok (readScript_congr hagree hn (after ht hr ht') vars) fun _ _ => rfl
    next => rfl
  next => rfl

theorem readItem_congr {vars : List (List Char)} (hvars : [] ∉ vars) {s : List Char}
    (hs : s.length ≤ k + 1) : readItem vars nested s = readItem vars nested' s := by
  refine bind_congr_ok (readAtom_congr hagree hn hs vars) ?_
  rintro ⟨base, r⟩ hr
  have hlt := (readsAtom_of_readAtom hr).length_lt hn hvars
  exact bind_congr_ok (readScripts_congr hagree hn (by omega) vars) fun _ _ => rfl

end

section

variable {vars : List (List Char)}

theorem readSequence_suffix (bound : Nat) : LeavesSuffix (readSequence vars bound) := by
  induction bound with
  | zero =>
    intro stop s items rest h
    cases h
    exact List.suffix_refl s
  | succ bound ih =>
    intro stop s items rest h
    rw [readSequence] at h
    dsimp only at h
    split at h
    next =>
      cases h
      exact skipGap_suffix s
    next =>
      obtain ⟨⟨n, r⟩, hr, h⟩ := bind_eq_ok.mp h
      obtain ⟨⟨ns, t⟩, ht, h⟩ := bind_eq_ok.mp h
      cases h
      have hitem := readItem_suffix ih hr
      exact ((ih ht).trans hitem).trans (skipGap_suffix s)

theorem readSequence_agree (hvars : [] ∉ vars) (k : Nat) {bound : Nat} (hk : k ≤ bound) :
    AgreeUpTo k (readSequence vars k) (readSequence vars bound) := by
  induction k generalizing bound with
  | zero =>
    intro stop s hs
    obtain rfl : s = [] := List.eq_nil_of_length_eq_zero (by omega)
    cases bound with
    | zero => rfl
    | succ bound => simp [readSequence, skipGap]
  | succ k ih =>
    obtain ⟨bound, rfl⟩ : ∃ b, bound = b + 1 := ⟨bound - 1, by omega⟩
    have hagree := @ih bound (by omega)
    intro stop s hs
    have hgap := (skipGap_suffix s).length_le
    rw [readSequence, readSequence]
    dsimp only
    split
    next => rfl
    next =>
      refine bind_congr_ok (readItem_congr hagree (readSequence_suffix k) hvars (by omega)) ?_
      intro ⟨n, r⟩ hr
      have hlt : r.length < _ := length_lt_of_readItem (readSequence_suffix k) hvars hr
      exact bind_congr_ok (hagree (show r.length ≤ k by omega)) fun _ _ => rfl

/-- The reader of siblings, under the bound that a text brings along itself. -/
def siblings (vars : List (List Char)) : Nested :=
  fun stop s => readSequence vars s.length stop s

theorem readSequence_eq_siblings (hvars : [] ∉ vars) {bound : Nat} {stop : Stop} {s : List Char}
    (hs : s.length ≤ bound) : readSequence vars bound stop s = siblings vars stop s := by
  have hagree := readSequence_agree hvars s.length hs
  exact (hagree (Nat.le_refl s.length)).symm

theorem siblings_suffix : LeavesSuffix (siblings vars) :=
  fun _ _ _ _ h => readSequence_suffix _ h

/-- Siblings end at the end of the text and at their stop; otherwise one item is read. -/
theorem siblings_eq (hvars : [] ∉ vars) (stop : Stop) (s : List Char) :
    siblings vars stop s =
      if (skipGap s).isEmpty || stop.holds (skipGap s) then .ok ([], skipGap s)
      else readItem vars (siblings vars) (skipGap s) >>= fun item =>
        siblings vars stop item.2 >>= fun others => .ok (item.1 :: others.1, others.2) := by
  have hagree : AgreeUpTo s.length (readSequence vars s.length) (siblings vars) :=
    fun _ t ht => readSequence_eq_siblings hvars ht
  have hgap := (skipGap_suffix s).length_le
  rw [← readSequence_eq_siblings hvars (Nat.le_succ s.length), readSequence]
  dsimp only
  split
  next => rfl
  next =>
    have hsuffix := @readSequence_suffix vars s.length
    refine bind_congr_ok (readItem_congr hagree hsuffix hvars (by omega)) ?_
    rintro ⟨n, r⟩ hr
    have hlt : r.length < _ := length_lt_of_readItem hsuffix hvars hr
    exact bind_congr_ok (hagree (show r.length ≤ s.length by omega)) fun _ _ => rfl

/-- Siblings that were read: none, or one item and those after it. -/
theorem siblings_eq_ok (hvars : [] ∉ vars) {stop : Stop} {s rest : List Char} {items : List Node} :
    siblings vars stop s = .ok (items, rest) ↔
      ((skipGap s = [] ∨ stop.holds (skipGap s)) ∧ items = [] ∧ rest = skipGap s) ∨
      (skipGap s ≠ [] ∧ stop.holds (skipGap s) = false ∧ ∃ n ns r, items = n :: ns ∧
        readItem vars (siblings vars) (skipGap s) = .ok (n, r) ∧
        siblings vars stop r = .ok (ns, rest)) := by
  rw [siblings_eq hvars]
  by_cases hstop : (skipGap s).isEmpty || stop.holds (skipGap s)
  · rw [if_pos hstop]
    have hor : skipGap s = [] ∨ stop.holds (skipGap s) = true := by simpa using hstop
    constructor
    · intro h
      cases h
      exact .inl ⟨hor, rfl, rfl⟩
    · rintro (⟨-, rfl, rfl⟩ | ⟨hne, hnot, -⟩)
      · rfl
      · simp [hne, hnot] at hor
  · rw [if_neg hstop]
    have hnot : skipGap s ≠ [] ∧ stop.holds (skipGap s) = false := by simpa using hstop
    constructor
    · intro h
      obtain ⟨⟨n, r⟩, hr, h⟩ := bind_eq_ok.mp h
      obtain ⟨⟨ns, t⟩, ht, h⟩ := bind_eq_ok.mp h
      cases h
      exact .inr ⟨hnot.1, hnot.2, n, ns, r, rfl, hr, ht⟩
    · rintro (⟨hor, -, -⟩ | ⟨-, -, n, ns, r, rfl, hr, ht⟩)
      · simp [hnot] at hor
      · exact bind_eq_ok.mpr ⟨_, hr, bind_eq_ok.mpr ⟨_, ht, rfl⟩⟩

/-- Induction on what siblings are read from. What stands inside an item is read as siblings too, of
which the property holds already. -/
theorem siblings_induct (hvars : [] ∉ vars) {P : Stop → List Char → List Node → List Char → Prop}
    (hstop : ∀ stop s, skipGap s = [] ∨ stop.holds (skipGap s) → P stop s [] (skipGap s))
    (hitem : ∀ nested, (∀ ⦃stop s items rest⦄, nested stop s = .ok (items, rest) →
        siblings vars stop s = .ok (items, rest) ∧ P stop s items rest) →
      ∀ ⦃stop s n r ns rest⦄, skipGap s ≠ [] → stop.holds (skipGap s) = false →
        readItem vars nested (skipGap s) = .ok (n, r) → siblings vars stop r = .ok (ns, rest) →
        P stop r ns rest → P stop s (n :: ns) rest)
    {stop : Stop} {s rest : List Char} {items : List Node}
    (h : siblings vars stop s = .ok (items, rest)) : P stop s items rest := by
  induction hk : s.length using Nat.strong_induction_on generalizing stop s items rest with
  | _ k ih =>
    rcases (siblings_eq_ok hvars).mp h with ⟨hend, rfl, rfl⟩ | ⟨hne, hnot, n, ns, r, rfl, hr, hrest⟩
    · exact hstop stop s hend
    -- the reader of siblings, on shorter texts alone
    let shorter : Nested := fun stop' t =>
      if t.length < (skipGap s).length then siblings vars stop' t else failAt t .unterminatedGroup
    have hshorter : ∀ {stop' t ms u}, shorter stop' t = .ok (ms, u) →
        t.length < (skipGap s).length ∧ siblings vars stop' t = .ok (ms, u) := by
      intro stop' t ms u ht
      by_cases hlt : t.length < (skipGap s).length
      · exact ⟨hlt, by simpa only [shorter, if_pos hlt] using ht⟩
      · simp only [shorter, if_neg hlt] at ht
        exact absurd ht failAt_ne_ok
    have hagree : AgreeUpTo ((skipGap s).length - 1) (siblings vars) shorter := by
      intro stop' t ht
      have hpos := List.length_pos_iff.mpr hne
      exact (if_pos (by omega)).symm
    have hgap := (skipGap_suffix s).length_le
    have hlt := length_lt_of_readItem siblings_suffix hvars hr
    rw [readItem_congr hagree siblings_suffix hvars (by omega)] at hr
    refine hitem shorter ?_ hne hnot hr hrest (ih r.length (by omega) hrest rfl)
    intro stop' t ms u ht
    obtain ⟨hshort, ht⟩ := hshorter ht
    exact ⟨ht, ih t.length (by omega) ht rfl⟩

/-- Where siblings end there is no text left, or a stop with no blank in front of it. -/
theorem siblings_rest (hvars : [] ∉ vars) {stop : Stop} {s rest : List Char} {items : List Node}
    (h : siblings vars stop s = .ok (items, rest)) :
    skipGap rest = rest ∧ (rest = [] ∨ stop.holds rest) := by
  refine siblings_induct hvars
    (P := fun stop _ _ rest => skipGap rest = rest ∧ (rest = [] ∨ stop.holds rest)) ?_ ?_ h
  · exact fun stop s hend => ⟨skipGap_idem s, hend⟩
  · exact fun _ _ _ _ _ _ _ _ _ _ _ _ ih => ih

end

end FormulaDoc
