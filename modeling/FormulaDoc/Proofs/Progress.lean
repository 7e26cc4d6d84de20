import FormulaDoc.Parse
import FormulaDoc.Proofs.Siblings

namespace FormulaDoc

/-- A loop that ends on every input: the equation of one round has no other solution. An endless run
would leave open what comes of it. -/
def Terminates {α : Type} (round : α → α) (loop : α) : Prop :=
  ∀ loop', loop' = round loop' ↔ loop' = loop

/-- One round of the loop over siblings: their end, or an item and then the rest of the loop, which also
reads what stands inside the item. -/
def siblingsRound (vars : List (List Char)) (loop : Nested) : Nested := fun stop s =>
  if (skipGap s).isEmpty || stop.holds (skipGap s) then .ok ([], skipGap s)
  else readItem vars loop (skipGap s) >>= fun item =>
    loop stop item.2 >>= fun others => .ok (item.1 :: others.1, others.2)

/-- A loop over the cells of an array. -/
abbrev RowLoop := Bool → List Char → Except Fault (List (List Node) × List Char)

/-- One round of the loop over the cells of an array: a cell with what ends it, and then the rest of the
loop. -/
def rowsRound (nested : Nested) (loop : RowLoop) : RowLoop := fun started s => do
  let (items, s) ← nested .cell s
  if s.head? = some '&' then
    let (rows, s) ← loop true (s.drop 1)
    .ok (consCell (collapse items) rows, s)
  else if startsCommand "\\\\" s then
    let (rows, s) ← loop true (s.drop 2)
    .ok ([collapse items] :: rows, s)
  else if startsCommand "\\end" s then
    .ok (if started || !items.isEmpty then [[collapse items]] else [], s)
  else failAt s .unterminatedArray

/-- A loop over the characters of a verbatim group, under a number of open braces. -/
abbrev GroupLoop := Nat → List Char → Option (List Char × List Char)

/-- One round of the loop over the characters of a verbatim group: a character, or two after a backslash,
and then the rest of the loop. -/
def groupRound (loop : GroupLoop) : GroupLoop
  | _, [] => none
  | depth, '\\' :: c :: rest => (loop depth rest).map fun (body, after) => ('\\' :: c :: body, after)
  | depth, '{' :: rest => (loop (depth + 1) rest).map fun (body, after) => ('{' :: body, after)
  | 0, '}' :: rest => some ([], rest)
  | depth + 1, '}' :: rest => (loop depth rest).map fun (body, after) => ('}' :: body, after)
  | depth, c :: rest => (loop depth rest).map fun (body, after) => (c :: body, after)

section

variable {ι β : Type} {round : (ι → List Char → β) → ι → List Char → β} {loop : ι → List Char → β}

/-- A loop whose further rounds are on shorter texts ends. -/
theorem terminates_of_shorter (hloop : loop = round loop)
    (hround : ∀ loop' i s, (∀ j (t : List Char), t.length < s.length → loop j t = loop' j t) →
      round loop i s = round loop' i s) : Terminates round loop := by
  intro loop'
  constructor
  · intro h
    have hsame : ∀ k i s, s.length = k → loop i s = loop' i s := by
      intro k
      induction k using Nat.strong_induction_on with
      | _ k ih =>
        rintro i s rfl
        rw [hloop, h]
        exact hround loop' i s fun j t ht => ih t.length ht j t rfl
    funext i s
    exact (hsame s.length i s rfl).symm
  · rintro rfl
    exact hloop

end

theorem terminates_siblings {vars : List (List Char)} (hvars : [] ∉ vars) :
    Terminates (siblingsRound vars) (siblings vars) := by
  refine terminates_of_shorter (by funext stop s; exact siblings_eq hvars stop s) ?_
  intro loop stop s h
  have hgap := (skipGap_suffix s).length_le
  unfold siblingsRound
  split
  next => rfl
  next hgo =>
    have hpos : 0 < (skipGap s).length := by
      rw [List.length_pos_iff]
      rintro hnil
      simp [hnil] at hgo
    have hagree : AgreeUpTo (s.length - 1) (siblings vars) loop := fun stop t ht => h stop t (by omega)
    refine bind_congr_ok (readItem_congr hagree siblings_suffix hvars (by omega)) ?_
    intro ⟨n, r⟩ hr
    have hlt : r.length < _ := length_lt_of_readItem siblings_suffix hvars hr
    exact bind_congr_ok (h stop r (by omega)) fun _ _ => rfl

/-- The loop over the cells of an array, under the bound that a text brings along itself. -/
def arrayRows (nested : Nested) : RowLoop := fun started s =>
  readRows nested (s.length + 1) started s

section

variable {nested : Nested} (hn : LeavesSuffix nested) {s : List Char} (started : Bool)

include hn

theorem rowsRound_congr {loop loop' : RowLoop}
    (h : ∀ started (t : List Char), t.length < s.length → loop started t = loop' started t) :
    rowsRound nested loop started s = rowsRound nested loop' started s := by
  refine bind_congr_ok rfl ?_
  rintro ⟨items, r⟩ hr
  have hle := (hn hr).length_le
  have hnext : ∀ j, 0 < j → r ≠ [] → loop true (r.drop j) = loop' true (r.drop j) := by
    intro j hj hne
    have hpos := List.length_pos_iff.mpr hne
    exact h true _ (by simp only [List.length_drop]; omega)
  dsimp only
  split
  next hmark =>
    rw [hnext 1 (by omega) (by rintro rfl; cases hmark)]
  next =>
    split
    next hline =>
      obtain ⟨c, t, hslash, -⟩ := exists_of_startsCommand hline
      rw [hnext 2 (by omega) (by simp [hslash])]
    next => rfl

/-- A bound that is longer than the text is never reached. -/
theorem readRows_eq_arrayRows {bound : Nat} (h : s.length < bound) :
    readRows nested bound started s = arrayRows nested started s := by
  have hsame : ∀ k started (s : List Char), s.length = k → ∀ bound bound', k < bound → k < bound' →
      readRows nested bound started s = readRows nested bound' started s := by
    intro k
    induction k using Nat.strong_induction_on with
    | _ k ih =>
      rintro started s rfl bound bound' hb hb'
      obtain ⟨bound, rfl⟩ : ∃ b, bound = b + 1 := ⟨bound - 1, by omega⟩
      obtain ⟨bound', rfl⟩ : ∃ b, bound' = b + 1 := ⟨bound' - 1, by omega⟩
      exact rowsRound_congr hn started fun started t ht =>
        ih t.length ht started t rfl bound bound' (by omega) (by omega)
  exact hsame s.length started s rfl bound (s.length + 1) h (Nat.lt_succ_self _)

omit started

theorem terminates_arrayRows : Terminates (rowsRound nested) (arrayRows nested) := by
  refine terminates_of_shorter ?_ fun loop started s h => rowsRound_congr hn started h
  funext started s
  exact rowsRound_congr hn started fun started t ht => readRows_eq_arrayRows hn started ht

end

theorem terminates_closeGroup : Terminates groupRound closeGroup := by
  refine terminates_of_shorter ?_ ?_
  · funext depth s
    rw [closeGroup.eq_def]
    rfl
  · intro loop depth s h
    unfold groupRound
    split
    next => rfl
    next => rw [h _ _ (by simp only [List.length_cons]; omega)]
    next => rw [h _ _ (Nat.lt_succ_self _)]
    next => rfl
    next => rw [h _ _ (Nat.lt_succ_self _)]
    next => rw [h _ _ (Nat.lt_succ_self _)]

/-- A reading whose fault, if it has one, was noticed with at most so many characters left. -/
def FaultWithin {α : Type} (k : Nat) (x : Except Fault α) : Prop :=
  ∀ e, x = .error e → e.left ≤ k

section

variable {α β : Type} {x : Except Fault α} {f : α → Except Fault β} {s : List Char} {k : Nat}

theorem faultWithin_ok (a : α) : FaultWithin k (.ok a) :=
  fun _ h => nomatch h

theorem faultWithin_error {e : Fault} (h : e.left ≤ k) : FaultWithin (α := α) k (.error e) := by
  rintro _ ⟨⟩
  exact h

theorem faultWithin_failAt (h : s.length ≤ k) (cause : Cause) :
    FaultWithin k (failAt s cause : Except Fault α) :=
  faultWithin_error h

theorem FaultWithin.bind (hx : FaultWithin k x) (hf : ∀ a, x = .ok a → FaultWithin k (f a)) :
    FaultWithin k (x >>= f) := by
  cases x with
  | error e => exact faultWithin_error (hx e rfl)
  | ok a => exact hf a rfl

theorem faultWithin_expect (h : s.length ≤ k) (c : Char) : FaultWithin k (expect c s) := by
  have hgap := (skipGap_suffix s).length_le
  unfold expect
  split
  next d rest hs =>
    rw [hs] at hgap
    split
    next => exact faultWithin_ok _
    next => exact faultWithin_failAt (by omega) _
  next => exact faultWithin_failAt (Nat.zero_le k) _

theorem faultWithin_rawGroup (h : s.length ≤ k) : FaultWithin k (rawGroup s) := by
  refine (faultWithin_expect h '{').bind fun rest hrest => ?_
  have hlt := length_lt_of_skipGap (expect_eq_ok.mp hrest)
  split
  next => exact faultWithin_ok _
  next => exact faultWithin_failAt (by simp only [List.length_cons]; omega) _

theorem faultWithin_readName (h : s.length ≤ k) : FaultWithin k (readName s) :=
  (faultWithin_rawGroup h).bind fun _ _ => faultWithin_ok _

theorem faultWithin_readEnd (h : s.length ≤ k) (name : String) : FaultWithin k (readEnd name s) := by
  have hgap := (skipGap_suffix s).length_le
  unfold readEnd
  dsimp only
  split
  next =>
    have hdrop : ((skipGap s).drop 4).length ≤ k := by simp only [List.length_drop]; omega
    refine (faultWithin_readName hdrop).bind ?_
    rintro ⟨found, r⟩ hr
    have hle := (readName_suffix hr).length_le
    dsimp only
    split
    next => exact faultWithin_ok _
    next => exact faultWithin_failAt (by omega) _
  next => exact faultWithin_failAt (by omega) _

end

/-- A reader of siblings whose faults are noticed in its text. -/
def FaultsWithin (nested : Nested) : Prop :=
  ∀ ⦃k stop s⦄, s.length ≤ k → FaultWithin k (nested stop s)

section

variable {nested : Nested} (hf : FaultsWithin nested) (hn : LeavesSuffix nested) {s : List Char}
  {k : Nat} (h : s.length ≤ k)

include hf h

theorem faultWithin_readClosed (hn : LeavesSuffix nested) (stop : Stop) (close : Char) :
    FaultWithin k (readClosed nested stop close s) := by
  refine (hf h).bind ?_
  rintro ⟨items, r⟩ hr
  have hle := (hn hr).length_le
  exact (faultWithin_expect (by omega) close).bind fun _ _ => faultWithin_ok _

include hn

theorem faultWithin_readBraced : FaultWithin k (readBraced nested s) := by
  refine (faultWithin_expect h '{').bind fun r hr => ?_
  have hlt := length_lt_of_skipGap (expect_eq_ok.mp hr)
  exact faultWithin_readClosed hf (by omega) hn .brace '}'

theorem faultWithin_readArgument : FaultWithin k (readArgument nested s) := by
  refine (faultWithin_readBraced hf hn h).bind ?_
  rintro ⟨items, r⟩ _
  exact faultWithin_ok _

theorem faultWithin_readRows (bound : Nat) (started : Bool) :
    FaultWithin k (readRows nested bound started s) := by
  induction bound generalizing s started with
  | zero => exact faultWithin_failAt h _
  | succ bound ih =>
    unfold readRows
    refine (hf h).bind ?_
    rintro ⟨items, r⟩ hr
    have hle := (hn hr).length_le
    have hdrop : ∀ j, (r.drop j).length ≤ k := fun j => by simp only [List.length_drop]; omega
    dsimp only
    split
    next => exact (ih (hdrop 1) true).bind fun _ _ => faultWithin_ok _
    next =>
      split
      next => exact (ih (hdrop 2) true).bind fun _ _ => faultWithin_ok _
      next =>
        split
        next => exact faultWithin_ok _
        next => exact faultWithin_failAt (by omega) _

theorem faultWithin_readCommand {left : Nat} (hleft : left ≤ k) (name : String) :
    FaultWithin k (readCommand nested name left s) := by
  have hgap := (skipGap_suffix s).length_le
  have naming : ∀ {t r c}, t.length ≤ k → readName t = .ok (c, r) → r.length ≤ k :=
    fun ht h => (readName_suffix h).length_le.trans ht
  unfold readCommand
  split
  next => exact faultWithin_ok _
  next => exact faultWithin_ok _
  next =>
    dsimp only
    split <;> exact faultWithin_ok _
  next =>
    refine (faultWithin_readName h).bind ?_
    rintro ⟨id, r⟩ hid
    refine (faultWithin_readBraced hf hn (naming h hid)).bind ?_
    rintro ⟨items, t⟩ _
    dsimp only
    split
    next =>
      split
      next => exact faultWithin_ok _
      next => exact faultWithin_error hleft
    next => exact faultWithin_error hleft
  next =>
    refine (faultWithin_readArgument hf hn h).bind ?_
    rintro ⟨numerator, r⟩ hr
    have hle := (readArgument_suffix hn hr).length_le
    exact (faultWithin_readArgument hf hn (by omega)).bind fun _ _ => faultWithin_ok _
  next =>
    split
    next s' hs =>
      have hlt := length_lt_of_skipGap hs
      refine (faultWithin_readClosed hf (by omega) hn _ _).bind ?_
      rintro ⟨items, r⟩ hr
      have hle := (readClosed_suffix hn hr).length_le
      exact (faultWithin_readArgument hf hn (by omega)).bind fun _ _ => faultWithin_ok _
    next => exact (faultWithin_readArgument hf hn (by omega)).bind fun _ _ => faultWithin_ok _
  next => exact (faultWithin_rawGroup h).bind fun _ _ => faultWithin_ok _
  next =>
    refine (faultWithin_readName h).bind ?_
    rintro ⟨c, r⟩ hc
    exact (faultWithin_readBraced hf hn (naming h hc)).bind fun _ _ => faultWithin_ok _
  next =>
    refine (faultWithin_readName h).bind ?_
    rintro ⟨border, r⟩ hborder
    refine (faultWithin_readName (naming h hborder)).bind ?_
    rintro ⟨background, r'⟩ hback
    have hle := naming (naming h hborder) hback
    refine (faultWithin_expect hle _).bind fun t ht => ?_
    have hlt := length_lt_of_skipGap (expect_eq_ok.mp ht)
    refine (faultWithin_expect (by omega) _).bind fun t' ht' => ?_
    have hlt' := length_lt_of_skipGap (expect_eq_ok.mp ht')
    refine (faultWithin_readClosed hf (by omega) hn _ _).bind ?_
    rintro ⟨items, u⟩ hu
    have hle' := (readClosed_suffix hn hu).length_le
    exact (faultWithin_expect (by omega) _).bind fun _ _ => faultWithin_ok _
  next => exact (faultWithin_readArgument hf hn h).bind fun _ _ => faultWithin_ok _
  next => exact (faultWithin_readArgument hf hn h).bind fun _ _ => faultWithin_ok _
  next =>
    refine (faultWithin_readName h).bind ?_
    rintro ⟨environment, r⟩ hname
    have hr := naming h hname
    dsimp only
    split
    next =>
      refine (faultWithin_readName hr).bind ?_
      rintro ⟨align, r'⟩ halign
      have hr' := naming hr halign
      refine (faultWithin_readRows hf hn hr' _ _).bind ?_
      rintro ⟨rows, t⟩ ht
      have hle := ((readRows_eq_ok.mp ht).suffix hn).length_le
      exact (faultWithin_readEnd (show t.length ≤ k by omega) _).bind fun _ _ => faultWithin_ok _
    next =>
      refine (hf hr).bind ?_
      rintro ⟨cells, t⟩ ht
      have hle := (hn ht).length_le
      exact (faultWithin_readEnd (show t.length ≤ k by omega) _).bind fun _ _ => faultWithin_ok _
    next => exact faultWithin_error hleft
  next => exact faultWithin_error hleft
  next => exact faultWithin_ok _

variable (vars : List (List Char))

theorem faultWithin_readAtom : FaultWithin k (readAtom vars nested s) := by
  unfold readAtom
  split
  next => exact faultWithin_ok _
  next =>
    split
    next => exact faultWithin_failAt h _
    next rest =>
      rw [List.length_cons] at h
      exact (faultWithin_readClosed hf (by omega) hn _ _).bind fun _ _ => faultWithin_ok _
    next => exact faultWithin_ok _
    next rest =>
      split
      next name after hc =>
        have hlt := (command?_suffix hc).2
        exact faultWithin_readCommand hf hn (by omega) h _
      next => exact faultWithin_failAt h _
    next =>
      split
      next => exact faultWithin_failAt h _
      next => exact faultWithin_ok _

theorem faultWithin_readScript : FaultWithin k (readScript vars nested s) := by
  have hgap := (skipGap_suffix s).length_le
  unfold readScript
  dsimp only
  split
  next => exact faultWithin_readArgument hf hn (by omega)
  next => exact faultWithin_readAtom hf hn (by omega) vars

theorem faultWithin_readScripts : FaultWithin k (readScripts vars nested s) := by
  -- a second script follows the first one and another mark
  have after : ∀ {c t r n}, skipGap s = c :: t → readScript vars nested t = .ok (n, r) →
      ∀ {c' t'}, skipGap r = c' :: t' → t'.length ≤ k := by
    intro c t r n ht hr c' t' ht'
    have hlt := length_lt_of_skipGap ht
    have hle := (readScript_suffix hn hr).length_le
    have hlt' := length_lt_of_skipGap ht'
    omega
  unfold readScripts
  split
  next t ht =>
    have hlt := length_lt_of_skipGap ht
    refine (faultWithin_readScript hf hn (by omega) vars).bind ?_
    rintro ⟨sub, r⟩ hr
    dsimp only
    split
    next t' ht' =>
      exact (faultWithin_readScript hf hn (after ht hr ht') vars).bind fun _ _ => faultWithin_ok _
    next => exact faultWithin_ok _
  next t ht =>
    have hlt := length_lt_of_skipGap ht
    refine (faultWithin_readScript hf hn (by omega) vars).bind ?_
    rintro ⟨sup, r⟩ hr
    dsimp only
    split
    next t' ht' =>
      exact (faultWithin_readScript hf hn (after ht hr ht') vars).bind fun _ _ => faultWithin_ok _
    next => exact faultWithin_ok _
  next => exact faultWithin_ok _

theorem faultWithin_readItem : FaultWithin k (readItem vars nested s) := by
  refine (faultWithin_readAtom hf hn h vars).bind ?_
  rintro ⟨base, r⟩ hr
  have hle := ((readsAtom_of_readAtom hr).suffix hn).length_le
  refine (faultWithin_readScripts hf hn (by omega) vars).bind ?_
  rintro ⟨⟨sub, sup⟩, t⟩ _
  exact faultWithin_ok _

end

theorem faultsWithin_readSequence (vars : List (List Char)) (bound : Nat) :
    FaultsWithin (readSequence vars bound) := by
  induction bound with
  | zero => exact fun k stop s _ => faultWithin_ok _
  | succ bound ih =>
    intro k stop s h
    have hgap := (skipGap_suffix s).length_le
    have hsuffix := @readSequence_suffix vars bound
    rw [readSequence]
    dsimp only
    split
    next => exact faultWithin_ok _
    next =>
      refine (faultWithin_readItem ih hsuffix (by omega) vars).bind ?_
      rintro ⟨n, r⟩ hr
      have hle := (readItem_suffix hsuffix hr).length_le
      exact (ih (show r.length ≤ k by omega)).bind fun _ _ => faultWithin_ok _

theorem nil_not_mem_variableOrder {vars : List String} (h : "" ∉ vars) : [] ∉ variableOrder vars := by
  intro hmem
  rw [variableOrder, List.mem_mergeSort, List.mem_map] at hmem
  obtain ⟨v, hv, hempty⟩ := hmem
  obtain rfl : v = "" := String.toList_inj.mp hempty
  exact h (List.mem_eraseDups.mp hv)

theorem faultWithin_readNodes (vars : List String) (text : String) :
    FaultWithin text.length (readNodes vars text) := by
  intro fault hfault
  rw [readNodes] at hfault
  cases hread : readSequence ((variableOrder vars).filter (!·.isEmpty)) text.toList.length .never
      text.toList with
  | ok reading => simp [hread, Except.map] at hfault
  | error e =>
    simp only [hread, Except.map, Except.error.injEq] at hfault
    rw [← hfault, ← String.length_toList]
    exact faultsWithin_readSequence _ _ (Nat.le_refl _) e hread

/-- The reader makes progress and stays within its text. An item that is read takes at least one
character and leaves an end of the text. The loops over siblings, over the cells of an array and over the
characters of a verbatim group end, whatever the text, so that the bound under which siblings are read is
never reached. A text that is refused for another reason than a shared id is refused at a place in it. -/
theorem Formula.parse_progresses (vars : List String) (hvars : "" ∉ vars) :
    (∀ bound s n rest,
      readItem (variableOrder vars) (readSequence (variableOrder vars) bound) s = .ok (n, rest) →
        ∃ taken, taken ≠ [] ∧ s = taken ++ rest) ∧
    (∀ bound stop s, s.length ≤ bound →
      readSequence (variableOrder vars) bound stop s = siblings (variableOrder vars) stop s) ∧
    Terminates (siblingsRound (variableOrder vars)) (siblings (variableOrder vars)) ∧
    Terminates (rowsRound (siblings (variableOrder vars))) (arrayRows (siblings (variableOrder vars))) ∧
    Terminates groupRound closeGroup ∧
    ∀ text cause offset, Formula.parse vars text = .error (.fault cause offset) →
      ∃ left, readNodes vars text = .error ⟨cause, left⟩ ∧ offset + left = text.length := by
  have hnil := nil_not_mem_variableOrder hvars
  refine ⟨?_, ?_, terminates_siblings hnil, terminates_arrayRows siblings_suffix, terminates_closeGroup, ?_⟩
  · intro bound s n rest h
    have hlt : rest.length < s.length := length_lt_of_readItem (readSequence_suffix bound) hnil h
    obtain ⟨taken, rfl⟩ := readItem_suffix (readSequence_suffix bound) h
    refine ⟨taken, ?_, rfl⟩
    rintro rfl
    simp at hlt
  · intro bound stop s hbound
    exact readSequence_eq_siblings hnil hbound
  · intro text cause offset h
    unfold Formula.parse at h
    split at h
    next fault hfault =>
      have hleft := faultWithin_readNodes vars text fault hfault
      cases h
      exact ⟨fault.left, hfault, by omega⟩
    next =>
      split at h <;> cases h

theorem Formula.parse_progresses_of_variable :
    "" ∉ ["xy"] ∧
      Terminates (siblingsRound (variableOrder ["xy"])) (siblings (variableOrder ["xy"])) ∧
      ∀ text cause offset, Formula.parse ["xy"] text = .error (.fault cause offset) →
        ∃ left, readNodes ["xy"] text = .error ⟨cause, left⟩ ∧ offset + left = text.length := by
  have hvars : "" ∉ ["xy"] := by decide
  obtain ⟨-, -, hsiblings, -, -, hfaults⟩ := Formula.parse_progresses ["xy"] hvars
  exact ⟨hvars, hsiblings, hfaults⟩

end FormulaDoc
