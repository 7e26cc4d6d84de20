import FormulaDoc.Proofs.Restyling
import FormulaDoc.Proofs.Supply
import Mathlib.Data.List.Flatten

namespace FormulaDoc

/-- A style command with the attributes it is given. -/
inductive Styling where
  | color (color : String)
  | box (border background : String)
  | strike
  | brace (above : Bool) (caption : String)

namespace Node

/-- A brace with its caption turned round. -/
def turn (above : Bool) : Node → Node
  | script id base sub sup => captioned id base above (sup <|> sub)
  | brace id _ body => brace id above body
  | n => n

/-- Whether a node is a script around a selected brace. -/
def captionsSelected (selected : List String) : Node → Bool
  | script _ base _ _ => braceSelected selected base
  | _ => false

end Node

namespace Styling

/-- The kind of the carriers that a command puts around its targets. -/
def kind : Styling → Kind
  | color _ => .color
  | box .. => .box
  | strike => .strike
  | brace .. => .brace

def apply (s : Styling) (f : Formula) (runs : List (List String)) : Minting Edited :=
  match s with
  | color c => applyColor f runs c
  | box border background => applyBox f runs border background
  | strike => applyStrike f runs
  | brace above caption => applyBrace f runs above caption

def visit : Styling → Formula → List String → Node → Minting (Option Node)
  | color c => colorTarget c
  | box border background => boxTarget border background
  | strike => strikeTarget
  | brace above caption => braceTarget above (symbolsOf caption)

theorem apply_eq (s : Styling) (f : Formula) (runs : List (List String)) :
    s.apply f runs = restyle s.visit f runs := by
  cases s <;> rfl

/-- Whether a node is a carrier with the attributes that a command asks for. -/
def Carries (s : Styling) (n : Node) : Prop :=
  match s, n with
  | color c, .color _ c' _ => c' = c
  | box border background, .box _ border' _ background' => border' = border ∧ background' = background
  | strike, .strike .. => True
  | brace above _, .brace _ above' _ => above' = above
  | _, _ => False

/-- Whether a command changes a node instead of wrapping it. -/
def finds (s : Styling) (selected : List String) (b : Node) : Bool :=
  b.kind = s.kind && b.touchedBy selected || s.kind = .brace && b.captionsSelected selected

def change : Styling → Node → Node
  | color c => Node.recolor c
  | box border background => Node.rebox border background
  | strike => id
  | brace above _ => Node.turn above

/-- A new carrier around a node. -/
def carrier : Styling → String → Node → Node
  | color c, id, b => .color id c [b]
  | box border background, id, b => .box id border b background
  | strike, id, b => .strike id b
  | brace above _, id, b => .brace id above b

/-- A text of symbols; its own id is the last one given, as it is drawn first. -/
def label (caption : String) (ids : List String) : Node :=
  .text (ids.getLastD "") (List.zipWith Node.withId ids.dropLast.reverse (symbolsOf caption))

/-- What a command puts around a node with the ids that it draws, the newest first: the carrier, which
takes the newest, and around a brace the script with its caption. -/
def wrapper (s : Styling) (new : List String) (b : Node) : Node :=
  match s with
  | brace above caption =>
    captioned (new.getD 1 "") (s.carrier (new.headD "") b) above (some (label caption (new.drop 2)))
  | _ => s.carrier (new.headD "") b

/-- The number of ids that a wrapper takes. -/
def cost : Styling → Nat
  | brace _ caption => caption.toList.length + 3
  | _ => 1

/-- Whether a command puts a node in a new carrier, unless it finds one there. -/
def wraps (s : Styling) (c : Formula) (selected : List String) (b : Node) : Bool :=
  b.selectedIn selected && !c.parentIs s.kind b

def make (s : Styling) (c : Formula) (selected new : List String) (b : Node) : Node :=
  if s.finds selected b then s.change b
  else if s.wraps c selected b then s.wrapper new b else b

def count (s : Styling) (c : Formula) (selected : List String) (b : Node) : Nat :=
  if s.finds selected b then 0 else if s.wraps c selected b then s.cost else 0

variable {s : Styling} {c : Formula} {selected new : List String} {b : Node}

theorem id?_change (s : Styling) (b : Node) : (s.change b).id? = b.id? := by
  cases s with
  | color col => exact (Node.repaints_recolor col).id? b
  | box border background => exact (Node.repaints_rebox border background).id? b
  | strike => rfl
  | brace above _ => cases b <;> cases above <;> rfl

theorem kind_change (s : Styling) (b : Node) : (s.change b).kind = b.kind := by
  cases s with
  | color col => exact (Node.repaints_recolor col).kind b
  | box border background => exact (Node.repaints_rebox border background).kind b
  | strike => rfl
  | brace above _ => cases b <;> cases above <;> rfl

/-- A carrier that is changed keeps its children. -/
theorem children_change (h : b.kind = s.kind) : (s.change b).children = b.children := by
  cases s with
  | color col => exact (Node.repaints_recolor col).children b
  | box border background => exact (Node.repaints_rebox border background).children b
  | strike => rfl
  | brace above _ =>
    cases b with
    | brace => rfl
    | _ => cases h

theorem carries_change (h : b.kind = s.kind) : s.Carries (s.change b) := by
  cases s with
  | color => cases b <;> first | rfl | cases h
  | box => cases b <;> first | exact ⟨rfl, rfl⟩ | cases h
  | strike => cases b <;> first | exact trivial | cases h
  | brace => cases b <;> first | rfl | cases h

theorem carries_carrier (s : Styling) (id : String) (b : Node) : s.Carries (s.carrier id b) := by
  cases s <;> first | rfl | exact ⟨rfl, rfl⟩ | trivial

theorem id?_carrier (s : Styling) (id : String) (b : Node) : (s.carrier id b).id? = some id := by
  cases s <;> rfl

theorem children_carrier (s : Styling) (id : String) (b : Node) :
    (s.carrier id b).children = [b] := by
  cases s <;> rfl

theorem children_captioned (id : String) (base : Node) (above : Bool) (caption : Option Node) :
    (captioned id base above caption).children = base :: caption.toList := by
  cases above <;> cases caption <;> rfl

theorem id?_captioned (id : String) (base : Node) (above : Bool) (caption : Option Node) :
    (captioned id base above caption).id? = some id := by
  cases above <;> rfl

theorem kind_captioned (id : String) (base : Node) (above : Bool) (caption : Option Node) :
    (captioned id base above caption).kind = .script := by
  cases above <;> rfl

/-- What is in the carrier is in the wrapper. -/
theorem mem_preorder_wrapper {n : Node} (h : n ∈ (s.carrier (new.headD "") b).preorder) :
    n ∈ (s.wrapper new b).preorder := by
  cases s with
  | brace above caption =>
    refine Node.mem_preorder_of_child ?_ h
    rw [wrapper, children_captioned]
    exact List.mem_cons_self
  | _ => exact h

theorem flatMap_ids_symbols (ids : List String) (cs : List Char) (h : ids.length = cs.length) :
    (List.zipWith Node.withId ids
      (cs.map fun c => .symbol "" (String.singleton c))).flatMap Node.ids = ids := by
  induction cs generalizing ids with
  | nil =>
    rw [List.eq_nil_of_length_eq_zero h]
    rfl
  | cons c cs ih =>
    obtain ⟨id, ids, rfl⟩ := List.exists_cons_of_length_eq_add_one h
    rw [List.map_cons, List.zipWith_cons_cons, List.flatMap_cons, ih ids (Nat.succ.inj h),
      Node.ids_eq]
    rfl

theorem ids_label {caption : String} {ids : List String} (h : ids.length = caption.toList.length + 1) :
    (label caption ids).ids.Perm ids := by
  obtain ⟨text, letters, rfl⟩ : ∃ text letters, ids = letters ++ [text] := by
    rcases List.eq_nil_or_concat ids with rfl | ⟨letters, text, rfl⟩
    · cases h
    · exact ⟨text, letters, List.concat_eq_append⟩
  have hlength : letters.reverse.length = caption.toList.length := by
    simpa using h
  have hletters := (List.Perm.of_eq (flatMap_ids_symbols _ _ hlength)).trans (List.reverse_perm letters)
  rw [label, List.getLastD_concat, List.dropLast_concat, Node.ids_eq]
  exact (hletters.cons text).trans (List.perm_append_singleton text letters).symm

theorem ids_wrapper (h : new.length = s.cost) : (s.wrapper new b).ids.Perm (new ++ b.ids) := by
  have hcarrier : ∀ id, (s.carrier id b).ids = id :: b.ids := by
    intro id
    rw [Node.ids_eq, id?_carrier, children_carrier, List.flatMap_singleton]
    rfl
  cases s with
  | brace above caption =>
    obtain ⟨id, script, ids, rfl⟩ : ∃ id script ids, new = id :: script :: ids := by
      match new, h with
      | id :: script :: ids, _ => exact ⟨id, script, ids, rfl⟩
    have hlabel : (label caption ids).ids.Perm ids := ids_label (by simpa [cost] using h)
    have hswap : (b.ids ++ (label caption ids).ids).Perm (ids ++ b.ids) :=
      (hlabel.append_left _).trans List.perm_append_comm
    have hall := ((hswap.cons id).cons script).trans (.swap id script _)
    rw [wrapper, Node.ids_eq, id?_captioned, children_captioned, List.flatMap_cons, hcarrier]
    simpa using hall
  | _ =>
    obtain ⟨id, rfl⟩ := List.length_eq_one_iff.mp h
    exact .of_eq (hcarrier id)

/-- Turning a brace round may lose a caption, but puts no ids in. -/
theorem ids_change (s : Styling) (b : Node) : (s.change b).ids.Subperm b.ids := by
  have hsame : (s.change b).children = b.children → (s.change b).ids.Subperm b.ids := by
    intro h
    rw [Node.ids_eq, b.ids_eq, h, id?_change]
  cases s with
  | color col => exact hsame ((Node.repaints_recolor col).children b)
  | box border background => exact hsame ((Node.repaints_rebox border background).children b)
  | strike => exact .refl _
  | brace above _ =>
    cases b with
    | script id base sub sup =>
      have hcaption : (sup <|> sub).toList.Sublist (sub.toList ++ sup.toList) := by
        cases sup with
        | none => simp
        | some sup => exact List.sublist_append_right _ _
      have hids := (hcaption.cons_cons base).flatMap Node.ids
      rw [change, Node.turn, Node.ids_eq, Node.ids_eq (.script id base sub sup), id?_captioned,
        children_captioned]
      exact (hids.append_left _).subperm
    | _ => exact hsame rfl

theorem ids_make (h : new.length = s.count c selected b) :
    (s.make c selected new b).ids.Subperm (new ++ b.ids) := by
  have hold : b.ids.Subperm (new ++ b.ids) := (List.sublist_append_right new b.ids).subperm
  unfold count at h
  unfold make
  split
  next => exact (s.ids_change b).trans hold
  next hfinds =>
    rw [if_neg hfinds] at h
    split
    next hwraps =>
      rw [if_pos hwraps] at h
      exact (ids_wrapper h).subperm
    next => exact hold

theorem count_of_id? (s : Styling) (c : Formula) (selected : List String) (hid : b.id? = none) :
    s.count c selected b = 0 := by
  have hwraps : s.wraps c selected b = false := by
    simp [wraps, Node.selectedIn, hid]
  rw [count, hwraps]
  simp

/-- What a command makes of a formula, given the selected nodes in it. -/
def maker (s : Styling) (c : Formula) (selected : List String) : Maker :=
  ⟨s.count c selected, s.make c selected, fun _ => s.count_of_id? c selected, fun _ _ => ids_make⟩

variable {p : Pool} {m : Minter}

theorem ensures_mapM_withId (items : List Node) (hm : m.DrawsFrom p) :
    (items.mapM fun n => do pure (n.withId (← mint)) : Minting (List Node)).Ensures p m
      fun items' m' => ∃ ids : List String, m.Draws ids.reverse m' ∧ ids.length = items.length ∧
        items' = List.zipWith Node.withId ids items := by
  induction items generalizing m with
  | nil => exact Minting.ensures_pure hm ⟨[], .refl m, rfl, rfl⟩
  | cons n items ih =>
    rw [List.mapM_cons, bind_assoc]
    refine (Minting.ensures_mint hm).bind fun id m₁ _ hm₁ hdraw => ?_
    rw [pure_bind]
    refine (ih hm₁).bind fun items' m₂ _ hm₂ ⟨ids, hdraws, hlength, hitems⟩ => ?_
    refine Minting.ensures_pure hm₂ ⟨id :: ids, ?_, congrArg (· + 1) hlength, ?_⟩
    · rw [List.reverse_cons]
      exact hdraw.trans hdraws
    · rw [hitems, List.zipWith_cons_cons]

theorem ensures_captionText (caption : String) (hm : m.DrawsFrom p) :
    (captionText (symbolsOf caption)).Ensures p m fun text m' => ∃ ids, m.Draws ids m' ∧
      ids.length = caption.toList.length + 1 ∧ text = label caption ids := by
  refine (Minting.ensures_mint hm).bind fun id m₁ _ hm₁ hdraw => ?_
  refine (ensures_mapM_withId _ hm₁).bind fun items m₂ _ hm₂ ⟨ids, hdraws, hlength, hitems⟩ => ?_
  refine Minting.ensures_pure hm₂ ⟨ids.reverse ++ [id], hdraw.trans hdraws, ?_, ?_⟩
  · rw [List.length_append, List.length_reverse, hlength, symbolsOf, List.length_map]
    rfl
  · rw [label, List.getLastD_concat, List.dropLast_concat, List.reverse_reverse, hitems]

/-- A wrapper takes the ids that it costs. -/
theorem ensures_wrapTarget {wrap : Node → Minting Node} (hfinds : s.finds selected b = false)
    (hm : m.DrawsFrom p) (hwrap : (wrap b).Ensures p m fun w m' => ∃ new, m.Draws new m' ∧
      new.length = s.cost ∧ w = s.wrapper new b) :
    (wrapTarget s.kind wrap c selected b).Ensures p m fun o m' => ∃ new, m.Draws new m' ∧
      new.length = s.count c selected b ∧ o.getD b = s.make c selected new b := by
  unfold wrapTarget count make wraps
  rw [hfinds]
  split
  next hwraps =>
    rw [map_eq_pure_bind]
    refine hwrap.bind fun w m' _ hm' ⟨new, hdraws, hlength, hw⟩ => ?_
    exact Minting.ensures_pure hm' ⟨new, hdraws, by simpa [hwraps] using hlength, by simp [hw]⟩
  next => exact Minting.ensures_pure hm ⟨[], .refl m, rfl, rfl⟩

theorem ensures_change {o : Option Node} (hfinds : s.finds selected b = true) (hm : m.DrawsFrom p)
    (ho : o.getD b = s.change b) :
    (pure o : Minting (Option Node)).Ensures p m fun o m' => ∃ new, m.Draws new m' ∧
      new.length = s.count c selected b ∧ o.getD b = s.make c selected new b := by
  have hcount : s.count c selected b = 0 := by simp [count, hfinds]
  have hmake : s.make c selected [] b = s.change b := by simp [make, hfinds]
  exact Minting.ensures_pure hm ⟨[], .refl m, hcount.symm, ho.trans hmake.symm⟩

theorem ensures_carrier (hs : ∀ id b, s.wrapper [id] b = s.carrier id b) (hcost : s.cost = 1)
    (hm : m.DrawsFrom p) :
    (do pure (s.carrier (← mint) b) : Minting Node).Ensures p m fun w m' => ∃ new,
      m.Draws new m' ∧ new.length = s.cost ∧ w = s.wrapper new b := by
  refine (Minting.ensures_mint hm).bind fun id m' _ hm' hdraws => ?_
  exact Minting.ensures_pure hm' ⟨[id], hdraws, hcost.symm, (hs id b).symm⟩

theorem ensures_brace {above : Bool} {caption : String} (hm : m.DrawsFrom p) :
    (do
      let label ← captionText (symbolsOf caption)
      let id ← mint
      let brace := Node.brace (← mint) above b
      pure (captioned id brace above (some label)) : Minting Node).Ensures p m fun w m' => ∃ new,
        m.Draws new m' ∧ new.length = (brace above caption).cost ∧
          w = (brace above caption).wrapper new b := by
  refine (ensures_captionText caption hm).bind fun text m₁ _ hm₁ ⟨ids, hdraws, hlength, htext⟩ => ?_
  refine (Minting.ensures_mint hm₁).bind fun script m₂ _ hm₂ hscript => ?_
  refine (Minting.ensures_mint hm₂).bind fun id m₃ _ hm₃ hid => ?_
  refine Minting.ensures_pure hm₃ ⟨_, (hdraws.trans hscript).trans hid, ?_, ?_⟩
  · simp [hlength, cost]
  · rw [htext]
    rfl

theorem exists_braceTarget_eq (above : Bool) (caption : String) (c : Formula) (selected : List String)
    (n : Node) : ∃ o : Option Node, o.getD n = n.turn above ∧
      braceTarget above (symbolsOf caption) c selected n =
        if (brace above caption).finds selected n then pure o
        else braceTarget.wrapBrace above (symbolsOf caption) c selected n := by
  cases n with
  | script id base sub sup =>
    refine ⟨some (captioned id base above (sup <|> sub)), rfl, if_congr ?_ rfl rfl⟩
    simp [finds, kind, Node.kind, Node.captionsSelected]
  | brace id o body =>
    refine ⟨if o = above then none else some (.brace id above body), ?_, if_congr ?_ rfl rfl⟩
    · split
      next h => exact h ▸ rfl
      next => rfl
    · simp [finds, kind, Node.kind, Node.captionsSelected, Node.touchedBy, braceSelected,
        Node.selectedIn, Node.id?, Node.children]
  | _ => exact ⟨none, rfl, rfl⟩

theorem finds_iff (h : s.kind ≠ .brace) :
    s.finds selected b ↔ b.kind = s.kind ∧ b.touchedBy selected := by
  simp [finds, h]

theorem finds_of_selectedIn (hkind : b.kind = s.kind) (h : b.selectedIn selected) :
    s.finds selected b := by
  simp [finds, hkind, Node.touchedBy, h]

/-- Each command makes of a node what its maker makes of it. -/
theorem follows (s : Styling) (c : Formula) (selected : List String) :
    Follows (s.visit c selected) (s.maker c selected) := by
  intro b p m hm
  have hnone : s.kind ≠ .brace → ¬ (b.kind = s.kind ∧ b.touchedBy selected) →
      s.finds selected b = false :=
    fun hbrace h => Bool.eq_false_iff.mpr (mt (finds_iff hbrace).mp h)
  cases s with
  | color col =>
    rw [visit, Formula.colorTarget_eq]
    split
    next h => exact ensures_change ((finds_iff (s := color col) nofun).mpr h) hm rfl
    next h =>
      exact ensures_wrapTarget (s := color col) (hnone nofun h) hm
        (ensures_carrier (s := color col) (fun _ _ => rfl) rfl hm)
  | box border background =>
    rw [visit, Formula.boxTarget_eq]
    split
    next h => exact ensures_change ((finds_iff (s := box border background) nofun).mpr h) hm rfl
    next h =>
      exact ensures_wrapTarget (s := box border background) (hnone nofun h) hm
        (ensures_carrier (s := box border background) (fun _ _ => rfl) rfl hm)
  | strike =>
    rw [visit, strikeTarget]
    split
    next hkind =>
      by_cases h : b.selectedIn selected
      · exact ensures_change (finds_of_selectedIn hkind h) hm rfl
      · exact Minting.ensures_pure hm ⟨[], .refl m, by simp [maker, count, wraps, h],
          by simp [maker, make, wraps, h, change]⟩
    next hkind =>
      exact ensures_wrapTarget (s := strike) (hnone nofun fun h => hkind h.1) hm
        (ensures_carrier (s := strike) (fun _ _ => rfl) rfl hm)
  | brace above caption =>
    obtain ⟨o, ho, heq⟩ := exists_braceTarget_eq above caption c selected b
    rw [visit, heq]
    split
    next h => exact ensures_change h hm ho
    next h =>
      exact ensures_wrapTarget (s := brace above caption) (Bool.eq_false_iff.mpr h) hm (ensures_brace hm)

/-- A style command makes of the consolidated formula what its maker does, or there are not enough ids to
be drawn. -/
theorem ensures_apply (s : Styling) (f : Formula) (runs : List (List String)) (m : Minter) :
    (s.apply f runs).Ensures (m.pool f.ids) m fun e _ => ∃ c targets m' fresh,
      (consolidate false f runs).run m = (.ok (c, targets), m') ∧
      f.GroupsRuns false runs { m with taken := f.ids } (c, targets) m' ∧
      Formula.Made (s.maker c.formula (targets.filterMap id)) c.formula fresh e.formula := by
  rw [apply_eq]
  refine (Formula.ensures_consolidate false f runs m).bind fun a m₁ hrun hm₁ h => ?_
  obtain ⟨groups, hdraws, hregroups⟩ := h.regroups
  have hm₂ : { m₁ with taken := a.1.formula.ids }.DrawsFrom (m.pool f.ids) := by
    refine hm₁.retake fun id hid => ?_
    rw [hdraws.taken]
    exact hregroups.ids.mem_iff.mp hid
  refine (Minting.ensures_mintBeside hm₂).bind fun _ m₂ _ _ he => ?_
  rw [he]
  refine (Formula.ensures_rewrite_supplied (s.follows _ _) hm₂ rfl).bind fun x m₃ _ hm₃ hx => ?_
  obtain ⟨fresh, e, rfl, hmade⟩ := hx
  exact Minting.ensures_pure hm₃ ⟨a.1, a.2, m₁, fresh, hrun, h, hmade⟩

end Styling

end FormulaDoc
