import FormulaDoc.Proofs.Styled

namespace FormulaDoc

section

variable {M : Type → Type} [Monad M] [LawfulMonad M] {visit : Node → M (Option Node)}
  {v : Node → Option Node} {n : Node} {f : Formula}

theorem mapM_eq_pure {α β : Type} {g : α → M β} {k : α → β} {l : List α}
    (h : ∀ a ∈ l, g a = pure (k a)) : l.mapM g = pure (l.map k) := by
  induction l with
  | nil => rfl
  | cons a l ih =>
    rw [List.mapM_cons, h a List.mem_cons_self, pure_bind,
      ih fun b hb => h b (List.mem_cons_of_mem a hb), pure_bind, List.map_cons]

/-- A visitor without effects on the nodes that it can receive. -/
theorem Node.rewrite_eq_pure (h : ∀ m ∈ n.preorder, ∀ cs, cs.length = m.children.length →
    visit (m.withChildren cs) = pure (v (m.withChildren cs))) :
    n.rewrite visit = pure (Id.run (n.rewrite fun n => pure (v n))) := by
  induction n using childrenInduction with
  | step n ih =>
    have heach : ∀ c ∈ n.children, c.rewrite visit = pure (Id.run (c.rewrite fun n => pure (v n))) :=
      fun c hc => ih c hc fun m hm => h m (mem_preorder_of_child hc hm)
    rw [rewrite_eq, mapM_eq_pure heach, pure_bind, run_rewrite, mapChildren]
    have hself := h n n.self_mem_preorder
      (n.children.map fun c => (Id.run (c.rewrite fun n => pure (v n))).1) (by simp)
    simp only [List.map_map, Function.comp_def, List.any_map]
    rw [hself, pure_bind]
    cases v _ <;> rfl

theorem Formula.rewrite_eq_pure (h : ∀ m ∈ f.nodes, ∀ cs, cs.length = m.children.length →
    visit (m.withChildren cs) = pure (v (m.withChildren cs))) :
    f.rewrite visit = pure (Id.run (f.rewrite fun n => pure (v n))) := by
  have hbelow := mapM_eq_pure fun n hn => Node.rewrite_eq_pure fun m hm =>
    h m (List.mem_flatMap.mpr ⟨n, hn, hm⟩)
  rw [rewrite, rewrite, hbelow, pure_bind, Id.run_bind, List.idRun_mapM]
  split <;> rfl

end

/-- What unwrapping makes of a node that is not a named color over several nodes. -/
def Node.unwrapped? (targets captions : List String) : Node → Option Node
  | script id base _ _ => if captions.contains id then some base else none
  | color id _ [child] => if targets.contains id then some child else none
  | box id _ body _ | brace id _ body | strike id body =>
    if targets.contains id then some body else none
  | _ => none

namespace Node

/-- The nodes that a style command puts in: colors, boxes, braces and strikes. -/
def isStyle : Node → Bool
  | color .. | box .. | brace .. | strike .. => true
  | _ => false

/-- A named color that has no child or several. -/
def regroups (targets : List String) (n : Node) : Bool :=
  decide (n.kind = .color) && n.selectedIn targets && decide (n.children.length ≠ 1)

variable {targets captions : List String} {n : Node}

theorem regroups_iff :
    n.regroups targets ↔ n.kind = .color ∧ n.selectedIn targets ∧ n.children.length ≠ 1 := by
  simp [regroups, and_assoc]

/-- A node that is neither a named carrier nor a script to be unwrapped stays. -/
theorem unwrapped?_eq_none (hstyle : ¬ (n.isStyle ∧ n.selectedIn targets))
    (hscript : n.kind = .script → ¬ n.selectedIn captions) : n.unwrapped? targets captions = none := by
  cases n with
  | script => exact if_neg (by simpa [selectedIn, id?] using hscript rfl)
  | color id c body =>
    obtain _ | ⟨child, _ | ⟨next, rest⟩⟩ := body
    · rfl
    · exact if_neg (by simpa [isStyle, selectedIn, id?] using hstyle)
    · rfl
  | box | brace | strike => exact if_neg (by simpa [isStyle, selectedIn, id?] using hstyle)
  | _ => rfl

end Node

theorem unwrapTarget_eq {targets captions : List String} {n : Node} (h : ¬ n.regroups targets) :
    unwrapTarget targets captions n = pure (n.unwrapped? targets captions) := by
  cases n with
  | color id c body =>
    have hnot : body.length ≠ 1 → ¬ targets.contains id := fun hlength hmem =>
      h (Node.regroups_iff.mpr ⟨rfl, by simpa [Node.selectedIn, Node.id?] using hmem, hlength⟩)
    obtain _ | ⟨child, _ | ⟨next, rest⟩⟩ := body
    · exact if_neg (hnot (by simp))
    · rfl
    · exact if_neg (hnot (by simp))
  | _ => rfl

namespace Styling

variable {s : Styling} {c r : Formula} {fresh : Supply} {n x : Node} {t : String}

/-- The only target of a command, neither a carrier of its kind nor directly inside one. -/
structure Alone (s : Styling) (c : Formula) (t : String) (n : Node) : Prop where
  mem : n ∈ c.nodes
  id?_eq : n.id? = some t
  kind_ne : n.kind ≠ s.kind
  parent_ne : ∀ p, c.parent? t = some p → p.kind ≠ s.kind

namespace Alone

variable (h : s.Alone c t n)

include h

theorem eq_of_selectedIn (hx : x ∈ c.nodes) (hsel : x.selectedIn [t]) : x = n := by
  obtain ⟨t', ht', hid⟩ := Node.selectedIn_iff.mp hsel
  rw [List.mem_singleton.mp ht'] at hid
  exact Formula.eq_of_mem_nodes hx h.mem hid h.id?_eq

/-- No carrier is touched. -/
theorem not_touchedBy (hx : x ∈ c.nodes) (hkind : x.kind = s.kind) : ¬ x.touchedBy [t] := by
  rw [Node.touchedBy, Bool.or_eq_true, List.any_eq_true]
  rintro (hsel | ⟨ch, hch, hsel⟩)
  · rw [h.eq_of_selectedIn hx hsel] at hkind
    exact h.kind_ne hkind
  · have hchc : ch ∈ c.nodes := Formula.mem_nodes_of_child hx hch
    rw [h.eq_of_selectedIn hchc hsel] at hch
    exact h.parent_ne x (Formula.parent?_of_child hx hch h.id?_eq) hkind

theorem finds_eq (hx : x ∈ c.nodes) : s.finds [t] x = false := by
  have hcaptions : s.kind = .brace → x.captionsSelected [t] = false := by
    intro hs
    cases x with
    | script q base sub sup =>
      have hbase : base ∈ c.nodes := Formula.mem_nodes_of_child hx List.mem_cons_self
      rw [Node.captionsSelected, braceSelected_eq]
      by_cases hkind : base.kind = .brace
      · simp [h.not_touchedBy hbase (hkind.trans hs.symm)]
      · simp [hkind]
    | _ => rfl
  by_cases hkind : x.kind = s.kind <;> by_cases hs : s.kind = .brace
  · simp [finds, h.not_touchedBy hx hkind, hcaptions hs]
  · simp [finds, h.not_touchedBy hx hkind, hs]
  · simp [finds, hkind, hcaptions hs]
  · simp [finds, hkind, hs]

theorem wraps_eq (hx : x ∈ c.nodes) : s.wraps c [t] x = decide (x.id? = some t) := by
  by_cases hid : x.id? = some t
  · have hparent : c.parentIs s.kind x = false := by
      rw [Formula.parentIs, hid, Option.bind_some]
      cases hp : c.parent? t with
      | none => rfl
      | some p => simpa using h.parent_ne p hp
    simp [wraps, Node.selectedIn, hid, hparent]
  · have hsel : x.selectedIn [t] = false := by
      refine Bool.eq_false_iff.mpr fun hsel => hid ?_
      rw [h.eq_of_selectedIn hx hsel]
      exact h.id?_eq
    simp [wraps, hsel, hid]

theorem count_rebuilt : s.count c [t] ((s.maker c [t]).rebuilt fresh n) = s.cost := by
  rw [count, finds_rebuilt h.mem, h.finds_eq h.mem, wraps_rebuilt, h.wraps_eq h.mem,
    decide_eq_true h.id?_eq]
  rfl

theorem make_rebuilt (hx : x ∈ c.nodes) :
    s.make c [t] (fresh.of x) ((s.maker c [t]).rebuilt fresh x) =
      if x.id? = some t then s.wrapper (fresh t) ((s.maker c [t]).rebuilt fresh x)
      else (s.maker c [t]).rebuilt fresh x := by
  rw [make, finds_rebuilt hx, h.finds_eq hx, wraps_rebuilt, h.wraps_eq hx]
  by_cases hid : x.id? = some t
  · simp [hid, Supply.of]
  · simp [hid]

/-- The command puts a wrapper in the place of the target. -/
theorem applyAll_eq_substitute (hx : x ∈ c.nodes) : (s.maker c [t]).applyAll fresh x =
    x.everywhere (Node.substitute t (s.wrapper (fresh t) n)) := by
  induction x using Node.childrenInduction with
  | step x ih =>
    have hbelow : (s.maker c [t]).rebuilt fresh x =
        x.mapChildren (Node.everywhere (Node.substitute t (s.wrapper (fresh t) n))) :=
      Node.mapChildren_congr fun ch hch => ih ch hch (Formula.mem_nodes_of_child hx hch)
    rw [Maker.applyAll_eq, Node.everywhere_substitute_eq]
    refine (h.make_rebuilt hx).trans ?_
    by_cases hid : x.id? = some t
    · obtain rfl : x = n := Formula.eq_of_mem_nodes hx h.mem hid h.id?_eq
      have hnodup := Formula.nodup_ids hx
      rw [Node.ids_eq, hid] at hnodup
      -- below the target nothing has its id
      have hother : ∀ ch ∈ x.children, ∀ m ∈ ch.preorder, m.id? ≠ some t := by
        intro ch hch m hm hmid
        have hmem : t ∈ ch.ids := Node.mem_ids_iff.mpr ⟨m, hm, hmid⟩
        exact (List.nodup_cons.mp hnodup).1 (List.mem_flatMap.mpr ⟨ch, hch, hmem⟩)
      have hsame : x.mapChildren (Node.everywhere (Node.substitute t (s.wrapper (fresh t) x))) = x :=
        Node.mapChildren_eq_self fun ch hch =>
          Node.everywhere_eq_self fun m hm => if_neg (hother ch hch m hm)
      rw [if_pos hid, if_pos hid, hbelow, hsame]
    · rw [if_neg hid, if_neg hid, hbelow]

end Alone

/-- The id of the script in a wrapper, if it has one. -/
def captionIds (s : Styling) (new : List String) : List String :=
  match s with
  | brace .. => [new.getD 1 ""]
  | _ => []

/-- What unwrapping makes of a node when the carrier of a new wrapper is named. -/
def unwrapped (s : Styling) (new : List String) (b : Node) : Node :=
  (b.unwrapped? [new.headD ""] (s.captionIds new)).getD b

variable {new : List String} {b : Node}

theorem headD_mem (h : new.length = s.cost) : new.headD "" ∈ new := by
  cases new with
  | nil => cases s <;> cases h
  | cons id ids => exact List.mem_cons_self

theorem unwrapped_of_not_mem (hlength : new.length = s.cost)
    (h : ∀ i, b.id? = some i → i ∉ new) : s.unwrapped new b = b := by
  have hhead : ¬ b.selectedIn [new.headD ""] := by
    rw [Node.selectedIn_iff]
    rintro ⟨i, hi, hid⟩
    rw [List.mem_singleton.mp hi] at hid
    exact h _ hid (headD_mem hlength)
  have hcaptions : ¬ b.selectedIn (s.captionIds new) := by
    rw [Node.selectedIn_iff]
    rintro ⟨i, hi, hid⟩
    cases s with
    | brace above caption =>
      match new, hlength with
      | _ :: script :: _, _ =>
        rw [List.mem_singleton.mp hi] at hid
        exact h _ hid (by simp)
    | _ => cases hi
  rw [unwrapped, Node.unwrapped?_eq_none (fun h => hhead h.2) fun _ => hcaptions, Option.getD_none]

theorem mapChildren_carrier (s : Styling) (id : String) (b : Node) (g : Node → Node) :
    (s.carrier id b).mapChildren g = s.carrier id (g b) := by
  cases s <;> rfl

theorem unwrapped_carrier (s : Styling) (new : List String) (b : Node) :
    s.unwrapped new (s.carrier (new.headD "") b) = b := by
  cases s <;> simp [unwrapped, carrier, Node.unwrapped?]

theorem unwrapped_captioned {above : Bool} {caption : String} (new : List String) (base : Node)
    (label : Option Node) :
    (brace above caption).unwrapped new (captioned (new.getD 1 "") base above label) = base := by
  cases above <;> simp [unwrapped, captioned, captionIds, Node.unwrapped?]

theorem mapChildren_captioned (id : String) (base : Node) (above : Bool) (label : Node)
    (g : Node → Node) : (captioned id base above (some label)).mapChildren g =
      captioned id (g base) above (some (g label)) := by
  cases above <;> rfl

/-- Of a wrapper the wrapped node is left. -/
theorem everywhere_wrapper (h : b.everywhere (s.unwrapped new) = b) :
    (s.wrapper new b).everywhere (s.unwrapped new) = b := by
  have hcarrier : (s.carrier (new.headD "") b).everywhere (s.unwrapped new) = b := by
    rw [Node.everywhere_eq, mapChildren_carrier, h, unwrapped_carrier]
  cases s with
  | brace above caption =>
    rw [wrapper, Node.everywhere_eq, mapChildren_captioned, hcarrier, unwrapped_captioned]
  | _ => exact hcarrier

section

variable (h : s.Alone c t n) (hlength : new.length = s.cost) (hnew : ∀ i ∈ new, i ∉ c.ids)

include hlength hnew

theorem unwrapped_eq_self {x' : Node} (hx : x ∈ c.nodes) (hid : x'.id? = x.id?) :
    s.unwrapped new x' = x' := by
  refine unwrapped_of_not_mem hlength ?_
  intro i hi hmem
  have hold : i ∈ c.ids := Formula.mem_ids_iff.mpr ⟨x, hx, hid.symm.trans hi⟩
  exact hnew i hmem hold

include h

/-- Each tree is as it was before the wrapper was put in. -/
theorem everywhere_substitute (hx : x ∈ c.nodes) :
    (x.everywhere (Node.substitute t (s.wrapper new n))).everywhere (s.unwrapped new) = x := by
  induction x using Node.childrenInduction with
  | step x ih =>
    rw [Node.everywhere_substitute_eq]
    split
    next hid =>
      obtain rfl : x = n := Formula.eq_of_mem_nodes hx h.mem hid h.id?_eq
      refine everywhere_wrapper (Node.everywhere_eq_self fun m hm => ?_)
      have hmc : m ∈ c.nodes := Formula.mem_nodes_of_mem_preorder hx hm
      exact unwrapped_eq_self hlength hnew hmc rfl
    next =>
      have hbelow := Node.mapChildren_eq_self fun ch hch => ih ch hch (Formula.mem_nodes_of_child hx hch)
      rw [Node.everywhere_eq, Node.mapChildren_mapChildren, hbelow]
      exact unwrapped_eq_self hlength hnew hx rfl

end

section

variable (h : s.Alone c t n)
  (hr : r.children = c.children.map (Node.everywhere (Node.substitute t (s.wrapper new n))))

include h hr

theorem mem_nodes_of_wrapper (hx : x ∈ (s.wrapper new n).preorder) : x ∈ r.nodes := by
  have hwrapper : s.wrapper new n ∈ r.nodes := Formula.mem_nodes_of_substitute h.mem h.id?_eq hr
  exact Formula.mem_nodes_of_mem_preorder hwrapper hx

theorem carrier_mem_nodes : s.carrier (new.headD "") n ∈ r.nodes := by
  have hinside := mem_preorder_wrapper (Node.self_mem_preorder (s.carrier (new.headD "") n))
  exact mem_nodes_of_wrapper h hr hinside

/-- The target stands in the new carrier. -/
theorem find?_target : r.find? t = some n ∧ r.parent? t = some (s.carrier (new.headD "") n) := by
  have hchild : n ∈ (s.carrier (new.headD "") n).children := by
    rw [children_carrier]
    exact List.mem_singleton_self n
  have hcarrier := carrier_mem_nodes h hr
  exact ⟨Formula.find?_eq (Formula.mem_nodes_of_child hcarrier hchild) h.id?_eq,
    Formula.parent?_of_child hcarrier hchild h.id?_eq⟩

theorem filterMap_captionOf? : [new.headD ""].filterMap r.captionOf? = s.captionIds new := by
  have hcarrier := carrier_mem_nodes h hr
  have hfind := Formula.find?_eq hcarrier (id?_carrier _ _ _)
  cases s with
  | brace above caption =>
    have hchild : (brace above caption).carrier (new.headD "") n ∈
        ((brace above caption).wrapper new n).children := by
      rw [wrapper, children_captioned]
      exact List.mem_cons_self
    have hparent := Formula.parent?_of_child (mem_nodes_of_wrapper h hr (Node.self_mem_preorder _))
      hchild (id?_carrier _ _ _)
    have hcaption : r.captionOf? (new.headD "") = some (new.getD 1 "") := by
      rw [Formula.captionOf?, hfind, hparent]
      cases above <;> exact if_pos rfl
    rw [List.filterMap_cons_some hcaption]
    rfl
  | _ =>
    have hcaption : r.captionOf? (new.headD "") = none := by
      rw [Formula.captionOf?, hfind]
      rfl
    rw [List.filterMap_cons_none hcaption]
    rfl

/-- Taking the new carrier off needs no ids and gives the formula back. -/
theorem run_removeStyle (hlength : new.length = s.cost) (hnew : ∀ i ∈ new, i ∉ c.ids) (m : Minter) :
    ∃ e m', (removeStyle r [new.headD ""]).run m = (.ok e, m') ∧ e.formula = c := by
  have hcarrier := carrier_mem_nodes h hr
  have hvisit : ∀ x ∈ r.nodes, ∀ cs, cs.length = x.children.length →
      unwrapTarget [new.headD ""] (s.captionIds new) (x.withChildren cs) =
        pure ((x.withChildren cs).unwrapped? [new.headD ""] (s.captionIds new)) := by
    intro x hx cs hcs
    refine unwrapTarget_eq fun hregroups => ?_
    obtain ⟨-, hsel, hlength⟩ := Node.regroups_iff.mp hregroups
    rw [Node.selectedIn, Node.id?_withChildren hcs, ← Node.selectedIn] at hsel
    obtain ⟨i, hi, hid⟩ := Node.selectedIn_iff.mp hsel
    rw [List.mem_singleton.mp hi] at hid
    -- the carrier is what has the id, and it has one child
    have hx' : x = s.carrier (new.headD "") n := Formula.eq_of_mem_nodes hx hcarrier hid (id?_carrier _ _ _)
    refine hlength ?_
    rw [Node.children_withChildren hcs, hcs, hx', children_carrier]
    rfl
  have hback : r.children.map (Node.everywhere (s.unwrapped new)) = c.children := by
    have hself : ∀ x ∈ c.children,
        (x.everywhere (Node.substitute t (s.wrapper new n))).everywhere (s.unwrapped new) = x :=
      fun x hx => everywhere_substitute h hlength hnew (Formula.mem_nodes_of_top hx)
    rw [hr, List.map_map]
    exact (List.map_congr_left hself).trans (List.map_id' _)
  have hnodup : (forestIds (r.children.map (Node.everywhere (s.unwrapped new)))).Nodup :=
    hback ▸ c.nodup
  obtain ⟨e, hrun, hchildren⟩ := r.run_rewrite _ hnodup
  refine ⟨e, { m with taken := r.ids }, ?_, ?_⟩
  · rw [removeStyle, filterMap_captionOf? h hr, Formula.rewrite_eq_pure hvisit, hrun]
    rfl
  · obtain ⟨⟨children, _⟩, changed⟩ := e
    obtain ⟨children', _⟩ := c
    exact Formula.mk.injEq .. ▸ hchildren.trans hback

end

end Styling

namespace Formula

/-- Unstyling undoes styling. A command on one run whose target is neither a carrier of its kind nor
directly inside one puts the target in a new carrier, and taking this carrier off again gives the
consolidated formula back, whatever ids there are to be drawn then. -/
theorem removeStyle_apply (s : Styling) (f : Formula) (run : List String) (m m₁ : Minter) (c : Edited)
    (t : String) (hrun : (consolidate false f [run]).run m = (.ok (c, [some t]), m₁))
    (hkind : ∀ n, c.formula.find? t = some n → n.kind ≠ s.kind)
    (hparent : ∀ p, c.formula.parent? t = some p → p.kind ≠ s.kind) :
    (run.length = 1 → c.formula = f) ∧
    (s.apply f [run]).Ensures (m.pool f.ids) m fun e _ => ∃ n w wid,
      c.formula.find? t = some n ∧ e.formula.find? t = some n ∧ e.formula.parent? t = some w ∧
      s.Carries w ∧ w.children = [n] ∧ w.id? = some wid ∧ wid ∉ c.formula.ids ∧
      ∀ m₂, ∃ e' m₃, (removeStyle e.formula [wid]).run m₂ = (.ok e', m₃) ∧ e'.formula = c.formula := by
  constructor
  · intro hlength
    obtain ⟨id, rfl⟩ := List.length_eq_one_iff.mp hlength
    have hsame : (consolidate false f [[id]]).run m =
        (.ok (⟨f, false⟩, [[id].head?.filter f.contains]), { m with taken := f.ids }) := rfl
    rw [hsame, Prod.mk.injEq, Except.ok.injEq, Prod.mk.injEq] at hrun
    rw [← hrun.1.1]
  · refine (s.ensures_apply f [run] m).mono fun e _ h => ?_
    obtain ⟨c', targets, m', fresh, hrun', hgroups, hmade⟩ := h
    rw [hrun] at hrun'
    cases hrun'
    obtain ⟨n, hn, hid⟩ := mem_ids_iff.mp (hgroups.mem t List.mem_cons_self)
    have halone : s.Alone c.formula t n := ⟨hn, hid, hkind n (find?_eq hn hid), hparent⟩
    have hr : e.formula.children = c.formula.children.map
        (Node.everywhere (Node.substitute t (s.wrapper (fresh t) n))) := by
      rw [hmade.children_eq]
      refine List.map_congr_left fun x hx => halone.applyAll_eq_substitute ?_
      exact mem_nodes_of_top hx
    have hnew : ∀ i ∈ fresh t, i ∉ c.formula.ids := fun i hi =>
      hmade.new i (List.mem_flatMap.mpr ⟨t, mem_ids_iff.mpr ⟨n, hn, hid⟩, hi⟩)
    have hlength : (fresh t).length = s.cost := by
      have hof : fresh.of n = fresh t := by rw [Supply.of, hid, Option.elim_some]
      rw [← hof, ← halone.count_rebuilt]
      exact hmade.fed_of_mem hn n n.self_mem_preorder
    obtain ⟨hfind, hparent⟩ := Styling.find?_target halone hr
    refine ⟨n, _, _, find?_eq hn hid, hfind, hparent, Styling.carries_carrier _ _ _,
      Styling.children_carrier _ _ _, Styling.id?_carrier _ _ _, hnew _ (Styling.headD_mem hlength),
      Styling.run_removeStyle halone hr hlength hnew⟩

/-- A brace around the numerator of a fraction is put on and taken off. -/
theorem removeStyle_apply_of_fraction : ∃ (f : Formula) (m m₁ : Minter),
    f.children = [.frac "f" (.symbol "a" "x") (.symbol "b" "y")] ∧
    (consolidate false f [["a"]]).run m = (.ok (⟨f, false⟩, [some "a"]), m₁) ∧
    (∀ n, f.find? "a" = some n → n.kind ≠ (Styling.brace true "n").kind) ∧
    (∀ p, f.parent? "a" = some p → p.kind ≠ (Styling.brace true "n").kind) ∧
    ((Styling.brace true "n").apply f [["a"]]).Ensures (m.pool f.ids) m fun e _ => ∃ n w wid,
      f.find? "a" = some n ∧ e.formula.find? "a" = some n ∧ e.formula.parent? "a" = some w ∧
      (Styling.brace true "n").Carries w ∧ w.children = [n] ∧ w.id? = some wid ∧ wid ∉ f.ids ∧
      ∀ m₂, ∃ e' m₃, (removeStyle e.formula [wid]).run m₂ = (.ok e', m₃) ∧ e'.formula = f := by
  obtain ⟨f, hf⟩ : ∃ f : Formula, f.children = [.frac "f" (.symbol "a" "x") (.symbol "b" "y")] :=
    ⟨⟨_, by decide +kernel⟩, rfl⟩
  have htop : Node.frac "f" (.symbol "a" "x") (.symbol "b" "y") ∈ f.children := by simp [hf]
  have hfrac : Node.frac "f" (.symbol "a" "x") (.symbol "b" "y") ∈ f.nodes :=
    mem_nodes_of_top htop
  have hchild : Node.symbol "a" "x" ∈ f.nodes := mem_nodes_of_child hfrac List.mem_cons_self
  have hfind : f.find? "a" = some (.symbol "a" "x") := find?_eq hchild rfl
  have hparent : f.parent? "a" = some (.frac "f" (.symbol "a" "x") (.symbol "b" "y")) :=
    parent?_of_child hfrac (c := .symbol "a" "x") List.mem_cons_self rfl
  have htarget : ["a"].head?.filter f.contains = some "a" := by
    simp [contains_iff.mpr (mem_ids_iff.mpr ⟨_, hchild, rfl⟩)]
  have hrun : (consolidate false f [["a"]]).run ⟨[], .counting "n" 1⟩ =
      (.ok (⟨f, false⟩, [some "a"]), ⟨f.ids, .counting "n" 1⟩) := by
    rw [← htarget]
    rfl
  have hkind : ∀ n, f.find? "a" = some n → n.kind ≠ (Styling.brace true "n").kind := by
    rw [hfind]
    rintro _ ⟨⟩
    nofun
  have houter : ∀ p, f.parent? "a" = some p → p.kind ≠ (Styling.brace true "n").kind := by
    rw [hparent]
    rintro _ ⟨⟩
    nofun
  exact ⟨f, _, _, hf, hrun, hkind, houter,
    (removeStyle_apply (.brace true "n") f ["a"] _ _ _ "a" hrun hkind houter).2⟩

end Formula

end FormulaDoc
