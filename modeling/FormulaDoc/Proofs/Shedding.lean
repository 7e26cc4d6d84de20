import FormulaDoc.Proofs.Leaves
import FormulaDoc.Proofs.Reparsing

namespace FormulaDoc

namespace Node

/-- A node with scripts written behind it, as a reader takes them: a script that has a free place for
them takes them itself, and one in braces is their base. -/
def scripted (id : String) (sub sup : Option Node) : Node → Node
  | script id' base sub' sup' => script id' base (sub'.or sub) (sup'.or sup)
  | group _ [script id' base sub' sup'] => script id (script id' base sub' sup') sub sup
  | n => script id n sub sup

/-- Scripts written behind the last of some siblings. -/
def scriptLast (id : String) (sub sup : Option Node) (ns : List Node) : List Node :=
  ns.dropLast ++ (ns.getLast?.map (scripted id sub sup)).toList

mutual

/-- What a tree leaves in its place when its carriers are dropped. The contents of a slot stand in
a group, which has no braces there. -/
def shed (asArg : Bool) : Node → List Node
  | color _ _ body => shedAll body
  | brace _ _ body | box _ _ body _ | strike _ body => body.shed asArg
  | group id body => if asArg then shedAll body else [group id (shedAll body)]
  | frac id numerator denominator =>
    [frac id (group "" (numerator.shed true)) (group "" (denominator.shed true))]
  | script id base sub sup =>
    scriptLast id (shedOption sub) (shedOption sup)
      (if base.kind = .script then [group "" (base.shed false)] else base.shed false)
  | root id body index => [root id (group "" (body.shed true)) (shedOption index)]
  | array id rows align => [array id (shedRows rows) align]
  | aligned id cells => [aligned id (shedAll cells)]
  | n => [n]

def shedAll : List Node → List Node
  | [] => []
  | n :: ns => n.shed false ++ shedAll ns

def shedOption : Option Node → Option Node
  | none => none
  | some n => some (group "" (n.shed true))

def shedRow : List Node → List Node
  | [] => []
  | n :: ns => group "" (n.shed (!n.isEmptyGroup)) :: shedRow ns

def shedRows : List (List Node) → List (List Node)
  | [] => []
  | row :: rows => shedRow row :: shedRows rows

end

/-- What an array cell leaves. -/
def shedCell (n : Node) : Node :=
  group "" (n.shed (!n.isEmptyGroup))

theorem shedAll_eq (ns : List Node) : shedAll ns = ns.flatMap (shed false) := by
  induction ns with
  | nil => rfl
  | cons n ns ih => rw [shedAll, ih, List.flatMap_cons]

theorem shedOption_eq (o : Option Node) : shedOption o = o.map fun n => group "" (n.shed true) := by
  cases o <;> rfl

theorem shedRows_eq (rows : List (List Node)) : shedRows rows = rows.map (·.map shedCell) := by
  have hrow : ∀ row, shedRow row = row.map shedCell := by
    intro row
    induction row with
    | nil => rfl
    | cons n ns ih => rw [shedRow, ih, List.map_cons, shedCell]
  induction rows with
  | nil => rfl
  | cons row rows ih => rw [shedRows, ih, hrow, List.map_cons]

/-- What the base of scripts leaves in front of them; a script keeps the braces that it has there. -/
def shedBase (base : Node) : List Node :=
  if base.kind = .script then [group "" (base.shed false)] else base.shed false

/-- Whether scripts can stand behind a node. A script has a place for a superscript behind it, and only
if it has none; a subscript behind it is out of place. -/
def takes (sub : Bool) : Node → Bool
  | script _ _ _ sup' => sup'.isNone && !sub
  | _ => true

/-- Whether something is left in the place of a color and in every cell of an array. -/
def leavesSome : Node → Bool
  | color _ _ body => !body.isEmpty
  | array _ rows _ => rows.flatten.all fun c => !(c.shed (!c.isEmptyGroup)).isEmpty
  | _ => true

/-- Whether scripts can stand behind what their base leaves. -/
def baseTakes : Node → Bool
  | script _ base sub _ => base.shedBase.getLast?.all (takes sub.isSome)
  | _ => true

/-- What the carriers in the slots of a node leave fits there: there is something of it, it takes the
scripts behind it, and it does not look like the end of the slot. -/
structure ShedsAt (n : Node) : Prop where
  some : n.leavesSome
  scripts : n.baseTakes
  runs : ∀ m ∈ n.shed false, ∀ stop run, (stop, run) ∈ m.runs → ∀ c ∈ run, stop.holds c.ast = false

theorem shedsAt_iff {n : Node} : n.ShedsAt ↔ n.leavesSome ∧ n.baseTakes ∧
    ∀ m ∈ n.shed false, ∀ p ∈ m.runs, ∀ c ∈ p.2, p.1.holds c.ast = false := by
  constructor
  · intro h
    refine ⟨h.some, h.scripts, ?_⟩
    intro m hm p hp
    exact h.runs m hm p.1 p.2 hp
  · rintro ⟨hsome, hscripts, hruns⟩
    refine ⟨hsome, hscripts, ?_⟩
    intro m hm stop run hrun
    exact hruns m hm (stop, run) hrun

instance (n : Node) : Decidable n.ShedsAt :=
  decidable_of_iff _ shedsAt_iff.symm

variable {c m n : Node} {sub sup : Option Node}

theorem Legible.mk (hself : n.LegibleAt) (hchildren : n.kind ≠ .text → ∀ c ∈ n.children, c.Legible) :
    n.Legible :=
  forall_outer hself hchildren

theorem legible_group {id : String} {body : List Node} (h : ∀ c ∈ body, c.Legible) :
    (group id body).Legible := by
  refine .mk ?_ fun _ => h
  exact ⟨rfl, by simp [names], by simp [Node.runs, arguments]⟩

/-- Scripts behind a legible node are legible. -/
theorem legible_scripted {id : String} (h : n.Legible) (hsub : ∀ s ∈ sub, s.Legible)
    (hsup : ∀ s ∈ sup, s.Legible) (hs : sub.isSome || sup.isSome)
    (hruns : ∀ stop run, (stop, run) ∈ (n.scripted id sub sup).runs →
      ∀ c ∈ run, stop.holds c.ast = false) : (n.scripted id sub sup).Legible := by
  have hspelled := h.self.spelled
  unfold scripted at hruns ⊢
  split at hruns
  next id' base sub' sup' =>
    have hat : (sub'.isSome || sup'.isSome) = true ∧ base.isScriptGroup = false := by
      simpa [spelledAt] using hspelled
    have hchild : ∀ c ∈ (script id' base sub' sup').children, c.Legible := fun c hc =>
      h.child (by simp [kind]) hc
    refine .mk ⟨?_, by simp [names], hruns⟩ fun _ c hc => ?_
    · cases sub' <;> cases sup' <;> simp_all [spelledAt]
    · simp only [children, List.mem_cons, List.mem_append, Option.mem_toList] at hc hchild
      rcases hc with rfl | hc | hc
      · exact hchild c (.inl rfl)
      · rcases Option.or_eq_some_iff.mp hc with hc | ⟨-, hc⟩
        · exact hchild c (.inr (.inl hc))
        · exact hsub c hc
      · rcases Option.or_eq_some_iff.mp hc with hc | ⟨-, hc⟩
        · exact hchild c (.inr (.inr hc))
        · exact hsup c hc
  next id' id'' base sub' sup' =>
    refine .mk ⟨by simpa [spelledAt, isScriptGroup] using hs, by simp [names], hruns⟩ fun _ c hc => ?_
    simp only [children, List.mem_cons, List.mem_append, Option.mem_toList] at hc
    rcases hc with rfl | hc | hc
    · exact h.child (by simp [kind]) (by simp [children])
    · exact hsub c hc
    · exact hsup c hc
  next hscript hgroup =>
    have hbase : n.isScriptGroup = false := by
      unfold isScriptGroup
      split
      next id' k =>
        cases k with
        | script id'' base sub' sup' => exact absurd rfl (hgroup id' id'' base sub' sup')
        | _ => rfl
      next => rfl
    refine .mk ⟨by simpa [spelledAt, hbase] using hs, by simp [names], hruns⟩ fun _ c hc => ?_
    simp only [children, List.mem_cons, List.mem_append, Option.mem_toList] at hc
    rcases hc with rfl | hc | hc
    · exact h
    · exact hsub c hc
    · exact hsup c hc

/-- Siblings are legible with scripts behind the last of them, if both are legible without the other. -/
theorem legible_scriptLast {id : String} {ns : List Node} (hns : ∀ m ∈ ns, m.Legible)
    (hsub : ∀ s ∈ sub, s.Legible) (hsup : ∀ s ∈ sup, s.Legible) (hs : sub.isSome || sup.isSome)
    (hruns : ∀ m ∈ scriptLast id sub sup ns, ∀ stop run, (stop, run) ∈ m.runs →
      ∀ c ∈ run, stop.holds c.ast = false) : ∀ m ∈ scriptLast id sub sup ns, m.Legible := by
  intro m hm
  have hrun := hruns m hm
  rcases List.mem_append.mp hm with hm | hm
  · exact hns m (List.dropLast_subset _ hm)
  · obtain ⟨l, hl, rfl⟩ := Option.map_eq_some_iff.mp (Option.mem_toList.mp hm)
    exact legible_scripted (hns l (List.mem_of_getLast? hl)) hsub hsup hs hrun

/-- A legible tree from which the carriers can be dropped. -/
def Sheds (n : Node) : Prop :=
  ∀ m ∈ n.outer, m.LegibleAt ∧ m.ShedsAt

theorem Sheds.self (h : n.Sheds) : n.LegibleAt ∧ n.ShedsAt :=
  h n n.self_mem_outer

theorem Sheds.child (h : n.Sheds) (hn : n.kind ≠ .text) (hc : c ∈ n.children) : c.Sheds :=
  fun m hm => h m (mem_outer_of_child hn hc hm)

theorem Sheds.legible (h : n.Sheds) : n.Legible :=
  fun m hm => (h m hm).1

theorem shedBase_ne_nil {base : Node} (h : base.shed false ≠ []) : base.shedBase ≠ [] := by
  unfold shedBase
  split
  · exact List.cons_ne_nil _ _
  · exact h

theorem shed_script (id : String) (base : Node) (sub sup : Option Node) (asArg : Bool) :
    (script id base sub sup).shed asArg =
      scriptLast id (shedOption sub) (shedOption sup) base.shedBase :=
  rfl

theorem shed_leaf (h : n.isBranch = false) (asArg : Bool) : n.shed asArg = [n] := by
  cases n <;> first | rfl | cases h

/-- A node leaves something in its place among siblings. -/
theorem Sheds.shed_ne_nil (h : n.Sheds) : n.shed false ≠ [] := by
  induction n using childrenInduction with
  | step n ih =>
    have hchild : ∀ c ∈ n.children, n.kind ≠ .text → c.shed false ≠ [] := fun c hc hk =>
      ih c hc (h.child hk hc)
    cases n with
    | color id c body =>
      cases body with
      | nil => exact absurd h.self.2.some (by simp [leavesSome])
      | cons m body =>
        have hm := hchild m (by simp [children]) (by simp [kind])
        simp [shed, shedAll, hm]
    | brace id above body | box id border body background | strike id body =>
      exact hchild body (by simp [children]) (by simp [kind])
    | script id base sub sup =>
      have hbase := shedBase_ne_nil (hchild base (by simp [children]) (by simp [kind]))
      rw [shed_script, scriptLast, List.getLast?_eq_some_getLast hbase]
      simp
    | _ => simp [shed]

theorem legible_shedOption {o : Option Node} (h : ∀ s ∈ o, ∀ m ∈ s.shed true, m.Legible) :
    ∀ s ∈ shedOption o, s.Legible := by
  intro s hs
  rw [shedOption_eq] at hs
  obtain ⟨t, ht, rfl⟩ := Option.map_eq_some_iff.mp hs
  exact legible_group (h t ht)

/-- What a tree leaves is legible. -/
theorem Sheds.legible_shed (h : n.Sheds) (asArg : Bool) : ∀ m ∈ n.shed asArg, m.Legible := by
  induction n using childrenInduction generalizing asArg with
  | step n ih =>
    have hruns := h.self.2.runs
    have hsiblings : ∀ ns, (∀ c ∈ ns, c ∈ n.children) → n.kind ≠ .text →
        ∀ m ∈ shedAll ns, m.Legible := by
      intro ns hns hk m hm
      rw [shedAll_eq] at hm
      obtain ⟨c, hc, hm⟩ := List.mem_flatMap.mp hm
      exact ih c (hns c hc) (h.child hk (hns c hc)) false m hm
    have hslot : ∀ c ∈ n.children, n.kind ≠ .text → ∀ b, (group "" (c.shed b)).Legible :=
      fun c hc hk b => legible_group (ih c hc (h.child hk hc) b)
    cases n with
    | color id c body => exact hsiblings body (fun _ hc => hc) (by simp [kind])
    | brace id above body | box id border body background | strike id body =>
      exact ih body (by simp [children]) (h.child (by simp [kind]) (by simp [children])) asArg
    | group id body =>
      have hbody := hsiblings body (fun _ hc => hc) (by simp [kind])
      rw [shed]
      split
      · exact hbody
      · simpa using legible_group hbody
    | frac id numerator denominator =>
      simp only [shed, List.mem_singleton, forall_eq] at hruns ⊢
      refine .mk ⟨rfl, by simp [names], hruns⟩ fun hk c hc => ?_
      simp only [children, List.mem_cons, List.not_mem_nil, or_false] at hc
      rcases hc with rfl | rfl
      · exact hslot numerator (by simp [children]) hk true
      · exact hslot denominator (by simp [children]) hk true
    | root id body index =>
      simp only [shed, List.mem_singleton, forall_eq] at hruns ⊢
      refine .mk ⟨rfl, by simp [names], hruns⟩ fun hk c hc => ?_
      simp only [children, List.mem_cons, Option.mem_toList] at hc
      rcases hc with rfl | hc
      · exact hslot body (by simp [children]) hk true
      · refine legible_shedOption (fun s hs => ?_) c hc
        have hs' : s ∈ (root id body index).children := by simp [children, Option.mem_def.mp hs]
        exact ih s hs' (h.child hk hs') true
    | array id rows align =>
      have hspelled : align.isSome ∧ ∀ row ∈ rows, row ≠ [] := by
        simpa [spelledAt] using h.self.1.spelled
      simp only [shed, shedRows_eq, List.mem_singleton, forall_eq] at hruns ⊢
      refine .mk ⟨by simpa [spelledAt] using hspelled, h.self.1.names, hruns⟩ fun hk c hc => ?_
      rw [children, ← List.map_flatten] at hc
      obtain ⟨s, hs, rfl⟩ := List.mem_map.mp hc
      exact hslot s hs hk _
    | aligned id cells =>
      simp only [shed, List.mem_singleton, forall_eq] at hruns ⊢
      exact .mk ⟨rfl, by simp [names], hruns⟩ fun hk => hsiblings cells (fun _ hc => hc) hk
    | script id base sub sup =>
      have hk : (script id base sub sup).kind ≠ .text := by simp [kind]
      have hbase : ∀ m ∈ base.shedBase, m.Legible := by
        unfold shedBase
        split
        · simpa using hslot base (by simp [children]) hk false
        · exact ih base (by simp [children]) (h.child hk (by simp [children])) false
      have hsub : ∀ s ∈ shedOption sub, s.Legible := legible_shedOption fun s hs =>
        have hs' : s ∈ (script id base sub sup).children := by simp [children, Option.mem_def.mp hs]
        ih s hs' (h.child hk hs') true
      have hsup : ∀ s ∈ shedOption sup, s.Legible := legible_shedOption fun s hs =>
        have hs' : s ∈ (script id base sub sup).children := by simp [children, Option.mem_def.mp hs]
        ih s hs' (h.child hk hs') true
      have hs : (sub.isSome || sup.isSome) = true ∧ base.isScriptGroup = false := by
        simpa [spelledAt] using h.self.1.spelled
      refine legible_scriptLast hbase hsub hsup ?_ hruns
      rw [shedOption_eq, shedOption_eq, Option.isSome_map, Option.isSome_map]
      exact hs.1
    | _ => simpa [shed] using h.legible

theorem ast_scripted {id : String} (h : n.takes sub.isSome) :
    (n.scripted id sub sup).ast = n.ast ++ scriptMarkup '_' sub ++ scriptMarkup '^' sup := by
  unfold scripted
  split
  next id' base sub' sup' =>
    obtain ⟨rfl, rfl⟩ : sup' = none ∧ sub = none := by simpa [takes] using h
    rw [ast_script, ast_script, Option.or_none, Option.none_or]
    simp [scriptMarkup]
  next =>
    rw [ast_script, ast_group]
    simp [braced, kind, ast_group]
  next hscript _ =>
    have hk : n.kind ≠ .script := by
      intro hk
      cases n with
      | script id' base sub' sup' => exact hscript id' base sub' sup' rfl
      | _ => cases hk
    rw [ast_script, braced, if_neg hk]

theorem joined_scriptLast {id : String} {ns : List Node} (hns : ns ≠ [])
    (h : ns.getLast?.all (takes sub.isSome)) :
    joined (scriptLast id sub sup ns) = joined ns ++ scriptMarkup '_' sub ++ scriptMarkup '^' sup := by
  obtain ⟨init, m, rfl⟩ := (List.eq_nil_or_concat' ns).resolve_left hns
  have hm : m.takes sub.isSome := by simpa using h
  rw [scriptLast, List.dropLast_concat, List.getLast?_concat, Option.map_some, Option.toList_some]
  cases init with
  | nil => simp [ast_scripted hm]
  | cons k init =>
    rw [joined_append (by simp) (by simp), joined_append (by simp) (by simp)]
    simp [ast_scripted hm]

theorem flatMap_spaced_content {ns : List Node}
    (h : ∀ c ∈ ns, c.markup .content false = joined (c.shed false) ∧ c.shed false ≠ []) :
    (Piece.spaced ns).flatMap (Piece.markup .content) = joined (shedAll ns) := by
  induction ns with
  | nil => rfl
  | cons n ns ih =>
    have hn := h n List.mem_cons_self
    have hrest := ih fun c hc => h c (List.mem_cons_of_mem _ hc)
    cases ns with
    | nil => simp [Piece.spaced, Piece.plain, Piece.markup, shedAll, hn.1]
    | cons m ns =>
      have hne : shedAll (m :: ns) ≠ [] := by simp [shedAll, (h m (by simp)).2]
      rw [shedAll, joined_append hn.2 hne, ← hrest, ← hn.1]
      simp [Piece.spaced, Piece.plain, Piece.markup]

/-- Rows are written the same way if their cells are. -/
theorem flatMap_rows_congr {f : Node → Node} {mode mode' : Mode} {rows : List (List Node)}
    (h : ∀ c ∈ rows.flatten, (Piece.cell c).markup mode = (Piece.cell (f c)).markup mode') :
    (List.intercalate [Piece.lit " \\\\ "]
        (rows.map fun row => (row.map Piece.cell).intersperse (.lit " & "))).flatMap
          (Piece.markup mode) =
      (List.intercalate [Piece.lit " \\\\ "]
        ((rows.map (·.map f)).map fun row => (row.map Piece.cell).intersperse (.lit " & "))).flatMap
          (Piece.markup mode') := by
  rw [flatMap_intercalate, flatMap_intercalate, List.map_map, List.map_map, List.map_map]
  congr 1
  refine List.map_congr_left fun row hrow => ?_
  simp only [Function.comp_apply]
  rw [intersperse_eq_intercalate, intersperse_eq_intercalate, flatMap_intercalate, flatMap_intercalate]
  simp only [List.map_map]
  congr 1
  refine List.map_congr_left fun c hc => ?_
  simpa using h c (List.mem_flatten.mpr ⟨row, hrow, hc⟩)

theorem markup_content_array {id : String} {rows : List (List Node)} (align : String) (asArg : Bool)
    (hrows : ∀ row ∈ rows, row ≠ [])
    (hcells : ∀ c ∈ rows.flatten, c.markup .content (!c.isEmptyGroup) = joined (c.shed (!c.isEmptyGroup)))
    (hsome : (array id rows (some align)).leavesSome) :
    (array id rows (some align)).markup .content asArg =
      joined ((array id rows (some align)).shed asArg) := by
  have hcell : ∀ c ∈ rows.flatten,
      (Piece.cell c).markup .content = (Piece.cell c.shedCell).markup .ast := by
    intro c hc
    have hne : c.shed (!c.isEmptyGroup) ≠ [] := by
      simpa using List.all_eq_true.mp hsome c hc
    rw [Piece.markup_cell, shedCell, Piece.cell]
    show c.markup .content (!c.isEmptyGroup) = _
    rw [hcells c hc]
    cases hshed : c.shed (!c.isEmptyGroup) with
    | nil => exact absurd hshed hne
    | cons m ms => rfl
  have hshed : ∀ row ∈ rows.map (·.map shedCell), row ≠ [] := by simpa using hrows
  rw [markup_eq, shed, joined_singleton, shedRows_eq, ast_array id align hshed, ← flatMap_rows hshed,
    ← flatMap_rows_congr hcell]
  simp [pieces, Piece.markup]

/-- The base of scripts is written with braces around a script, in the tree and in what it leaves. -/
theorem markup_content_base {base : Node} (h : base.markup .content false = joined (base.shed false)) :
    (if base.kind = .script then [Piece.lit "\x7b", .plain base, .lit "\x7d"]
      else [.plain base]).flatMap (Piece.markup .content) = joined base.shedBase := by
  unfold shedBase
  split
  · rw [joined_singleton, ast_group]
    simp [Piece.plain, Piece.markup, h]
  · simpa [Piece.plain, Piece.markup] using h

/-- Content markup is the plain markup of what the tree leaves. -/
theorem Sheds.markup_content (h : n.Sheds) (asArg : Bool) :
    n.markup .content asArg = joined (n.shed asArg) := by
  induction n using childrenInduction generalizing asArg with
  | step n ih =>
    have hchild : ∀ c ∈ n.children, n.kind ≠ .text → ∀ b,
        c.markup .content b = joined (c.shed b) := fun c hc hk b => ih c hc (h.child hk hc) b
    have hspaced : ∀ ns, (∀ c ∈ ns, c ∈ n.children) → n.kind ≠ .text →
        (Piece.spaced ns).flatMap (Piece.markup .content) = joined (shedAll ns) := fun ns hns hk =>
      flatMap_spaced_content fun c hc => ⟨hchild c (hns c hc) hk false, (h.child hk (hns c hc)).shed_ne_nil⟩
    rw [markup_eq]
    cases n with
    | color id c body => simpa [pieces, shed] using hspaced body (fun _ hc => hc) (by simp [kind])
    | brace id above body | box id border body background | strike id body =>
      simpa [pieces, shed, Piece.markup] using hchild body (by simp [children]) (by simp [kind]) asArg
    | group id body =>
      have hbody := hspaced body (fun _ hc => hc) (by simp [kind])
      rw [pieces, shed]
      split
      · exact hbody
      · rw [joined_singleton, ast_group, ← hbody]
        simp [Piece.markup]
    | frac id numerator denominator =>
      have ha := hchild numerator (by simp [children]) (by simp [kind]) true
      have hb := hchild denominator (by simp [children]) (by simp [kind]) true
      rw [shed, joined_singleton, ast_frac, contents_group brace_ne_cell, contents_group brace_ne_cell]
      simp [pieces, Piece.arg, Piece.markup, ha, hb]
    | root id body index =>
      have hbody := hchild body (by simp [children]) (by simp [kind]) true
      rw [shed, joined_singleton]
      cases index with
      | none =>
        rw [shedOption, ast_root_none, contents_group brace_ne_cell]
        simp [pieces, Piece.arg, Piece.markup, hbody]
      | some m =>
        have hm := hchild m (by simp [children]) (by simp [kind]) true
        rw [shedOption, ast_root_some, contents_group brace_ne_cell, contents_group bracket_ne_cell]
        simp [pieces, Piece.arg, Piece.markup, hbody, hm]
    | array id rows align =>
      have hspelled : align.isSome ∧ ∀ row ∈ rows, row ≠ [] := by
        simpa [spelledAt] using h.self.1.spelled
      obtain ⟨align, rfl⟩ := Option.isSome_iff_exists.mp hspelled.1
      rw [← markup_eq]
      exact markup_content_array align asArg hspelled.2 (fun c hc => hchild c hc (by simp [kind]) _)
        h.self.2.some
    | aligned id cells =>
      have hcells := hspaced cells (fun _ hc => hc) (by simp [kind])
      rw [shed, joined_singleton, ast_aligned, ← hcells]
      simp [pieces, Piece.markup]
    | script id base sub sup =>
      have hbase := hchild base (by simp [children]) (by simp [kind]) false
      have hne := (h.child (c := base) (by simp [kind]) (by simp [children])).shed_ne_nil
      have hargs : ∀ s ∈ sub.toList ++ sup.toList, s.markup .content true = joined (s.shed true) :=
        fun s hs => hchild s (List.mem_cons_of_mem base hs) (by simp [kind]) true
      have htakes : base.shedBase.getLast?.all (takes (shedOption sub).isSome) := by
        rw [shedOption_eq, Option.isSome_map]
        exact h.self.2.scripts
      rw [shed_script, joined_scriptLast (shedBase_ne_nil hne) htakes]
      unfold pieces
      rw [List.flatMap_append, List.flatMap_append, markup_content_base hbase]
      cases sub <;> cases sup <;>
        simp_all [shedOption, scriptMarkup, Piece.arg, Piece.markup, contents_group brace_ne_cell]
    | text id body =>
      rw [shed_leaf rfl, joined_singleton, ast_text]
      simp [pieces, Piece.markup, List.flatMap_map]
    | symbol | space | op | var | newLine | alignMark =>
      rw [shed_leaf rfl, joined_singleton, ast, markup_eq]
      simp [pieces, Piece.tagged, Piece.markup]

theorem signs_script (id : String) (base : Node) (sub sup : Option Node) :
    (script id base sub sup).signs =
      base.signs ++ (sub.toList.flatMap signs ++ sup.toList.flatMap signs) := by
  rw [signs_eq, written_eq]
  simp [sign?, isCarrier, children]

/-- Scripts behind a node show their leaves behind those of the node. -/
theorem signs_scripted {id : String} (h : n.takes sub.isSome) :
    (n.scripted id sub sup).signs =
      n.signs ++ (sub.toList.flatMap signs ++ sup.toList.flatMap signs) := by
  unfold scripted
  split
  next id' base sub' sup' =>
    obtain ⟨rfl, rfl⟩ : sup' = none ∧ sub = none := by simpa [takes] using h
    rw [Option.or_none, Option.none_or, signs_script, signs_script]
    simp
  next => rw [signs_script, signs_group, List.flatMap_singleton]
  next => exact signs_script id _ sub sup

theorem signs_scriptLast {id : String} {ns : List Node} (hns : ns ≠ [])
    (h : ns.getLast?.all (takes sub.isSome)) :
    (scriptLast id sub sup ns).flatMap signs =
      ns.flatMap signs ++ (sub.toList.flatMap signs ++ sup.toList.flatMap signs) := by
  obtain ⟨init, m, rfl⟩ := (List.eq_nil_or_concat' ns).resolve_left hns
  have hm : m.takes sub.isSome := by simpa using h
  rw [scriptLast, List.dropLast_concat, List.getLast?_concat, Option.map_some, Option.toList_some]
  simp [signs_scripted hm]

theorem isLeaf_of_mem_letters {body : List Node} (h : body.all isLetter) {x : Sign}
    (hx : x ∈ body.flatMap signs) : x.isLeaf := by
  obtain ⟨c, hc, hx⟩ := List.mem_flatMap.mp hx
  have hletter := List.all_eq_true.mp h c hc
  cases c with
  | symbol id value =>
    rw [signs_eq, written_eq] at hx
    obtain rfl : x = .symbol value := by simpa [sign?, children] using hx
    rfl
  | _ => cases hletter

/-- What a tree leaves shows the leaves of the tree and no carriers. -/
theorem Sheds.signs_shed (h : n.Sheds) (asArg : Bool) :
    (n.shed asArg).flatMap signs = n.signs.filter Sign.isLeaf := by
  induction n using childrenInduction generalizing asArg with
  | step n ih =>
    have hchild : ∀ c ∈ n.children, n.kind ≠ .text → ∀ b,
        (c.shed b).flatMap signs = c.signs.filter Sign.isLeaf := fun c hc hk b => ih c hc (h.child hk hc) b
    have hsiblings : ∀ ns, (∀ c ∈ ns, c ∈ n.children) → n.kind ≠ .text →
        (shedAll ns).flatMap signs = (ns.flatMap signs).filter Sign.isLeaf := by
      intro ns hns hk
      rw [shedAll_eq, List.flatMap_assoc, List.filter_flatMap]
      exact List.flatMap_congr fun c hc => hchild c (hns c hc) hk false
    have hoption : ∀ o : Option Node, (∀ s ∈ o, s ∈ n.children) → n.kind ≠ .text →
        (shedOption o).toList.flatMap signs = (o.toList.flatMap signs).filter Sign.isLeaf := by
      intro o ho hk
      cases o with
      | none => rfl
      | some s => simpa [shedOption, signs_group] using hchild s (ho s rfl) hk true
    cases n with
    | color id c body =>
      rw [signs_eq, written_eq]
      simpa [shed, sign?, isCarrier, children, Sign.isLeaf] using hsiblings body (fun _ hc => hc) (by simp [kind])
    | brace id above body | box id border body background | strike id body =>
      rw [signs_eq, written_eq]
      simpa [shed, sign?, isCarrier, children, Sign.isLeaf] using
        hchild body (by simp [children]) (by simp [kind]) asArg
    | group id body =>
      have hbody := hsiblings body (fun _ hc => hc) (by simp [kind])
      rw [shed, signs_group, ← hbody]
      split
      · rfl
      · rw [List.flatMap_singleton, signs_group]
    | frac id numerator denominator =>
      have ha := hchild numerator (by simp [children]) (by simp [kind]) true
      have hb := hchild denominator (by simp [children]) (by simp [kind]) true
      rw [shed, List.flatMap_singleton, signs_eq, signs_eq (frac id numerator _), written_eq, written_eq]
      simp [sign?, isCarrier, children, signs_group, ha, hb]
    | root id body index =>
      have hbody := hchild body (by simp [children]) (by simp [kind]) true
      have hindex := hoption index (by simp +contextual [children]) (by simp [kind])
      rw [shed, List.flatMap_singleton, signs_eq, signs_eq (root id body _), written_eq, written_eq]
      simp [sign?, isCarrier, signs_group, hbody, hindex]
    | array id rows align =>
      rw [shed, List.flatMap_singleton, signs_eq, signs_eq (array id rows _), written_eq, written_eq,
        shedRows_eq]
      simp only [sign?, isCarrier, children, Option.toList_none, List.nil_append, ← List.map_flatten,
        List.flatMap_map, List.filter_flatMap, Bool.false_eq_true, if_false]
      refine List.flatMap_congr fun c hc => ?_
      rw [shedCell, signs_group]
      exact hchild c hc (by simp [kind]) _
    | aligned id cells =>
      have hcells := hsiblings cells (fun _ hc => hc) (by simp [kind])
      rw [shed, List.flatMap_singleton, signs_eq, signs_eq (aligned id cells), written_eq, written_eq]
      simpa [sign?, isCarrier, children] using hcells
    | script id base sub sup =>
      have hbase := hchild base (by simp [children]) (by simp [kind]) false
      have hne := (h.child (c := base) (by simp [kind]) (by simp [children])).shed_ne_nil
      have hsub := hoption sub (by simp +contextual [children]) (by simp [kind])
      have hsup := hoption sup (by simp +contextual [children]) (by simp [kind])
      have htakes : base.shedBase.getLast?.all (takes (shedOption sub).isSome) := by
        rw [shedOption_eq, Option.isSome_map]
        exact h.self.2.scripts
      have hshed : base.shedBase.flatMap signs = base.signs.filter Sign.isLeaf := by
        rw [← hbase, shedBase]
        split
        · rw [List.flatMap_singleton, signs_group]
        · rfl
      rw [shed_script, signs_scriptLast (shedBase_ne_nil hne) htakes, signs_script, hshed, hsub, hsup]
      simp
    | text id body =>
      have hletters : body.all isLetter := h.self.1.spelled
      rw [shed_leaf rfl, List.flatMap_singleton, signs_eq, written_eq]
      exact (List.filter_eq_self.mpr fun x hx => isLeaf_of_mem_letters hletters hx).symm
    | var id latex => exact absurd h.self.1.spelled (by simp [spelledAt])
    | symbol | space | op | newLine | alignMark =>
      rw [shed_leaf rfl, List.flatMap_singleton, signs_eq, written_eq]
      rfl

end Node

namespace Formula

variable {f : Formula} {text : String}

theorem toList_latex_content (h : ∀ n ∈ f.children, n.Sheds) :
    (f.latex .content).toList = joined (Node.shedAll f.children) := by
  have hmarkup : ∀ n ∈ f.children, n.markup .content false = joined (n.shed false) ∧ n.shed false ≠ [] :=
    fun n hn => ⟨(h n hn).markup_content false, (h n hn).shed_ne_nil⟩
  rw [latex, f.layout_eq, Layout.toList_textAll, List.flatMap_map, ← Node.flatMap_spaced_content hmarkup]
  refine List.flatMap_congr fun p _ => ?_
  cases p <;> rfl

theorem sheds_of_parse (hf : parse [] text = .ok f) (hagain : parse [] (f.latex .ast) = .ok f)
    (h : ∀ n ∈ f.nodes, n.ShedsAt) : ∀ n ∈ f.children, n.Sheds := by
  have hsettled := settled_of_parse_self hf hagain
  intro n hn m hm
  have hmem : m ∈ f.nodes := List.mem_flatMap.mpr ⟨n, hn, Node.mem_preorder_of_mem_outer hm⟩
  exact ⟨(hsettled n hn).legible m hm, h m hmem⟩

/-- The content markup of a formula that is parsed from its own markup is parsed to a formula without
carriers that has the same leaves, if what the carriers leave fits where they stood. -/
theorem parse_latex_content (hf : parse [] text = .ok f) (hagain : parse [] (f.latex .ast) = .ok f)
    (h : ∀ n ∈ f.nodes, n.ShedsAt) :
    ∃ g, parse [] (f.latex .content) = .ok g ∧ (∀ n ∈ g.nodes, n.isCarrier = false) ∧
      g.leaves = f.leaves := by
  have hsheds := sheds_of_parse hf hagain h
  have hlegible : ∀ m ∈ Node.shedAll f.children, m.Legible := by
    intro m hm
    rw [Node.shedAll_eq] at hm
    obtain ⟨n, hn, hm⟩ := List.mem_flatMap.mp hm
    exact (hsheds n hn).legible_shed false m hm
  have hreread : ((Node.shedAll f.children).map Node.reread).flatMap Node.signs =
      (Node.shedAll f.children).flatMap Node.signs := by
    rw [List.flatMap_map]
    exact List.flatMap_congr fun n _ => n.signs_reread
  have hsigns : (labelNodes false ((Node.shedAll f.children).map Node.reread)).flatMap Node.signs =
      f.leaves := by
    rw [leaves, signs_labelNodes, hreread, Node.shedAll_eq, List.flatMap_assoc, List.filter_flatMap]
    exact List.flatMap_congr fun n hn => (hsheds n hn).signs_shed false
  have hparse := parse_joined hlegible (toList_latex_content hsheds)
  refine ⟨_, hparse, ?_, ?_⟩
  · intro m hm
    obtain ⟨n, hn, hm⟩ := List.mem_flatMap.mp hm
    cases hcarrier : m.isCarrier with
    | false => rfl
    | true =>
      have hsign := List.mem_flatMap.mpr ⟨n, hn, Node.carrier_mem_signs hm hcarrier⟩
      rw [hsigns, leaves] at hsign
      have hleaf := (List.mem_filter.mp hsign).2
      exact absurd hleaf (by simp [Sign.isLeaf])
  · rw [leaves, hsigns, leaves, List.filter_filter]
    simp

/-- A color over two letters and a brace with a caption leave what they hold. -/
theorem parse_latex_content_of_fraction : ∃ f g : Formula,
    parse [] "\\frac\x7b\\textcolor\x7bred\x7d\x7ba b\x7d_1\x7d\x7b\\overbrace\x7bx_1\x7d^n\x7d" = .ok f ∧
    parse [] (f.latex .ast) = .ok f ∧ (∀ n ∈ f.nodes, n.ShedsAt) ∧
    parse [] (f.latex .content) = .ok g ∧ (∀ n ∈ g.nodes, n.isCarrier = false) ∧
    g.leaves = f.leaves := by
  obtain ⟨f, hf, hagain, hsheds⟩ := exists_ok_of_any (p := fun f : Formula =>
      (parse [] (f.latex .ast)).toOption = some f ∧ ∀ n ∈ f.nodes, n.ShedsAt)
    (show (parse [] "\\frac\x7b\\textcolor\x7bred\x7d\x7ba b\x7d_1\x7d\x7b\\overbrace\x7bx_1\x7d^n\x7d").toOption.any _ by
      decide +kernel)
  obtain ⟨g, hg, hcarriers, hleaves⟩ := parse_latex_content hf (ok_of_toOption hagain) hsheds
  exact ⟨f, g, hf, ok_of_toOption hagain, hsheds, hg, hcarriers, hleaves⟩

/-- A colored script with a subscript of its own loses the color, and then has two. -/
theorem parse_latex_content_script : ∃ f,
    parse [] "\\textcolor\x7bred\x7d\x7bx_\x7b1\x7d\x7d_\x7b2\x7d" = .ok f ∧
    parse [] (f.latex .ast) = .ok f ∧ f.latex .content = "x_\x7b1\x7d_\x7b2\x7d" ∧
    ∀ g, parse [] (f.latex .content) ≠ .ok g := by
  obtain ⟨f, hf, hagain, hcontent⟩ := exists_ok_of_any (p := fun f : Formula =>
      (parse [] (f.latex .ast)).toOption = some f ∧ f.latex .content = "x_\x7b1\x7d_\x7b2\x7d")
    (show (parse [] "\\textcolor\x7bred\x7d\x7bx_\x7b1\x7d\x7d_\x7b2\x7d").toOption.any _ by decide +kernel)
  have hrefused : (parse [] "x_\x7b1\x7d_\x7b2\x7d").toOption = none := by decide +kernel
  refine ⟨f, hf, ok_of_toOption hagain, hcontent, fun g hg => ?_⟩
  rw [hcontent] at hg
  rw [hg] at hrefused
  cases hrefused

end Formula

end FormulaDoc
