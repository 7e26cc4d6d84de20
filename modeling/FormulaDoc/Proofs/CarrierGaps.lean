import FormulaDoc.Proofs.CarrierSpans

namespace FormulaDoc

/-- The first span ends before the second begins, or holds it strictly inside. -/
def Span.Precedes (s t : Span) : Prop :=
  s.stop < t.start ∨ s.start < t.start ∧ t.stop < s.stop

/-- Marks in the order of their starts, none empty, with a gap wherever two might meet. -/
structure Gapped (ms : List Mark) : Prop where
  pairwise : ms.Pairwise fun k l => k.span.Precedes l.span
  proper : ∀ k ∈ ms, k.span.start < k.span.stop

theorem Gapped.nil : Gapped [] := ⟨.nil, by simp⟩

theorem Gapped.append {as bs : List Mark} (ha : Gapped as) (hb : Gapped bs)
    (h : ∀ k ∈ as, ∀ l ∈ bs, k.span.stop < l.span.start) : Gapped (as ++ bs) := by
  have hbetween : ∀ k ∈ as, ∀ l ∈ bs, k.span.stop < l.span.start ∨
      (k.span.start < l.span.start ∧ l.span.stop < k.span.stop) := fun k hk l hl => .inl (h k hk l hl)
  refine ⟨List.pairwise_append.mpr ⟨ha.pairwise, hb.pairwise, hbetween⟩, ?_⟩
  intro k hk
  rcases List.mem_append.mp hk with hk | hk
  · exact ha.proper k hk
  · exact hb.proper k hk

theorem Gapped.cons {k : Mark} {ms : List Mark} (hms : Gapped ms) (hk : k.span.start < k.span.stop)
    (h : ∀ l ∈ ms, k.span.start < l.span.start ∧ l.span.stop < k.span.stop) : Gapped (k :: ms) := by
  have hinside : ∀ l ∈ ms, k.span.stop < l.span.start ∨
      (k.span.start < l.span.start ∧ l.span.stop < k.span.stop) := fun l hl => .inr (h l hl)
  refine ⟨List.pairwise_cons.mpr ⟨hinside, hms.pairwise⟩, ?_⟩
  intro l hl
  rcases List.mem_cons.mp hl with rfl | hl
  · exact hk
  · exact hms.proper l hl

namespace Piece

/-- A literal that is not empty follows every reference. -/
inductive Closed : List Piece → Prop
  | nil : Closed []
  | lit {s ps} (h : Closed ps) : Closed (.lit s :: ps)
  | child {c a m s ps} (hs : s ≠ "") (h : Closed ps) : Closed (.child c a m :: .lit s :: ps)

/-- Pieces that such a literal makes closed. -/
def Closable (ps : List Piece) : Prop :=
  ∀ s, s ≠ "" → Closed (ps ++ [.lit s])

theorem Closed.append {ps qs : List Piece} (h : Closed ps) (hqs : Closed qs) : Closed (ps ++ qs) := by
  induction h with
  | nil => exact hqs
  | lit _ ih => exact .lit ih
  | child hs _ ih => exact .child hs ih

theorem Closed.closable {ps : List Piece} (h : Closed ps) : Closable ps :=
  fun _ _ => h.append (.lit .nil)

theorem Closable.append {ps qs : List Piece} {s : String} (h : Closable ps) (hs : s ≠ "")
    (hqs : Closed qs) : Closed (ps ++ .lit s :: qs) := by
  have happend := (h s hs).append hqs
  rwa [List.append_assoc, List.singleton_append] at happend

theorem closable_child (c : Node) (a : Bool) (m : Option Mode) : Closable [.child c a m] :=
  fun _ hs => .child hs .nil

theorem closable_intercalate {sep : String} (hsep : sep ≠ "") {parts : List (List Piece)}
    (h : ∀ ps ∈ parts, Closable ps) : Closable (List.intercalate [.lit sep] parts) := by
  induction parts with
  | nil => exact Closed.nil.closable
  | cons ps parts ih =>
    have hps := h ps List.mem_cons_self
    have hothers : ∀ rs ∈ parts, Closable rs := fun rs hrs => h rs (List.mem_cons_of_mem _ hrs)
    cases parts with
    | nil => simpa using hps
    | cons qs parts =>
      intro s hs
      have hrest := ih hothers s hs
      rw [List.intercalate_cons_cons, List.append_assoc, List.append_assoc]
      exact hps.append hsep hrest

theorem closable_intersperse {sep : String} (hsep : sep ≠ "") {f : Node → Piece}
    (hf : ∀ n, Closable [f n]) (items : List Node) :
    Closable ((items.map f).intersperse (.lit sep)) := by
  rw [intersperse_eq_intercalate, List.map_map]
  refine closable_intercalate hsep fun ps hps => ?_
  obtain ⟨n, -, rfl⟩ := List.mem_map.mp hps
  exact hf n

theorem closable_spaced (items : List Node) : Closable (spaced items) :=
  closable_intersperse (by decide) (fun n => closable_child n false none) items

theorem closed_script (mark : String) (script : Option Node) :
    Closed (match script with | some n => [lit mark, arg n, lit "\x7d"] | none => []) := by
  cases script with
  | none => exact .nil
  | some n => exact .lit (.child (by decide) .nil)

theorem Closable.wrapped {ps : List Piece} (h : Closable ps) (left : String) {right : String}
    (hright : right ≠ "") : Closed (lit left :: ps ++ [lit right]) :=
  .lit (h right hright)

end Piece

namespace Node

open Piece

/-- Only in a text do references stand side by side. -/
theorem closable_pieces {n : Node} (h : n.kind ≠ .text) (asArg : Bool) :
    Closable (n.pieces .ast asArg) := by
  have hclose : "\x7d" ≠ "" := by decide
  cases n with
  | text => exact absurd rfl h
  | frac id numerator denominator =>
    have hdenominator : Closed [arg denominator, lit "\x7d"] := .child hclose .nil
    have hnumerator : Closed (arg numerator :: lit "\x7d\x7b" :: [arg denominator, lit "\x7d"]) :=
      .child (by decide) hdenominator
    exact Closed.closable (.lit hnumerator)
  | script id base sub sup =>
    have hsub := closed_script "_\x7b" sub
    have hsup := closed_script "^\x7b" sup
    have hscripts := hsub.append hsup
    simp only [pieces, List.append_assoc]
    split
    next => exact Closed.closable (.lit (.child hclose hscripts))
    next =>
      intro s hs
      cases sub with
      | some m =>
        have hrest : Closed (arg m :: lit "\x7d" :: _) := .child hclose (hsup.closable s hs)
        exact .child (by decide) hrest
      | none =>
        cases sup with
        | some m =>
          have hrest : Closed (arg m :: lit "\x7d" :: [lit s]) := .child hclose (.lit .nil)
          exact .child (by decide) hrest
        | none => exact .child hs .nil
  | root id body index =>
    have hbody : Closed [arg body, lit "\x7d"] := .child hclose .nil
    cases index with
    | none => exact Closed.closable (.lit (.lit hbody))
    | some m =>
      have hindex : Closed (arg m :: lit "]" :: lit "\x7b" :: [arg body, lit "\x7d"]) :=
        .child (by decide) (.lit hbody)
      exact Closed.closable (.lit (.lit hindex))
  | group id body =>
    have hbody := closable_spaced body
    simp only [pieces]
    split
    next => exact hbody
    next => exact (hbody.wrapped _ (by decide)).closable
  | array id rows align =>
    refine (Closable.wrapped ?_ _ (by decide)).closable
    refine closable_intercalate (by decide) fun ps hps => ?_
    obtain ⟨row, -, rfl⟩ := List.mem_map.mp hps
    exact closable_intersperse (by decide) (fun n => closable_child n _ _) row
  | color id c body =>
    have hbody := closable_spaced body
    exact (hbody.wrapped _ (by decide)).closable
  | aligned id cells =>
    have hcells := closable_spaced cells
    exact (hcells.wrapped _ (by decide)).closable
  | brace | box | strike => exact Closed.closable (.lit (.child (by decide) .nil))
  | _ => exact Closed.closable (.lit .nil)

/-- A style carrier begins with a literal that is not empty, unless it is a variable that is written
as nothing, and it ends with one. -/
theorem closed_pieces {n : Node} (h : n.isCarrier) (hvar : ∀ id, n ≠ .var id "") (asArg : Bool) :
    ∃ s ps, s ≠ "" ∧ n.pieces .ast asArg = lit s :: ps ∧ Closed ps := by
  have hname : ∀ s t : String, s ≠ "" → s ++ t ≠ "" := by
    intro s t hs he
    exact hs (String.append_eq_empty_iff.mp he).1
  cases n with
  | color id c body =>
    have hopen : "\\textcolor\x7b" ++ c ++ "\x7d\x7b" ≠ "" := hname _ _ (hname _ _ (by decide))
    exact ⟨_, _, hopen, rfl, closable_spaced body _ (by decide)⟩
  | box id border body background =>
    have hborder : "\\fcolorbox\x7b" ++ border ++ "\x7d\x7b" ≠ "" := hname _ _ (hname _ _ (by decide))
    exact ⟨_, _, hname _ _ (hname _ _ hborder), rfl, .child (by decide) .nil⟩
  | brace id above body =>
    refine ⟨_, _, ?_, rfl, .child (by decide) .nil⟩
    cases above <;> decide
  | strike id body => exact ⟨_, _, by decide, rfl, .child (by decide) .nil⟩
  | var id latex =>
    have hshown : latex ≠ "" := fun he => hvar id (by rw [he])
    exact ⟨latex, [], hshown, rfl, .nil⟩
  | _ => cases h

end Node

namespace Layout

open Piece

variable {s d : Nat} {mode : Mode} {ps : List Piece} {k : Mark}

theorem marksAll_append (s d : Nat) (as bs : List Layout) :
    marksAll s d (as ++ bs) = marksAll s d as ++ marksAll (s + (textAll as).length) d bs := by
  induction as generalizing s with
  | nil => simp [marksAll, textAll]
  | cons l as ih =>
    rw [List.cons_append, marksAll, marksAll, ih, length_textAll_cons, List.append_assoc,
      Nat.add_assoc]

mutual

/-- Marks stand inside of the layout that they belong to. -/
theorem bounds_of_mem_marks {s d : Nat} {k : Mark} : (l : Layout) → k ∈ l.marks s d →
    s ≤ k.span.start ∧ k.span.stop ≤ s + l.text.length
  | .lit t, h => by cases h
  | .node n mode asArg inner, h => by
    rw [marks] at h
    rw [text]
    split at h
    next =>
      rcases List.mem_cons.mp h with rfl | h
      · exact ⟨Nat.le_refl _, Nat.le_refl _⟩
      · exact bounds_of_mem_marksAll inner h
    next => exact bounds_of_mem_marksAll inner h

theorem bounds_of_mem_marksAll {s d : Nat} {k : Mark} : (ls : List Layout) → k ∈ marksAll s d ls →
    s ≤ k.span.start ∧ k.span.stop ≤ s + (textAll ls).length
  | [], h => by cases h
  | l :: ls, h => by
    rw [marksAll] at h
    rw [length_textAll_cons]
    rcases List.mem_append.mp h with h | h
    · obtain ⟨hstart, hstop⟩ := bounds_of_mem_marks l h
      omega
    · obtain ⟨hstart, hstop⟩ := bounds_of_mem_marksAll ls h
      omega

end

theorem length_pos {t : String} (h : t ≠ "") : 0 < t.length := by
  have hne : t.length ≠ 0 := fun he => h (String.length_eq_zero_iff.mp he)
  omega

/-- In closed pieces every mark ends before the last literal does. -/
theorem stop_lt_of_closed (h : Closed ps) (hk : k ∈ marksAll s d (ps.map (Piece.layout mode))) :
    k.span.stop < s + (textAll (ps.map (Piece.layout mode))).length := by
  induction h generalizing s with
  | nil => cases hk
  | lit _ ih =>
    rw [List.map_cons, marksAll, Piece.layout, marks, List.nil_append] at hk
    rw [List.map_cons, length_textAll_cons, ← Nat.add_assoc]
    exact ih hk
  | @child c a m t ps ht _ ih =>
    have hpos := length_pos ht
    rw [List.map_cons, List.map_cons, marksAll, marksAll, Piece.layout, Piece.layout, marks,
      List.nil_append, text] at hk
    rw [List.map_cons, List.map_cons, length_textAll_cons, length_textAll_cons, Piece.layout,
      Piece.layout, text]
    rcases List.mem_append.mp hk with hk | hk
    · obtain ⟨-, hstop⟩ := bounds_of_mem_marks _ hk
      omega
    · have hstop := ih hk
      omega

/-- Closed pieces keep the marks of the nodes apart that they refer to. -/
theorem gapped_of_closed (h : Closed ps)
    (hchild : ∀ c a m, Piece.child c a m ∈ ps → ∀ s, Gapped ((c.layout (m.getD mode) a).marks s d))
    (s : Nat) : Gapped (marksAll s d (ps.map (Piece.layout mode))) := by
  induction h generalizing s with
  | nil => exact .nil
  | lit _ ih =>
    rw [List.map_cons, marksAll, Piece.layout, marks, List.nil_append]
    exact ih (fun c a m hp => hchild c a m (List.mem_cons_of_mem _ hp)) _
  | @child c a m t ps ht _ ih =>
    have hpos := length_pos ht
    have hfirst := hchild c a m List.mem_cons_self s
    have hothers : ∀ c a m, Piece.child c a m ∈ ps → ∀ s, Gapped ((c.layout (m.getD mode) a).marks s d) :=
      fun c a m hp => hchild c a m (List.mem_cons_of_mem _ (List.mem_cons_of_mem _ hp))
    rw [List.map_cons, List.map_cons, marksAll, marksAll, Piece.layout, Piece.layout, marks,
      List.nil_append, text]
    refine hfirst.append (ih hothers _) fun k hk l hl => ?_
    obtain ⟨-, hstop⟩ := bounds_of_mem_marks _ hk
    obtain ⟨hstart, -⟩ := bounds_of_mem_marksAll _ hl
    omega

theorem gapped_of_closable (h : Closable ps)
    (hchild : ∀ c a m, Piece.child c a m ∈ ps → ∀ s, Gapped ((c.layout (m.getD mode) a).marks s d))
    (s : Nat) : Gapped (marksAll s d (ps.map (Piece.layout mode))) := by
  have hblank : Closed (ps ++ [.lit " "]) := h " " (by decide)
  have hreferred : ∀ c a m, Piece.child c a m ∈ ps ++ [.lit " "] →
      ∀ s, Gapped ((c.layout (m.getD mode) a).marks s d) := by
    intro c a m hp
    exact hchild c a m (by simpa using hp)
  have hclosed := gapped_of_closed hblank hreferred s
  rw [List.map_append, marksAll_append, List.map_cons, marksAll, Piece.layout, marks] at hclosed
  simpa [marksAll] using hclosed

end Layout

namespace Node

open Layout

variable {n : Node}

/-- A tree in which no variable is written as nothing. -/
def VarsShown (n : Node) : Prop :=
  ∀ v ∈ n.preorder, ∀ id, v ≠ .var id ""

theorem VarsShown.child {c : Node} (h : n.VarsShown) (hc : c ∈ n.children) : c.VarsShown := by
  intro v hv
  refine h v ?_
  rw [preorder_eq]
  exact List.mem_cons_of_mem _ (List.mem_flatMap.mpr ⟨c, hc, hv⟩)

theorem VarsShown.self (h : n.VarsShown) (id : String) : n ≠ .var id "" := by
  refine h n ?_ id
  rw [preorder_eq]
  exact List.mem_cons_self

/-- The carriers of a tree keep apart. -/
theorem gapped_marks (h : n.PlainTexts) (hvars : n.VarsShown) (asArg : Bool) (s d : Nat) :
    Gapped ((n.layout .ast asArg).marks s d) := by
  induction n using childrenInduction generalizing asArg s d with
  | step n ih =>
    by_cases hstyle : n.Unstyled
    · rw [marks_layout_of_unstyled hstyle]
      exact .nil
    have htext : n.kind ≠ .text := h.kind_ne hstyle
    have hchild : ∀ d c a m, Piece.child c a m ∈ n.pieces .ast asArg →
        ∀ s, Gapped ((c.layout (m.getD .ast) a).marks s d) := by
      intro d c a m hp s
      have hc := mem_children_of_piece hp
      rw [mode_of_piece hp, if_neg htext]
      exact ih c hc (h.child hc) (hvars.child hc) a s d
    rw [layout_eq, Layout.marks]
    split
    next hn =>
      obtain ⟨t, ps, ht, hpieces, hclosed⟩ := closed_pieces hn hvars.self asArg
      have hpos := length_pos ht
      rw [hpieces] at hchild ⊢
      have hbelow := gapped_of_closed (.lit hclosed) (hchild (d + 1)) s
      refine hbelow.cons ?_ fun l hl => ?_
      · rw [List.map_cons, length_textAll_cons, Piece.layout, Layout.text]
        dsimp only
        omega
      · rw [List.map_cons, marksAll, Piece.layout, Layout.marks, List.nil_append, Layout.text] at hl
        rw [List.map_cons, length_textAll_cons, Piece.layout, Layout.text]
        obtain ⟨hstart, -⟩ := bounds_of_mem_marksAll _ hl
        have hstop := stop_lt_of_closed hclosed hl
        dsimp only
        omega
    next => exact gapped_of_closable (closable_pieces htext asArg) (hchild d) s

end Node

namespace Formula

open Layout

/-- The style carriers of a formula keep apart. -/
theorem gapped_marks {f : Formula} (h : f.PlainTexts) (hvars : ∀ v ∈ f.nodes, ∀ id, v ≠ .var id "") :
    Gapped (Range.marks 0 0 f.ranges) := by
  rw [marks_ranges h, f.layout_eq]
  refine gapped_of_closable (Piece.closable_spaced f.children) ?_ 0
  intro c a m hp s
  have hc : c ∈ f.children := by
    rw [← Piece.references_spaced f.children]
    exact Piece.mem_references hp
  have hm : m = none := Piece.ownMode_of_mem_spaced hp
  have hshown : c.VarsShown := fun v hv => hvars v (List.mem_flatMap.mpr ⟨c, hc, hv⟩)
  rw [hm, Option.getD_none]
  exact Node.gapped_marks (h.plainTexts hc) hshown a s 0

end Formula

end FormulaDoc
