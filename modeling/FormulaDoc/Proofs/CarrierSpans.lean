import FormulaDoc.Proofs.Places

namespace FormulaDoc

namespace Layout

mutual

/-- The style carriers of a layout that begins at an offset and a depth, each before those inside. -/
def marks (start depth : Nat) : Layout → List Mark
  | .lit _ => []
  | .node n _ _ inner =>
    if n.isCarrier then
      ⟨n.id?.getD "", ⟨start, start + (textAll inner).length⟩, depth, n.hints?⟩ ::
        marksAll start (depth + 1) inner
    else marksAll start depth inner

def marksAll (start depth : Nat) : List Layout → List Mark
  | [] => []
  | l :: ls => l.marks start depth ++ marksAll (start + l.text.length) depth ls

end

end Layout

theorem Node.exists_id_of_isCarrier {n : Node} (h : n.isCarrier) : ∃ id, n.id? = some id := by
  cases n <;> first | exact ⟨_, rfl⟩ | cases h

namespace Layout

mutual

/-- A mark of a layout is a span of it. -/
theorem mem_spans_of_mem_marks {s d : Nat} {k : Mark} :
    (l : Layout) → k ∈ l.marks s d → (k.id, k.span) ∈ l.spans s
  | .lit t, h => by cases h
  | .node n mode asArg inner, h => by
    rw [marks] at h
    rw [spans, List.mem_append]
    split at h
    next hn =>
      obtain ⟨id, hid⟩ := n.exists_id_of_isCarrier hn
      rcases List.mem_cons.mp h with rfl | h
      · simp [hid]
      · exact .inl (mem_spansAll_of_mem_marksAll inner h)
    next => exact .inl (mem_spansAll_of_mem_marksAll inner h)

theorem mem_spansAll_of_mem_marksAll {s d : Nat} {k : Mark} :
    (ls : List Layout) → k ∈ marksAll s d ls → (k.id, k.span) ∈ spansAll s ls
  | [], h => by cases h
  | l :: ls, h => by
    rw [marksAll] at h
    rw [spansAll, List.mem_append]
    rcases List.mem_append.mp h with h | h
    · exact .inl (mem_spans_of_mem_marks l h)
    · exact .inr (mem_spansAll_of_mem_marksAll ls h)

end

/-- The marks of some pieces are those of the nodes that they refer to. -/
theorem perm_marksAll {α : Type} {f : Mark → α} {g : Node → List α} {mode : Mode} {d : Nat}
    {ps : List Piece}
    (h : ∀ c ∈ Piece.references ps, ∀ s m a, (((c.layout m a).marks s d).map f).Perm (g c)) (s : Nat) :
    ((marksAll s d (ps.map (Piece.layout mode))).map f).Perm ((Piece.references ps).flatMap g) := by
  induction ps generalizing s with
  | nil => exact .refl _
  | cons p ps ih =>
    rw [List.map_cons, marksAll, List.map_append]
    cases p with
    | lit t =>
      rw [Piece.layout, marks, List.map_nil, List.nil_append]
      exact ih h _
    | child c a m =>
      have hfirst := h c List.mem_cons_self s (m.getD mode) a
      have hothers := ih (fun e he => h e (List.mem_cons_of_mem _ he))
        (s + (c.layout (m.getD mode) a).text.length)
      rw [Piece.layout, Piece.references, List.flatMap_cons]
      exact hfirst.append hothers

end Layout

namespace Node

open Layout

variable {n : Node}

theorem marks_layout_of_unstyled (h : n.Unstyled) (s d : Nat) (mode : Mode) (asArg : Bool) :
    (n.layout mode asArg).marks s d = [] := by
  induction n using childrenInduction generalizing s mode asArg with
  | step n ih =>
    obtain ⟨hn, hchildren⟩ := unstyled_iff.mp h
    have hrefs := n.references_pieces mode asArg
    have hnone := @perm_marksAll _ id (fun _ => []) mode d (n.pieces mode asArg) ?_ s
    · rw [List.flatMap_eq_nil_iff.mpr fun _ _ => rfl] at hnone
      rw [layout_eq, Layout.marks, if_neg (by simp [hn])]
      simpa using hnone
    · intro c hc s m a
      have hmem := hrefs.mem_iff.mp hc
      rw [ih c hmem (hchildren c hmem)]
      rfl

/-- The marks of the layout of a tree are its carriers, each as deep as there are carriers around
it. -/
theorem perm_marks_layout (n : Node) (above : List Node) (mode : Mode) (asArg : Bool) (s : Nat) :
    (((n.layout mode asArg).marks s (above.countP isCarrier)).map fun k => (some k.id, k.depth)).Perm
      (((n.entries above).filter (·.node.isCarrier)).map
        fun e => (e.node.id?, e.ancestors.countP isCarrier)) := by
  induction n using childrenInduction generalizing above mode asArg s with
  | step n ih =>
    have hrefs := n.references_pieces mode asArg
    have hdepth : (above ++ [n]).countP isCarrier =
        if n.isCarrier then above.countP isCarrier + 1 else above.countP isCarrier := by
      rw [List.countP_append, List.countP_singleton]
      split <;> rfl
    have hbelow : ((marksAll s ((above ++ [n]).countP isCarrier)
        ((n.pieces mode asArg).map (Piece.layout mode))).map fun k => (some k.id, k.depth)).Perm
        (n.children.flatMap fun c => ((c.entries (above ++ [n])).filter (·.node.isCarrier)).map
          fun e => (e.node.id?, e.ancestors.countP isCarrier)) := by
      refine (perm_marksAll (fun c hc s m a => ?_) s).trans (hrefs.flatMap_right _)
      exact ih c (hrefs.mem_iff.mp hc) (above ++ [n]) m a s
    rw [entries_eq, layout_eq, Layout.marks, List.filter_cons, List.filter_flatMap]
    split
    next hn =>
      obtain ⟨id, hid⟩ := n.exists_id_of_isCarrier hn
      rw [hdepth, if_pos hn] at hbelow
      rw [List.map_cons, List.map_cons, List.map_flatMap]
      simpa [hid] using hbelow
    next hn =>
      rw [hdepth, if_neg hn] at hbelow
      rw [List.map_flatMap]
      exact hbelow

end Node

namespace Range

theorem marks_flatMap_of_lit {cs : List Covered} {s d : Nat}
    (h : ∀ c ∈ cs, ∀ s, marks s d c.ranges = []) : marks s d (cs.flatMap Covered.ranges) = [] := by
  induction cs generalizing s with
  | nil => rfl
  | cons c cs ih =>
    rw [List.flatMap_cons, marks_append, h c List.mem_cons_self,
      ih fun e he => h e (List.mem_cons_of_mem _ he)]
    rfl

/-- The range of a style carrier has all its text inside, where this is literal throughout, or else
literal pieces on both of its sides. -/
theorem ofCarrier_cases (id : String) (hints : Option Hints) (cs : List Covered) :
    ((∀ c ∈ cs, c.isLit) ∧
      ofCarrier id hints cs = styled id "" [plain (textAll (cs.flatMap Covered.ranges))] "" hints) ∨
    ∃ left middle right, cs = left ++ (middle ++ right) ∧ (∀ c ∈ left, c.isLit) ∧
      (∀ c ∈ right, c.isLit) ∧ ofCarrier id hints cs =
        styled id (textAll (left.flatMap Covered.ranges)) (middle.flatMap Covered.ranges)
          (textAll (right.flatMap Covered.ranges)) hints := by
  have hall := List.takeWhile_append_dropWhile (p := Covered.isLit) (l := cs)
  unfold ofCarrier
  dsimp only
  split
  next hnone =>
    rw [hnone, List.append_nil] at hall
    refine .inl ⟨fun c hc => ?_, rfl⟩
    rw [← hall] at hc
    exact List.mem_takeWhile_imp hc
  next =>
    generalize cs.dropWhile Covered.isLit = inner at hall ⊢
    refine .inr ⟨_, _, _, ?_, fun c hc => List.mem_takeWhile_imp hc, fun c hc => ?_, rfl⟩
    · rw [take_append_takeWhile_reverse, hall]
    · exact List.mem_takeWhile_imp (List.mem_reverse.mp hc)

/-- The range of a style carrier is a mark around those of its pieces. -/
theorem marks_ofCarrier {cs : List Covered} {d : Nat}
    (h : ∀ c ∈ cs, c.isLit → ∀ s, marks s (d + 1) c.ranges = []) (s : Nat) (id : String)
    (hints : Option Hints) : marks s d [ofCarrier id hints cs] =
      ⟨id, ⟨s, s + (textAll (cs.flatMap Covered.ranges)).length⟩, d, hints⟩ ::
        marks s (d + 1) (cs.flatMap Covered.ranges) := by
  have hlength := (ofCarrier id hints cs).length_eq
  rw [text_ofCarrier] at hlength
  rcases ofCarrier_cases id hints cs with ⟨hlit, heq⟩ | ⟨left, middle, right, rfl, hleft, hright, heq⟩
  · have hnone : marks s (d + 1) (cs.flatMap Covered.ranges) = [] :=
      marks_flatMap_of_lit fun c hc => h c hc (hlit c hc)
    rw [heq] at hlength
    rw [heq, marks_styled, hlength, marks_plain, hnone]
  · have hl : ∀ s, marks s (d + 1) (left.flatMap Covered.ranges) = [] := by
      intro s
      exact marks_flatMap_of_lit fun c hc => h c (List.mem_append_left _ hc) (hleft c hc)
    have hr : ∀ s, marks s (d + 1) (right.flatMap Covered.ranges) = [] := by
      intro s
      refine marks_flatMap_of_lit fun c hc => ?_
      have hmem : c ∈ left ++ (middle ++ right) := List.mem_append_right _ (List.mem_append_right _ hc)
      exact h c hmem (hright c hc)
    rw [heq] at hlength
    rw [heq, marks_styled, hlength, List.flatMap_append, List.flatMap_append, marks_append,
      marks_append, hl, hr, List.nil_append, List.append_nil, lengthAll_eq]

end Range

namespace Node

open Layout

variable {n : Node}

/-- A tree in which no style carrier stands below a text. -/
def PlainTexts (n : Node) : Prop :=
  ∀ t ∈ n.preorder, t.kind = .text → t.Unstyled

theorem PlainTexts.child {c : Node} (h : n.PlainTexts) (hc : c ∈ n.children) : c.PlainTexts := by
  intro t ht
  refine h t ?_
  rw [preorder_eq]
  exact List.mem_cons_of_mem _ (List.mem_flatMap.mpr ⟨c, hc, ht⟩)

theorem PlainTexts.kind_ne (h : n.PlainTexts) (hn : ¬ n.Unstyled) : n.kind ≠ .text := by
  refine fun hk => hn (h n ?_ hk)
  rw [preorder_eq]
  exact List.mem_cons_self

theorem PlainTexts.escaped (h : n.PlainTexts) : ∀ e ∈ n.entries [], e.Escaped := by
  rintro e he - ⟨t, ht, hk⟩
  rcases (ancestors_of_mem_entries he).2 t ht with hmem | hmem
  · cases hmem
  · exact ⟨t, ht, hk, h t hmem hk⟩

theorem textAll_ranges (h : n.PlainTexts) (asArg : Bool) :
    Range.textAll (n.ranges asArg) = n.latex .ast asArg := by
  have habove : Above [] .ast := ⟨by simp, by simp⟩
  have hloses := loses_rangeText (n := n) habove asArg
  exact String.toList_inj.mp (hloses.eq h.escaped)

/-- The marks of pieces that are covered as they are written. -/
theorem marks_covered {ps : List Piece} {d : Nat}
    (h : ∀ c a m, Piece.child c a m ∈ ps → m = none ∧ Range.textAll (c.ranges a) = c.latex .ast a ∧
      ∀ s, Range.marks s d (c.ranges a) = (c.layout .ast a).marks s d) (s : Nat) :
    Range.marks s d ((ps.map Piece.covered).flatMap Covered.ranges) =
      marksAll s d (ps.map (Piece.layout .ast)) := by
  induction ps generalizing s with
  | nil => rfl
  | cons p ps ih =>
    rw [List.map_cons, List.map_cons, List.flatMap_cons, Range.marks_append, marksAll,
      ih fun c a m hp => h c a m (List.mem_cons_of_mem _ hp), Range.lengthAll_eq]
    cases p with
    | lit t =>
      rw [Piece.layout, Layout.marks, Piece.covered, Range.marks_plain, Range.textAll, Range.textAll,
        String.append_empty]
      rfl
    | child c a m =>
      obtain ⟨rfl, htext, hmarks⟩ := h c a m List.mem_cons_self
      rw [Piece.layout, Piece.covered, Option.getD_none, hmarks, htext]
      rfl

/-- The styled ranges of a tree are the carriers of its layout. -/
theorem marks_ranges (h : n.PlainTexts) (asArg : Bool) (s d : Nat) :
    Range.marks s d (n.ranges asArg) = (n.layout .ast asArg).marks s d := by
  induction n using childrenInduction generalizing asArg s d with
  | step n ih =>
    by_cases hstyle : n.Unstyled
    · rw [marks_layout_of_unstyled hstyle, ranges_of_unstyled hstyle, Range.marks_plain]
    have hpieces : ∀ d s, Range.marks s d (((n.pieces .ast asArg).map Piece.covered).flatMap
        Covered.ranges) = marksAll s d ((n.pieces .ast asArg).map (Piece.layout .ast)) := by
      intro d
      refine marks_covered fun c a m hp => ?_
      have hc := mem_children_of_piece hp
      have htext := textAll_ranges (h.child hc) a
      refine ⟨?_, htext, fun s => ih c hc (h.child hc) a s d⟩
      rcases ownMode_of_mem_pieces hp with hown | ⟨-, hk⟩
      · exact hown
      · exact absurd hk (h.kind_ne hstyle)
    rw [layout_eq, Layout.marks]
    by_cases hn : n.isCarrier
    · have htext := textAll_ranges h asArg
      rw [ranges_of_carrier hn, Range.textAll, Range.textAll, Range.text_ofCarrier,
        String.append_empty] at htext
      rw [if_pos hn, ranges_of_carrier hn, Range.marks_ofCarrier, htext, hpieces, ← latex_eq]
      rintro c hc hlit s
      obtain ⟨p, -, rfl⟩ := List.mem_map.mp hc
      cases p with
      | lit t => exact Range.marks_plain s _ t
      | child c a m => cases hlit
    · rw [if_neg hn, ranges_of_styled hstyle hn, hpieces]

end Node

namespace Formula

open Layout

variable {f : Formula}

/-- A formula in which no style carrier stands below a text. -/
def PlainTexts (f : Formula) : Prop :=
  ∀ t ∈ f.nodes, t.kind = .text → t.Unstyled

theorem PlainTexts.plainTexts {n : Node} (h : f.PlainTexts) (hn : n ∈ f.children) : n.PlainTexts :=
  fun t ht => h t (List.mem_flatMap.mpr ⟨n, hn, ht⟩)

theorem textAll_ranges (h : f.PlainTexts) : Range.textAll f.ranges = f.latex .ast := by
  refine String.toList_inj.mp (f.loses_ranges.eq fun e he => ?_)
  obtain ⟨n, hn, he⟩ := List.mem_flatMap.mp he
  exact (h.plainTexts hn).escaped e he

theorem covered_spaced (ns : List Node) :
    ((Piece.spaced ns).map Piece.covered).flatMap Covered.ranges =
      List.intercalate [.plain " "] (ns.map (·.ranges false)) := by
  induction ns with
  | nil => rfl
  | cons n ns ih =>
    cases ns with
    | nil => simp [Piece.spaced, Piece.plain, Piece.covered]
    | cons m ns =>
      simp only [Piece.spaced, List.map_cons, List.intersperse_cons_cons, List.flatMap_cons,
        List.intercalate_cons_cons] at ih ⊢
      rw [ih]
      simp [Piece.plain, Piece.covered]

/-- The styled ranges of a formula are the carriers of its layout. -/
theorem marks_ranges (h : f.PlainTexts) :
    Range.marks 0 0 f.ranges = marksAll 0 0 (f.layout .ast) := by
  rw [ranges, Range.marks_combine, ← covered_spaced, f.layout_eq]
  refine Node.marks_covered (fun c a m hp => ?_) 0
  have hc : c ∈ f.children := by
    rw [← Piece.references_spaced f.children]
    exact Piece.mem_references hp
  have hplain := h.plainTexts hc
  exact ⟨Piece.ownMode_of_mem_spaced hp, Node.textAll_ranges hplain a,
    fun s => Node.marks_ranges hplain a s 0⟩

/-- The marks of a formula are its carriers, each as deep as there are carriers around it. -/
theorem perm_marks (f : Formula) :
    ((marksAll 0 0 (f.layout .ast)).map fun k => (some k.id, k.depth)).Perm
      ((f.entries.filter (·.node.isCarrier)).map
        fun e => (e.node.id?, e.ancestors.countP Node.isCarrier)) := by
  rw [f.layout_eq, entries, List.filter_flatMap, List.map_flatMap]
  have hperm := @perm_marksAll _ (fun k => (some k.id, k.depth)) _ .ast 0 (Piece.spaced f.children)
    (fun c _ s m a => Node.perm_marks_layout c [] m a s) 0
  rwa [Piece.references_spaced] at hperm

theorem span?_of_mem_marks {k : Mark} (h : k ∈ marksAll 0 0 (f.layout .ast)) :
    f.span? .ast k.id = some k.span := by
  have hkeys : ((f.spans .ast).map Prod.fst).Nodup := (f.keys_spans .ast).nodup_iff.mpr f.nodup
  have hspan : (k.id, k.span) ∈ f.spans .ast := mem_spansAll_of_mem_marksAll _ h
  exact lookup_of_mem hkeys hspan

/-- Where no style carrier stands below a text, the styled ranges of a formula are its style carriers,
each listed once and as deep as there are carriers around it; a range stands at the span of its carrier
and covers what is written there. -/
theorem flattenStyled_ranges (f : Formula) (h : ∀ t ∈ f.nodes, t.kind = .text → t.Unstyled) :
    ((Range.flattenStyled f.ranges).map fun p => (p.id?, p.depth)).Perm
      ((f.entries.filter (·.node.isCarrier)).map
        fun e => (e.node.id?, e.ancestors.countP Node.isCarrier)) ∧
    ∀ p ∈ Range.flattenStyled f.ranges, ∃ id, p.id? = some id ∧
      f.span? .ast id = some ⟨p.start, p.stop⟩ ∧
      p.range.text = Span.slice ⟨p.start, p.stop⟩ (f.latex .ast) := by
  have hmarks := marks_ranges h
  constructor
  · have hlisted := Range.filterMap_flattenStyled f.ranges
    rw [hmarks] at hlisted
    rw [Range.map_flattenStyled]
    exact (hlisted.map _).trans f.perm_marks
  · intro p hp
    obtain ⟨k, hk, hmark⟩ := Range.exists_mark_of_mem_flattenStyled hp
    obtain ⟨hid, hstart, hstop, -⟩ := Placed.of_mark?_eq_some hmark
    have hplaced := (Range.mem_flattenStyled.mp hp).1
    rw [hmarks] at hk
    refine ⟨k.id, hid, ?_, ?_⟩
    · rw [span?_of_mem_marks hk, hstart, hstop]
    · rw [← textAll_ranges h, Range.slice_of_mem_placedAll hplaced]

/-- A variable and a box in a colored fraction, next to a text. -/
theorem flattenStyled_ranges_of_fraction : ∃ f : Formula,
    f.children = [.color "c" "red" [.frac "q" (.group "g" [.var "v" "xy"])
      (.box "b" "blue" (.symbol "s" "z") "white")], .text "t" [.symbol "u" "\x7b"]] ∧
    (∀ t ∈ f.nodes, t.kind = .text → t.Unstyled) ∧
    ((Range.flattenStyled f.ranges).map fun p => (p.id?, p.depth)).Perm
      [(some "c", 0), (some "v", 1), (some "b", 1)] ∧
    ∀ p ∈ Range.flattenStyled f.ranges, ∃ id, p.id? = some id ∧
      f.span? .ast id = some ⟨p.start, p.stop⟩ ∧
      p.range.text = Span.slice ⟨p.start, p.stop⟩ (f.latex .ast) := by
  let f : Formula := ⟨[.color "c" "red" [.frac "q" (.group "g" [.var "v" "xy"])
    (.box "b" "blue" (.symbol "s" "z") "white")], .text "t" [.symbol "u" "\x7b"]], by decide +kernel⟩
  have htexts : ∀ t ∈ f.nodes, t.kind = .text → t.Unstyled := by decide +kernel
  have hcarriers : ((f.entries.filter (·.node.isCarrier)).map
      fun e => (e.node.id?, e.ancestors.countP Node.isCarrier)) =
      [(some "c", 0), (some "v", 1), (some "b", 1)] := by decide +kernel
  obtain ⟨hperm, hspans⟩ := f.flattenStyled_ranges htexts
  rw [hcarriers] at hperm
  exact ⟨f, rfl, htexts, hperm, hspans⟩

end Formula

end FormulaDoc
