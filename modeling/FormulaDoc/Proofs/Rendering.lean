import FormulaDoc.Proofs.DocumentOrder
import FormulaDoc.Proofs.Tagging

namespace FormulaDoc

namespace Span

def covers (s : Span) (i : Nat) : Bool :=
  s.start ≤ i && i < s.stop

/-- A text that begins at an offset, without the characters that some spans cover. -/
def cutFrom (spans : List Span) (start : Nat) (cs : List Char) : List Char :=
  ((cs.zipIdx start).filter fun p => !spans.any (·.covers p.2)).map Prod.fst

/-- A text without the characters that some spans cover. -/
def cut (spans : List Span) (text : String) : String :=
  String.ofList (cutFrom spans 0 text.toList)

variable {spans spans' : List Span} {start : Nat} {cs : List Char}

theorem cutFrom_append (spans : List Span) (start : Nat) (a b : List Char) :
    cutFrom spans start (a ++ b) = cutFrom spans start a ++ cutFrom spans (start + a.length) b := by
  rw [cutFrom, List.zipIdx_append, List.filter_append, List.map_append]
  rfl

/-- Only what is covered inside of the text counts. -/
theorem cutFrom_congr (h : ∀ i, start ≤ i → i < start + cs.length →
    spans.any (·.covers i) = spans'.any (·.covers i)) : cutFrom spans start cs = cutFrom spans' start cs := by
  rw [cutFrom, cutFrom]
  congr 1
  refine List.filter_congr fun p hp => ?_
  rw [h p.2 (List.le_snd_of_mem_zipIdx hp) (List.snd_lt_add_of_mem_zipIdx hp)]

theorem cutFrom_nil (start : Nat) (cs : List Char) : cutFrom [] start cs = cs := by
  simp [cutFrom]

theorem cutFrom_of_uncovered (h : ∀ i, start ≤ i → i < start + cs.length → spans.any (·.covers i) = false) :
    cutFrom spans start cs = cs := by
  have hnone : cutFrom spans start cs = cutFrom [] start cs := cutFrom_congr h
  rw [hnone, cutFrom_nil]

theorem cutFrom_of_covered (h : ∀ i, start ≤ i → i < start + cs.length → spans.any (·.covers i)) :
    cutFrom spans start cs = [] := by
  rw [cutFrom, List.map_eq_nil_iff, List.filter_eq_nil_iff]
  intro p hp
  simp [h p.2 (List.le_snd_of_mem_zipIdx hp) (List.snd_lt_add_of_mem_zipIdx hp)]

theorem any_covers_eq_false {i : Nat} (h : ∀ s ∈ spans, i < s.start ∨ s.stop ≤ i) :
    spans.any (·.covers i) = false := by
  rw [List.any_eq_false]
  intro s hs
  have hout := h s hs
  simp only [covers, Bool.and_eq_true, decide_eq_true_eq]
  omega

/-- Spans behind a text cut nothing out of it. -/
theorem cutFrom_append_behind (h : ∀ s ∈ spans', start + cs.length ≤ s.start) :
    cutFrom (spans ++ spans') start cs = cutFrom spans start cs := by
  refine cutFrom_congr fun i _ hi => ?_
  have hnone : spans'.any (·.covers i) = false := by
    refine any_covers_eq_false fun s hs => ?_
    have hbehind := h s hs
    omega
  rw [List.any_append, hnone, Bool.or_false]

/-- Spans in front of a text cut nothing out of it. -/
theorem cutFrom_before_append (h : ∀ s ∈ spans', s.stop ≤ start) :
    cutFrom (spans' ++ spans) start cs = cutFrom spans start cs := by
  refine cutFrom_congr fun i hi _ => ?_
  have hnone : spans'.any (·.covers i) = false := by
    refine any_covers_eq_false fun s hs => ?_
    have hbefore := h s hs
    omega
  rw [List.any_append, hnone, Bool.false_or]

/-- The spans of the tag around a leaf: what stands in front of the leaf, and the brace behind it. -/
def tagEnds (id : String) (s : Span) : List Span :=
  [⟨s.start, s.start + ("\\cssId\x7b" ++ id ++ "\x7d\x7b").length⟩, ⟨s.stop - 1, s.stop⟩]

theorem length_tag (id x : String) :
    (tag id x).length = ("\\cssId\x7b" ++ id ++ "\x7d\x7b").length + x.length + 1 := by
  rw [tag, String.length_append, String.length_append]
  rfl

theorem bounds_tagEnds {id x : String} {s : Span}
    (h : s ∈ tagEnds id ⟨start, start + (tag id x).length⟩) :
    start ≤ s.start ∧ s.stop ≤ start + (tag id x).length := by
  have hlength := length_tag id x
  simp only [tagEnds, List.mem_cons, List.not_mem_nil, or_false] at h
  rcases h with rfl | rfl <;> dsimp only <;> omega

/-- A tagged text without its tag. -/
theorem cutFrom_tag (id x : String) (start : Nat) :
    cutFrom (tagEnds id ⟨start, start + (tag id x).length⟩) start (tag id x).toList = x.toList := by
  have hclose : "\x7d".length = 1 := rfl
  rw [tagEnds, length_tag, tag]
  generalize "\\cssId\x7b" ++ id ++ "\x7d\x7b" = front
  rw [String.toList_append, String.toList_append, cutFrom_append, cutFrom_append, cutFrom_of_covered,
    cutFrom_of_uncovered, cutFrom_of_covered, List.nil_append, List.append_nil]
  all_goals
    intro i hi hi'
    simp only [List.length_append, String.length_toList] at hi hi'
    simp [covers]
    omega

end Span

open FormulaDoc.Span

namespace Node

/-- The leaves that are rendered under a tag: symbols, operators and variables. -/
def isGlyph : Node → Bool
  | symbol .. | op .. | var .. => true
  | _ => false

variable {n : Node} {id : String}

theorem pieces_render_of_isGlyph_eq_false (h : n.isGlyph = false) (asArg : Bool) :
    n.pieces .render asArg = n.pieces .ast asArg := by
  cases n <;> first | rfl | cases h

theorem exists_id_of_isGlyph (h : n.isGlyph) : ∃ id, n.id? = some id := by
  cases n with
  | symbol id | op id | var id => exact ⟨id, rfl⟩
  | _ => cases h

/-- A glyph is rendered as its plain markup under a tag. -/
theorem pieces_render_of_isGlyph (h : n.isGlyph) (hid : n.id? = some id) (asArg asArg' : Bool) :
    n.pieces .render asArg =
      [.lit ("\\cssId\x7b" ++ id ++ "\x7d\x7b"), .lit (n.latex .ast asArg'), .lit "\x7d"] := by
  rw [latex_eq]
  cases n with
  | symbol id' | op id' | var id' =>
    obtain rfl : id' = id := by simpa [id?] using hid
    simp [pieces, Piece.tagged, Piece.layout, Layout.textAll, Layout.text]
  | _ => cases h

theorem ownMode_of_text {c : Node} {mode : Mode} {asArg a : Bool} {m : Option Mode} (h : n.kind = .text)
    (hc : Piece.child c a m ∈ n.pieces mode asArg) : m = some .text := by
  cases n with
  | text id body => simp_all [pieces]
  | _ => cases h

theorem latex_render_of_isGlyph (h : n.isGlyph) (hid : n.id? = some id) (asArg asArg' : Bool) :
    n.latex .render asArg = tag id (n.latex .ast asArg') := by
  rw [latex_eq, pieces_render_of_isGlyph h hid asArg asArg', tag]
  simp [Piece.layout, Layout.textAll, Layout.text, String.append_assoc]

end Node

namespace Layout

/-- The ids of the leaves that some layouts render under a tag, with their spans. -/
def glyphs (start : Nat) (ls : List Layout) : List (String × Span) :=
  (spots start ls).filterMap fun p =>
    if p.mode = .render ∧ p.node.isGlyph then p.node.id?.map (·, p.span) else none

/-- The spans of the tags in some layouts. -/
def tagSpans (start : Nat) (ls : List Layout) : List Span :=
  (glyphs start ls).flatMap fun p => tagEnds p.1 p.2

variable {start : Nat} {l : Layout} {ls : List Layout} {p q : List Char} {n : Node} {mode : Mode}
  {asArg : Bool}

theorem tagSpans_cons (start : Nat) (l : Layout) (ls : List Layout) :
    tagSpans start (l :: ls) = tagSpans start [l] ++ tagSpans (start + l.text.length) ls := by
  rw [tagSpans, glyphs, spots_cons, List.filterMap_append, List.flatMap_append]
  rfl

theorem mem_glyphs {id : String} {s : Span} : (id, s) ∈ glyphs start ls ↔
    ∃ p ∈ spots start ls, p.mode = .render ∧ p.node.isGlyph ∧ p.node.id? = some id ∧ p.span = s := by
  rw [glyphs, List.mem_filterMap]
  refine exists_congr fun p => and_congr_right fun _ => ?_
  split
  next h => simp [h]
  next h => simpa using fun hmode hglyph => absurd ⟨hmode, hglyph⟩ h

theorem mem_spots_of_within {inner : List Layout} {k : Nat}
    (h : Within ls k (.node n mode asArg inner)) (start : Nat) :
    ⟨n, mode, ⟨start + k, start + k + (textAll inner).length⟩⟩ ∈ spots start ls := by
  generalize hl : Layout.node n mode asArg inner = l at h
  induction h generalizing start with
  | head =>
    subst hl
    rw [spots]
    exact List.mem_cons_self
  | @tail l m k ls _ ih =>
    rw [spots_cons, List.mem_append, ← Nat.add_assoc]
    exact .inr (ih _ hl)
  | inner _ ih =>
    rw [spots]
    apply List.mem_cons_of_mem
    exact List.mem_append_left _ (ih start hl)

/-- A node below some pieces stands below one that they refer to. -/
theorem exists_piece_of_mem_spots {r : Spot} {ps : List Piece}
    (h : r ∈ spots start (ps.map (Piece.layout mode))) :
    ∃ c a m k, Piece.child c a m ∈ ps ∧ r ∈ spots k [c.layout (m.getD mode) a] := by
  induction ps generalizing start with
  | nil => simp [spots] at h
  | cons p ps ih =>
    rw [List.map_cons, spots_cons, List.mem_append] at h
    rcases h with h | h
    · cases p with
      | lit s => simp [Piece.layout, spots] at h
      | child c a m => exact ⟨c, a, m, start, List.mem_cons_self, h⟩
    · obtain ⟨c, a, m, k, hc, hr⟩ := ih h
      exact ⟨c, a, m, k, List.mem_cons_of_mem _ hc, hr⟩

/-- What a tree does not write as in a text stands in no text, and is written in the mode of the tree. -/
theorem mode_of_mem_spots {r : Spot} (h : r ∈ spots start [n.layout mode asArg]) :
    r.mode = .text ∨ r.mode = mode ∧ r.node ∈ n.outer := by
  induction n using Node.childrenInduction generalizing start mode asArg with
  | step n ih =>
    rw [Node.layout_eq, spots, spots, List.append_nil, List.mem_cons] at h
    rcases h with rfl | h
    · exact .inr ⟨rfl, n.self_mem_outer⟩
    · obtain ⟨c, a, m, k, hc, hr⟩ := exists_piece_of_mem_spots h
      have hmem := Node.mem_children_of_piece hc
      by_cases htext : n.kind = .text
      · obtain rfl := Node.ownMode_of_text htext hc
        rcases ih c hmem hr with hmode | ⟨hmode, -⟩
        · exact .inl hmode
        · exact .inl hmode
      · obtain rfl : m = none := (Node.ownMode_of_mem_pieces hc).resolve_right fun hm => htext hm.2
        rcases ih c hmem hr with hmode | ⟨hmode, houter⟩
        · exact .inl hmode
        · exact .inr ⟨hmode, Node.mem_outer_of_child htext hmem houter⟩

/-- Layouts whose tags stand inside of them and leave the given text. -/
structure Unwraps (start : Nat) (ls : List Layout) (p : List Char) : Prop where
  inside : ∀ s ∈ tagSpans start ls, start ≤ s.start ∧ s.stop ≤ start + (textAll ls).length
  cut : cutFrom (tagSpans start ls) start (textAll ls).toList = p

/-- Layouts without tags are left as they are. -/
theorem unwraps_of_tagSpans_eq_nil (h : tagSpans start ls = []) : Unwraps start ls (textAll ls).toList := by
  constructor
  · simp [h]
  · rw [h, cutFrom_nil]

theorem Unwraps.nil (start : Nat) : Unwraps start [] [] := by
  have hnone : tagSpans start [] = [] := by simp [tagSpans, glyphs, spots]
  exact unwraps_of_tagSpans_eq_nil hnone

theorem Unwraps.lit (start : Nat) (s : String) : Unwraps start [.lit s] s.toList := by
  have hnone : tagSpans start [.lit s] = [] := by simp [tagSpans, glyphs, spots]
  have hself := unwraps_of_tagSpans_eq_nil hnone
  rwa [textAll, textAll, String.append_empty] at hself

theorem Unwraps.cons (hl : Unwraps start [l] p) (hls : Unwraps (start + l.text.length) ls q) :
    Unwraps start (l :: ls) (p ++ q) := by
  have hone : textAll [l] = l.text := by simp [textAll]
  have hlength := length_textAll_cons l ls
  obtain ⟨hinside, hcut⟩ := hl
  obtain ⟨hinside', hcut'⟩ := hls
  rw [hone] at hinside hcut
  constructor
  · intro s hs
    rw [tagSpans_cons, List.mem_append] at hs
    rcases hs with hs | hs
    · have hin := hinside s hs
      omega
    · have hin := hinside' s hs
      omega
  · rw [tagSpans_cons, textAll, String.toList_append, cutFrom_append, String.length_toList,
      cutFrom_append_behind, cutFrom_before_append, hcut, hcut']
    · exact fun s hs => (hinside s hs).2
    · rw [String.length_toList]
      exact fun s hs => (hinside' s hs).1

/-- What is no glyph has no tag of its own. -/
theorem Unwraps.node {inner : List Layout} (h : n.isGlyph = false) (hinner : Unwraps start inner p) :
    Unwraps start [.node n mode asArg inner] p := by
  have htext : textAll [.node n mode asArg inner] = textAll inner := by simp [textAll, text]
  have hspans : tagSpans start [.node n mode asArg inner] = tagSpans start inner := by
    simp [tagSpans, glyphs, spots, h]
  constructor
  · rw [hspans, htext]
    exact hinner.inside
  · rw [hspans, htext]
    exact hinner.cut

/-- Outside of the render mode no tags are written. -/
theorem unwraps_of_ne_render (h : mode ≠ .render) (start : Nat) (n : Node) (asArg : Bool) :
    Unwraps start [n.layout mode asArg] (n.markup mode asArg) := by
  have hnone : tagSpans start [n.layout mode asArg] = [] := by
    have hglyphs : glyphs start [n.layout mode asArg] = [] := by
      refine List.eq_nil_iff_forall_not_mem.mpr fun g hg => ?_
      obtain ⟨r, hr, hmode, -⟩ := mem_glyphs.mp hg
      rcases mode_of_mem_spots hr with htext | ⟨hm, -⟩
      · cases htext.symm.trans hmode
      · exact h (hm.symm.trans hmode)
    rw [tagSpans, hglyphs, List.flatMap_nil]
  have hself := unwraps_of_tagSpans_eq_nil hnone
  rwa [textAll, textAll, String.append_empty] at hself

theorem unwraps_pieces {ps : List Piece} (h : ∀ c a m, Piece.child c a m ∈ ps → ∀ start,
    Unwraps start [c.layout (m.getD .render) a] (c.markup (m.getD .ast) a)) (start : Nat) :
    Unwraps start (ps.map (Piece.layout .render)) (ps.flatMap (Piece.markup .ast)) := by
  induction ps generalizing start with
  | nil => exact .nil start
  | cons p ps ih =>
    have hrest := ih fun c a m hc => h c a m (List.mem_cons_of_mem p hc)
    rw [List.map_cons, List.flatMap_cons]
    refine .cons ?_ (hrest _)
    cases p with
    | lit s => exact .lit start s
    | child c a m => exact h c a m List.mem_cons_self start

/-- A glyph stands between the ends of its tag. -/
theorem unwraps_glyph {id : String} (h : n.isGlyph) (hid : n.id? = some id) (start : Nat) (asArg : Bool) :
    Unwraps start [n.layout .render asArg] (n.markup .ast asArg) := by
  have htext : textAll [n.layout .render asArg] = tag id (n.latex .ast asArg) := by
    rw [← Node.latex_render_of_isGlyph h hid asArg asArg, textAll, textAll, String.append_empty]
    rfl
  have hspans : tagSpans start [n.layout .render asArg] =
      tagEnds id ⟨start, start + (tag id (n.latex .ast asArg)).length⟩ := by
    rw [← Node.latex_render_of_isGlyph h hid asArg asArg, Node.latex_eq, tagSpans, glyphs,
      Node.layout_eq, spots, Node.pieces_render_of_isGlyph h hid asArg asArg]
    simp [Piece.layout, spots, h, hid]
  constructor
  · rw [hspans, htext]
    exact fun s hs => bounds_tagEnds hs
  · rw [hspans, htext, cutFrom_tag]
    rfl

/-- The rendered markup of a tree without its tags is the plain markup. -/
theorem unwraps_layout (n : Node) (start : Nat) (asArg : Bool) :
    Unwraps start [n.layout .render asArg] (n.markup .ast asArg) := by
  induction n using Node.childrenInduction generalizing start asArg with
  | step n ih =>
    cases hglyph : n.isGlyph with
    | true =>
      obtain ⟨id, hid⟩ := Node.exists_id_of_isGlyph hglyph
      exact unwraps_glyph hglyph hid start asArg
    | false =>
      rw [Node.layout_eq, Node.markup_eq, ← Node.pieces_render_of_isGlyph_eq_false hglyph asArg]
      refine .node hglyph (unwraps_pieces (fun c a m hc k => ?_) start)
      rcases Node.ownMode_of_mem_pieces hc with hm | ⟨hm, -⟩
      · obtain rfl : m = none := hm
        exact ih c (Node.mem_children_of_piece hc) k a
      · obtain rfl : m = some .text := hm
        exact unwraps_of_ne_render (by decide) k c a

end Layout

namespace Formula

open Layout

variable {f : Formula} {mode : Mode} {n : Node}

/-- The leaves that a formula renders under a tag. -/
def glyphs (f : Formula) : List Node :=
  (f.children.flatMap Node.outer).filter Node.isGlyph

/-- The spans of the tags in the rendered markup. -/
def wrappers (f : Formula) : List Span :=
  (f.glyphs.filterMap Node.id?).flatMap fun id => (f.span? .render id).elim [] (tagEnds id)

theorem unwraps_layout (f : Formula) : Unwraps 0 (f.layout .render) (f.latex .ast).toList := by
  rw [f.layout_eq, toList_latex, ← flatMap_spaced]
  refine unwraps_pieces (fun c a m hc k => ?_) 0
  obtain rfl : m = none := Piece.ownMode_of_mem_spaced hc
  exact Layout.unwraps_layout c k a

/-- What stands in no text is written in the mode of the formula. -/
theorem Writes.of_mem_outer {c : Node} {m : Mode} {a : Bool} (h : f.Writes mode c m a) (hn : n ∈ c.outer) :
    ∃ a', f.Writes mode n m a' := by
  induction c using Node.childrenInduction generalizing a with
  | step c ih =>
    rcases Node.mem_outer_iff.mp hn with rfl | ⟨htext, d, hd, hn⟩
    · exact ⟨a, h⟩
    · obtain ⟨a', m', hp⟩ := Node.exists_piece hd m a
      obtain rfl : m' = none := (Node.ownMode_of_mem_pieces hp).resolve_right fun hm => htext hm.2
      exact ih d hd (h.piece hp) hn

theorem exists_writes_of_mem_outer (mode : Mode) (hn : n ∈ f.children.flatMap Node.outer) :
    ∃ a, f.Writes mode n mode a := by
  obtain ⟨c, hc, hn⟩ := List.mem_flatMap.mp hn
  exact (Writes.top hc).of_mem_outer hn

theorem mode_of_mem_spots {r : Spot} (h : r ∈ spots 0 (f.layout mode)) :
    r.mode = .text ∨ r.mode = mode ∧ r.node ∈ f.children.flatMap Node.outer := by
  rw [f.layout_eq] at h
  obtain ⟨c, a, m, k, hc, hr⟩ := exists_piece_of_mem_spots h
  obtain rfl : m = none := Piece.ownMode_of_mem_spaced hc
  have hmem := Piece.mem_references hc
  rw [Piece.references_spaced] at hmem
  rcases Layout.mode_of_mem_spots hr with hmode | ⟨hmode, houter⟩
  · exact .inl hmode
  · exact .inr ⟨hmode, List.mem_flatMap.mpr ⟨c, hmem, houter⟩⟩

/-- What is written in the mode of the formula stands in no text. -/
theorem Writes.mode_eq {m : Mode} {a : Bool} (h : f.Writes mode n m a) :
    m = .text ∨ m = mode ∧ n ∈ f.children.flatMap Node.outer := by
  obtain ⟨k, hk⟩ := h.within
  rw [Node.layout_eq] at hk
  exact mode_of_mem_spots (mem_spots_of_within hk 0)

theorem mem_glyphs_layout {id : String} {s : Span} : (id, s) ∈ Layout.glyphs 0 (f.layout .render) ↔
    (∃ n ∈ f.glyphs, n.id? = some id) ∧ f.span? .render id = some s := by
  constructor
  · intro h
    obtain ⟨r, hr, hmode, hglyph, hid, rfl⟩ := mem_glyphs.mp h
    refine ⟨⟨r.node, ?_, hid⟩, span?_of_mem_spots hr hid⟩
    rcases mode_of_mem_spots hr with htext | ⟨-, hmem⟩
    · cases htext.symm.trans hmode
    · exact List.mem_filter.mpr ⟨hmem, hglyph⟩
  · rintro ⟨⟨n, hn, hid⟩, hs⟩
    obtain ⟨hmem, hglyph⟩ := List.mem_filter.mp hn
    obtain ⟨a, hw⟩ := exists_writes_of_mem_outer .render hmem
    obtain ⟨k, hk⟩ := hw.within
    have hspan := span?_of_within hk hid
    rw [Node.layout_eq] at hk
    refine mem_glyphs.mpr ⟨_, mem_spots_of_within hk 0, rfl, hglyph, hid, ?_⟩
    rw [hs, Option.some.injEq, Node.latex_eq] at hspan
    rw [hspan, Nat.zero_add]

theorem mem_wrappers {s : Span} : s ∈ f.wrappers ↔ s ∈ tagSpans 0 (f.layout .render) := by
  simp only [wrappers, tagSpans, List.mem_flatMap, List.mem_filterMap, Prod.exists, mem_glyphs_layout]
  constructor
  · rintro ⟨id, hn, hs⟩
    cases ht : f.span? .render id with
    | none =>
      rw [ht] at hs
      cases hs
    | some t =>
      rw [ht] at hs
      exact ⟨id, t, ⟨hn, ht⟩, hs⟩
  · rintro ⟨id, t, ⟨hn, ht⟩, hs⟩
    refine ⟨id, hn, ?_⟩
    rw [ht]
    exact hs

theorem cut_wrappers (f : Formula) : Span.cut f.wrappers (f.latex .render) = f.latex .ast := by
  have hcovers : ∀ i, f.wrappers.any (·.covers i) = (tagSpans 0 (f.layout .render)).any (·.covers i) := by
    intro i
    rw [Bool.eq_iff_iff, List.any_eq_true, List.any_eq_true]
    exact exists_congr fun s => and_congr_left' mem_wrappers
  rw [Span.cut, cutFrom_congr fun i _ _ => hcovers i]
  have hcut := f.unwraps_layout.cut
  rw [← latex] at hcut
  rw [hcut, String.ofList_toList]

/-- A glyph that stands in no text is rendered as its plain markup under a tag. -/
theorem slice_of_mem_glyphs {id : String} (hn : n ∈ f.glyphs) (hid : n.id? = some id) :
    ∃ s t, f.span? .ast id = some s ∧ f.span? .render id = some t ∧
      t.slice (f.latex .render) = tag id (s.slice (f.latex .ast)) := by
  obtain ⟨hmem, hglyph⟩ := List.mem_filter.mp hn
  obtain ⟨a, hplain⟩ := exists_writes_of_mem_outer .ast hmem
  obtain ⟨a', hrender⟩ := exists_writes_of_mem_outer .render hmem
  obtain ⟨s, hs, hslice⟩ := span_slice hplain hid
  obtain ⟨t, ht, hslice'⟩ := span_slice hrender hid
  refine ⟨s, t, hs, ht, ?_⟩
  rw [hslice, hslice', Node.latex_render_of_isGlyph hglyph hid]

/-- A glyph that stands in a text is rendered as its plain markup. -/
theorem slice_of_not_mem_glyphs {id : String} (hn : n ∈ f.nodes) (hglyph : n.isGlyph)
    (htext : n ∉ f.glyphs) (hid : n.id? = some id) : ∃ s t, f.span? .ast id = some s ∧
      f.span? .render id = some t ∧ t.slice (f.latex .render) = s.slice (f.latex .ast) := by
  have hmode : ∀ mode, ∃ a, f.Writes mode n .text a := by
    intro mode
    obtain ⟨m, a, hw⟩ := exists_writes mode hn
    rcases hw.mode_eq with rfl | ⟨-, hmem⟩
    · exact ⟨a, hw⟩
    · exact absurd (List.mem_filter.mpr ⟨hmem, hglyph⟩) htext
  obtain ⟨a, hplain⟩ := hmode .ast
  obtain ⟨a', hrender⟩ := hmode .render
  obtain ⟨s, hs, hslice⟩ := span_slice hplain hid
  obtain ⟨t, ht, hslice'⟩ := span_slice hrender hid
  refine ⟨s, t, hs, ht, ?_⟩
  rw [hslice, hslice', Node.latex_eq, Node.latex_eq]
  cases n with
  | symbol | op | var => rfl
  | _ => cases hglyph

/-- The symbols, operators and variables that stand in no text are rendered as their plain markup under a
tag, those in texts as their plain markup, and the rendered markup without these tags is the plain one. -/
theorem render_wraps (f : Formula) :
    (∀ n ∈ f.glyphs, ∀ id, n.id? = some id → ∃ s t, f.span? .ast id = some s ∧
      f.span? .render id = some t ∧ t.slice (f.latex .render) = tag id (s.slice (f.latex .ast))) ∧
    (∀ n ∈ f.nodes, n.isGlyph → n ∉ f.glyphs → ∀ id, n.id? = some id → ∃ s t,
      f.span? .ast id = some s ∧ f.span? .render id = some t ∧
      t.slice (f.latex .render) = s.slice (f.latex .ast)) ∧
    Span.cut f.wrappers (f.latex .render) = f.latex .ast := by
  refine ⟨?_, ?_, f.cut_wrappers⟩
  · intro n hn id hid
    exact slice_of_mem_glyphs hn hid
  · intro n hn hglyph htext id hid
    exact slice_of_not_mem_glyphs hn hglyph htext hid

end Formula

end FormulaDoc
