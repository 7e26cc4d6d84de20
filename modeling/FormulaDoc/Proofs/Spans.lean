import FormulaDoc.Proofs.Markup
import FormulaDoc.Proofs.PathIds

namespace FormulaDoc

/-- The part of a text that a span covers. -/
def Span.slice (s : Span) (text : String) : String :=
  String.ofList ((text.toList.take s.stop).drop s.start)

namespace Layout

/-- A layout that stands among others or below one of them, at an offset in their text. -/
inductive Within : List Layout → Nat → Layout → Prop
  | head {l ls} : Within (l :: ls) 0 l
  | tail {l m k ls} (h : Within ls k m) : Within (l :: ls) (l.text.length + k) m
  | inner {n mode asArg inner m k ls} (h : Within inner k m) :
      Within (.node n mode asArg inner :: ls) k m

variable {ls inner : List Layout} {l m : Layout} {j k : Nat}

theorem length_textAll_cons (l : Layout) (ls : List Layout) :
    (textAll (l :: ls)).length = l.text.length + (textAll ls).length := by
  rw [textAll, String.length_append]

theorem within_of_mem (h : l ∈ ls) : ∃ k, Within ls k l := by
  induction ls with
  | nil => cases h
  | cons m ls ih =>
    rcases List.mem_cons.mp h with rfl | h
    · exact ⟨0, .head⟩
    · obtain ⟨k, hk⟩ := ih h
      exact ⟨_, hk.tail⟩

theorem Within.trans {n : Node} {mode : Mode} {asArg : Bool}
    (h : Within ls j (.node n mode asArg inner)) (h' : Within inner k m) : Within ls (j + k) m := by
  generalize hl : Layout.node n mode asArg inner = l at h
  induction h with
  | head =>
    subst hl
    rw [Nat.zero_add]
    exact .inner h'
  | tail _ ih =>
    rw [Nat.add_assoc]
    exact (ih hl).tail
  | inner _ ih => exact .inner (ih hl)

theorem Within.le (h : Within ls k m) : k + m.text.length ≤ (textAll ls).length := by
  induction h with
  | head =>
    rw [length_textAll_cons]
    omega
  | tail _ ih =>
    rw [length_textAll_cons]
    omega
  | inner _ ih =>
    rw [length_textAll_cons, text]
    omega

/-- The text of a layout stands at its offset. -/
theorem Within.text_eq (h : Within ls k m) :
    ∃ a b, (textAll ls).toList = a ++ m.text.toList ++ b ∧ a.length = k := by
  induction h with
  | @head l ls => exact ⟨[], (textAll ls).toList, by simp [textAll], rfl⟩
  | @tail l m k ls _ ih =>
    obtain ⟨a, b, hab, hk⟩ := ih
    refine ⟨l.text.toList ++ a, b, ?_, ?_⟩
    · rw [textAll, String.toList_append, hab]
      simp
    · rw [List.length_append, hk, String.length_toList]
  | @inner n mode asArg inner m k ls _ ih =>
    obtain ⟨a, b, hab, hk⟩ := ih
    refine ⟨a, b ++ (textAll ls).toList, ?_, hk⟩
    rw [textAll, String.toList_append, text, hab]
    simp

theorem Within.slice (h : Within ls k m) :
    Span.slice ⟨k, k + m.text.length⟩ (textAll ls) = m.text := by
  obtain ⟨a, b, hab, rfl⟩ := h.text_eq
  have hlength : a.length + m.text.length = (a ++ m.text.toList).length := by
    rw [List.length_append, String.length_toList]
  rw [Span.slice, hab, hlength, List.take_left', List.drop_left', String.ofList_toList]
  · rfl
  · rfl

/-- Two layouts among the same others keep apart, unless one of them stands within the other. -/
theorem Within.compare (h : Within ls j l) (h' : Within ls k m) :
    j + l.text.length ≤ k ∨ k + m.text.length ≤ j ∨ (∃ i, Within [l] i m) ∨ ∃ i, Within [m] i l := by
  induction h generalizing k with
  | head =>
    cases h' with
    | head => exact .inr (.inr (.inl ⟨0, .head⟩))
    | tail h' => exact .inl (by omega)
    | inner h' => exact .inr (.inr (.inl ⟨k, .inner h'⟩))
  | tail h ih =>
    cases h' with
    | head => exact .inr (.inl (by omega))
    | tail h' =>
      rcases ih h' with hle | hle | hnested
      · exact .inl (by omega)
      · exact .inr (.inl (by omega))
      · exact .inr (.inr hnested)
    | inner h' =>
      have hle := h'.le
      exact .inr (.inl (by rw [text]; omega))
  | inner h ih =>
    cases h' with
    | head => exact .inr (.inr (.inr ⟨_, .inner h⟩))
    | tail h' =>
      have hle := h.le
      exact .inl (by rw [text]; omega)
    | inner h' => exact ih h'

theorem Within.mem_spans {n : Node} {mode : Mode} {asArg : Bool} {id : String} (start : Nat)
    (h : Within ls k (.node n mode asArg inner)) (hid : n.id? = some id) :
    (id, ⟨start + k, start + k + (textAll inner).length⟩) ∈ spansAll start ls := by
  generalize hl : Layout.node n mode asArg inner = l at h
  induction h generalizing start with
  | head =>
    subst hl
    simp [spansAll, spans, hid]
  | @tail l m k ls _ ih =>
    rw [spansAll, List.mem_append, ← Nat.add_assoc]
    exact .inr (ih _ hl)
  | inner _ ih =>
    rw [spansAll, spans, List.mem_append, List.mem_append]
    exact .inl (.inl (ih start hl))

end Layout

namespace Node

open Layout

/-- What a node is joined from is the text of its layout. -/
theorem emit_eq_latex (n : Node) (mode : Mode) (asArg : Bool) : n.emit mode asArg = n.latex mode asArg := by
  induction n using childrenInduction generalizing mode asArg with
  | step n ih =>
    have hrefs := n.references_pieces mode asArg
    have hpieces : ∀ ps : List Piece, (∀ c ∈ Piece.references ps, c ∈ n.children) →
        String.join (ps.map (Piece.emit mode)) = textAll (ps.map (Piece.layout mode)) := by
      intro ps hps
      induction ps with
      | nil => rfl
      | cons p ps ihs =>
        rw [List.map_cons, List.map_cons, String.join_cons, textAll]
        cases p with
        | lit s =>
          have hrest := ihs hps
          rw [Piece.emit, Piece.layout, Layout.text, hrest]
        | child c a m =>
          have hc := ih c (hps c List.mem_cons_self) (m.getD mode) a
          have hrest := ihs fun d hd => hps d (List.mem_cons_of_mem _ hd)
          rw [Piece.emit, Piece.layout, hc, hrest, latex]
    rw [emit_eq, latex_eq, hpieces _ fun c hc => hrefs.mem_iff.mp hc]

/-- A walk over pieces finds the spans of their layouts, if the walks over their nodes do. -/
theorem foldl_trace {mode : Mode} {ps : List Piece}
    (h : ∀ c ∈ Piece.references ps, ∀ m a t, c.trace m a t =
      ⟨t.spans ++ (c.layout m a).spans t.offset, t.offset + (c.latex m a).length⟩) (t : Trail) :
    ps.foldl (Piece.trace mode) t = ⟨t.spans ++ spansAll t.offset (ps.map (Piece.layout mode)),
      t.offset + (textAll (ps.map (Piece.layout mode))).length⟩ := by
  induction ps generalizing t with
  | nil => simp [spansAll, textAll]
  | cons p ps ih =>
    rw [List.foldl_cons, List.map_cons, spansAll, length_textAll_cons]
    cases p with
    | lit s =>
      have hrest := ih h { t with offset := t.offset + s.length }
      rw [Piece.trace, hrest, Piece.layout, Layout.spans, Layout.text, List.nil_append, Nat.add_assoc]
    | child c a m =>
      have hc := h c List.mem_cons_self (m.getD mode) a t
      have hrest := ih (fun d hd => h d (List.mem_cons_of_mem _ hd)) (c.trace (m.getD mode) a t)
      rw [Piece.trace, hrest, hc, Piece.layout, latex, List.append_assoc, Nat.add_assoc]

/-- A walk over a node finds the spans of its layout and ends behind its text. -/
theorem trace_eq_spans (n : Node) (mode : Mode) (asArg : Bool) (t : Trail) : n.trace mode asArg t =
    ⟨t.spans ++ (n.layout mode asArg).spans t.offset, t.offset + (n.latex mode asArg).length⟩ := by
  induction n using childrenInduction generalizing mode asArg t with
  | step n ih =>
    have hrefs := n.references_pieces mode asArg
    have hpieces := @foldl_trace mode (n.pieces mode asArg)
      (fun c hc m a t => ih c (hrefs.mem_iff.mp hc) m a t) t
    rw [trace_eq, hpieces, Trail.close, layout_eq, Layout.spans, latex_eq, List.append_assoc]

/-- Siblings behind the first one are walked over with the blank in front of each. -/
theorem foldl_trace_spaced (mode : Mode) (n : Node) (ns : List Node) (k : Nat) (t : Trail) :
    ((n :: ns).zipIdx (k + 1)).foldl (fun t (n, i) =>
        n.trace mode false { t with offset := if i = 0 then t.offset else t.offset + 1 }) t =
      (.lit " " :: Piece.spaced (n :: ns)).foldl (Piece.trace mode) t := by
  induction ns generalizing n k t with
  | nil => rfl
  | cons m ns ih =>
    rw [List.zipIdx_cons, List.foldl_cons, ih]
    rfl

/-- The spans of some pieces belong to the ids below the nodes that the pieces refer to. -/
theorem keys_pieces {mode : Mode} {ps : List Piece}
    (h : ∀ c ∈ Piece.references ps, ∀ start m a, (((c.layout m a).spans start).map Prod.fst).Perm c.ids)
    (start : Nat) : ((spansAll start (ps.map (Piece.layout mode))).map Prod.fst).Perm
      ((Piece.references ps).flatMap ids) := by
  induction ps generalizing start with
  | nil => exact .refl _
  | cons p ps ih =>
    rw [List.map_cons, spansAll, List.map_append]
    cases p with
    | lit s =>
      rw [Piece.layout, Layout.spans, List.map_nil, List.nil_append]
      exact ih h _
    | child c a m =>
      have hc := h c List.mem_cons_self start (m.getD mode) a
      have hrest := ih fun d hd => h d (List.mem_cons_of_mem c hd)
      rw [Piece.layout, Piece.references, List.flatMap_cons]
      exact hc.append (hrest _)

/-- The spans of a tree belong to its ids, each to one. -/
theorem keys_layout (n : Node) (start : Nat) (mode : Mode) (asArg : Bool) :
    (((n.layout mode asArg).spans start).map Prod.fst).Perm n.ids := by
  induction n using childrenInduction generalizing start mode asArg with
  | step n ih =>
    have hrefs := n.references_pieces mode asArg
    have hown : ∀ s : Span, (n.id?.map fun id => (id, s)).toList.map Prod.fst = n.id?.toList := by
      intro s
      cases n.id? <;> rfl
    have hpieces := @keys_pieces mode (n.pieces mode asArg)
      (fun c hc start m a => ih c (hrefs.mem_iff.mp hc) start m a) start
    have hbelow : ((spansAll start ((n.pieces mode asArg).map (Piece.layout mode))).map Prod.fst).Perm
        (n.children.flatMap ids) :=
      hpieces.trans (hrefs.flatMap_right ids)
    rw [layout_eq, Layout.spans, List.map_append, ids_eq, hown]
    exact List.perm_append_comm.trans (hbelow.append_left _)

/-- What stands within the layout of some pieces is a node below those that they refer to. -/
theorem mem_preorder_of_within {ls : List Layout} {k : Nat} {l : Layout} (h : Within ls k l)
    {mode : Mode} {ps : List Piece} (hls : ls = ps.map (Piece.layout mode)) {c : Node} {m : Mode}
    {a : Bool} (hl : l = c.layout m a) : ∃ d ∈ Piece.references ps, c ∈ d.preorder := by
  induction h generalizing mode ps with
  | head =>
    cases ps with
    | nil => cases hls
    | cons p ps =>
      cases p with
      | lit s =>
        have he := (List.cons.inj hls).1
        rw [hl, layout_eq, Piece.layout] at he
        cases he
      | child d a' m' =>
        have he := (List.cons.inj hls).1
        rw [hl, layout_eq, Piece.layout, layout_eq] at he
        cases he
        exact ⟨c, List.mem_cons_self, by rw [preorder_eq]; exact List.mem_cons_self⟩
  | tail _ ih =>
    cases ps with
    | nil => cases hls
    | cons p ps =>
      obtain ⟨d, hd, hc⟩ := ih (List.cons.inj hls).2 hl
      cases p with
      | lit s => exact ⟨d, hd, hc⟩
      | child => exact ⟨d, List.mem_cons_of_mem _ hd, hc⟩
  | inner _ ih =>
    cases ps with
    | nil => cases hls
    | cons p ps =>
      have he := (List.cons.inj hls).1
      cases p with
      | lit s => cases he
      | child e a' m' =>
        rw [Piece.layout, layout_eq] at he
        obtain ⟨rfl, rfl, rfl, rfl⟩ := Layout.node.inj he
        obtain ⟨d, hd, hc⟩ := ih rfl hl
        have hmem := (Node.references_pieces _ _ _).mem_iff.mp hd
        refine ⟨_, List.mem_cons_self, ?_⟩
        rw [preorder_eq]
        exact List.mem_cons_of_mem _ (List.mem_flatMap.mpr ⟨d, hmem, hc⟩)

end Node

namespace Formula

open Layout

/-- How a formula in a mode writes its nodes: those at the top in this mode and as no arguments, those
below as the pieces of the node above say. -/
inductive Writes (f : Formula) (mode : Mode) : Node → Mode → Bool → Prop
  | top {n} (h : n ∈ f.children) : Writes f mode n mode false
  | piece {n m a c a' m'} (h : Writes f mode n m a) (hp : Piece.child c a' m' ∈ n.pieces m a) :
      Writes f mode c (m'.getD m) a'

variable {f : Formula} {mode : Mode} {n : Node} {m : Mode} {a : Bool}

/-- The trees of a formula, joined with blanks, are its text. -/
theorem emit_eq (f : Formula) (mode : Mode) : emitSequence mode f.children = f.latex mode := by
  have hnodes : f.children.map (·.emit mode false) = f.children.map (·.latex mode false) :=
    List.map_congr_left fun n _ => n.emit_eq_latex mode false
  have hchars : ((f.layout mode).map fun l => l.text.toList) =
      (f.children.map fun n => (n.latex mode false).toList).intersperse [' '] := by
    rw [layout, layoutSequence, map_intersperse, List.map_map]
    rfl
  rw [← String.toList_inj, emitSequence, hnodes, String.toList_intercalate, List.map_map, latex,
    Layout.toList_textAll, List.flatMap_def, hchars]
  rfl

/-- A walk over the trees of a formula finds its spans and ends behind its text. -/
theorem trace_eq (f : Formula) (mode : Mode) :
    traceSequence mode f.children = ⟨f.spans mode, (f.latex mode).length⟩ := by
  have hwalk : traceSequence mode f.children =
      (Piece.spaced f.children).foldl (Piece.trace mode) ⟨[], 0⟩ := by
    rw [traceSequence]
    rcases f.children with _ | ⟨n, _ | ⟨m, ns⟩⟩
    · rfl
    · rfl
    · rw [List.zipIdx_cons, List.foldl_cons, Node.foldl_trace_spaced]
      rfl
  have hpieces := @Node.foldl_trace mode (Piece.spaced f.children)
    (fun c _ m a t => c.trace_eq_spans m a t) ⟨[], 0⟩
  rw [hwalk, hpieces, ← f.layout_eq, List.nil_append, Nat.zero_add, spans, latex]

theorem keys_spans (f : Formula) (mode : Mode) : ((f.spans mode).map Prod.fst).Perm f.ids := by
  have hkeys := @Node.keys_pieces mode (Piece.spaced f.children)
    (fun c _ start m a => c.keys_layout start m a) 0
  rwa [← f.layout_eq, Piece.references_spaced, ← forestIds_eq] at hkeys

theorem Writes.of_mem_preorder {c : Node} (h : f.Writes mode n m a) (hc : c ∈ n.preorder) :
    ∃ m' a', f.Writes mode c m' a' := by
  induction n using Node.childrenInduction generalizing m a with
  | step n ih =>
    rw [Node.preorder_eq] at hc
    rcases List.mem_cons.mp hc with rfl | hc
    · exact ⟨m, a, h⟩
    · obtain ⟨d, hd, hc⟩ := List.mem_flatMap.mp hc
      obtain ⟨a', m', hp⟩ := Node.exists_piece hd m a
      exact ih d hd (h.piece hp) hc

/-- Every node of a formula is written. -/
theorem exists_writes (mode : Mode) (h : n ∈ f.nodes) : ∃ m a, f.Writes mode n m a := by
  obtain ⟨d, hd, hn⟩ := List.mem_flatMap.mp h
  exact (Writes.top hd).of_mem_preorder hn

theorem within_of_piece {c : Node} {a' : Bool} {m' : Option Mode}
    (hp : Piece.child c a' m' ∈ n.pieces m a) :
    ∃ k, Within ((n.pieces m a).map (Piece.layout m)) k (c.layout (m'.getD m) a') :=
  within_of_mem (List.mem_map_of_mem hp)

theorem Writes.within (h : f.Writes mode n m a) : ∃ k, Within (f.layout mode) k (n.layout m a) := by
  induction h with
  | @top n h =>
    rw [layout, layoutSequence]
    apply within_of_mem
    exact mem_intersperse_of_mem _ (List.mem_map_of_mem h)
  | piece _ hp ih =>
    obtain ⟨j, hj⟩ := ih
    obtain ⟨k, hk⟩ := within_of_piece hp
    rw [Node.layout_eq] at hj
    exact ⟨j + k, hj.trans hk⟩

theorem lookup_of_mem {α β : Type} [BEq α] [LawfulBEq α] {x : α} {y : β} {l : List (α × β)}
    (hl : (l.map Prod.fst).Nodup) (h : (x, y) ∈ l) : l.lookup x = some y := by
  induction l with
  | nil => cases h
  | cons p l ih =>
    obtain ⟨hp, hl⟩ := List.nodup_cons.mp hl
    rw [List.lookup_cons]
    rcases List.mem_cons.mp h with rfl | h
    · rw [beq_self_eq_true]
    · have hne : (x == p.1) = false := by
        refine beq_eq_false_iff_ne.mpr fun he => hp ?_
        exact he ▸ List.mem_map_of_mem (f := Prod.fst) h
      rw [hne]
      exact ih hl h

/-- The span of a node is where its layout stands. -/
theorem span?_of_within {k : Nat} (h : Within (f.layout mode) k (n.layout m a)) {id : String}
    (hid : n.id? = some id) : f.span? mode id = some ⟨k, k + (n.latex m a).length⟩ := by
  have hkeys : ((f.spans mode).map Prod.fst).Nodup := (f.keys_spans mode).nodup_iff.mpr f.nodup
  rw [Node.layout_eq] at h
  have hmem := h.mem_spans 0 hid
  rw [Nat.zero_add, ← Node.latex_eq] at hmem
  exact lookup_of_mem hkeys hmem

/-- Wherever a node with an id is written, it stands at its span. -/
theorem Writes.within_span (h : f.Writes mode n m a) {id : String} (hid : n.id? = some id) {s : Span}
    (hs : f.span? mode id = some s) : Within (f.layout mode) s.start (n.layout m a) ∧
      s.stop = s.start + (n.latex m a).length := by
  obtain ⟨k, hk⟩ := h.within
  obtain rfl := Option.some.inj (hs.symm.trans (span?_of_within hk hid))
  exact ⟨hk, rfl⟩

theorem span_slice (h : f.Writes mode n m a) {id : String} (hid : n.id? = some id) :
    ∃ s, f.span? mode id = some s ∧ s.slice (f.latex mode) = n.latex m a := by
  obtain ⟨k, hk⟩ := h.within
  exact ⟨_, span?_of_within hk hid, hk.slice⟩

theorem span_child {c : Node} {i j : String} {s t : Span} (hn : n ∈ f.nodes) (hc : c ∈ n.children)
    (hi : n.id? = some i) (hj : c.id? = some j) (hs : f.span? mode i = some s)
    (ht : f.span? mode j = some t) : s.start ≤ t.start ∧ t.stop ≤ s.stop := by
  obtain ⟨m, a, hw⟩ := exists_writes mode hn
  obtain ⟨a', m', hp⟩ := Node.exists_piece hc m a
  obtain ⟨hin, hstop⟩ := hw.within_span hi hs
  obtain ⟨k, hk⟩ := within_of_piece hp
  have hle : k + (c.latex (m'.getD m) a').length ≤ (n.latex m a).length := by
    rw [n.latex_eq]
    exact hk.le
  rw [Node.layout_eq] at hin
  obtain rfl := Option.some.inj (ht.symm.trans (span?_of_within (hin.trans hk) hj))
  constructor
  · show s.start ≤ s.start + k
    omega
  · show s.start + k + _ ≤ s.stop
    omega

theorem span_apart {n' : Node} {i j : String} {s t : Span} (hn : n ∈ f.nodes) (hn' : n' ∈ f.nodes)
    (hbelow : n ∉ n'.preorder) (habove : n' ∉ n.preorder) (hi : n.id? = some i)
    (hj : n'.id? = some j) (hs : f.span? mode i = some s) (ht : f.span? mode j = some t) :
    s.stop ≤ t.start ∨ t.stop ≤ s.start := by
  obtain ⟨m, a, hw⟩ := exists_writes mode hn
  obtain ⟨m', a', hw'⟩ := exists_writes mode hn'
  obtain ⟨hin, hstop⟩ := hw.within_span hi hs
  obtain ⟨hin', hstop'⟩ := hw'.within_span hj ht
  have hnested : ∀ {k : Nat} {c d : Node} {m m' : Mode} {a a' : Bool},
      Within [c.layout m a] k (d.layout m' a') → d ∈ c.preorder := by
    intro k c d m m' a a' h
    obtain ⟨e, he, hd⟩ := Node.mem_preorder_of_within h
      (show [c.layout m a] = [Piece.child c a none].map (Piece.layout m) from rfl) rfl
    obtain rfl : e = c := by simpa [Piece.references] using he
    exact hd
  rw [hstop, hstop', Node.latex, Node.latex]
  rcases hin.compare hin' with h | h | ⟨k, h⟩ | ⟨k, h⟩
  · exact .inl h
  · exact .inr h
  · exact absurd (hnested h) habove
  · exact absurd (hnested h) hbelow

/-- In every mode the spans of a formula belong to its ids, each to one; every node is written, and the
span of a node cuts its text out of the text of the formula; the span of a child lies inside that of
its parent, and the spans of two nodes neither of which stands below the other keep apart. -/
theorem spans_spec (f : Formula) (mode : Mode) :
    ((f.spans mode).map Prod.fst).Perm f.ids ∧
    (∀ n ∈ f.nodes, ∃ m a, f.Writes mode n m a) ∧
    (∀ n m a id, f.Writes mode n m a → n.id? = some id →
      ∃ s, f.span? mode id = some s ∧ s.slice (f.latex mode) = n.latex m a) ∧
    (∀ n ∈ f.nodes, ∀ c ∈ n.children, ∀ i j s t, n.id? = some i → c.id? = some j →
      f.span? mode i = some s → f.span? mode j = some t → s.start ≤ t.start ∧ t.stop ≤ s.stop) ∧
    ∀ n ∈ f.nodes, ∀ n' ∈ f.nodes, n ∉ n'.preorder → n' ∉ n.preorder → ∀ i j s t,
      n.id? = some i → n'.id? = some j → f.span? mode i = some s → f.span? mode j = some t →
      s.stop ≤ t.start ∨ t.stop ≤ s.start := by
  refine ⟨f.keys_spans mode, ?_, ?_, ?_, ?_⟩
  · intro n hn
    exact exists_writes mode hn
  · intro n m a id h hid
    exact span_slice h hid
  · intro n hn c hc i j s t hi hj hs ht
    exact span_child hn hc hi hj hs ht
  · intro n hn n' hn' hbelow habove i j s t hi hj hs ht
    exact span_apart hn hn' hbelow habove hi hj hs ht

end Formula

end FormulaDoc
