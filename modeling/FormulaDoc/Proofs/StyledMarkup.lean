import FormulaDoc.Proofs.Bases
import FormulaDoc.Proofs.KeptIds
import FormulaDoc.Proofs.Regrouped
import FormulaDoc.Proofs.Reparsing
import FormulaDoc.Proofs.Styled

namespace FormulaDoc

namespace Node

variable {m n : Node} {stop : Stop}

/-- A group around a single group. A slot has braces for one of the two only. -/
def isNestedGroup : Node → Bool
  | group _ [n] => n.kind = .group
  | _ => false

/-- Whether a reader finds in a text or a carrier what was written there: in a text letters, in a carrier no
group around a single group, and in a box no item that begins like the end of it. -/
def encloses : Node → Bool
  | text _ body => body.all isLetter
  | box _ _ body _ => !body.isNestedGroup && (contents .dollar body).all (·.ast.head? != some '$')
  | brace _ _ body | strike _ body => !body.isNestedGroup
  | _ => true

theorem mem_contents_group {id : String} {body : List Node} (h : m ∈ body) :
    m ∈ contents stop (group id body) := by
  cases body with
  | nil => cases h
  | cons n ns => exact h

theorem isNestedGroup_of_kind_ne (h : n.kind ≠ .group) : n.isNestedGroup = false := by
  cases n <;> first | rfl | exact absurd rfl h

theorem contents_collapse_contents (stop : Stop) (h : n.isNestedGroup = false) :
    contents stop (collapse (contents stop n)) = contents stop n := by
  rcases n.eq_group_or_kind_ne with ⟨id, body, rfl⟩ | hk
  · rcases body with _ | ⟨c, _ | ⟨d, body⟩⟩
    · by_cases hstop : stop = .cell <;> simp [contents, collapse, hstop]
    · have hk : c.kind ≠ .group := by simpa [isNestedGroup] using h
      exact contents_eq_singleton hk
    · rfl
  · rw [contents_eq_singleton hk, collapse, contents_eq_singleton hk]

theorem contents_collapse_contents_iff (hstop : stop ≠ .cell) :
    contents stop (collapse (contents stop n)) = contents stop n ↔ n.isNestedGroup = false := by
  refine ⟨fun h => Bool.eq_false_iff.mpr fun hnested => ?_, contents_collapse_contents stop⟩
  unfold isNestedGroup at hnested
  split at hnested
  next id c =>
    cases c with
    | group id' body =>
      rw [contents_group hstop, collapse, contents_group hstop] at h
      have hmem : group id' body ∈ [group id' body] := List.mem_singleton_self _
      rw [← h] at hmem
      exact absurd (size_lt_of_mem (n := group id' body) hmem) (Nat.lt_irrefl _)
    | _ => simp [kind] at hnested
  next => cases hnested

theorem steady_iff_of_arguments {b : Node} (hk : n.kind ≠ .text) (h : n.arguments = [(stop, b)]) :
    n.Steady ↔ Stable stop (contents stop b) := by
  constructor
  · exact fun hsteady => hsteady.slots stop b (by simp [h])
  · refine fun hstable => ⟨fun htext => absurd htext hk, fun stop' s hs => ?_⟩
    rw [h, List.mem_singleton] at hs
    cases hs
    exact hstable

/-- A writable slot of braces is stable unless it holds a group around a single group. -/
theorem stable_brace_iff (h : n.Writable) :
    Stable .brace (contents .brace n) ↔ n.isNestedGroup = false := by
  rw [← contents_collapse_contents_iff brace_ne_cell]
  exact and_iff_right fun c hc => (h.of_mem_contents hc).opening.holds_brace

theorem stable_dollar_iff : Stable .dollar (contents .dollar n) ↔
    n.isNestedGroup = false ∧ ∀ c ∈ contents .dollar n, c.ast.head? ≠ some '$' := by
  have hstop : Stop.dollar ≠ .cell := by decide
  rw [← contents_collapse_contents_iff hstop, and_comm]
  simp [Stable, Stop.holds]

/-- A writable text or carrier is read as it was written just when it gives back what it holds. -/
theorem steady_iff_encloses (h : n.Writable)
    (hk : n.kind ∈ [.text, .color, .box, .strike, .brace]) : n.Steady ↔ n.encloses := by
  cases n with
  | text id body =>
    refine ⟨fun hsteady => List.all_eq_true.mpr (hsteady.letters rfl), fun hall => ⟨fun _ => ?_, ?_⟩⟩
    · exact List.all_eq_true.mp hall
    · exact fun stop a ha => by cases ha
  | color id c body => exact iff_of_true ⟨fun hk => (by cases hk), fun stop a ha => (by cases ha)⟩ rfl
  | box id border body background =>
    rw [steady_iff_of_arguments (by simp [kind]) rfl, stable_dollar_iff]
    simp [encloses]
  | strike id body | brace id above body =>
    have hbody := h.child (by simp [kind]) (List.mem_cons_self (a := body))
    rw [steady_iff_of_arguments (by simp [kind]) rfl, stable_brace_iff hbody]
    simp [encloses]
  | _ => simp [kind] at hk

theorem spelledAt_bareBase_of_shape (h : m.shape = n.shape) (hn : n.spelledAt [])
    (hk : m.kind ≠ .text) : m.bareBase.spelledAt [] := by
  cases m with
  | text => exact absurd rfl hk
  | array id rows align =>
    cases n with
    | array id' rows' align' =>
      obtain ⟨hrows, rfl⟩ : rows.map List.length = rows'.map List.length ∧ align = align' := by
        simpa [shape] using h
      have hall : ∀ rows : List (List Node), (rows.all fun row => !row.isEmpty) =
          (rows.map List.length).all (0 < ·) := by
        intro rows
        rw [List.all_map]
        exact List.all_congr rfl fun row => by cases row <;> rfl
      simpa [bareBase, spelledAt, hall, hrows] using hn
    | _ => cases h
  | _ => cases n <;> simp_all [shape, bareBase, spelledAt, isScriptGroup_bared]

theorem showsCarrier_of_pieces (s v : String) (hs : s ∈ carrierCommands)
    (h : (n.pieces .text false).head? = some (.lit (s ++ v))) : n.ShowsCarrier := by
  obtain ⟨ps, hps⟩ := List.head?_eq_some_iff.mp h
  refine ⟨s, hs, ?_⟩
  rw [markup_eq, hps, List.flatMap_cons, Piece.markup, String.toList_append, List.append_assoc]
  exact List.prefix_append _ _

theorem showsCarrier_script {id : String} {base : Node} {sub sup : Option Node}
    (hk : base.kind ≠ .script) (h : base.ShowsCarrier) : (script id base sub sup).ShowsCarrier := by
  obtain ⟨s, hs, hprefix⟩ := h
  refine ⟨s, hs, hprefix.trans ?_⟩
  rw [markup_eq (script id base sub sup)]
  simp only [pieces, if_neg hk, List.singleton_append]
  exact List.prefix_append _ _

end Node

namespace Styling

variable {s : Styling} {c : Formula} {selected new : List String} {fresh : Supply} {b m n x : Node}
  {stop : Stop}

theorem applyAll_cases (s : Styling) (c : Formula) (selected : List String) (fresh : Supply) (x : Node) :
    (s.maker c selected).applyAll fresh x = s.own selected ((s.maker c selected).rebuilt fresh x) ∨
      s.own selected ((s.maker c selected).rebuilt fresh x) = (s.maker c selected).rebuilt fresh x ∧
        (s.maker c selected).applyAll fresh x =
          s.wrapper (fresh.of x) ((s.maker c selected).rebuilt fresh x) := by
  rw [Maker.applyAll_eq]
  change s.make c selected (fresh.of x) _ = _ ∨ _ ∧ s.make c selected (fresh.of x) _ = _
  unfold make own
  split
  next => exact .inl rfl
  next =>
    split
    next => exact .inr ⟨rfl, rfl⟩
    next => exact .inl rfl

theorem kind_carrier (s : Styling) (id : String) (b : Node) : (s.carrier id b).kind = s.kind := by
  cases s <;> rfl

theorem wordedAt_carrier (hnames : ∀ name ∈ s.names, Verbatim name) (id : String) (b : Node) :
    (s.carrier id b).bareBase.WordedAt := by
  refine ⟨fun _ => by cases s <;> rfl, ?_, fun hk => by cases s <;> cases hk⟩
  cases s <;> exact hnames

theorem showsCarrier_carrier (s : Styling) (id : String) (b : Node) :
    (s.carrier id b).ShowsCarrier := by
  cases s with
  | color c =>
    refine Node.showsCarrier_of_pieces "\\textcolor\x7b" (c ++ "\x7d\x7b") (by decide) ?_
    simp [carrier, Node.pieces, String.append_assoc]
  | box border background =>
    refine Node.showsCarrier_of_pieces "\\fcolorbox\x7b"
      (border ++ "\x7d\x7b" ++ background ++ "\x7d\x7b$") (by decide) ?_
    simp [carrier, Node.pieces, String.append_assoc]
  | strike => exact Node.showsCarrier_of_pieces "\\cancel\x7b" "" (by decide) rfl
  | brace above =>
    cases above with
    | false => exact Node.showsCarrier_of_pieces "\\underbrace\x7b" "" (by decide) rfl
    | true => exact Node.showsCarrier_of_pieces "\\overbrace\x7b" "" (by decide) rfl

theorem kind_wrapper_ne (s : Styling) (new : List String) (b : Node) : (s.wrapper new b).kind ≠ .group := by
  cases s with
  | brace above caption =>
    rw [wrapper, kind_captioned]
    decide
  | _ => simp [wrapper, carrier, Node.kind]

theorem exists_captioned_eq (id : String) (base : Node) (above : Bool) (caption : Option Node) :
    ∃ sub sup, captioned id base above caption = .script id base sub sup ∧
      sub.toList ++ sup.toList = caption.toList := by
  cases above
  · exact ⟨caption, none, rfl, List.append_nil _⟩
  · exact ⟨none, caption, rfl, rfl⟩

theorem showsCarrier_wrapper (s : Styling) (new : List String) (b : Node) :
    (s.wrapper new b).ShowsCarrier := by
  have hcarrier := fun id => s.showsCarrier_carrier id b
  cases s with
  | brace above caption =>
    obtain ⟨sub, sup, hscript, -⟩ := exists_captioned_eq (new.getD 1 "") (.brace (new.headD "") above b)
      above (some (label caption (new.drop 2)))
    rw [wrapper, carrier, hscript]
    exact Node.showsCarrier_script (by simp [Node.kind]) (hcarrier _)
  | _ => exact hcarrier _

/-- A run goes on in front of a new carrier. -/
theorem goesOn_wrapper (s : Styling) (new : List String) (b : Node) (stop : Stop) :
    stop.holds (s.wrapper new b).ast = false := by
  have hcarrier : ∀ id, stop.holds (s.carrier id b).ast = false := fun id =>
    Node.goesOn_of_branch (by cases s <;> rfl) (by cases s <;> rfl)
      (by cases s <;> simp [carrier, Node.kind]) stop
  cases s with
  | brace above caption =>
    obtain ⟨sub, sup, hscript, -⟩ := exists_captioned_eq (new.getD 1 "") (.brace (new.headD "") above b)
      above (some (label caption (new.drop 2)))
    have hopen : Opening (Node.brace (new.headD "") above b).ast :=
      (Node.begins rfl (by simp [Node.kind])).opening
    rw [wrapper, carrier, hscript, Stop.holds_script hopen]
    exact hcarrier _
  | _ => exact hcarrier _

/-- A run goes on in front of the braces around a script. -/
theorem goesOn_braced (h : n.kind ≠ .script → stop.holds n.ast = false) :
    stop.holds n.braced.ast = false := by
  unfold Node.braced
  split
  next =>
    rw [Node.ast_group]
    cases stop <;> rfl
  next hk => exact h hk

theorem mem_arguments_change {a : Node} (h : (stop, a) ∈ (s.change b).arguments) :
    (stop, a) ∈ b.arguments := by
  cases s with
  | color => cases b <;> exact h
  | box => cases b <;> exact h
  | strike => exact h
  | brace above caption =>
    cases b with
    | script id base sub sup =>
      cases above <;> cases sub <;> cases sup <;>
        simp_all [change, Node.turn, captioned, Node.arguments]
    | _ => exact h

theorem mem_arguments_own {a : Node} (h : (stop, a) ∈ (s.own selected b).arguments) :
    (stop, a) ∈ b.arguments := by
  unfold own at h
  split at h
  next => exact mem_arguments_change h
  next => exact h

theorem isLetter_label {caption : String} {ids : List String} :
    ∀ ch ∈ (label caption ids).children, ch.isLetter := by
  intro ch hch
  obtain ⟨i, hi, rfl⟩ := List.mem_iff_getElem.mp hch
  simp only [label, Node.children, List.getElem_zipWith, symbolsOf, List.getElem_map]
  simp [Node.withId, Node.isLetter]

/-- A new script around a brace is written back with its caption. -/
theorem steady_captioned {id i : String} {above above' : Bool} {caption : String} {ids : List String} :
    (captioned id (.brace i above' b) above (some (label caption ids))).bareBase.WordedAt ∧
      (captioned id (.brace i above' b) above (some (label caption ids))).Steady := by
  obtain ⟨sub, sup, hscript, hcaption⟩ := exists_captioned_eq id (.brace i above' b) above
    (some (label caption ids))
  rw [hscript]
  constructor
  · refine ⟨fun _ => ?_, List.forall_mem_nil _, fun hk => by cases hk⟩
    cases sub <;> cases sup <;> first | rfl | cases hcaption
  · refine ⟨fun hk => (by cases hk), fun stop a ha => ?_⟩
    rw [Node.arguments, hcaption] at ha
    obtain ⟨rfl, rfl⟩ : stop = .brace ∧ a = label caption ids := by simpa using ha
    refine ⟨?_, rfl⟩
    rw [contents_eq_singleton (by simp [label, Node.kind])]
    simp [label, Node.ast_text, Stop.holds]

theorem steady_label {caption : String} {ids : List String} :
    (label caption ids).bareBase.WordedAt ∧ (label caption ids).Steady := by
  constructor
  · refine ⟨fun hk => absurd rfl hk, List.forall_mem_nil _, ?_⟩
    intro _ c hc
    exact .inl (isLetter_label c hc)
  · refine ⟨fun _ => isLetter_label, ?_⟩
    intro stop a ha
    cases ha

theorem mem_outer_wrapper (h : m ∈ (s.wrapper new b).outer) :
    m ∈ b.outer ∨ m = s.carrier (new.headD "") b ∨ m.bareBase.WordedAt ∧ m.Steady := by
  have hcarrier : m ∈ (s.carrier (new.headD "") b).outer → m ∈ b.outer ∨
      m = s.carrier (new.headD "") b := by
    intro h
    rcases Node.mem_outer_iff.mp h with rfl | ⟨-, c, hc, h⟩
    · exact .inr rfl
    · rw [children_carrier] at hc
      rw [List.mem_singleton.mp hc] at h
      exact .inl h
  cases s with
  | brace above caption =>
    rw [wrapper, Node.outer_eq, children_captioned, kind_captioned] at h
    rcases List.mem_cons.mp h with rfl | h
    · exact .inr (.inr steady_captioned)
    · simp only [reduceCtorEq, if_false, Option.toList_some, List.flatMap_cons, List.flatMap_nil,
        List.append_nil, List.mem_append] at h
      rcases h with h | h
      · exact (hcarrier h).imp_right .inl
      · obtain rfl : m = label caption (new.drop 2) := by
          simpa [Node.outer_eq, label, Node.kind] using h
        exact .inr (.inr steady_label)
  | _ => exact (hcarrier h).imp_right .inl

/-- A node of what a command makes of a tree is a node of the tree as the command leaves it, a new carrier,
or a caption or the script around one. -/
theorem mem_outer_applyAll (h : m ∈ ((s.maker c selected).applyAll fresh x).outer) :
    (∃ y ∈ x.outer, m = s.own selected ((s.maker c selected).rebuilt fresh y)) ∨
      (∃ id b, m = s.carrier id b) ∨ m.bareBase.WordedAt ∧ m.Steady := by
  induction x using Node.childrenInduction with
  | step x ih =>
    have hown : m ∈ (s.own selected ((s.maker c selected).rebuilt fresh x)).outer →
        (∃ y ∈ x.outer, m = s.own selected ((s.maker c selected).rebuilt fresh y)) ∨
          (∃ id b, m = s.carrier id b) ∨ m.bareBase.WordedAt ∧ m.Steady := by
      intro h
      rcases Node.mem_outer_iff.mp h with rfl | ⟨hk, d, hd, h⟩
      · exact .inl ⟨x, x.self_mem_outer, rfl⟩
      · rw [kind_own, Maker.kind_rebuilt] at hk
        have hd := (children_own_sublist s selected _).subset hd
        rw [Maker.children_rebuilt] at hd
        obtain ⟨ch, hch, rfl⟩ := List.mem_map.mp hd
        refine (ih ch hch h).imp_left ?_
        rintro ⟨y, hy, rfl⟩
        exact ⟨y, Node.mem_outer_of_child hk hch hy, rfl⟩
    rcases s.applyAll_cases c selected fresh x with happly | ⟨hself, happly⟩
    · exact hown (by rwa [happly] at h)
    · rw [happly] at h
      rcases mem_outer_wrapper h with h | rfl | h
      · exact hown (by rwa [hself])
      · exact .inr (.inl ⟨_, _, rfl⟩)
      · exact .inr (.inr h)

theorem isBranch_rebuilt (k : Maker) (fresh : Supply) (n : Node) :
    (k.rebuilt fresh n).isBranch = n.isBranch :=
  Node.isBranch_eq_of_kind (Maker.kind_rebuilt k fresh n)

/-- Leaves and groups are not found by any command. -/
theorem own_eq_self (h : b.isBranch = false ∨ b.kind = .group) : s.own selected b = b := by
  unfold own
  split
  next =>
    cases b with
    | symbol | space | text | op | newLine | alignMark | var | group => cases s <;> rfl
    | _ => rcases h with h | h <;> cases h
  next => rfl

theorem own_script (s : Styling) (selected : List String) (id : String) (base : Node)
    (sub sup : Option Node) : ∃ sub' sup', s.own selected (.script id base sub sup) = .script id base sub' sup' := by
  unfold own
  split
  next =>
    cases s with
    | brace above caption => cases above <;> exact ⟨_, _, rfl⟩
    | _ => exact ⟨sub, sup, rfl⟩
  next => exact ⟨sub, sup, rfl⟩

theorem spelledAt_change (h : b.bareBase.spelledAt []) : (s.change b).bareBase.spelledAt [] := by
  cases s with
  | color => cases b <;> exact h
  | box => cases b <;> exact h
  | strike => exact h
  | brace above caption =>
    cases b with
    | script id base sub sup =>
      cases above <;> cases sub <;> cases sup <;>
        simp_all [change, Node.turn, captioned, Node.bareBase, Node.spelledAt]
    | _ => exact h

theorem spelledAt_own (h : b.bareBase.spelledAt []) : (s.own selected b).bareBase.spelledAt [] := by
  unfold own
  split
  next => exact spelledAt_change h
  next => exact h

/-- Of a letter a command makes the letter itself or a carrier around it. -/
theorem isLetter_or_showsCarrier (h : x.isLetter) :
    ((s.maker c selected).applyAll fresh x).isLetter ∨
      ((s.maker c selected).applyAll fresh x).ShowsCarrier := by
  rcases s.applyAll_cases c selected fresh x with happly | ⟨-, happly⟩
  · left
    cases x with
    | symbol => rwa [happly, own_eq_self (.inl (isBranch_rebuilt _ _ _))]
    | _ => cases h
  · right
    rw [happly]
    exact showsCarrier_wrapper _ _ _

section

variable {f : Formula} (hf : f.Canonical) (h : f.Regroups c new)

include hf h

theorem wordedAt_own (hnames : ∀ name ∈ s.names, Verbatim name)
    (hx : x ∈ c.children.flatMap Node.outer) :
    (s.own selected ((s.maker c selected).rebuilt fresh x)).bareBase.WordedAt := by
  by_cases hsel : x.selectedIn new
  · obtain ⟨id, body, rfl⟩ := h.eq_group (Formula.mem_nodes_of_outer hx) hsel
    rw [own_eq_self (.inr (Maker.kind_rebuilt _ _ _))]
    exact ⟨fun _ => rfl, List.forall_mem_nil _, fun hk => by cases hk⟩
  have hcanonical := hf _ (h.splice_mem_outer hx hsel)
  have hshape : ((s.maker c selected).rebuilt fresh x).shape = (x.splice new).shape := by
    rw [Maker.rebuilt, Node.shape_mapChildren, Node.shape_splice]
  have hkind : (s.own selected ((s.maker c selected).rebuilt fresh x)).bareBase.kind = x.kind := by
    rw [Node.kind_bareBase, kind_own, Maker.kind_rebuilt]
  refine ⟨fun hk => spelledAt_own (Node.spelledAt_bareBase_of_shape hshape hcanonical.spelled ?_), ?_, ?_⟩
  · rwa [Maker.kind_rebuilt, ← hkind]
  · intro name hname
    rw [Node.names_bareBase] at hname
    rcases mem_names_own hname with hname | hname
    · exact hnames name hname
    · rw [Node.names_eq_of_shape hshape] at hname
      exact hcanonical.names name hname
  · intro hk
    rw [hkind] at hk
    cases x with
    | text id body =>
      have hletters : ∀ ch ∈ body, ch.isLetter := by
        have hspelled := hcanonical.spelled
        rw [Node.splice_of_not_sequence (by simp [Node.sequence?])] at hspelled
        have hall : (body.map (Node.splice new)).all Node.isLetter := hspelled
        rw [List.all_map] at hall
        intro ch hch
        rw [← Node.isLetter_eq_of_shape (ch.shape_splice new)]
        exact List.all_eq_true.mp hall ch hch
      rw [own_eq_self (.inl (isBranch_rebuilt _ _ _))]
      intro d hd
      obtain ⟨ch, hch, rfl⟩ := List.mem_map.mp (show d ∈ body.map _ from hd)
      exact isLetter_or_showsCarrier (hletters ch hch)
    | _ => cases hk

end

theorem goesOn_own_leaf (hbranch : x.isBranch = false) (hgo : stop.holds (x.splice new).ast = false) :
    stop.holds (s.own selected ((s.maker c selected).rebuilt fresh x)).ast = false := by
  have hsequence : ¬ x.sequence?.isSome := by
    cases x <;> first | (simp [Node.sequence?]; done) | cases hbranch
  have hown : s.own selected ((s.maker c selected).rebuilt fresh x) = (s.maker c selected).rebuilt fresh x :=
    own_eq_self (.inl ((isBranch_rebuilt _ _ _).trans hbranch))
  rw [Node.splice_of_not_sequence hsequence] at hgo
  rw [hown]
  cases x with
  | text id body =>
    change stop.holds (Node.text id (body.map ((s.maker c selected).applyAll fresh))).ast = false
    rw [Node.ast_text]
    cases stop <;> rfl
  | symbol | space | op | newLine | alignMark | var => exact hgo
  | _ => cases hbranch

theorem goesOn_own_branch (hbranch : x.isBranch) (hscript : x.kind ≠ .script)
    (hw : (s.own selected ((s.maker c selected).rebuilt fresh x)).Writable) :
    stop.holds (s.own selected ((s.maker c selected).rebuilt fresh x)).ast = false := by
  have hkind : (s.own selected ((s.maker c selected).rebuilt fresh x)).kind = x.kind := by
    rw [kind_own, Maker.kind_rebuilt]
  have hscript' : (s.own selected ((s.maker c selected).rebuilt fresh x)).kind ≠ .script := by
    rwa [hkind]
  have hbranch' : (s.own selected ((s.maker c selected).rebuilt fresh x)).isBranch :=
    (Node.isBranch_eq_of_kind hkind).trans hbranch
  have htext := Node.kind_ne_text_of_isBranch hbranch
  have hspelled := hw.self.spelled (by rwa [Node.kind_bareBase, hkind])
  rw [Node.bareBase_of_kind_ne hscript'] at hspelled
  exact Node.goesOn_of_branch hspelled hbranch' hscript' stop

theorem goesOn_own_script {id : String} {base : Node} {sub sup : Option Node}
    (hx : ((Node.script id base sub sup).splice new).Spelled [])
    (hw : (s.own selected ((s.maker c selected).rebuilt fresh (.script id base sub sup))).Writable)
    (hgo : stop.holds ((Node.script id base sub sup).splice new).ast = false)
    (hbase : (base.splice new).Spelled [] → ((s.maker c selected).applyAll fresh base).Writable →
      stop.holds (base.splice new).ast = false →
        stop.holds ((s.maker c selected).applyAll fresh base).ast = false) :
    stop.holds (s.own selected ((s.maker c selected).rebuilt fresh (.script id base sub sup))).ast =
      false := by
  rw [Node.splice_of_not_sequence (by simp [Node.sequence?]), Node.mapChildren_script] at hx hgo
  obtain ⟨sub', sup', hown⟩ := s.own_script selected id ((s.maker c selected).applyAll fresh base)
    (sub.map ((s.maker c selected).applyAll fresh)) (sup.map ((s.maker c selected).applyAll fresh))
  rw [rebuilt_script, hown] at hw ⊢
  have hspelled := hx.child (c := base.splice new) (by simp [Node.kind]) (by simp [Node.children])
  have hwritable := hw.child (c := (s.maker c selected).applyAll fresh base) (by simp [Node.kind])
    (by simp [Node.children])
  rw [Stop.holds_script (Node.opening_ast hspelled.outlined)] at hgo
  rw [Stop.holds_script hwritable.opening]
  refine goesOn_braced fun hkind => ?_
  rcases s.applyAll_cases c selected fresh base with happly | ⟨-, happly⟩
  · rw [happly, kind_own, Maker.kind_rebuilt] at hkind
    rw [Node.braced, if_neg (by rwa [Node.kind_splice])] at hgo
    exact hbase hspelled hwritable hgo
  · rw [happly]
    exact goesOn_wrapper _ _ _ _

/-- A run goes on in front of what a command makes of a tree if it does so in front of the tree. -/
theorem goesOn_applyAll (hx : (x.splice new).Spelled [])
    (hw : ((s.maker c selected).applyAll fresh x).Writable)
    (hgo : stop.holds (x.splice new).ast = false) :
    stop.holds ((s.maker c selected).applyAll fresh x).ast = false := by
  induction x using Node.childrenInduction with
  | step x ih =>
    rcases s.applyAll_cases c selected fresh x with happly | ⟨-, happly⟩
    swap
    · rw [happly]
      exact goesOn_wrapper _ _ _ _
    rw [happly] at hw ⊢
    by_cases hscript : x.kind = .script
    · cases x with
      | script id base sub sup => exact goesOn_own_script hx hw hgo (ih base (by simp [Node.children]))
      | _ => cases hscript
    cases hbranch : x.isBranch with
    | true => exact goesOn_own_branch hbranch hscript hw
    | false => exact goesOn_own_leaf hbranch hgo

theorem goesOn_group (h : b.kind = .group) (stop : Stop) : stop.holds b.ast = false := by
  cases b with
  | group id body => exact Node.goesOn_of_branch rfl rfl (by simp [Node.kind]) stop
  | _ => cases h

theorem goesOn_applyAll_group (h : x.kind = .group) :
    stop.holds ((s.maker c selected).applyAll fresh x).ast = false := by
  rcases s.applyAll_cases c selected fresh x with happly | ⟨-, happly⟩
  · rw [happly]
    exact goesOn_group (by rwa [kind_own, Maker.kind_rebuilt]) stop
  · rw [happly]
    exact goesOn_wrapper _ _ _ _

section

variable {f : Formula} (h : f.Regroups c new) (hnew : ∀ id ∈ new, id ∈ selected)

include h hnew

/-- A new group is a target, so inside of another group it is put in a carrier. -/
theorem kind_applyAll_ne {id : String} {body : List Node} (hx : .group id body ∈ c.nodes) (hm : m ∈ body)
    (hsel : m.selectedIn new) : ((s.maker c selected).applyAll fresh m).kind ≠ .group := by
  obtain ⟨i, hi, hid⟩ := Node.selectedIn_iff.mp hsel
  obtain ⟨i', body', rfl⟩ := h.eq_group (Formula.mem_nodes_of_child hx hm) hsel
  have hparent : c.parentIs s.kind (.group i' body') = false := by
    rw [Formula.parentIs, hid, Option.bind_some, Formula.parent?_of_child hx hm hid]
    cases s <;> rfl
  have hwraps : s.wraps c selected (.group i' body') := by
    rw [wraps, hparent, Node.selectedIn_iff.mpr ⟨i, hnew i hi, hid⟩]
    rfl
  have hfinds : s.finds selected ((s.maker c selected).rebuilt fresh (.group i' body')) = false := by
    cases s <;> rfl
  rw [Maker.applyAll_eq]
  change (s.make c selected _ _).kind ≠ .group
  rw [make, hfinds, wraps_rebuilt, hwraps]
  exact kind_wrapper_ne _ _ _

/-- Outside of new groups no command makes a group around a single one of a node that was none. -/
theorem isNestedGroup_applyAll (hx : x ∈ c.nodes) (hsingle : (x.splice new).isSingleGroup = false) :
    ((s.maker c selected).applyAll fresh x).isNestedGroup = false := by
  rcases s.applyAll_cases c selected fresh x with happly | ⟨-, happly⟩
  swap
  · rw [happly]
    exact Node.isNestedGroup_of_kind_ne (kind_wrapper_ne _ _ _)
  rw [happly]
  rcases x.eq_group_or_kind_ne with ⟨id, body, rfl⟩ | hk
  swap
  · exact Node.isNestedGroup_of_kind_ne (by rwa [kind_own, Maker.kind_rebuilt])
  rw [own_eq_self (.inr (Maker.kind_rebuilt _ _ _))]
  change (Node.group id (body.map ((s.maker c selected).applyAll fresh))).isNestedGroup = false
  rcases body with _ | ⟨b, _ | ⟨d, body⟩⟩
  · rfl
  · have hsel : b.selectedIn new := by
      by_contra hsel
      rw [Node.splice_group, spliceAll, List.flatMap_singleton,
        Node.dissolve_of_not_selectedIn (by rwa [Node.selectedIn_splice])] at hsingle
      cases hsingle
    simpa [Node.isNestedGroup] using kind_applyAll_ne h hnew hx List.mem_cons_self hsel
  · rfl

/-- A slot whose contents went on before the runs were grouped has stable contents after the command. -/
theorem stable_applyAll (hx : x ∈ c.nodes) (hspelled : (x.splice new).Spelled [])
    (hfits : (x.splice new).Fits stop) (hw : ((s.maker c selected).applyAll fresh x).Writable) :
    Stable stop (contents stop ((s.maker c selected).applyAll fresh x)) := by
  refine ⟨fun m hm => ?_, Node.contents_collapse_contents stop (isNestedGroup_applyAll h hnew hx hfits.1)⟩
  rcases s.applyAll_cases c selected fresh x with happly | ⟨-, happly⟩
  swap
  · rw [happly, contents_eq_singleton (kind_wrapper_ne _ _ _)] at hm
    rw [List.mem_singleton.mp hm]
    exact goesOn_wrapper _ _ _ _
  rcases x.eq_group_or_kind_ne with ⟨id, body, rfl⟩ | hk
  · rw [own_eq_self (.inr (Maker.kind_rebuilt _ _ _))] at happly
    change _ = Node.group id (body.map ((s.maker c selected).applyAll fresh)) at happly
    rw [happly] at hm hw
    rw [Node.splice_group] at hfits hspelled
    rcases Node.mem_contents hm with rfl | ⟨-, hm⟩
    · exact goesOn_group rfl stop
    obtain ⟨b, hb, rfl⟩ := List.mem_map.mp hm
    by_cases hsel : b.selectedIn new
    · obtain ⟨i, body', rfl⟩ := h.eq_group (Formula.mem_nodes_of_child hx hb) hsel
      exact goesOn_applyAll_group rfl
    · have hspliced : b.splice new ∈ spliceAll new body := by
        refine List.mem_flatMap.mpr ⟨b, hb, ?_⟩
        rw [Node.dissolve_of_not_selectedIn (by rwa [Node.selectedIn_splice])]
        exact List.mem_singleton_self _
      have hb' : (b.splice new).Spelled [] := hspelled.child (by simp [Node.kind]) hspliced
      have hbw := hw.child (by simp [Node.kind]) hm
      exact goesOn_applyAll hb' hbw (hfits.2 _ (Node.mem_contents_group hspliced))
  · have hk' : ((s.maker c selected).applyAll fresh x).kind ≠ .group := by
      rwa [happly, kind_own, Maker.kind_rebuilt]
    rw [contents_eq_singleton hk'] at hm
    rw [List.mem_singleton.mp hm]
    refine goesOn_applyAll hspelled hw (hfits.2 _ ?_)
    rw [contents_eq_singleton (by rwa [Node.kind_splice])]
    exact List.mem_singleton_self _

/-- Nodes that are kept have slots that are read as they are written. -/
theorem slots_own (hf : f.Canonical) (hx : x ∈ c.children.flatMap Node.outer)
    (hw : (s.own selected ((s.maker c selected).rebuilt fresh x)).Writable) :
    ∀ stop a, (stop, a) ∈ (s.own selected ((s.maker c selected).rebuilt fresh x)).arguments →
      Stable stop (contents stop a) := by
  intro stop a ha
  have htext := Node.kind_ne_text_of_isBranch (Node.isBranch_of_arguments ha)
  have hwa : a.Writable := hw.child htext (Node.mem_children_of_arguments ha)
  have ha := mem_arguments_own ha
  rw [Maker.rebuilt, Node.arguments_mapChildren] at ha
  obtain ⟨⟨stop', ch⟩, hch, he⟩ := List.mem_map.mp ha
  obtain ⟨rfl, rfl⟩ := Prod.mk.inj he
  obtain ⟨hspelled, hfits⟩ := h.fits_splice hf hx hch
  have hchild : ch ∈ c.nodes :=
    Formula.mem_nodes_of_child (Formula.mem_nodes_of_outer hx) (Node.mem_children_of_arguments hch)
  exact stable_applyAll h hnew hchild hspelled hfits hwa

end

end Styling

namespace Formula

variable {f c r : Formula} {s : Styling} {selected new : List String} {fresh : Supply}

/-- A node of what a command makes of a formula is one that it keeps, a new carrier, or a caption or the
script around one. -/
theorem Made.mem_outer {m : Node} (h : Made (s.maker c selected) c fresh r)
    (hm : m ∈ r.children.flatMap Node.outer) :
    (∃ y ∈ c.children.flatMap Node.outer, m = s.own selected ((s.maker c selected).rebuilt fresh y)) ∨
      (∃ id b, m = s.carrier id b) ∨ m.bareBase.WordedAt ∧ m.Steady := by
  rw [h.children_eq, List.flatMap_map] at hm
  obtain ⟨x, hx, hm⟩ := List.mem_flatMap.mp hm
  refine (Styling.mem_outer_applyAll hm).imp_left ?_
  rintro ⟨y, hy, rfl⟩
  exact ⟨y, List.mem_flatMap.mpr ⟨x, hx, hy⟩, rfl⟩

/-- The plain markup of a formula with styled nodes is parsed again and written the same way just when each
text, and each carrier of the kind that the command puts around its targets, gives back what it holds. The
formula is parsed from its own markup. -/
theorem parse_latex_ast_apply {text : String} (hf : parse [] text = .ok f)
    (hagain : parse [] (f.latex .ast) = .ok f)
    (hnames : ∀ name ∈ s.names, ∀ c ∈ name.toList, c.isAlpha) (runs : List (List String)) (m : Minter) :
    (s.apply f runs).Ensures (m.pool f.ids) m fun e _ =>
      ((∃ g, parse [] (e.formula.latex .ast) = .ok g ∧ g.equivalent e.formula) ↔
        ∀ w ∈ e.formula.children.flatMap Node.outer, w.kind = .text ∨ w.kind = s.kind → w.encloses) := by
  obtain ⟨hcanonical, -⟩ := canonical_of_parse_latex hf hagain
  have hverbatim : ∀ name ∈ s.names, Verbatim name := fun name hname =>
    verbatim_of_isAlpha (hnames name hname)
  refine (s.ensures_apply f runs m).mono fun e _ h => ?_
  obtain ⟨c, targets, m', fresh, hrun, hgroups, hmade⟩ := h
  obtain ⟨new, -, hregroups⟩ := hgroups.regroups
  -- the new groups are targets
  have hnew : ∀ i ∈ new, i ∈ targets.filterMap id := by
    intro i hi
    have hmem : i ∈ c.formula.ids := hregroups.ids.mem_iff.mpr (List.mem_append_left _ hi)
    rcases hgroups.targets i hmem with hold | htarget
    · exact absurd hold (hregroups.not_mem_ids hi)
    · exact List.mem_filterMap.mpr ⟨some i, htarget, rfl⟩
  have hwritable : ∀ n ∈ e.formula.children.flatMap Node.outer, n.Writable := by
    intro n hn k hk
    rcases hmade.mem_outer (Node.mem_flatMap_outer_trans hn hk) with
      ⟨y, hy, rfl⟩ | ⟨id, b, rfl⟩ | ⟨hworded, -⟩
    · exact Styling.wordedAt_own hcanonical hregroups hverbatim hy
    · exact Styling.wordedAt_carrier hverbatim id b
    · exact hworded
  have htop : ∀ n ∈ e.formula.children, n.Writable := fun n hn =>
    hwritable n (List.mem_flatMap.mpr ⟨n, hn, n.self_mem_outer⟩)
  have hiff : ∀ w ∈ e.formula.children.flatMap Node.outer, w.kind = .text ∨ w.kind = s.kind →
      (w.Steady ↔ w.encloses) := by
    intro w hw hkind
    refine Node.steady_iff_encloses (hwritable w hw) ?_
    rcases hkind with hkind | hkind
    · simp [hkind]
    · rw [hkind]
      cases s <;> simp [Styling.kind]
  constructor
  · rintro ⟨g, hg, he⟩ w hw hkind
    have harray : w.kind ≠ .array := by
      rintro harray
      rw [harray] at hkind
      cases s <;> rcases hkind with hkind | hkind <;> cases hkind
    exact (hiff w hw hkind).mp (steady_of_parse_latex htop hg he w hw harray)
  · intro hencloses
    have hsteady : ∀ w ∈ e.formula.children.flatMap Node.outer, w.kind = .text ∨ w.kind = s.kind →
        w.Steady := fun w hw hkind => (hiff w hw hkind).mpr (hencloses w hw hkind)
    refine parse_latex_of_steady htop fun n hn => ?_
    rcases hmade.mem_outer hn with ⟨y, hy, rfl⟩ | ⟨id, b, rfl⟩ | ⟨-, hcaption⟩
    · exact ⟨fun hk => (hsteady _ hn (.inl hk)).letters hk,
        Styling.slots_own hregroups hnew hcanonical hy (hwritable _ hn)⟩
    · exact hsteady _ hn (.inr (s.kind_carrier id b))
    · exact hcaption

/-- A fraction in a box is read back. -/
theorem parse_latex_ast_apply_of_fraction : ∃ (f : Formula) (e : Edited),
    parse [] "\\frac\x7ba\x7d\x7bb\x7d" = .ok f ∧ parse [] (f.latex .ast) = .ok f ∧
    (((Styling.box "red" "white").apply f [["0"]]).run ⟨[], .counting "n" 1⟩).1 = .ok e ∧
    ∃ g, parse [] (e.formula.latex .ast) = .ok g ∧ g.equivalent e.formula := by
  obtain ⟨f, hf, hagain, hrun⟩ := exists_ok_of_any (p := fun f : Formula =>
      (parse [] (f.latex .ast)).toOption = some f ∧
        (((Styling.box "red" "white").apply f [["0"]]).run ⟨[], .counting "n" 1⟩).1.toOption.any fun e =>
          ∀ n ∈ e.formula.children.flatMap Node.outer, n.encloses)
    (show (parse [] "\\frac\x7ba\x7d\x7bb\x7d").toOption.any _ by decide +kernel)
  obtain ⟨e, he, hnodes⟩ := exists_ok_of_any hrun
  have hnames : ∀ name ∈ (Styling.box "red" "white").names, ∀ c ∈ name.toList, c.isAlpha := by
    intro name hname
    rcases List.mem_pair.mp hname with rfl | rfl <;> exact List.all_eq_true.mp (by decide)
  have hiff := (parse_latex_ast_apply hf (ok_of_toOption hagain) hnames [["0"]]
    ⟨[], .counting "n" 1⟩).of_run he
  exact ⟨f, e, hf, ok_of_toOption hagain, he, hiff.mpr fun w hw _ => hnodes w hw⟩

/-- A dollar sign in a box ends the box. -/
theorem parse_latex_ast_boxed_dollar : ∃ (f : Formula) (e : Edited),
    parse [] "$" = .ok f ∧ parse [] (f.latex .ast) = .ok f ∧
    (((Styling.box "red" "white").apply f [["0"]]).run ⟨[], .counting "n" 1⟩).1 = .ok e ∧
    e.formula.latex .ast = "\\fcolorbox\x7bred\x7d\x7bwhite\x7d\x7b$$$\x7d" ∧
    ∀ g, parse [] (e.formula.latex .ast) ≠ .ok g := by
  obtain ⟨f, hf, hagain, hrun⟩ := exists_ok_of_any (p := fun f : Formula =>
      (parse [] (f.latex .ast)).toOption = some f ∧
        (((Styling.box "red" "white").apply f [["0"]]).run ⟨[], .counting "n" 1⟩).1.toOption.any fun e =>
          e.formula.latex .ast = "\\fcolorbox\x7bred\x7d\x7bwhite\x7d\x7b$$$\x7d")
    (show (parse [] "$").toOption.any _ by decide +kernel)
  obtain ⟨e, he, hlatex⟩ := exists_ok_of_any hrun
  refine ⟨f, e, hf, ok_of_toOption hagain, he, hlatex, fun g hg => ?_⟩
  have hrefused : (parse [] "\\fcolorbox\x7bred\x7d\x7bwhite\x7d\x7b$$$\x7d").toOption.isSome = false := by
    decide +kernel
  rw [← hlatex, hg] at hrefused
  cases hrefused

end Formula

end FormulaDoc
