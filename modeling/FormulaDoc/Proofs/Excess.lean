import FormulaDoc.Proofs.Consumption
import FormulaDoc.Proofs.Image
import FormulaDoc.Proofs.ReadBack

namespace FormulaDoc

/-- A text that leaves one brace open for every fault in it; without faults `Q` holds. -/
def Counted (s : List Char) (Q : Prop) : Prop :=
  ∃ d : Nat, (∀ w, braceExcess (s ++ w) = braceExcess w + d) ∧ (d = 0 → Q)

section

variable {s t : List Char} {Q R : Prop}

theorem Balanced.counted (h : Balanced s) : Counted s True := by
  refine ⟨0, ?_, fun _ => trivial⟩
  intro w
  rw [h.braceExcess_append]
  simp

theorem Counted.mono (hs : Counted s Q) (hQ : Q → R) : Counted s R := by
  obtain ⟨d, hd, h⟩ := hs
  exact ⟨d, hd, fun h0 => hQ (h h0)⟩

theorem Counted.append (hs : Counted s Q) (ht : Counted t R) : Counted (s ++ t) (Q ∧ R) := by
  obtain ⟨d, hd, hQ⟩ := hs
  obtain ⟨e, he, hR⟩ := ht
  refine ⟨d + e, ?_, ?_⟩
  · intro w
    rw [List.append_assoc, hd, he]
    omega
  · intro h
    exact ⟨hQ (by omega), hR (by omega)⟩

theorem Counted.word (hs : Balanced s) (ht : Counted t R) : Counted (s ++ t) R :=
  (hs.counted.append ht).mono And.right

theorem Counted.slot (hs : Counted s Q) (ht : Counted t R) : Counted ('{' :: (s ++ '}' :: t)) (Q ∧ R) := by
  obtain ⟨d, hd, hQ⟩ := hs
  obtain ⟨e, he, hR⟩ := ht
  refine ⟨d + e, ?_, ?_⟩
  · intro w
    rw [List.cons_append, List.append_assoc, List.cons_append, braceExcess, hd, braceExcess, he]
    omega
  · intro h
    exact ⟨hQ (by omega), hR (by omega)⟩

end

theorem counted_name {c : String} {t : List Char} {R : Prop} (hc : Trimmed c) (ht : Counted t R) :
    Counted ('{' :: (c.toList ++ '}' :: t)) (Balanced c.toList ∧ R) := by
  obtain ⟨raw, hraw, rfl⟩ := hc
  rw [String.toList_ofList]
  rcases hraw.trim with h | h
  · exact (h.counted.slot ht).mono fun hR => ⟨h, hR.2⟩
  · obtain ⟨e, he, -⟩ := ht
    refine ⟨e + 1, fun w => ?_, by simp⟩
    rw [List.cons_append, List.append_assoc, List.cons_append, braceExcess, h.braceExcess_close, he]
    omega

theorem balanced_of_isCommandName {s : List Char} (h : isCommandName s) : Balanced s := by
  have hread := command?_of_isCommandName h
  exact (command?_eq_append hread).1

theorem balanced_singleton {c : Char} (h : c ∉ ['\\', '{', '}']) : Balanced [c] := by
  simp only [List.mem_cons, List.not_mem_nil, or_false, not_or] at h
  exact .plain h.1 h.2.1 h.2.2 .nil

/-- The names in a tree leave no brace open. -/
def Node.NamesBalanced (n : Node) : Prop :=
  ∀ m ∈ n.outer, ∀ c ∈ m.names, Balanced c.toList

theorem Node.NamesBalanced.mk {n : Node} (h : ∀ c ∈ n.names, Balanced c.toList)
    (hc : n.kind ≠ .text → ∀ c ∈ n.children, c.NamesBalanced) : n.NamesBalanced :=
  forall_outer h hc

theorem namesBalanced_of_contents {stop : Stop} {s : Node}
    (h : ∀ m ∈ contents stop s, m.NamesBalanced) : s.NamesBalanced := by
  rcases s.eq_group_or_kind_ne with ⟨id, body, rfl⟩ | hk
  · refine .mk (by simp [Node.names]) fun _ c hc => ?_
    cases body with
    | nil => simp [Node.children] at hc
    | cons n ns => exact h c hc
  · rw [contents_eq_singleton hk] at h
    exact h s (by simp)

/-- A tree whose markup counts its names. -/
def Node.NamesCounted (n : Node) : Prop :=
  Counted n.ast n.NamesBalanced

theorem counted_following {ns : List Node} (h : ∀ n ∈ ns, n.NamesCounted) :
    Counted (following ns) (∀ n ∈ ns, n.NamesBalanced) := by
  induction ns with
  | nil => exact Balanced.nil.counted.mono (by simp)
  | cons n ns ih =>
    have hspace : Balanced [' '] := balanced_singleton (by decide)
    have hn := h n List.mem_cons_self
    have hns := ih fun m hm => h m (List.mem_cons_of_mem _ hm)
    exact (hspace.counted.append hn |>.append hns).mono fun hall =>
      List.forall_mem_cons.mpr ⟨hall.1.2, hall.2⟩

theorem counted_joined {ns : List Node} (h : ∀ n ∈ ns, n.NamesCounted) :
    Counted (joined ns) (∀ n ∈ ns, n.NamesBalanced) := by
  cases ns with
  | nil => exact Balanced.nil.counted.mono (by simp)
  | cons n ns =>
    have hn := h n List.mem_cons_self
    have hns := counted_following fun m hm => h m (List.mem_cons_of_mem _ hm)
    exact (Counted.append hn hns).mono fun hall => List.forall_mem_cons.mpr hall

namespace Node

/-- A node that counts its names wherever it is written, in a slot or not. -/
def SlotCounted (s : Node) : Prop :=
  s.NamesCounted ∧ ∀ stop, ∀ m ∈ contents stop s, m.NamesCounted

section

variable {id : String} {s body : Node}

theorem SlotCounted.joined (h : s.SlotCounted) (stop : Stop) :
    Counted (joined (contents stop s)) s.NamesBalanced := by
  have hcontents := counted_joined (h.2 stop)
  exact hcontents.mono namesBalanced_of_contents

/-- A command in front of one argument. -/
theorem SlotCounted.argument (h : s.SlotCounted) {name : List Char} (hname : isCommandName name) :
    Counted (name ++ '{' :: (FormulaDoc.joined (contents .brace s) ++ ['}'])) s.NamesBalanced := by
  have hslot := (h.joined .brace).slot Balanced.nil.counted
  have hcommand := Counted.word (balanced_of_isCommandName hname) hslot
  exact hcommand.mono And.left

theorem namesCounted_leaf {n : Node} (h : Balanced n.ast) (hnames : n.names = [])
    (hchildren : n.kind ≠ .text → n.children = []) : n.NamesCounted := by
  refine h.counted.mono fun _ => .mk (by simp [hnames]) fun hk c hc => ?_
  rw [hchildren hk] at hc
  cases hc

theorem namesCounted_newLine : newLine.NamesCounted := by
  refine namesCounted_leaf ?_ rfl fun _ => rfl
  rw [ast_newLine]
  exact .escaped '\\' .nil

theorem namesCounted_alignMark : alignMark.NamesCounted := by
  refine namesCounted_leaf ?_ rfl fun _ => rfl
  rw [ast_alignMark]
  exact balanced_singleton (by decide)

theorem namesCounted_symbol {value : String} (h : (symbol id value).spelledAt []) :
    (symbol id value).NamesCounted := by
  refine namesCounted_leaf ?_ rfl fun _ => rfl
  rw [ast_symbol]
  rcases isLeafName_cases h with ⟨c, rfl, -, hc⟩ | ⟨hcommand, -⟩
  · simp only [List.mem_cons, List.not_mem_nil, or_false, not_or] at hc
    rw [String.toList_singleton]
    exact balanced_singleton (by simp [hc])
  · exact (command?_eq_append hcommand).1

theorem namesCounted_space {name : String} (h : (space id name).spelledAt []) :
    (space id name).NamesCounted := by
  have hs : name ∈ spacingCommands := by simpa [spelledAt] using h
  refine namesCounted_leaf ?_ rfl fun _ => rfl
  rw [ast_space]
  exact (command?_eq_append (command?_spacing name hs)).1

theorem namesCounted_op {operator : String} {limits : Bool} (h : (op id operator limits).spelledAt []) :
    (op id operator limits).NamesCounted := by
  have hs : operator ∈ bigOperators := by simpa [spelledAt] using h
  have hname := (command?_eq_append (command?_operator operator hs)).1
  have hlimits : Balanced (if limits then "\\limits" else "").toList := by
    cases limits
    · exact .nil
    · exact balanced_of_isCommandName (s := "\\limits".toList) (by decide)
  refine namesCounted_leaf ?_ rfl fun _ => rfl
  rw [ast_op]
  exact hname.append hlimits

theorem namesCounted_text {body : List Node} (h : (text id body).spelledAt []) :
    (text id body).NamesCounted := by
  obtain ⟨cs, hcs, -⟩ := text_letters h
  have hname := balanced_of_isCommandName (s := "\\text".toList) (by decide)
  have hbody : Balanced ('{' :: (escape cs ++ '}' :: [])) := .group (balanced_escape cs) .nil
  refine namesCounted_leaf ?_ rfl fun hk => absurd rfl hk
  rw [ast_text, hcs]
  exact hname.append hbody

theorem namesCounted_group {body : List Node} (h : ∀ n ∈ body, n.NamesCounted) :
    (group id body).NamesCounted := by
  have hbody := (counted_joined h).slot Balanced.nil.counted
  rw [NamesCounted, ast_group]
  refine hbody.mono fun hall => ?_
  exact .mk (by simp [names]) fun _ => hall.1

theorem namesCounted_frac {numerator denominator : Node} (hnum : numerator.SlotCounted)
    (hden : denominator.SlotCounted) : (frac id numerator denominator).NamesCounted := by
  have hname := balanced_of_isCommandName (s := "\\frac".toList) (by decide)
  have hslots := (hnum.joined .brace).slot ((hden.joined .brace).slot Balanced.nil.counted)
  rw [NamesCounted, ast_frac]
  refine (Counted.word hname hslots).mono fun hall => .mk (by simp [names]) fun _ => ?_
  simpa [children] using ⟨hall.1, hall.2.1⟩

theorem counted_scriptMarkup {mark : Char} (hmark : mark ∉ ['\\', '{', '}']) {script : Option Node}
    (h : ∀ s ∈ script, s.SlotCounted) :
    Counted (scriptMarkup mark script) (∀ s ∈ script, s.NamesBalanced) := by
  cases script with
  | none => exact Balanced.nil.counted.mono (by simp)
  | some s =>
    have hslot := ((h s rfl).joined .brace).slot Balanced.nil.counted
    have hmarked := Counted.word (balanced_singleton hmark) hslot
    refine hmarked.mono ?_
    rintro ⟨hs, -⟩ s' hs'
    cases hs'
    exact hs

theorem counted_braced (h : s.NamesCounted) : Counted s.braced.ast s.NamesBalanced := by
  unfold braced
  split
  next =>
    rw [ast_group, FormulaDoc.joined, following, List.flatMap_nil, List.append_nil]
    exact (h.slot Balanced.nil.counted).mono And.left
  next => exact h

theorem namesCounted_script {base : Node} {sub sup : Option Node} (hbase : base.NamesCounted)
    (hsub : ∀ s ∈ sub, s.SlotCounted) (hsup : ∀ s ∈ sup, s.SlotCounted) :
    (script id base sub sup).NamesCounted := by
  have hsub := @counted_scriptMarkup '_' (by decide) _ hsub
  have hsup := @counted_scriptMarkup '^' (by decide) _ hsup
  have hall := ((counted_braced hbase).append hsub).append hsup
  rw [NamesCounted, ast_script]
  refine hall.mono ?_
  rintro ⟨⟨hb, hs⟩, hp⟩
  refine .mk (by simp [names]) ?_
  intro _ c hc
  simp only [children, List.mem_cons, List.mem_append, Option.mem_toList] at hc
  rcases hc with rfl | hc | hc
  · exact hb
  · exact hs c hc
  · exact hp c hc

theorem namesCounted_root {index : Option Node} (hbody : body.SlotCounted)
    (hindex : ∀ s ∈ index, s.SlotCounted) : (root id body index).NamesCounted := by
  rw [NamesCounted]
  cases index with
  | none =>
    rw [ast_root_none]
    refine (hbody.argument (by decide)).mono fun hall => ?_
    exact .mk (by simp [names]) fun _ => by simpa [children] using hall
  | some s =>
    have hname := balanced_of_isCommandName (s := "\\sqrt".toList) (by decide)
    have hopen : Balanced ['['] := balanced_singleton (by decide)
    have hclose : Balanced [']'] := balanced_singleton (by decide)
    have hslot := (hbody.joined .brace).slot Balanced.nil.counted
    have hindex := (hindex s rfl).joined .bracket
    have hrest := hindex.append (Counted.word hclose hslot)
    have hcommand := Counted.word hname (Counted.word hopen hrest)
    rw [ast_root_some]
    refine hcommand.mono fun hall => .mk (by simp [names]) ?_
    intro _
    simpa [children] using ⟨hall.2.1, hall.1⟩

theorem namesCounted_brace (above : Bool) (h : body.SlotCounted) :
    (brace id above body).NamesCounted := by
  have hnames : body.NamesBalanced → (brace id above body).NamesBalanced := fun hbody =>
    .mk (by simp [names]) fun _ => by simpa [children] using hbody
  rw [NamesCounted, ast_brace]
  cases above with
  | false => exact (h.argument (by decide)).mono hnames
  | true => exact (h.argument (by decide)).mono hnames

theorem namesCounted_strike (h : body.SlotCounted) : (strike id body).NamesCounted := by
  rw [NamesCounted, ast_strike]
  refine (h.argument (by decide)).mono fun hbody => .mk (by simp [names]) fun _ => ?_
  simpa [children] using hbody

theorem namesCounted_color {c : String} {body : List Node} (hc : Trimmed c)
    (h : ∀ n ∈ body, n.NamesCounted) : (color id c body).NamesCounted := by
  have hname := balanced_of_isCommandName (s := "\\textcolor".toList) (by decide)
  have hbody := (counted_joined h).slot Balanced.nil.counted
  have hcommand := Counted.word hname (counted_name hc hbody)
  rw [NamesCounted, ast_color]
  refine hcommand.mono fun hall => ?_
  exact .mk (by simpa [names] using hall.1) fun _ => hall.2.1

theorem namesCounted_box {border background : String} (hborder : Trimmed border)
    (hback : Trimmed background) (h : body.SlotCounted) :
    (box id border body background).NamesCounted := by
  have hname := balanced_of_isCommandName (s := "\\fcolorbox".toList) (by decide)
  have hdollar : Balanced ['$'] := balanced_singleton (by decide)
  have hbody := (h.joined .dollar).append hdollar.counted
  have hinner := (Counted.word hdollar hbody).slot Balanced.nil.counted
  simp only [List.append_assoc] at hinner
  have hcolors := counted_name hborder (counted_name hback hinner)
  have hcommand := Counted.word hname hcolors
  rw [NamesCounted, ast_box]
  refine hcommand.mono ?_
  rintro ⟨hfirst, hsecond, ⟨hslot, -⟩, -⟩
  refine .mk (by simpa [names] using ⟨hfirst, hsecond⟩) fun _ => ?_
  simpa [children] using hslot

/-- An environment with its name after its begin and end commands. -/
theorem counted_environment {name s : List Char} {Q : Prop} (hname : Balanced name)
    (h : Counted s Q) : Counted ("\\begin".toList ++ '{' :: (name ++ '}' ::
      (s ++ ("\\end".toList ++ '{' :: (name ++ ['}']))))) Q := by
  have hbegin := balanced_of_isCommandName (s := "\\begin".toList) (by decide)
  have hend := balanced_of_isCommandName (s := "\\end".toList) (by decide)
  have hclose := Counted.word hend (hname.counted.slot Balanced.nil.counted)
  have hopen := Counted.word hbegin (hname.counted.slot (h.append hclose))
  exact hopen.mono fun hall => hall.2.1

theorem namesCounted_aligned {cells : List Node} (h : ∀ n ∈ cells, n.NamesCounted) :
    (aligned id cells).NamesCounted := by
  have hcells := counted_environment verbatim_aligned.balanced (counted_joined h)
  rw [NamesCounted, ast_aligned]
  refine hcells.mono fun hall => ?_
  exact .mk (by simp [names]) fun _ => hall

theorem namesCounted_array {rows : List (List Node)} {align : String} (hrows : ∀ row ∈ rows, row ≠ [])
    (halign : Trimmed align) (h : ∀ s ∈ rows.flatten, s.SlotCounted) :
    (array id rows (some align)).NamesCounted := by
  have hmembers : ∀ c ∈ stream rows, c.NamesCounted := by
    intro c hc
    rcases mem_stream hc with rfl | rfl | ⟨s, hs, hmem⟩
    · exact namesCounted_newLine
    · exact namesCounted_alignMark
    · exact (h s hs).2 .cell c hmem
  have hcells := counted_joined hmembers
  have hgap : Balanced ['\n'] := balanced_singleton (by decide)
  have hbody := counted_name halign (Counted.word hgap (hcells.append hgap.counted))
  have hall := counted_environment verbatim_array.balanced hbody
  rw [NamesCounted, ast_array id align hrows]
  simp only [List.append_assoc, List.cons_append] at hall ⊢
  refine hall.mono fun hall => .mk (by simpa [names] using hall.1) ?_
  intro _ c hc
  exact namesBalanced_of_contents fun m hm => hall.2.1 m (mem_stream_of_contents hc hm)

end

/-- Whatever its slots hold, a node that was read counts its names. -/
theorem namesCounted {n : Node} (h : n.FromMarkup []) : n.NamesCounted := by
  induction hk : n.size using Nat.strong_induction_on generalizing n with
  | _ k ih =>
    subst hk
    obtain ⟨hspelled, hnames⟩ := h.self
    have hchild : n.kind ≠ .text → ∀ c ∈ n.children, c.NamesCounted := fun hkind c hc =>
      ih c.size (size_lt_of_mem hc) (h.child hkind hc) rfl
    have hslot : n.kind ≠ .text → ∀ s ∈ n.children, s.SlotCounted := by
      intro hkind s hs
      refine ⟨hchild hkind s hs, ?_⟩
      intro stop m hm
      have hlt := size_lt_of_mem hs
      have hle := size_le_of_mem_contents hm
      have hmarkup : m.FromMarkup [] :=
        fun k hk => h.child hkind hs k (mem_outer_of_mem_contents hm hk)
      exact ih m.size (by omega) hmarkup rfl
    cases n with
    | symbol => exact namesCounted_symbol hspelled
    | space => exact namesCounted_space hspelled
    | op => exact namesCounted_op hspelled
    | var => simp [spelledAt] at hspelled
    | text => exact namesCounted_text hspelled
    | newLine => exact namesCounted_newLine
    | alignMark => exact namesCounted_alignMark
    | group => exact namesCounted_group (hchild (by simp [kind]))
    | aligned => exact namesCounted_aligned (hchild (by simp [kind]))
    | color id c body =>
      have hcolor := hnames c (by simp [names])
      exact namesCounted_color hcolor (hchild (by simp [kind]))
    | frac id numerator denominator =>
      have hnum := hslot (by simp [kind]) numerator (by simp [children])
      have hden := hslot (by simp [kind]) denominator (by simp [children])
      exact namesCounted_frac hnum hden
    | script id base sub sup =>
      have hbase := hchild (by simp [kind]) base (by simp [children])
      refine namesCounted_script hbase ?_ ?_
      · exact fun s hs => hslot (by simp [kind]) s (by simp [children, Option.mem_def.mp hs])
      · exact fun s hs => hslot (by simp [kind]) s (by simp [children, Option.mem_def.mp hs])
    | root id body index =>
      have hbody := hslot (by simp [kind]) body (by simp [children])
      refine namesCounted_root hbody ?_
      exact fun s hs => hslot (by simp [kind]) s (by simp [children, Option.mem_def.mp hs])
    | brace id above body =>
      exact namesCounted_brace above (hslot (by simp [kind]) body (by simp [children]))
    | strike id body => exact namesCounted_strike (hslot (by simp [kind]) body (by simp [children]))
    | box id border body background =>
      have hborder := hnames border (by simp [names])
      have hback := hnames background (by simp [names])
      have hbody := hslot (by simp [kind]) body (by simp [children])
      exact namesCounted_box hborder hback hbody
    | array id rows align =>
      have hspec : align.isSome ∧ ∀ row ∈ rows, row ≠ [] := by simpa [spelledAt] using hspelled
      obtain ⟨align, rfl⟩ := Option.isSome_iff_exists.mp hspec.1
      have halign := hnames align (by simp [names])
      exact namesCounted_array hspec.2 halign (hslot (by simp [kind]))

end Node

/-- In balanced markup of trees that were read no name leaves a brace open. -/
theorem namesBalanced_of_balanced {ns : List Node} (h : ∀ n ∈ ns, n.FromMarkup [])
    (hns : Balanced (joined ns)) : ∀ n ∈ ns, n.NamesBalanced := by
  obtain ⟨d, hd, hnames⟩ := counted_joined fun n hn => Node.namesCounted (h n hn)
  refine hnames ?_
  have hzero := hd []
  rw [List.append_nil, hns.braceExcess_eq_zero] at hzero
  simp only [braceExcess] at hzero
  omega

end FormulaDoc
