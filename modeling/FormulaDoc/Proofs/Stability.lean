import FormulaDoc.Proofs.Excess
import FormulaDoc.Proofs.Recurrence
import FormulaDoc.Proofs.RoundTrip
import Mathlib.Data.List.DropRight

namespace FormulaDoc

theorem trimEnd_idem (s : List Char) : trimEnd (trimEnd s) = trimEnd s := by
  rw [trimEnd, trimEnd, List.reverse_reverse, List.dropWhile_idempotent]

theorem trim_idem (s : List Char) : trim (trim s) = trim s := by
  have hdrop : ∀ x : List Char, x.dropWhile isBlank = x → (trimEnd x).dropWhile isBlank = trimEnd x := by
    intro x hx
    obtain ⟨u, hu, -⟩ := trimEnd_append x
    cases ht : trimEnd x with
    | nil => rfl
    | cons c t =>
      rw [ht] at hu
      rw [hu, List.cons_append, List.dropWhile_cons] at hx
      split at hx
      next =>
        have hle := (List.dropWhile_suffix isBlank (l := t ++ u)).length_le
        rw [hx, List.length_cons] at hle
        omega
      next hc => rw [List.dropWhile_cons, if_neg hc]
  rw [trim, trim, hdrop _ (List.dropWhile_idempotent _ _), trimEnd_idem]

theorem Trimmed.verbatim {c : String} (h : Trimmed c) (hc : Balanced c.toList) : Verbatim c := by
  obtain ⟨raw, -, rfl⟩ := h
  refine ⟨?_, rawGroup_eq_ok_iff.mpr ⟨rfl, hc⟩⟩
  rw [String.toList_ofList, trim_idem]

namespace Node

variable {m n : Node}

theorem worded_of_fromMarkup (h : n.FromMarkup []) (hn : n.NamesBalanced) : n.Worded := by
  intro m hm
  have hm' := h m hm
  refine ⟨fun _ => hm'.spelled, fun c hc => (hm'.names c hc).verbatim (hn m hm c hc), ?_⟩
  intro hk c hc
  cases m with
  | text id body => exact .inl (List.all_eq_true.mp hm'.spelled c hc)
  | _ => cases hk

theorem isScriptGroup_blank (n : Node) : n.blank.isScriptGroup = n.isScriptGroup := by
  rcases n.eq_group_or_kind_ne with ⟨id, body, rfl⟩ | hk
  · rw [blank_eq]
    rcases body with _ | ⟨m, _ | ⟨m', body⟩⟩
    · rfl
    · have hm := kind_eq_of_shape m.shape_blank
      simp [mapChildren, children, withChildren, withId, isScriptGroup, hm]
    · rfl
  · have hk' : n.blank.kind ≠ .group := kind_eq_of_shape n.shape_blank ▸ hk
    rw [isScriptGroup_of_kind_ne hk, isScriptGroup_of_kind_ne hk']

theorem spelledAt_blank (vars : List (List Char)) (n : Node) : n.blank.spelledAt vars = n.spelledAt vars := by
  cases n with
  | text id body =>
    rw [blank_text, spelledAt, spelledAt, List.all_map]
    exact List.all_congr rfl fun c => isLetter_eq_of_shape c.shape_blank
  | script id base sub sup => simp [blank_script, spelledAt, isScriptGroup_blank]
  | root id body index =>
    rw [blank_root]
    rfl
  | array id rows align => simp [blank_array, spelledAt, Function.comp_def]
  | _ =>
    rw [blank_eq]
    rfl

theorem names_blank (n : Node) : n.blank.names = n.names :=
  names_eq_of_shape n.shape_blank

/-- Ids play no part in what a reader can give. -/
theorem FromMarkup.of_blank {vars : List (List Char)} (h : n.FromMarkup vars) (hb : m.blank = n.blank) :
    m.FromMarkup vars := by
  induction m using childrenInduction generalizing n with
  | step m ih =>
    have hkind : m.kind = n.kind := by
      rw [← kind_eq_of_shape m.shape_blank, hb, kind_eq_of_shape n.shape_blank]
    refine .mk ⟨?_, ?_⟩ fun hk c hc => ?_
    · rw [← spelledAt_blank, hb, spelledAt_blank]
      exact h.self.spelled
    · rw [← names_blank, hb, names_blank]
      exact h.self.names
    · have hmem : c.blank ∈ n.children.map blank := by
        rw [← children_blank, ← hb, children_blank]
        exact List.mem_map_of_mem hc
      obtain ⟨c', hc', he⟩ := List.mem_map.mp hmem
      exact ih c hc (h.child (hkind ▸ hk) hc') he.symm

theorem mem_preorder_of_mem_outer (h : m ∈ n.outer) : m ∈ n.preorder := by
  induction n using childrenInduction with
  | step n ih =>
    rcases mem_outer_iff.mp h with rfl | ⟨-, c, hc, h⟩
    · exact m.self_mem_preorder
    · exact mem_preorder_of_child hc (ih c hc h)

/-- Only letters stand in the texts of a spelled tree. -/
theorem mem_outer_of_mem_preorder {vars : List (List Char)} (hn : n.Spelled vars)
    (h : m ∈ n.preorder) : m ∈ n.outer ∨ m.isLetter := by
  induction n using childrenInduction with
  | step n ih =>
    rw [preorder_eq] at h
    rcases List.mem_cons.mp h with rfl | h
    · exact .inl m.self_mem_outer
    obtain ⟨c, hc, h⟩ := List.mem_flatMap.mp h
    by_cases hk : n.kind = .text
    · cases n with
      | text id body =>
        have hletters : body.all isLetter := hn.self
        have hletter := List.all_eq_true.mp hletters c hc
        cases c with
        | symbol id value =>
          obtain rfl : m = symbol id value := by simpa [preorder_eq, children] using h
          exact .inr hletter
        | _ => cases hletter
      | _ => cases hk
    · exact (ih c hc (hn.child hk hc) h).imp_left fun hm => mem_outer_of_child hk hc hm

theorem settledAt_of_isLetter (h : n.isLetter) : n.SettledAt := by
  cases n with
  | symbol => exact ⟨by simp [names], by simp [runs, arguments]⟩
  | _ => cases h

theorem settled_iff (hn : n.Spelled []) : n.Settled ↔ ∀ m ∈ n.preorder, m.SettledAt := by
  constructor
  · intro h m hm
    rcases mem_outer_of_mem_preorder hn hm with hm | hm
    · exact (h m hm).2
    · exact settledAt_of_isLetter hm
  · exact fun h m hm => ⟨hn m hm, h m (mem_preorder_of_mem_outer hm)⟩

end Node

theorem joined_eq_of_map_ast {ms ns : List Node} (h : ms.map Node.ast = ns.map Node.ast) :
    joined ms = joined ns := by
  have hfollowing : ∀ ks : List Node, following ks = (ks.map Node.ast).flatMap (' ' :: ·) := by
    intro ks
    rw [following, List.flatMap_map]
  cases ms with
  | nil =>
    cases ns with
    | nil => rfl
    | cons => cases h
  | cons m ms =>
    cases ns with
    | nil => cases h
    | cons n ns =>
      obtain ⟨hm, hms⟩ := List.cons.inj h
      rw [joined, joined, hm, hfollowing, hfollowing, hms]

theorem joined_labelNodes (keep : Bool) (ns : List Node) : joined (labelNodes keep ns) = joined ns := by
  apply joined_eq_of_map_ast
  refine List.ext_getElem (by simp [labelNodes]) fun i hi hi' => ?_
  simp [labelNodes, Node.ast_relabel]

namespace Formula

theorem mem_nodes_of_outer {f : Formula} {n : Node} (hn : n ∈ f.children.flatMap Node.outer) : n ∈ f.nodes := by
  obtain ⟨top, htop, hn⟩ := List.mem_flatMap.mp hn
  exact List.mem_flatMap.mpr ⟨top, htop, Node.mem_preorder_of_mem_outer hn⟩

/-- What was parsed to a formula: siblings, under labels. -/
theorem exists_siblings_of_parse {vars : List String} {text : String} {f : Formula}
    (h : Formula.parse vars text = .ok f) :
    ∃ ns rest, siblings ((variableOrder vars).filter (!·.isEmpty)) .never text.toList = .ok (ns, rest) ∧
      f.children = labelNodes true ns := by
  rw [Formula.parse, readNodes, ← siblings] at h
  cases hread : siblings ((variableOrder vars).filter (!·.isEmpty)) .never text.toList with
  | error e => simp [hread, Except.map] at h
  | ok reading =>
    obtain ⟨ns, rest⟩ := reading
    refine ⟨ns, rest, rfl, ?_⟩
    simp only [hread, Except.map] at h
    split at h
    next g hg =>
      cases h
      exact children_of_ofNodes hg
    next => cases h

/-- Without variables the siblings go on to the end of the text. -/
theorem parse_eq_ok {text : String} {f : Formula} (h : Formula.parse [] text = .ok f) :
    ∃ ns, siblings [] .never text.toList = .ok (ns, []) ∧ f.children = labelNodes true ns := by
  obtain ⟨ns, rest, hread, hf⟩ := exists_siblings_of_parse h
  have hvars : (variableOrder []).filter (!·.isEmpty) = [] := by simp [variableOrder]
  rw [hvars] at hread
  obtain rfl := siblings_never hread
  exact ⟨ns, hread, hf⟩

theorem fromMarkup_of_parse {text : String} {f : Formula} (h : Formula.parse [] text = .ok f) :
    ∀ n ∈ f.children, n.FromMarkup [] := by
  obtain ⟨ns, hread, hf⟩ := parse_eq_ok h
  intro n hn
  obtain ⟨m, hm, hblank⟩ := exists_of_mem_labelNodes (hf ▸ hn)
  exact (siblings_fromMarkup hread m hm).of_blank hblank.symm

theorem equivalent_iff {f g : Formula} : g.equivalent f ↔ joined g.children = joined f.children := by
  rw [equivalent, beq_iff_eq, ← toList_latex, ← toList_latex, String.toList_inj]

section

variable {f g : Formula} {ns : List Node} (hns : joined ns = joined f.children)

include hns

theorem settled_of_worded (h : ∀ n ∈ ns, n.Worded) (hg : Formula.parse [] (f.latex .ast) = .ok g)
    (he : g.equivalent f) : ∀ n ∈ ns, n.Settled := by
  obtain ⟨ms, hread, hms⟩ := parse_eq_ok hg
  rw [toList_latex, ← hns] at hread
  have hrecurs : ∀ n ∈ ns, n.Outlined ∧ n.Recurs := fun n hn => ⟨(h n hn).outlined, (h n hn).recurs⟩
  have hends : Ends .never [] := ends_never
  have hjoined : joined ms = joined ns := by
    rw [hns, ← equivalent_iff.mp he, hms, joined_labelNodes]
  rw [← List.append_nil (joined ns)] at hread
  have hsettled := settled_joined (d := []) hrecurs hends hread (hjoined ▸ List.prefix_refl _)
    fun n _ hstop => by cases hstop
  exact fun n hn => (hsettled n hn).1

/-- Trees that a reader can give are settled, if their markup is parsed again and written the same way. -/
theorem settled_of_parse_latex (h : ∀ n ∈ ns, n.FromMarkup [])
    (hg : Formula.parse [] (f.latex .ast) = .ok g) (he : g.equivalent f) : ∀ n ∈ ns, n.Settled := by
  obtain ⟨ms, hread, -⟩ := parse_eq_ok hg
  rw [toList_latex, ← hns] at hread
  have hbalanced := namesBalanced_of_balanced h (balanced_of_siblings hread)
  have hworded : ∀ n ∈ ns, n.Worded := fun n hn => Node.worded_of_fromMarkup (h n hn) (hbalanced n hn)
  exact settled_of_worded hns hworded hg he

theorem parse_latex_of_settled (h : ∀ n ∈ ns, n.Settled) :
    ∃ g, Formula.parse [] (f.latex .ast) = .ok g ∧ g.equivalent f := by
  have hlegible : ∀ n ∈ ns, n.Legible := fun n hn => (h n hn).legible
  have hsame : ∀ n ∈ ns, n.reread.ast = n.ast := fun n hn => (h n hn).ast_reread
  have hparse := parse_joined hlegible ((toList_latex f).trans hns.symm)
  refine ⟨_, hparse, equivalent_iff.mpr ?_⟩
  rw [joined_labelNodes, joined_congr hsame, hns]

end

/-- The markup of a parsed formula is parsed again and written the same way exactly if all nodes of
the formula are settled. -/
theorem parse_latex_equivalent_iff {text : String} {f : Formula} (h : Formula.parse [] text = .ok f) :
    (∃ g, Formula.parse [] (f.latex .ast) = .ok g ∧ g.equivalent f) ↔ ∀ n ∈ f.nodes, n.SettledAt := by
  have hf := fromMarkup_of_parse h
  have hspelled : ∀ n ∈ f.children, ∀ k ∈ n.outer, k.spelledAt [] := fun n hn k hk => (hf n hn k hk).spelled
  have hnodes : (∀ n ∈ f.children, n.Settled) ↔ ∀ n ∈ f.nodes, n.SettledAt := by
    rw [nodes]
    simp only [List.mem_flatMap, forall_exists_index, and_imp]
    constructor
    · intro hsettled m n hn hm
      have hall := (Node.settled_iff (hspelled n hn)).mp (hsettled n hn)
      exact hall m hm
    · intro hall n hn
      have hn' : ∀ m ∈ n.preorder, m.SettledAt := fun m hm => hall m n hn hm
      exact (Node.settled_iff (hspelled n hn)).mpr hn'
  rw [← hnodes]
  constructor
  · rintro ⟨g, hg, he⟩
    exact settled_of_parse_latex rfl hf hg he
  · intro hsettled
    exact parse_latex_of_settled rfl hsettled

/-- The formula of a fraction is settled, since its markup is parsed again. -/
theorem settledAt_of_fraction : ∃ f, Formula.parse [] "\\frac\x7ba\x7d\x7bb^2\x7d" = .ok f ∧
    ∀ n ∈ f.nodes, n.SettledAt := by
  have hparse : ((Formula.parse [] "\\frac\x7ba\x7d\x7bb^2\x7d").toOption.map fun f =>
      (Formula.parse [] (f.latex .ast)).toOption.map (·.equivalent f)) = some (some true) := by
    decide +kernel
  cases hf : Formula.parse [] "\\frac\x7ba\x7d\x7bb^2\x7d" with
  | error e => simp [hf, Except.toOption] at hparse
  | ok f =>
    refine ⟨f, rfl, (parse_latex_equivalent_iff hf).mp ?_⟩
    cases hg : Formula.parse [] (f.latex .ast) with
    | error e => simp [hf, hg, Except.toOption] at hparse
    | ok g => exact ⟨g, rfl, by simpa [hf, hg, Except.toOption] using hparse⟩

/-- A bracket that stands in braces of its own in the index of a root loses them, and then ends the
index. -/
theorem parse_latex_bracket : ∃ f, Formula.parse [] "\\sqrt[\x7b]\x7d]\x7bx\x7d" = .ok f ∧
    f.latex .ast = "\\sqrt[]]\x7bx\x7d" ∧ ∀ g, Formula.parse [] (f.latex .ast) ≠ .ok g := by
  have hparse : (Formula.parse [] "\\sqrt[\x7b]\x7d]\x7bx\x7d").toOption.map (·.latex .ast) =
      some "\\sqrt[]]\x7bx\x7d" := by decide +kernel
  have hagain : (Formula.parse [] "\\sqrt[]]\x7bx\x7d").toOption.isSome = false := by decide +kernel
  cases hf : Formula.parse [] "\\sqrt[\x7b]\x7d]\x7bx\x7d" with
  | error e => simp [hf, Except.toOption] at hparse
  | ok f =>
    have hlatex : f.latex .ast = "\\sqrt[]]\x7bx\x7d" := by
      simpa [hf, Except.toOption] using hparse
    refine ⟨f, rfl, hlatex, fun g hg => ?_⟩
    rw [hlatex] at hg
    simp [hg, Except.toOption] at hagain

end Formula

end FormulaDoc
