import FormulaDoc.Proofs.Stability
import FormulaDoc.Proofs.Tagless

namespace FormulaDoc

/-- The trees with their path ids are settled by the trees without ids. -/
theorem labelNodes_eq_iff {ms ns : List Node} :
    labelNodes false ms = labelNodes false ns ↔ ms.map Node.blank = ns.map Node.blank := by
  constructor
  · intro h
    rw [← map_blank_labelNodes false ms, h, map_blank_labelNodes]
  · intro h
    rw [← labelNodes_blank false ms, h, labelNodes_blank]

namespace Formula

variable {f g r : Formula}

/-- Two formulas are the same apart from their ids. -/
def SameButIds (f g : Formula) : Prop :=
  f.children.map Node.blank = g.children.map Node.blank

theorem latex_ast_of_sameButIds (h : f.SameButIds g) : f.latex .ast = g.latex .ast := by
  rw [← String.toList_inj, toList_latex, toList_latex, ← joined_labelNodes false f.children,
    labelNodes_eq_iff.mpr h, joined_labelNodes]

theorem assignPathIds_eq_iff : g.assignPathIds = f.assignPathIds ↔ g.SameButIds f := by
  rw [g.assignPathIds_eq_ok, f.assignPathIds_eq_ok, Except.ok.injEq, Formula.mk.injEq, labelNodes_eq_iff,
    SameButIds]

theorem sameButIds_of_assignPathIds (h : f.assignPathIds = .ok r) : r.SameButIds f := by
  rw [f.assignPathIds_eq_ok, Except.ok.injEq] at h
  subst h
  exact map_blank_labelNodes false f.children

/-- What is read from a text without tags takes path ids, which are never shared. -/
theorem ofNodes_of_tagless {vars : List (List Char)} {s rest : List Char} {ns : List Node}
    (hvars : [] ∉ vars) (hs : Tagless s) (h : siblings vars .never s = .ok (ns, rest)) :
    ofNodes (labelNodes true ns) = .ok ⟨labelNodes false ns, nodup_labelNodes ns⟩ := by
  have hmap : ns.map Node.blank = ns.map id := List.map_congr_left (givesBlank_siblings hvars h hs)
  have hblank : ns.map Node.blank = ns := hmap.trans (List.map_id ns)
  rw [labelNodes_of_blank hblank, ofNodes_eq_ok (nodup_labelNodes ns)]

theorem fault_of_parse_tagless {vars : List String} {text : String} {e : ParseError}
    (hs : Tagless text.toList) (h : parse vars text = .error e) :
    ∃ cause offset, e = .fault cause offset := by
  have hvars : [] ∉ (variableOrder vars).filter (!·.isEmpty) := by simp
  rw [parse, readNodes, ← siblings] at h
  cases hread : siblings ((variableOrder vars).filter (!·.isEmpty)) .never text.toList with
  | error fault =>
    simp only [hread, Except.map, Except.error.injEq] at h
    exact ⟨_, _, h.symm⟩
  | ok reading =>
    obtain ⟨ns, rest⟩ := reading
    simp [hread, Except.map, ofNodes_of_tagless hvars hs hread] at h

/-- Path ids are given to every formula, in place of its ids and of nothing else: the ast markup stays, a
second run changes nothing, and exactly the formulas that are the same apart from ids get the same result.
So a parse of a text without tags fails at a place in the text only. -/
theorem assignPathIds_canonical :
    (∀ f : Formula, ∃ r, f.assignPathIds = .ok r ∧ r.SameButIds f ∧ r.latex .ast = f.latex .ast ∧
      r.assignPathIds = .ok r ∧
      ∀ g : Formula, g.assignPathIds = f.assignPathIds ↔ g.SameButIds f) ∧
    ∀ vars text e, "" ∉ vars → Tagless text.toList → parse vars text = .error e →
      ∃ cause offset, e = .fault cause offset := by
  constructor
  · intro f
    obtain ⟨r, hr⟩ : ∃ r, f.assignPathIds = .ok r := ⟨_, f.assignPathIds_eq_ok⟩
    have hsame : r.SameButIds f := sameButIds_of_assignPathIds hr
    have hlatex : r.latex .ast = f.latex .ast := latex_ast_of_sameButIds hsame
    have hagain : r.assignPathIds = .ok r := by rw [assignPathIds_eq_iff.mpr hsame, hr]
    exact ⟨r, hr, hsame, hlatex, hagain, fun g => assignPathIds_eq_iff⟩
  · intro vars text e _ hs h
    exact fault_of_parse_tagless hs h

theorem assignPathIds_canonical_of_dangling :
    ∃ e, parse ["x"] "\\" = .error e ∧ Tagless "\\".toList ∧
      ∃ cause offset, e = .fault cause offset := by
  have hparse : parse ["x"] "\\" = .error (.fault .danglingBackslash 0) := by decide +kernel
  have hs : Tagless "\\".toList := by decide
  exact ⟨_, hparse, hs, assignPathIds_canonical.2 ["x"] "\\" _ (by decide) hs hparse⟩

end Formula

end FormulaDoc
