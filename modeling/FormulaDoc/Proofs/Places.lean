import FormulaDoc.Position
import FormulaDoc.Proofs.RangeText
import FormulaDoc.Proofs.Spans

namespace FormulaDoc

/-- What an editor sees of a styled range. -/
structure Mark where
  id : String
  span : Span
  depth : Nat
  hints : Option Hints
  deriving DecidableEq

def Placed.mark? (p : Placed) : Option Mark :=
  match p.range with
  | .plain _ => none
  | .styled id _ _ _ hints => some ⟨id, ⟨p.start, p.stop⟩, p.depth, hints⟩

theorem Placed.isSome_mark? (p : Placed) : p.mark?.isSome = p.range.isStyled := by
  unfold mark?
  cases p.range <;> rfl

theorem Placed.of_mark?_eq_some {p : Placed} {m : Mark} (h : p.mark? = some m) :
    p.id? = some m.id ∧ p.start = m.span.start ∧ p.stop = m.span.stop ∧ p.depth = m.depth := by
  unfold mark? at h
  unfold id?
  split at h
  next => cases h
  next id left children right hints hr =>
    cases h
    rw [hr]
    exact ⟨rfl, rfl, rfl, rfl⟩

namespace Range

variable {s d : Nat} {rs : List Range} {p : Placed}

/-- The styled ranges of a forest that begins at an offset and a depth, each before those inside. -/
def marks (start depth : Nat) (rs : List Range) : List Mark :=
  (placedAll start depth rs).filterMap Placed.mark?

theorem placedAll_append (s d : Nat) (as bs : List Range) :
    placedAll s d (as ++ bs) = placedAll s d as ++ placedAll (s + lengthAll as) d bs := by
  induction as generalizing s with
  | nil => rfl
  | cons a as ih =>
    rw [List.cons_append, placedAll, placedAll, ih, lengthAll, List.append_assoc, Nat.add_assoc]

mutual

/-- The text of a placed range stands in that of the range around it, from its offset on. -/
theorem text_of_mem_placed {s d : Nat} {p : Placed} : (r : Range) → p ∈ r.placed s d →
    ∃ a b, r.text.toList = a ++ p.range.text.toList ++ b ∧ p.start = s + a.length ∧
      p.stop = p.start + p.range.text.length
  | plain t, h => by
    rw [placed, List.mem_singleton] at h
    subst h
    exact ⟨[], [], by simp, rfl, by rw [text]⟩
  | styled id left children right hints, h => by
    rw [placed] at h
    rcases List.mem_cons.mp h with rfl | h
    · exact ⟨[], [], by simp, rfl, by rw [length_eq]⟩
    · obtain ⟨a, b, htext, hstart, hstop⟩ := text_of_mem_placedAll children h
      refine ⟨left.toList ++ a, b ++ right.toList, ?_, ?_, hstop⟩
      · rw [text, String.toList_append, String.toList_append, htext]
        simp only [List.append_assoc]
      · rw [hstart, List.length_append, String.length_toList, Nat.add_assoc]

theorem text_of_mem_placedAll {s d : Nat} {p : Placed} : (rs : List Range) → p ∈ placedAll s d rs →
    ∃ a b, (textAll rs).toList = a ++ p.range.text.toList ++ b ∧ p.start = s + a.length ∧
      p.stop = p.start + p.range.text.length
  | [], h => by cases h
  | r :: rs, h => by
    rw [placedAll] at h
    rw [textAll, String.toList_append]
    rcases List.mem_append.mp h with h | h
    · obtain ⟨a, b, htext, hstart, hstop⟩ := text_of_mem_placed r h
      exact ⟨a, b ++ (textAll rs).toList, by rw [htext]; simp only [List.append_assoc], hstart, hstop⟩
    · obtain ⟨a, b, htext, hstart, hstop⟩ := text_of_mem_placedAll rs h
      refine ⟨r.text.toList ++ a, b, by rw [htext]; simp only [List.append_assoc], ?_, hstop⟩
      rw [hstart, List.length_append, String.length_toList, length_eq, Nat.add_assoc]

end

/-- A placed range cuts its text out of the text of the forest. -/
theorem slice_of_mem_placedAll (h : p ∈ placedAll 0 d rs) :
    Span.slice ⟨p.start, p.stop⟩ (textAll rs) = p.range.text := by
  obtain ⟨a, b, htext, hstart, hstop⟩ := text_of_mem_placedAll rs h
  have hlength : p.stop = (a ++ p.range.text.toList).length := by
    rw [hstop, hstart, List.length_append, String.length_toList, Nat.zero_add]
  rw [Nat.zero_add] at hstart
  rw [Span.slice, htext, hlength, hstart, List.take_left', List.drop_left', String.ofList_toList]
  · rfl
  · rfl

/-- Ranges stand inside of the forest that they belong to. -/
theorem bounds_of_mem_placedAll (h : p ∈ placedAll s d rs) :
    s ≤ p.start ∧ p.start ≤ p.stop ∧ p.stop ≤ s + lengthAll rs := by
  obtain ⟨a, b, htext, hstart, hstop⟩ := text_of_mem_placedAll rs h
  have hlength := congrArg List.length htext
  rw [List.length_append, List.length_append, String.length_toList, String.length_toList,
    ← lengthAll_eq] at hlength
  omega

theorem marks_append (s d : Nat) (as bs : List Range) :
    marks s d (as ++ bs) = marks s d as ++ marks (s + lengthAll as) d bs := by
  rw [marks, placedAll_append, List.filterMap_append, marks, marks]

theorem marks_cons (s d : Nat) (r : Range) (rs : List Range) :
    marks s d (r :: rs) = marks s d [r] ++ marks (s + r.length) d rs := by
  rw [← List.singleton_append, marks_append, lengthAll, lengthAll, Nat.add_zero]

@[simp]
theorem marks_plain (s d : Nat) (t : String) : marks s d [plain t] = [] := rfl

theorem marks_styled (s d : Nat) (id left right : String) (children : List Range)
    (hints : Option Hints) : marks s d [styled id left children right hints] =
      ⟨id, ⟨s, s + (styled id left children right hints).length⟩, d, hints⟩ ::
        marks (s + left.length) (d + 1) children := by
  rw [marks, placedAll, placedAll, List.append_nil, placed, List.filterMap_cons]
  rfl

theorem marks_prepend (s d : Nat) (t : String) (rs : List Range) :
    marks s d (prepend t rs) = marks (s + t.length) d rs := by
  unfold prepend
  split
  next h => rw [h, String.length_empty, Nat.add_zero]
  next =>
    split
    next u rest =>
      rw [marks_cons, marks_cons (s + t.length), marks_plain, marks_plain, length, length,
        String.length_append, Nat.add_assoc]
    next => rw [marks_cons, marks_plain, length, List.nil_append]

theorem length_combineOne (r : Range) : (combineOne r).length = r.length := by
  rw [length_eq, length_eq, text_combineOne]

mutual

theorem marks_combineOne (s d : Nat) : (r : Range) → marks s d [combineOne r] = marks s d [r]
  | plain t => by rw [combineOne]
  | styled id left children right hints => by
    have hlength := length_combineOne (styled id left children right hints)
    rw [combineOne] at hlength ⊢
    rw [marks_styled, marks_styled, marks_combine _ _ children, hlength]

/-- Merging ranges changes no styled range. -/
theorem marks_combine (s d : Nat) : (rs : List Range) → marks s d (combine rs) = marks s d rs
  | [] => by rw [combine]
  | r :: rs => by
    have hr := marks_combineOne s d r
    have hlength := length_combineOne r
    have hrs := marks_combine (s + r.length) d rs
    rw [marks_cons s d r, ← hr, combine]
    split
    next t ht =>
      rw [ht, length] at hlength
      rw [marks_prepend, hlength, hrs, ht, marks_plain, List.nil_append]
    next => rw [marks_cons, hlength, hrs]

end

theorem mem_flattenStyled : p ∈ flattenStyled rs ↔ p ∈ placedAll 0 0 rs ∧ p.range.isStyled := by
  rw [flattenStyled, List.mem_mergeSort, List.mem_filter]

/-- The sorted listing of the styled ranges shows the marks, each once. -/
theorem filterMap_flattenStyled (rs : List Range) :
    ((flattenStyled rs).filterMap Placed.mark?).Perm (marks 0 0 rs) := by
  rw [flattenStyled, marks]
  refine ((List.mergeSort_perm _ _).filterMap _).trans ?_
  rw [List.filterMap_filter]
  refine .of_eq (List.filterMap_congr fun p _ => ?_)
  split
  next => rfl
  next h =>
    rw [← p.isSome_mark?, Option.not_isSome_iff_eq_none] at h
    exact h.symm

/-- A listed styled range shows a mark. -/
theorem exists_mark_of_mem_flattenStyled (h : p ∈ flattenStyled rs) :
    ∃ k ∈ marks 0 0 rs, p.mark? = some k := by
  obtain ⟨hp, hstyled⟩ := mem_flattenStyled.mp h
  rw [← p.isSome_mark?] at hstyled
  obtain ⟨k, hk⟩ := Option.isSome_iff_exists.mp hstyled
  exact ⟨k, List.mem_filterMap.mpr ⟨p, hp, hk⟩, hk⟩

theorem map_flattenStyled (rs : List Range) : (flattenStyled rs).map (fun p => (p.id?, p.depth)) =
    ((flattenStyled rs).filterMap Placed.mark?).map fun k => (some k.id, k.depth) := by
  rw [List.map_filterMap]
  refine (List.filterMap_eq_map_iff_forall_eq_some.mpr fun p hp => ?_).symm
  obtain ⟨k, -, hk⟩ := exists_mark_of_mem_flattenStyled hp
  obtain ⟨hid, -, -, hdepth⟩ := Placed.of_mark?_eq_some hk
  rw [hk, hid, hdepth]
  rfl

end Range

end FormulaDoc
