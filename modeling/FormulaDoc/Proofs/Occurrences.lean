import FormulaDoc.Proofs.Places
import Mathlib.Data.List.Infix
import Mathlib.Data.List.Lex

namespace FormulaDoc

/-- Where a range stands in a forest: its place among its siblings, behind the places of the ranges around
it, the outermost first. -/
abbrev Address := List Nat

/-- A range where it stands. -/
structure Occurrence where
  address : Address
  range : Range

namespace Range

def children : Range → List Range
  | plain _ => []
  | styled _ _ children _ _ => children

/-- The text of a range in front of its children. -/
def opening : Range → String
  | plain _ => ""
  | styled _ left _ _ _ => left

mutual

/-- Induction on a forest: on what is inside its first range and on what is behind it. -/
theorem forest_induct {P : List Range → Prop} (nil : P [])
    (cons : ∀ r rs, P r.children → P rs → P (r :: rs)) : (rs : List Range) → P rs
  | [] => nil
  | r :: rs => cons r rs (forest_induct_children nil cons r) (forest_induct nil cons rs)

theorem forest_induct_children {P : List Range → Prop} (nil : P [])
    (cons : ∀ r rs, P r.children → P rs → P (r :: rs)) : (r : Range) → P r.children
  | plain _ => nil
  | styled _ _ children _ _ => forest_induct nil cons children

end

/-- The range at an address. -/
def at? : List Range → Address → Option Range
  | _, [] => none
  | rs, [i] => rs[i]?
  | rs, i :: j :: a => rs[i]?.bind fun r => at? r.children (j :: a)

/-- The text of a forest in front of the range at an address. -/
def textBefore : List Range → Address → String
  | _, [] => ""
  | rs, [i] => textAll (rs.take i)
  | rs, i :: j :: a =>
    textAll (rs.take i) ++ (rs[i]?.elim "" fun r => r.opening ++ textBefore r.children (j :: a))

end Range

namespace Occurrence

/-- Where an occurrence stands in the text of a forest that begins at an offset and a depth. -/
def placedFrom (start depth : Nat) (rs : List Range) (o : Occurrence) : Placed :=
  let before := start + (Range.textBefore rs o.address).length
  ⟨before, before + o.range.text.length, depth + (o.address.length - 1), o.range⟩

/-- An occurrence with its offsets in the text of its forest and the number of ranges around it. -/
def placed (rs : List Range) (o : Occurrence) : Placed :=
  o.placedFrom 0 0 rs

/-- An occurrence in the children of the first range of a forest. -/
def under (o : Occurrence) : Occurrence :=
  ⟨0 :: o.address, o.range⟩

/-- An occurrence behind one more range. -/
def behind (o : Occurrence) : Occurrence :=
  ⟨o.address.modifyHead (· + 1), o.range⟩

end Occurrence

namespace Range

mutual

/-- The occurrences in the children of a range. -/
def occurrencesInside : Range → List Occurrence
  | plain _ => []
  | styled _ _ children _ _ => occurrences children

/-- The occurrences in a forest, each before those inside it. -/
def occurrences : List Range → List Occurrence
  | [] => []
  | r :: rs =>
    ⟨[0], r⟩ :: (r.occurrencesInside.map Occurrence.under ++ (occurrences rs).map Occurrence.behind)

end

variable {rs : List Range} {r : Range} {a b : Address} {o o' : Occurrence} {i s d : Nat}

theorem at?_singleton (rs : List Range) (i : Nat) : at? rs [i] = rs[i]? := by
  rw [at?]

theorem at?_cons (ha : a ≠ []) (rs : List Range) (i : Nat) :
    at? rs (i :: a) = rs[i]?.bind fun r => at? r.children a := by
  obtain ⟨j, a, rfl⟩ := List.exists_cons_of_ne_nil ha
  rw [at?]

theorem textBefore_singleton (rs : List Range) (i : Nat) : textBefore rs [i] = textAll (rs.take i) := by
  rw [textBefore]

theorem textBefore_cons (ha : a ≠ []) (hr : rs[i]? = some r) :
    textBefore rs (i :: a) = textAll (rs.take i) ++ (r.opening ++ textBefore r.children a) := by
  obtain ⟨j, a, rfl⟩ := List.exists_cons_of_ne_nil ha
  rw [textBefore, hr, Option.elim_some]

/-- Behind one more range all places are one higher. -/
theorem at?_behind (r : Range) (rs : List Range) (a : Address) :
    at? (r :: rs) (a.modifyHead (· + 1)) = at? rs a := by
  rcases a with - | ⟨i, - | ⟨j, a⟩⟩ <;> simp only [List.modifyHead, at?, List.getElem?_cons_succ]

theorem textBefore_behind (r : Range) (rs : List Range) (ha : a ≠ []) :
    textBefore (r :: rs) (a.modifyHead (· + 1)) = r.text ++ textBefore rs a := by
  rcases a with - | ⟨i, - | ⟨j, a⟩⟩
  · exact absurd rfl ha
  · simp only [List.modifyHead, textBefore, List.take_succ_cons, textAll]
  · simp only [List.modifyHead, textBefore, List.take_succ_cons, textAll, List.getElem?_cons_succ,
      String.append_assoc]

/-- The range at an address below another one stands among the children of the range there. -/
theorem at?_append (ha : a ≠ []) (hb : b ≠ []) (rs : List Range) :
    at? rs (a ++ b) = (at? rs a).bind fun r => at? r.children b := by
  induction a generalizing rs with
  | nil => exact absurd rfl ha
  | cons i a ih =>
    rw [List.cons_append, at?_cons (by simp [hb])]
    cases a with
    | nil => rw [at?_singleton, List.nil_append]
    | cons j a =>
      rw [at?_cons (by simp), Option.bind_assoc]
      exact congrArg _ (funext fun r => ih (by simp) r.children)

theorem textBefore_append (ha : a ≠ []) (hb : b ≠ []) (hr : at? rs a = some r) :
    textBefore rs (a ++ b) = textBefore rs a ++ (r.opening ++ textBefore r.children b) := by
  induction a generalizing rs with
  | nil => exact absurd rfl ha
  | cons i a ih =>
    cases a with
    | nil =>
      rw [at?_singleton] at hr
      rw [List.cons_append, List.nil_append, textBefore_cons hb hr, textBefore_singleton]
    | cons j a =>
      rw [at?_cons (by simp)] at hr
      obtain ⟨c, hc, hr⟩ := Option.bind_eq_some_iff.mp hr
      rw [List.cons_append, textBefore_cons (by simp) hc, textBefore_cons (by simp) hc, ih (by simp) hr]
      simp only [String.append_assoc]

/-- The children of a range stand in its text, behind its opening. -/
theorem exists_text_eq (r : Range) (h : r.children ≠ []) :
    ∃ after, r.text = r.opening ++ (textAll r.children ++ after) := by
  cases r with
  | plain => exact absurd rfl h
  | styled id left children right hints =>
    exact ⟨right, by rw [text, opening, Range.children, String.append_assoc]⟩

theorem ne_nil_of_at? (h : at? rs a = some r) : a ≠ [] ∧ rs ≠ [] := by
  constructor
  · rintro rfl
    cases h
  · rintro rfl
    rcases a with - | ⟨i, - | ⟨j, a⟩⟩ <;> cases h

theorem exists_textAll_eq_take (h : rs[i]? = some r) :
    ∃ after, textAll rs = textAll (rs.take i) ++ (r.text ++ after) := by
  obtain ⟨hi, rfl⟩ := List.getElem?_eq_some_iff.mp h
  have hsplit : rs = rs.take i ++ rs[i] :: rs.drop (i + 1) := by
    rw [← List.drop_eq_getElem_cons hi, List.take_append_drop]
  refine ⟨textAll (rs.drop (i + 1)), ?_⟩
  rw [← textAll, ← textAll_append, ← hsplit]

/-- A range stands in the text of its forest, behind the text in front of its address. -/
theorem exists_textAll_eq (h : at? rs a = some r) :
    ∃ after, textAll rs = textBefore rs a ++ (r.text ++ after) := by
  induction a generalizing rs with
  | nil => cases h
  | cons i a ih =>
    cases a with
    | nil =>
      rw [at?_singleton] at h
      rw [textBefore_singleton]
      exact exists_textAll_eq_take h
    | cons j a =>
      rw [at?_cons (by simp)] at h
      obtain ⟨c, hc, h⟩ := Option.bind_eq_some_iff.mp h
      obtain ⟨after, hrs⟩ := exists_textAll_eq_take hc
      obtain ⟨after', hchildren⟩ := ih h
      obtain ⟨closing, htext⟩ := exists_text_eq c (ne_nil_of_at? h).2
      refine ⟨after' ++ (closing ++ after), ?_⟩
      rw [hrs, htext, hchildren, textBefore_cons (by simp) hc]
      simp only [String.append_assoc]

theorem at?_of_nil (a : Address) : at? [] a = none := by
  rcases a with - | ⟨i, - | ⟨j, a⟩⟩ <;> rfl

/-- The occurrences in a forest are those of its first range, those inside it and those behind it. -/
theorem at?_cons_eq_some :
    at? (r :: rs) o.address = some o.range ↔
      (o = ⟨[0], r⟩ ∨ ∃ c : Occurrence, at? r.children c.address = some c.range ∧ c.under = o) ∨
        ∃ c : Occurrence, at? rs c.address = some c.range ∧ c.behind = o := by
  obtain ⟨a, t⟩ := o
  constructor
  · intro h
    rcases a with - | ⟨i | i, a⟩
    · cases h
    · refine .inl ?_
      by_cases ha : a = []
      · subst ha
        rw [at?_singleton] at h
        cases h
        exact .inl rfl
      · rw [at?_cons ha] at h
        exact .inr ⟨⟨a, t⟩, h, rfl⟩
    · exact .inr ⟨⟨i :: a, t⟩, (at?_behind r rs (i :: a)).symm.trans h, rfl⟩
  · rintro ((h | ⟨c, hc, h⟩) | ⟨c, hc, h⟩) <;> cases h
    · rw [at?_singleton]
      rfl
    · rw [at?_cons (ne_nil_of_at? hc).1]
      exact hc
    · rw [at?_behind, hc]

theorem occurrences_cons (r : Range) (rs : List Range) : occurrences (r :: rs) =
    ⟨[0], r⟩ :: ((occurrences r.children).map Occurrence.under ++
      (occurrences rs).map Occurrence.behind) := by
  cases r <;> rfl

theorem placedAll_cons (s d : Nat) (r : Range) (rs : List Range) : placedAll s d (r :: rs) =
    ⟨s, s + r.length, d, r⟩ :: (placedAll (s + r.opening.length) (d + 1) r.children ++
      placedAll (s + r.length) d rs) := by
  cases r <;> rfl

/-- The occurrences in a forest are the ranges at its addresses. -/
theorem mem_occurrences : o ∈ occurrences rs ↔ at? rs o.address = some o.range := by
  induction rs using forest_induct generalizing o with
  | nil => simp [occurrences, at?_of_nil]
  | cons r rs ihr ih =>
    simp only [occurrences_cons, List.mem_cons, List.mem_append, List.mem_map, ihr, ih, at?_cons_eq_some,
      or_assoc]

theorem exists_address_of_mem_occurrences (h : o ∈ occurrences rs) : ∃ i a, o.address = i :: a := by
  obtain ⟨hne, -⟩ := ne_nil_of_at? (mem_occurrences.mp h)
  exact List.exists_cons_of_ne_nil hne

theorem placedFrom_first (s d : Nat) (r : Range) (rs : List Range) :
    (Occurrence.mk [0] r).placedFrom s d (r :: rs) = ⟨s, s + r.length, d, r⟩ := by
  simp [Occurrence.placedFrom, textBefore_singleton, textAll, length_eq]

theorem placedFrom_under (ho : o ∈ occurrences r.children) :
    o.under.placedFrom s d (r :: rs) = o.placedFrom (s + r.opening.length) (d + 1) r.children := by
  obtain ⟨i, a, ha⟩ := exists_address_of_mem_occurrences ho
  have hne : o.address ≠ [] := by simp [ha]
  have hbefore : textBefore (r :: rs) (0 :: o.address) =
      r.opening ++ textBefore r.children o.address := by
    rw [textBefore_cons hne rfl, List.take_zero, textAll, String.empty_append]
  have hdepth : d + o.address.length = d + 1 + (o.address.length - 1) := by
    have := List.length_pos_iff.mpr hne
    omega
  simp only [Occurrence.placedFrom, Occurrence.under, hbefore, String.length_append, List.length_cons,
    Nat.add_sub_cancel, hdepth, Nat.add_assoc]

theorem placedFrom_behind (ho : o ∈ occurrences rs) :
    o.behind.placedFrom s d (r :: rs) = o.placedFrom (s + r.length) d rs := by
  have hbefore := textBefore_behind r rs (ne_nil_of_at? (mem_occurrences.mp ho)).1
  simp only [Occurrence.placedFrom, Occurrence.behind, hbefore, String.length_append, length_eq,
    List.length_modifyHead, Nat.add_assoc]

/-- The collected ranges of a forest are its occurrences, with their places. -/
theorem map_occurrences (s d : Nat) (rs : List Range) :
    (occurrences rs).map (·.placedFrom s d rs) = placedAll s d rs := by
  induction rs using forest_induct generalizing s d with
  | nil => rfl
  | cons r rs ihr ih =>
    rw [occurrences_cons, placedAll_cons, List.map_cons, List.map_append, List.map_map, List.map_map,
      placedFrom_first, ← ihr, ← ih]
    congr 2
    · exact List.map_congr_left fun o ho => placedFrom_under ho
    · exact List.map_congr_left fun o ho => placedFrom_behind ho

/-- The occurrences in a forest are listed in the order of their addresses. -/
theorem pairwise_occurrences (rs : List Range) :
    (occurrences rs).Pairwise fun o o' => o.address < o'.address := by
  induction rs using forest_induct with
  | nil => exact .nil
  | cons r rs ihr ih =>
    rw [occurrences_cons, List.pairwise_cons, List.pairwise_append, List.pairwise_map, List.pairwise_map]
    refine ⟨fun o ho => ?_, ?_, ?_, fun o ho o' ho' => ?_⟩
    · rcases List.mem_append.mp ho with ho | ho <;> obtain ⟨c, hc, rfl⟩ := List.mem_map.mp ho <;>
        obtain ⟨i, a, ha⟩ := exists_address_of_mem_occurrences hc <;>
        simp [Occurrence.under, Occurrence.behind, ha, List.cons_lt_cons_iff]
    · exact ihr.imp fun h => List.cons_lt_cons_iff.mpr (.inr ⟨rfl, h⟩)
    · refine ih.imp_of_mem fun {o o'} ho ho' h => ?_
      obtain ⟨i, a, ha⟩ := exists_address_of_mem_occurrences ho
      obtain ⟨j, b, hb⟩ := exists_address_of_mem_occurrences ho'
      rw [ha, hb, List.cons_lt_cons_iff] at h
      simpa [Occurrence.behind, ha, hb, List.cons_lt_cons_iff] using h
    · obtain ⟨c, -, rfl⟩ := List.mem_map.mp ho
      obtain ⟨c', hc', rfl⟩ := List.mem_map.mp ho'
      obtain ⟨j, b, hb⟩ := exists_address_of_mem_occurrences hc'
      simp [Occurrence.under, Occurrence.behind, hb, List.cons_lt_cons_iff]

theorem nodup_occurrences (rs : List Range) : (occurrences rs).Nodup := by
  refine List.Pairwise.imp (fun {o o'} hlt heq => ?_) (pairwise_occurrences rs)
  rw [heq] at hlt
  exact List.lt_irrefl _ hlt

/-- At an address of a forest there is one range. -/
theorem eq_of_address (ho : at? rs o.address = some o.range) (ho' : at? rs o'.address = some o'.range)
    (h : o.address = o'.address) : o = o' := by
  have hrange : o.range = o'.range := Option.some.inj (ho.symm.trans (h ▸ ho'))
  cases o
  cases o'
  congr

/-- A range stands inside the span of every range around it, and deeper. -/
theorem placed_within_of_prefix (ho : at? rs o.address = some o.range)
    (ho' : at? rs o'.address = some o'.range) (h : o.address <+: o'.address)
    (hne : o.address ≠ o'.address) :
    (o.placed rs).start ≤ (o'.placed rs).start ∧ (o'.placed rs).stop ≤ (o.placed rs).stop ∧
      (o.placed rs).depth < (o'.placed rs).depth := by
  obtain ⟨a, r⟩ := o
  obtain ⟨a', r'⟩ := o'
  obtain ⟨b, rfl⟩ := h
  have ha := (ne_nil_of_at? ho).1
  have hb : b ≠ [] := by
    rintro rfl
    exact hne (List.append_nil _).symm
  dsimp only at ho ho' ha
  rw [at?_append ha hb, ho, Option.bind_some] at ho'
  obtain ⟨closing, htext⟩ := exists_text_eq r (ne_nil_of_at? ho').2
  obtain ⟨after, hchildren⟩ := exists_textAll_eq ho'
  have hbefore := congrArg String.length (textBefore_append ha hb ho)
  have hlength := congrArg String.length htext
  rw [hchildren] at hlength
  have hpos := List.length_pos_iff.mpr hb
  have hpos' := List.length_pos_iff.mpr ha
  simp only [String.length_append] at hbefore hlength
  simp only [Occurrence.placed, Occurrence.placedFrom, List.length_append]
  omega

end Range

end FormulaDoc
