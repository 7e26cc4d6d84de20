import FormulaDoc.Proofs.Stability

namespace FormulaDoc

/-- The text without its escapes: each backslash is dropped with the character behind it. -/
def withoutEscapes : List Char → List Char
  | [] => []
  | ['\\'] => []
  | '\\' :: _ :: s => withoutEscapes s
  | c :: s => c :: withoutEscapes s

/-- A text that closes braces only after they were opened, and closes all of them. -/
structure WellNested (s : List Char) : Prop where
  opened : ∀ p, p <+: s → p.count '}' ≤ p.count '{'
  closed : s.count '}' = s.count '{'

namespace WellNested

variable {a b s : List Char} {c : Char}

theorem nil : WellNested [] :=
  ⟨fun p hp => by simp [List.prefix_nil.mp hp], rfl⟩

theorem plain (hopen : c ≠ '{') (hclose : c ≠ '}') (h : WellNested s) : WellNested (c :: s) := by
  constructor
  · intro p hp
    rcases List.prefix_cons_iff.mp hp with rfl | ⟨q, rfl, hq⟩
    · simp
    · simpa [hopen, hclose] using h.opened q hq
  · simpa [hopen, hclose] using h.closed

theorem group (ha : WellNested a) (hb : WellNested b) : WellNested ('{' :: (a ++ '}' :: b)) := by
  have hclosed := ha.closed
  constructor
  · intro p hp
    rcases List.prefix_cons_iff.mp hp with rfl | ⟨q, rfl, r, hr⟩
    · simp
    -- the prefix ends inside the group, or goes on behind the brace that closes it
    rcases List.append_eq_append_iff.mp hr with ⟨t, rfl, -⟩ | ⟨t, rfl, ht⟩
    · have hinner := ha.opened q ⟨t, rfl⟩
      simp
      omega
    · rcases List.cons_eq_append_iff.mp ht with ⟨rfl, -⟩ | ⟨u, rfl, hu⟩
      · simp [hclosed]
      · have houter := hb.opened u ⟨r, hu.symm⟩
        simp
        omega
  · have houter := hb.closed
    simp
    omega

end WellNested

/-- Balanced text ends no escape halfway. -/
theorem Balanced.withoutEscapes_append {a : List Char} (ha : Balanced a) (s : List Char) :
    withoutEscapes (a ++ s) = withoutEscapes a ++ withoutEscapes s := by
  induction ha generalizing s with
  | nil => rfl
  | escaped c _ ih => exact ih s
  | @plain c a hesc _ _ _ ih =>
    rw [List.cons_append, withoutEscapes, withoutEscapes, ih, List.cons_append]
    all_goals simp [hesc]
  | @group a b _ _ iha ihb =>
    have hsplit : '{' :: (a ++ '}' :: b) ++ s = '{' :: (a ++ '}' :: (b ++ s)) := by simp
    rw [hsplit]
    simp [withoutEscapes, iha, ihb]

theorem Balanced.wellNested {s : List Char} (hs : Balanced s) : WellNested (withoutEscapes s) := by
  induction hs with
  | nil => exact .nil
  | escaped c _ ih => exact ih
  | plain hesc hopen hclose _ ih =>
    rw [withoutEscapes]
    · exact ih.plain hopen hclose
    all_goals simp [hesc]
  | @group a b ha _ iha ihb =>
    have hsplit : withoutEscapes ('{' :: (a ++ '}' :: b)) =
        '{' :: (withoutEscapes a ++ '}' :: withoutEscapes b) := by
      simp [withoutEscapes, ha.withoutEscapes_append]
    rw [hsplit]
    exact iha.group ihb

/-- Of an accepted text, read from left to right without its escapes, no prefix closes more braces
than it opens, and the whole closes as many. -/
theorem Formula.wellNested_of_parse {text : String} {f : Formula}
    (h : Formula.parse [] text = .ok f) : WellNested (withoutEscapes text.toList) := by
  obtain ⟨ns, hread, -⟩ := parse_eq_ok h
  exact (balanced_of_siblings hread).wellNested

/-- Braces behind a backslash do not count, in a group or behind it. -/
theorem Formula.wellNested_of_parse_escaped :
    (∃ f, Formula.parse [] "x_\x7b\\\x7d\x7d\\\x7b" = .ok f) ∧
      WellNested (withoutEscapes "x_\x7b\\\x7d\x7d\\\x7b".toList) := by
  have hparse : (Formula.parse [] "x_\x7b\\\x7d\x7d\\\x7b").toOption.any fun _ => True := by
    decide +kernel
  obtain ⟨f, hf, -⟩ := exists_ok_of_any hparse
  exact ⟨⟨f, hf⟩, Formula.wellNested_of_parse hf⟩

end FormulaDoc
