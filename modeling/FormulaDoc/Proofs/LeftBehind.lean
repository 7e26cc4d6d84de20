import FormulaDoc.Proofs.CaretTracking

namespace FormulaDoc

namespace Caret

/-- Whether a position lies in a styled range with this id, its ends included. -/
def Touches (c : Caret) (x : Int) (id : String) : Prop :=
  ∃ p ∈ Range.flattenStyled c.ranges, p.id? = some id ∧ p.holds true x

/-- Whether a move takes the caret out of an active range. -/
def Leaves (c : Caret) (y : Int) (id : String) : Prop :=
  id ∈ c.active ∧ c.Touches c.offset id ∧ ¬ c.Touches y id

/-- Whether some move of a run took the caret out of a range and out of another active one at once, and
no later move brought it back to that range. -/
def LeftBehind (c : Caret) (offsets : List Int) (id : String) : Prop :=
  ∃ before y after, offsets = before ++ y :: after ∧ (before.foldl move c).Leaves y id ∧
    (∃ other ≠ id, (before.foldl move c).Leaves y other) ∧ ∀ z ∈ after, ¬ c.Touches z id

variable {c : Caret} {offsets : List Int} {x y : Int} {id : String}

theorem touches_iff_mem : c.Touches x id ↔ id ∈ Range.idsAround c.ranges true x :=
  Range.exists_mem_flattenStyled

theorem touches_foldl_move : (offsets.foldl move c).Touches x id ↔ c.Touches x id := by
  rw [Touches, Touches, ranges_foldl_move]

theorem not_leaves_of_keeps (hkeep : ∀ id ∈ c.active, id ∈ Range.idsAround c.ranges true c.offset →
    id ∈ Range.idsAround c.ranges true y) (id : String) : ¬ c.Leaves y id :=
  fun ⟨hid, hx, hy⟩ => hy (touches_iff_mem.mpr (hkeep id hid (touches_iff_mem.mp hx)))

/-- A move gives up one of the ranges that it leaves, or it leaves none; then no id is given up, and one
that is new belongs to a range that the caret is in. -/
theorem move_cases (c : Caret) (y : Int) :
    (∃ id, c.Leaves y id ∧ (c.move y).active = c.active.filter (· != id)) ∨
      (∀ id, ¬ c.Leaves y id) ∧ (∀ id ∈ c.active, id ∈ (c.move y).active) ∧
        ∀ id ∈ (c.move y).active, id ∈ c.active ∨ c.Touches y id := by
  rcases Range.nextActive_cases c.ranges c.offset y c.active with
    ⟨id, hid, hx, hy, heq⟩ | ⟨hkeep, ⟨id, -, hy, -, heq⟩ | ⟨-, heq⟩⟩
  · exact .inl ⟨id, ⟨hid, touches_iff_mem.mpr hx, fun h => hy (touches_iff_mem.mp h)⟩, heq⟩
  · have hmove : (c.move y).active = id :: c.active := heq
    refine .inr ⟨not_leaves_of_keeps hkeep, fun i hi => ?_, fun i hi => ?_⟩
    · rw [hmove]
      exact List.mem_cons_of_mem _ hi
    · rw [hmove] at hi
      rcases List.mem_cons.mp hi with rfl | hi
      · obtain ⟨k, hk, hkid, hky⟩ := Range.mem_idsAround.mp hy
        exact .inr (touches_iff_mem.mpr (Range.mem_idsAround.mpr ⟨k, hk, hkid, hky.closed⟩))
      · exact .inl hi
  · have hmove : (c.move y).active = c.active := heq
    rw [hmove]
    exact .inr ⟨not_leaves_of_keeps hkeep, fun _ hi => hi, fun _ hi => .inl hi⟩

/-- An active range that a move does not reach was left by the move together with another one, or it was
out of reach before. -/
theorem leaves_of_not_touches (hid : id ∈ (c.move y).active) (hy : ¬ c.Touches y id) :
    (c.Leaves y id ∧ ∃ other ≠ id, c.Leaves y other) ∨ id ∈ c.active ∧ ¬ c.Touches c.offset id := by
  rcases c.move_cases y with ⟨other, hother, heq⟩ | ⟨hnone, -, hmem⟩
  · rw [heq, List.mem_filter, bne_iff_ne] at hid
    by_cases hx : c.Touches c.offset id
    · exact .inl ⟨⟨hid.1, hx, hy⟩, other, fun he => hid.2 he.symm, hother⟩
    · exact .inr ⟨hid.1, hx⟩
  · have hactive := (hmem id hid).resolve_right hy
    exact .inr ⟨hactive, fun hx => hnone id ⟨hactive, hx, hy⟩⟩

/-- A range that was left behind is not touched. -/
theorem LeftBehind.not_touches (h : c.LeftBehind offsets id) :
    ¬ c.Touches (offsets.foldl move c).offset id := by
  obtain ⟨before, y, after, rfl, ⟨-, -, hy⟩, -, hafter⟩ := h
  rw [touches_foldl_move] at hy
  rw [offset_foldl_move, List.getLastD_eq_getLast?, List.getLast?_append_cons]
  have hlast := List.getLast?_eq_some_getLast (List.cons_ne_nil y after)
  rw [hlast, Option.getD_some]
  rcases List.mem_cons.mp (List.getLast_mem (List.cons_ne_nil y after)) with heq | hmem
  · rwa [heq]
  · exact hafter _ hmem

/-- An active range that the caret is not at was left behind. -/
theorem leftBehind_of_not_touches (hstart : ∀ id ∈ c.active, c.Touches c.offset id)
    (hid : id ∈ (offsets.foldl move c).active)
    (hoff : ¬ c.Touches (offsets.foldl move c).offset id) : c.LeftBehind offsets id := by
  induction offsets using List.reverseRecOn with
  | nil => exact absurd (hstart id hid) hoff
  | append_singleton offsets y ih =>
    rw [List.foldl_append, List.foldl_cons, List.foldl_nil] at hid hoff
    rcases leaves_of_not_touches hid (mt touches_foldl_move.mp hoff) with
      ⟨hleaves, hother⟩ | ⟨hactive, hx⟩
    · exact ⟨offsets, y, [], rfl, hleaves, hother, by simp⟩
    · -- it was stale before the move, and the move does not reach it
      obtain ⟨before, z, after, rfl, hleaves, hother, hafter⟩ :=
        ih hactive (mt touches_foldl_move.mpr hx)
      refine ⟨before, z, after ++ [y], by simp, hleaves, hother, fun u hu => ?_⟩
      rcases List.mem_append.mp hu with hu | hu
      · exact hafter u hu
      · rw [List.mem_singleton.mp hu]
        exact hoff

/-- A move that changes no active id leaves none behind. -/
theorem LeftBehind.of_rest (h : c.LeftBehind (offsets ++ [y]) id)
    (hrest : ∀ id, id ∈ ((offsets.foldl move c).move y).active ↔ id ∈ (offsets.foldl move c).active) :
    c.LeftBehind offsets id := by
  obtain ⟨before, z, after, heq, hleaves, hother, hafter⟩ := h
  rcases List.eq_nil_or_concat after with rfl | ⟨after, u, rfl⟩
  · obtain ⟨rfl, hz⟩ := List.append_inj' heq rfl
    obtain rfl : y = z := by simpa using hz
    rcases (offsets.foldl move c).move_cases y with ⟨given, hgiven, hmove⟩ | ⟨hnone, -⟩
    · have hactive := (hrest given).mpr hgiven.1
      rw [hmove] at hactive
      simp at hactive
    · exact absurd hleaves (hnone id)
  · rw [List.concat_eq_append, ← List.cons_append, ← List.append_assoc] at heq
    obtain ⟨rfl, -⟩ := List.append_inj' heq rfl
    exact ⟨before, z, after, rfl, hleaves, hother, fun v hv => hafter v (by simp [hv])⟩

/-- After every run of moves the caret is at the ranges of its active ids, apart from those that were left
behind. Where the last move changed no active id, these were left behind before it. -/
theorem touches_iff_not_leftBehind (rs : List Range) (start y : Int) (offsets : List Int) :
    (∀ id ∈ ((offsets.foldl move (Caret.start rs start)).move y).active,
      (∃ p ∈ Range.flattenStyled rs, p.id? = some id ∧ p.holds true y) ↔
        ¬ (Caret.start rs start).LeftBehind (offsets ++ [y]) id) ∧
    ((∀ id, id ∈ ((offsets.foldl move (Caret.start rs start)).move y).active ↔
        id ∈ (offsets.foldl move (Caret.start rs start)).active) →
      ∀ id, (Caret.start rs start).LeftBehind (offsets ++ [y]) id →
        (Caret.start rs start).LeftBehind offsets id) := by
  have hrun : (offsets ++ [y]).foldl move (Caret.start rs start) =
      (offsets.foldl move (Caret.start rs start)).move y := by
    rw [List.foldl_append, List.foldl_cons, List.foldl_nil]
  constructor
  · intro id hid
    constructor
    · intro htouched hleft
      have hoff := hleft.not_touches
      rw [hrun] at hoff
      exact hoff htouched
    · intro hleft
      by_contra hoff
      have hnone : ∀ i ∈ (Caret.start rs start).active,
          (Caret.start rs start).Touches (Caret.start rs start).offset i := by
        intro i hi
        cases hi
      rw [← hrun] at hid
      refine hleft (leftBehind_of_not_touches hnone hid ?_)
      rwa [hrun]
  · intro hrest id hleft
    exact hleft.of_rest hrest

/-- A caret that jumps out of two ranges at once keeps the outer one, and moves on with it. -/
theorem active_outside : ∃ (rs : List Range) (offsets : List Int),
    rs = [.styled "c" "(" [.styled "b" "[" [.plain "a"] "]" none] ")" none] ∧
    ((Range.flattenStyled rs).filterMap Placed.id?).Nodup ∧
    (offsets.foldl move (Caret.start rs 0)).active = ["c"] ∧
    ((offsets.foldl move (Caret.start rs 0)).move 7).active = ["c"] ∧
    ¬ ∃ p ∈ Range.flattenStyled rs, p.id? = some "c" ∧ p.holds true 7 := by
  let b : Range := .styled "b" "[" [.plain "a"] "]" none
  let c : Range := .styled "c" "(" [b] ")" none
  have hplaced : Range.placedAll 0 0 [c] = [⟨0, 5, 0, c⟩, ⟨1, 4, 1, b⟩, ⟨2, 3, 2, .plain "a"⟩] := by decide
  have hlength : Range.lengthAll [c] = 5 := by decide
  have ha : (Range.plain "a").id? = none := rfl
  have hb : b.id? = some "b" := rfl
  have hc : c.id? = some "c" := rfl
  have hin : Range.idsAround [c] true 0 = ["c"] ∧ Range.idsAround [c] true 1 = ["b", "c"] ∧
      Range.idsAround [c] true 2 = ["b", "c"] := by
    simp [Range.idsAround, Range.around, hlength, hplaced, Placed.holds, Placed.id?, ha, hb, hc,
      List.mergeSort, List.MergeSort.Internal.splitInTwo]
  have hon : Range.idsAround [c] false 0 = [] ∧ Range.idsAround [c] false 1 = ["c"] ∧
      Range.idsAround [c] false 2 = ["b", "c"] := by
    simp [Range.idsAround, Range.around, hlength, hplaced, Placed.holds, Placed.id?, hb, hc,
      List.mergeSort, List.MergeSort.Internal.splitInTwo]
  have hout : ∀ edges, Range.idsAround [c] edges 6 = [] ∧ Range.idsAround [c] edges 7 = [] := by
    simp [Range.idsAround, Range.around, hlength]
  have hrun : ([1, 2, 6].foldl move (Caret.start [c] 0)).active = ["c"] := by
    simp [move, start, nextActive, hin, hon, hout]
  refine ⟨[c], [1, 2, 6], rfl, ?_, hrun, ?_, ?_⟩
  · simp [Range.flattenStyled, hplaced, Range.isStyled, Placed.id?, List.mergeSort,
      List.MergeSort.Internal.splitInTwo, b, c, Range.id?]
  · have hmove : (([1, 2, 6].foldl move (Caret.start [c] 0)).move 7).active =
        ([1, 2, 6].foldl move (Caret.start [c] 0)).active := by
      simp [move, start, nextActive, hin, hon, hout]
    rw [hmove, hrun]
  · rintro ⟨p, hp, hid, hx⟩
    have hmem := (Range.mem_flattenStyled.mp hp).1
    rw [hplaced] at hmem
    simp only [List.mem_cons, List.not_mem_nil, or_false] at hmem
    rcases hmem with rfl | rfl | rfl <;> simp [Placed.holds] at hx

end Caret

end FormulaDoc
