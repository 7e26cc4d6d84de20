import FormulaDoc.Proofs.LeftBehind

namespace FormulaDoc

namespace Caret

/-- What happens to a caret: a move in its text, or an edit that brings another forest. -/
inductive Event where
  | move (offset : Int)
  | edit (ranges : List Range) (offset : Int)

namespace Event

/-- Where the caret is after an event. -/
def offset : Event → Int
  | move x => x
  | edit _ x => x

def forest? : Event → Option (List Range)
  | move _ => none
  | edit rs _ => some rs

end Event

def step (c : Caret) : Event → Caret
  | .move x => c.move x
  | .edit rs x => c.replaceRanges rs x

/-- A caret that began at an offset in a forest, after all that happened to it. -/
def after (rs : List Range) (start : Int) (events : List Event) : Caret :=
  events.foldl step (Caret.start rs start)

/-- Whether a styled range with this id is in the forest of a caret. -/
def Shows (c : Caret) (id : String) : Prop :=
  ∃ p ∈ Range.flattenStyled c.ranges, p.id? = some id

/-- Whether a position lies strictly in a styled range with this id. -/
def Inside (c : Caret) (x : Int) (id : String) : Prop :=
  ∃ p ∈ Range.flattenStyled c.ranges, p.id? = some id ∧ p.holds false x

/-- Whether a move takes the caret into an inactive range. -/
def Enters (c : Caret) (y : Int) (id : String) : Prop :=
  id ∉ c.active ∧ c.Inside y id ∧ ¬ c.Inside c.offset id

/-- At most one id changes in a move: one that is left is given up; only where none is left, one that is
entered is added; where none is entered either, nothing changes. -/
def ChangesOne (c : Caret) (y : Int) : Prop :=
  (∃ id, c.Leaves y id ∧ ∀ i, i ∈ (c.move y).active ↔ i ∈ c.active ∧ i ≠ id) ∨
  (∀ id, ¬ c.Leaves y id) ∧
    ((∃ id, c.Enters y id ∧ ∀ i, i ∈ (c.move y).active ↔ i ∈ c.active ∨ i = id) ∨
      (∀ id, ¬ c.Enters y id) ∧ ∀ i, i ∈ (c.move y).active ↔ i ∈ c.active)

variable {c : Caret} {x y : Int} {id : String}

theorem inside_iff_mem : c.Inside x id ↔ id ∈ Range.idsAround c.ranges false x :=
  Range.exists_mem_flattenStyled

theorem Inside.shows (h : c.Inside x id) : c.Shows id := by
  obtain ⟨p, hp, hid, -⟩ := h
  exact ⟨p, hp, hid⟩

theorem changesOne (c : Caret) (y : Int) : c.ChangesOne y := by
  rcases Range.nextActive_cases c.ranges c.offset y c.active with
    ⟨id, hid, hx, hy, heq⟩ | ⟨hkeep, ⟨id, hid, hy, hx, heq⟩ | ⟨hall, heq⟩⟩
  · have hleaves : c.Leaves y id := ⟨hid, touches_iff_mem.mpr hx, mt touches_iff_mem.mp hy⟩
    refine .inl ⟨id, hleaves, fun i => ?_⟩
    rw [move, heq, List.mem_filter, bne_iff_ne]
  · have hnone := not_leaves_of_keeps hkeep
    have henters : c.Enters y id := ⟨hid, inside_iff_mem.mpr hy, mt inside_iff_mem.mp hx⟩
    refine .inr ⟨hnone, .inl ⟨id, henters, fun i => ?_⟩⟩
    rw [move, heq, List.mem_cons, or_comm]
  · have hnone := not_leaves_of_keeps hkeep
    have hstays : ∀ id, ¬ c.Enters y id := by
      rintro id ⟨hid, hy, hx⟩
      have hactive := hall id (inside_iff_mem.mp hy) (mt inside_iff_mem.mpr hx)
      exact hid hactive
    refine .inr ⟨hnone, .inr ⟨hstays, fun i => ?_⟩⟩
    rw [move, heq]

/-- An edit keeps the active ids that its forest shows, and no others. -/
theorem mem_active_replaceRanges (c : Caret) (rs : List Range) (y : Int) :
    id ∈ (c.replaceRanges rs y).active ↔ id ∈ c.active ∧ (c.replaceRanges rs y).Shows id := by
  simp only [replaceRanges, Shows, List.mem_filter, List.contains_iff_mem, List.mem_filterMap]

/-- The active ids of a caret are different, and all of them belong to its forest. -/
structure Sound (c : Caret) : Prop where
  nodup : c.active.Nodup
  shows : ∀ id ∈ c.active, c.Shows id

theorem Sound.move (h : c.Sound) (y : Int) : (c.move y).Sound := by
  rcases Range.nextActive_cases c.ranges c.offset y c.active with
    ⟨id, -, -, -, heq⟩ | ⟨-, ⟨id, hid, hy, -, heq⟩ | ⟨-, heq⟩⟩
  · have hmove : (c.move y).active = c.active.filter (· != id) := heq
    refine ⟨hmove ▸ h.nodup.filter _, fun i hi => ?_⟩
    rw [hmove] at hi
    exact h.shows i (List.mem_filter.mp hi).1
  · have hmove : (c.move y).active = id :: c.active := heq
    refine ⟨hmove ▸ List.nodup_cons.mpr ⟨hid, h.nodup⟩, fun i hi => ?_⟩
    rw [hmove] at hi
    rcases List.mem_cons.mp hi with rfl | hi
    · exact (inside_iff_mem.mpr hy).shows
    · exact h.shows i hi
  · have hmove : (c.move y).active = c.active := heq
    exact ⟨hmove ▸ h.nodup, fun i hi => h.shows i (hmove ▸ hi)⟩

theorem Sound.step (h : c.Sound) (e : Event) : (c.step e).Sound := by
  cases e with
  | move y => exact h.move y
  | edit rs y =>
    have hnodup : (c.replaceRanges rs y).active.Nodup := h.nodup.filter _
    have hshown : ∀ id ∈ (c.replaceRanges rs y).active, ∃ p ∈ Range.flattenStyled rs, p.id? = some id := by
      intro id hid
      exact ((mem_active_replaceRanges c rs y).mp hid).2
    exact ⟨hnodup, hshown⟩

theorem sound_after (rs : List Range) (start : Int) (events : List Event) :
    (after rs start events).Sound := by
  induction events using List.reverseRecOn with
  | nil => exact ⟨.nil, fun id hid => absurd hid List.not_mem_nil⟩
  | append_singleton events e ih =>
    rw [after, List.foldl_append]
    exact ih.step e

theorem ranges_after (rs : List Range) (start : Int) (events : List Event) :
    (after rs start events).ranges = (events.filterMap Event.forest?).getLastD rs := by
  induction events using List.reverseRecOn with
  | nil => rfl
  | append_singleton events e ih =>
    rw [after, List.foldl_append, ← after, List.filterMap_append]
    cases e with
    | move y => simpa [step, move, Event.forest?] using ih
    | edit rs y => simp [step, replaceRanges, Event.forest?]

theorem offset_after (rs : List Range) (start : Int) (events : List Event) :
    (after rs start events).offset = (events.map Event.offset).getLastD start := by
  induction events using List.reverseRecOn with
  | nil => rfl
  | append_singleton events e ih =>
    rw [after, List.foldl_append, List.map_append]
    cases e <;> simp [step, move, replaceRanges, Event.offset]

/-- After all moves and edits the active ids are different and belong to styled ranges of the last forest.
A further edit keeps those that its forest shows and adds none, and a further move changes one at most. -/
theorem active_after (rs : List Range) (start : Int) (events : List Event) :
    (after rs start events).ranges = (events.filterMap Event.forest?).getLastD rs ∧
    (after rs start events).offset = (events.map Event.offset).getLastD start ∧
    (after rs start events).active.Nodup ∧
    (∀ id ∈ (after rs start events).active,
      ∃ p ∈ Range.flattenStyled (after rs start events).ranges, p.id? = some id) ∧
    (∀ forest y id, id ∈ ((after rs start events).replaceRanges forest y).active ↔
      id ∈ (after rs start events).active ∧ ∃ p ∈ Range.flattenStyled forest, p.id? = some id) ∧
    ∀ y, (after rs start events).ChangesOne y := by
  have hsound : (after rs start events).Sound := sound_after rs start events
  refine ⟨ranges_after rs start events, offset_after rs start events, hsound.nodup, hsound.shows, ?_, ?_⟩
  · intro forest y id
    exact mem_active_replaceRanges (after rs start events) forest y
  · intro y
    exact changesOne (after rs start events) y

end Caret

end FormulaDoc
