import FormulaDoc.Caret
import FormulaDoc.Proofs.CarrierGaps
import Mathlib.Data.List.Pairwise

namespace FormulaDoc

/-- Whether a position lies in a span, the two ends included or excluded. -/
def Span.Holds (s : Span) (edges : Bool) (x : Int) : Prop :=
  if edges then s.start ≤ x ∧ x ≤ s.stop else s.start < x ∧ x < s.stop

theorem Span.holds_closed {s : Span} {x : Int} : s.Holds true x ↔ s.start ≤ x ∧ x ≤ s.stop := by
  simp [Holds]

theorem Span.holds_open {s : Span} {x : Int} : s.Holds false x ↔ s.start < x ∧ x < s.stop := by
  simp [Holds]

theorem Span.Holds.closed {s : Span} {x : Int} (h : s.Holds false x) : s.Holds true x := by
  rw [holds_open] at h
  rw [holds_closed]
  omega

theorem Placed.holds_iff {p : Placed} {k : Mark} (h : p.mark? = some k) (edges : Bool) (x : Int) :
    p.holds edges x ↔ k.span.Holds edges x := by
  obtain ⟨-, hstart, hstop, -⟩ := of_mark?_eq_some h
  cases edges <;> simp [holds, Span.Holds, hstart, hstop]

namespace Range

variable {rs : List Range} {edges : Bool} {x y : Int} {id : String} {active : List String}

/-- Nothing holds a position outside of the forest, which is why none is searched for there. -/
theorem mem_around {p : Placed} :
    p ∈ around rs edges x ↔ p ∈ placedAll 0 0 rs ∧ p.holds edges x := by
  unfold around
  split
  next hout =>
    refine iff_of_false List.not_mem_nil ?_
    rintro ⟨hp, hx⟩
    obtain ⟨-, -, hstop⟩ := bounds_of_mem_placedAll hp
    simp only [Bool.or_eq_true, decide_eq_true_eq] at hout
    cases edges <;> simp [Placed.holds] at hx <;> omega
  next => rw [List.mem_mergeSort, List.mem_filter]

theorem mem_idsAround :
    id ∈ idsAround rs edges x ↔ ∃ k ∈ marks 0 0 rs, k.id = id ∧ k.span.Holds edges x := by
  rw [idsAround, List.mem_filterMap]
  constructor
  · rintro ⟨p, hp, hid⟩
    obtain ⟨hp, hx⟩ := mem_around.mp hp
    have hstyled : p.mark?.isSome := by
      rw [p.isSome_mark?]
      unfold Placed.id? at hid
      cases hr : p.range with
      | plain t => simp [hr, Range.id?] at hid
      | styled => rfl
    obtain ⟨k, hk⟩ := Option.isSome_iff_exists.mp hstyled
    have hmem : k ∈ marks 0 0 rs := List.mem_filterMap.mpr ⟨p, hp, hk⟩
    have hkx : k.span.Holds edges x := (Placed.holds_iff hk edges x).mp hx
    have hkid := (Placed.of_mark?_eq_some hk).1
    rw [hkid] at hid
    exact ⟨k, hmem, Option.some.inj hid, hkx⟩
  · rintro ⟨k, hk, rfl, hx⟩
    obtain ⟨p, hp, hk⟩ := List.mem_filterMap.mp hk
    have hpx : p.holds edges x := (Placed.holds_iff hk edges x).mpr hx
    have hpid := (Placed.of_mark?_eq_some hk).1
    exact ⟨p, mem_around.mpr ⟨hp, hpx⟩, hpid⟩

/-- A move gives up one active id whose range was left, or else it adds one whose range was entered, or
else there is neither and nothing changes. -/
theorem nextActive_cases (rs : List Range) (x y : Int) (active : List String) :
    (∃ id ∈ active, id ∈ idsAround rs true x ∧ id ∉ idsAround rs true y ∧
      nextActive rs x y active = active.filter (· != id)) ∨
    (∀ id ∈ active, id ∈ idsAround rs true x → id ∈ idsAround rs true y) ∧
      ((∃ id, id ∉ active ∧ id ∈ idsAround rs false y ∧ id ∉ idsAround rs false x ∧
        nextActive rs x y active = id :: active) ∨
      (∀ id ∈ idsAround rs false y, id ∉ idsAround rs false x → id ∈ active) ∧
        nextActive rs x y active = active) := by
  unfold nextActive
  dsimp only
  split
  next _ _ id hleft =>
    have hmem := List.mem_of_head? hleft
    simp only [List.mem_filter, Bool.and_eq_true, Bool.not_eq_true', List.contains_iff_mem,
      Bool.eq_false_iff, ne_eq] at hmem
    exact .inl ⟨id, hmem.2.2, hmem.1, hmem.2.1, rfl⟩
  next _ _ id hleft hentered =>
    have hmem := List.mem_of_getLast? hentered
    rw [List.head?_eq_none_iff, List.filter_eq_nil_iff] at hleft
    simp only [List.mem_filter, Bool.and_eq_true, Bool.not_eq_true', List.contains_iff_mem,
      Bool.eq_false_iff, ne_eq] at hmem hleft
    refine .inr ⟨fun i hi hx => ?_, .inl ⟨id, hmem.2.2, hmem.1, hmem.2.1, rfl⟩⟩
    by_contra hy
    exact hleft i hx ⟨hy, hi⟩
  next hleft hentered =>
    rw [List.head?_eq_none_iff, List.filter_eq_nil_iff] at hleft
    rw [List.getLast?_eq_none_iff, List.filter_eq_nil_iff] at hentered
    simp only [Bool.and_eq_true, Bool.not_eq_true', List.contains_iff_mem,
      Bool.eq_false_iff, ne_eq] at hentered hleft
    refine .inr ⟨fun i hi hx => ?_, .inr ⟨fun i hy hx => ?_, rfl⟩⟩
    · by_contra hy
      exact hleft i hx ⟨hy, hi⟩
    · by_contra hi
      exact hentered i hy ⟨hx, hi⟩

end Range

namespace Gapped

variable {ms : List Mark} {k l : Mark} {x y : Int}

theorem apart (h : Gapped ms) (hk : k ∈ ms) (hl : l ∈ ms) (hne : k ≠ l) :
    k.span.Precedes l.span ∨ l.span.Precedes k.span := by
  have hsymm : Std.Symm fun k l : Mark => k.span.Precedes l.span ∨ l.span.Precedes k.span :=
    ⟨fun _ _ => Or.symm⟩
  have hpairwise : ms.Pairwise fun k l => k.span.Precedes l.span ∨ l.span.Precedes k.span :=
    h.pairwise.imp Or.inl
  exact hpairwise.forall hk hl hne

/-- Marks with one span are one mark. -/
theorem eq_of_span_eq (h : Gapped ms) (hk : k ∈ ms) (hl : l ∈ ms) (hspan : k.span = l.span) :
    k = l := by
  by_contra hne
  have hproper := h.proper l hl
  rcases h.apart hk hl hne with hp | hp <;> unfold Span.Precedes at hp <;> rw [hspan] at hp <;> omega

/-- No two ranges are left at once. -/
theorem eq_of_left (h : Gapped ms) (hxy : (y - x).natAbs ≤ 1) (hk : k ∈ ms) (hl : l ∈ ms)
    (hkx : k.span.Holds true x) (hky : ¬ k.span.Holds true y) (hlx : l.span.Holds true x)
    (hly : ¬ l.span.Holds true y) : k = l := by
  by_contra hne
  have hkproper := h.proper k hk
  have hlproper := h.proper l hl
  rw [Span.holds_closed] at hkx hky hlx hly
  rcases h.apart hk hl hne with hp | hp <;> unfold Span.Precedes at hp <;> omega

/-- No two ranges are entered at once. -/
theorem eq_of_entered (h : Gapped ms) (hxy : (y - x).natAbs ≤ 1) (hk : k ∈ ms) (hl : l ∈ ms)
    (hkx : ¬ k.span.Holds false x) (hky : k.span.Holds false y) (hlx : ¬ l.span.Holds false x)
    (hly : l.span.Holds false y) : k = l := by
  by_contra hne
  rw [Span.holds_open] at hkx hky hlx hly
  rcases h.apart hk hl hne with hp | hp <;> unfold Span.Precedes at hp <;> omega

/-- No range is entered where one is left. -/
theorem not_entered_of_left (h : Gapped ms) (hxy : (y - x).natAbs ≤ 1) (hk : k ∈ ms) (hl : l ∈ ms)
    (hkx : k.span.Holds true x) (hky : ¬ k.span.Holds true y) (hlx : ¬ l.span.Holds false x) :
    ¬ l.span.Holds false y := by
  intro hly
  have hkproper := h.proper k hk
  rw [Span.holds_closed] at hkx hky
  rw [Span.holds_open] at hlx hly
  have hne : k ≠ l := by
    rintro rfl
    omega
  rcases h.apart hk hl hne with hp | hp <;> unfold Span.Precedes at hp <;> omega

end Gapped

namespace Range

variable {rs : List Range} {x y : Int} {active : List String}

theorem exists_mem_flattenStyled {edges : Bool} {id : String} :
    (∃ p ∈ flattenStyled rs, p.id? = some id ∧ p.holds edges x) ↔ id ∈ idsAround rs edges x := by
  rw [mem_idsAround]
  constructor
  · rintro ⟨p, hp, hid, hx⟩
    obtain ⟨k, hk, hmark⟩ := exists_mark_of_mem_flattenStyled hp
    have hkx : k.span.Holds edges x := (Placed.holds_iff hmark edges x).mp hx
    rw [(Placed.of_mark?_eq_some hmark).1] at hid
    exact ⟨k, hk, Option.some.inj hid, hkx⟩
  · rintro ⟨k, hk, rfl, hx⟩
    obtain ⟨p, hp, hmark⟩ := List.mem_filterMap.mp hk
    have hpx : p.holds edges x := (Placed.holds_iff hmark edges x).mpr hx
    have hpid := (Placed.of_mark?_eq_some hmark).1
    have hstyled : p.range.isStyled := by
      rw [← p.isSome_mark?, hmark]
      rfl
    exact ⟨p, mem_flattenStyled.mpr ⟨hp, hstyled⟩, hpid, hpx⟩

/-- The active ids at a position: those of all ranges that hold it strictly inside, and no others than
those of ranges that it touches. -/
structure Tracks (rs : List Range) (x : Int) (active : List String) : Prop where
  inside : ∀ id ∈ idsAround rs false x, id ∈ active
  touched : ∀ id ∈ active, id ∈ idsAround rs true x

/-- Where styled ranges keep apart, a move by one character keeps track. -/
theorem Tracks.nextActive (h : Tracks rs x active) (hgap : Gapped (marks 0 0 rs))
    (hids : ∀ k ∈ marks 0 0 rs, ∀ l ∈ marks 0 0 rs, k.id = l.id → k = l) (hxy : (y - x).natAbs ≤ 1) :
    Tracks rs y (nextActive rs x y active) := by
  rcases nextActive_cases rs x y active with
    ⟨id, -, hidx, hidy, heq⟩ | ⟨hkeep, ⟨id, -, hidy, hidx, heq⟩ | ⟨hnone, heq⟩⟩
  · rw [heq]
    obtain ⟨k, hk, rfl, hkx⟩ := mem_idsAround.mp hidx
    have hky : ¬ k.span.Holds true y := fun hky => hidy (mem_idsAround.mpr ⟨k, hk, rfl, hky⟩)
    constructor
    · intro i hi
      obtain ⟨l, hl, rfl, hly⟩ := mem_idsAround.mp hi
      have hlx : l.span.Holds false x := by
        by_contra hlx
        exact hgap.not_entered_of_left hxy hk hl hkx hky hlx hly
      have hactive : l.id ∈ active := h.inside _ (mem_idsAround.mpr ⟨l, hl, rfl, hlx⟩)
      have hne : l.id ≠ k.id := by
        intro he
        rw [hids l hl k hk he] at hly
        exact hky hly.closed
      exact List.mem_filter.mpr ⟨hactive, by simpa using hne⟩
    · intro i hi
      obtain ⟨hi, hne⟩ := List.mem_filter.mp hi
      obtain ⟨l, hl, rfl, hlx⟩ := mem_idsAround.mp (h.touched i hi)
      by_contra hout
      have hly : ¬ l.span.Holds true y := fun hl' => hout (mem_idsAround.mpr ⟨l, hl, rfl, hl'⟩)
      have hsame := hgap.eq_of_left hxy hk hl hkx hky hlx hly
      rw [hsame] at hne
      simp at hne
  · rw [heq]
    obtain ⟨k, hk, rfl, hky⟩ := mem_idsAround.mp hidy
    have hkx : ¬ k.span.Holds false x := fun hkx => hidx (mem_idsAround.mpr ⟨k, hk, rfl, hkx⟩)
    constructor
    · intro i hi
      obtain ⟨l, hl, rfl, hly⟩ := mem_idsAround.mp hi
      by_cases hlx : l.span.Holds false x
      · have hactive : l.id ∈ active := h.inside _ (mem_idsAround.mpr ⟨l, hl, rfl, hlx⟩)
        exact List.mem_cons_of_mem _ hactive
      · rw [hgap.eq_of_entered hxy hk hl hkx hky hlx hly]
        exact List.mem_cons_self
    · intro i hi
      rcases List.mem_cons.mp hi with rfl | hi
      · exact mem_idsAround.mpr ⟨k, hk, rfl, hky.closed⟩
      · exact hkeep i hi (h.touched i hi)
  · rw [heq]
    constructor
    · intro i hi
      by_cases hix : i ∈ idsAround rs false x
      · exact h.inside i hix
      · exact hnone i hi hix
    · intro i hi
      exact hkeep i hi (h.touched i hi)

end Range

namespace Caret

/-- The active ids of a caret: those of all styled ranges that it is strictly inside of, and no others
than those of styled ranges that it touches. -/
def Tracks (c : Caret) : Prop :=
  (∀ p ∈ Range.flattenStyled c.ranges, ∀ id, p.id? = some id → p.holds false c.offset → id ∈ c.active) ∧
    ∀ id ∈ c.active, ∃ p ∈ Range.flattenStyled c.ranges, p.id? = some id ∧ p.holds true c.offset

theorem tracks_iff {c : Caret} : c.Tracks ↔ Range.Tracks c.ranges c.offset c.active := by
  constructor
  · rintro ⟨hinside, htouched⟩
    refine ⟨fun id hid => ?_, fun id hid => Range.exists_mem_flattenStyled.mp (htouched id hid)⟩
    obtain ⟨p, hp, hpid, hx⟩ := Range.exists_mem_flattenStyled.mpr hid
    exact hinside p hp id hpid hx
  · rintro ⟨hinside, htouched⟩
    refine ⟨fun p hp id hid hx => ?_,
      fun id hid => Range.exists_mem_flattenStyled.mpr (htouched id hid)⟩
    exact hinside id (Range.exists_mem_flattenStyled.mp ⟨p, hp, hid, hx⟩)

theorem ranges_foldl_move (c : Caret) (offsets : List Int) :
    (offsets.foldl move c).ranges = c.ranges := by
  induction offsets generalizing c with
  | nil => rfl
  | cons y offsets ih => exact ih (c.move y)

theorem offset_foldl_move (c : Caret) (offsets : List Int) :
    (offsets.foldl move c).offset = offsets.getLastD c.offset := by
  induction offsets generalizing c with
  | nil => rfl
  | cons y offsets ih =>
    rw [List.getLastD_cons]
    exact ih (c.move y)

/-- A run of moves by single characters keeps track. -/
theorem Tracks.foldl {c : Caret} {offsets : List Int} (h : c.Tracks)
    (hgap : Gapped (Range.marks 0 0 c.ranges))
    (hids : ∀ k ∈ Range.marks 0 0 c.ranges, ∀ l ∈ Range.marks 0 0 c.ranges, k.id = l.id → k = l)
    (hmoves : (c.offset :: offsets).IsChain fun x y => (y - x).natAbs ≤ 1) :
    (offsets.foldl move c).Tracks := by
  induction offsets generalizing c with
  | nil => exact h
  | cons y offsets ih =>
    obtain ⟨hy, hrest⟩ := List.isChain_cons_cons.mp hmoves
    have hnext := (tracks_iff.mp h).nextActive hgap hids hy
    have hmove : (c.move y).Tracks := tracks_iff.mpr hnext
    exact ih hmove hgap hids hrest

end Caret

namespace Formula

theorem eq_of_mark_id_eq {f : Formula} (h : f.PlainTexts) (hgap : Gapped (Range.marks 0 0 f.ranges))
    {k l : Mark} (hk : k ∈ Range.marks 0 0 f.ranges) (hl : l ∈ Range.marks 0 0 f.ranges)
    (he : k.id = l.id) : k = l := by
  refine hgap.eq_of_span_eq hk hl ?_
  rw [marks_ranges h] at hk hl
  have hspan := span?_of_mem_marks hk
  rw [he, span?_of_mem_marks hl] at hspan
  exact (Option.some.inj hspan).symm

/-- Where no style carrier stands below a text and every variable is written as something, a caret
that starts strictly inside of no styled range keeps track of them as long as it moves by at most one
character at a time, to whatever side and also outside of the markup. -/
theorem tracks_foldl_move (f : Formula) (htexts : ∀ t ∈ f.nodes, t.kind = .text → t.Unstyled)
    (hvars : ∀ id latex, Node.var id latex ∈ f.nodes → latex ≠ "") (start : Int)
    (hstart : ∀ p ∈ Range.flattenStyled f.ranges, ¬ p.holds false start) (offsets : List Int)
    (hmoves : (start :: offsets).IsChain fun x y => (y - x).natAbs ≤ 1) :
    (offsets.foldl Caret.move (Caret.start f.ranges start)).ranges = f.ranges ∧
    (offsets.foldl Caret.move (Caret.start f.ranges start)).offset = offsets.getLastD start ∧
    (offsets.foldl Caret.move (Caret.start f.ranges start)).Tracks := by
  have hnamed : ∀ v ∈ f.nodes, ∀ id, v ≠ .var id "" := by
    intro v hv id he
    rw [he] at hv
    exact hvars id "" hv rfl
  have hgap : Gapped (Range.marks 0 0 f.ranges) := f.gapped_marks htexts hnamed
  have hids : ∀ k ∈ Range.marks 0 0 f.ranges, ∀ l ∈ Range.marks 0 0 f.ranges, k.id = l.id → k = l :=
    fun k hk l hl he => eq_of_mark_id_eq htexts hgap hk hl he
  have hbegin : (Caret.start f.ranges start).Tracks := by
    constructor
    · intro p hp id _ hx
      exact absurd hx (hstart p hp)
    · intro id hid
      cases hid
  have htracks := hbegin.foldl hgap hids hmoves
  exact ⟨Caret.ranges_foldl_move _ offsets, Caret.offset_foldl_move _ offsets, htracks⟩

/-- A caret goes into a variable that is colored. -/
theorem tracks_foldl_move_of_color : ∃ f : Formula, ∃ offsets : List Int,
    f.children = [.color "c" "red" [.var "v" "xy"]] ∧
    offsets = (List.range 18).map Int.ofNat ∧
    (∀ t ∈ f.nodes, t.kind = .text → t.Unstyled) ∧
    (∀ id latex, Node.var id latex ∈ f.nodes → latex ≠ "") ∧
    (∀ p ∈ Range.flattenStyled f.ranges, ¬ p.holds false (-1)) ∧
    ((-1) :: offsets).IsChain (fun x y => (y - x).natAbs ≤ 1) ∧
    (offsets.foldl Caret.move (Caret.start f.ranges (-1))).ranges = f.ranges ∧
    (offsets.foldl Caret.move (Caret.start f.ranges (-1))).offset = offsets.getLastD (-1) ∧
    (offsets.foldl Caret.move (Caret.start f.ranges (-1))).Tracks := by
  let f : Formula := ⟨[.color "c" "red" [.var "v" "xy"]], by decide +kernel⟩
  let offsets : List Int := (List.range 18).map Int.ofNat
  have htexts : ∀ t ∈ f.nodes, t.kind = .text → t.Unstyled := by decide +kernel
  have hnodes : f.nodes = [.color "c" "red" [.var "v" "xy"], .var "v" "xy"] := by decide +kernel
  have hvars : ∀ id latex, Node.var id latex ∈ f.nodes → latex ≠ "" := by
    intro id latex h
    rw [hnodes] at h
    simp only [List.mem_cons, reduceCtorEq, Node.var.injEq, List.not_mem_nil, or_false,
      false_or] at h
    rw [h.2]
    decide
  have hstart : ∀ p ∈ Range.flattenStyled f.ranges, ¬ p.holds false (-1) := by
    have hplaced : ∀ p ∈ Range.placedAll 0 0 f.ranges, ¬ p.holds false (-1) := by decide +kernel
    exact fun p hp => hplaced p (Range.mem_flattenStyled.mp hp).1
  have hmoves : ((-1) :: offsets).IsChain (fun x y => (y - x).natAbs ≤ 1) := by decide +kernel
  exact ⟨f, offsets, rfl, rfl, htexts, hvars, hstart, hmoves,
    f.tracks_foldl_move htexts hvars (-1) hstart offsets hmoves⟩

end Formula

end FormulaDoc
