import FormulaDoc.Rewrite
import Mathlib.Data.List.Nodup

namespace FormulaDoc

/-- What an edit draws fresh ids from: the candidates of a source from some place on, beside ids that
are taken. -/
structure Pool where
  candidate : Nat → Except SourceFault String
  first : Nat
  ids : List String

namespace Pool

/-- An id that is taken, or was a candidate before. -/
def Seen (p : Pool) (place : Nat) (id : String) : Prop :=
  id ∈ p.ids ∨ ∃ i, p.first ≤ i ∧ i < place ∧ p.candidate i = .ok id

/-- A candidate that is empty or was seen before. -/
def Unusable (p : Pool) (place : Nat) : Prop :=
  ∃ id, p.candidate place = .ok id ∧ (id = "" ∨ p.Seen place id)

/-- What an edit can fail with for want of ids: as many candidates in a row as are tried are unusable,
or one cannot be produced. -/
inductive Exhausted (p : Pool) : EditError → Prop
  | noFreshId {place : Nat} (hfirst : p.first ≤ place)
      (h : ∀ k < maxAttempts, p.Unusable (place + k)) : p.Exhausted .noFreshId
  | sourceFailed {place : Nat} {fault : SourceFault} (hfirst : p.first ≤ place)
      (h : p.candidate place = .error fault) : p.Exhausted (.sourceFailed fault)

theorem Seen.mono {p : Pool} {place place' : Nat} {id : String} (h : p.Seen place id)
    (hle : place ≤ place') : p.Seen place' id := by
  rcases h with h | ⟨i, hfirst, hi, hid⟩
  · exact .inl h
  · exact .inr ⟨i, hfirst, by omega, hid⟩

end Pool

namespace Minter

variable {m m' m'' : Minter} {p : Pool} {new new' : List String} {id : String}

/-- The candidates that a minter has still to draw, beside the given ids. -/
def pool (m : Minter) (ids : List String) : Pool :=
  ⟨m.source.candidate, m.source.drawn, ids⟩

/-- A minter on the candidates of a pool, to which nothing is taken that was not seen. -/
structure DrawsFrom (m : Minter) (p : Pool) : Prop where
  candidate : m.source.candidate = p.candidate
  first : p.first ≤ m.source.drawn
  seen : ∀ id ∈ m.taken, p.Seen m.source.drawn id

theorem drawsFrom_pool (m : Minter) (ids : List String) :
    { m with taken := ids }.DrawsFrom (m.pool ids) :=
  ⟨rfl, Nat.le_refl _, fun _ h => .inl h⟩

theorem DrawsFrom.retake {ids : List String} (hm : m.DrawsFrom p) (h : ∀ id ∈ ids, id ∈ m.taken) :
    { m with taken := ids }.DrawsFrom p := by
  have hseen : ∀ id ∈ ids, p.Seen m.source.drawn id := fun id hid => hm.seen id (h id hid)
  exact ⟨hm.candidate, hm.first, hseen⟩

/-- A minter after some ids were drawn. -/
structure Draws (m : Minter) (new : List String) (m' : Minter) : Prop where
  taken : m'.taken = new ++ m.taken
  nodup : new.Nodup
  ne_empty : "" ∉ new
  fresh : ∀ id ∈ new, id ∉ m.taken

theorem Draws.of_taken_eq (h : m'.taken = m.taken) : m.Draws [] m' := ⟨h, .nil, by simp, by simp⟩

theorem Draws.refl (m : Minter) : m.Draws [] m := .of_taken_eq rfl

theorem Draws.trans (h : m.Draws new m') (h' : m'.Draws new' m'') : m.Draws (new' ++ new) m'' := by
  have hfresh : ∀ id ∈ new', id ∉ new ∧ id ∉ m.taken := by
    intro id hid
    have hnot := h'.fresh id hid
    rw [h.taken, List.mem_append] at hnot
    exact ⟨fun hn => hnot (.inl hn), fun hn => hnot (.inr hn)⟩
  refine ⟨by rw [h'.taken, h.taken, List.append_assoc], ?_, ?_, ?_⟩
  · have hdisjoint : new'.Disjoint new := fun id hid hn => (hfresh id hid).1 hn
    rw [List.nodup_append']
    exact ⟨h'.nodup, h.nodup, hdisjoint⟩
  · rw [List.mem_append]
    rintro (hn | hn)
    · exact h'.ne_empty hn
    · exact h.ne_empty hn
  · intro id hid
    rcases List.mem_append.mp hid with hid | hid
    · exact (hfresh id hid).2
    · exact h.fresh id hid

section

variable (m : Minter) (attempts : Nat)

theorem search_of_error {fault : SourceFault} (h : m.source.candidate m.source.drawn = .error fault) :
    m.search (attempts + 1) = (.error (.sourceFailed fault), m) := by
  rw [search, h]

theorem search_of_unusable (h : m.source.candidate m.source.drawn = .ok id)
    (hid : id = "" ∨ id ∈ m.taken) : m.search (attempts + 1) = m.advance.search attempts := by
  rw [search, h]
  exact if_pos hid

theorem search_of_usable (h : m.source.candidate m.source.drawn = .ok id)
    (hid : ¬ (id = "" ∨ id ∈ m.taken)) :
    m.search (attempts + 1) = (.ok id, { m.advance with taken := id :: m.taken }) := by
  rw [search, h]
  exact if_neg hid

end

/-- The candidate that comes after `i` others. -/
def upcoming (m : Minter) (i : Nat) : Except SourceFault String :=
  m.source.candidate (m.source.drawn + i)

/-- The minter after the next `k` candidates were drawn. -/
def skip (m : Minter) (k : Nat) : Minter :=
  { m with source := { m.source with drawn := m.source.drawn + k } }

/-- A candidate that is passed over: it is empty or taken. -/
def PassesOver (m : Minter) (i : Nat) : Prop :=
  ∃ id, m.upcoming i = .ok id ∧ (id = "" ∨ id ∈ m.taken)

/-- What some attempts come to, and the minter that they leave. The candidates up to the first usable
one are drawn, or up to one that cannot be produced, or all of them; an id that is found is taken. -/
inductive Finds (m : Minter) (attempts : Nat) : Except EditError String → Minter → Prop
  | usable {k : Nat} {id : String} (hk : k < attempts) (hbefore : ∀ i < k, m.PassesOver i)
      (hid : m.upcoming k = .ok id) (hne : id ≠ "") (hfree : id ∉ m.taken) :
      m.Finds attempts (.ok id) { m.skip (k + 1) with taken := id :: m.taken }
  | nothing (hall : ∀ i < attempts, m.PassesOver i) :
      m.Finds attempts (.error .noFreshId) (m.skip attempts)
  | fault {k : Nat} {fault : SourceFault} (hk : k < attempts) (hbefore : ∀ i < k, m.PassesOver i)
      (hfault : m.upcoming k = .error fault) :
      m.Finds attempts (.error (.sourceFailed fault)) (m.skip k)

theorem advance_skip (m : Minter) (k : Nat) : (m.skip k).advance = m.skip (k + 1) := rfl

/-- A search goes on behind candidates that are passed over. -/
theorem search_skip {k : Nat} (h : ∀ i < k, m.PassesOver i) (attempts : Nat) :
    m.search (k + attempts) = (m.skip k).search attempts := by
  induction k generalizing attempts with
  | zero => rw [Nat.zero_add]; rfl
  | succ k ih =>
    obtain ⟨id, hid, hpass⟩ := h k (Nat.lt_succ_self k)
    have hstep := search_of_unusable (m.skip k) attempts hid hpass
    rw [Nat.succ_add_eq_add_succ, ih (fun i hi => h i (Nat.lt_succ_of_lt hi)), hstep, advance_skip]

theorem search_of_finds {attempts : Nat} {r : Except EditError String} (h : m.Finds attempts r m') :
    m.search attempts = (r, m') := by
  cases h with
  | usable hk hbefore hid hne hfree =>
    obtain ⟨rest, rfl⟩ := Nat.exists_eq_add_of_lt hk
    rw [Nat.add_assoc, search_skip hbefore]
    exact search_of_usable _ rest hid (not_or.mpr ⟨hne, hfree⟩)
  | nothing hall => exact search_skip hall 0
  | fault hk hbefore hfault =>
    obtain ⟨rest, rfl⟩ := Nat.exists_eq_add_of_lt hk
    rw [Nat.add_assoc, search_skip hbefore]
    exact search_of_error _ rest hfault

theorem exists_finds (m : Minter) (attempts : Nat) : ∃ r m', m.Finds attempts r m' := by
  induction attempts with
  | zero => exact ⟨_, _, .nothing fun i hi => absurd hi (Nat.not_lt_zero i)⟩
  | succ attempts ih =>
    obtain ⟨r, m', h⟩ := ih
    cases h with
    | usable hk hbefore hid hne hfree =>
      exact ⟨_, _, .usable (Nat.lt_succ_of_lt hk) hbefore hid hne hfree⟩
    | fault hk hbefore hfault => exact ⟨_, _, .fault (Nat.lt_succ_of_lt hk) hbefore hfault⟩
    | nothing hall =>
      -- only now the last attempt counts
      cases hc : m.upcoming attempts with
      | error fault => exact ⟨_, _, .fault (Nat.lt_succ_self _) hall hc⟩
      | ok id =>
        by_cases hpass : id = "" ∨ id ∈ m.taken
        · refine ⟨_, _, .nothing fun i hi => ?_⟩
          rcases Nat.lt_succ_iff_lt_or_eq.mp hi with hi | rfl
          · exact hall i hi
          · exact ⟨id, hc, hpass⟩
        · rw [not_or] at hpass
          exact ⟨_, _, .usable (Nat.lt_succ_self _) hall hc hpass.1 hpass.2⟩

/-- A search comes to exactly what is said of it. -/
theorem search_eq_iff {attempts : Nat} {r : Except EditError String} :
    m.search attempts = (r, m') ↔ m.Finds attempts r m' := by
  constructor
  · intro h
    obtain ⟨r', m'', hfinds⟩ := m.exists_finds attempts
    have hsame := (search_of_finds hfinds).symm.trans h
    obtain ⟨rfl, rfl⟩ := Prod.mk.inj hsame
    exact hfinds
  · exact search_of_finds

/-- A search that ends with an id draws it, and any other draws none. -/
theorem Finds.draws {attempts : Nat} {r : Except EditError String} (h : m.Finds attempts r m') :
    m.Draws r.toOption.toList m' := by
  cases h with
  | @usable k id hk hbefore hid hne hfree =>
    show m.Draws [id] _
    refine ⟨rfl, List.nodup_singleton id, ?_, ?_⟩
    · simpa using hne.symm
    · simpa using hfree
  | nothing | fault => exact .of_taken_eq rfl

theorem DrawsFrom.skip (hm : m.DrawsFrom p) (k : Nat) : (m.skip k).DrawsFrom p := by
  have hfirst : p.first ≤ m.source.drawn + k := Nat.le_add_right_of_le hm.first
  refine ⟨hm.candidate, hfirst, ?_⟩
  intro id hid
  exact (hm.seen id hid).mono (Nat.le_add_right _ k)

theorem DrawsFrom.unusable (hm : m.DrawsFrom p) {i : Nat} (h : m.PassesOver i) :
    p.Unusable (m.source.drawn + i) := by
  obtain ⟨id, hid, hpass⟩ := h
  refine ⟨id, hm.candidate ▸ hid, ?_⟩
  rcases hpass with hempty | htaken
  · exact .inl hempty
  · exact .inr ((hm.seen id htaken).mono (Nat.le_add_right _ i))

/-- A minter that found an id still draws from the same pool. -/
theorem Finds.drawsFrom {attempts : Nat} (h : m.Finds attempts (.ok id) m') (hm : m.DrawsFrom p) :
    m'.DrawsFrom p := by
  cases h with
  | @usable k _ hk hbefore hid hne hfree =>
    have hskip := hm.skip (k + 1)
    have hfirst : p.first ≤ m.source.drawn + k := Nat.le_add_right_of_le hm.first
    refine ⟨hskip.candidate, hskip.first, ?_⟩
    intro i hi
    rcases List.mem_cons.mp hi with rfl | hi
    · exact .inr ⟨_, hfirst, Nat.lt_succ_self _, hm.candidate ▸ hid⟩
    · exact hskip.seen i hi

/-- A search that finds no id is one that the pool is to blame for. -/
theorem Finds.exhausted {e : EditError} (h : m.Finds maxAttempts (.error e) m') (hm : m.DrawsFrom p) :
    p.Exhausted e := by
  cases h with
  | nothing hall =>
    have hunusable : ∀ i < maxAttempts, p.Unusable (m.source.drawn + i) :=
      fun i hi => hm.unusable (hall i hi)
    exact .noFreshId hm.first hunusable
  | fault hk hbefore hfault =>
    have hsource := (congrFun hm.candidate _).symm.trans hfault
    exact .sourceFailed (Nat.le_add_right_of_le hm.first) hsource

end Minter

namespace Minting

variable {α β : Type} {x : Minting α} {f : α → Minting β} {p : Pool} {m m' : Minter}

/-- From this minter on an edit gives a result as described, still drawing from the pool, or fails for
want of ids in it. -/
def Ensures (x : Minting α) (p : Pool) (m : Minter) (Q : α → Minter → Prop) : Prop :=
  match x.run m with
  | (.ok a, m') => m'.DrawsFrom p ∧ Q a m'
  | (.error e, _) => p.Exhausted e

theorem ensures_of_ok {Q : α → Minter → Prop} {a : α} (h : x.run m = (.ok a, m'))
    (hm' : m'.DrawsFrom p) (hQ : Q a m') : x.Ensures p m Q := by
  unfold Ensures
  rw [h]
  exact ⟨hm', hQ⟩

theorem ensures_of_error {Q : α → Minter → Prop} {e : EditError} (h : x.run m = (.error e, m'))
    (he : p.Exhausted e) : x.Ensures p m Q := by
  unfold Ensures
  rw [h]
  exact he

theorem run_bind (x : Minting α) (f : α → Minting β) (m : Minter) :
    (x >>= f).run m = match x.run m with
      | (.ok a, m') => (f a).run m'
      | (.error e, m') => (.error e, m') := by
  show (ExceptT.bindCont f (x.run m).1).run (x.run m).2 = _
  rcases x.run m with ⟨_ | _, _⟩ <;> rfl

theorem Ensures.bind {Q : α → Minter → Prop} {R : β → Minter → Prop} (h : x.Ensures p m Q)
    (hf : ∀ a m', x.run m = (.ok a, m') → m'.DrawsFrom p → Q a m' → (f a).Ensures p m' R) :
    (x >>= f).Ensures p m R := by
  have hrun := run_bind x f m
  unfold Ensures at h
  rcases hx : x.run m with ⟨e | a, m'⟩
  · rw [hx] at h hrun
    exact ensures_of_error hrun h
  · rw [hx] at h hrun
    have hnext := hf a m' hx h.1 h.2
    unfold Ensures at hnext ⊢
    rwa [hrun]

theorem ensures_pure {Q : α → Minter → Prop} {a : α} (hm : m.DrawsFrom p) (h : Q a m) :
    (pure a : Minting α).Ensures p m Q :=
  ⟨hm, h⟩

theorem Ensures.mono {Q R : α → Minter → Prop} (h : x.Ensures p m Q)
    (hQR : ∀ a m', Q a m' → R a m') : x.Ensures p m R := by
  unfold Ensures at h ⊢
  split at h
  next => exact ⟨h.1, hQR _ _ h.2⟩
  next => exact h

/-- A result that an edit gives is as described. -/
theorem Ensures.of_run {Q : α → Prop} {a : α} (h : x.Ensures p m fun a _ => Q a)
    (ha : (x.run m).1 = .ok a) : Q a := by
  unfold Ensures at h
  split at h
  next hrun =>
    rw [hrun] at ha
    cases ha
    exact h.2
  next hrun =>
    rw [hrun] at ha
    cases ha

/-- Minting draws one id. -/
theorem ensures_mint (hm : m.DrawsFrom p) : mint.Ensures p m fun id m' => m.Draws [id] m' := by
  obtain ⟨r, m', h⟩ := m.exists_finds maxAttempts
  have hrun := Minter.search_of_finds h
  cases r with
  | ok id => exact ensures_of_ok hrun (h.drawsFrom hm) h.draws
  | error e => exact ensures_of_error hrun (h.exhausted hm)

/-- Only the ids of the formula are taken from now on. -/
theorem ensures_mintBeside {f : Formula} (hm : { m with taken := f.ids }.DrawsFrom p) :
    (mintBeside f).Ensures p m fun _ m' => m' = { m with taken := f.ids } :=
  ⟨hm, rfl⟩

end Minting

end FormulaDoc
