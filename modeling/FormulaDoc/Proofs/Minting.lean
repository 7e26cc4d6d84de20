import FormulaDoc.Proofs.FreshIds

namespace FormulaDoc

/-- The ids among what some attempts gave. -/
def minted (results : List (Except EditError String)) : List String :=
  results.filterMap Except.toOption

namespace Minter

variable {m m' : Minter} {r : Except EditError String} {results : List (Except EditError String)}

/-- Attempts in a row, each on the minter that the one before left. -/
inductive Mints : Minter → List (Except EditError String) → Minter → Prop
  | nil (m : Minter) : Mints m [] m
  | cons {m m' m'' : Minter} {r : Except EditError String} {results : List (Except EditError String)}
      (hfirst : m.Finds maxAttempts r m') (hrest : Mints m' results m'') : Mints m (r :: results) m''

theorem run_mint_eq_iff : mint.run m = (r, m') ↔ m.Finds maxAttempts r m' :=
  search_eq_iff

theorem mints_mintMany (m : Minter) (count : Nat) :
    m.Mints (m.mintMany count).1 (m.mintMany count).2 := by
  induction count generalizing m with
  | zero => exact .nil m
  | succ count ih => exact .cons (run_mint_eq_iff.mp rfl) (ih _)

theorem length_mintMany (m : Minter) (count : Nat) : (m.mintMany count).1.length = count := by
  induction count generalizing m with
  | zero => rfl
  | succ count ih => exact congrArg (· + 1) (ih _)

theorem minted_cons (r : Except EditError String) (results : List (Except EditError String)) :
    minted (r :: results) = r.toOption.toList ++ minted results := by
  cases r <;> rfl

/-- Attempts in a row draw the ids that they give, the last one at the front. -/
theorem Mints.draws (h : m.Mints results m') : m.Draws (minted results).reverse m' := by
  induction h with
  | nil m => exact .refl m
  | @cons m m₁ m' r results hfirst _ ih =>
    have hdraws := hfirst.draws.trans ih
    have hreverse : (minted (r :: results)).reverse = (minted results).reverse ++ r.toOption.toList := by
      rw [minted_cons, List.reverse_append]
      cases r <;> rfl
    rwa [hreverse]

/-- Minting gives up exactly if all candidates that are tried are empty or taken. -/
theorem run_mint_eq_noFreshId_iff (m : Minter) :
    (mint.run m).1 = .error .noFreshId ↔ ∀ i < maxAttempts, m.PassesOver i := by
  constructor
  · intro h
    obtain ⟨m', hrun⟩ : ∃ m', mint.run m = (.error .noFreshId, m') := ⟨_, Prod.ext h rfl⟩
    cases run_mint_eq_iff.mp hrun with
    | nothing hall => exact hall
  · intro hall
    rw [run_mint_eq_iff.mpr (.nothing hall)]

/-- The ids that are minted are never empty, all different and none of those that were taken, whatever the
source offers. Each attempt goes on from the minter that the one before left; it draws the candidates up to
the first usable one and takes that, or else, if all that may be tried are empty or taken, draws these and
takes none. -/
theorem mintMany_fresh (m : Minter) (count : Nat) :
    (m.mintMany count).1.length = count ∧
    m.Mints (m.mintMany count).1 (m.mintMany count).2 ∧
    (minted (m.mintMany count).1).Nodup ∧
    "" ∉ minted (m.mintMany count).1 ∧
    (minted (m.mintMany count).1).Disjoint m.taken ∧
    (∀ s r s', mint.run s = (r, s') ↔ s.Finds maxAttempts r s') ∧
    ∀ s, (mint.run s).1 = .error .noFreshId ↔ ∀ i < maxAttempts, s.PassesOver i := by
  have hmints := m.mints_mintMany count
  have hdraws := hmints.draws
  have hnodup : (minted (m.mintMany count).1).Nodup := List.nodup_reverse.mp hdraws.nodup
  refine ⟨m.length_mintMany count, hmints, hnodup, ?_, ?_, ?_, ?_⟩
  · intro hempty
    exact hdraws.ne_empty (List.mem_reverse.mpr hempty)
  · intro id hid
    exact hdraws.fresh id (List.mem_reverse.mpr hid)
  · intro s r s'
    exact run_mint_eq_iff
  · exact run_mint_eq_noFreshId_iff

/-- An empty and a taken candidate are passed over, and a source that goes on with the same id has no more
to give. -/
example : (Minter.mintMany 3 ⟨["a"], .listed ["", "a", "b", "c"]⟩).1 =
    [.ok "b", .ok "c", .error .noFreshId] := by decide

end Minter

end FormulaDoc
