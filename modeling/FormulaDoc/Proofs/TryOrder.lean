import FormulaDoc.Proofs.Stability
import FormulaDoc.Proofs.Vocabulary

namespace FormulaDoc

/-- The word of a list that a text begins with, the longest one. -/
structure LongestAt (words : List String) (s : List Char) (w : String) : Prop where
  mem : w ∈ words
  begins : w.toList <+: s
  longest : ∀ v ∈ words, v.toList <+: s → v.length ≤ w.length

/-- An order in which variables can be tried: all of them, in any order of those of one length. An empty
one is never read. -/
structure TryOrder (vars : List String) (tried : List (List Char)) : Prop where
  mem_iff : ∀ v, v ∈ tried ↔ String.ofList v ∈ vars ∧ v ≠ []
  longest_first : tried.Pairwise fun v w => w.length ≤ v.length

variable {vars vars' : List String} {tried tried' : List (List Char)} {s v : List Char} {w w' : String}

/-- Two words of one length that a text begins with are the same. -/
theorem LongestAt.eq (h : LongestAt vars s w) (h' : LongestAt vars s w') : w = w' := by
  have hle := h.longest w' h'.mem h'.begins
  have hge := h'.longest w h.mem h.begins
  rw [← String.length_toList, ← String.length_toList] at hle hge
  have hbegins := List.prefix_of_prefix_length_le h.begins h'.begins hge
  exact String.toList_inj.mp (hbegins.eq_of_length (Nat.le_antisymm hge hle))

theorem tryOrder_variableOrder (vars : List String) :
    TryOrder vars ((variableOrder vars).filter (!·.isEmpty)) := by
  constructor
  · intro v
    have hmem : v ∈ variableOrder vars ↔ String.ofList v ∈ vars := by
      refine ⟨Formula.mem_of_mem_variableOrder, fun h => ?_⟩
      rw [variableOrder, List.mem_mergeSort, List.mem_map]
      exact ⟨String.ofList v, List.mem_eraseDups.mpr h, String.toList_ofList⟩
    rw [List.mem_filter, hmem]
    simp
  · refine List.Pairwise.filter _ ?_
    have hsorted : (variableOrder vars).Pairwise fun a b => decide (b.length ≤ a.length) :=
      List.pairwise_mergeSort (fun a b c h h' => by simp only [decide_eq_true_eq] at *; omega)
        (fun a b => by simp only [Bool.or_eq_true, decide_eq_true_eq]; omega) _
    exact hsorted.imp of_decide_eq_true

namespace TryOrder

theorem congr (h : TryOrder vars tried) (hsame : ∀ v, v ∈ vars ↔ v ∈ vars') : TryOrder vars' tried :=
  ⟨fun v => by rw [h.mem_iff, hsame], h.longest_first⟩

/-- The first variable that fits is the longest that does. -/
theorem longestAt_of_find? (h : TryOrder vars tried) (hv : tried.find? (·.isPrefixOf s) = some v) :
    LongestAt vars s (String.ofList v) := by
  obtain ⟨hbegins, before, after, rfl, hbefore⟩ := List.find?_eq_some_iff_append.mp hv
  have hmem := ((h.mem_iff v).mp (by simp)).1
  have hbehind := (List.pairwise_append.mp h.longest_first).2.1
  refine ⟨hmem, by simpa using hbegins, fun w hw hs => ?_⟩
  rw [← String.length_toList, String.length_ofList]
  by_cases hempty : w.toList = []
  · simp [hempty]
  · have hw : w.toList ∈ before ++ v :: after :=
      (h.mem_iff w.toList).mpr ⟨by rwa [String.ofList_toList], hempty⟩
    rcases List.mem_append.mp hw with hw | hw
    · -- nothing in front of the one that was found fits
      simpa [List.isPrefixOf_iff_prefix.mpr hs] using hbefore w.toList hw
    · rcases List.mem_cons.mp hw with heq | hw
      · rw [heq]
      · exact (List.pairwise_cons.mp hbehind).1 w.toList hw

theorem find?_eq_some_iff (h : TryOrder vars tried) :
    tried.find? (·.isPrefixOf s) = some v ↔ v ≠ [] ∧ LongestAt vars s (String.ofList v) := by
  constructor
  · intro hv
    exact ⟨((h.mem_iff v).mp (List.mem_of_find?_eq_some hv)).2, h.longestAt_of_find? hv⟩
  · rintro ⟨hne, hlongest⟩
    have hmem := (h.mem_iff v).mpr ⟨hlongest.mem, hne⟩
    have hbegins : v.isPrefixOf s := by simpa using hlongest.begins
    have hfound : (tried.find? (·.isPrefixOf s)).isSome := List.find?_isSome.mpr ⟨v, hmem, hbegins⟩
    obtain ⟨u, hu⟩ := Option.isSome_iff_exists.mp hfound
    rw [hu, String.ofList_inj.mp ((h.longestAt_of_find? hu).eq hlongest)]

/-- Whatever the order, the same variable is found. -/
theorem find?_eq (h : TryOrder vars tried) (h' : TryOrder vars tried') (s : List Char) :
    tried.find? (·.isPrefixOf s) = tried'.find? (·.isPrefixOf s) := by
  apply Option.ext
  intro v
  rw [h.find?_eq_some_iff, h'.find?_eq_some_iff]

theorem readAtom_eq (h : TryOrder vars tried) (h' : TryOrder vars tried') :
    readAtom tried = readAtom tried' := by
  funext nested s
  unfold readAtom
  rw [h.find?_eq h']

theorem readItem_eq (h : TryOrder vars tried) (h' : TryOrder vars tried') :
    readItem tried = readItem tried' := by
  have hatom := h.readAtom_eq h'
  have hscript : readScript tried = readScript tried' := by
    funext nested s
    rw [readScript, readScript, hatom]
  have hscripts : readScripts tried = readScripts tried' := by
    funext nested s
    rw [readScripts, readScripts, hscript]
  funext nested s
  rw [readItem, readItem, hatom, hscripts]

/-- Siblings are read alike under all orders of the same variables. -/
theorem readSequence_eq (h : TryOrder vars tried) (h' : TryOrder vars tried') :
    readSequence tried = readSequence tried' := by
  funext bound
  induction bound with
  | zero => rfl
  | succ bound ih =>
    funext stop s
    rw [readSequence, readSequence, ih, h.readItem_eq h']

/-- A variable is read exactly where the text begins with one, and then the longest; elsewhere the variables
have no effect. -/
theorem readAtom_cases (h : TryOrder vars tried) (hne : "" ∉ vars) (nested : Nested) (s : List Char) :
    (∃ w, LongestAt vars s w ∧ readAtom tried nested s = .ok (.var "" w, s.drop w.length)) ∨
      (∀ w ∈ vars, ¬ w.toList <+: s) ∧ readAtom tried nested s = readAtom [] nested s := by
  cases hv : tried.find? (·.isPrefixOf s) with
  | some v =>
    refine .inl ⟨String.ofList v, h.longestAt_of_find? hv, ?_⟩
    unfold readAtom
    rw [hv, String.length_ofList]
  | none =>
    rw [List.find?_eq_none] at hv
    refine .inr ⟨fun w hw hs => ?_, ?_⟩
    · have hempty : w.toList ≠ [] := fun he => hne (String.toList_eq_nil_iff.mp he ▸ hw)
      have hmem : w.toList ∈ tried := (h.mem_iff w.toList).mpr ⟨by rwa [String.ofList_toList], hempty⟩
      exact hv w.toList hmem (List.isPrefixOf_iff_prefix.mpr hs)
    · unfold readAtom
      rw [List.find?_eq_none.mpr hv, List.find?_nil]

end TryOrder

end FormulaDoc
