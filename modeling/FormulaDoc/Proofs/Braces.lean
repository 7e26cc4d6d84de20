import FormulaDoc.Proofs.Reading
import FormulaDoc.Text.Blank

namespace FormulaDoc

inductive Balanced : List Char → Prop
  | nil : Balanced []
  | escaped (c : Char) {s} (hs : Balanced s) : Balanced ('\\' :: c :: s)
  | plain {c s} (hesc : c ≠ '\\') (hopen : c ≠ '{') (hclose : c ≠ '}') (hs : Balanced s) :
      Balanced (c :: s)
  | group {a b} (ha : Balanced a) (hb : Balanced b) : Balanced ('{' :: (a ++ '}' :: b))

/-- Texts that close a number of open braces and leave nothing open themselves. -/
inductive Closing : Nat → List Char → Prop
  | zero {a} (ha : Balanced a) : Closing 0 a
  | succ {d a b} (ha : Balanced a) (hb : Closing d b) : Closing (d + 1) (a ++ '}' :: b)

theorem Balanced.append {a b : List Char} (ha : Balanced a) (hb : Balanced b) :
    Balanced (a ++ b) := by
  induction ha with
  | nil => exact hb
  | escaped c _ ih => exact .escaped c ih
  | plain hesc hopen hclose _ ih => exact .plain hesc hopen hclose ih
  | group ha _ _ ih =>
    rw [List.cons_append, List.append_assoc, List.cons_append]
    exact .group ha ih

theorem Closing.append {d : Nat} {a b : List Char} (ha : Balanced a) (hb : Closing d b) :
    Closing d (a ++ b) := by
  cases hb with
  | zero hb => exact .zero (ha.append hb)
  | succ hb hc =>
    rw [← List.append_assoc]
    exact .succ (ha.append hb) hc

theorem closing_of_closeGroup {d : Nat} {s body rest : List Char}
    (h : closeGroup d s = some (body, rest)) : s = body ++ '}' :: rest ∧ Closing d body := by
  fun_induction closeGroup d s generalizing body with
  | case1 => simp at h
  | case2 d c s ih =>
    obtain ⟨⟨b, r⟩, hb, he⟩ := Option.map_eq_some_iff.mp h
    cases he
    obtain ⟨rfl, hc⟩ := ih hb
    exact ⟨rfl, Closing.append (.escaped c .nil) hc⟩
  | case3 d s ih =>
    obtain ⟨⟨b, r⟩, hb, he⟩ := Option.map_eq_some_iff.mp h
    cases he
    obtain ⟨rfl, hc⟩ := ih hb
    refine ⟨rfl, ?_⟩
    cases hc with
    | succ ha hc =>
      rename_i a c
      have hg : Balanced ('{' :: (a ++ '}' :: [])) := .group ha .nil
      simpa using Closing.append hg hc
  | case4 s =>
    cases h
    exact ⟨rfl, .zero .nil⟩
  | case5 d s ih =>
    obtain ⟨⟨b, r⟩, hb, he⟩ := Option.map_eq_some_iff.mp h
    cases he
    obtain ⟨rfl, hc⟩ := ih hb
    exact ⟨rfl, .succ .nil hc⟩
  | case6 d c s hesc hopen hzero hsucc ih =>
    obtain ⟨⟨b, r⟩, hb, he⟩ := Option.map_eq_some_iff.mp h
    cases he
    obtain ⟨rfl, hc⟩ := ih hb
    have hclose : c ≠ '}' := by
      rintro rfl
      cases d with
      | zero => exact hzero rfl rfl
      | succ d => exact hsucc d rfl rfl
    have hback : c ≠ '\\' := by
      rintro rfl
      cases b with
      | nil => exact hesc _ _ rfl rfl
      | cons e b => exact hesc _ _ rfl rfl
    exact ⟨rfl, Closing.append (.plain hback (fun e => hopen e) hclose .nil) hc⟩

/-- A verbatim group passes over balanced text. -/
theorem closeGroup_append {a : List Char} (ha : Balanced a) (d : Nat) (s : List Char) :
    closeGroup d (a ++ s) = (closeGroup d s).map fun (body, rest) => (a ++ body, rest) := by
  induction ha generalizing d s with
  | nil => simp
  | escaped c _ ih =>
    rw [List.cons_append, List.cons_append, closeGroup, ih, Option.map_map]
    rfl
  | @plain c t hesc hopen hclose _ ih =>
    rw [List.cons_append, closeGroup, ih, Option.map_map]
    · rfl
    · intro _ _ h
      exact absurd h hesc
    · exact hopen
    · intro _ h
      exact absurd h hclose
    · intro _ _ h
      exact absurd h hclose
  | @group a b _ _ iha ihb =>
    have split : '{' :: (a ++ '}' :: b) ++ s = '{' :: (a ++ '}' :: (b ++ s)) := by simp
    rw [split, closeGroup, iha, closeGroup, ihb]
    simp [Option.map_map, Function.comp_def]

theorem closeGroup_eq_some_iff {s body rest : List Char} :
    closeGroup 0 s = some (body, rest) ↔ s = body ++ '}' :: rest ∧ Balanced body := by
  constructor
  · intro h
    obtain ⟨hs, hc⟩ := closing_of_closeGroup h
    cases hc with
    | zero hb => exact ⟨hs, hb⟩
  · rintro ⟨rfl, hb⟩
    simp [closeGroup_append hb, closeGroup]

theorem rawGroup_eq_ok_iff {s body rest : List Char} :
    rawGroup s = .ok (body, rest) ↔ skipGap s = '{' :: (body ++ '}' :: rest) ∧ Balanced body := by
  rw [rawGroup_eq_ok]
  constructor
  · rintro ⟨r, hr, h⟩
    obtain ⟨rfl, hb⟩ := closeGroup_eq_some_iff.mp h
    exact ⟨hr, hb⟩
  · rintro ⟨hs, hb⟩
    exact ⟨_, hs, closeGroup_eq_some_iff.mpr ⟨rfl, hb⟩⟩

/-- The braces that a text leaves open, less those that it closes too often. -/
def braceExcess : List Char → Int
  | [] => 0
  | '\\' :: _ :: s => braceExcess s
  | '{' :: s => braceExcess s + 1
  | '}' :: s => braceExcess s - 1
  | _ :: s => braceExcess s

theorem Balanced.braceExcess_append {a : List Char} (ha : Balanced a) (s : List Char) :
    braceExcess (a ++ s) = braceExcess s := by
  induction ha generalizing s with
  | nil => rfl
  | escaped c _ ih => exact ih s
  | @plain c t hesc hopen hclose _ ih =>
    rw [List.cons_append, braceExcess, ih]
    · intro _ _ h
      exact absurd h hesc
    · exact hopen
    · exact hclose
  | @group a b _ _ iha ihb =>
    have split : '{' :: (a ++ '}' :: b) ++ s = '{' :: (a ++ '}' :: (b ++ s)) := by simp
    rw [split, braceExcess, iha, braceExcess, ihb]
    omega

theorem Balanced.braceExcess_eq_zero {a : List Char} (ha : Balanced a) : braceExcess a = 0 := by
  simpa [braceExcess] using ha.braceExcess_append []

/-- A text that is balanced but for a backslash at its end, which escapes what comes next. -/
def Dangling (s : List Char) : Prop :=
  ∃ b, Balanced b ∧ s = b ++ ['\\']

theorem Dangling.braceExcess_close {s : List Char} (h : Dangling s) (rest : List Char) :
    braceExcess (s ++ '}' :: rest) = braceExcess rest := by
  obtain ⟨b, hb, rfl⟩ := h
  rw [List.append_assoc, hb.braceExcess_append]
  rfl

theorem Balanced.not_dangling (h : Balanced s) : ¬ Dangling s := by
  intro hdangling
  have hclose := hdangling.braceExcess_close []
  rw [h.braceExcess_append] at hclose
  simp [braceExcess] at hclose

theorem Balanced.dropWhile_isBlank {s : List Char} (h : Balanced s) :
    Balanced (s.dropWhile isBlank) := by
  induction h with
  | nil => exact .nil
  | escaped c hs _ => exact .escaped c hs
  | @plain c t hesc hopen hclose hs ih =>
    rw [List.dropWhile_cons]
    split
    next => exact ih
    next => exact .plain hesc hopen hclose hs
  | group ha hb _ _ => exact .group ha hb

/-- Blanks cut off the end of a balanced text leave it balanced, unless the first of them was
escaped. -/
theorem Balanced.of_append_blank {s t u : List Char} (h : Balanced s) (hs : s = t ++ u)
    (hu : ∀ c ∈ u, isBlank c = true) : Balanced t ∨ Dangling t := by
  induction h generalizing t with
  | nil =>
    obtain ⟨rfl, -⟩ := List.append_eq_nil_iff.mp hs.symm
    exact .inl .nil
  | @escaped c s hbal ih =>
    rcases t with _ | ⟨d, _ | ⟨e, t⟩⟩
    · exact .inl .nil
    · obtain ⟨rfl, -⟩ := List.cons.inj hs
      exact .inr ⟨[], .nil, rfl⟩
    · simp only [List.cons_append, List.cons.injEq] at hs
      obtain ⟨rfl, rfl, hs⟩ := hs
      rcases ih hs with ht | ⟨b, hb, rfl⟩
      · exact .inl (.escaped c ht)
      · exact .inr ⟨_, .escaped c hb, rfl⟩
  | @plain c s hesc hopen hclose hbal ih =>
    cases t with
    | nil => exact .inl .nil
    | cons d t =>
      simp only [List.cons_append, List.cons.injEq] at hs
      obtain ⟨rfl, hs⟩ := hs
      rcases ih hs with ht | ⟨b, hb, rfl⟩
      · exact .inl (.plain hesc hopen hclose ht)
      · exact .inr ⟨_, .plain hesc hopen hclose hb, rfl⟩
  | @group a b ha hb _ ih =>
    rw [← List.cons_append] at hs
    rcases List.append_eq_append_iff.mp hs with ⟨w, rfl, hw⟩ | ⟨w, hw, rfl⟩
    · cases w with
      | nil =>
        have hc := hu '}' (by rw [List.nil_append] at hw; simp [← hw])
        exact absurd hc (by decide)
      | cons e w =>
        obtain ⟨rfl, rfl⟩ := List.cons.inj hw
        rcases ih rfl with ht | ⟨b', hb', rfl⟩
        · exact .inl (.group ha ht)
        · exact .inr ⟨_, .group ha hb', by simp⟩
    · have hc := hu '}' (by simp)
      exact absurd hc (by decide)

theorem trimEnd_append (s : List Char) :
    ∃ u, s = trimEnd s ++ u ∧ ∀ c ∈ u, isBlank c = true := by
  refine ⟨(s.reverse.takeWhile isBlank).reverse, ?_, ?_⟩
  · rw [trimEnd, ← List.reverse_append, List.takeWhile_append_dropWhile, List.reverse_reverse]
  · intro c hc
    exact List.all_eq_true.mp List.all_takeWhile c (List.mem_reverse.mp hc)

theorem Balanced.trim {s : List Char} (h : Balanced s) :
    Balanced (FormulaDoc.trim s) ∨ Dangling (FormulaDoc.trim s) := by
  obtain ⟨u, hu, hblank⟩ := trimEnd_append (s.dropWhile isBlank)
  exact h.dropWhile_isBlank.of_append_blank hu hblank

end FormulaDoc
