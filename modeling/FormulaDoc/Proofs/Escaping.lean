import FormulaDoc.Escape
import FormulaDoc.Proofs.Braces
import FormulaDoc.Proofs.Markup

namespace FormulaDoc

theorem escape_cons (c : Char) (cs : List Char) : escape (c :: cs) = escapeChar c ++ escape cs := by
  simp [escape]

theorem escapeChar_plain {c : Char} (hslash : c ≠ '\\') (hopen : c ≠ '{') (hclose : c ≠ '}') :
    escapeChar c = [c] := by
  unfold escapeChar
  split
  next => exact absurd rfl hslash
  next => exact absurd rfl hopen
  next => exact absurd rfl hclose
  next => rfl

theorem escape_singleton (c : Char) : escape [c] = escapeChar c := by
  rw [escape, List.flatMap_singleton]

section

variable {c d : Char} {e w : List Char}

/-- An escape is a backslash with a character behind it that tells what it stands for. -/
theorem escapeChar_cases (c : Char) : escapeChar c = [c] ∧ c ≠ '\\' ∧ c ≠ '}' ∨
    ∃ d t, escapeChar c = '\\' :: d :: t ∧ (c, d) ∈ [('\\', 't'), ('{', '{'), ('}', '}')] := by
  by_cases hslash : c = '\\'
  · exact .inr ⟨'t', backslashName.tail, by rw [hslash]; rfl, by simp [hslash]⟩
  by_cases hopen : c = '{'
  · exact .inr ⟨'{', [], by rw [hopen]; rfl, by simp [hopen]⟩
  by_cases hclose : c = '}'
  · exact .inr ⟨'}', [], by rw [hclose]; rfl, by simp [hclose]⟩
  · exact .inl ⟨escapeChar_plain hslash hopen hclose, hslash, hclose⟩

theorem not_close_prefix_escapeChar : ¬ '}' :: e <+: escapeChar c ++ w := by
  intro h
  rcases escapeChar_cases c with ⟨hc, -, hne⟩ | ⟨d, t, hc, -⟩
  · rw [hc] at h
    exact hne (List.cons_prefix_cons.mp h).1.symm
  · rw [hc] at h
    exact absurd (List.cons_prefix_cons.mp h).1 (by decide)

/-- Characters are told apart by their escaped forms. -/
theorem eq_of_escapeChar_isPrefix (h : escapeChar c ++ e <+: escapeChar d ++ w) : c = d ∧ e <+: w := by
  have heq : c = d := by
    rcases escapeChar_cases c with ⟨hc, hne, -⟩ | ⟨a, t, hc, ha⟩ <;>
      rcases escapeChar_cases d with ⟨hd, hne', -⟩ | ⟨b, u, hd, hb⟩ <;>
      rw [hc, hd] at h
    · exact (List.cons_prefix_cons.mp h).1
    · exact absurd (List.cons_prefix_cons.mp h).1 hne
    · exact absurd (List.cons_prefix_cons.mp h).1.symm hne'
    · have hab : a = b := (List.cons_prefix_cons.mp (List.cons_prefix_cons.mp h).2).1
      simp only [List.mem_cons, Prod.mk.injEq, List.not_mem_nil, or_false] at ha hb
      rcases ha with ⟨rfl, rfl⟩ | ⟨rfl, rfl⟩ | ⟨rfl, rfl⟩ <;>
        rcases hb with ⟨rfl, rfl⟩ | ⟨rfl, rfl⟩ | ⟨rfl, rfl⟩ <;> first | rfl | cases hab
  subst heq
  exact ⟨rfl, (List.prefix_append_right_inj _).mp h⟩

end

theorem balanced_backslashName : Balanced ('\\' :: backslashName) := by
  have hletters : ∀ cs : List Char, (∀ c ∈ cs, c ≠ '\\' ∧ c ≠ '{' ∧ c ≠ '}') →
      Balanced (cs ++ ['{', '}']) := by
    intro cs hcs
    induction cs with
    | nil => exact .group .nil .nil
    | cons c cs ih =>
      obtain ⟨hslash, hopen, hclose⟩ := hcs c List.mem_cons_self
      have hrest := ih fun d hd => hcs d (List.mem_cons_of_mem _ hd)
      exact .plain hslash hopen hclose hrest
  have hname := hletters "extbackslash".toList (by simp)
  exact .escaped 't' hname

theorem balanced_escape (cs : List Char) : Balanced (escape cs) := by
  induction cs with
  | nil => exact .nil
  | cons c cs ih =>
    rw [escape_cons]
    refine Balanced.append ?_ ih
    by_cases hslash : c = '\\'
    · subst hslash
      exact balanced_backslashName
    by_cases hopen : c = '{'
    · subst hopen
      exact .escaped '{' .nil
    by_cases hclose : c = '}'
    · subst hclose
      exact .escaped '}' .nil
    rw [escapeChar_plain hslash hopen hclose]
    exact .plain hslash hopen hclose .nil

theorem unescape_backslash (s : List Char) :
    unescape ('\\' :: (backslashName ++ s)) = '\\' :: unescape s := by
  have hname : backslashName = 't' :: backslashName.tail := rfl
  rw [hname, List.cons_append, unescape, ← List.cons_append, ← hname]
  · have hprefix : backslashName.isPrefixOf (backslashName ++ s) = true := by simp
    rw [if_pos hprefix, List.drop_left]
  · intro rest h
    exact absurd (List.cons.inj h).1 (by decide)
  · intro rest h
    exact absurd (List.cons.inj h).1 (by decide)

/-- A verbatim group ends right behind an escaped body. -/
theorem rawGroup_escape (cs w : List Char) :
    rawGroup ('{' :: (escape cs ++ '}' :: w)) = .ok (escape cs, w) :=
  rawGroup_eq_ok_iff.mpr ⟨rfl, balanced_escape cs⟩

/-- Escaped characters stand for themselves alone. -/
theorem unescape_escape (cs : List Char) : unescape (escape cs) = cs := by
  induction cs with
  | nil => rw [escape, List.flatMap_nil, unescape]
  | cons c cs ih =>
    rw [escape_cons]
    by_cases hslash : c = '\\'
    · subst hslash
      rw [escapeChar, List.cons_append, unescape_backslash, ih]
    by_cases hopen : c = '{'
    · subst hopen
      rw [escapeChar, List.cons_append, List.singleton_append, unescape, ih]
    by_cases hclose : c = '}'
    · subst hclose
      rw [escapeChar, List.cons_append, List.singleton_append, unescape, ih]
    rw [escapeChar_plain hslash hopen hclose, List.singleton_append, unescape, ih]
    · intro _ h
      exact absurd h hslash
    · intro _ h
      exact absurd h hslash
    · intro h
      exact absurd h hslash

theorem Node.markup_text_symbol (id value : String) (asArg : Bool) :
    (symbol id value).markup .text asArg = escape value.toList := by
  simp [markup_eq, pieces, Piece.markup]

end FormulaDoc
