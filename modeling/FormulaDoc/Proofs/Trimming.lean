import FormulaDoc.Proofs.TrailingGaps

namespace FormulaDoc

/-- The symbols that blanks are read as. -/
def blankSymbols (p : List Char) : List Node :=
  (p.filter (!isGap ·)).map fun c => .symbol "" (String.singleton c)

variable {p q s : List Char} {ns : List Node}

theorem blankSymbols_eq_nil : blankSymbols p = [] ↔ ∀ c ∈ p, isGap c := by
  simp [blankSymbols]

/-- A character that stands for itself takes no scripts from an accepted text behind it. -/
theorem siblings_symbol_cons {c : Char} (hc : c ∉ ['{', '}', '_', '^', '&', '\\']) (hgap : isGap c = false)
    (h : siblings [] .never s = .ok (ns, [])) :
    siblings [] .never (c :: s) = .ok (.symbol "" (String.singleton c) :: ns, []) := by
  have hskip : skipGap (c :: s) = c :: s := List.dropWhile_cons_of_neg (by simp [hgap])
  have hunscripted := (apart_of_siblings h).unscripted
  have hatom : readAtom [] (siblings []) (c :: s) = .ok (.symbol "" (String.singleton c), s) :=
    readAtom_eq_ok.mpr (.symbol hc)
  have hscripts : readScripts [] (siblings []) s = .ok ((none, none), skipGap s) :=
    readScripts_eq_ok.mpr (.none (fun t => (hunscripted t).1) fun t => (hunscripted t).2)
  refine (siblings_eq_ok (by simp)).mpr (.inr ⟨by simp [hskip], rfl, _, ns, skipGap s, rfl, ?_, ?_⟩)
  · rw [hskip]
    exact readItem_eq_ok.mpr ⟨_, s, none, none, hatom, hscripts, rfl⟩
  · rw [siblings_skipGap (skipGap_idem s), h]

/-- An accepted text behind blanks is accepted, as the symbols of the blanks and then its own nodes. -/
theorem siblings_blanks_append (hp : ∀ c ∈ p, isBlank c) (h : siblings [] .never s = .ok (ns, [])) :
    siblings [] .never (p ++ s) = .ok (blankSymbols p ++ ns, []) := by
  induction p with
  | nil => exact h
  | cons c p ih =>
    have hread := ih fun d hd => hp d (List.mem_cons_of_mem _ hd)
    cases hgap : isGap c with
    | true =>
      have hskip : skipGap (c :: (p ++ s)) = skipGap (p ++ s) := List.dropWhile_cons_of_pos hgap
      rw [List.cons_append, siblings_skipGap hskip, hread]
      simp [blankSymbols, hgap]
    | false =>
      have hc : c ∉ ['{', '}', '_', '^', '&', '\\'] := by
        have hblank := hp c List.mem_cons_self
        intro hmem
        simp only [List.mem_cons, List.not_mem_nil, or_false] at hmem
        rcases hmem with rfl | rfl | rfl | rfl | rfl | rfl <;> cases hblank
      rw [List.cons_append, siblings_symbol_cons hc hgap hread]
      simp [blankSymbols, hgap]

theorem apart_of_blanks (hq : ∀ c ∈ q, isBlank c) (hne : q ≠ []) : Apart q := by
  have hnot : ∀ {c t}, isBlank c = false → skipGap q ≠ c :: t := by
    intro c t hc hgap
    have hmem : c ∈ q := (skipGap_suffix q).mem (by simp [hgap])
    exact ne_of_isBlank (hq c hmem) hc rfl
  refine ⟨?_, Bool.eq_false_iff.mpr fun hlimits => ?_, fun t => ⟨hnot rfl, hnot rfl⟩⟩
  · obtain ⟨c, t, rfl⟩ := List.exists_cons_of_ne_nil hne
    exact ⟨c, t, rfl, hq c List.mem_cons_self⟩
  · obtain ⟨c, t, hgap, -⟩ := exists_of_startsCommand hlimits
    exact hnot rfl hgap

/-- An accepted text in front of blanks is accepted, as its own nodes and then the symbols of the blanks. -/
theorem siblings_append_blanks (hq : ∀ c ∈ q, isBlank c) (h : siblings [] .never s = .ok (ns, [])) :
    siblings [] .never (s ++ q) = .ok (ns ++ blankSymbols q, []) := by
  cases q with
  | nil => simpa [blankSymbols] using h
  | cons c q =>
    have hnil : siblings [] .never [] = .ok ([], []) := by
      rw [siblings_eq_ok (by simp)]
      exact .inl ⟨.inl rfl, rfl, rfl⟩
    have hblanks : siblings [] .never ([] ++ c :: q) = .ok (blankSymbols (c :: q), []) := by
      simpa using siblings_blanks_append hq hnil
    exact siblings_append (apart_of_blanks hq (by simp)) h hblanks

theorem exists_trim (s : List Char) :
    ∃ p q, (∀ c ∈ p, isBlank c) ∧ (∀ c ∈ q, isBlank c) ∧ s = p ++ (trim s ++ q) := by
  obtain ⟨q, hq, hblank⟩ := trimEnd_append (s.dropWhile isBlank)
  refine ⟨s.takeWhile isBlank, q, List.all_eq_true.mp List.all_takeWhile, hblank, ?_⟩
  rw [trim, ← hq, List.takeWhile_append_dropWhile]

/-- A text with nothing but gaps around what stays of it without the blanks at its ends, where no backslash
takes one of them along. -/
structure Padded (s : List Char) : Prop where
  gaps : ∃ p q, (∀ c ∈ p, isGap c) ∧ (∀ c ∈ q, isGap c) ∧ s = p ++ (trim s ++ q)
  settled : ¬ Dangling (trim s)

theorem isBlank_of_isGap {c : Char} (h : isGap c) : isBlank c := by
  simp only [isGap, Bool.or_eq_true, beq_iff_eq] at h
  rcases h with ((rfl | rfl) | rfl) | rfl <;> rfl

/-- Such a text and what stays of it are accepted together, and as the same nodes. -/
theorem Padded.siblings_iff (h : Padded s) :
    siblings [] .never (trim s) = .ok (ns, []) ↔ siblings [] .never s = .ok (ns, []) := by
  obtain ⟨p, q, hp, hq, hs⟩ := h.gaps
  have hp' : ∀ c ∈ p, isBlank c := fun c hc => isBlank_of_isGap (hp c hc)
  have hq' : ∀ c ∈ q, isBlank c := fun c hc => isBlank_of_isGap (hq c hc)
  constructor
  · intro hread
    have hread' := siblings_blanks_append hp' (siblings_append_blanks hq' hread)
    rwa [← hs, blankSymbols_eq_nil.mpr hp, blankSymbols_eq_nil.mpr hq, List.nil_append,
      List.append_nil] at hread'
  · intro hread
    have hskip : skipGap p = [] := List.dropWhile_eq_nil_iff.mpr hp
    rw [hs, siblings_skipGap (skipGap_append_of_nil hskip _)] at hread
    -- the gaps that are cut off are none that a backslash takes along
    have hbalanced : Balanced (trim s) := by
      have hcut := (balanced_of_siblings hread).of_append_blank rfl hq'
      exact hcut.resolve_right h.settled
    obtain ⟨rest, hread', -⟩ := siblings_alike hread (hbalanced.alike hq).symm
    obtain rfl := siblings_never hread'
    exact hread'

namespace Formula

variable {text : String}

theorem readNodes_eq_ok : readNodes [] text = .ok ns ↔ siblings [] .never text.toList = .ok (ns, []) := by
  rw [readNodes_eq]
  cases hread : siblings [] .never text.toList with
  | error e => simp [Except.map]
  | ok reading =>
    obtain ⟨ms, rest⟩ := reading
    obtain rfl := siblings_never hread
    simp [Except.map]

/-- Texts that are read as the same nodes are parsed to the same formula. -/
theorem parse_congr {vars : List String} {a b : String}
    (h : ∀ ns, readNodes vars a = .ok ns ↔ readNodes vars b = .ok ns) :
    (parse vars a).toOption = (parse vars b).toOption := by
  unfold parse
  cases ha : readNodes vars a with
  | ok ns => rw [(h ns).mp ha]
  | error e =>
    cases hb : readNodes vars b with
    | ok ns => cases ha.symm.trans ((h ns).mpr hb)
    | error e' => rfl

/-- A text that is accepted as the same formula without the blanks at its ends has gaps there alone. -/
theorem padded_of_parse {f : Formula} (htrim : parse [] (String.ofList (trim text.toList)) = .ok f)
    (htext : parse [] text = .ok f) : Padded text.toList := by
  obtain ⟨ms, hms, hlabels⟩ := parse_eq_ok htrim
  obtain ⟨ns, hns, hlabels'⟩ := parse_eq_ok htext
  rw [String.toList_ofList] at hms
  obtain ⟨p, q, hp, hq, hs⟩ := exists_trim text.toList
  have hread := siblings_blanks_append hp (siblings_append_blanks hq hms)
  rw [← hs, hns, Except.ok.injEq, Prod.mk.injEq] at hread
  -- the nodes are as many as before, so that no blank is read as a symbol
  have hlength := congrArg List.length (congrArg (List.map Node.blank) (hlabels.symm.trans hlabels'))
  rw [map_blank_labelNodes, map_blank_labelNodes, hread.1] at hlength
  simp only [List.length_map, List.length_append] at hlength
  have hp' : blankSymbols p = [] := List.eq_nil_of_length_eq_zero (by omega)
  have hq' : blankSymbols q = [] := List.eq_nil_of_length_eq_zero (by omega)
  exact ⟨⟨p, q, blankSymbols_eq_nil.mp hp', blankSymbols_eq_nil.mp hq', hs⟩,
    (balanced_of_siblings hms).not_dangling⟩

/-- Without the blanks at its ends a text is refused as before or read as the same formula exactly if it is
refused both times or only gaps are cut off, none of them behind a backslash. -/
theorem parse_trim_iff (text : String) :
    (parse [] (String.ofList (trim text.toList))).toOption = (parse [] text).toOption ↔
      ((parse [] (String.ofList (trim text.toList))).toOption = none ∧ (parse [] text).toOption = none) ∨
        Padded text.toList := by
  constructor
  · intro h
    cases hf : (parse [] text).toOption with
    | none => exact .inl ⟨h.trans hf, rfl⟩
    | some f =>
      have htrim := ok_of_toOption (h.trans hf)
      have htext := ok_of_toOption hf
      exact .inr (padded_of_parse htrim htext)
  · rintro (⟨htrim, htext⟩ | h)
    · rw [htrim, htext]
    · refine parse_congr fun ns => ?_
      rw [readNodes_eq_ok, readNodes_eq_ok, String.toList_ofList]
      exact h.siblings_iff

/-- The blank of a spacing command at the end of a text is cut off, and the backslash is refused. -/
theorem parse_trim_spacing : (∃ f, parse [] "\\ " = .ok f ∧ f.children = [.space "0" "\\ "]) ∧
    parse [] (String.ofList (trim "\\ ".toList)) = .error (.fault .danglingBackslash 0) := by
  have hparse : (parse [] "\\ ").toOption.any fun f => f.children = [.space "0" "\\ "] := by decide +kernel
  exact ⟨exists_ok_of_any hparse, by decide +kernel⟩

end Formula

end FormulaDoc
