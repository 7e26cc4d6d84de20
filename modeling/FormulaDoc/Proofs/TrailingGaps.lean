import FormulaDoc.Proofs.Concatenation

namespace FormulaDoc

/-- A text without the gaps at its end, but for one that a backslash takes along. -/
def unpadded : List Char → List Char
  | '\\' :: c :: s => '\\' :: c :: unpadded s
  | c :: s => if isGap c ∧ unpadded s = [] then [] else c :: unpadded s
  | [] => []

variable {s t r u b : List Char} {c : Char}

theorem unpadded_cons (hc : c ≠ '\\') :
    unpadded (c :: s) = if isGap c ∧ unpadded s = [] then [] else c :: unpadded s := by
  rw [unpadded]
  rintro _ _ rfl
  exact absurd rfl hc

theorem unpadded_cons_of_isAlpha (h : c.isAlpha) : unpadded (c :: s) = c :: unpadded s := by
  have hc : c ≠ '\\' := by
    rintro rfl
    cases h
  have hgap : isGap c = false := by
    refine Bool.eq_false_iff.mpr fun hgap => ?_
    simp only [isGap, Bool.or_eq_true, beq_iff_eq] at hgap
    rcases hgap with ((rfl | rfl) | rfl) | rfl <;> cases h
  rw [unpadded_cons hc, if_neg (by simp [hgap])]

theorem isGap_of_unpadded_eq_nil (h : unpadded s = []) : ∀ c ∈ s, isGap c := by
  fun_induction unpadded s with
  | case1 => cases h
  | case2 c s _ hgap ih =>
    intro d hd
    rcases List.mem_cons.mp hd with rfl | hd
    · exact hgap.1
    · exact ih hgap.2 d hd
  | case3 => cases h
  | case4 => nofun

theorem exists_cons_of_unpadded (h : unpadded t = c :: u) (hc : c ≠ '\\') :
    ∃ r, t = c :: r ∧ unpadded r = u := by
  unfold unpadded at h
  split at h
  next =>
    cases h
    exact absurd rfl hc
  next d s _ =>
    split at h
    next => cases h
    next =>
      cases h
      exact ⟨s, rfl, rfl⟩
  next => cases h

theorem exists_escaped_of_unpadded (h : unpadded t = '\\' :: c :: u) :
    ∃ r, t = '\\' :: c :: r ∧ unpadded r = u := by
  unfold unpadded at h
  split at h
  next d s =>
    cases h
    exact ⟨s, rfl, rfl⟩
  next d s hnot =>
    split at h
    next => cases h
    next =>
      obtain ⟨rfl, hs⟩ := List.cons.inj h
      cases s with
      | nil => cases hs
      | cons e s => exact absurd rfl (hnot e s rfl)
  next => cases h

/-- Only a gap is left out, and what stays is not changed. -/
theorem unpadded_cons_cases (c : Char) (s : List Char) :
    isGap c ∧ unpadded (c :: s) = [] ∨ ∃ u, unpadded (c :: s) = c :: u := by
  by_cases hc : c = '\\'
  · subst hc
    right
    cases s with
    | nil => exact ⟨[], rfl⟩
    | cons d s => exact ⟨d :: unpadded s, rfl⟩
  · rw [unpadded_cons hc]
    split
    next hnil => exact .inl ⟨hnil.1, rfl⟩
    next => exact .inr ⟨_, rfl⟩

theorem unpadded_skipGap (s : List Char) : unpadded (skipGap s) = skipGap (unpadded s) := by
  induction s with
  | nil => rfl
  | cons c s ih =>
    by_cases hgap : isGap c
    · have hc : c ≠ '\\' := by
        rintro rfl
        cases hgap
      have hskip : ∀ u, skipGap (c :: u) = skipGap u := fun u => List.dropWhile_cons_of_pos hgap
      rw [hskip, ih, unpadded_cons hc]
      split
      next hnil => rw [hnil.2]
      next => rw [hskip]
    · have hskip : ∀ u, skipGap (c :: u) = c :: u := fun u => List.dropWhile_cons_of_neg hgap
      obtain ⟨u, hu⟩ := (unpadded_cons_cases c s).resolve_left fun h => hgap h.1
      rw [hskip, hu, hskip]

theorem takeWhile_unpadded (s : List Char) :
    (unpadded s).takeWhile Char.isAlpha = s.takeWhile Char.isAlpha := by
  induction s with
  | nil => rfl
  | cons c s ih =>
    by_cases halpha : c.isAlpha
    · rw [unpadded_cons_of_isAlpha halpha, List.takeWhile_cons_of_pos halpha,
        List.takeWhile_cons_of_pos halpha, ih]
    · rw [List.takeWhile_cons_of_neg halpha]
      rcases unpadded_cons_cases c s with ⟨-, hnil⟩ | ⟨u, hu⟩
      · rw [hnil, List.takeWhile_nil]
      · rw [hu, List.takeWhile_cons_of_neg halpha]

theorem dropWhile_unpadded (s : List Char) :
    (unpadded s).dropWhile Char.isAlpha = unpadded (s.dropWhile Char.isAlpha) := by
  induction s with
  | nil => rfl
  | cons c s ih =>
    by_cases halpha : c.isAlpha
    · rw [unpadded_cons_of_isAlpha halpha, List.dropWhile_cons_of_pos halpha,
        List.dropWhile_cons_of_pos halpha, ih]
    · rw [List.dropWhile_cons_of_neg halpha]
      rcases unpadded_cons_cases c s with ⟨-, hnil⟩ | ⟨u, hu⟩
      · rw [hnil, List.dropWhile_nil]
      · rw [hu, List.dropWhile_cons_of_neg halpha]

/-- Texts that differ in the gaps at their end alone. -/
def Alike (s t : List Char) : Prop :=
  unpadded s = unpadded t

namespace Alike

protected theorem symm (h : Alike s t) : Alike t s :=
  Eq.symm h

theorem skipGap (h : Alike s t) : Alike (skipGap s) (skipGap t) := by
  rw [Alike, unpadded_skipGap, unpadded_skipGap, h]

theorem exists_cons (h : Alike (c :: r) t) (hc : c ≠ '\\') (hgap : isGap c → unpadded r ≠ []) :
    ∃ r', t = c :: r' ∧ Alike r r' := by
  have hout : unpadded t = c :: unpadded r := by
    rw [← h, unpadded_cons hc, if_neg fun hnil => hgap hnil.1 hnil.2]
  obtain ⟨r', ht, hr⟩ := exists_cons_of_unpadded hout hc
  exact ⟨r', ht, hr.symm⟩

theorem exists_escaped (h : Alike ('\\' :: c :: r) t) : ∃ r', t = '\\' :: c :: r' ∧ Alike r r' := by
  obtain ⟨r', ht, hr⟩ := exists_escaped_of_unpadded (h.symm.trans (unpadded.eq_1 c r))
  exact ⟨r', ht, hr.symm⟩

theorem exists_skipGap (h : Alike s t) (hs : FormulaDoc.skipGap s = c :: r) (hc : c ≠ '\\') :
    ∃ r', FormulaDoc.skipGap t = c :: r' ∧ Alike r r' := by
  have hgap : isGap c = false := isGap_of_skipGap (hs ▸ skipGap_idem s)
  exact (hs ▸ h.skipGap).exists_cons hc (by simp [hgap])

theorem skipGap_eq_nil (h : Alike s t) (hs : FormulaDoc.skipGap s = []) : FormulaDoc.skipGap t = [] := by
  have hnil : unpadded (FormulaDoc.skipGap t) = [] := by rw [← h.skipGap, hs]; rfl
  cases ht : FormulaDoc.skipGap t with
  | nil => rfl
  | cons c r =>
    have hgap : isGap c = false := isGap_of_skipGap (ht ▸ skipGap_idem t)
    have hc := isGap_of_unpadded_eq_nil hnil c (by simp [ht])
    rw [hgap] at hc
    cases hc

/-- A command has the same name in both texts, and leaves such texts. -/
theorem exists_command {name after : List Char} (h : Alike s t) (hs : command? s = some (name, after)) :
    ∃ after', command? t = some (name, after') ∧ Alike after after' := by
  obtain ⟨c, r, rfl⟩ := exists_of_command? hs
  obtain ⟨r', rfl, hr⟩ := h.exists_escaped
  simp only [command?] at hs ⊢
  split at hs
  next halpha =>
    cases hs
    have htake : r'.takeWhile Char.isAlpha = r.takeWhile Char.isAlpha := by
      rw [← takeWhile_unpadded r, ← takeWhile_unpadded r', hr]
    refine ⟨r'.dropWhile Char.isAlpha, by rw [if_pos halpha, htake], ?_⟩
    rw [Alike, ← dropWhile_unpadded, ← dropWhile_unpadded, hr]
  next halpha =>
    cases hs
    exact ⟨r', by rw [if_neg halpha], hr⟩

theorem startsCommand_eq (h : Alike s t) (name : String) : startsCommand name s = startsCommand name t := by
  have hstep : ∀ {s t}, Alike s t → startsCommand name s → startsCommand name t := by
    intro s t h hs
    obtain ⟨⟨cmd, after⟩, hcmd, hname⟩ := (Option.any_eq_true _ _).mp hs
    obtain ⟨after', hcmd', -⟩ := h.exists_command hcmd
    exact (Option.any_eq_true _ _).mpr ⟨_, hcmd', hname⟩
  exact Bool.eq_iff_iff.mpr ⟨hstep h, hstep h.symm⟩

theorem drop {name : String} (h : Alike s t) (hs : startsCommand name s) :
    Alike (s.drop name.toList.length) (t.drop name.toList.length) := by
  obtain ⟨⟨cmd, after⟩, hcmd, hname⟩ := (Option.any_eq_true _ _).mp hs
  obtain rfl : cmd = name.toList := by simpa using hname
  obtain ⟨after', hcmd', hafter⟩ := h.exists_command hcmd
  obtain ⟨-, rfl⟩ := command?_eq_append hcmd
  obtain ⟨-, rfl⟩ := command?_eq_append hcmd'
  rwa [List.drop_left, List.drop_left]

theorem head?_eq (h : Alike s t) (hc : c ≠ '\\') (hgap : isGap c = false) :
    (s.head? == some c) = (t.head? == some c) := by
  have hstep : ∀ {s t}, Alike s t → s.head? == some c → t.head? == some c := by
    intro s t h hs
    obtain ⟨r, rfl⟩ : ∃ r, s = c :: r := by
      cases s with
      | nil => cases hs
      | cons d r =>
        obtain rfl : d = c := by simpa using hs
        exact ⟨r, rfl⟩
    obtain ⟨r', rfl, -⟩ := h.exists_cons hc (by simp [hgap])
    simp
  exact Bool.eq_iff_iff.mpr ⟨hstep h, hstep h.symm⟩

theorem holds_eq (h : Alike s t) (stop : Stop) : stop.holds s = stop.holds t := by
  have hhead : ∀ c ∈ ['}', ']', '$', '&'], (s.head? == some c) = (t.head? == some c) := by
    intro c hc
    refine h.head?_eq ?_ ?_ <;> simp only [List.mem_cons, List.not_mem_nil, or_false] at hc <;>
      rcases hc with rfl | rfl | rfl | rfl <;> decide
  cases stop <;> simp only [Stop.holds, hhead '}' (by decide), hhead ']' (by decide),
    hhead '$' (by decide), hhead '&' (by decide), h.startsCommand_eq]

/-- Balanced text in front of a brace is a part of both texts. -/
theorem exists_append (hb : Balanced b) (h : Alike (b ++ '}' :: r) t) :
    ∃ r', t = b ++ '}' :: r' ∧ Alike r r' := by
  induction hb generalizing r t with
  | nil => exact h.exists_cons (by decide) (by simp [isGap])
  | @escaped c s _ ih =>
    obtain ⟨u, rfl, hu⟩ := h.exists_escaped
    obtain ⟨r', rfl, hr⟩ := ih hu
    exact ⟨r', rfl, hr⟩
  | @plain c s hesc _ _ _ ih =>
    have hbrace : unpadded (s ++ '}' :: r) ≠ [] := by
      intro hnil
      have hgap := isGap_of_unpadded_eq_nil hnil '}' (by simp)
      cases hgap
    obtain ⟨u, rfl, hu⟩ := h.exists_cons hesc fun _ => hbrace
    obtain ⟨r', rfl, hr⟩ := ih hu
    exact ⟨r', rfl, hr⟩
  | @group a b _ _ iha ihb =>
    rw [List.cons_append, List.append_assoc, List.cons_append] at h
    obtain ⟨u, rfl, hu⟩ := h.exists_cons (by decide) (by simp [isGap])
    obtain ⟨v, rfl, hv⟩ := iha hu
    obtain ⟨r', rfl, hr⟩ := ihb hv
    exact ⟨r', by simp, hr⟩

theorem cons (h : Alike s t) (hc : c ≠ '\\') : Alike (c :: s) (c :: t) := by
  rw [Alike, unpadded_cons hc, unpadded_cons hc, h]

/-- Behind balanced text alike texts are alike. -/
theorem append_left (hb : Balanced b) (h : Alike s t) : Alike (b ++ s) (b ++ t) := by
  induction hb generalizing s t with
  | nil => exact h
  | escaped c _ ih =>
    have hih := ih h
    rw [Alike] at hih ⊢
    rw [List.cons_append, List.cons_append, List.cons_append, List.cons_append, unpadded, unpadded, hih]
  | plain hesc _ _ _ ih => exact (ih h).cons hesc
  | group _ _ iha ihb =>
    have hinner := iha ((ihb h).cons (c := '}') (by decide))
    simpa using hinner.cons (c := '{') (by decide)

end Alike

/-- Gaps at the end of balanced text make no difference. -/
theorem Balanced.alike {q : List Char} (hb : Balanced b) (hq : ∀ c ∈ q, isGap c) : Alike b (b ++ q) := by
  have hnil : unpadded q = [] := by
    induction q with
    | nil => rfl
    | cons c q ih =>
      have hc : c ≠ '\\' := by
        rintro rfl
        cases hq '\\' List.mem_cons_self
      have hrest := ih fun d hd => hq d (List.mem_cons_of_mem _ hd)
      rw [unpadded_cons hc, if_pos ⟨hq c List.mem_cons_self, hrest⟩]
  have hgaps : Alike [] q := hnil.symm
  simpa using hgaps.append_left hb

section

variable {rest : List Char} (ha : Alike s t)

include ha

theorem rawGroup_alike {raw : List Char} (h : rawGroup s = .ok (raw, rest)) :
    ∃ rest', rawGroup t = .ok (raw, rest') ∧ Alike rest rest' := by
  obtain ⟨hs, hraw⟩ := rawGroup_eq_ok_iff.mp h
  obtain ⟨u, ht, hu⟩ := ha.exists_skipGap hs (by decide)
  obtain ⟨rest', rfl, hrest⟩ := hu.exists_append hraw
  exact ⟨rest', rawGroup_eq_ok_iff.mpr ⟨ht, hraw⟩, hrest⟩

theorem readName_alike {name : String} (h : readName s = .ok (name, rest)) :
    ∃ rest', readName t = .ok (name, rest') ∧ Alike rest rest' := by
  obtain ⟨raw, hraw, hname⟩ := readName_eq_ok.mp h
  obtain ⟨rest', hraw', hrest⟩ := rawGroup_alike ha hraw
  exact ⟨rest', readName_eq_ok.mpr ⟨raw, hraw', hname⟩, hrest⟩

theorem readEnd_alike {name : String} (h : readEnd name s = .ok rest) :
    ∃ rest', readEnd name t = .ok rest' ∧ Alike rest rest' := by
  obtain ⟨hend, hname⟩ := readEnd_eq_ok.mp h
  obtain ⟨rest', hname', hrest⟩ := readName_alike (ha.skipGap.drop hend) hname
  exact ⟨rest', readEnd_eq_ok.mpr ⟨ha.skipGap.startsCommand_eq _ ▸ hend, hname'⟩, hrest⟩

end

/-- A reader of siblings that reads from a text what all siblings are that are read from an alike one. -/
def ReadsAlike (nested : Nested) : Prop :=
  ∀ ⦃stop s items rest⦄, nested stop s = .ok (items, rest) → ∀ ⦃t⦄, Alike s t →
    ∃ rest', siblings [] stop t = .ok (items, rest') ∧ Alike rest rest'

section

variable {nested : Nested} (hn : ReadsAlike nested) {rest : List Char} {n : Node} {items : List Node}
  (ha : Alike s t)

include hn

theorem ReadsRows.alike {bound : Nat} {started : Bool} {rows : List (List Node)}
    (h : ReadsRows nested bound started s rows rest) :
    ∀ bound' t, Alike s t → t.length < bound' →
      ∃ rest', ReadsRows (siblings []) bound' started t rows rest' ∧ Alike rest rest' := by
  -- a cell that is read leaves a shorter text, so that the bound is enough for those behind it
  induction h with
  | cell hr _ ih =>
    rintro (_ | bound') t ha hlt
    · omega
    obtain ⟨r, hr', hmark⟩ := hn hr ha
    obtain ⟨u, rfl, hu⟩ := hmark.exists_cons (by decide) (by simp [isGap])
    have hle := (siblings_suffix hr').length_le
    rw [List.length_cons] at hle
    obtain ⟨rest', hrows, hrest⟩ := ih bound' u hu (by omega)
    exact ⟨rest', .cell hr' hrows, hrest⟩
  | row hr _ ih =>
    rintro (_ | bound') t ha hlt
    · omega
    obtain ⟨r, hr', hline⟩ := hn hr ha
    obtain ⟨u, rfl, hu⟩ := hline.exists_escaped
    have hle := (siblings_suffix hr').length_le
    rw [List.length_cons, List.length_cons] at hle
    obtain ⟨rest', hrows, hrest⟩ := ih bound' u hu (by omega)
    exact ⟨rest', .row hr' hrows, hrest⟩
  | last hr hend =>
    rintro (_ | bound') t ha hlt
    · omega
    obtain ⟨rest', hr', hrest⟩ := hn hr ha
    exact ⟨rest', .last hr' (hrest.startsCommand_eq _ ▸ hend), hrest⟩

include ha

theorem readClosed_alike {stop : Stop} {close : Char} (hc : close ≠ '\\')
    (h : readClosed nested stop close s = .ok (items, rest)) :
    ∃ rest', readClosed (siblings []) stop close t = .ok (items, rest') ∧ Alike rest rest' := by
  obtain ⟨r, hr, hclose⟩ := readClosed_eq_ok.mp h
  obtain ⟨r', hr', hrest⟩ := hn hr ha
  obtain ⟨rest', hclose', hrest'⟩ := hrest.exists_skipGap hclose hc
  exact ⟨rest', readClosed_eq_ok.mpr ⟨r', hr', hclose'⟩, hrest'⟩

theorem readBraced_alike (h : readBraced nested s = .ok (items, rest)) :
    ∃ rest', readBraced (siblings []) t = .ok (items, rest') ∧ Alike rest rest' := by
  obtain ⟨r, hopen, hr⟩ := readBraced_eq_ok.mp h
  obtain ⟨r', hopen', hinner⟩ := ha.exists_skipGap hopen (by decide)
  obtain ⟨rest', hr', hrest⟩ := readClosed_alike hn hinner (by decide) hr
  exact ⟨rest', readBraced_eq_ok.mpr ⟨r', hopen', hr'⟩, hrest⟩

theorem readArgument_alike (h : readArgument nested s = .ok (n, rest)) :
    ∃ rest', readArgument (siblings []) t = .ok (n, rest') ∧ Alike rest rest' := by
  obtain ⟨items, hr, hitems⟩ := readArgument_eq_ok.mp h
  obtain ⟨rest', hr', hrest⟩ := readBraced_alike hn ha hr
  exact ⟨rest', readArgument_eq_ok.mpr ⟨items, hr', hitems⟩, hrest⟩

theorem ReadsCommand.alike {name : String} (h : ReadsCommand nested name s n rest) :
    ∃ rest', ReadsCommand (siblings []) name t n rest' ∧ Alike rest rest' := by
  cases h with
  | newLine => exact ⟨t, .newLine, ha⟩
  | spacing hname => exact ⟨t, .spacing hname, ha⟩
  | leaf hname => exact ⟨t, .leaf hname, ha⟩
  | operator hname hlimits => exact ⟨t, .operator hname (ha.skipGap.startsCommand_eq _ ▸ hlimits), ha⟩
  | limits hname hlimits =>
    exact ⟨_, .limits hname (ha.skipGap.startsCommand_eq _ ▸ hlimits), ha.skipGap.drop hlimits⟩
  | tag hid hbody hsome =>
    obtain ⟨r, hid', hr⟩ := readName_alike ha hid
    obtain ⟨rest', hbody', hrest⟩ := readBraced_alike hn hr hbody
    exact ⟨rest', .tag hid' hbody' hsome, hrest⟩
  | frac hnum hden =>
    obtain ⟨r, hnum', hr⟩ := readArgument_alike hn ha hnum
    obtain ⟨rest', hden', hrest⟩ := readArgument_alike hn hr hden
    exact ⟨rest', .frac hnum' hden', hrest⟩
  | sqrt hs hbody =>
    obtain ⟨rest', hbody', hrest⟩ := readArgument_alike hn ha.skipGap hbody
    refine ⟨rest', .sqrt (fun u hu => ?_) hbody', hrest⟩
    obtain ⟨v, hv, -⟩ := ha.symm.exists_skipGap hu (by decide)
    exact hs v hv
  | index hs hitems hbody =>
    obtain ⟨r, hs', hr⟩ := ha.exists_skipGap hs (by decide)
    obtain ⟨r', hitems', hr'⟩ := readClosed_alike hn hr (by decide) hitems
    obtain ⟨rest', hbody', hrest⟩ := readArgument_alike hn hr' hbody
    exact ⟨rest', .index hs' hitems' hbody', hrest⟩
  | text hraw =>
    obtain ⟨rest', hraw', hrest⟩ := rawGroup_alike ha hraw
    exact ⟨rest', .text hraw', hrest⟩
  | textColor hname hbody =>
    obtain ⟨r, hname', hr⟩ := readName_alike ha hname
    obtain ⟨rest', hbody', hrest⟩ := readBraced_alike hn hr hbody
    exact ⟨rest', .textColor hname' hbody', hrest⟩
  | frameBox hborder hback hopen hdollar hitems hclose =>
    obtain ⟨r₁, hborder', h₁⟩ := readName_alike ha hborder
    obtain ⟨r₂, hback', h₂⟩ := readName_alike h₁ hback
    obtain ⟨r₃, hopen', h₃⟩ := h₂.exists_skipGap hopen (by decide)
    obtain ⟨r₄, hdollar', h₄⟩ := h₃.exists_skipGap hdollar (by decide)
    obtain ⟨r₅, hitems', h₅⟩ := readClosed_alike hn h₄ (by decide) hitems
    obtain ⟨rest', hclose', hrest⟩ := h₅.exists_skipGap hclose (by decide)
    exact ⟨rest', .frameBox hborder' hback' hopen' hdollar' hitems' hclose', hrest⟩
  | overbrace hbody =>
    obtain ⟨rest', hbody', hrest⟩ := readArgument_alike hn ha hbody
    exact ⟨rest', .overbrace hbody', hrest⟩
  | underbrace hbody =>
    obtain ⟨rest', hbody', hrest⟩ := readArgument_alike hn ha hbody
    exact ⟨rest', .underbrace hbody', hrest⟩
  | cancel hbody =>
    obtain ⟨rest', hbody', hrest⟩ := readArgument_alike hn ha hbody
    exact ⟨rest', .cancel hbody', hrest⟩
  | array hname halign hrows hend =>
    obtain ⟨r₁, hname', h₁⟩ := readName_alike ha hname
    obtain ⟨r₂, halign', h₂⟩ := readName_alike h₁ halign
    obtain ⟨r₃, hrows', h₃⟩ := (readRows_eq_ok.mp hrows).alike hn _ r₂ h₂ (Nat.lt_succ_self _)
    obtain ⟨rest', hend', hrest⟩ := readEnd_alike h₃ hend
    exact ⟨rest', .array hname' halign' (readRows_eq_ok.mpr hrows') hend', hrest⟩
  | aligned hname hcells hend =>
    obtain ⟨r₁, hname', h₁⟩ := readName_alike ha hname
    obtain ⟨r₂, hcells', h₂⟩ := hn hcells h₁
    obtain ⟨rest', hend', hrest⟩ := readEnd_alike h₂ hend
    exact ⟨rest', .aligned hname' hcells' hend', hrest⟩

theorem ReadsAtom.alike (h : ReadsAtom [] nested s n rest) (hs : skipGap s = s) :
    ∃ rest', ReadsAtom [] (siblings []) t n rest' ∧ Alike rest rest' := by
  cases h with
  | var hv => simp at hv
  | group h =>
    obtain ⟨r, rfl, hr⟩ := ha.exists_cons (by decide) (by simp [isGap])
    obtain ⟨rest', h', hrest⟩ := readClosed_alike hn hr (by decide) h
    exact ⟨rest', .group h', hrest⟩
  | alignMark =>
    obtain ⟨r, rfl, hr⟩ := ha.exists_cons (by decide) (by simp [isGap])
    exact ⟨r, .alignMark, hr⟩
  | command hcommand h =>
    obtain ⟨after, hcommand', hafter⟩ := ha.exists_command hcommand
    obtain ⟨rest', h', hrest⟩ := h.alike hn hafter
    exact ⟨rest', .command hcommand' h', hrest⟩
  | symbol hc =>
    have hback : ∀ {c : Char}, c ∉ ['{', '}', '_', '^', '&', '\\'] → c ≠ '\\' := by
      rintro c hc rfl
      simp at hc
    obtain ⟨r, rfl, hr⟩ := ha.exists_cons (hback hc) (by simp [isGap_of_skipGap hs])
    exact ⟨r, .symbol hc, hr⟩

theorem readScript_alike (h : readScript [] nested s = .ok (n, rest)) :
    ∃ rest', readScript [] (siblings []) t = .ok (n, rest') ∧ Alike rest rest' := by
  have hhead : (skipGap t).head? = some '{' ↔ (skipGap s).head? = some '{' := by
    simpa using (ha.skipGap.head?_eq (c := '{') (by decide) rfl).symm
  unfold readScript at h ⊢
  dsimp only at h ⊢
  split at h
  next hopen =>
    rw [if_pos (hhead.mpr hopen)]
    exact readArgument_alike hn ha.skipGap h
  next hopen =>
    rw [if_neg fun h' => hopen (hhead.mp h')]
    obtain ⟨rest', h', hrest⟩ := (readsAtom_of_readAtom h).alike hn ha.skipGap (skipGap_idem s)
    exact ⟨rest', readAtom_eq_ok.mpr h', hrest⟩

theorem ReadsScripts.alike {sub sup : Option Node} (h : ReadsScripts [] nested s sub sup rest) :
    ∃ rest', ReadsScripts [] (siblings []) t sub sup rest' ∧ Alike rest rest' := by
  have hnone : ∀ {c : Char} {s t : List Char}, Alike s t → c ≠ '\\' → (∀ r, skipGap s ≠ c :: r) →
      ∀ r, skipGap t ≠ c :: r := by
    intro c s t ha hc hs r ht
    obtain ⟨r', hr', -⟩ := ha.symm.exists_skipGap ht hc
    exact hs r' hr'
  cases h with
  | none hnosub hnosup =>
    exact ⟨_, .none (hnone ha (by decide) hnosub) (hnone ha (by decide) hnosup), ha.skipGap⟩
  | sub hmark h hrest =>
    obtain ⟨r, hmark', hr⟩ := ha.exists_skipGap hmark (by decide)
    obtain ⟨r', h', hr'⟩ := readScript_alike hn hr h
    exact ⟨_, .sub hmark' h' (hnone hr' (by decide) hrest), hr'.skipGap⟩
  | sup hmark h hrest =>
    obtain ⟨r, hmark', hr⟩ := ha.exists_skipGap hmark (by decide)
    obtain ⟨r', h', hr'⟩ := readScript_alike hn hr h
    exact ⟨_, .sup hmark' h' (hnone hr' (by decide) hrest), hr'.skipGap⟩
  | subSup hmark h hnext h₂ =>
    obtain ⟨r, hmark', hr⟩ := ha.exists_skipGap hmark (by decide)
    obtain ⟨r', h', hr'⟩ := readScript_alike hn hr h
    obtain ⟨u, hnext', hu⟩ := hr'.exists_skipGap hnext (by decide)
    obtain ⟨u', h₂', hu'⟩ := readScript_alike hn hu h₂
    exact ⟨_, .subSup hmark' h' hnext' h₂', hu'.skipGap⟩
  | supSub hmark h hnext h₂ =>
    obtain ⟨r, hmark', hr⟩ := ha.exists_skipGap hmark (by decide)
    obtain ⟨r', h', hr'⟩ := readScript_alike hn hr h
    obtain ⟨u, hnext', hu⟩ := hr'.exists_skipGap hnext (by decide)
    obtain ⟨u', h₂', hu'⟩ := readScript_alike hn hu h₂
    exact ⟨_, .supSub hmark' h' hnext' h₂', hu'.skipGap⟩

theorem readItem_alike (h : readItem [] nested s = .ok (n, rest)) (hs : skipGap s = s) :
    ∃ rest', readItem [] (siblings []) t = .ok (n, rest') ∧ Alike rest rest' := by
  obtain ⟨base, r, sub, sup, hbase, hscripts, hitem⟩ := readItem_eq_ok.mp h
  obtain ⟨r', hbase', hr⟩ := (readsAtom_of_readAtom hbase).alike hn ha hs
  obtain ⟨rest', hscripts', hrest⟩ := (readsScripts_of_readScripts hscripts).alike hn hr
  exact ⟨rest', readItem_eq_ok.mpr ⟨base, r', sub, sup, readAtom_eq_ok.mpr hbase',
    readScripts_eq_ok.mpr hscripts', hitem⟩, hrest⟩

end

/-- From two texts that differ in the gaps at their end alone the same siblings are read. -/
theorem siblings_alike {stop : Stop} {rest : List Char} {items : List Node}
    (h : siblings [] stop s = .ok (items, rest)) (ha : Alike s t) :
    ∃ rest', siblings [] stop t = .ok (items, rest') ∧ Alike rest rest' := by
  refine siblings_induct (by simp) (P := fun stop s items rest => ∀ ⦃t⦄, Alike s t →
    ∃ rest', siblings [] stop t = .ok (items, rest') ∧ Alike rest rest') ?_ ?_ h ha
  · intro stop s hend t ha
    have hend' : skipGap t = [] ∨ stop.holds (skipGap t) :=
      hend.imp ha.skipGap_eq_nil fun h => ha.skipGap.holds_eq stop ▸ h
    exact ⟨_, (siblings_eq_ok (by simp)).mpr (.inl ⟨hend', rfl, rfl⟩), ha.skipGap⟩
  · intro nested hreads stop s n r ns rest hne hnot hitem _ ih t ha
    obtain ⟨r', hitem', hr⟩ :=
      readItem_alike (fun _ _ _ _ hread => (hreads hread).2) ha.skipGap hitem (skipGap_idem s)
    obtain ⟨rest', hmore, hrest⟩ := ih hr
    refine ⟨rest', (siblings_eq_ok (by simp)).mpr (.inr ⟨?_, ?_, n, ns, r', rfl, hitem', hmore⟩), hrest⟩
    · exact fun hnil => hne (ha.symm.skipGap_eq_nil hnil)
    · rw [← ha.skipGap.holds_eq, hnot]

end FormulaDoc
