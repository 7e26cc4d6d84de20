import FormulaDoc.Proofs.Siblings

namespace FormulaDoc

/-- What is read off the front of a text is balanced. -/
def Consumes (s rest : List Char) : Prop :=
  ∃ b, Balanced b ∧ s = b ++ rest

theorem Consumes.refl (s : List Char) : Consumes s s :=
  ⟨[], .nil, rfl⟩

theorem Consumes.trans {s t u : List Char} (h : Consumes s t) (h' : Consumes t u) : Consumes s u := by
  obtain ⟨b, hb, rfl⟩ := h
  obtain ⟨c, hc, rfl⟩ := h'
  exact ⟨b ++ c, hb.append hc, by simp⟩

theorem consumes_skipGap (s : List Char) : Consumes s (skipGap s) := by
  induction s with
  | nil => exact .refl []
  | cons c s ih =>
    by_cases hc : isGap c
    · have hplain : c ≠ '\\' ∧ c ≠ '{' ∧ c ≠ '}' := by
        refine ⟨?_, ?_, ?_⟩ <;> rintro rfl <;> exact absurd hc (by decide)
      obtain ⟨b, hb, hs⟩ := ih
      refine ⟨c :: b, .plain hplain.1 hplain.2.1 hplain.2.2 hb, ?_⟩
      rw [skipGap, List.dropWhile_cons, if_pos hc, List.cons_append, ← skipGap, ← hs]
    · rw [skipGap, List.dropWhile_cons, if_neg hc]
      exact .refl _

theorem consumes_char {s rest : List Char} {c : Char} (hs : skipGap s = c :: rest)
    (hc : c ∉ ['\\', '{', '}']) : Consumes s rest := by
  simp only [List.mem_cons, List.not_mem_nil, or_false, not_or] at hc
  refine (consumes_skipGap s).trans ?_
  rw [hs]
  exact ⟨[c], .plain hc.1 hc.2.1 hc.2.2 .nil, rfl⟩

/-- A brace that is closed after balanced text. -/
theorem Consumes.braced {s r r' rest : List Char} (hopen : skipGap s = '{' :: r) (h : Consumes r r')
    (hclose : skipGap r' = '}' :: rest) : Consumes s rest := by
  obtain ⟨b, hb, hr⟩ := h.trans (consumes_skipGap r')
  refine (consumes_skipGap s).trans ?_
  rw [hopen, hr, hclose]
  exact ⟨'{' :: (b ++ '}' :: []), .group hb .nil, by simp⟩

theorem consumes_rawGroup {s raw rest : List Char} (h : rawGroup s = .ok (raw, rest)) :
    Consumes s rest := by
  obtain ⟨hs, hraw⟩ := rawGroup_eq_ok_iff.mp h
  exact .braced hs ⟨raw, hraw, rfl⟩ rfl

theorem consumes_readName {s rest : List Char} {name : String} (h : readName s = .ok (name, rest)) :
    Consumes s rest := by
  obtain ⟨raw, hraw, -⟩ := readName_eq_ok.mp h
  exact consumes_rawGroup hraw

/-- A command is a balanced text of its own. -/
theorem command?_eq_append {s name after : List Char} (h : command? s = some (name, after)) :
    Balanced name ∧ s = name ++ after := by
  rcases command?_cases h with ⟨c, rest, -, rfl, rfl, rfl⟩ | ⟨c, -, rfl, rfl⟩
  · have hletters : ∀ cs : List Char, (∀ d ∈ cs, d.isAlpha = true) → Balanced cs := by
      intro cs hcs
      induction cs with
      | nil => exact .nil
      | cons d cs ih =>
        have hd := hcs d List.mem_cons_self
        have hrest := ih fun e he => hcs e (List.mem_cons_of_mem _ he)
        refine .plain ?_ ?_ ?_ hrest <;> rintro rfl <;> exact absurd hd (by decide)
    have hname : Balanced (rest.takeWhile Char.isAlpha) :=
      hletters _ fun d hd => List.all_eq_true.mp List.all_takeWhile d hd
    refine ⟨.escaped c hname, ?_⟩
    simp
  · exact ⟨.escaped c .nil, rfl⟩

theorem consumes_command {s name after : List Char} (h : command? s = some (name, after)) :
    Consumes s after :=
  ⟨name, command?_eq_append h⟩

theorem exists_append_of_startsCommand {s : List Char} {name : String} (h : startsCommand name s) :
    Balanced name.toList ∧ ∃ after, s = name.toList ++ after := by
  unfold startsCommand at h
  rw [Option.any_eq_true] at h
  obtain ⟨⟨cmd, after⟩, hs, hname⟩ := h
  obtain rfl : cmd = name.toList := by simpa using hname
  obtain ⟨hb, hs⟩ := command?_eq_append hs
  exact ⟨hb, after, hs⟩

theorem consumes_drop {s : List Char} {name : String} (h : startsCommand name s) :
    Consumes s (s.drop name.toList.length) := by
  obtain ⟨hb, after, rfl⟩ := exists_append_of_startsCommand h
  rw [List.drop_left]
  exact ⟨_, hb, rfl⟩

theorem consumes_readEnd {name : String} {s rest : List Char} (h : readEnd name s = .ok rest) :
    Consumes s rest := by
  obtain ⟨hend, hname⟩ := readEnd_eq_ok.mp h
  have hcommand := (consumes_skipGap s).trans (consumes_drop hend)
  exact hcommand.trans (consumes_readName hname)

section

variable {nested : Nested}
  (hn : ∀ ⦃stop s items rest⦄, nested stop s = .ok (items, rest) → Consumes s rest)
  {s rest : List Char} {n : Node} {items : List Node}

include hn

theorem consumes_readBraced (h : readBraced nested s = .ok (items, rest)) : Consumes s rest := by
  obtain ⟨r, hopen, hr⟩ := readBraced_eq_ok.mp h
  obtain ⟨r', hr', hclose⟩ := readClosed_eq_ok.mp hr
  exact .braced hopen (hn hr') hclose

theorem consumes_readArgument (h : readArgument nested s = .ok (n, rest)) : Consumes s rest := by
  obtain ⟨items, hr, -⟩ := readArgument_eq_ok.mp h
  exact consumes_readBraced hn hr

theorem ReadsRows.consumes {bound : Nat} {started : Bool} {rows : List (List Node)}
    (h : ReadsRows nested bound started s rows rest) : Consumes s rest := by
  induction h with
  | cell hs _ ih =>
    have cell := (hn hs).trans (consumes_char rfl (by decide))
    exact cell.trans ih
  | row hs _ ih =>
    have row := (hn hs).trans ⟨['\\', '\\'], .escaped _ .nil, rfl⟩
    exact row.trans ih
  | last hs _ => exact hn hs

theorem ReadsCommand.consumes {name : String} (h : ReadsCommand nested name s n rest) :
    Consumes s rest := by
  cases h with
  | newLine | spacing | operator | leaf => exact .refl s
  | limits _ hlimits => exact (consumes_skipGap s).trans (consumes_drop hlimits)
  | tag hid hbody => exact (consumes_readName hid).trans (consumes_readBraced hn hbody)
  | frac hnum hden => exact (consumes_readArgument hn hnum).trans (consumes_readArgument hn hden)
  | sqrt _ hbody => exact (consumes_skipGap s).trans (consumes_readArgument hn hbody)
  | index hs hitems hbody =>
    obtain ⟨r, hr, hclose⟩ := readClosed_eq_ok.mp hitems
    have opened := consumes_char hs (by decide)
    have closed := consumes_char hclose (by decide)
    have index := (opened.trans (hn hr)).trans closed
    exact index.trans (consumes_readArgument hn hbody)
  | text hraw => exact consumes_rawGroup hraw
  | textColor hname hbody => exact (consumes_readName hname).trans (consumes_readBraced hn hbody)
  | frameBox hborder hback hopen hdollar hitems hclose =>
    obtain ⟨r, hr, hend⟩ := readClosed_eq_ok.mp hitems
    have colors := (consumes_readName hborder).trans (consumes_readName hback)
    have opened := consumes_char hdollar (by decide)
    have closed := consumes_char hend (by decide)
    have inner := (opened.trans (hn hr)).trans closed
    exact colors.trans (.braced hopen inner hclose)
  | overbrace hbody | underbrace hbody | cancel hbody => exact consumes_readArgument hn hbody
  | array hname halign hrows hend =>
    have names := (consumes_readName hname).trans (consumes_readName halign)
    have rows := (readRows_eq_ok.mp hrows).consumes hn
    exact names.trans (rows.trans (consumes_readEnd hend))
  | aligned hname hcells hend =>
    have cells := (consumes_readName hname).trans (hn hcells)
    exact cells.trans (consumes_readEnd hend)

theorem ReadsAtom.consumes (h : ReadsAtom [] nested s n rest) : Consumes s rest := by
  cases h with
  | var hv => simp at hv
  | group h =>
    obtain ⟨r, hr, hclose⟩ := readClosed_eq_ok.mp h
    exact .braced rfl (hn hr) hclose
  | alignMark => exact consumes_char rfl (by decide)
  | command hs h => exact (consumes_command hs).trans (h.consumes hn)
  | @symbol c t hc =>
    simp only [List.mem_cons, List.not_mem_nil, or_false, not_or] at hc
    exact ⟨[c], .plain hc.2.2.2.2.2 hc.1 hc.2.1 .nil, rfl⟩

theorem consumes_readScript (h : readScript [] nested s = .ok (n, rest)) : Consumes s rest := by
  unfold readScript at h
  dsimp only at h
  refine (consumes_skipGap s).trans ?_
  split at h
  next => exact consumes_readArgument hn h
  next => exact (readsAtom_of_readAtom h).consumes hn

theorem ReadsScripts.consumes {sub sup : Option Node} (h : ReadsScripts [] nested s sub sup rest) :
    Consumes s rest := by
  cases h with
  | none => exact consumes_skipGap s
  | sub hs hscript | sup hs hscript =>
    have one := (consumes_char hs (by decide)).trans (consumes_readScript hn hscript)
    exact one.trans (consumes_skipGap _)
  | subSup hs hone hr htwo | supSub hs hone hr htwo =>
    have one := (consumes_char hs (by decide)).trans (consumes_readScript hn hone)
    have two := (consumes_char hr (by decide)).trans (consumes_readScript hn htwo)
    exact (one.trans two).trans (consumes_skipGap _)

theorem consumes_readItem (h : readItem [] nested s = .ok (n, rest)) : Consumes s rest := by
  obtain ⟨base, r, sub, sup, hbase, hscripts, -⟩ := readItem_eq_ok.mp h
  have atom := (readsAtom_of_readAtom hbase).consumes hn
  have scripts := (readsScripts_of_readScripts hscripts).consumes hn
  exact atom.trans scripts

end

/-- Siblings take balanced text. -/
theorem siblings_consumes {stop : Stop} {s rest : List Char} {items : List Node}
    (h : siblings [] stop s = .ok (items, rest)) : Consumes s rest := by
  refine siblings_induct (by simp) (P := fun _ s _ rest => Consumes s rest) ?_ ?_ h
  · intro _ s _
    exact consumes_skipGap s
  · intro nested hreads stop s n r ns rest _ _ hitem _ ih
    have item := consumes_readItem (fun _ _ _ _ hr => (hreads hr).2) hitem
    exact ((consumes_skipGap s).trans item).trans ih

/-- Siblings that nothing but the end of the text can end take the whole of it. -/
theorem siblings_never {s rest : List Char} {items : List Node}
    (h : siblings [] .never s = .ok (items, rest)) : rest = [] := by
  have hstops := (siblings_rest (by simp) h).2
  simpa [Stop.holds] using hstops

/-- A text that is read to its end is balanced. -/
theorem balanced_of_siblings {s rest : List Char} {items : List Node}
    (h : siblings [] .never s = .ok (items, rest)) : Balanced s := by
  obtain ⟨b, hb, hs⟩ := siblings_consumes h
  rw [siblings_never h, List.append_nil] at hs
  exact hs ▸ hb

end FormulaDoc
