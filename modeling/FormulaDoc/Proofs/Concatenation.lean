import FormulaDoc.Proofs.Stability
import FormulaDoc.Proofs.Tagless

namespace FormulaDoc

/-- A text that begins with a blank and of which an item in front of it takes nothing. -/
structure Apart (w : List Char) : Prop where
  blank : ∃ c t, w = c :: t ∧ isBlank c
  limits : startsCommand "\\limits" (skipGap w) = false
  unscripted : Unscripted w

theorem skipGap_append {s : List Char} (h : skipGap s ≠ []) (w : List Char) :
    skipGap (s ++ w) = skipGap s ++ w := by
  unfold skipGap at h ⊢
  simp [List.dropWhile_append, h]

theorem skipGap_append_of_nil {s : List Char} (h : skipGap s = []) (w : List Char) :
    skipGap (s ++ w) = skipGap w := by
  unfold skipGap at h ⊢
  simp [List.dropWhile_append, h]

theorem skipGap_append_cons {s r : List Char} {c : Char} (h : skipGap s = c :: r) (w : List Char) :
    skipGap (s ++ w) = c :: (r ++ w) := by
  rw [skipGap_append (by simp [h]), h, List.cons_append]

theorem skipGap_append_skipGap (s w : List Char) : skipGap (skipGap s ++ w) = skipGap (s ++ w) := by
  by_cases hs : skipGap s = []
  · rw [hs, skipGap_append_of_nil hs, List.nil_append]
  · rw [skipGap_append hs, skipGap_append (by rwa [skipGap_idem]), skipGap_idem]

theorem skipGap_append_ne {s w : List Char} {c : Char} (hs : ∀ t, skipGap s ≠ c :: t)
    (hw : ∀ t, skipGap w ≠ c :: t) (t : List Char) : skipGap (s ++ w) ≠ c :: t := by
  cases hgap : skipGap s with
  | nil =>
    rw [skipGap_append_of_nil hgap]
    exact hw t
  | cons d r =>
    rw [skipGap_append_cons hgap]
    intro he
    cases he
    exact hs r hgap

theorem ne_nil_of_skipGap {s : List Char} (h : skipGap s ≠ []) : s ≠ [] := by
  rintro rfl
  exact h rfl

theorem ne_nil_of_startsCommand {name : String} {s : List Char} (h : startsCommand name s) :
    s ≠ [] := by
  rintro rfl
  cases h

/-- The command that a text starts with is a part of it. -/
theorem drop_append_of_startsCommand {name : String} {s : List Char} (h : startsCommand name s)
    (w : List Char) : (s ++ w).drop name.toList.length = s.drop name.toList.length ++ w := by
  obtain ⟨-, after, rfl⟩ := exists_append_of_startsCommand h
  rw [List.append_assoc, List.drop_left, List.drop_left]

theorem ne_of_isBlank {b c : Char} (hb : isBlank b) (hc : isBlank c = false) : b ≠ c := by
  rintro rfl
  rw [hb] at hc
  cases hc

theorem isAlpha_of_isBlank {c : Char} (h : isBlank c) : c.isAlpha = false := by
  have halpha : c.isAlpha = (decide ('A'.val ≤ c.val ∧ c.val ≤ 'Z'.val) ||
      decide ('a'.val ≤ c.val) && decide (c.val ≤ 'z'.val)) := rfl
  have hval : c.val.toNat = c.toNat := rfl
  simp only [isBlank, Bool.or_eq_true, Bool.and_eq_true, decide_eq_true_eq, beq_iff_eq] at h
  simp only [halpha, UInt32.le_iff_toNat_le, hval, Char.reduceVal, UInt32.reduceToNat, Bool.or_eq_false_iff,
    Bool.and_eq_false_iff, decide_eq_false_iff_not]
  omega

namespace Apart

variable {w : List Char} (hw : Apart w)

include hw

theorem isAlpha_eq_false : ∀ c t, w = c :: t → c.isAlpha = false := by
  obtain ⟨c, t, rfl, hblank⟩ := hw.blank
  rintro c t he
  cases he
  exact isAlpha_of_isBlank hblank

theorem startsCommand_append {name : String} (hname : name ∈ ["\\\\", "\\end", "\\limits"]) (s : List Char) :
    startsCommand name (s ++ w) = startsCommand name s := by
  unfold startsCommand
  cases hs : command? s with
  | some reading =>
    obtain ⟨cmd, after⟩ := reading
    rw [command?_append hs hw.isAlpha_eq_false]
    rfl
  | none =>
    obtain ⟨b, t, rfl, hblank⟩ := hw.blank
    cases s with
    | nil =>
      rw [List.nil_append, command?_eq_none (ne_of_isBlank hblank rfl)]
    | cons c s =>
      by_cases hc : c = '\\'
      · subst hc
        -- a backslash at the end takes the blank along
        cases s with
        | nil =>
          have hne : ['\\', b] ≠ name.toList := by
            intro he
            simp only [List.mem_cons, List.not_mem_nil, or_false] at hname
            rcases hname with rfl | rfl | rfl <;> cases he
            exact ne_of_isBlank hblank rfl rfl
          simpa [command?, isAlpha_of_isBlank hblank] using hne
        | cons d s =>
          by_cases hd : d.isAlpha <;> simp [command?, hd] at hs
      · rw [List.cons_append, command?_eq_none hc]

theorem holds_append (stop : Stop) (s : List Char) : stop.holds (s ++ w) = stop.holds s := by
  have hhead : ∀ c, isBlank c = false → ((s ++ w).head? == some c) = (s.head? == some c) := by
    obtain ⟨b, t, rfl, hblank⟩ := hw.blank
    intro c hc
    cases s <;> simp [ne_of_isBlank hblank hc]
  have hline : startsCommand "\\\\" (s ++ w) = startsCommand "\\\\" s :=
    hw.startsCommand_append (by decide) s
  have hend : startsCommand "\\end" (s ++ w) = startsCommand "\\end" s :=
    hw.startsCommand_append (by decide) s
  cases stop <;> simp only [Stop.holds, hhead '}' (by decide), hhead ']' (by decide),
    hhead '$' (by decide), hhead '&' (by decide), hline, hend]

end Apart

/-- A reader of siblings that reads what another one reads also in front of more text, unless that was
read to its end. -/
def Extends (w : List Char) (nested nested' : Nested) : Prop :=
  ∀ ⦃stop s items rest⦄, nested stop s = .ok (items, rest) → rest ≠ [] →
    nested' stop (s ++ w) = .ok (items, rest ++ w)

section

variable {w : List Char} {s rest : List Char}

theorem rawGroup_append {raw : List Char} (h : rawGroup s = .ok (raw, rest)) (w : List Char) :
    rawGroup (s ++ w) = .ok (raw, rest ++ w) := by
  obtain ⟨hs, hraw⟩ := rawGroup_eq_ok_iff.mp h
  exact rawGroup_eq_ok_iff.mpr ⟨by simpa using skipGap_append_cons hs w, hraw⟩

theorem readName_append {name : String} (h : readName s = .ok (name, rest)) (w : List Char) :
    readName (s ++ w) = .ok (name, rest ++ w) := by
  obtain ⟨raw, hraw, hname⟩ := readName_eq_ok.mp h
  exact readName_eq_ok.mpr ⟨raw, rawGroup_append hraw w, hname⟩

theorem readEnd_append (hw : Apart w) {name : String} (h : readEnd name s = .ok rest) :
    readEnd name (s ++ w) = .ok (rest ++ w) := by
  obtain ⟨hend, hname⟩ := readEnd_eq_ok.mp h
  have hgap := skipGap_append (ne_nil_of_startsCommand hend) w
  refine readEnd_eq_ok.mpr ⟨?_, ?_⟩
  · rwa [hgap, hw.startsCommand_append (by decide)]
  · rw [hgap, show 4 = "\\end".toList.length from rfl, drop_append_of_startsCommand hend]
    exact readName_append hname w

variable {nested nested' : Nested} (hw : Apart w) (hn : Extends w nested nested')
  {n : Node} {items : List Node}

include hn

theorem readClosed_append {stop : Stop} {close : Char}
    (h : readClosed nested stop close s = .ok (items, rest)) :
    readClosed nested' stop close (s ++ w) = .ok (items, rest ++ w) := by
  obtain ⟨r, hr, hclose⟩ := readClosed_eq_ok.mp h
  have hne : r ≠ [] := ne_nil_of_skipGap (by simp [hclose])
  have hread := hn hr hne
  exact readClosed_eq_ok.mpr ⟨r ++ w, hread, skipGap_append_cons hclose w⟩

theorem readBraced_append (h : readBraced nested s = .ok (items, rest)) :
    readBraced nested' (s ++ w) = .ok (items, rest ++ w) := by
  obtain ⟨r, hopen, hr⟩ := readBraced_eq_ok.mp h
  exact readBraced_eq_ok.mpr ⟨r ++ w, skipGap_append_cons hopen w, readClosed_append hn hr⟩

theorem readArgument_append (h : readArgument nested s = .ok (n, rest)) :
    readArgument nested' (s ++ w) = .ok (n, rest ++ w) := by
  obtain ⟨items, hr, hitems⟩ := readArgument_eq_ok.mp h
  exact readArgument_eq_ok.mpr ⟨items, readBraced_append hn hr, hitems⟩

include hw

theorem ReadsRows.append {bound : Nat} {started : Bool} {rows : List (List Node)}
    (h : ReadsRows nested bound started s rows rest) :
    ∀ bound', bound ≤ bound' → ReadsRows nested' bound' started (s ++ w) rows (rest ++ w) := by
  induction h with
  | cell hr _ ih =>
    rintro (_ | bound') hle
    · omega
    · have hcell := hn hr (by simp)
      have hrest := ih bound' (by omega)
      exact .cell hcell hrest
  | row hr _ ih =>
    rintro (_ | bound') hle
    · omega
    · have hcell := hn hr (by simp)
      have hrest := ih bound' (by omega)
      exact .row hcell hrest
  | last hr hend =>
    rintro (_ | bound') hle
    · omega
    · have hcell := hn hr (ne_nil_of_startsCommand hend)
      exact .last hcell (by rwa [hw.startsCommand_append (by decide)])

theorem ReadsCommand.append {name : String} (h : ReadsCommand nested name s n rest) :
    ReadsCommand nested' name (s ++ w) n (rest ++ w) := by
  cases h with
  | newLine => exact .newLine
  | spacing hname => exact .spacing hname
  | operator hname hlimits =>
    refine .operator hname ?_
    by_cases hs : skipGap s = []
    · rw [skipGap_append_of_nil hs]
      exact hw.limits
    · rwa [skipGap_append hs, hw.startsCommand_append (by decide)]
  | limits hname hlimits =>
    have hgap := skipGap_append (ne_nil_of_startsCommand hlimits) w
    have hdrop := drop_append_of_startsCommand hlimits w
    rw [← show 7 = "\\limits".toList.length from rfl, ← hgap] at hdrop
    rw [← hdrop]
    exact .limits hname (by rwa [hgap, hw.startsCommand_append (by decide)])
  | tag hid hbody hsome => exact .tag (readName_append hid w) (readBraced_append hn hbody) hsome
  | frac hnum hden => exact .frac (readArgument_append hn hnum) (readArgument_append hn hden)
  | sqrt hs hbody =>
    obtain ⟨items, hbraced, -⟩ := readArgument_eq_ok.mp hbody
    obtain ⟨r, hopen, -⟩ := readBraced_eq_ok.mp hbraced
    rw [skipGap_idem] at hopen
    have hgap : skipGap (s ++ w) = skipGap s ++ w := skipGap_append (by simp [hopen]) w
    refine .sqrt (fun t ht => ?_) (hgap ▸ readArgument_append hn hbody)
    rw [skipGap_append_cons hopen] at ht
    cases ht
  | index hs hitems hbody =>
    exact .index (skipGap_append_cons hs w) (readClosed_append hn hitems) (readArgument_append hn hbody)
  | text hraw => exact .text (rawGroup_append hraw w)
  | textColor hname hbody => exact .textColor (readName_append hname w) (readBraced_append hn hbody)
  | frameBox hborder hback hopen hdollar hitems hclose =>
    exact .frameBox (readName_append hborder w) (readName_append hback w) (skipGap_append_cons hopen w)
      (skipGap_append_cons hdollar w) (readClosed_append hn hitems) (skipGap_append_cons hclose w)
  | overbrace hbody => exact .overbrace (readArgument_append hn hbody)
  | underbrace hbody => exact .underbrace (readArgument_append hn hbody)
  | cancel hbody => exact .cancel (readArgument_append hn hbody)
  | array hname halign hrows hend =>
    have happend := (readRows_eq_ok.mp hrows).append hw hn
    exact .array (readName_append hname w) (readName_append halign w)
      (readRows_eq_ok.mpr (happend _ (by simp))) (readEnd_append hw hend)
  | aligned hname hcells hend =>
    obtain ⟨hstarts, -⟩ := readEnd_eq_ok.mp hend
    have hne := ne_nil_of_skipGap (ne_nil_of_startsCommand hstarts)
    exact .aligned (readName_append hname w) (hn hcells hne) (readEnd_append hw hend)
  | leaf hname => exact .leaf hname

theorem ReadsAtom.append (h : ReadsAtom [] nested s n rest) :
    ReadsAtom [] nested' (s ++ w) n (rest ++ w) := by
  cases h with
  | var hv => simp at hv
  | group h => exact .group (readClosed_append hn h)
  | alignMark => exact .alignMark
  | command hs h => exact .command (command?_append hs hw.isAlpha_eq_false) (h.append hw hn)
  | symbol hc => exact .symbol hc

theorem readScript_append (h : readScript [] nested s = .ok (n, rest)) :
    readScript [] nested' (s ++ w) = .ok (n, rest ++ w) := by
  have hne : skipGap s ≠ [] := by
    intro he
    rw [readScript, he] at h
    exact absurd h failAt_ne_ok
  have hhead : (skipGap s ++ w).head? = (skipGap s).head? := by
    rw [List.head?_append_of_ne_nil _ hne]
  unfold readScript at h ⊢
  dsimp only at h ⊢
  rw [skipGap_append hne, hhead]
  split at h
  next hopen =>
    rw [if_pos hopen]
    exact readArgument_append hn h
  next hopen =>
    have hatom := (readsAtom_of_readAtom h).append hw hn
    rw [if_neg hopen]
    exact readAtom_eq_ok.mpr hatom

/-- The blanks behind scripts are taken, also those that come with the text behind them. -/
theorem ReadsScripts.append {sub sup : Option Node} (h : ReadsScripts [] nested s sub sup rest) :
    ReadsScripts [] nested' (s ++ w) sub sup (skipGap (rest ++ w)) := by
  have hsub : ∀ t, skipGap w ≠ '_' :: t := fun t => (hw.unscripted t).1
  have hsup : ∀ t, skipGap w ≠ '^' :: t := fun t => (hw.unscripted t).2
  cases h with
  | none hnosub hnosup =>
    rw [skipGap_append_skipGap]
    exact .none (skipGap_append_ne hnosub hsub) (skipGap_append_ne hnosup hsup)
  | sub hmark h hrest =>
    rw [skipGap_append_skipGap]
    exact .sub (skipGap_append_cons hmark w) (readScript_append hw hn h) (skipGap_append_ne hrest hsup)
  | sup hmark h hrest =>
    rw [skipGap_append_skipGap]
    exact .sup (skipGap_append_cons hmark w) (readScript_append hw hn h) (skipGap_append_ne hrest hsub)
  | subSup hmark h hmark' h' =>
    rw [skipGap_append_skipGap]
    exact .subSup (skipGap_append_cons hmark w) (readScript_append hw hn h)
      (skipGap_append_cons hmark' w) (readScript_append hw hn h')
  | supSub hmark h hmark' h' =>
    rw [skipGap_append_skipGap]
    exact .supSub (skipGap_append_cons hmark w) (readScript_append hw hn h)
      (skipGap_append_cons hmark' w) (readScript_append hw hn h')

theorem readItem_append (h : readItem [] nested s = .ok (n, rest)) :
    readItem [] nested' (s ++ w) = .ok (n, skipGap (rest ++ w)) := by
  obtain ⟨base, r, sub, sup, hbase, hscripts, hitem⟩ := readItem_eq_ok.mp h
  have hbase' := (readsAtom_of_readAtom hbase).append hw hn
  have hscripts' := (readsScripts_of_readScripts hscripts).append hw hn
  exact readItem_eq_ok.mpr ⟨base, r ++ w, sub, sup, readAtom_eq_ok.mpr hbase',
    readScripts_eq_ok.mpr hscripts', hitem⟩

end

/-- Siblings in front of more text are what they were without it, and then what is read in the place
where they ended. -/
theorem siblings_append {w : List Char} (hw : Apart w) {stop : Stop} {s rest r : List Char}
    {items more : List Node} (h : siblings [] stop s = .ok (items, rest))
    (hmore : siblings [] stop (rest ++ w) = .ok (more, r)) :
    siblings [] stop (s ++ w) = .ok (items ++ more, r) := by
  refine siblings_induct (by simp)
    (P := fun stop s items rest => ∀ more r, siblings [] stop (rest ++ w) = .ok (more, r) →
      siblings [] stop (s ++ w) = .ok (items ++ more, r)) ?_ ?_ h more r hmore
  · intro stop s _ more r hmore
    rwa [← siblings_skipGap (skipGap_append_skipGap s w)]
  intro nested hreads stop s n r ns rest hne hnot hitem _ ih more u hmore
  have hn : Extends w nested (siblings []) := by
    intro stop' t ms v ht hv
    obtain ⟨hread, happend⟩ := hreads ht
    obtain ⟨hgap, hend⟩ := siblings_rest (by simp) hread
    have hgap' : skipGap (v ++ w) = v ++ w := by rw [skipGap_append (hgap.symm ▸ hv), hgap]
    have hstop : stop'.holds (skipGap (v ++ w)) := by
      rw [hgap', hw.holds_append]
      exact hend.resolve_left hv
    have hrest : siblings [] stop' (v ++ w) = .ok ([], v ++ w) :=
      (siblings_eq_ok (by simp)).mpr (.inl ⟨.inr hstop, rfl, hgap'.symm⟩)
    simpa using happend _ _ hrest
  have hgap := skipGap_append hne w
  refine (siblings_eq_ok (by simp)).mpr (.inr ⟨?_, ?_, n, ns ++ more, skipGap (r ++ w), rfl, ?_, ?_⟩)
  · rw [hgap]
    exact List.append_ne_nil_of_left_ne_nil hne w
  · rw [hgap, hw.holds_append, hnot]
  · rw [hgap]
    exact readItem_append hw hn hitem
  · rw [siblings_skipGap (skipGap_idem _)]
    exact ih more u hmore

theorem ReadsCommand.name_notMem {nested : Nested} {name : String} {s rest : List Char} {n : Node}
    (h : ReadsCommand nested name s n rest) : name ∉ ["\\end", "\\limits"] := by
  cases h with
  | spacing hname =>
    have hnot : ∀ name ∈ spacingCommands, name ∉ ["\\end", "\\limits"] := by decide
    exact hnot name hname
  | operator hname | limits hname =>
    have hnot : ∀ name ∈ bigOperators, name ∉ ["\\end", "\\limits"] := by decide
    exact hnot name hname
  | leaf hname =>
    have hstray : ∀ name ∈ ["\\end", "\\limits"], Command.ofName name = .stray := by decide
    intro hmem
    rw [hstray name hmem] at hname
    cases hname
  | _ => decide

theorem ReadsAtom.starts {nested : Nested} {s rest : List Char} {n : Node}
    (h : ReadsAtom [] nested s n rest) (hs : skipGap s = s) : Starts s := by
  cases h with
  | var hv => simp at hv
  | group => exact .inl ⟨'{', _, rfl, rfl, by decide⟩
  | alignMark => exact .inl ⟨'&', _, rfl, rfl, by decide⟩
  | command hs h => exact .inr ⟨_, _, hs, h.name_notMem⟩
  | symbol hc =>
    refine .inl ⟨_, _, rfl, isGap_of_skipGap hs, ?_⟩
    simp only [List.mem_cons, List.not_mem_nil, or_false, not_or] at hc ⊢
    exact ⟨hc.2.1, hc.2.2.1, hc.2.2.2.1, hc.2.2.2.2.2⟩

/-- Behind a blank an accepted text adds nothing to what stands in front of it. -/
theorem apart_of_siblings {t rest : List Char} {ns : List Node}
    (h : siblings [] .never t = .ok (ns, rest)) : Apart (' ' :: t) := by
  have hblank : ∃ c u, ' ' :: t = c :: u ∧ isBlank c := ⟨' ', t, rfl, rfl⟩
  rcases (siblings_eq_ok (by simp)).mp h with ⟨hend, -, -⟩ | ⟨-, -, n, ms, r, -, hitem, -⟩
  · have hnil : skipGap (' ' :: t) = [] := by simpa [Stop.holds, skipGap_space] using hend
    refine ⟨hblank, ?_, ?_⟩
    · rw [hnil]
      rfl
    · intro u
      simp [hnil]
  · obtain ⟨base, r', sub, sup, hbase, -, -⟩ := readItem_eq_ok.mp hitem
    have hstarts := (readsAtom_of_readAtom hbase).starts (skipGap_idem t)
    have hgap : skipGap (' ' :: t) = skipGap (' ' :: skipGap t) := (skipGap_idem t).symm
    refine ⟨hblank, ?_, ?_⟩
    · rw [hgap]
      exact hstarts.cutOff.2
    · intro u
      rw [hgap]
      exact hstarts.unscripted u

namespace Formula

variable {s t : String} {f g : Formula}

/-- Two accepted texts without tags are also accepted with a blank between them, as the nodes of the
first and then those of the second, under path ids. -/
theorem parse_append (hs : Tagless s.toList) (ht : Tagless t.toList) (hf : parse [] s = .ok f)
    (hg : parse [] t = .ok g) :
    ∃ r, ofNodes (labelNodes false (f.children ++ g.children)) = .ok r ∧
      parse [] (s ++ " " ++ t) = .ok r := by
  obtain ⟨ns, hns, hf⟩ := parse_eq_ok hf
  obtain ⟨ms, hms, hg⟩ := parse_eq_ok hg
  have hrest : siblings [] .never ([] ++ ' ' :: t.toList) = .ok (ms, []) := by
    rwa [List.nil_append, siblings_skipGap (skipGap_space t.toList)]
  have hread : siblings [] .never (s ++ " " ++ t).toList = .ok (ns ++ ms, []) := by
    have happend := siblings_append (apart_of_siblings hms) hns hrest
    simpa using happend
  have hblank : (ns ++ ms).map Node.blank = ns ++ ms := by
    have hself : ∀ n ∈ ns ++ ms, n.blank = n := by
      intro n hn
      rcases List.mem_append.mp hn with hn | hn
      · exact siblings_blank hns hs n hn
      · exact siblings_blank hms ht n hn
    rw [List.map_congr_left hself, List.map_id']
  have hlabels : labelNodes false (f.children ++ g.children) = labelNodes false (ns ++ ms) := by
    rw [← labelNodes_blank false, List.map_append, hf, hg, map_blank_labelNodes, map_blank_labelNodes,
      ← List.map_append, hblank]
  have hnodes : readNodes [] (s ++ " " ++ t) = .ok (ns ++ ms) := by
    rw [readNodes_eq, hread]
    rfl
  refine ⟨⟨labelNodes false (ns ++ ms), nodup_labelNodes _⟩, ?_, ?_⟩
  · rw [hlabels]
    exact ofNodes_eq_ok _
  · exact parse_of_readNodes hnodes hblank

/-- The operator does not take a script of the second text, nor does the command its first letter. -/
theorem parse_append_operator : ∃ r, parse [] ("\\sum" ++ " " ++ "a^2") = .ok r ∧
    ∃ f g, parse [] "\\sum" = .ok f ∧ parse [] "a^2" = .ok g ∧
      ofNodes (labelNodes false (f.children ++ g.children)) = .ok r := by
  have hsum : (parse [] "\\sum").toOption.any fun _ => True := by decide +kernel
  have hpower : (parse [] "a^2").toOption.any fun _ => True := by decide +kernel
  obtain ⟨f, hf, -⟩ := exists_ok_of_any hsum
  obtain ⟨g, hg, -⟩ := exists_ok_of_any hpower
  obtain ⟨r, hlabels, hr⟩ := parse_append (by decide +kernel) (by decide +kernel) hf hg
  exact ⟨r, hr, f, g, hf, hg, hlabels⟩

end Formula

end FormulaDoc
