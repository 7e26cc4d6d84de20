import FormulaDoc.Proofs.Escaping
import FormulaDoc.Range

namespace FormulaDoc

namespace Range

mutual

theorem length_eq : (r : Range) → r.length = r.text.length
  | plain s => rfl
  | styled id left children right hints => by
    rw [length, text, lengthAll_eq children, String.length_append, String.length_append]

theorem lengthAll_eq : (rs : List Range) → lengthAll rs = (textAll rs).length
  | [] => rfl
  | r :: rs => by rw [lengthAll, textAll, String.length_append, length_eq r, lengthAll_eq rs]

end

theorem textAll_append (rs ts : List Range) : textAll (rs ++ ts) = textAll rs ++ textAll ts := by
  induction rs with
  | nil => simp [textAll]
  | cons r rs ih => rw [List.cons_append, textAll, textAll, ih, String.append_assoc]

theorem textAll_prepend (s : String) (rs : List Range) : textAll (prepend s rs) = s ++ textAll rs := by
  unfold prepend
  split
  next h => simp [h]
  next =>
    split
    next => rw [textAll, textAll, text, text, String.append_assoc]
    next => rw [textAll, text]

mutual

theorem text_combineOne : (r : Range) → (combineOne r).text = r.text
  | plain s => rfl
  | styled id left children right hints => by rw [combineOne, text, text, textAll_combine children]

/-- Merging changes no text. -/
theorem textAll_combine : (rs : List Range) → textAll (combine rs) = textAll rs
  | [] => rfl
  | r :: rs => by
    have hr := text_combineOne r
    have hrs := textAll_combine rs
    rw [combine, textAll, ← hr]
    split
    next s hs => rw [textAll_prepend, hrs, hs, text]
    next => rw [textAll, hrs]

end

theorem take_append_takeWhile_reverse {α : Type} (p : α → Bool) (l : List α) :
    l.take (l.length - (l.reverse.takeWhile p).length) ++ (l.reverse.takeWhile p).reverse = l := by
  obtain ⟨t, ht⟩ := List.takeWhile_prefix p (l := l.reverse)
  generalize l.reverse.takeWhile p = r at ht
  have hl : l = t.reverse ++ r.reverse := by
    rw [← List.reverse_append, ht, List.reverse_reverse]
  rw [hl, List.length_append, List.length_reverse, List.length_reverse, Nat.add_sub_cancel]
  rw [List.take_left' (List.length_reverse)]

theorem isStyled_ofCarrier (id : String) (hints : Option Hints) (pieces : List Covered) :
    (ofCarrier id hints pieces).isStyled = true := by
  unfold ofCarrier
  dsimp only
  split <;> rfl

/-- A style carrier covers what its pieces cover. -/
theorem text_ofCarrier (id : String) (hints : Option Hints) (pieces : List Covered) :
    (ofCarrier id hints pieces).text = textAll (pieces.flatMap Covered.ranges) := by
  have hcover : ∀ as bs : List Covered, textAll ((as ++ bs).flatMap Covered.ranges) =
      textAll (as.flatMap Covered.ranges) ++ textAll (bs.flatMap Covered.ranges) := by
    intro as bs
    rw [List.flatMap_append, textAll_append]
  unfold ofCarrier
  dsimp only
  split
  next => simp [text, textAll]
  next =>
    rw [text, ← hcover, ← hcover, List.append_assoc, take_append_takeWhile_reverse,
      List.takeWhile_append_dropWhile]

end Range

/-- A text that may have lost characters of another one; it has lost none exactly if `P` holds. -/
structure Loses (s t : List Char) (P : Prop) : Prop where
  le : s.length ≤ t.length
  keeps : s.length = t.length → P
  eq : P → s = t

theorem Loses.refl (s : List Char) : Loses s s True :=
  ⟨Nat.le_refl _, fun _ => trivial, fun _ => rfl⟩

theorem Loses.congr {s t : List Char} {P Q : Prop} (h : Loses s t P) (hPQ : P ↔ Q) : Loses s t Q :=
  ⟨h.le, fun he => hPQ.mp (h.keeps he), fun hq => h.eq (hPQ.mpr hq)⟩

theorem Loses.append {s t s' t' : List Char} {P Q : Prop} (h : Loses s t P) (h' : Loses s' t' Q) :
    Loses (s ++ s') (t ++ t') (P ∧ Q) := by
  have hle := h.le
  have hle' := h'.le
  refine ⟨?_, fun he => ?_, fun hPQ => by rw [h.eq hPQ.1, h'.eq hPQ.2]⟩
  · rw [List.length_append, List.length_append]
    omega
  · rw [List.length_append, List.length_append] at he
    exact ⟨h.keeps (by omega), h'.keeps (by omega)⟩

theorem Loses.flatMap {α : Type} {f g : α → List Char} {P : α → Prop} {xs : List α}
    (h : ∀ x ∈ xs, Loses (f x) (g x) (P x)) :
    Loses (xs.flatMap f) (xs.flatMap g) (∀ x ∈ xs, P x) := by
  induction xs with
  | nil => exact (Loses.refl []).congr (by simp)
  | cons x xs ih =>
    have hx : Loses (f x) (g x) (P x) := h x List.mem_cons_self
    have hxs := ih fun y hy => h y (List.mem_cons_of_mem x hy)
    rw [List.flatMap_cons, List.flatMap_cons]
    exact (hx.append hxs).congr (by simp)

/-- A node whose text is escaped when it stands in a text. -/
def Node.isSpecial : Node → Bool
  | .symbol _ value => value.toList.any fun c => c = '\\' ∨ c = '{' ∨ c = '}'
  | _ => false

theorem loses_escape (cs : List Char) :
    Loses cs (escape cs) (¬ cs.any fun c => c = '\\' ∨ c = '{' ∨ c = '}') := by
  induction cs with
  | nil => exact (Loses.refl []).congr (by simp)
  | cons c cs ih =>
    have hc : Loses [c] (escapeChar c) (¬ (c = '\\' ∨ c = '{' ∨ c = '}')) := by
      by_cases hspecial : c = '\\' ∨ c = '{' ∨ c = '}'
      · refine ⟨?_, fun he => ?_, fun hn => absurd hspecial hn⟩
        · rcases hspecial with rfl | rfl | rfl <;> decide
        · rcases hspecial with rfl | rfl | rfl <;> exact absurd he (by decide)
      · have hplain := hspecial
        simp only [not_or] at hplain
        rw [escapeChar_plain hplain.1 hplain.2.1 hplain.2.2]
        exact (Loses.refl [c]).congr (by simp [hspecial])
    rw [escape_cons]
    refine (hc.append ih).congr ?_
    simp

/-- What is claimed of the node that a piece refers to. -/
def Piece.All (P : Node → Prop) : Piece → Prop
  | .lit _ => True
  | .child c _ _ => P c

theorem Piece.forall_all {P : Node → Prop} {ps : List Piece} :
    (∀ p ∈ ps, p.All P) ↔ ∀ c ∈ references ps, P c := by
  induction ps with
  | nil => simp [references]
  | cons p ps ih =>
    rw [List.forall_mem_cons, ih]
    cases p with
    | lit s => exact and_iff_right trivial
    | child c a m =>
      rw [references, List.forall_mem_cons]
      rfl

/-- Pieces lose what the nodes lose that they refer to. -/
theorem Loses.pieces {f g : Piece → List Char} {P : Node → Prop} {ps : List Piece}
    (hlit : ∀ s, f (.lit s) = g (.lit s))
    (hchild : ∀ c a m, Piece.child c a m ∈ ps → Loses (f (.child c a m)) (g (.child c a m)) (P c)) :
    Loses (ps.flatMap f) (ps.flatMap g) (∀ c ∈ Piece.references ps, P c) := by
  have hall := @Loses.flatMap _ f g (Piece.All P) ps ?_
  · exact hall.congr Piece.forall_all
  · intro p hp
    cases p with
    | lit s =>
      rw [hlit]
      exact Loses.refl _
    | child c a m => exact hchild c a m hp

namespace Node

/-- A tree without style carriers. -/
def Unstyled (n : Node) : Prop :=
  ∀ m ∈ n.preorder, m.isCarrier = false

instance : DecidablePred Unstyled := fun n =>
  inferInstanceAs (Decidable (∀ m ∈ n.preorder, m.isCarrier = false))

variable {c n : Node} {mode : Mode} {asArg : Bool}

theorem unstyled_iff : n.Unstyled ↔ n.isCarrier = false ∧ ∀ c ∈ n.children, c.Unstyled := by
  unfold Unstyled
  rw [preorder_eq]
  simp only [List.mem_cons, List.mem_flatMap]
  constructor
  · exact fun h => ⟨h n (.inl rfl), fun c hc m hm => h m (.inr ⟨c, hc, hm⟩)⟩
  · rintro ⟨hn, hc⟩ m (rfl | ⟨c, hmem, hm⟩)
    · exact hn
    · exact hc c hmem m hm

theorem forall_pieces {P : Node → Prop} :
    (∀ p ∈ n.pieces mode asArg, p.All P) ↔ ∀ c ∈ n.children, P c := by
  rw [Piece.forall_all]
  exact forall_congr' fun c => by rw [(n.references_pieces mode asArg).mem_iff]

theorem any_isStyled (n : Node) (asArg : Bool) :
    (n.ranges asArg).any Range.isStyled ↔ ¬ n.Unstyled := by
  induction n using childrenInduction generalizing asArg with
  | step n ih =>
    have hbelow : (((n.pieces .ast asArg).map Piece.covered).flatMap Covered.ranges).any Range.isStyled ↔
        ¬ ∀ c ∈ n.children, c.Unstyled := by
      rw [← @forall_pieces n .ast asArg, List.any_flatMap, List.any_map]
      simp only [List.any_eq_true, Function.comp_apply, not_forall]
      constructor
      · rintro ⟨p, hp, hstyled⟩
        refine ⟨p, hp, ?_⟩
        cases p with
        | lit s => simp [Piece.covered, Range.isStyled] at hstyled
        | child c a m =>
          exact (ih c (mem_children_of_piece hp) a).mp (by simpa [Piece.covered] using hstyled)
      · rintro ⟨p, hp, hstyled⟩
        refine ⟨p, hp, ?_⟩
        cases p with
        | lit s => exact absurd trivial hstyled
        | child c a m =>
          simpa [Piece.covered] using (ih c (mem_children_of_piece hp) a).mpr hstyled
    rw [ranges_eq, joinRanges, unstyled_iff]
    split
    next hn => simp [Range.isStyled_ofCarrier, hn]
    next hn =>
      dsimp only
      split
      next hb => simpa [hb, hn] using hbelow.mp hb
      next hb =>
        have hall := not_not.mp (mt hbelow.mpr hb)
        simp only [Bool.not_eq_true] at hn
        simpa [Range.isStyled, hn] using hall

theorem ranges_of_carrier (h : n.isCarrier) (asArg : Bool) : n.ranges asArg =
    [.ofCarrier (n.id?.getD "") n.hints? ((n.pieces .ast asArg).map Piece.covered)] := by
  rw [ranges_eq, joinRanges, if_pos h]

theorem ranges_of_styled (h : ¬ n.Unstyled) (hn : ¬ n.isCarrier) (asArg : Bool) :
    n.ranges asArg = ((n.pieces .ast asArg).map Piece.covered).flatMap Covered.ranges := by
  have hstyled := (any_isStyled n asArg).mpr h
  rw [ranges_eq, joinRanges, if_neg hn] at hstyled ⊢
  dsimp only at hstyled ⊢
  split at hstyled
  next hb => rw [if_pos hb]
  next => simp [Range.isStyled] at hstyled

theorem ranges_of_unstyled (h : n.Unstyled) (asArg : Bool) :
    n.ranges asArg = [.plain (n.latex .ast asArg)] := by
  obtain ⟨hcarrier, -⟩ := unstyled_iff.mp h
  have hplain := (any_isStyled n asArg).not.mpr (not_not.mpr h)
  rw [ranges_eq, joinRanges, if_neg (by simp [hcarrier])] at hplain ⊢
  dsimp only at hplain ⊢
  split at hplain
  next hb => exact absurd hb hplain
  next hb => rw [if_neg hb]

/-- The text that the ranges of a node cover. -/
def rangeText (n : Node) (asArg : Bool) : List Char :=
  (Range.textAll (n.ranges asArg)).toList

theorem rangeText_of_unstyled (h : n.Unstyled) (asArg : Bool) :
    n.rangeText asArg = n.markup .ast asArg := by
  rw [rangeText, ranges_of_unstyled h, Range.textAll, Range.textAll, Range.text, String.append_empty]
  rfl

end Node

/-- The text that the ranges of a piece cover. -/
def Piece.rangeText : Piece → List Char
  | .lit s => s.toList
  | .child c asArg _ => c.rangeText asArg

theorem Piece.toList_covered (ps : List Piece) :
    (Range.textAll ((ps.map Piece.covered).flatMap Covered.ranges)).toList =
      ps.flatMap Piece.rangeText := by
  induction ps with
  | nil => rfl
  | cons p ps ih =>
    rw [List.map_cons, List.flatMap_cons, Range.textAll_append, String.toList_append, ih,
      List.flatMap_cons]
    congr 1
    cases p with
    | lit s => simp [Piece.covered, Range.textAll, Range.text, Piece.rangeText]
    | child => rfl

namespace Node

variable {c n : Node} {mode : Mode} {asArg : Bool}

theorem rangeText_of_styled (h : ¬ n.Unstyled) (asArg : Bool) :
    n.rangeText asArg = (n.pieces .ast asArg).flatMap Piece.rangeText := by
  rw [← Piece.toList_covered, rangeText]
  by_cases hn : n.isCarrier
  · rw [ranges_of_carrier hn, Range.textAll, Range.textAll, Range.text_ofCarrier, String.append_empty]
  · rw [ranges_of_styled h hn]

/-- Inside a text only symbols are written in another way. -/
theorem pieces_text (h : n.kind ≠ .symbol) (asArg : Bool) :
    n.pieces .text asArg = n.pieces .ast asArg := by
  cases n <;> first | rfl | exact absurd rfl h

theorem mode_of_piece {m : Mode} {a : Bool} {own : Option Mode}
    (h : Piece.child c a own ∈ n.pieces mode asArg) :
    own.getD m = if n.kind = .text then .text else m := by
  by_cases hk : n.kind = .text
  · cases n with
    | text id body =>
      simp only [pieces, List.cons_append, List.mem_cons, List.mem_append, List.mem_map,
        List.not_mem_nil, or_false, reduceCtorEq, false_or] at h
      obtain ⟨d, -, hd⟩ := h
      cases hd
      rfl
    | _ => cases hk
  · rw [if_neg hk]
    rcases ownMode_of_mem_pieces h with hown | ⟨-, ht⟩
    · have hnone : own = none := hown
      rw [hnone, Option.getD_none]
    · exact absurd ht hk

end Node

section

variable {n : Node} {above : List Node} {e : Entry}

theorem forall_entries {P : Entry → Prop} : (∀ e ∈ n.entries above, P e) ↔
    P ⟨n, above⟩ ∧ ∀ c ∈ n.children, ∀ e ∈ c.entries (above ++ [n]), P e := by
  rw [Node.entries_eq]
  simp only [List.mem_cons, List.mem_flatMap]
  constructor
  · exact fun h => ⟨h _ (.inl rfl), fun c hc e he => h e (.inr ⟨c, hc, he⟩)⟩
  · rintro ⟨hn, hc⟩ e (rfl | ⟨c, hmem, he⟩)
    · exact hn
    · exact hc c hmem e he

/-- The ancestors of a node in a tree are those above the tree and nodes of the tree. -/
theorem ancestors_of_mem_entries (h : e ∈ n.entries above) :
    (∀ t ∈ above, t ∈ e.ancestors) ∧ ∀ t ∈ e.ancestors, t ∈ above ∨ t ∈ n.preorder := by
  induction n using Node.childrenInduction generalizing above with
  | step n ih =>
    rw [Node.entries_eq] at h
    rw [Node.preorder_eq]
    rcases List.mem_cons.mp h with rfl | h
    · exact ⟨fun t ht => ht, fun t ht => .inl ht⟩
    · obtain ⟨c, hc, he⟩ := List.mem_flatMap.mp h
      obtain ⟨habove, hbelow⟩ := ih c hc he
      refine ⟨fun t ht => habove t (List.mem_append_left _ ht), fun t ht => ?_⟩
      rcases hbelow t ht with ht | ht
      · rcases List.mem_append.mp ht with ht | ht
        · exact .inl ht
        · obtain rfl := List.mem_singleton.mp ht
          exact .inr List.mem_cons_self
      · have hmem : t ∈ n.children.flatMap Node.preorder := List.mem_flatMap.mpr ⟨c, hc, ht⟩
        exact .inr (List.mem_cons_of_mem n hmem)

end

/-- A text that is written as a whole. -/
def Node.IsPlainText (t : Node) : Prop :=
  t.kind = .text ∧ t.Unstyled

/-- A symbol that is written with the escapes that it needs: if it needs them and stands in a text, it
stands in one that has no style carrier. -/
def Entry.Escaped (e : Entry) : Prop :=
  e.node.isSpecial → (∃ t ∈ e.ancestors, t.kind = .text) → ∃ t ∈ e.ancestors, t.IsPlainText

namespace Node

variable {n : Node}

theorem isSpecial_of_kind (h : n.kind ≠ .symbol) : n.isSpecial = false := by
  cases n <;> first | rfl | exact absurd rfl h

/-- A text is written alike inside and outside of others. -/
theorem markup_text (h : n.kind = .text) (asArg : Bool) : n.markup .text asArg = n.markup .ast asArg := by
  have hsymbol : n.kind ≠ .symbol := by simp [h]
  rw [markup_eq, markup_eq, pieces_text hsymbol]
  refine List.flatMap_congr fun p hp => ?_
  cases p with
  | lit s => rfl
  | child c a m =>
    rw [Piece.markup, Piece.markup, mode_of_piece hp, mode_of_piece hp, if_pos h, if_pos h]

theorem loses_symbol (id value : String) (asArg : Bool) :
    Loses ((symbol id value).markup .ast asArg) ((symbol id value).markup .text asArg)
      (¬ (symbol id value).isSpecial) := by
  have hast : (symbol id value).markup .ast asArg = value.toList := by
    simp [markup_eq, pieces, Piece.tagged, Piece.markup]
  rw [hast, markup_text_symbol]
  exact loses_escape value.toList

/-- Written outside of a text, a tree without style carriers loses the escapes of the symbols that
stand in no text of their own. -/
theorem loses_of_unstyled (h : n.Unstyled) {above : List Node} (habove : ∀ t ∈ above, ¬ t.IsPlainText)
    (asArg : Bool) : Loses (n.markup .ast asArg) (n.markup .text asArg)
      (∀ e ∈ n.entries above, e.node.isSpecial → ∃ t ∈ e.ancestors, t.IsPlainText) := by
  induction n using childrenInduction generalizing above asArg with
  | step n ih =>
    obtain ⟨-, hchildren⟩ := unstyled_iff.mp h
    rw [forall_entries]
    by_cases hsymbol : n.kind = .symbol
    · cases n with
      | symbol id value =>
        refine (loses_symbol id value asArg).congr ?_
        have hnone : ¬ ∃ t ∈ above, t.IsPlainText := by
          rintro ⟨t, ht, hplain⟩
          exact habove t ht hplain
        simp [children, hnone]
      | _ => cases hsymbol
    have hspecial := isSpecial_of_kind hsymbol
    by_cases htext : n.kind = .text
    · have hself : n ∈ above ++ [n] := by simp
      rw [markup_text htext]
      refine (Loses.refl _).congr ⟨fun _ => ⟨by simp [hspecial], ?_⟩, fun _ => trivial⟩
      intro c hc e he _
      exact ⟨n, (ancestors_of_mem_entries he).1 n hself, htext, h⟩
    · have habove' : ∀ t ∈ above ++ [n], ¬ t.IsPlainText := by
        intro t ht hplain
        rcases List.mem_append.mp ht with ht | ht
        · exact habove t ht hplain
        · obtain rfl := List.mem_singleton.mp ht
          exact htext hplain.1
      rw [markup_eq, markup_eq, pieces_text hsymbol]
      have hpieces := @Loses.pieces (Piece.markup .ast) (Piece.markup .text)
        (fun c => ∀ e ∈ c.entries (above ++ [n]), e.node.isSpecial → ∃ t ∈ e.ancestors, t.IsPlainText)
        (n.pieces .ast asArg) (fun _ => rfl) ?_
      · refine hpieces.congr ?_
        simp [(n.references_pieces .ast asArg).mem_iff, hspecial]
      · intro c a m hp
        have hc := mem_children_of_piece hp
        rw [Piece.markup, Piece.markup, mode_of_piece hp, mode_of_piece hp, if_neg htext, if_neg htext]
        exact ih c hc (hchildren c hc) habove' a

/-- What stands above a node that is written in a mode: a text if and only if this is the mode of
texts, and no text without style carriers. -/
structure Above (above : List Node) (mode : Mode) : Prop where
  mode_eq : mode = if ∃ t ∈ above, t.kind = .text then .text else .ast
  styled : ∀ t ∈ above, ¬ t.IsPlainText

theorem Above.append {above : List Node} {mode : Mode} (h : Above above mode) (hn : ¬ n.Unstyled) :
    Above (above ++ [n]) (if n.kind = .text then .text else mode) := by
  constructor
  · by_cases htext : n.kind = .text
    · simp [htext]
    · rw [if_neg htext, h.mode_eq]
      simp [htext]
  · intro t ht hplain
    rcases List.mem_append.mp ht with ht | ht
    · exact h.styled t ht hplain
    · obtain rfl := List.mem_singleton.mp ht
      exact hn hplain.2

/-- A tree without style carriers is covered as it is written outside of texts. -/
theorem loses_rangeText_of_unstyled (h : n.Unstyled) {above : List Node} {mode : Mode}
    (habove : Above above mode) (asArg : Bool) :
    Loses (n.rangeText asArg) (n.markup mode asArg) (∀ e ∈ n.entries above, e.Escaped) := by
  rw [rangeText_of_unstyled h]
  by_cases htext : ∃ t ∈ above, t.kind = .text
  · rw [habove.mode_eq, if_pos htext]
    refine (loses_of_unstyled h habove.styled asArg).congr ?_
    refine forall₂_congr fun e he => ?_
    have hbelow : ∃ t ∈ e.ancestors, t.kind = .text := by
      obtain ⟨t, ht, hkind⟩ := htext
      exact ⟨t, (ancestors_of_mem_entries he).1 t ht, hkind⟩
    simp [Entry.Escaped, hbelow]
  · have hescaped : ∀ e ∈ n.entries above, e.Escaped := by
      rintro e he - ⟨t, ht, hkind⟩
      rcases (ancestors_of_mem_entries he).2 t ht with hmem | hmem
      · exact absurd ⟨t, hmem, hkind⟩ htext
      · exact ⟨t, ht, hkind, fun m hm => h m (mem_preorder_trans hmem hm)⟩
    rw [habove.mode_eq, if_neg htext]
    exact (Loses.refl _).congr ⟨fun _ => hescaped, fun _ => trivial⟩

theorem kind_ne_symbol (h : ¬ n.Unstyled) : n.kind ≠ .symbol := by
  intro hk
  refine h (unstyled_iff.mpr ?_)
  cases n with
  | symbol => simp [isCarrier, children]
  | _ => cases hk

/-- The ranges of a node cover its markup, but for the escapes of symbols that stand only in texts
with style carriers. -/
theorem loses_rangeText {above : List Node} {mode : Mode} (h : Above above mode) (asArg : Bool) :
    Loses (n.rangeText asArg) (n.markup mode asArg) (∀ e ∈ n.entries above, e.Escaped) := by
  induction n using childrenInduction generalizing above mode asArg with
  | step n ih =>
    by_cases hstyle : n.Unstyled
    · exact loses_rangeText_of_unstyled hstyle h asArg
    have hsymbol := kind_ne_symbol hstyle
    have hmode : n.pieces mode asArg = n.pieces .ast asArg := by
      rw [h.mode_eq]
      split
      next => exact pieces_text hsymbol asArg
      next => rfl
    rw [rangeText_of_styled hstyle, markup_eq, hmode, forall_entries]
    have hpieces := @Loses.pieces Piece.rangeText (Piece.markup mode)
      (fun c => ∀ e ∈ c.entries (above ++ [n]), e.Escaped) (n.pieces .ast asArg) (fun _ => rfl) ?_
    · refine hpieces.congr ?_
      simp [(n.references_pieces .ast asArg).mem_iff, Entry.Escaped, isSpecial_of_kind hsymbol]
    · intro c a m hp
      rw [Piece.rangeText, Piece.markup, mode_of_piece hp]
      exact ih c (mem_children_of_piece hp) (h.append hstyle) a

end Node

namespace Formula

theorem toList_ranges (f : Formula) :
    (Range.textAll f.ranges).toList = (Piece.spaced f.children).flatMap Piece.rangeText := by
  rw [ranges, Range.textAll_combine]
  induction f.children with
  | nil => rfl
  | cons n ns ih =>
    cases ns with
    | nil => simp [Piece.spaced, Piece.plain, Piece.rangeText, Node.rangeText]
    | cons m ns =>
      simp only [Piece.spaced, List.map_cons, List.intersperse_cons_cons, List.flatMap_cons,
        List.intercalate_cons_cons] at ih ⊢
      rw [Range.textAll_append, Range.textAll_append, String.toList_append, String.toList_append, ih]
      simp [Piece.plain, Piece.rangeText, Node.rangeText, Range.textAll, Range.text]

theorem loses_ranges (f : Formula) : Loses (Range.textAll f.ranges).toList (f.latex .ast).toList
    (∀ e ∈ f.entries, e.Escaped) := by
  rw [toList_ranges, toList_latex, ← flatMap_spaced]
  have hpieces := @Loses.pieces Piece.rangeText (Piece.markup .ast)
    (fun c => ∀ e ∈ c.entries [], e.Escaped) (Piece.spaced f.children) (fun _ => rfl) ?_
  · refine hpieces.congr ?_
    rw [Piece.references_spaced, entries]
    simp only [List.mem_flatMap, forall_exists_index, and_imp]
    exact ⟨fun h e c hc he => h c hc e he, fun h c hc e he => h e c hc he⟩
  · intro c a m hp
    have hm : m = none := Piece.ownMode_of_mem_spaced hp
    rw [Piece.rangeText, Piece.markup, hm, Option.getD_none]
    exact Node.loses_rangeText ⟨by simp, by simp⟩ a

/-- The ranges of a formula cover its markup, or as many characters as it has, exactly if every symbol
is written with the escapes that it needs. -/
theorem text_ranges_iff (f : Formula) :
    (Range.textAll f.ranges = f.latex .ast ↔ ∀ e ∈ f.entries, e.Escaped) ∧
    (Range.lengthAll f.ranges = (f.latex .ast).length ↔ ∀ e ∈ f.entries, e.Escaped) := by
  have hloses := f.loses_ranges
  rw [Range.lengthAll_eq, ← String.length_toList, ← String.length_toList]
  refine ⟨⟨?_, ?_⟩, ?_, ?_⟩
  · intro htext
    have hlength : (Range.textAll f.ranges).toList.length = (f.latex .ast).toList.length := by rw [htext]
    exact hloses.keeps hlength
  · intro hescaped
    exact String.toList_inj.mp (hloses.eq hescaped)
  · intro hlength
    exact hloses.keeps hlength
  · intro hescaped
    rw [hloses.eq hescaped]

/-- A brace in a colored part of a text is covered without its escape. -/
theorem text_ranges_colored_brace : ∃ f : Formula,
    f.children = [.text "t" [.color "c" "red" [.symbol "s" "\x7b"]]] ∧
      Range.textAll f.ranges = "\\text\x7b\\textcolor\x7bred\x7d\x7b\x7b\x7d\x7d" ∧
      f.latex .ast = "\\text\x7b\\textcolor\x7bred\x7d\x7b\\\x7b\x7d\x7d" ∧
      Range.lengthAll f.ranges ≠ (f.latex .ast).length := by
  refine ⟨⟨[.text "t" [.color "c" "red" [.symbol "s" "\x7b"]]], by decide +kernel⟩, rfl, ?_, ?_, ?_⟩
  · decide +kernel
  · decide +kernel
  · decide +kernel

end Formula

end FormulaDoc
