import FormulaDoc.Proofs.Places

namespace FormulaDoc

/-- What is met when a forest of ranges is read from left to right. -/
inductive Token where
  | char (c : Char)
  | opening (id left : String) (hints : Option Hints)
  | closing (right : String)
  deriving DecidableEq

def Token.isChar : Token → Bool
  | char _ => true
  | _ => false

def Token.isClosing : Token → Bool
  | closing _ => true
  | _ => false

namespace Range

mutual

def tokens : Range → List Token
  | plain s => s.toList.map Token.char
  | styled id left children right hints =>
    .opening id left hints :: (tokensAll children ++ [.closing right])

def tokensAll : List Range → List Token
  | [] => []
  | r :: rs => r.tokens ++ tokensAll rs

end

/-- A forest in which, at every depth, no plain range is empty and no two stand side by side. -/
inductive Merged : List Range → Prop
  | nil : Merged []
  | plain {s : String} {rs : List Range} (hs : s ≠ "") (hnext : ∀ r ∈ rs.head?, r.isStyled)
      (hrs : Merged rs) : Merged (.plain s :: rs)
  | styled {id left right : String} {hints : Option Hints} {children rs : List Range}
      (hchildren : Merged children) (hrs : Merged rs) :
      Merged (.styled id left children right hints :: rs)

variable {as bs rs : List Range} {s : String}

theorem tokensAll_append (as bs : List Range) : tokensAll (as ++ bs) = tokensAll as ++ tokensAll bs := by
  induction as with
  | nil => rfl
  | cons a as ih => rw [List.cons_append, tokensAll, tokensAll, ih, List.append_assoc]

theorem tokensAll_prepend (s : String) (rs : List Range) :
    tokensAll (prepend s rs) = s.toList.map Token.char ++ tokensAll rs := by
  unfold prepend
  split
  next h => rw [h]; rfl
  next =>
    split
    next t rest =>
      rw [tokensAll, tokensAll, tokens, tokens, String.toList_append, List.map_append, List.append_assoc]
    next => rw [tokensAll, tokens]

mutual

theorem tokens_combineOne : (r : Range) → (combineOne r).tokens = r.tokens
  | plain s => rfl
  | styled id left children right hints => by
    rw [combineOne, tokens, tokens, tokensAll_combine children]

theorem tokensAll_combine : (rs : List Range) → tokensAll (combine rs) = tokensAll rs
  | [] => rfl
  | r :: rs => by
    have hr := tokens_combineOne r
    have hrs := tokensAll_combine rs
    rw [combine, tokensAll, ← hr]
    split
    next s hs => rw [tokensAll_prepend, hrs, hs, tokens]
    next => rw [tokensAll, hrs]

end

theorem Merged.prepend (h : Merged rs) (s : String) : Merged (prepend s rs) := by
  unfold Range.prepend
  split
  next => exact h
  next hs =>
    split
    next t rest =>
      cases h with
      | plain ht hnext hrest =>
        have hst : s ++ t ≠ "" := fun hempty => hs (String.append_eq_empty_iff.mp hempty).1
        exact .plain hst hnext hrest
    next hne =>
      refine .plain hs (fun r hr => ?_) h
      obtain ⟨rest, rfl⟩ := List.head?_eq_some_iff.mp hr
      cases r with
      | plain t => exact absurd rfl (hne t rest)
      | styled => rfl

mutual

theorem merged_children_combineOne {id left right : String} {children : List Range}
    {hints : Option Hints} :
    (r : Range) → combineOne r = styled id left children right hints → Merged children
  | plain s, h => by cases h
  | styled _ _ cs _ _, h => by
    rw [combineOne] at h
    cases h
    exact merged_combine cs

/-- Merging leaves no empty plain range and no two plain ranges side by side. -/
theorem merged_combine : (rs : List Range) → Merged (combine rs)
  | [] => .nil
  | r :: rs => by
    have hrs := merged_combine rs
    rw [combine]
    split
    next s hs => exact hrs.prepend s
    next hne =>
      cases hr : combineOne r with
      | plain s => exact absurd hr (hne s)
      | styled => exact .styled (merged_children_combineOne r hr) hrs

end

/-- A sequence of tokens that may stand after the ranges of a forest. -/
def AfterForest (xs : List Token) : Prop :=
  ∀ t ∈ xs.head?, t.isClosing

theorem afterForest_nil : AfterForest [] :=
  nofun

theorem afterForest_closing (right : String) (xs : List Token) : AfterForest (.closing right :: xs) := by
  rintro t ⟨⟩
  rfl

theorem head_tokensAll_append {xs : List Token} (hxs : AfterForest xs)
    (hnext : ∀ r ∈ rs.head?, r.isStyled) : ∀ t ∈ (tokensAll rs ++ xs).head?, ¬ t.isChar := by
  cases rs with
  | nil =>
    intro t ht hchar
    have hclosing := hxs t ht
    cases t <;> simp [Token.isChar, Token.isClosing] at hchar hclosing
  | cons r rs =>
    cases r with
    | plain s => cases hnext _ rfl
    | styled =>
      rintro t ⟨⟩
      nofun

/-- Characters up to where there are no more of them are determined by all that is read. -/
theorem chars_append_inj {cs ds : List Char} {xs ys : List Token}
    (hxs : ∀ t ∈ xs.head?, ¬ t.isChar) (hys : ∀ t ∈ ys.head?, ¬ t.isChar)
    (h : cs.map Token.char ++ xs = ds.map Token.char ++ ys) : cs = ds ∧ xs = ys := by
  induction cs generalizing ds with
  | nil =>
    cases ds with
    | nil => exact ⟨rfl, h⟩
    | cons d ds =>
      rw [List.map_nil, List.nil_append] at h
      have hhead : Token.char d ∈ xs.head? := by rw [h]; rfl
      exact absurd rfl (hxs (.char d) hhead)
  | cons c cs ih =>
    cases ds with
    | nil =>
      rw [List.map_nil, List.nil_append] at h
      have hhead : Token.char c ∈ ys.head? := by rw [← h]; rfl
      exact absurd rfl (hys (.char c) hhead)
    | cons d ds =>
      obtain ⟨hcd, hrest⟩ := List.cons.inj h
      obtain ⟨hds, hxys⟩ := ih hrest
      exact ⟨by rw [Token.char.inj hcd, hds], hxys⟩

theorem tokensAll_plain (s : String) (rs : List Range) (xs : List Token) :
    tokensAll (plain s :: rs) ++ xs = s.toList.map Token.char ++ (tokensAll rs ++ xs) := by
  rw [tokensAll, tokens, List.append_assoc]

theorem tokensAll_styled (id left right : String) (hints : Option Hints) (children rs : List Range)
    (xs : List Token) : tokensAll (styled id left children right hints :: rs) ++ xs =
      .opening id left hints :: (tokensAll children ++ (.closing right :: (tokensAll rs ++ xs))) := by
  rw [tokensAll, tokens]
  simp only [List.cons_append, List.append_assoc, List.nil_append]

theorem exists_tokensAll_plain (hs : s ≠ "") (rs : List Range) (xs : List Token) :
    ∃ c ys, tokensAll (plain s :: rs) ++ xs = .char c :: ys := by
  rw [tokensAll_plain]
  cases hcs : s.toList with
  | nil => exact absurd (String.toList_eq_nil_iff.mp hcs) hs
  | cons c cs => exact ⟨c, cs.map Token.char ++ (tokensAll rs ++ xs), rfl⟩

/-- A merged forest ends where its tokens do, whatever is read after it. -/
theorem Merged.append_inj {xs ys : List Token} (ha : Merged as) (hb : Merged bs) (hxs : AfterForest xs)
    (hys : AfterForest ys) (h : tokensAll as ++ xs = tokensAll bs ++ ys) : as = bs ∧ xs = ys := by
  induction ha generalizing bs xs ys with
  | nil =>
    cases hb with
    | nil => exact ⟨rfl, h⟩
    | plain hs =>
      obtain ⟨c, zs, hc⟩ := exists_tokensAll_plain hs _ ys
      rw [hc] at h
      cases hxs _ (congrArg List.head? h)
    | styled =>
      rw [tokensAll_styled] at h
      cases hxs _ (congrArg List.head? h)
  | plain hs hnext hrs ih =>
    cases hb with
    | nil =>
      obtain ⟨c, zs, hc⟩ := exists_tokensAll_plain hs _ xs
      rw [hc] at h
      cases hys _ (congrArg List.head? h.symm)
    | plain ht hnext' hrs' =>
      rw [tokensAll_plain, tokensAll_plain] at h
      obtain ⟨hst, hrest⟩ := chars_append_inj (head_tokensAll_append hxs hnext)
        (head_tokensAll_append hys hnext') h
      obtain ⟨rfl, hxys⟩ := ih hrs' hxs hys hrest
      exact ⟨by rw [String.toList_inj.mp hst], hxys⟩
    | styled =>
      obtain ⟨c, zs, hc⟩ := exists_tokensAll_plain hs _ xs
      rw [hc, tokensAll_styled] at h
      cases h
  | styled hchildren hrs ihchildren ih =>
    cases hb with
    | nil =>
      rw [tokensAll_styled] at h
      cases hys _ (congrArg List.head? h.symm)
    | plain ht =>
      obtain ⟨c, zs, hc⟩ := exists_tokensAll_plain ht _ ys
      rw [hc, tokensAll_styled] at h
      cases h
    | styled hchildren' hrs' =>
      rw [tokensAll_styled, tokensAll_styled] at h
      obtain ⟨hopening, hinside⟩ := List.cons.inj h
      obtain ⟨rfl, hafter⟩ := ihchildren hchildren' (afterForest_closing _ _) (afterForest_closing _ _)
        hinside
      obtain ⟨hclosing, hrest⟩ := List.cons.inj hafter
      obtain ⟨rfl, hxys⟩ := ih hrs' hxs hys hrest
      cases hopening
      cases hclosing
      exact ⟨rfl, hxys⟩

/-- A merged forest is determined by its tokens. -/
theorem Merged.eq_of_tokensAll (ha : Merged as) (hb : Merged bs) (h : tokensAll as = tokensAll bs) :
    as = bs := by
  have happend : tokensAll as ++ [] = tokensAll bs ++ [] := by rw [h]
  obtain ⟨heq, -⟩ := ha.append_inj hb afterForest_nil afterForest_nil happend
  exact heq

/-- Two forests are merged into the same one exactly if the same is read in them. -/
theorem combine_eq_iff (as bs : List Range) : combine as = combine bs ↔ tokensAll as = tokensAll bs := by
  constructor
  · intro h
    rw [← tokensAll_combine as, h, tokensAll_combine]
  · intro h
    refine (merged_combine as).eq_of_tokensAll (merged_combine bs) ?_
    rw [tokensAll_combine, tokensAll_combine, h]

/-- The order of listed marks: by their start, and of two with the same start the outer one first. -/
def markLe : Option Mark → Option Mark → Bool
  | some k, some l => k.span.start < l.span.start || (k.span.start == l.span.start && k.depth ≤ l.depth)
  | _, _ => true

/-- The listing of the styled ranges shows the sorted marks. -/
theorem map_mark?_flattenStyled (rs : List Range) :
    (flattenStyled rs).map Placed.mark? = ((marks 0 0 rs).map some).mergeSort markLe := by
  have hmarks : ((placedAll 0 0 rs).filter (·.range.isStyled)).map Placed.mark? =
      (marks 0 0 rs).map some := by
    rw [marks, List.map_filterMap_some_eq_filter_map_isSome, List.filter_map]
    exact congrArg _ (List.filter_congr fun p _ => p.isSome_mark?.symm)
  rw [flattenStyled, ← hmarks]
  refine List.map_mergeSort fun p hp q hq => ?_
  obtain ⟨k, hk⟩ := Option.isSome_iff_exists.mp (p.isSome_mark?.trans (List.mem_filter.mp hp).2)
  obtain ⟨l, hl⟩ := Option.isSome_iff_exists.mp (q.isSome_mark?.trans (List.mem_filter.mp hq).2)
  obtain ⟨-, hpstart, -, hpdepth⟩ := Placed.of_mark?_eq_some hk
  obtain ⟨-, hqstart, -, hqdepth⟩ := Placed.of_mark?_eq_some hl
  rw [hk, hl, hpstart, hpdepth, hqstart, hqdepth]
  rfl

/-- Merging computes a normal form, the only merged forest with the same tokens. It keeps the text and what
an editor sees of the styled ranges, and two forests have the same normal form exactly if they have the
same tokens; so merging again changes nothing, and parts may be merged before the whole. -/
theorem combine_normal_form (as bs : List Range) :
    Merged (combine as) ∧ (∀ ns, Merged ns ∧ tokensAll ns = tokensAll as ↔ ns = combine as) ∧
    textAll (combine as) = textAll as ∧
    (flattenStyled (combine as)).map Placed.mark? = (flattenStyled as).map Placed.mark? ∧
    (combine as = combine bs ↔ tokensAll as = tokensAll bs) ∧
    combine (combine as) = combine as ∧ combine (as ++ bs) = combine (combine as ++ combine bs) := by
  have hmerged : Merged (combine as) := merged_combine as
  have htokens : tokensAll (combine as) = tokensAll as := tokensAll_combine as
  refine ⟨hmerged, ?_, textAll_combine as, ?_, combine_eq_iff as bs, ?_, ?_⟩
  · intro ns
    constructor
    · rintro ⟨hns, h⟩
      exact hns.eq_of_tokensAll hmerged (h.trans htokens.symm)
    · rintro rfl
      exact ⟨hmerged, htokens⟩
  · rw [map_mark?_flattenStyled, map_mark?_flattenStyled, marks_combine]
  · rw [combine_eq_iff, htokens]
  · rw [combine_eq_iff, tokensAll_append, tokensAll_append, tokensAll_combine, tokensAll_combine]

-- empty texts between two others, next to a styled range and alone inside it
example : combine [plain "a", plain "", plain "b", styled "c" "(" [plain ""] ")" none, plain "",
    styled "d" "" [plain "x", plain "", plain "y"] "" none, plain ""] =
    [plain "ab", styled "c" "(" [] ")" none, styled "d" "" [plain "xy"] "" none] := by
  decide +kernel

end Range

end FormulaDoc
