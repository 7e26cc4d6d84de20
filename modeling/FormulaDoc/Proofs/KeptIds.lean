import FormulaDoc.Proofs.RenderTrip
import Mathlib.Data.List.Flatten
import Mathlib.Data.List.Perm.Basic

namespace FormulaDoc

/-- A name of letters, digits and dots, as path ids are. -/
def IsWord (s : String) : Prop :=
  ∀ c ∈ s.toList, c.isAlphanum ∨ c = '.'

instance (s : String) : Decidable (IsWord s) :=
  List.decidableBAll _ s.toList

theorem IsWord.append {s t : String} (hs : IsWord s) (ht : IsWord t) : IsWord (s ++ t) := by
  intro c hc
  rw [String.toList_append, List.mem_append] at hc
  exact hc.elim (hs c) (ht c)

theorem isWord_dot : IsWord "." := by
  intro c hc
  exact .inr (List.mem_singleton.mp hc)

theorem isWord_toString (n : Nat) : IsWord (toString n) := by
  intro c hc
  have hdigit : c.isDigit = true := by
    refine Nat.isDigit_of_mem_toDigits (b := 10) (n := n) (by decide) (by decide) ?_
    simpa [toString, Nat.repr_eq_ofList_toDigits] using hc
  exact .inl (by simp [Char.isAlphanum, hdigit])

theorem plain_of_isAlphanum {c : Char} (h : c.isAlphanum ∨ c = '.') :
    isBlank c = false ∧ c ∉ ['\\', '{', '}'] := by
  have hrange : c.toNat = 46 ∨ (48 ≤ c.toNat ∧ c.toNat ≤ 57) ∨ (65 ≤ c.toNat ∧ c.toNat ≤ 90) ∨
      (97 ≤ c.toNat ∧ c.toNat ≤ 122) := by
    rcases h with h | rfl
    · have halnum : c.isAlphanum = (decide ('A'.val ≤ c.val ∧ c.val ≤ 'Z'.val) ||
          decide ('a'.val ≤ c.val) && decide (c.val ≤ 'z'.val) ||
          decide ('0'.val ≤ c.val) && decide (c.val ≤ '9'.val)) := rfl
      have hval : c.val.toNat = c.toNat := rfl
      simp only [halnum, UInt32.le_iff_toNat_le, hval, Char.reduceVal, UInt32.reduceToNat,
        Bool.or_eq_true, Bool.and_eq_true, decide_eq_true_eq] at h
      omega
    · exact .inl rfl
  constructor
  · simp [isBlank]
    omega
  · intro hmem
    simp only [List.mem_cons, List.not_mem_nil, or_false] at hmem
    rcases hmem with rfl | rfl | rfl <;> exact absurd hrange (by decide)

theorem IsWord.verbatim {s : String} (h : IsWord s) : Verbatim s := by
  have hblank : ∀ cs : List Char, (∀ c ∈ cs, isBlank c = false) → cs.dropWhile isBlank = cs := by
    intro cs hcs
    cases cs with
    | nil => rfl
    | cons c cs => rw [List.dropWhile_cons_of_neg (by simp [hcs c List.mem_cons_self])]
  have hplain := fun c hc => plain_of_isAlphanum (h c hc)
  have hfront : s.toList.dropWhile isBlank = s.toList := hblank _ fun c hc => (hplain c hc).1
  have hback : s.toList.reverse.dropWhile isBlank = s.toList.reverse :=
    hblank _ fun c hc => (hplain c (List.mem_reverse.mp hc)).1
  constructor
  · rw [trim, trimEnd, hfront, hback, List.reverse_reverse]
  · refine rawGroup_eq_ok_iff.mpr ⟨rfl, ?_⟩
    clear hfront hback
    generalize s.toList = cs at hplain
    induction cs with
    | nil => exact .nil
    | cons c cs ih =>
      have hc := (hplain c List.mem_cons_self).2
      have hrest := ih fun d hd => hplain d (List.mem_cons_of_mem c hd)
      simp only [List.mem_cons, List.not_mem_nil, or_false, not_or] at hc
      exact .plain hc.1 hc.2.1 hc.2.2 hrest

theorem verbatim_of_isAlpha {s : String} (h : ∀ c ∈ s.toList, c.isAlpha) : Verbatim s := by
  apply IsWord.verbatim
  intro c hc
  exact .inl (by simp [Char.isAlphanum, h c hc])

namespace Node

theorem isWord_of_mem_slots {n : Node} {s : String} (h : s ∈ n.slots) : IsWord s := by
  have hrange : ∀ k, ∀ s ∈ (List.range k).map toString, IsWord s := by
    intro k s hs
    obtain ⟨i, -, rfl⟩ := List.mem_map.mp hs
    exact isWord_toString i
  have hnames : ∀ s ∈ ["numerator", "denominator", "base", "sub", "sup", "body", "index"], IsWord s := by
    decide
  cases n with
  | symbol | space | op | var | newLine | alignMark => cases h
  | text id body | group id body | color id c body => exact hrange body.length s h
  | aligned id cells => exact hrange cells.length s h
  | array id rows align =>
    obtain ⟨row, hrow, hs⟩ := List.mem_flatten.mp h
    obtain ⟨r, hr, rfl⟩ := List.mem_mapIdx.mp hrow
    obtain ⟨c, hc, rfl⟩ := List.mem_mapIdx.mp hs
    exact ((isWord_toString r).append isWord_dot).append (isWord_toString c)
  | script id base sub sup =>
    refine hnames s ?_
    cases sub <;> cases sup <;> grind [slots]
  | root id body index =>
    refine hnames s ?_
    cases index <;> grind [slots]
  | _ =>
    refine hnames s ?_
    grind [slots]

/-- The path ids of a tree are words. -/
theorem isWord_of_relabel {path id : String} {n : Node} (hpath : IsWord path)
    (h : id ∈ (n.relabel false path).ids) : IsWord id := by
  induction n using childrenInduction generalizing path with
  | step n ih =>
    have hself : ∀ id, pathId false path id = path := fun id => by simp [pathId]
    rw [ids_eq, id?_relabel, children_relabel] at h
    simp only [hself] at h
    rcases List.mem_append.mp h with h | h
    · cases hid : n.id? with
      | none => simp [hid] at h
      | some old =>
        obtain rfl : id = path := by simpa [hid, hself] using h
        exact hpath
    · obtain ⟨d, hd, h⟩ := List.mem_flatMap.mp h
      obtain ⟨i, hi, rfl⟩ := List.mem_iff_getElem.mp hd
      rw [List.getElem_zipWith] at h
      refine ih _ (List.getElem_mem _) ?_ h
      exact (hpath.append isWord_dot).append (isWord_of_mem_slots (List.getElem_mem _))

/-- The ids of the symbols and operators of a tree, apart from those in texts. -/
def tagIds (n : Node) : List String :=
  (n.outer.filter isTagged).filterMap id?

/-- The ids of the other nodes. -/
def unnamed (n : Node) : List String :=
  if n.isBranch then n.id?.toList ++ n.children.attach.flatMap fun ⟨c, _⟩ => c.unnamed
  else if n.isTagged then [] else n.ids
termination_by n.size
decreasing_by exact size_lt_of_mem ‹_›

variable {n : Node} {path : String}

theorem unnamed_branch (h : n.isBranch) : n.unnamed = n.id?.toList ++ n.children.flatMap unnamed := by
  rw [unnamed, if_pos h]
  simp

theorem unnamed_tagged (h : n.isTagged) : n.unnamed = [] := by
  cases n with
  | symbol | op => rw [unnamed]; rfl
  | _ => cases h

theorem unnamed_leaf (hbranch : n.isBranch = false) (htag : n.isTagged = false) :
    n.unnamed = n.ids := by
  rw [unnamed, hbranch, htag]
  rfl

theorem tagIds_branch (h : n.isBranch) : n.tagIds = n.children.flatMap tagIds := by
  have htag : n.isTagged = false := by cases n <;> first | rfl | cases h
  rw [tagIds, outer_eq, List.filter_cons_of_neg (by simp [htag]),
    if_neg (kind_ne_text_of_isBranch h), List.filter_flatMap, List.filterMap_flatMap]
  rfl

theorem tagIds_tagged {id : String} (h : n.isTagged) (hid : n.id? = some id) : n.tagIds = [id] := by
  rw [tagIds, outer_eq, children_eq_nil_of_isTagged h]
  simp [h, hid]

theorem tagIds_leaf (hbranch : n.isBranch = false) (htag : n.isTagged = false) : n.tagIds = [] := by
  rw [tagIds, outer_eq, List.filter_cons_of_neg (by simp [htag])]
  cases n <;> first | rfl | cases hbranch

theorem outer_sublist (n : Node) : n.outer.Sublist n.preorder := by
  induction n using childrenInduction with
  | step n ih =>
    rw [outer_eq, preorder_eq]
    refine List.Sublist.cons_cons n ?_
    split
    next => exact List.nil_sublist _
    next => exact List.Sublist.flatMap_right _ ih

theorem tagIds_sublist (n : Node) : n.tagIds.Sublist n.ids :=
  (List.filter_sublist.trans n.outer_sublist).filterMap id?

theorem unnamed_sublist (n : Node) : n.unnamed.Sublist n.ids := by
  induction n using childrenInduction with
  | step n ih =>
    cases hbranch : n.isBranch with
    | true =>
      rw [unnamed_branch hbranch, ids_eq]
      exact (List.Sublist.flatMap_right _ ih).append_left _
    | false =>
      cases htag : n.isTagged with
      | true => rw [unnamed_tagged htag]; exact List.nil_sublist _
      | false => rw [unnamed_leaf hbranch htag]

/-- Labels keep the ids of tags and give their paths to the other nodes. -/
theorem ids_relabel_tagsOnly (path : String) (h : ∀ m ∈ n.outer, m.Tagged) :
    (n.tagsOnly.relabel true path).ids.Perm (n.tagIds ++ (n.relabel false path).unnamed) := by
  induction n using childrenInduction generalizing path with
  | step n ih =>
    cases hbranch : n.isBranch with
    | true =>
      have hbranch' : (n.relabel false path).isBranch := by
        rwa [isBranch_eq_of_kind (kind_eq_of_shape (shape_relabel false path n))]
      obtain ⟨id, hid⟩ := exists_id_of_isBranch hbranch
      have hpath : pathId true path "" = path := rfl
      have hpath' : ∀ old, pathId false path old = path := fun old => by simp [pathId]
      have hblank : n.tagsOnly.id? = some "" := by
        rw [tagsOnly_branch hbranch, id?_withId, id?_mapChildren, hid, Option.map_some]
      -- the children with the names of their slots
      have hfst : (n.children.zip n.slots).map Prod.fst = n.children :=
        List.map_fst_zip (by rw [length_slots])
      have hbelow : ((n.children.zip n.slots).flatMap fun p =>
          (p.1.tagsOnly.relabel true (path ++ "." ++ p.2)).ids).Perm
          ((n.children.zip n.slots).flatMap fun p =>
            p.1.tagIds ++ (p.1.relabel false (path ++ "." ++ p.2)).unnamed) :=
        .flatMap_left _ fun p hp => ih p.1 (List.of_mem_zip hp).1 _ fun m hm =>
          h m (mem_outer_of_child (kind_ne_text_of_isBranch hbranch) (List.of_mem_zip hp).1 hm)
      have hsplit := (hbelow.trans (List.flatMap_append_perm _ _ _).symm).cons path
      rw [ids_eq, id?_relabel, hblank, children_relabel, hblank, slots_tagsOnly, tagsOnly_branch hbranch,
        children_withId, children_mapChildren, List.zipWith_map_left, unnamed_branch hbranch',
        id?_relabel, hid, children_relabel, tagIds_branch hbranch]
      simp only [Option.getD_some, Option.map_some, hpath, hpath', Option.toList_some,
        ← List.map_uncurry_zip_eq_zipWith, List.flatMap_map]
      rw [← hfst, List.flatMap_map, hfst]
      exact hsplit.trans List.perm_middle.symm
    | false =>
      cases htag : n.isTagged with
      | true =>
        obtain ⟨id, hid⟩ := exists_id_of_isTagged htag
        have hne := (h n n.self_mem_outer htag id hid).1
        have htag' : (n.relabel false path).isTagged := by
          rwa [isTagged_eq_of_kind (kind_eq_of_shape (shape_relabel false path n))]
        rw [tagIds_tagged htag hid, unnamed_tagged htag', tagsOnly_tagged htag, ids_eq, id?_relabel,
          hid, children_relabel, children_eq_nil_of_isTagged htag]
        simp [pathId, hne]
      | false =>
        have hkind := kind_eq_of_shape (shape_relabel false path n)
        rw [tagIds_leaf hbranch htag, unnamed_leaf (by rw [isBranch_eq_of_kind hkind, hbranch])
          (by rw [isTagged_eq_of_kind hkind, htag]), tagsOnly_leaf hbranch htag, relabel_blank]
        rfl

/-- The ids that labels give are different just when no tag has the path of another node as its id. -/
theorem nodup_relabel_tagsOnly (path : String) (h : ∀ m ∈ n.outer, m.Tagged) (hnodup : n.tagIds.Nodup) :
    (n.tagsOnly.relabel true path).ids.Nodup ↔
      ∀ id ∈ n.tagIds, id ∉ (n.relabel false path).unnamed := by
  have hunnamed := (ids_relabel path n).2.sublist (n.relabel false path).unnamed_sublist
  rw [(ids_relabel_tagsOnly path h).nodup_iff, List.nodup_append]
  constructor
  · intro ⟨_, _, happart⟩ id hid hid'
    exact happart id hid id hid' rfl
  · intro happart
    refine ⟨hnodup, hunnamed, ?_⟩
    rintro id hid _ hid' rfl
    exact happart id hid hid'

end Node

theorem Under.ne_empty {path id : String} (h : Under path id) (hpath : path ≠ "") : id ≠ "" := by
  rintro rfl
  have hle := h.length_le
  have hne := mt String.toList_eq_nil_iff.mp hpath
  simp only [List.length_append, String.toList_empty, List.length_nil, List.length_cons] at hle
  exact hne (List.eq_nil_of_length_eq_zero (by omega))

theorem toString_ne_empty (n : Nat) : toString n ≠ "" :=
  Nat.repr_ne_empty

namespace Node

/-- A node below one under path ids is under path ids itself. -/
theorem relabel_of_mem_preorder {m n : Node} {path t : String} (h : n.relabel false path = n)
    (hm : m ∈ n.preorder) (hid : m.id? = some t) : m.relabel false t = m := by
  induction n using childrenInduction generalizing path with
  | step n ih =>
    rcases mem_preorder_iff.mp hm with rfl | ⟨c, hc, hm⟩
    · rwa [← eq_path_of_relabel h hid] at h
    · obtain ⟨i, hi, rfl⟩ := List.mem_iff_getElem.mp hc
      have hslot : i < n.slots.length := n.length_slots.symm ▸ hi
      exact ih _ hc (relabel_getElem h hi hslot) hm

end Node

namespace Formula

variable {f : Formula}

theorem relabel_getElem (h : f.assignPathIds = .ok f) (i : Nat) (hi : i < f.children.length) :
    f.children[i].relabel false (toString i) = f.children[i] := by
  have hget := List.getElem_of_eq (children_of_ofNodes h) hi
  simp only [labelNodes, List.getElem_mapIdx] at hget
  exact hget.symm

theorem relabel_of_mem_nodes {n : Node} {t : String} (h : f.assignPathIds = .ok f) (hn : n ∈ f.nodes)
    (hid : n.id? = some t) : n.relabel false t = n := by
  obtain ⟨top, htop, hn⟩ := List.mem_flatMap.mp hn
  obtain ⟨i, hi, rfl⟩ := List.mem_iff_getElem.mp htop
  exact Node.relabel_of_mem_preorder (relabel_getElem h i hi) hn hid

/-- Path ids are given back by tags. -/
theorem tagged_of_assignPathIds (h : f.assignPathIds = .ok f) : f.Tagged := by
  intro n hn _ id hid
  obtain ⟨top, htop, hn⟩ := List.mem_flatMap.mp hn
  obtain ⟨i, hi, rfl⟩ := List.mem_iff_getElem.mp htop
  have hmem : id ∈ (f.children[i].relabel false (toString i)).ids := by
    rw [relabel_getElem h i hi]
    exact List.mem_filterMap.mpr ⟨n, (Node.outer_sublist _).subset hn, hid⟩
  have hunder := (Node.ids_relabel _ _).1 id hmem
  have hword : IsWord id := Node.isWord_of_relabel (isWord_toString i) hmem
  exact ⟨hunder.ne_empty (toString_ne_empty i), hword.verbatim⟩

end Formula

end FormulaDoc
