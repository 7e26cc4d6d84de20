import FormulaDoc.Proofs.RangeText
import FormulaDoc.Proofs.Stability

namespace FormulaDoc

/-- The commands that have a meaning of their own. -/
def reservedCommands : List String :=
  ["\\\\", "\\end", "\\limits", "\\begin", "\\cssId", "\\frac", "\\sqrt", "\\text", "\\textcolor",
    "\\fcolorbox", "\\overbrace", "\\underbrace", "\\cancel"] ++ spacingCommands ++ bigOperators

theorem not_mem_reservedCommands {name : String} (h : Command.ofName name = .leaf) :
    name ∉ reservedCommands := by
  have hreserved : ∀ name ∈ reservedCommands, Command.ofName name ≠ .leaf := by decide
  exact fun hname => hreserved name hname h

/-- The value of a symbol outside of texts: one character without a meaning of its own, or a backslash
with letters or with one character, which is no reserved command. -/
structure IsSymbolValue (value : String) : Prop where
  spelled : (∃ c, value.toList = [c] ∧ c ∉ [' ', '\t', '\r', '\n', '{', '}', '_', '^', '&', '\\']) ∨
    ∃ name, value.toList = '\\' :: name ∧
      (name ≠ [] ∧ (∀ c ∈ name, c.isAlpha) ∨ ∃ c, name = [c])
  free : value ∉ reservedCommands

theorem exists_name_of_isCommandName {s : List Char} (h : isCommandName s) :
    ∃ name, s = '\\' :: name ∧ (name ≠ [] ∧ (∀ c ∈ name, c.isAlpha) ∨ ∃ c, name = [c]) := by
  unfold isCommandName at h
  split at h
  next c rest =>
    refine ⟨c :: rest, rfl, ?_⟩
    split at h
    next hc => exact .inl ⟨by simp, by simpa [hc] using h⟩
    next => exact .inr ⟨c, by simpa using h⟩
  next => cases h

theorem isSymbolValue_of_isLeafName {value : String} (h : isLeafName value) : IsSymbolValue value := by
  unfold isLeafName at h
  split at h
  next c hc =>
    have hplain : c ∉ [' ', '\t', '\r', '\n', '{', '}', '_', '^', '&', '\\'] := by
      simpa [isGap, and_assoc] using h
    refine ⟨.inl ⟨c, hc, hplain⟩, fun hmem => ?_⟩
    -- every reserved command has two characters at least
    have hlength : ∀ name ∈ reservedCommands, name.toList.length ≠ 1 := by decide
    exact hlength value hmem (by simp [hc])
  next =>
    simp only [Bool.and_eq_true, decide_eq_true_eq] at h
    exact ⟨.inr (exists_name_of_isCommandName h.1), not_mem_reservedCommands h.2⟩

/-- What holds of every node of a parsed formula, where it stands in it. -/
def Entry.WellFormed (vars : List String) (e : Entry) : Prop :=
  match e.node with
  | .symbol _ value => (∀ a ∈ e.ancestors, a.kind ≠ .text) → IsSymbolValue value
  | .text _ body => ∀ n ∈ body, ∃ id value, n = .symbol id value ∧ value.length = 1
  | .space _ s => s ∈ spacingCommands
  | .op _ operator _ => operator ∈ bigOperators
  | .var _ latex => latex ∈ vars
  | .script _ base sub sup =>
    (sub.isSome ∨ sup.isSome) ∧ ∀ id n, base = .group id [n] → n.kind ≠ .script
  | .array _ rows align => align.isSome ∧ ∀ row ∈ rows, row ≠ []
  | _ => True

namespace Node

variable {n : Node} {e : Entry}

/-- A node that is no symbol stands in no text of a spelled tree. -/
theorem Spelled.mem_outer {vars : List (List Char)} {m : Node} (hn : n.Spelled vars)
    (hm : m ∈ n.preorder) (hk : m.kind ≠ .symbol) : m ∈ n.outer := by
  refine (mem_outer_of_mem_preorder hn hm).resolve_right fun hletter => ?_
  cases m with
  | symbol => exact hk rfl
  | _ => cases hletter

/-- A node with no text above it stands in no text. -/
theorem node_mem_outer {above : List Node} (he : e ∈ n.entries above)
    (htext : ∀ a ∈ e.ancestors, a.kind ≠ .text) : e.node ∈ n.outer := by
  induction n using childrenInduction generalizing above with
  | step n ih =>
    rcases mem_entries_iff.mp he with rfl | ⟨c, hc, he⟩
    · exact self_mem_outer n
    · obtain ⟨habove, -⟩ := ancestors_of_mem_entries he
      have hk : n.kind ≠ .text := htext n (habove n (by simp))
      exact mem_outer_of_child hk hc (ih c hc he)

theorem exists_value_of_isLetter (h : n.isLetter) :
    ∃ id value, n = symbol id value ∧ value.length = 1 := by
  cases n with
  | symbol id value => exact ⟨id, value, rfl, by simpa [isLetter] using h⟩
  | _ => cases h

/-- The nodes of a spelled tree are well formed where they stand. -/
theorem Spelled.wellFormed {vars : List String} {tried : List (List Char)}
    (htried : ∀ v ∈ tried, String.ofList v ∈ vars) (hn : n.Spelled tried) {above : List Node}
    (he : e ∈ n.entries above) : e.WellFormed vars := by
  have hmem : e.node ∈ n.preorder := by
    rw [← map_node_entries above]
    exact List.mem_map_of_mem he
  have hspelled : e.node.kind ≠ .symbol → e.node.spelledAt tried := fun hk => hn _ (hn.mem_outer hmem hk)
  have hsymbol := @node_mem_outer _ _ _ he
  obtain ⟨m, ancestors⟩ := e
  unfold Entry.WellFormed
  dsimp only at hspelled hsymbol ⊢
  cases m with
  | symbol id value => exact fun htext => isSymbolValue_of_isLeafName (hn _ (hsymbol htext))
  | text id body =>
    have hbody : body.all isLetter := hspelled (by simp [kind])
    exact fun c hc => exists_value_of_isLetter (List.all_eq_true.mp hbody c hc)
  | space id s => simpa [spelledAt, kind] using hspelled
  | op id operator limits => simpa [spelledAt, kind] using hspelled
  | var id latex =>
    have hlatex : latex.toList ∈ tried := by simpa [spelledAt, kind] using hspelled
    simpa using htried _ hlatex
  | script id base sub sup =>
    have hself : (sub.isSome ∨ sup.isSome) ∧ base.isScriptGroup = false := by
      simpa [spelledAt, kind] using hspelled
    refine ⟨hself.1, ?_⟩
    rintro id c rfl
    simpa [isScriptGroup] using hself.2
  | array id rows align => simpa [spelledAt, kind] using hspelled
  | _ => trivial

/-- No label is empty. -/
theorem ne_empty_of_relabel {keep : Bool} {path id : String} (hpath : path ≠ "")
    (h : id ∈ (n.relabel keep path).ids) : id ≠ "" := by
  induction n using childrenInduction generalizing path with
  | step n ih =>
    rw [ids_eq, id?_relabel, children_relabel] at h
    rcases List.mem_append.mp h with h | h
    · obtain ⟨old, -, rfl⟩ : ∃ old, n.id? = some old ∧ pathId keep path old = id := by simpa using h
      unfold pathId
      split
      next hold =>
        rw [Bool.and_eq_true] at hold
        simpa using hold.2
      next => exact hpath
    · obtain ⟨c, hc, h⟩ := List.mem_flatMap.mp h
      obtain ⟨i, hi, rfl⟩ := List.mem_iff_getElem.mp hc
      rw [List.getElem_zipWith] at h
      exact ih _ (List.getElem_mem _) (by simp) h

end Node

namespace Formula

variable {vars : List String} {text : String} {f : Formula}

theorem mem_of_mem_variableOrder {v : List Char} (h : v ∈ variableOrder vars) : String.ofList v ∈ vars := by
  rw [variableOrder, List.mem_mergeSort] at h
  obtain ⟨s, hs, rfl⟩ := List.mem_map.mp h
  rw [String.ofList_toList]
  exact List.mem_eraseDups.mp hs

/-- The ids of a parsed formula are different and none is empty, and all its nodes are well formed. -/
theorem wellFormed_of_parse (h : Formula.parse vars text = .ok f) :
    (∀ id ∈ f.ids, id ≠ "") ∧ f.ids.Nodup ∧ ∀ e ∈ f.entries, e.WellFormed vars := by
  obtain ⟨ns, rest, hread, hf⟩ := exists_siblings_of_parse h
  have hids : ∀ id ∈ f.ids, id ≠ "" := by
    intro id hid
    rw [ids, forestIds_eq, hf] at hid
    obtain ⟨n, hn, hid⟩ := List.mem_flatMap.mp hid
    obtain ⟨i, hi, rfl⟩ := List.mem_mapIdx.mp hn
    have hposition : toString i ≠ "" := Nat.repr_ne_empty
    exact Node.ne_empty_of_relabel hposition hid
  refine ⟨hids, f.nodup, ?_⟩
  intro e he
  obtain ⟨n, hn, he⟩ := List.mem_flatMap.mp he
  obtain ⟨m, hm, hblank⟩ := exists_of_mem_labelNodes (hf ▸ hn)
  have hmarkup := (siblings_fromMarkup hread m hm).of_blank hblank.symm
  have hspelled : n.Spelled _ := fun m hm => (hmarkup m hm).spelled
  refine hspelled.wellFormed ?_ he
  intro v hv
  exact mem_of_mem_variableOrder (List.mem_filter.mp hv).1

/-- A script on a variable, a text and an array with empty cells are well formed. -/
theorem wellFormed_of_parse_script : ∃ f,
    Formula.parse ["xy"] "xy_1\\text\x7b_\x7d\\begin\x7barray\x7d\x7bc\x7d&\\end\x7barray\x7d" = .ok f ∧
      (∀ id ∈ f.ids, id ≠ "") ∧ f.ids.Nodup ∧ ∀ e ∈ f.entries, e.WellFormed ["xy"] := by
  have hparse : (Formula.parse ["xy"]
      "xy_1\\text\x7b_\x7d\\begin\x7barray\x7d\x7bc\x7d&\\end\x7barray\x7d").toOption.any
      fun f => f.children.length = 3 := by decide +kernel
  obtain ⟨f, hf, -⟩ := exists_ok_of_any hparse
  exact ⟨f, hf, wellFormed_of_parse hf⟩

end Formula

end FormulaDoc
