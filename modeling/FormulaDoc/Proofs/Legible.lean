import FormulaDoc.Proofs.Writing

namespace FormulaDoc

/-- A name without blanks at its ends that a verbatim group gives back. -/
def Verbatim (c : String) : Prop :=
  trim c.toList = c.toList ∧ rawGroup ('{' :: (c.toList ++ ['}'])) = .ok (c.toList, [])

instance (c : String) : Decidable (Verbatim c) :=
  decidable_of_iff (trim c.toList = c.toList ∧
    (rawGroup ('{' :: (c.toList ++ ['}']))).toOption = some (c.toList, [])) (by
      unfold Verbatim
      cases rawGroup ('{' :: (c.toList ++ ['}'])) <;> simp [Except.toOption])

namespace Node

/-- The runs of siblings that a reader collapses to one node, each with the stop that ends it. -/
def runs : Node → List (Stop × List Node)
  | array _ rows _ => if rows = [] then [] else (cells (stream rows)).flatten.map (Stop.cell, ·)
  | n => n.arguments.map fun (stop, s) => (stop, contents stop s)

/-- A run is a cell of an array, or what stands in a slot that takes siblings. -/
theorem exists_of_mem_runs {n : Node} {stop : Stop} {run : List Node} (h : (stop, run) ∈ n.runs) :
    (∃ id rows align, n = .array id rows align ∧ rows ≠ [] ∧ stop = .cell ∧
      run ∈ (cells (stream rows)).flatten) ∨
    n.kind ≠ .array ∧ ∃ s, (stop, s) ∈ n.arguments ∧ run = contents stop s := by
  cases n with
  | array id rows align =>
    rw [runs] at h
    split at h
    next => cases h
    next hrows =>
      obtain ⟨r, hr, he⟩ := List.mem_map.mp h
      cases he
      exact .inl ⟨id, rows, align, rfl, hrows, rfl, hr⟩
  | _ =>
    obtain ⟨⟨stop', s⟩, hs, he⟩ := List.mem_map.mp h
    cases he
    exact .inr ⟨by simp [kind], s, hs, rfl⟩

theorem mem_runs_of_arguments {n s : Node} {stop : Stop} (hn : n.kind ≠ .array)
    (hs : (stop, s) ∈ n.arguments) : (stop, contents stop s) ∈ n.runs := by
  cases n with
  | array => exact absurd rfl hn
  | _ => exact List.mem_map.mpr ⟨_, hs, rfl⟩

/-- A node whose own markup is read as it was written. -/
structure LegibleAt (n : Node) : Prop where
  spelled : n.spelledAt []
  names : ∀ c ∈ n.names, Verbatim c
  runs : ∀ stop run, (stop, run) ∈ n.runs → ∀ c ∈ run, stop.holds c.ast = false

def Legible (n : Node) : Prop :=
  ∀ m ∈ n.outer, m.LegibleAt

variable {c m n : Node}

theorem Legible.spelled (h : n.Legible) : n.Spelled [] :=
  fun m hm => (h m hm).spelled

theorem Legible.self (h : n.Legible) : n.LegibleAt :=
  h n n.self_mem_outer

theorem Legible.child (h : n.Legible) (hn : n.kind ≠ .text) (hc : c ∈ n.children) : c.Legible :=
  fun m hm => h m (mem_outer_of_child hn hc hm)

theorem Spelled.of_mem_contents {stop : Stop} (h : n.Spelled []) (hm : m ∈ contents stop n) :
    m.Spelled [] :=
  fun k hk => h k (mem_outer_of_mem_contents hm hk)

end Node

/-- Trees as they are written without ids. -/
def Writing.plain : Writing where
  write := id
  read := Node.reread
  kind_write _ := rfl
  kind_read := Node.kind_reread

theorem reread_mark {m : Node} (hm : m.isMark) : m.reread = m :=
  Writing.plain.read_mark hm

theorem notMem_reread {m : Node} {run : List Node} (hm : m.isMark) (h : m ∉ run) :
    m ∉ run.map Node.reread :=
  Writing.plain.notMem_read hm h

theorem following_cutOff {ns : List Node} {w : List Char} (hns : ∀ n ∈ ns, n.Outlined)
    (hw : CutOff w) : CutOff (following ns ++ w) := by
  have hstarts : ∀ n ∈ ns, Starts n.ast := fun n hn => (Node.opening_ast (hns n hn)).starts
  exact cutOff_following hstarts hw

theorem following_unscripted {ns : List Node} {w : List Char} (hns : ∀ n ∈ ns, n.Outlined)
    (hw : CutOff w) (hw' : Unscripted w) : Unscripted (following ns ++ w) := by
  have hstarts : ∀ n ∈ ns, Starts n.ast := fun n hn => (Node.opening_ast (hns n hn)).starts
  exact unscripted_following hstarts hw hw'

/-- A tree whose markup is read as an item. -/
def Node.ReadsBack (n : Node) : Prop :=
  ReadsItem n.ast n.reread

/-- A run of siblings that is read back up to its stop. -/
def RunReadsBack (stop : Stop) (run : List Node) : Prop :=
  ∀ n ∈ run, n.Spelled [] ∧ n.ReadsBack ∧ stop.holds n.ast = false

section

variable {stop : Stop} {ns : List Node} {w : List Char}

theorem RunReadsBack.plain (h : RunReadsBack stop ns) : Writing.plain.RunReads stop ns := by
  intro n hn
  obtain ⟨hn', hgroup, hscript⟩ := h n hn
  exact ⟨(Node.opening_ast hn'.outlined).starts, hgroup, hscript⟩

theorem siblings_following (hns : RunReadsBack stop ns) (hw : Ends stop w) :
    siblings [] stop (following ns ++ w) = .ok (ns.map Node.reread, skipGap w) := by
  simpa [Writing.plain] using Writing.siblings_following hns.plain hw

theorem siblings_joined (hns : RunReadsBack stop ns) (hw : Ends stop w) :
    siblings [] stop (joined ns ++ w) = .ok (ns.map Node.reread, skipGap w) := by
  simpa [Writing.plain] using Writing.siblings_joined hns.plain hw

end

theorem Verbatim.balanced {c : String} (h : Verbatim c) : Balanced c.toList :=
  (rawGroup_eq_ok_iff.mp h.2).2

theorem Verbatim.readName {c : String} (h : Verbatim c) (w : List Char) :
    readName ('{' :: (c.toList ++ '}' :: w)) = .ok (c, w) := by
  refine readName_eq_ok.mpr ⟨c.toList, rawGroup_eq_ok_iff.mpr ⟨rfl, h.balanced⟩, ?_⟩
  rw [h.1, String.ofList_toList]

theorem verbatim_array : Verbatim "array" :=
  ⟨rfl, rfl⟩

theorem verbatim_aligned : Verbatim "aligned" :=
  ⟨rfl, rfl⟩

theorem readEnd_array (w : List Char) : readEnd "array" ("\\end\x7barray\x7d".toList ++ w) = .ok w :=
  readEnd_eq_ok.mpr ⟨rfl, verbatim_array.readName w⟩

theorem readEnd_aligned (w : List Char) :
    readEnd "aligned" ("\\end\x7baligned\x7d".toList ++ w) = .ok w :=
  readEnd_eq_ok.mpr ⟨rfl, verbatim_aligned.readName w⟩

end FormulaDoc
