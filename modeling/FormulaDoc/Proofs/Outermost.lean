import FormulaDoc.Proofs.BottomUp
import FormulaDoc.Proofs.Lookups

namespace FormulaDoc

namespace Node

/-- A node and all nodes below it, each after its children. -/
def postorder (n : Node) : List Node :=
  (n.children.attach.flatMap fun ⟨c, _⟩ => c.postorder) ++ [n]
termination_by n.size
decreasing_by exact size_lt_of_mem ‹_›

theorem postorder_eq (n : Node) : n.postorder = n.children.flatMap postorder ++ [n] := by
  rw [postorder]
  simp

/-- Post-order lists the same nodes as pre-order. -/
theorem perm_postorder (n : Node) : n.postorder.Perm n.preorder := by
  induction n using childrenInduction with
  | step n ih =>
    have hbelow : (n.children.flatMap postorder).Perm (n.children.flatMap preorder) :=
      List.Perm.flatMap_left _ ih
    rw [postorder_eq, preorder_eq]
    exact (List.perm_append_singleton n _).trans (hbelow.cons n)

/-- The tree in which every node whose id has a replacement gives way to it, unless a node above it does;
replacements are put in as they are. -/
def substituted (sub : String → Option Node) (n : Node) : Node :=
  match n.replacement? sub with
  | some r => r
  | none => n.withChildren (n.children.attach.map fun ⟨c, _⟩ => c.substituted sub)
termination_by n.size
decreasing_by exact size_lt_of_mem ‹_›

variable {sub : String → Option Node} {n : Node}

theorem substituted_eq (sub : String → Option Node) (n : Node) :
    n.substituted sub = (n.replacement? sub).getD (n.mapChildren (substituted sub)) := by
  rw [substituted, mapChildren]
  cases n.replacement? sub <;> simp

theorem replacement?_mapChildren (g : Node → Node) (n : Node) :
    (n.mapChildren g).replacement? sub = n.replacement? sub := by
  rw [replacement?, replacement?, id?_mapChildren]

/-- From the leaves up a node below a replaced one is replaced for nothing. -/
theorem everywhere_replacement? (sub : String → Option Node) (n : Node) :
    (n.everywhere fun m => (m.replacement? sub).getD m) = n.substituted sub := by
  induction n using childrenInduction with
  | step n ih =>
    rw [everywhere_eq, replacement?_mapChildren, substituted_eq, mapChildren_congr ih]

theorem substituted_eq_self (h : ∀ id ∈ n.ids, sub id = none) : n.substituted sub = n := by
  rw [← everywhere_replacement?]
  refine everywhere_eq_self fun m hm => ?_
  have hnone : m.replacement? sub = none :=
    Option.bind_eq_none_iff.mpr fun id hid => h id (mem_ids_iff.mpr ⟨m, hm, hid⟩)
  rw [hnone]
  rfl

/-- A node counts as rewritten exactly if an id in it has a replacement. -/
theorem snd_run_rewrite (sub : String → Option Node) (n : Node) :
    (Id.run (n.rewrite fun n => pure (n.replacement? sub))).2 = n.ids.any fun id => (sub id).isSome := by
  induction n using childrenInduction with
  | step n ih =>
    have hbelow : (n.children.any fun c => (Id.run (c.rewrite fun n => pure (n.replacement? sub))).2) =
        (n.children.flatMap ids).any fun id => (sub id).isSome := by
      rw [List.any_flatMap]
      exact any_congr_of_mem ih
    rw [run_rewrite, replacement?_mapChildren, ids_eq, List.any_append, ← hbelow, replacement?]
    cases hid : n.id? with
    | none => simp
    | some id => cases hsub : sub id <;> simp [hsub]

end Node

namespace Node

/-- Two forests that differ in one subtree only: where the one has `t` the other has `r`. -/
inductive ReplacesOne (t r : Node) : List Node → List Node → Prop
  | here (before after : List Node) : ReplacesOne t r (before ++ t :: after) (before ++ r :: after)
  | inside (before after : List Node) {n : Node} {cs : List Node} (h : ReplacesOne t r n.children cs) :
      ReplacesOne t r (before ++ n :: after) (before ++ n.withChildren cs :: after)

/-- The replacement of one node. -/
def only (id : String) (r : Node) (i : String) : Option Node :=
  if i = id then some r else none

variable {n t : Node} {ns : List Node} {id : String}

theorem substituted_only_eq_self (r : Node) (h : id ∉ forestIds ns) :
    ns.map (substituted (only id r)) = ns := by
  have hself : ∀ n ∈ ns, n.substituted (only id r) = n := by
    refine fun n hn => substituted_eq_self fun i hi => if_neg ?_
    rintro rfl
    exact not_mem_ids h hn hi
  rw [List.map_congr_left hself, List.map_id']

/-- Where ids are not repeated, replacing the node with an id changes one subtree. -/
theorem replacesOne_substituted (r : Node) (hns : (forestIds ns).Nodup) (hn : n ∈ ns)
    (ht : t ∈ n.preorder) (hid : t.id? = some id) :
    ReplacesOne t r ns (ns.map (substituted (only id r))) := by
  induction n using childrenInduction generalizing ns with
  | step n ih =>
    obtain ⟨before, after, rfl⟩ := List.append_of_mem hn
    have hmem : id ∈ n.ids := mem_ids_iff.mpr ⟨t, ht, hid⟩
    rw [forestIds_append, forestIds_eq (n :: after), List.flatMap_cons, ← forestIds_eq] at hns
    have hbefore : id ∉ forestIds before := by grind
    have hafter : id ∉ forestIds after := by grind
    rw [List.map_append, List.map_cons, substituted_only_eq_self r hbefore,
      substituted_only_eq_self r hafter, substituted_eq]
    rcases mem_preorder_iff.mp ht with rfl | ⟨c, hc, hct⟩
    · rw [replacement?, hid, Option.bind_some, only, if_pos rfl, Option.getD_some]
      exact .here before after
    · have hbelow : id ∈ forestIds n.children := by
        rw [forestIds_eq]
        exact List.mem_flatMap.mpr ⟨c, hc, mem_ids_iff.mpr ⟨t, hct, hid⟩⟩
      have hids : n.ids.Nodup := by grind
      rw [ids_eq, ← forestIds_eq] at hids
      have hnone : n.replacement? (only id r) = none := by
        refine Option.bind_eq_none_iff.mpr fun i hi => if_neg ?_
        rintro rfl
        rw [hi] at hids
        exact (List.nodup_cons.mp hids).1 hbelow
      rw [hnone, Option.getD_none]
      exact .inside before after (ih c hc (List.nodup_append.mp hids).2.1 hc hct)

end Node

/-- A visitor that keeps a record of the nodes it receives. -/
def recording (v : Node → Option Node) (n : Node) : StateM (List Node) (Option Node) := do
  modify (· ++ [n])
  pure (v n)

theorem run_mapM_record {α β γ : Type} {ns : List α} {g : α → StateM (List γ) β} {k : α → β}
    {t : α → List γ} (h : ∀ n ∈ ns, ∀ seen, (g n).run seen = (k n, seen ++ t n)) (seen : List γ) :
    (ns.mapM g).run seen = (ns.map k, seen ++ ns.flatMap t) := by
  induction ns generalizing seen with
  | nil => exact congrArg (Prod.mk []) (List.append_nil seen).symm
  | cons n ns ih =>
    have hrest := ih (fun m hm => h m (List.mem_cons_of_mem n hm)) (seen ++ t n)
    rw [List.mapM_cons, StateT.run_bind, h n List.mem_cons_self]
    show (do let bs ← ns.mapM g; pure (k n :: bs) : StateM (List γ) (List β)).run (seen ++ t n) = _
    rw [StateT.run_bind, hrest, List.flatMap_cons, List.append_assoc]
    rfl

theorem run_recording (v : Node → Option Node) (b : Node) (below : Bool) (seen : List Node) :
    (do match ← recording v b with
        | some r => pure (r, true)
        | none => pure (b, below) : StateM (List Node) Rewritten).run seen =
      (match v b with
        | some r => (r, true)
        | none => (b, below), seen ++ [b]) := by
  rw [StateT.run_bind, recording]
  cases v b <;> rfl

/-- The visitor receives every node once, in post-order, around its rewritten children. -/
theorem Node.run_rewrite_recording (v : Node → Option Node) (n : Node) (seen : List Node) :
    (n.rewrite (recording v)).run seen = (Id.run (n.rewrite fun n => pure (v n)),
      seen ++ n.postorder.map (mapChildren (everywhere fun m => (v m).getD m))) := by
  induction n using childrenInduction generalizing seen with
  | step n ih =>
    have hfst : (fun c => (Id.run (c.rewrite fun n => pure (v n))).1) =
        everywhere fun m => (v m).getD m :=
      funext (fst_run_rewrite v)
    rw [rewrite_eq, StateT.run_bind, run_mapM_record fun c hc => ih c hc]
    refine (run_recording v _ _ _).trans ?_
    rw [run_rewrite, postorder_eq, List.map_append, List.map_flatMap, List.map_singleton, List.any_map,
      List.append_assoc, List.map_map, Function.comp_def, hfst]
    rfl

namespace Formula

variable {f : Formula} {sub : String → Option Node}

/-- The nodes of a formula in post-order. -/
def postorder (f : Formula) : List Node :=
  f.children.flatMap Node.postorder

/-- The forest in which the outermost nodes with a replacement have given way to it. -/
def substituted (sub : String → Option Node) (f : Formula) : List Node :=
  f.children.map (Node.substituted sub)

theorem perm_postorder (f : Formula) : f.postorder.Perm f.nodes :=
  List.Perm.flatMap_left _ fun n _ => n.perm_postorder

theorem substituted_eq_self (h : ∀ id ∈ f.ids, sub id = none) : f.substituted sub = f.children := by
  have hself : ∀ n ∈ f.children, n.substituted sub = n := by
    refine fun n hn => Node.substituted_eq_self fun id hid => h id ?_
    rw [ids, forestIds_eq]
    exact List.mem_flatMap.mpr ⟨n, hn, hid⟩
  rw [substituted, List.map_congr_left hself, List.map_id']

/-- Replacing gives the substituted forest, unless an id is in it twice. -/
theorem replaceNodes_eq (sub : String → Option Node) (f : Formula) :
    f.replaceNodes sub = (ofNodes (f.substituted sub)).map
      fun g => ⟨g, f.ids.any fun id => (sub id).isSome⟩ := by
  have hchildren : (f.children.map (Node.everywhere fun m => (m.replacement? sub).getD m)) =
      f.substituted sub :=
    List.map_congr_left fun n _ => Node.everywhere_replacement? sub n
  have hchanged : (f.children.any fun n =>
      (Id.run (n.rewrite fun n => pure (n.replacement? sub))).2) = f.ids.any fun id => (sub id).isSome := by
    rw [ids, forestIds_eq, List.any_flatMap]
    exact List.any_congr rfl fun n => Node.snd_run_rewrite sub n
  rw [replaceNodes, run_rewrite_eq, hchildren, hchanged]

/-- A formula comes back as it was exactly if none of its ids has a replacement. -/
theorem replaceNodes_eq_self_iff (sub : String → Option Node) (f : Formula) :
    f.replaceNodes sub = .ok ⟨f, false⟩ ↔ ∀ id ∈ f.ids, sub id = none := by
  have hany : (f.ids.any fun id => (sub id).isSome) = false ↔ ∀ id ∈ f.ids, sub id = none := by simp
  rw [replaceNodes_eq, ← hany]
  constructor
  · intro h
    cases hg : ofNodes (f.substituted sub) with
    | error e =>
      rw [hg] at h
      cases h
    | ok g =>
      rw [hg] at h
      exact congrArg Edited.changed (Except.ok.inj h)
  · intro h
    rw [substituted_eq_self (hany.mp h), ofNodes_eq_ok f.nodup, h]
    rfl

/-- Replacing is the same with a record of the visits. -/
theorem traceReplaceNodes_eq (sub : String → Option Node) (f : Formula) :
    f.traceReplaceNodes sub =
      (f.replaceNodes sub, f.postorder.map (Node.mapChildren (Node.substituted sub))) := by
  have hvisits := run_mapM_record
    (fun n (_ : n ∈ f.children) => Node.run_rewrite_recording (fun n => n.replacement? sub) n) []
  have hbelow : Node.everywhere (fun m => (m.replacement? sub).getD m) = Node.substituted sub :=
    funext (Node.everywhere_replacement? sub)
  show (f.rewrite (recording fun n => n.replacement? sub)).run [] = _
  rw [rewrite, StateT.run_bind, hvisits, replaceNodes, rewrite, Id.run_bind, List.idRun_mapM, postorder,
    List.map_flatMap, hbelow]
  generalize f.children.map (fun n => Id.run (n.rewrite fun n => pure (n.replacement? sub))) = below
  show StateT.run (if below.any Prod.snd then _ else _) _ = _
  cases below.any Prod.snd <;> rfl

/-- Replacing one node: nothing happens where there is none, and else one subtree is exchanged. -/
theorem replaceNode_cases (f : Formula) (id : String) (r : Node) :
    match f.find? id with
    | none => f.replaceNode id r = .ok ⟨f, false⟩
    | some t => ∃ ns, Node.ReplacesOne t r f.children ns ∧
        f.replaceNode id r = (ofNodes ns).map fun g => ⟨g, true⟩ := by
  have hsub : f.replaceNode id r = f.replaceNodes (Node.only id r) := rfl
  rw [hsub]
  cases hfind : f.find? id with
  | none =>
    have hnot : ∀ i ∈ f.ids, Node.only id r i = none := by
      refine fun i hi => if_neg ?_
      rintro rfl
      rw [← contains_iff, contains, ← Option.isSome_map (f := Entry.node)] at hi
      rw [find?] at hfind
      rw [hfind] at hi
      cases hi
    exact (replaceNodes_eq_self_iff _ f).mpr hnot
  | some t =>
    obtain ⟨hmem, hid⟩ := find?_eq_some_iff.mp hfind
    obtain ⟨n, hn, ht⟩ := List.mem_flatMap.mp hmem
    have hany : (f.ids.any fun i => (Node.only id r i).isSome) = true :=
      List.any_eq_true.mpr ⟨id, mem_ids_iff.mpr ⟨t, hmem, hid⟩, by rw [Node.only, if_pos rfl]; rfl⟩
    exact ⟨f.substituted (Node.only id r), Node.replacesOne_substituted r f.nodup hn ht hid,
      by rw [replaceNodes_eq, hany]⟩

/-- Replacing is simultaneous substitution at the outermost nodes. The visitor is called once for each
node, in post-order; the result is the forest in which the nodes with a replacement, but for those below
another one, have given way to it, and an id that is in this forest twice is refused; a formula without
such nodes is left as it is. Replacing one node changes one subtree. -/
theorem replaceNodes_outermost (f : Formula) (sub : String → Option Node) :
    (f.traceReplaceNodes sub =
      (f.replaceNodes sub, f.postorder.map (Node.mapChildren (Node.substituted sub)))) ∧
    f.postorder.Perm f.nodes ∧
    f.replaceNodes sub = (ofNodes (f.substituted sub)).map
      (fun g => ⟨g, f.ids.any fun id => (sub id).isSome⟩) ∧
    ((∃ e, f.replaceNodes sub = .error e) ↔ ¬ (forestIds (f.substituted sub)).Nodup) ∧
    (f.replaceNodes sub = .ok ⟨f, false⟩ ↔ ∀ id ∈ f.ids, sub id = none) ∧
    ∀ id r, match f.find? id with
      | none => f.replaceNode id r = .ok ⟨f, false⟩
      | some t => ∃ ns, Node.ReplacesOne t r f.children ns ∧
          f.replaceNode id r = (ofNodes ns).map fun g => ⟨g, true⟩ := by
  have hrefused : (∃ e, f.replaceNodes sub = .error e) ↔ ¬ (forestIds (f.substituted sub)).Nodup := by
    rw [replaceNodes_eq, ← exists_ofNodes_eq_error_iff]
    cases ofNodes (f.substituted sub) <;> simp [Except.map]
  refine ⟨traceReplaceNodes_eq sub f, f.perm_postorder, replaceNodes_eq sub f, hrefused, ?_, ?_⟩
  · exact replaceNodes_eq_self_iff sub f
  · exact f.replaceNode_cases

end Formula

end FormulaDoc
