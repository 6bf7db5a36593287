import MethodFlow.Proofs.Ssa.Placement

/-!
The occurrences that a conversion works on, block by block and variable by variable.
-/

namespace MethodFlow

namespace Var

theorem mem_insertSorted {v w : Var} {vars : List Var} :
    w ∈ v.insertSorted vars ↔ w = v ∨ w ∈ vars := by
  induction vars with
  | nil => simp [insertSorted]
  | cons u rest ih =>
    rw [insertSorted]
    by_cases hvu : v = u
    · simp [hvu]
    · by_cases hlt : v.rank < u.rank
      · simp [hvu, hlt]
      · simp [hvu, hlt, ih, or_left_comm]

theorem pairwise_insertSorted {v : Var} {vars : List Var}
    (h : vars.Pairwise fun u w => u.rank < w.rank) :
    (v.insertSorted vars).Pairwise fun u w => u.rank < w.rank := by
  induction vars with
  | nil => simp [insertSorted]
  | cons u rest ih =>
    obtain ⟨hu, hrest⟩ := List.pairwise_cons.1 h
    unfold insertSorted
    by_cases hvu : v = u
    · rwa [if_pos hvu]
    · rw [if_neg hvu]
      split
      · next hlt =>
        refine List.pairwise_cons.2 ⟨fun w hw => ?_, h⟩
        rcases List.mem_cons.1 hw with rfl | hw
        · exact hlt
        · exact Nat.lt_trans hlt (hu w hw)
      · next hle =>
        refine List.pairwise_cons.2 ⟨fun w hw => ?_, ih hrest⟩
        rcases mem_insertSorted.1 hw with rfl | hw
        · have : u.rank ≠ w.rank := fun he => hvu (rank_injective he.symm)
          omega
        · exact hu w hw

theorem pairwise_foldl_insertSorted {α : Type} (var : α → Var) (xs : List α) (vars : List Var)
    (h : vars.Pairwise fun u w => u.rank < w.rank) :
    (xs.foldl (fun sorted x => (var x).insertSorted sorted) vars).Pairwise
      fun u w => u.rank < w.rank := by
  induction xs generalizing vars with
  | nil => exact h
  | cons x rest ih => exact ih _ (pairwise_insertSorted h)

theorem mem_foldl_insertSorted {α : Type} (var : α → Var) (xs : List α)
    (vars : List Var) {v : Var} :
    v ∈ xs.foldl (fun sorted x => (var x).insertSorted sorted) vars ↔
      v ∈ vars ∨ ∃ x ∈ xs, var x = v := by
  induction xs generalizing vars with
  | nil => simp
  | cons x rest ih =>
    rw [List.foldl_cons, ih, mem_insertSorted, List.exists_mem_cons_iff]
    tauto

end Var

namespace FlowGraph

variable {f : FlowGraph} {v : Var} {b : BlockId} {n : NodeId}

def occurrencesBelow (f : FlowGraph) (statement : NodeId) : List NodeId :=
  ((f.tree.walk occurrenceVisitor statement).filter (·.1 = .variable)).map Prod.snd

/-- The occurrences of a variable in a block, in the order of evaluation. Those in phis are left
out. -/
def realsIn (f : FlowGraph) (v : Var) (b : BlockId) : List NodeId :=
  ((f.statements b).flatMap f.occurrencesBelow).filter fun n => f.variableAt? n = some v

/-- The occurrences that a conversion renames: those of the variables that it converts, in the
blocks that can be reached. -/
def Renames (f : FlowGraph) (o : SsaOptions) (n : NodeId) (w : Var) : Prop :=
  o.converts w = true ∧ ∃ b ∈ f.graph.reversePostorder entry, n ∈ f.realsIn w b

@[simp] theorem variableAt?_eq_some : f.variableAt? n = some v ↔ f.tree.varOf n = .ok v := by
  unfold variableAt?
  cases f.tree.varOf n <;> simp

theorem placedOccurrences_eq :
    f.placedOccurrences = f.preorder.flatMap fun b =>
      (f.statements b).flatMap f.occurrencesBelow := by
  have hbelow (pick : Visit → Option NodeId) (m : NodeId)
      (hnode : ∀ c n, pick (.node c n) = if c = .variable then some n else none) :
      (Visit.ofNodes (f.tree.walk occurrenceVisitor m)).filterMap pick =
        f.occurrencesBelow m := by
    rw [occurrencesBelow, Visit.ofNodes, List.filterMap_map, ← List.filterMap_eq_map,
      List.filterMap_filter]
    refine List.filterMap_congr fun p _ => (hnode p.1 p.2).trans ?_
    by_cases hp : p.1 = .variable <;> simp [hp]
  rw [placedOccurrences, walk, List.filterMap_flatMap]
  show f.preorder.flatMap _ = _
  refine List.flatMap_congr fun b _ => ?_
  rw [walkBlock, walkStatements, List.filterMap_append, List.filterMap_flatMap]
  exact List.flatMap_congr fun m _ => hbelow _ m fun c n => by cases c <;> rfl

/-- The occurrences of a variable stand in the order of the blocks. -/
theorem nodes_of_mem_occurrences {o : SsaOptions} {group : Occurrences}
    (h : group ∈ f.occurrences o) :
    o.converts group.var = true ∧ group.nodes = f.preorder.flatMap (f.realsIn group.var) := by
  simp only [occurrences] at h
  obtain ⟨v, hv, rfl⟩ := List.mem_map.1 h
  rcases (Var.mem_foldl_insertSorted _ _ _).1 hv with hv | ⟨p, hp, rfl⟩
  · simp at hv
  · have hconverts := (List.mem_filter.1 hp).2
    refine ⟨hconverts, ?_⟩
    have hreals : f.preorder.flatMap (f.realsIn p.1) =
        f.placedOccurrences.filter fun n => f.variableAt? n = some p.1 := by
      rw [placedOccurrences_eq, List.filter_flatMap]
      rfl
    rw [hreals]
    induction f.placedOccurrences with
    | nil => rfl
    | cons n rest ih =>
      cases hn : f.variableAt? n with
      | none => simpa [hn] using ih
      | some w =>
        by_cases hw : w = p.1
        · simpa [hn, hw, hconverts] using ih
        · by_cases hcw : o.converts w
          · simpa [hn, hw, hcw] using ih
          · simpa [hn, hw, hcw] using ih

theorem pairwise_occurrences (f : FlowGraph) (o : SsaOptions) :
    (f.occurrences o).Pairwise fun g g' => g.var ≠ g'.var := by
  rw [occurrences, List.pairwise_map]
  refine (Var.pairwise_foldl_insertSorted _ _ _ .nil).imp fun hlt he => ?_
  exact Nat.ne_of_lt hlt (congrArg Var.rank he)

/-- What is collected in front of the occurrences of a variable is those of others. -/
theorem var_ne_of_occurrences {o : SsaOptions} {before after : List Occurrences}
    {group : Occurrences}
    (hsplit : f.occurrences o = before ++ group :: after) (hv : v ∈ before.map Occurrences.var) :
    v ≠ group.var := by
  obtain ⟨earlier, hearlier, rfl⟩ := List.mem_map.1 hv
  have hpairs := pairwise_occurrences f o
  rw [hsplit, List.pairwise_append] at hpairs
  exact hpairs.2.2 earlier hearlier group (by simp)

/-- A collection changes nothing and finds the occurrences. -/
theorem collect_ok {o : SsaOptions} {groups : List Occurrences} {s s' : Recorded FlowGraph}
    (h : collect o s = .ok groups s') :
    s'.value = s.value ∧ groups = s.value.occurrences o ∧ s.value.placedPhis = 0 := by
  simp only [collect, Edit.bind_ok, Edit.get_ok, Edit.guard_ok, Edit.pure_ok] at h
  obtain ⟨_, _, ⟨rfl, rfl⟩, _, _, ⟨hphis, rfl⟩, _, m, hloop, rfl, rfl⟩ := h
  refine ⟨?_, rfl, by simpa using hphis⟩
  refine Edit.forM_ok hloop (fun _ m => m.value = s.value) rfl ?_
  rintro - group - m m' - hm hstep
  obtain ⟨_, m₁, hcheck, hreport⟩ := Edit.bind_ok.1 hstep
  rw [← Edit.report_ok.1 hreport, ← hm]
  refine Edit.forM_ok hcheck (fun _ m₁ => m₁.value = m.value) rfl ?_
  rintro - n - m₁ m₂ - hm₁ hask
  rw [← (Edit.ask_ok.1 hask).2, hm₁]

/-- The visitor of occurrences records as phis what are phis. -/
theorem decision_occurrenceVisitor_phi {node : Node} {descent : Descent} :
    occurrenceVisitor.decision node = some (.phi, descent) ↔
      (∃ p, node = .phi p) ∧ descent = .never := by
  cases node with
  | phi p =>
    cases hkind : p.kind <;>
      simp [Visitor.decision, Node.categories, hkind, occurrenceVisitor, eq_comm]
  | occurrence o =>
    cases hlocal : o.var.isLocal <;>
      simp [Visitor.decision, Node.categories, hlocal, occurrenceVisitor]
  | _ => simp [Visitor.decision, Node.categories, occurrenceVisitor]

theorem isSome_phiKind? {t : Tree} {n : NodeId} :
    (t.phiKind? n).isSome ↔ ∃ s p, t.slot? n = some s ∧ s.node = .phi p := by
  unfold Tree.phiKind? Tree.node?
  cases hs : t.slot? n with
  | none => simp
  | some s => cases hnode : s.node <;> simp [hnode]

/-- A graph holds phis if and only if one of its blocks lists a phi. -/
theorem placedPhis_eq_zero (h : f.Coherent) :
    f.placedPhis = 0 ↔ ∀ b, ∀ n ∈ f.statements b, f.tree.phiKind? n = none := by
  have hmem (m : NodeId) : (∃ b ∈ f.preorder, ∃ n ∈ f.statements b,
      (.phi, m) ∈ f.tree.walk occurrenceVisitor n) ↔
        Visit.node .phi m ∈ f.walk occurrenceVisitor := by
    simp [walk, walkBlock, walkStatements, Visit.ofNodes, occurrenceVisitor, Direction.orient]
  have hzero : f.placedPhis = 0 ↔ ∀ m, Visit.node .phi m ∉ f.walk occurrenceVisitor := by
    rw [placedPhis, List.countP_eq_zero]
    constructor
    · exact fun hnone m hm => absurd rfl (hnone _ hm)
    · intro hnone visit hvisit
      cases visit with
      | block b => simp
      | node category m =>
        by_cases hphi : category = .phi
        · exact absurd hvisit (hphi ▸ hnone m)
        · cases category <;> first | exact absurd rfl hphi | simp
  rw [hzero]
  constructor
  · intro hnone b n hn
    by_contra hphi
    obtain ⟨s, p, hs, hp⟩ := isSome_phiKind?.1 (Option.isSome_iff_ne_none.2 hphi)
    have hb := (mem_preorder h.closed h.entry).2 (contains_of_mem_statements hn)
    refine hnone n ((hmem n).1 ⟨b, hb, n, hn, ?_⟩)
    obtain ⟨limit, hlimit⟩ := Nat.exists_eq_add_of_lt (Nat.zero_lt_of_lt (Tree.index_lt_size hs))
    rw [Tree.walk, hlimit, Tree.walkTo_succ hs, decision_occurrenceVisitor_phi.2 ⟨⟨p, hp⟩, rfl⟩]
    simp
  · rintro hnone m hvisit
    obtain ⟨b, -, n, hn, hwalk⟩ := (hmem m).2 hvisit
    obtain ⟨j, s, descent, hunder, hs, hdecision⟩ := Tree.decision_of_mem_walkTo hwalk
    obtain ⟨⟨p, hp⟩, -⟩ := decision_occurrenceVisitor_phi.1 hdecision
    cases hunder with
    | self =>
      have := isSome_phiKind?.2 ⟨s, p, hs, hp⟩
      simp [hnone b m hn] at this
    | child _ hparent hc hsc =>
      -- Below a statement there are expressions only.
      have := h.tree.isStatement_of_mem_children hparent hc hs
      simp [hp, Node.isStatement] at this

section lies

variable (h : f.Coherent)

include h

theorem blockOf_of_mem_realsIn (hn : n ∈ f.realsIn v b) : f.tree.blockOf n = .ok (some b) := by
  obtain ⟨m, hm, hwalk⟩ := List.mem_flatMap.1 (List.mem_filter.1 hn).1
  have hmem : n ∈ (f.tree.walk occurrenceVisitor m).map Prod.snd :=
    (List.filter_sublist.map Prod.snd).subset hwalk
  obtain ⟨j, -, hunder⟩ := Tree.under_of_mem_walkTo hmem
  obtain ⟨s, hs⟩ := hunder.exists_slot
  rw [Tree.blockOf_of_mem_walk h.tree hs (h.root hm hs) hmem, (h.placed b m hm s hs).2]

theorem nodup_realsIn : (f.realsIn v b).Nodup := by
  refine List.Nodup.filter _ (List.nodup_flatMap.2 ⟨fun m hm => ?_, ?_⟩)
  · refine List.Nodup.sublist (List.filter_sublist.map Prod.snd) ?_
    cases hs : f.tree.slot? m with
    | none =>
      have hnone (limit : Nat) : f.tree.walkTo occurrenceVisitor limit m = [] := by
        cases limit <;> simp [Tree.walkTo, Tree.node?, hs]
      simp [Tree.walk, hnone]
    | some s =>
      exact Tree.nodup_walkTo h.tree.ownsChildren
        (Tree.Under.depth_unique h.tree hs (h.root hm hs)) (.self hs)
  · refine (h.nodup b).imp_of_mem fun {m m'} hm hm' hne n hn hn' => hne ?_
    have hroot {m : NodeId} (hm : m ∈ f.statements b) (hn : n ∈ f.occurrencesBelow m) :
        f.tree.root n = .ok m := by
      obtain ⟨j, hj, hunder⟩ := Tree.under_of_mem_walkTo
        ((List.filter_sublist.map Prod.snd).subset hn)
      obtain ⟨s, hs⟩ := hunder.exists_slot
      exact hunder.climb h.tree hs (h.root hm hs) (by omega)
    exact Except.ok.inj ((hroot hm hn).symm.trans (hroot hm' hn'))

theorem lies_realsIn {nodes : List NodeId} (hnodes : nodes = f.preorder.flatMap (f.realsIn v)) :
    Lies f v (f.realsIn v) nodes where
  nodes := hnodes
  nodup _ := nodup_realsIn h
  var _ _ hn := variableAt?_eq_some.1 (of_decide_eq_true (List.mem_filter.1 hn).2)
  block _ _ hn := blockOf_of_mem_realsIn h hn

theorem exists_mem_of_renames {o : SsaOptions} (n : NodeId) (hn : f.Renames o n v) :
    ∃ b ∈ f.preorder, n ∈ f.realsIn v b := by
  obtain ⟨-, b, hb, hn⟩ := hn
  exact ⟨b, List.mem_append_left _ ((Digraph.mem_reversePostorder h.closed h.entry).1 hb), hn⟩

end lies

end FlowGraph

end MethodFlow
