import MethodFlow.Proofs.Flow.Statements

/-!
Statements that leave their blocks. A statement that is taken out leaves everything else as it was,
and taking out what has just been put in undoes it. An expression inside a placed statement is not
refused, but nothing is taken out for it.
-/

namespace MethodFlow

open Edit

namespace FlowGraph

variable {f f' : FlowGraph} {b : BlockId} {n : NodeId} {s s' : Slot}

section moving

variable {change change' : List NodeId → List NodeId}

/-- A change that leaves the list of the block as it is leaves the whole graph as it is. -/
theorem withStatements_eq_self (h : change (f.statements b) = f.statements b) :
    f.withStatements b change = f := by
  have hnodes : f.graph.nodes.modify b.index (fun block =>
      { block with statements := change block.statements }) = f.graph.nodes := by
    apply Array.ext_getElem?
    intro i
    rw [Array.getElem?_modify]
    split
    · next hi =>
      subst hi
      cases hblock : f.graph.nodes[b.index]? with
      | none => rfl
      | some block =>
        have hlist : f.statements b = block.statements := by
          simp [statements, block?, Digraph.node?, hblock]
        rw [hlist] at h
        rw [Option.map_some, h]
    · rfl
  rw [withStatements, Digraph.modifyNode, hnodes]

theorem withMove_eq_self (hs : f.tree.slot? n = some s)
    (h : change (f.statements b) = f.statements b) :
    f.withMove b change n s = f := by
  rw [withMove, withStatements_eq_self h, Tree.put_self hs]

theorem withMove_withMove (f : FlowGraph) (b : BlockId) (n : NodeId) (s s' : Slot) :
    (f.withMove b change n s).withMove b change' n s' = f.withMove b (change' ∘ change) n s' := by
  have hnodes : (f.graph.nodes.modify b.index fun block =>
        { block with statements := change block.statements }).modify b.index (fun block =>
          { block with statements := change' block.statements }) =
      f.graph.nodes.modify b.index fun block =>
        { block with statements := (change' ∘ change) block.statements } := by
    apply Array.ext_getElem?
    intro i
    simp only [Array.getElem?_modify]
    split
    · rw [Option.map_map]
      rfl
    · rfl
  simp only [withMove, withStatements, Digraph.modifyNode, hnodes, Tree.put_put]

end moving

/-- An expression is in no block. -/
theorem Made.block_of_expression (hf : f.Made) (hs : f.tree.slot? n = some s)
    (hkind : s.node.isStatement = false) : s.block = none := by
  cases hblock : s.block with
  | none => rfl
  | some b =>
    have hplaced := hf.coherent.placed b n (hf.registered n s hs b hblock) s hs
    simp [hkind] at hplaced

section removing

theorem removeStatement_refuses (f : FlowGraph) (n : NodeId) : Refuses (removeStatement n) f := by
  apply Refuses.of_ask
  intro found hblock
  cases found with
  | none => exact .throw _
  | some b =>
    apply Refuses.of_ask
    intro _ hb
    obtain ⟨s, hs⟩ := Tree.slot_of_blockOf hblock
    apply Succeeds.refuses
    rw [← bind_assoc]
    exact .of_first (move_ok hs b _) (.pure trivial)

end removing

/-- The statement `n` has left the block `b`, and nothing else has changed. -/
structure Withdraws (f f' : FlowGraph) (n : NodeId) (b : BlockId) : Prop where
  shape : f.SameShape f'
  statements : ∀ c, f'.statements c =
    if c = b then (f.statements c).filter (· ≠ n) else f.statements c
  size : f'.tree.size = f.tree.size
  others : ∀ m, m ≠ n → f'.tree.slot? m = f.tree.slot? m
  slot : f'.tree.slot? n = (f.tree.slot? n).map fun s => { s with block := none }
  blockOf : f'.tree.blockOf n = .ok none

theorem Withdraws.of_removeStatement (hf : f.Made) {node : Node}
    (hn : f.tree.statement n = .ok node)
    (h : removeStatement n f = .ok b f') : f.Withdraws f' n b := by
  obtain ⟨-, hb, s, hs, rfl⟩ := removeStatement_ok h
  have hput := Tree.slot?_put_of_slot hs { s with block := none }
  obtain ⟨hnode, hkind⟩ := Tree.statement_ok.1 hn
  obtain ⟨s₁, hs₁, rfl⟩ := Tree.node?_eq_some.1 hnode
  obtain rfl : s = s₁ := by simpa [hs] using hs₁
  have hroot : s.parent = none := hf.coherent.tree.root n s hs hkind
  constructor
  · exact sameShape_withMove f b _ n _
  · intro c
    rw [statements_withMove]
    simp only [hb, and_true]
  · exact Tree.size_put _
  · intro m hm
    exact (hput m).trans (if_neg hm)
  · rw [hs]
    exact (hput n).trans (if_pos rfl)
  · exact Tree.blockOf_root ((hput n).trans (if_pos rfl)) hroot

theorem checkPlaceable_of_insertStatement {index : Nat} {u : Unit}
    (h : insertStatement b index n f = .ok u f') : f.checkPlaceable n = .ok ⟨⟩ := by
  simp only [insertStatement, bind_ok, ask_ok] at h
  obtain ⟨_, _, ⟨-, rfl⟩, _, _, ⟨hcheck, -⟩, -⟩ := h
  exact hcheck

theorem filter_insertIdx {xs : List NodeId} (hout : n ∉ xs) (index : Nat) :
    (xs.insertIdx index n).filter (· ≠ n) = xs := by
  have hkept {ys : List NodeId} (hys : ys ⊆ xs) : ys.filter (· ≠ n) = ys := by
    rw [List.filter_eq_self]
    intro m hm
    exact decide_eq_true fun he => hout (he ▸ hys hm)
  by_cases hindex : index ≤ xs.length
  · rw [insertIdx_eq_take_append hindex, List.filter_append, List.filter_cons_of_neg (by simp),
      hkept (List.take_subset index xs), hkept (List.drop_subset index xs), List.take_append_drop]
  · rw [List.insertIdx_of_length_lt (Nat.lt_of_not_le hindex), hkept (List.Subset.refl xs)]

/-- A statement that has just been put into a block is taken out without a trace. -/
theorem Made.removeStatement_of_insertStatement (hf : f.Made) {index : Nat} {u : Unit}
    (h : insertStatement b index n f = .ok u f') : removeStatement n f' = .ok b f := by
  obtain ⟨hkind, hfree⟩ := checkPlaceable_ok (checkPlaceable_of_insertStatement h)
  obtain ⟨hb, s, hs, rfl⟩ := insertStatement_ok h
  have hstatement : s.node.isStatement = true := by
    simpa [Tree.isStatement, Tree.node?, hs] using hkind
  have hroot : s.parent = none := hf.coherent.tree.root n s hs hstatement
  rw [Tree.blockOf_root hs hroot, Except.ok.injEq] at hfree
  have hout : n ∉ f.statements b := fun hmem => by
    simpa [hfree] using (hf.coherent.placed b n hmem s hs).2
  have hslot := (Tree.slot?_put_of_slot hs { s with block := some b } n).trans (if_pos rfl)
  have hremove := removeStatement_of_blockOf
    (f := f.withMove b (·.insertIdx index n) n { s with block := some b })
    hslot (Tree.blockOf_root hslot hroot)
    ((congrFun (sameShape_withMove f b _ n _).contains b).trans hb)
  have hsame : ({ s with block := none } : Slot) = s := by rw [← hfree]
  rw [hremove, withMove_withMove]
  apply congrArg (EStateM.Result.ok b)
  show f.withMove b _ n { s with block := none } = f
  rw [hsame]
  exact withMove_eq_self hs (filter_insertIdx hout index)

theorem Made.removeStatement_iff (hf : f.Made) {node : Node} (hn : f.tree.statement n = .ok node)
    (b : BlockId) : (∃ f', removeStatement n f = .ok b f') ↔ n ∈ f.statements b := by
  obtain ⟨hnode, hkind⟩ := Tree.statement_ok.1 hn
  obtain ⟨s, hs, rfl⟩ := Tree.node?_eq_some.1 hnode
  have hblock : f.tree.blockOf n = .ok s.block :=
    Tree.blockOf_root hs (hf.coherent.tree.root n s hs hkind)
  constructor
  · rintro ⟨f', hrun⟩
    have hplaced := (removeStatement_ok hrun).1
    rw [hblock, Except.ok.injEq] at hplaced
    exact hf.registered n s hs b hplaced
  · intro hmem
    rw [(hf.coherent.placed b n hmem s hs).2] at hblock
    exact ⟨_, removeStatement_of_blockOf hs hblock (contains_of_mem_statements hmem)⟩

theorem Made.removeStatement_of_expression (hf : f.Made) {node : Node}
    (hn : f.tree.expression n = .ok node)
    (h : removeStatement n f = .ok b f') : f' = f ∧ f.tree.blockOf n = .ok (some b) := by
  obtain ⟨hblock, hb, s, hs, rfl⟩ := removeStatement_ok h
  obtain ⟨hnode, hkind⟩ := Tree.expression_ok.1 hn
  have hexpression : s.node.isStatement = false := by
    obtain ⟨s₁, hs₁, rfl⟩ := Tree.node?_eq_some.1 hnode
    obtain rfl : s = s₁ := by simpa [hs] using hs₁
    exact hkind
  have hout : n ∉ f.statements b := fun hmem => by
    simp [(hf.coherent.placed b n hmem s hs).1] at hexpression
  have hsame : ({ s with block := none } : Slot) = s := by
    rw [← hf.block_of_expression hs hexpression]
  refine ⟨?_, hblock⟩
  rw [hsame]
  apply withMove_eq_self hs
  rw [List.filter_eq_self]
  intro m hm
  exact decide_eq_true fun he => hout (he ▸ hm)

/-- In a graph that has been made, a statement can be taken out of the blocks that list it, which
changes nothing else, and out of no others. What is not taken out leaves the graph as it was, and so
does an expression, even where it is answered with the block of the statement that it belongs to.
Taking out what has just been put in undoes that. -/
theorem Made.withdrawal (hf : f.Made) (n : NodeId) :
    Refuses (removeStatement n) f ∧
    (∀ node, f.tree.statement n = .ok node →
      (∀ b, (∃ f', removeStatement n f = .ok b f') ↔ n ∈ f.statements b) ∧
      ∀ b f', removeStatement n f = .ok b f' → f.Withdraws f' n b) ∧
    (∀ node, f.tree.expression n = .ok node → ∀ b f', removeStatement n f = .ok b f' →
      f' = f ∧ f.tree.blockOf n = .ok (some b)) ∧
    (f.tree.isLive n = false → removeStatement n f = .error (.invalidNode n) f) ∧
    ∀ b index u f', insertStatement b index n f = .ok u f' → removeStatement n f' = .ok b f := by
  refine ⟨removeStatement_refuses f n, fun node hn => ⟨hf.removeStatement_iff hn, fun b f' h =>
    .of_removeStatement hf hn h⟩, fun node hn b f' h => hf.removeStatement_of_expression hn h,
    fun hdead => ?_, fun b index u f' h => hf.removeStatement_of_insertStatement h⟩
  have hnone : f.tree.slot? n = none := by simpa [Tree.isLive] using hdead
  have hparent : f.tree.parent n = .error (.invalidNode n) := by
    simp [Tree.parent, Tree.slot, hnone]
  apply bind_error.2
  left
  simp [Tree.blockOf, Tree.root, Tree.climb, hparent, bind, Except.bind]

/-- A variable is evaluated in the entry block. -/
def evaluated : FlowGraph := (ofLabel 0).requests
  [.tree (.newVariable (.ofLocal 0) .int), .tree (.newEval ⟨0⟩), .appendStatement ⟨0⟩ ⟨1⟩,
    .tree .newReturnVoid]

theorem withdrawal_of_evaluated : evaluated.Made ∧
    (∃ f', removeStatement ⟨1⟩ evaluated = .ok ⟨0⟩ f' ∧ evaluated.Withdraws f' ⟨1⟩ ⟨0⟩) ∧
    ∃ f', insertStatement ⟨0⟩ 1 ⟨2⟩ evaluated = .ok ⟨⟩ f' ∧
      removeStatement ⟨2⟩ f' = .ok ⟨0⟩ evaluated := by
  have made : evaluated.Made := ⟨0, _, rfl⟩
  have hstatement : evaluated.tree.statement ⟨1⟩ = .ok (.eval ⟨0⟩) ∧
      ⟨1⟩ ∈ evaluated.statements ⟨0⟩ := by decide +kernel
  obtain ⟨-, htaken, -⟩ := made.withdrawal ⟨1⟩
  obtain ⟨hiff, hwithdraws⟩ := htaken _ hstatement.1
  obtain ⟨f', hrun⟩ := (hiff ⟨0⟩).2 hstatement.2
  obtain ⟨f'', hplaced⟩ := outcome_ok.1 (show
    (insertStatement ⟨0⟩ 1 ⟨2⟩).outcome evaluated = .ok ⟨⟩ by decide +kernel)
  obtain ⟨-, -, -, -, hback⟩ := made.withdrawal ⟨2⟩
  exact ⟨made, ⟨f', hrun, hwithdraws _ _ hrun⟩, f'', hplaced, hback _ _ _ _ hplaced⟩

/-- An expression inside a placed statement is answered with a block that does not list it. -/
theorem removeStatement_of_evaluated_variable :
    (removeStatement ⟨0⟩).outcome evaluated = .ok ⟨0⟩ ∧ ⟨0⟩ ∉ evaluated.statements ⟨0⟩ ∧
      ((removeStatement ⟨0⟩).after evaluated).tree.blockOf ⟨0⟩ = .ok (some ⟨0⟩) := by decide +kernel

end FlowGraph

end MethodFlow
