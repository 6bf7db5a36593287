import MethodFlow.Proofs.Ssa.Requests
import MethodFlow.Proofs.Tree.Pairing

/-!
Operands that lose their place in a phi. Everything that is asked of an operand is asked before the
phi stores another list, so what can go wrong after that is the removal of an operand whose place is
gone.
-/

namespace MethodFlow

open Edit

namespace Tree

variable {t : Tree} {n operand q : NodeId} {p : Phi} {s : Slot}

/-- A phi can take an operand over, and give one up, as long as both are in use. -/
theorem store_succeeds {inputs : PhiInputs} {old : Option NodeId} (hn : t.node? n = some (.phi p))
    (hoperand : t.isLive operand = true) (hold : ∀ o ∈ old, t.isLive o = true) :
    Succeeds (setInputs n p inputs >>= fun _ => adopt n operand old) t := by
  obtain ⟨s, hs, -⟩ := node?_eq_some.1 hn
  apply Yields.of_first (a := ()) (setNode_ok.2 ⟨s, hs, rfl⟩)
  obtain ⟨sq, hq⟩ := Option.isSome_iff_exists.1 (isLive_put hs _ hoperand)
  apply Yields.of_first (a := ()) (setParent_ok.2 ⟨sq, hq, rfl⟩)
  cases old with
  | none => exact .pure trivial
  | some o =>
    obtain ⟨so, ho⟩ := Option.isSome_iff_exists.1 (isLive_put hq _ (isLive_put hs _ (hold o rfl)))
    exact discard_succeeds ho

theorem dropping_succeeds (h : t.Coherent) (hn : t.node? n = some (.phi p)) {inputs : PhiInputs}
    {kept dropped : List NodeId}
    (hperm : ((Phi.mk p.target inputs).operands ++ dropped).Perm p.operands)
    (hlive : ∀ q ∈ dropped, t.isLive q = true) (event : NodeId → Event) (events : List Event) :
    Succeeds (do
      setInputs n p inputs
      dropOperands event dropped
      return kept : Edit (Recorded Tree) (List NodeId)) ⟨t, events⟩ := by
  obtain ⟨s, hs, hnode⟩ := node?_eq_some.1 hn
  obtain ⟨-, hnodup, hgone⟩ := h.release hs hnode hperm
  have hput := slot?_put_of_slot hs { s with node := .phi { p with inputs } }
  have hroot : s.parent = none := h.root n s hs (by rw [hnode]; rfl)
  apply Yields.of_first (a := ()) (quietly_ok.2 ⟨_, setNode_ok.2 ⟨s, hs, rfl⟩, rfl⟩)
  refine (Loosened.dropOperands_succeeds (n := n) event ?_).bind fun _ _ _ _ => .pure trivial
  refine ⟨hnodup, parent_ok.2 ⟨_, (hput n).trans (if_pos rfl), hroot⟩, fun q hq => ?_⟩
  obtain ⟨sq, hsq⟩ := Option.isSome_iff_exists.1 (hlive q hq)
  have hparent := h.owned n s hs q (hgone q hq).1 sq hsq
  have hne : q ≠ n := by
    rintro rfl
    obtain rfl : s = sq := by simpa [hs] using hsq
    simp [hroot] at hparent
  exact parent_ok.2 ⟨sq, (hput q).trans ((if_neg hne).trans hsq), hparent⟩

section refusing

theorem isLive_of_checkOperand {u : Unit} (h : t.checkOperand n operand = .ok u) :
    t.isLive operand = true := by
  obtain ⟨s, hs, -⟩ := (checkOperand_ok h).1
  simp [isLive, hs]

theorem refuses_setJoinOperand {pred : BlockId}
    (hlive : ∀ q, t.joinOperandAt n pred = .ok (some q) → t.isLive q = true) :
    Refuses (setJoinOperand n pred operand) t := by
  apply Refuses.of_ask
  intro _ hcheck
  apply Refuses.of_ask
  intro p hp
  cases hinputs : p.inputs with
  | joining block operands =>
    apply Succeeds.refuses
    apply store_succeeds (phi_ok.1 hp) (isLive_of_checkOperand hcheck)
    exact fun q hq => hlive q (joinOperandAt_ok.2 ⟨p, block, operands, phi_ok.1 hp, hinputs, hq⟩)
  | _ => exact .throw _

theorem refuses_setReturnOperand {call : BlockId}
    (hlive : ∀ q, t.returnOperandAt n call = .ok (some q) → t.isLive q = true) :
    Refuses (setReturnOperand n call operand) t := by
  apply Refuses.of_ask
  intro _ hcheck
  apply Refuses.of_ask
  intro p hp
  cases hinputs : p.inputs with
  | returning sub operands =>
    apply Succeeds.refuses
    apply store_succeeds (phi_ok.1 hp) (isLive_of_checkOperand hcheck)
    intro q hq
    apply hlive q
    rw [returnOperandAt, hp, ← hq]
    simp [hinputs, bind, Except.bind, pure, Except.pure]
  | _ => exact .throw _

theorem refuses_addCatchOperand (n operand : NodeId) (t : Tree) :
    Refuses (addCatchOperand n operand) t := by
  apply Refuses.of_ask
  intro _ hcheck
  apply Refuses.of_ask
  intro d _
  apply Refuses.of_ask
  intro found _
  cases found with
  | true => exact .throw _
  | false =>
    apply Refuses.of_ask
    intro p hp
    apply Succeeds.refuses
    exact store_succeeds (phi_ok.1 hp) (isLive_of_checkOperand hcheck) (by simp)

theorem refuses_setCatchOperand {index : Nat}
    (hlive : ∀ q, t.catchOperandAt n index = .ok q → t.isLive q = true) :
    Refuses (setCatchOperand n index operand) t := by
  apply Refuses.of_ask
  intro _ hcheck
  apply Refuses.of_ask
  intro p hp
  apply Refuses.of_ask
  intro operands hoperands
  cases hold : operands[index]? with
  | none => exact .throw _
  | some old =>
    apply Succeeds.refuses
    apply store_succeeds (phi_ok.1 hp) (isLive_of_checkOperand hcheck)
    rintro q ⟨⟩
    apply hlive
    simp [catchOperandAt, hoperands, hold, bind, Except.bind, pure, Except.pure]

theorem refuses_retainJoinOperands (hc : t.Coherent) {preds : List BlockId} {events : List Event}
    (hlive : ∀ p block operands, t.phi n = .ok p → p.inputs = .joining block operands →
      ∀ pred q, (pred, q) ∈ operands → pred ∉ preds → t.isLive q = true) :
    Refuses (retainJoinOperands n preds) ⟨t, events⟩ := by
  apply Refuses.of_ask
  intro node hnode
  cases node with
  | phi p =>
    have hn := node_ok.1 hnode
    obtain ⟨target, inputs⟩ := p
    cases inputs with
    | joining block operands =>
      apply Succeeds.refuses
      apply dropping_succeeds hc hn (perm_operands_of_keys preds operands)
      intro q hq
      obtain ⟨⟨pred, q'⟩, hmem, rfl⟩ := List.mem_map.1 hq
      obtain ⟨hin, hout⟩ := List.mem_filter.1 hmem
      exact hlive _ block operands (phi_ok.2 hn) rfl pred q' hin (of_decide_eq_true hout)
    | _ => exact .throw _
  | _ => exact .throw _

theorem refuses_readCatchOperands (hc : t.Coherent) (n : NodeId) (events : List Event) :
    Refuses (readCatchOperands n) ⟨t, events⟩ := by
  apply Refuses.of_ask
  intro operands hoperands
  apply Refuses.of_ask
  intro parts hsplit
  obtain ⟨kept, dropped⟩ := parts
  obtain ⟨-, hperm, hread⟩ := splitRepeated_ok hsplit
  by_cases hempty : dropped.isEmpty
  · simp only [hempty, Bool.not_true, Bool.false_eq_true, if_false]
    exact Succeeds.refuses (.pure trivial)
  · simp only [hempty, Bool.not_false, if_true]
    apply Refuses.of_ask
    intro p hp
    obtain ⟨p', hp', hinputs⟩ := catchOperands_ok.1 hoperands
    obtain rfl : p = p' := by simpa [phi_ok.1 hp] using hp'
    apply Succeeds.refuses
    apply dropping_succeeds hc hp' (by simpa [Phi.operands, hinputs] using hperm)
    -- What a dropped operand stands for has been read, so it is in use.
    intro q hq
    obtain ⟨d, hd, -⟩ := hread q (hperm.subset (List.mem_append_right _ hq))
    obtain ⟨o, ho, -⟩ := definitionOf_ok.1 hd
    exact isLive_of_node? ho

end refusing

end Tree

namespace TreeEdit

open MethodFlow.Tree

variable {t : Tree} {e : TreeEdit}

/-- The edit gives a phi an operand, or it reads the operands and drops some. -/
def OnOperands : TreeEdit → Prop
  | request (.setJoinOperand _ _ _) | request (.setReturnOperand _ _ _) |
    request (.addCatchOperand _ _)
  | request (.setCatchOperand _ _ _) | retainJoinOperands _ _ | readCatchOperands _ => True
  | _ => False

/-- The operands that an edit removes without having read them. Repetitions are not among them, as
what operands stand for is read before any is dropped. -/
inductive Displaces (t : Tree) : TreeEdit → NodeId → Prop
  | joining {n operand q : NodeId} {pred : BlockId} : t.joinOperandAt n pred = .ok (some q) →
      Displaces t (request (.setJoinOperand n pred operand)) q
  | returning {n operand q : NodeId} {call : BlockId} : t.returnOperandAt n call = .ok (some q) →
      Displaces t (request (.setReturnOperand n call operand)) q
  | catching {n operand q : NodeId} {index : Nat} : t.catchOperandAt n index = .ok q →
      Displaces t (request (.setCatchOperand n index operand)) q
  | dropping {n q : NodeId} {p : Phi} {block pred : BlockId} {operands : List (BlockId × NodeId)}
      {preds : List BlockId} : t.phi n = .ok p → p.inputs = .joining block operands →
      (pred, q) ∈ operands → pred ∉ preds → Displaces t (retainJoinOperands n preds) q

theorem refuses_run (hc : t.Coherent) (he : e.OnOperands)
    (hlive : ∀ q, e.Displaces t q → t.isLive q = true) (events : List Event) :
    Refuses e.run ⟨t, events⟩ := by
  cases e with
  | request r =>
    apply Refuses.quietly
    cases r with
    | setJoinOperand n pred operand =>
      exact refuses_setJoinOperand fun q hq => hlive q (.joining hq)
    | setReturnOperand n call operand =>
      exact refuses_setReturnOperand fun q hq => hlive q (.returning hq)
    | addCatchOperand n operand => exact refuses_addCatchOperand n operand t
    | setCatchOperand n index operand =>
      exact refuses_setCatchOperand fun q hq => hlive q (.catching hq)
    | _ => exact he.elim
  | retainJoinOperands n preds =>
    apply Refuses.bind_pure
    apply refuses_retainJoinOperands hc
    exact fun p block operands hp hinputs pred q hmem hout =>
      hlive q (.dropping hp hinputs hmem hout)
  | readCatchOperands n => exact (refuses_readCatchOperands hc n events).bind_pure _

end TreeEdit

namespace FlowGraph

variable {f : FlowGraph} {e : TreeEdit}

/-- In a tree that has been made, an edit of operands that fails has changed nothing, if the
operands that were to be removed were in use. -/
theorem Made.refuses_operands (hf : f.Made) (he : e.OnOperands)
    (hlive : ∀ q, e.Displaces f.tree q → f.tree.isLive q = true) (events : List Event) :
    Refuses e.run ⟨f.tree, events⟩ := TreeEdit.refuses_run hf.coherent.tree he hlive events

/-- A phi with two operands, of which one has been removed, and a variable to put in its place. -/
def orphaned : FlowGraph := (ofLabel 0).requests
  [.tree (.newVariable (.ofLocal 0) .int), .tree (.newJoinPhi ⟨0⟩ ⟨0⟩ [⟨0⟩, ⟨1⟩]),
    .tree (.cleanup ⟨1⟩), .tree (.newVariable (.ofLocal 0) .int)]

theorem refuses_operands_of_orphaned : orphaned.Made ∧
    (∀ q, (TreeEdit.request (.setJoinOperand ⟨3⟩ ⟨1⟩ ⟨3⟩)).Displaces orphaned.tree q ↔ q = ⟨2⟩) ∧
    (TreeEdit.request (.setJoinOperand ⟨3⟩ ⟨1⟩ ⟨3⟩)).run ⟨orphaned.tree, []⟩ =
      .error (.violation (.statementAsChild ⟨3⟩)) ⟨orphaned.tree, []⟩ := by
  have made : orphaned.Made := ⟨0, _, rfl⟩
  have hother : orphaned.tree.joinOperandAt ⟨3⟩ ⟨1⟩ = .ok (some ⟨2⟩) ∧
      orphaned.tree.isLive ⟨2⟩ = true := by decide +kernel
  have hdisplaces (q : NodeId) :
      (TreeEdit.request (.setJoinOperand ⟨3⟩ ⟨1⟩ ⟨3⟩)).Displaces orphaned.tree q ↔ q = ⟨2⟩ := by
    constructor
    · intro hq
      cases hq with
      | joining hread => simpa [hother.1, eq_comm] using hread
    · rintro rfl
      exact .joining hother.1
  obtain ⟨s', hfail⟩ := outcome_error.1 (show
    (TreeEdit.request (.setJoinOperand ⟨3⟩ ⟨1⟩ ⟨3⟩)).run.outcome ⟨orphaned.tree, []⟩ =
      .error (.violation (.statementAsChild ⟨3⟩)) by decide +kernel)
  refine ⟨made, hdisplaces, ?_⟩
  have hsame := made.refuses_operands (e := .request (.setJoinOperand ⟨3⟩ ⟨1⟩ ⟨3⟩)) trivial
    (fun q hq => (hdisplaces q).1 hq ▸ hother.2) [] _ s' hfail
  exact hsame ▸ hfail

/-- An operand is stored in the place of one that is gone before the request fails. -/
theorem refused_setJoinOperand_stores :
    (TreeEdit.request (.setJoinOperand ⟨3⟩ ⟨0⟩ ⟨4⟩)).run.outcome ⟨orphaned.tree, []⟩ =
        .error (.invalidNode ⟨1⟩) ∧
      orphaned.tree.joinOperandAt ⟨3⟩ ⟨0⟩ = .ok (some ⟨1⟩) ∧ orphaned.tree.parent ⟨4⟩ = .ok none ∧
      (orphaned.tree.edit (.request (.setJoinOperand ⟨3⟩ ⟨0⟩ ⟨4⟩))).joinOperandAt ⟨3⟩ ⟨0⟩ =
        .ok (some ⟨4⟩) ∧
      (orphaned.tree.edit (.request (.setJoinOperand ⟨3⟩ ⟨0⟩ ⟨4⟩))).parent ⟨4⟩ =
        .ok (some ⟨3⟩) := by
  decide +kernel

end FlowGraph

end MethodFlow
