import MethodFlow.Proofs.Tree.Shapes

/-!
What a request leaves behind when it fails. A node that cannot be made leaves the tree as it was,
but for a phi that nothing flows into and whose target is no variable. An operand that a phi cannot
take over leaves the tree as it was, but for one whose place was held by an operand that is gone.
-/

namespace MethodFlow

open Edit

namespace Tree

variable {t t' : Tree} {n target operand : NodeId} {v : Var}

section making

theorem settles_allocOwning (node : Node) (t : Tree) :
    Settles (allocOwning node) t fun n t' => allocOwning node t = .ok n t' := by
  rcases allocOwning_cases node t with hfail | ⟨t', hrun, -⟩
  · exact .inl hfail
  · exact .inr ⟨t.next, t', hrun, hrun⟩

theorem forM_define_succeeds {targets : List NodeId} (h : ∀ c ∈ targets, ∃ v, t.varOf c = .ok v) :
    Succeeds (targets.forM define) t := by
  apply (Yields.forM (fun _ (m : Tree) => ∀ c ∈ targets, ∃ v, m.varOf c = .ok v) h ?_).succeeds
  intro before d after m hsplit hm
  have hd : d ∈ targets := by simp [hsplit]
  obtain ⟨w, hw⟩ := hm d hd
  apply (define_succeeds hw).of_ok
  intro _ m' hrun _ c hc
  obtain ⟨s, o, hs, ho, rfl⟩ := modifyOccurrence_ok.1 hrun
  by_cases hcd : c = d
  · exact ⟨o.var, varOf_ok.2 ⟨_, (node?_put hs _ c).trans (if_pos hcd), rfl⟩⟩
  · obtain ⟨x, hx⟩ := hm c hc
    obtain ⟨o', ho', hvar⟩ := varOf_ok.1 hx
    exact ⟨x, varOf_ok.2 ⟨o', (node?_put hs _ c).trans ((if_neg hcd).trans ho'), hvar⟩⟩

theorem settles_newStore (target value : NodeId) (t : Tree) :
    Settles (newStore target value) t fun _ _ => True := by
  apply Settles.of_ask
  intro o ho
  apply (settles_allocOwning _ t).bind
  intro n t' hrun
  have htarget := varOf_of_allocOwning hrun (varOf_ok.2 ⟨o, occurrence_ok.1 ho, rfl⟩)
  exact (define_succeeds htarget).bind fun _ _ _ _ => .pure trivial

theorem settles_newShuffle (kind : Shuffle) (targets sources : List NodeId) (t : Tree) :
    Settles (newShuffle kind targets sources) t fun _ _ => True := by
  apply Settles.of_guard
  intro _
  refine Settles.of_forM_ask (g := fun n (t : Tree) => t.checkStackSlot n) fun hall => ?_
  apply (settles_allocOwning _ t).bind
  intro n t' hrun
  have hdefined : ∀ c ∈ targets, ∃ v, t'.varOf c = .ok v := by
    intro c hc
    obtain ⟨o, ho, -⟩ := checkStackSlot_ok (hall c (List.mem_append_left _ hc))
    exact ⟨o.var, varOf_of_allocOwning hrun (varOf_ok.2 ⟨o, ho, rfl⟩)⟩
  exact (forM_define_succeeds hdefined).bind fun _ _ _ _ => .pure trivial

theorem settles_newPhi {inputs : PhiInputs} (htarget : t.varOf target = .ok v) :
    Settles (newPhi target inputs) t fun _ _ => True := by
  apply (settles_allocOwning _ t).bind
  intro n t' hrun
  exact (define_succeeds (varOf_of_allocOwning hrun htarget)).bind fun _ _ _ _ => .pure trivial

theorem settles_newCatchPhi (target : NodeId) (t : Tree) :
    Settles (newCatchPhi target) t fun _ _ => True := by
  apply Settles.of_ask
  intro o ho
  exact settles_newPhi (varOf_ok.2 ⟨o, occurrence_ok.1 ho, rfl⟩)

theorem newOperands_error {e : Fault} (h : t.varOf target = .error e) (key : BlockId)
    (rest : List BlockId) : ∃ e, newOperands target (key :: rest) t = .error e t := by
  cases ho : t.occurrence target with
  | ok o => simp [varOf, ho, Functor.map, Except.map] at h
  | error e =>
    have huse : useLike target t = .error e t := bind_error.2 (.inl (ask_error.2 ⟨ho, rfl⟩))
    have hfirst : (do return (key, ← useLike target) : Edit Tree (BlockId × NodeId)) t =
        .error e t :=
      bind_error.2 (.inl huse)
    rw [newOperands, List.mapM_cons]
    exact ⟨e, bind_error.2 (.inl hfirst)⟩

/-- Operands of a phi are made before the phi, and it takes them over only once its target is known
to be a variable, if there are any. -/
theorem settles_newKeyedPhi {keys : List BlockId} {inputs : List (BlockId × NodeId) → PhiInputs}
    (hinputs : ∀ operands, (Phi.mk target (inputs operands)).operands = operands.map Prod.snd)
    (hfits : t.checkDetached target = .ok ⟨⟩ → keys = [] → ∃ v, t.varOf target = .ok v) :
    Settles (do
      Edit.ask (·.checkDetached target)
      newPhi target (inputs (← newOperands target keys)) : Edit Tree NodeId) t fun _ _ => True := by
  apply Settles.of_ask
  intro _ hcheck
  cases hvar : t.varOf target with
  | ok v => exact .inr (newPhi_of_newOperands_succeeds hinputs hvar (checkDetached_ok.1 hcheck))
  | error e =>
    cases keys with
    | nil =>
      obtain ⟨v, hv⟩ := hfits hcheck rfl
      simp [hvar] at hv
    | cons key rest =>
      obtain ⟨e, hfail⟩ := newOperands_error hvar key rest
      exact .inl ⟨e, bind_error.2 (.inl hfail)⟩

/-- A phi without operands has taken its target over when this turns out to be no variable. -/
theorem newPhi_of_no_variable {inputs : PhiInputs} (hdetached : t.Detached target)
    (hvar : ∀ v, t.varOf target ≠ .ok v) (hnone : (Phi.mk target inputs).operands = []) :
    ∃ t', newPhi target inputs t = .error (.violation (.notVariable target)) t' ∧
      Adopts t.next [target] (t.push { node := .phi ⟨target, inputs⟩ }) t' := by
  have hchildren : (Node.phi ⟨target, inputs⟩).children = [target] := by
    simp [Node.children, Node.writes, Node.reads, hnone]
  have hnodup : (Node.phi ⟨target, inputs⟩).children.Nodup := by simp [hchildren]
  have hfree : ∀ c ∈ (Node.phi ⟨target, inputs⟩).children, t.Detached c := by
    simpa [hchildren] using hdetached
  obtain ⟨t', hrun, hadopts⟩ := exists_allocOwning hnodup hfree
  rw [hchildren] at hadopts
  obtain ⟨s, hs, -⟩ := hdetached
  have hnode : t'.node? target = some s.node := by
    rw [hadopts.node?]
    exact node?_push_of_some (node?_eq_some.2 ⟨s, hs, rfl⟩) _
  have hfail : define target t' = .error (.violation (.notVariable target)) t' := by
    apply bind_error.2
    right
    refine ⟨s.node, t', ask_ok.2 ⟨node_ok.2 hnode, rfl⟩, ?_⟩
    cases hkind : s.node with
    | occurrence o =>
      exact absurd (varOf_ok.2 ⟨o, node?_eq_some.2 ⟨s, hs, hkind⟩, rfl⟩) (hvar o.var)
    | _ => rfl
  exact ⟨t', bind_error.2 (.inr ⟨t.next, t', hrun, bind_error.2 (.inl hfail)⟩), hadopts⟩

end making

end Tree

namespace TreeRequest

open MethodFlow.Tree

variable {t : Tree} {r : TreeRequest}

/-- The request makes a node, of children that the caller has made or of none. -/
def Makes : TreeRequest → Prop
  | newVariable _ _ | newLiteral _ | newReturnAddress | newBinary _ _ _ _ | newEval _ | newStore _ _
  | newShuffle _ _ _ | newReturnValue _ | newReturnVoid | newSaveAddress _ | newJoinPhi _ _ _
  | newCatchPhi _ | newReturnPhi _ _ _ => True
  | _ => False

theorem settles_run (hr : r.Makes) (hfits : r.Fits t) : Settles r.run t fun _ _ => True := by
  have hplain (node : Node) : Settles (do let _ ← alloc node : Edit Tree Unit) t fun _ _ => True :=
    .inr ⟨(), t.push { node }, rfl, trivial⟩
  have hdone {x : Edit Tree NodeId} {P : NodeId → Tree → Prop} (hx : Settles x t P) :
      Settles (do let _ ← x : Edit Tree Unit) t fun _ _ => True :=
    hx.bind fun _ _ _ => .pure trivial
  cases r with
  | newVariable var type => exact hplain _
  | newLiteral value => exact hplain _
  | newReturnAddress => exact hplain _
  | newBinary op left right type => exact hdone (settles_allocOwning _ t)
  | newEval value => exact hdone (settles_allocOwning _ t)
  | newStore target value => exact hdone (settles_newStore target value t)
  | newShuffle kind targets sources => exact hdone (settles_newShuffle kind targets sources t)
  | newReturnValue value => exact hdone (settles_allocOwning _ t)
  | newReturnVoid => exact hplain _
  | newSaveAddress sub => exact hplain _
  | newJoinPhi target block preds => exact hdone (settles_newKeyedPhi (fun _ => rfl) hfits)
  | newCatchPhi target => exact hdone (settles_newCatchPhi target t)
  | newReturnPhi target sub calls => exact hdone (settles_newKeyedPhi (fun _ => rfl) hfits)
  | _ => exact hr.elim

/-- The only nodes that are asked for and do not fit are phis without operands. -/
theorem exists_newPhi_of_not_fits (hr : r.Makes) (hfits : ¬r.Fits t) :
    ∃ target inputs, t.Detached target ∧ (∀ v, t.varOf target ≠ .ok v) ∧
      (Phi.mk target inputs).operands = [] ∧
      ∀ e t', Tree.newPhi target inputs t = .error e t' → r.run t = .error e t' := by
  cases r with
  | newJoinPhi target block preds =>
    simp only [Fits, not_forall, not_exists] at hfits
    obtain ⟨hcheck, rfl, hvar⟩ := hfits
    refine ⟨target, .joining block [], checkDetached_ok.1 hcheck, hvar, rfl, fun e t' hfail => ?_⟩
    exact bind_error.2 (.inl (bind_error.2 (.inr ⟨_, t, ask_ok.2 ⟨hcheck, rfl⟩, hfail⟩)))
  | newReturnPhi target sub calls =>
    simp only [Fits, not_forall, not_exists] at hfits
    obtain ⟨hcheck, rfl, hvar⟩ := hfits
    refine ⟨target, .returning sub [], checkDetached_ok.1 hcheck, hvar, rfl, fun e t' hfail => ?_⟩
    exact bind_error.2 (.inl (bind_error.2 (.inr ⟨_, t, ask_ok.2 ⟨hcheck, rfl⟩, hfail⟩)))
  | replace => exact hr.elim
  | _ => exact absurd trivial hfits

/-- A node that cannot be made leaves the whole tree as it was. Only a phi that nothing flows into
and whose target is no variable is there when the request fails, and all that has changed besides is
that the target has the phi for its parent. -/
theorem refused_making (hr : r.Makes) :
    (r.Fits t → ∀ e t', r.run t = .error e t' → t' = t) ∧
    (¬r.Fits t → ∃ target inputs t', (Phi.mk target inputs).operands = [] ∧
      r.run t = .error (.violation (.notVariable target)) t' ∧
      Adopts t.next [target] (t.push { node := .phi ⟨target, inputs⟩ }) t') := by
  constructor
  · exact fun hfits => (settles_run hr hfits).refuses
  · intro hfits
    obtain ⟨target, inputs, hdetached, hvar, hnone, hrun⟩ := exists_newPhi_of_not_fits hr hfits
    obtain ⟨t', hfail, hadopts⟩ := newPhi_of_no_variable hdetached hvar hnone
    exact ⟨target, inputs, t', hnone, hrun _ t' hfail, hadopts⟩

/-- A literal is evaluated, and a variable and another literal are there to be used. -/
def evalLiteral : List TreeEdit :=
  [.request (.newLiteral (.int 1)), .request (.newEval ⟨0⟩),
    .request (.newVariable (.ofLocal 0) .int), .request (.newLiteral (.int 2))]

theorem refused_making_of_evalLiteral :
    (∃ e, (newStore ⟨2⟩ ⟨0⟩).run (Tree.empty.edits evalLiteral) =
      .error e (Tree.empty.edits evalLiteral)) ∧
    ∃ target inputs t', (Phi.mk target inputs).operands = [] ∧
      (newReturnPhi ⟨3⟩ ⟨0⟩ []).run (Tree.empty.edits evalLiteral) =
        .error (.violation (.notVariable target)) t' ∧
      Adopts ⟨4⟩ [target] ((Tree.empty.edits evalLiteral).push { node := .phi ⟨target, inputs⟩ })
        t' := by
  have howned : (newStore ⟨2⟩ ⟨0⟩).run.outcome (Tree.empty.edits evalLiteral) =
      .error (.violation (.alreadyOwned ⟨0⟩ ⟨1⟩)) := by decide +kernel
  have hliteral : (Tree.empty.edits evalLiteral).checkDetached ⟨3⟩ = .ok ⟨⟩ ∧
      (Tree.empty.edits evalLiteral).varOf ⟨3⟩ = .error (.violation (.notVariable ⟨3⟩)) := by
        decide +kernel
  obtain ⟨t', hfail⟩ := outcome_error.1 howned
  constructor
  · have hsame := (refused_making (r := newStore ⟨2⟩ ⟨0⟩) trivial).1 trivial _ t' hfail
    exact ⟨_, hsame ▸ hfail⟩
  · apply (refused_making (r := newReturnPhi ⟨3⟩ ⟨0⟩ []) trivial).2
    intro hfits
    obtain ⟨v, hv⟩ := hfits hliteral.1 rfl
    simp [hliteral.2] at hv

/-- A phi that is refused has taken the literal that was to be its target from the caller. -/
theorem refused_newJoinPhi_owns_target :
    (newJoinPhi ⟨3⟩ ⟨0⟩ []).run.outcome (Tree.empty.edits evalLiteral) =
        .error (.violation (.notVariable ⟨3⟩)) ∧
      (Tree.empty.edits evalLiteral).parent ⟨3⟩ = .ok none ∧
        ((newJoinPhi ⟨3⟩ ⟨0⟩ []).run.after (Tree.empty.edits evalLiteral)).parent ⟨3⟩ =
          .ok (some ⟨4⟩) := by decide +kernel

end TreeRequest

end MethodFlow
