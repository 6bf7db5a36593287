import MethodFlow.Proofs.Ssa.Links
import MethodFlow.Proofs.Success.Placing

/-!
Renaming a variable succeeds. Whatever a use is linked to, and whatever an operand stands for, is a
definition that the walk has met, and what it has met stays a definition of the variable.
-/

namespace MethodFlow

open Edit

namespace Plan

variable {k : Plan} {nodes : List NodeId} {f : FlowGraph} {b c : BlockId} {n d : NodeId}

section meeting

/-- The walk meets the definition in some block. -/
def Meets (k : Plan) (d : NodeId) : Prop :=
  ∃ c, d ∈ k.roster.met k.graph k.reals c ∧ k.graph.tree.defines d = true

theorem meets_of_leaving (h : k.leaving b = some d) : k.Meets d := by
  obtain ⟨c, -, hlast⟩ := List.exists_of_findSome?_eq_some h
  exact ⟨c, Tree.mem_of_lastDefinition hlast⟩

variable (hk : k.Sound nodes)

include hk

theorem meets_of_start (h : k.start b = some d) : k.Meets d := by
  rcases Option.or_eq_some_iff.1 h with htarget | ⟨-, hentering⟩
  · refine ⟨b, List.mem_append_left _ ?_, hk.fits.prepared.defines_target htarget⟩
    rw [htarget]
    exact List.mem_singleton_self d
  · obtain ⟨c, -, hleaving⟩ := Option.bind_eq_some_iff.1 hentering
    exact meets_of_leaving (b := c) hleaving

theorem meets_of_live (h : d ∈ k.live b) : k.Meets d := by
  rcases List.mem_append.1 h with hstart | hreal
  · exact meets_of_start hk (b := b) (Option.mem_toList.1 hstart)
  · obtain ⟨hreal, hdefines⟩ := List.mem_filter.1 hreal
    exact ⟨b, List.mem_append_right _ hreal, hdefines⟩

/-- A right link leads to a definition that the walk meets. -/
theorem Due.meets {link : Option NodeId} (h : k.Due b n link) : ∀ d ∈ link, k.Meets d := by
  intro d hd
  cases h with
  | use hsplit huse =>
    rcases Option.or_eq_some_iff.1 hd with hlast | ⟨-, hstart⟩
    · obtain ⟨hmem, hdefines⟩ := Tree.mem_of_lastDefinition hlast
      exact ⟨b, List.mem_append_right _ (by simp [hsplit, hmem]), hdefines⟩
    · exact meets_of_start hk hstart
  | fed => exact meets_of_leaving hd

theorem Fits.occurs_of_meets (h : k.Fits f) (hd : k.Meets d) : f.tree.Occurs k.var true d := by
  obtain ⟨c, hmet, hdefines⟩ := hd
  have halike := h.alike hk
  refine Tree.occurs_iff.2 ⟨?_, (halike.defines c d hmet).trans hdefines⟩
  rw [← halike.met] at hmet
  rcases List.mem_append.1 hmet with htarget | hreal
  · obtain ⟨phi, o, hs, hv, -⟩ := h.prepared.target_occurrence (b := c) (by simpa using htarget)
    exact Tree.varOf_ok.2 ⟨o, Tree.node?_eq_some.2 ⟨_, hs, rfl⟩, hv⟩
  · exact h.prepared.kept.varOf (hk.lies.var c d hreal)

theorem Fits.occurs_of_due {link : Option NodeId} (h : k.Fits f) (hd : k.Due b n link) :
    f.tree.Occurs k.var false n := by
  refine Tree.occurs_iff.2 ⟨(hd.occurrence h hk).1, ?_⟩
  cases hd with
  | use hsplit huse => rw [Renaming.defines_eq h hk (b := b) (by simp [hsplit]), huse]
  | @fed m phi _ p edge hphi hp hq =>
    obtain ⟨p', hp', -, hinputs⟩ := h.phi m phi p hphi hp
    have hmem : n ∈ p'.operands := by
      rcases hinputs with hsame | ⟨⟨operands, hcatch⟩, -⟩
      · have := Phi.mem_operands_of_fed hq
        unfold Phi.operands at this ⊢
        rwa [hsame]
      · simp [Phi.fed, hcatch] at hq
    exact (Tree.occurs_iff.1 ((h.newPhi hphi hp').holds.occurs_operand hmem)).2

theorem Fits.setLink_succeeds {link : Option NodeId} (h : k.Fits f) (hd : k.Due b n link) :
    Succeeds (Tree.setLink n link) f.tree :=
  Tree.setLink_succeeds (h.occurs_of_due hk hd) fun d hlink =>
    h.occurs_of_meets hk (hd.meets hk d hlink)

end meeting

end Plan

namespace Renaming

open Plan

variable {k : Plan} {nodes : List NodeId} {b : BlockId} {s s' : Recorded (Bench Numbering)}

theorem number_succeeds {v : Var} {n : NodeId} {defines : Bool}
    (h : s.value.flow.tree.Occurs v defines n) : Succeeds (number v n) s := by
  refine .of_get ((Bench.succeeds_modifyOwn _).bind fun _ m hm _ => ?_)
  rw [← (Bench.modifyOwn_ok hm).1] at h
  exact (Bench.succeeds_liftTree (Tree.setVersion_succeeds h _)).bind fun _ _ _ _ =>
    Succeeds.report _ _

section blocks

variable (hk : k.Sound nodes) (hs : k.Fits s.value.flow)
  (hb : b ∈ k.base.graph.reversePostorder FlowGraph.entry)

include hk hs hb

omit hb in
theorem passReal_succeeds {before after : List NodeId} {n : NodeId} {here : Reached}
    (hsplit : k.reals b = before ++ n :: after) (hhere : Knows k b before here) :
    Succeeds (passReal k.var b here n) s := by
  have hn : n ∈ k.reals b := by simp [hsplit]
  obtain ⟨defines, hocc⟩ := Tree.occurs_of_varOf (hs.prepared.kept.varOf (hk.lies.var b n hn))
  refine .of_ask hocc.isDefinition ?_
  cases defines with
  | true => exact (number_succeeds hocc).bind fun _ _ _ h => .pure h
  | false =>
    have huse : k.graph.tree.defines n = false := by
      rw [← defines_eq hs hk hn, (Tree.occurs_iff.1 hocc).2]
    have hlink := hs.setLink_succeeds hk (.use hsplit huse)
    rw [← hhere.current] at hlink
    exact (Bench.succeeds_liftTree hlink).bind fun _ _ _ _ =>
      (Succeeds.report _ _).bind fun _ _ _ h => .pure h

theorem passReals_yields :
    Yields ((k.reals b).foldlM (passReal k.var b) ⟨k.start b, (k.start b).toList⟩) s
    fun here m => k.Fits m.value.flow ∧ Knows k b (k.reals b) here := by
  refine Yields.foldlM (fun passed here (m : Recorded (Bench Numbering)) =>
    k.Fits m.value.flow ∧ Knows k b passed here) ⟨hs, by simp, by simp⟩ ?_
  rintro passed n rest here m hsplit ⟨hm, hhere⟩
  refine (passReal_succeeds hk hm hsplit hhere).of_ok fun next m' hrun _ => ?_
  obtain ⟨hadv, hnext, -⟩ := passReal_ok hrun hb hk hm hsplit hhere
  exact ⟨hadv.fits, hnext⟩

end blocks

section filling

variable (framed : k.base.Framed) (hk : k.Sound nodes) (hs : k.Fits s.value.flow)

include framed hk hs

theorem passPhi_yields (hb : k.base.contains b = true) :
    Yields (passPhi k.roster b (k.roster.entering k.graph k.reals b)) s fun start m =>
      start = k.start b ∧ k.Fits m.value.flow := by
  have hsucceeds : Succeeds (passPhi k.roster b (k.roster.entering k.graph k.reals b)) s := by
    refine .of_ask (hs.prepared.phiAt framed hb) ?_
    cases hphi : k.roster.phi? b with
    | none => exact .pure trivial
    | some phi =>
      obtain ⟨p, hnew⟩ := hs.prepared.phi b phi hphi
      have hp := hnew.holds.node?
      refine .of_ask (Tree.phiTarget_ok.2 ⟨p, hp, rfl⟩) ?_
      rw [hs.prepared.var]
      exact (number_succeeds hnew.holds.occurs_target).bind fun _ _ _ h => .pure h
  refine hsucceeds.of_ok fun start m hrun _ => ?_
  obtain ⟨hstart, hadv⟩ := passPhi_ok hrun hk hs
  exact ⟨hstart, hadv.fits⟩

omit framed hk in
theorem addLive_yields {phi d : NodeId} (hphi : k.roster.phi? b = some phi)
    (hkind : s.value.flow.tree.phiKind? phi = some .catching)
    (hd : s.value.flow.tree.Occurs k.var true d) (hthrown : k.Thrown b d) :
    Yields (addLive k.roster phi d) s fun _ m => k.Fits m.value.flow := by
  obtain ⟨p, hnew⟩ := hs.prepared.phi b phi hphi
  rw [hnew.holds.phiKind?, Option.some.injEq] at hkind
  obtain ⟨has, hhas⟩ : ∃ has, s.value.flow.tree.standsFor (some d) p.operands = .ok has :=
    Tree.exists_standsFor fun q hq => hnew.holds.occurs_operand hq
  have hread : s.value.flow.tree.hasCatchDefinition phi (some d) = .ok has := by
    rw [Tree.hasCatchDefinition, hnew.holds.catchOperands hkind]
    exact hhas
  have hsucceeds : Succeeds (addLive k.roster phi d) s := by
    refine .of_ask hread ?_
    cases has with
    | true => exact .pure trivial
    | false =>
      obtain ⟨-, hloose⟩ := hs.prepared.prototype
      refine (Bench.succeeds_liftTree (Tree.useLike_succeeds hloose.occurs)).bind
        fun operand m₁ huse _ => ?_
      obtain ⟨huse, -⟩ := Bench.liftTree_ok huse
      obtain ⟨-, hfree, -⟩ := Tree.useLike_loose huse hloose.occurs.varOf
      have hd₁ := ((Tree.Rewires.moves_useLike _).of_ok huse).occurs _ _ _ hd
      have hlink : Succeeds (Tree.setLink operand (some d)) m₁.value.flow.tree :=
        Tree.setLink_succeeds hfree.occurs (by rintro _ ⟨⟩; exact hd₁)
      refine (Bench.succeeds_liftTree hlink).bind fun _ m₂ hset _ => ?_
      obtain ⟨hset, -⟩ := Bench.liftTree_ok hset
      exact Bench.succeeds_liftTree (Tree.addCatchOperand_succeeds hnew.holds hkind
        hloose.occurs.varOf hhas huse hset)
  refine hsucceeds.of_ok fun _ m hrun _ => (addLive_ok hrun hs hphi hthrown).1.fits

theorem fillCatch_yields (hb : k.base.contains b = true) {live : List NodeId}
    (hlive : ∀ d ∈ live, k.Thrown b d) :
    Yields (fillCatch k.roster live b) s fun _ m => k.Fits m.value.flow := by
  refine .of_ask (hs.prepared.phiAt framed hb) ?_
  cases hphi : k.roster.phi? b with
  | none => exact .pure hs
  | some phi =>
    refine .of_get ?_
    obtain ⟨p, hp⟩ := hk.exists_phi hphi
    split
    · next hkind =>
      rw [hs.phiKind? hphi hp] at hkind
      refine Yields.forM (fun _ (m : Recorded (Bench Numbering)) => k.Fits m.value.flow) hs
        fun before d after m hsplit hm => ?_
      have hthrown := hlive d (by simp [hsplit])
      have hd : m.value.flow.tree.Occurs k.var true d := by
        obtain ⟨c, -, -, hd⟩ := hthrown
        exact hm.occurs_of_meets hk (meets_of_live hk hd)
      exact addLive_yields hm hphi ((hm.phiKind? hphi hp).trans hkind) hd hthrown
    · exact .pure hs

theorem fillCatches_yields (hb : b ∈ k.base.graph.reversePostorder FlowGraph.entry)
    {live : List NodeId} (hlive : live = k.live b) :
    Yields (fillCatches k.roster b live) s fun _ m => k.Fits m.value.flow := by
  unfold fillCatches
  split
  · exact .pure hs
  · refine .of_get (Yields.forM (fun _ (m : Recorded (Bench Numbering)) => k.Fits m.value.flow) hs
      fun before handler after m hsplit hm => ?_)
    have hhandler : handler ∈ s.value.flow.handlersProtecting b := by simp [hsplit]
    rw [hs.prepared.shape.handlersProtecting] at hhandler
    exact fillCatch_yields framed hk hm (framed.handled handler (List.mem_filter.1 hhandler).1)
      fun d hd => ⟨b, hb, ⟨handler, hhandler, rfl⟩, hlive ▸ hd⟩

end filling

theorem exists_fedOperands {f : FlowGraph} {phi : NodeId} {p : Phi}
    (hp : f.tree.node? phi = some (.phi p)) (b succ : BlockId) :
    ∃ operands, fedOperands f phi b succ = .ok operands := by
  obtain ⟨target, inputs⟩ := p
  have hread := Tree.phi_ok.2 hp
  cases inputs with
  | joining block operands =>
    have hfound : f.tree.joinOperandAt phi b = .ok (PhiInputs.find? operands b) := by
      rw [Tree.joinOperandAt, hread]
      rfl
    exact ⟨(PhiInputs.find? operands b).toList, by rw [fedOperands, hread, hfound]; rfl⟩
  | catching operands => exact ⟨[], by rw [fedOperands, hread]; rfl⟩
  | returning number operands =>
    cases hsub : f.subroutine? number with
    | none => exact ⟨[], by simp [fedOperands, hread, hsub, bind, Except.bind, pure, Except.pure]⟩
    | some sub =>
      obtain ⟨found, hfound⟩ : ∃ found, (sub.callsReturningTo succ).mapM
          (fun call => f.tree.returnOperandAt phi call) = .ok found := by
        induction sub.callsReturningTo succ with
        | nil => exact ⟨[], rfl⟩
        | cons call rest ih =>
          obtain ⟨found, hfound⟩ := ih
          have hcall : f.tree.returnOperandAt phi call = .ok (PhiInputs.find? operands call) := by
            rw [Tree.returnOperandAt, hread]
            rfl
          exact ⟨PhiInputs.find? operands call :: found, by rw [List.mapM_cons, hcall, hfound]; rfl⟩
      by_cases hexit : sub.exit = some b
      · exact ⟨found.filterMap id, by
          simp [fedOperands, hread, hsub, hexit, hfound, bind, Except.bind, pure, Except.pure]⟩
      · exact ⟨[], by
          simp [fedOperands, hread, hsub, hexit, bind, Except.bind, pure, Except.pure]⟩

section descent

variable (framed : k.base.Framed) (hk : k.Sound nodes)

include framed hk

theorem fillSuccessor_yields (hs : k.Fits s.value.flow)
    (hb : b ∈ k.base.graph.reversePostorder FlowGraph.entry) {m : BlockId}
    (hm : m ∈ k.base.succs b) :
    Yields (fillSuccessor k.roster b (k.leaving b) m) s fun _ s' => k.Fits s'.value.flow := by
  have hsucceeds : Succeeds (fillSuccessor k.roster b (k.leaving b) m) s := by
    refine .of_ask (hs.prepared.phiAt framed (framed.closed.contains_successor hm)) ?_
    cases hphi : k.roster.phi? m with
    | none => exact .pure trivial
    | some phi =>
      obtain ⟨p, hp⟩ := hk.exists_phi hphi
      obtain ⟨p', hnew⟩ := hs.prepared.phi m phi hphi
      obtain ⟨operands, hread⟩ :=
        exists_fedOperands hnew.holds.node? b m
      obtain rfl := fedOperands_eq hs hphi hp hread
      refine .of_ask hread
        (Yields.forM (fun _ (n : Recorded (Bench Numbering)) => k.Fits n.value.flow)
        hs fun before q after n hsplit hn => ?_).succeeds
      have hdue : k.Due b q (k.leaving b) := .fed hm hphi hp (by simp [hsplit])
      refine (Bench.succeeds_liftTree (hn.setLink_succeeds hk hdue)).of_ok fun _ n' hrun _ => ?_
      obtain ⟨hset, hshape, -⟩ := Bench.liftTree_ok hrun
      exact (hn.setLink hk hdue hb hshape hset).1.fits
  exact hsucceeds.of_ok fun _ s' hrun _ => (fillSuccessor_ok hrun hk hs hb hm).1.fits

/-- A block can be renamed, and so can those below it in the dominator tree. -/
theorem renameTo_yields (limit : Nat) (hs : k.Fits s.value.flow)
    (hb : b ∈ k.base.graph.reversePostorder FlowGraph.entry) :
    Yields (renameTo k.roster k.base.dominators limit (k.roster.entering k.graph k.reals b) b) s
      fun _ s' => k.Fits s'.value.flow := by
  induction limit generalizing b s with
  | zero => exact .pure hs
  | succ limit ih =>
    have hcontains : k.base.contains b = true := Digraph.contains_of_mem_preorder framed.closed
      framed.entry ((Digraph.mem_reversePostorder framed.closed framed.entry).1 hb)
    refine (passPhi_yields framed hk hs hcontains).bind fun start m₁ _ h => ?_
    obtain ⟨rfl, hm₁⟩ := h
    have hreals : k.roster.realsAt m₁.value.flow b = .ok (k.reals b) := by
      obtain ⟨record, hrecord, -⟩ := hm₁.prepared.recordAt framed hcontains
      rw [Roster.realsAt, hrecord]
      exact congrArg Except.ok (hm₁.prepared.listed b record (Roster.recordAt_ok.1 hrecord).2.2)
    refine .of_ask hreals ?_
    rw [hk.fits.prepared.var]
    refine (passReals_yields hk hm₁ hb).bind fun here m₂ _ h => ?_
    obtain ⟨hm₂, hknows⟩ := h
    refine (fillCatches_yields framed hk hm₂ hb hknows.live).bind fun _ m₃ _ hm₃ => .of_get ?_
    rw [hknows.current_eq_leaving framed.closed framed.entry hk hb, hm₃.prepared.shape.succs]
    refine .bind (Yields.forM (fun _ (n : Recorded (Bench Numbering)) => k.Fits n.value.flow) hm₃
      fun before m after n hsplit hn => fillSuccessor_yields framed hk hn hb (by simp [hsplit]))
      fun _ m₄ _ hm₄ => ?_
    refine Yields.forM (fun _ (n : Recorded (Bench Numbering)) => k.Fits n.value.flow) hm₄
      fun before c after n hsplit hn => ?_
    obtain ⟨hc, -, henters⟩ := entering_child framed.closed framed.entry hk
      (show c ∈ k.base.dominators.children b by simp [hsplit])
    rw [henters]
    exact ih hn hc

/-- A variable can be renamed. -/
theorem rename_succeeds (hs : k.Fits s.value.flow) :
    Succeeds (rename k.roster k.base.dominators) s := by
  have hentry : FlowGraph.entry ∈ k.base.graph.reversePostorder FlowGraph.entry := by
    obtain ⟨rest, hcons⟩ := Digraph.reversePostorder_eq_cons framed.closed framed.entry
    simp [hcons]
  have hnone : k.roster.entering k.graph k.reals FlowGraph.entry = none := Digraph.entering_entry _
  rw [rename, ← hnone]
  exact (renameTo_yields framed hk _ hs hentry).succeeds

end descent

end Renaming

end MethodFlow
