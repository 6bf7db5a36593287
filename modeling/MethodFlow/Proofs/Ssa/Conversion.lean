import MethodFlow.Proofs.Ssa.Evolution
import MethodFlow.Proofs.Ssa.Occurrences
import MethodFlow.Proofs.Ssa.Renaming
import MethodFlow.Proofs.Tree.Rewiring

/-!
What a conversion makes of a graph. Each variable is converted by itself, and the work on one leaves
the others alone, so every roster describes the graph that the conversion ends with.
-/

namespace MethodFlow

namespace Roster

variable {o : SsaOptions} {base input f : FlowGraph} {v : Var} {scope scope' : NodeId → Var → Prop}
  {reals : BlockId → List NodeId} {r : Roster}

theorem Admits.rebase {b : BlockId} {inputs : PhiInputs} (h : Admits o base v b inputs)
    (hshape : input.SameShape base) : Admits o input v b inputs := by
  cases inputs with
  | joining _ operands => exact h.trans (congrFun hshape.preds b)
  | catching operands => exact ⟨h.1, h.2.1, hshape.catchBlocks ▸ h.2.2⟩
  | returning s operands =>
    obtain ⟨hoption, hexit, sub, hsub, hrest⟩ := h
    exact ⟨hoption, hshape.subroutines ▸ hexit, sub, hshape.subroutine? ▸ hsub, hrest⟩

/-- What has been prepared from a graph has been prepared from any that this was made of. -/
theorem Prepared.rebase (h : Prepared (Admits o) base v scope reals r f)
    (hshape : input.SameShape base) (hkept : input.tree.Retouched scope' base.tree)
    (hscope : ∀ (m : NodeId) w, m.index < input.tree.size → scope m w → scope' m w)
    (hvar : ∀ b, ∀ n ∈ reals b, input.tree.varOf n = .ok v) :
    Prepared (Admits o) input v scope' reals r f where
  var := h.var
  all n := by rw [h.all, hshape.preorder]
  shape := hshape.trans h.shape
  kept := hkept.trans h.kept hscope
  stamp := h.stamp.trans hshape.stamp
  blocks := h.blocks.trans hshape.preorder
  listed := h.listed
  prototype := ⟨Nat.le_trans hkept.size h.prototype.1, h.prototype.2⟩
  phi b n hn := by
    obtain ⟨p, hp⟩ := h.phi b n hn
    exact ⟨p, hp.holds, fun q hq => Nat.le_trans hkept.size (hp.fresh q hq),
      hp.admitted.rebase hshape⟩
  defining b hb hd := by
    refine h.defining b (hshape.preorder ▸ hb) (hd.imp_right ?_)
    rintro ⟨n, hn, hdefines⟩
    exact ⟨n, hn, by rwa [hkept.defines (hvar b n hn)]⟩
  nodup := h.nodup
  contained b hb := hshape.contains ▸ h.contained b hb

end Roster

/-- A variable of the graph `base` as a conversion leaves it in `f`. There is a phi wherever a block
that defines the variable has its frontier, and every use and every operand that an edge feeds is
linked to the definition that reaches it. Operands that no edge feeds are linked to nothing. -/
structure Converted (o : SsaOptions) (base : FlowGraph) (scope : NodeId → Var → Prop)
    (reals : BlockId → List NodeId) (r : Roster) (f : FlowGraph) : Prop where
  prepared : Roster.Prepared (Roster.Admits o) base r.var scope reals r f
  var : ∀ b, ∀ n ∈ reals b, base.tree.varOf n = .ok r.var
  placed : RosterEdit.Placed o base r.var reals r f
  covered : ∀ b ∈ r.definingBlocks,
    RosterEdit.Covered (base.graph.frontiers base.dominators) r b
  use : ∀ b ∈ base.graph.reversePostorder FlowGraph.entry, ∀ before n after,
    reals b = before ++ n :: after → f.tree.defines n = false →
      f.tree.linkOf n = .ok ((f.tree.lastDefinition before).or (r.atHead f reals b))
  fed : ∀ b ∈ base.graph.reversePostorder FlowGraph.entry, ∀ m ∈ base.succs b, ∀ phi p,
    r.phi? m = some phi → f.tree.node? phi = some (.phi p) →
      ∀ q ∈ p.fed base.subroutine? b m, f.tree.linkOf q = .ok (r.leaving f reals b)
  unfed : ∀ b phi p, r.phi? b = some phi → f.tree.node? phi = some (.phi p) → p.kind ≠ .catching →
    ∀ q ∈ p.operands, (∀ c ∈ base.graph.reversePostorder FlowGraph.entry, b ∈ base.succs c →
      q ∉ p.fed base.subroutine? c b) → f.tree.linkOf q = .ok none
  caught : ∀ b ∈ base.graph.reversePostorder FlowGraph.entry,
    ∀ h ∈ base.handlersProtecting b, ∀ phi, r.phi? h.entry = some phi →
      f.tree.phiKind? phi = some .catching → ∀ d ∈ r.live f reals b, Plan.Catches f phi d
  distinct : ∀ b phi p, r.phi? b = some phi → f.tree.node? phi = some (.phi p) →
    p.kind = .catching → f.tree.Distinct p.operands
  thrown : ∀ b phi p, r.phi? b = some phi → f.tree.node? phi = some (.phi p) → p.kind = .catching →
    ∀ q ∈ p.operands, ∃ d, f.tree.definitionOf q = .ok (some d) ∧
      ∃ c ∈ base.graph.reversePostorder FlowGraph.entry,
        (∃ h ∈ base.handlersProtecting c, h.entry = b) ∧ d ∈ r.live f reals c

namespace Plan

variable {k : Plan} {f : FlowGraph} {nodes : List NodeId}

theorem Fits.alike (h : k.Fits f) (hk : k.Sound nodes) : k.roster.Alike k.reals k.graph f where
  dominators := h.prepared.shape.dominators.trans hk.fits.prepared.shape.dominators.symm
  target b := by
    cases hphi : k.roster.phi? b with
    | none => rw [Roster.targetAt?_eq_none hphi, Roster.targetAt?_eq_none hphi]
    | some phi =>
      obtain ⟨p, hp⟩ := hk.exists_phi hphi
      obtain ⟨p', hp', htarget, -⟩ := h.phi b phi p hphi hp
      rw [Roster.targetAt?_of_phi? hphi hp', Roster.targetAt?_of_phi? hphi hp, htarget]
  defines b n hn := by
    rcases List.mem_append.1 hn with hn | hn
    · have htarget := Option.mem_toList.1 hn
      obtain ⟨phi, p, hphi, hp, rfl⟩ := hk.fits.prepared.targetAt?_eq_some.1 htarget
      obtain ⟨p', hp', hsame, -⟩ := h.phi b phi p hphi hp
      rw [hk.fits.prepared.defines_target htarget, ← hsame]
      exact h.prepared.defines_target (Roster.targetAt?_of_phi? hphi hp')
    · exact Renaming.defines_eq h hk hn

theorem Fits.kindAt? (h : k.Fits f) (hk : k.Sound nodes) (b : BlockId) :
    k.roster.kindAt? f b = k.roster.kindAt? k.graph b := by
  rw [Roster.kindAt?, Roster.kindAt?]
  cases hphi : k.roster.phi? b with
  | none => rfl
  | some phi =>
    obtain ⟨p, hp⟩ := hk.exists_phi hphi
    rw [Option.bind_some, Option.bind_some, h.phiKind? hphi hp]

theorem Fits.exists_inputs (h : k.Fits f) (hk : k.Sound nodes) {b : BlockId}
    {phi : NodeId} {p : Phi}
    (hphi : k.roster.phi? b = some phi) (hp : f.tree.node? phi = some (.phi p)) :
    ∃ p₀, k.graph.tree.node? phi = some (.phi p₀) ∧ (p.inputs = p₀.inputs ∨
      (∃ operands, p₀.inputs = .catching operands) ∧
        ∃ operands, p.inputs = .catching operands) := by
  obtain ⟨p₀, hp₀⟩ := hk.exists_phi hphi
  obtain ⟨p', hp', -, hrest⟩ := h.phi b phi p₀ hphi hp₀
  obtain rfl : p = p' := by simpa [hp] using hp'
  exact ⟨p₀, hp₀, hrest⟩

/-- A plan that has been carried out, where the operands were not linked before and phis at handlers
had none. -/
theorem converted (hk : k.Sound nodes) (hadv : k.Advances k.graph f)
    (hunlinked : ∀ b phi p, k.roster.phi? b = some phi → k.graph.tree.node? phi = some (.phi p) →
      ∀ q ∈ p.operands, k.graph.tree.linkOf q = .ok none)
    (hempty : ∀ b phi p, k.roster.phi? b = some phi → k.graph.tree.node? phi = some (.phi p) →
      p.kind = .catching → p.operands = [])
    (hplaced : RosterEdit.Placed k.options k.base k.var k.reals k.roster k.graph)
    (hcovered : ∀ b ∈ k.roster.definingBlocks,
      RosterEdit.Covered (k.base.graph.frontiers k.base.dominators) k.roster b)
    (hpassed : ∀ b ∈ k.base.graph.reversePostorder FlowGraph.entry, k.Passed f b) :
    Converted k.options k.base k.scope k.reals k.roster f := by
  have hf := hadv.fits
  have hvar := hf.prepared.var
  have halike := hf.alike hk
  have hgathered : k.Gathered f := hadv.gathered fun b phi p hphi hp hkind =>
    hempty b phi p hphi hp hkind ▸ .nil k.graph b
  refine ⟨hvar ▸ hf.prepared, fun b n hn => hvar ▸ hk.lies.var b n hn, fun b kind => ?_, hcovered,
    ?_, ?_, ?_, ?_, fun b phi p hphi hp hkind => (hgathered b phi p hphi hp hkind).distinct, ?_⟩
  · rw [hf.kindAt? hk, hvar]
    exact hplaced b kind
  · intro b hb before n after hsplit huse
    have hmem : n ∈ k.reals b := by simp [hsplit]
    have hlast : f.tree.lastDefinition before = k.graph.tree.lastDefinition before :=
      halike.lastDefinition fun m hm => ⟨b, List.mem_append_right _ (by simp [hsplit, hm])⟩
    rw [hlast, halike.atHead]
    refine (hpassed b hb).linked n _ (.use hsplit ?_)
    rw [← huse, Renaming.defines_eq hf hk hmem]
  · intro b hb m hm phi p hphi hp q hq
    obtain ⟨p₀, hp₀, hsame | ⟨-, _, hcatch⟩⟩ := hf.exists_inputs hk hphi hp
    · rw [halike.leaving]
      refine (hpassed b hb).linked q _ (.fed hm hphi hp₀ ?_)
      rwa [Phi.fed, ← hsame]
    · simp [Phi.fed, hcatch] at hq
  · intro b phi p hphi hp hkind q hq hunfed
    obtain ⟨p₀, hp₀, hsame | ⟨-, _, hcatch⟩⟩ := hf.exists_inputs hk hphi hp
    · have hq₀ : q ∈ p₀.operands := by
        unfold Phi.operands at hq ⊢
        rwa [← hsame]
      refine hadv.still q none (fun c hc d hd => ?_) (hunlinked b phi p₀ hphi hp₀ q hq₀)
      obtain ⟨hedge, hfed, -⟩ := hd.of_operand hk hphi hp₀ hq₀
      refine hunfed c hc hedge ?_
      rwa [Phi.fed, hsame]
    · exact absurd (by simp [Phi.kind, hcatch]) hkind
  · intro b hb handler hh phi hphi hkind d hd
    obtain ⟨p₀, hp₀⟩ := hk.exists_phi hphi
    rw [halike.live] at hd
    rw [hf.phiKind? hphi hp₀] at hkind
    exact (hpassed b hb).caught handler hh phi hphi hkind d hd
  · intro b phi p hphi hp hkind
    rw [halike.live]
    exact (hgathered b phi p hphi hp hkind).thrown

end Plan

namespace Converted

variable {o : SsaOptions} {base input f f' : FlowGraph} {scope scope' : NodeId → Var → Prop}
  {reals : BlockId → List NodeId} {r : Roster}

theorem rebase (h : Converted o base scope reals r f) (hshape : input.SameShape base)
    (hkept : input.tree.Retouched scope' base.tree)
    (hscope : ∀ (m : NodeId) w, m.index < input.tree.size → scope m w → scope' m w)
    (hvar : ∀ b, ∀ n ∈ reals b, input.tree.varOf n = .ok r.var) :
    Converted o input scope' reals r f where
  prepared := h.prepared.rebase hshape hkept hscope hvar
  var := hvar
  placed b k := (h.placed b k).trans
    (hshape.needsPhiOf fun b n hn => hkept.defines (hvar b n hn))
  covered := by
    rw [← hshape.frontiers, ← hshape.dominators]
    exact h.covered
  use := by
    rw [← hshape.reversePostorder]
    exact h.use
  fed := by
    rw [← hshape.reversePostorder, ← hshape.succs, ← hshape.subroutine?]
    exact h.fed
  unfed := by
    rw [← hshape.reversePostorder, ← hshape.succs, ← hshape.subroutine?]
    exact h.unfed
  caught := by
    rw [← hshape.reversePostorder, ← hshape.handlersProtecting]
    exact h.caught
  distinct := h.distinct
  thrown := by
    rw [← hshape.reversePostorder, ← hshape.handlersProtecting]
    exact h.thrown

theorem varOf_met (h : Converted o base scope reals r f) {b : BlockId} {n : NodeId}
    (hn : n ∈ r.met f reals b) : f.tree.varOf n = .ok r.var := by
  rcases List.mem_append.1 hn with hn | hn
  · obtain ⟨_, o', hs, hv, -⟩ := h.prepared.target_occurrence (Option.mem_toList.1 hn)
    exact Tree.varOf_ok.2 ⟨o', Tree.node?_eq_some.2 ⟨_, hs, rfl⟩, hv⟩
  · exact h.prepared.kept.varOf (h.var b n hn)

theorem node?_phi_of_retouched (h : Converted o base scope reals r f)
    (hkept : f.tree.Retouched scope' f'.tree) {b : BlockId} {n : NodeId} (hn : r.phi? b = some n) :
    f'.tree.node? n = f.tree.node? n := by
  obtain ⟨p, hnew⟩ := h.prepared.phi b n hn
  rw [hnew.holds.node?, (hkept.holdsPhi hnew.holds).node?]

/-- The conversion of other variables leaves the definitions of a variable as they are. -/
theorem alike_of_retouched (h : Converted o base scope reals r f) (hshape : f.SameShape f')
    (hkept : f.tree.Retouched scope' f'.tree) : r.Alike reals f f' where
  dominators := hshape.dominators
  target b := by
    cases hn : r.phi? b with
    | none => rw [Roster.targetAt?_eq_none hn, Roster.targetAt?_eq_none hn]
    | some n =>
      obtain ⟨p, hnew⟩ := h.prepared.phi b n hn
      have hp : f.tree.node? n = some (.phi p) := hnew.holds.node?
      rw [Roster.targetAt?_of_phi? hn hp,
        Roster.targetAt?_of_phi? hn ((h.node?_phi_of_retouched hkept hn).trans hp)]
  defines b n hn := hkept.defines (h.varOf_met hn)

section retouching

variable (h : Converted o base scope reals r f) (hkept : f.tree.Retouched scope' f'.tree)
  (hout : ∀ m, ¬scope' m r.var)

include h hkept hout

theorem operand_of_retouched {b : BlockId} {n q : NodeId} {p : Phi} {oc : Occurrence}
    (hn : r.phi? b = some n) (hp : f.tree.node? n = some (.phi p)) (hq : q ∈ p.operands)
    (hoc : f.tree.node? q = some (.occurrence oc)) : f'.tree.node? q = some (.occurrence oc) := by
  obtain ⟨_, hs, hv, -⟩ := (h.prepared.newPhi hn hp).holds.operand q hq
  obtain rfl : oc = _ := by simpa [Tree.node?, hs, eq_comm] using hoc
  exact hkept.occurrence_of_not hoc (hv ▸ hout q)

theorem linkOf_of_retouched {b : BlockId} {n q : NodeId} {p : Phi} {d : Option NodeId}
    (hn : r.phi? b = some n) (hp : f.tree.node? n = some (.phi p)) (hq : q ∈ p.operands)
    (hd : f.tree.linkOf q = .ok d) : f'.tree.linkOf q = .ok d := by
  obtain ⟨oc, hoc, hd⟩ := Tree.linkOf_ok.1 hd
  exact Tree.linkOf_ok.2 ⟨oc, h.operand_of_retouched hkept hout hn hp hq hoc, hd⟩

theorem definitionOf_of_retouched {b : BlockId} {n q : NodeId} {p : Phi} {d : Option NodeId}
    (hn : r.phi? b = some n) (hp : f.tree.node? n = some (.phi p)) (hq : q ∈ p.operands)
    (hd : f.tree.definitionOf q = .ok d) : f'.tree.definitionOf q = .ok d := by
  obtain ⟨oc, hoc, hd⟩ := Tree.definitionOf_ok.1 hd
  exact Tree.definitionOf_ok.2 ⟨oc, h.operand_of_retouched hkept hout hn hp hq hoc, hd⟩

/-- The conversion of other variables leaves a variable as it is. -/
theorem retouch (hshape : f.SameShape f')
    (hscope : ∀ (m : NodeId) w, m.index < base.tree.size → scope' m w → scope m w) :
    Converted o base scope reals r f' := by
  have hphi {b : BlockId} {n : NodeId} (hn : r.phi? b = some n) := h.node?_phi_of_retouched hkept hn
  have halike := h.alike_of_retouched hshape hkept
  refine ⟨h.prepared.retouch hshape hkept hscope, h.var, fun b k => ?_, h.covered, ?_, ?_,
    ?_, ?_, ?_, ?_⟩
  · rw [← h.placed b k, Roster.kindAt?, Roster.kindAt?]
    cases hn : r.phi? b with
    | none => rfl
    | some n =>
      obtain ⟨p, hp⟩ := h.prepared.phi b n hn
      rw [Option.bind_some, hkept.phiKind? (Tree.index_lt_size hp.holds.slot), Option.bind_some]
  · intro b hb before n after hsplit huse
    have hmet {m : NodeId} (hm : m ∈ reals b) : m ∈ r.met f reals b := List.mem_append_right _ hm
    have hn : n ∈ r.met f reals b := hmet (by simp [hsplit])
    rw [halike.defines b n hn] at huse
    obtain ⟨oc, hoc, hl⟩ := Tree.linkOf_ok.1 (h.use b hb before n after hsplit huse)
    obtain ⟨_, hoc', hv⟩ := Tree.varOf_ok.1 (h.varOf_met hn)
    obtain rfl : oc = _ := by simpa [hoc] using hoc'
    rw [halike.atHead, halike.lastDefinition fun m hm => ⟨b, hmet (by simp [hsplit, hm])⟩]
    exact Tree.linkOf_ok.2 ⟨oc, hkept.occurrence_of_not hoc (hv ▸ hout n), hl⟩
  · intro b hb m hm n p hn hp q hq
    rw [hphi hn] at hp
    rw [halike.leaving]
    exact h.linkOf_of_retouched hkept hout hn hp (Phi.mem_operands_of_fed hq)
      (h.fed b hb m hm n p hn hp q hq)
  · intro b n p hn hp hkind q hq hunfed
    rw [hphi hn] at hp
    exact h.linkOf_of_retouched hkept hout hn hp hq (h.unfed b n p hn hp hkind q hq hunfed)
  · intro b hb handler hh n hn hkind d hd
    rw [halike.live] at hd
    rw [Tree.phiKind?, hphi hn, ← Tree.phiKind?] at hkind
    obtain ⟨p, q, hp, hq, hd⟩ := h.caught b hb handler hh n hn hkind d hd
    exact ⟨p, q, (hphi hn).trans hp, hq, h.definitionOf_of_retouched hkept hout hn hp hq hd⟩
  · intro b n p hn hp hkind
    rw [hphi hn] at hp
    refine (h.distinct b n p hn hp hkind).congr fun q hq => ?_
    obtain ⟨d, hd, -⟩ := h.thrown b n p hn hp hkind q hq
    rw [hd, h.definitionOf_of_retouched hkept hout hn hp hq hd]
  · intro b n p hn hp hkind q hq
    rw [hphi hn] at hp
    obtain ⟨d, hd, hthrown⟩ := h.thrown b n p hn hp hkind q hq
    rw [halike.live]
    exact ⟨d, h.definitionOf_of_retouched hkept hout hn hp hq hd, hthrown⟩

end retouching

end Converted

namespace FlowGraph

variable {o : SsaOptions} {group : Occurrences} {reals : BlockId → List NodeId} {r : Roster}
  {s s' : Recorded (Bench Numbering)}

theorem sound_of_prepare {base f₁ f₂ : FlowGraph} {first : NodeId} {start : Roster} {u : Unit}
    {events events' : List Event} (hstart : Roster.start first base = .ok start f₁)
    (hprepare : RosterEdit.prepare o base.dominators (base.graph.frontiers base.dominators) group
      ⟨⟨f₁, start⟩, events⟩ = .ok u ⟨⟨f₂, r⟩, events'⟩)
    (hfirst : base.tree.varOf first = .ok group.var) (framed : base.Framed)
    (inside : ∀ b, ∀ n ∈ base.statements b, n.index < base.tree.size)
    (hlies : Lies base group.var reals group.nodes) :
    (Plan.mk o base group.var reals r f₂).Sound group.nodes ∧
      RosterEdit.Placed o base group.var reals r f₂ ∧ Roster.Listing base r f₂ ∧
      (∀ b ∈ r.definingBlocks,
        RosterEdit.Covered (base.graph.frontiers base.dominators) r b) ∧
      r.reals = group.nodes := by
  obtain ⟨hbegun, hnone⟩ : Roster.Ready (Roster.Admits o) base group.var
      (base.Reached group.var reals)
      (fun _ => []) ⟨f₁, start⟩ ∧ ∀ b, start.phi? b = none :=
    Roster.start_ok hstart hfirst inside
  obtain ⟨hready, hplaced, hcovered⟩ :=
    RosterEdit.prepare_ok hprepare hbegun hnone hlies framed rfl
  exact ⟨⟨⟨hready.prepared, fun b n p _ hp => ⟨p, hp, rfl, .inl rfl⟩⟩, hlies⟩, hplaced,
    hready.listing, hcovered, hready.order.trans hlies.nodes.symm⟩

theorem placing_of_making {T : Tree → Tree → Prop} [IsPreorder Tree T] (h : Tree.Making T)
    (hslot : ∀ n (f : Slot → Slot), (∀ s, (f s).node = s.node) → Edit.Moves T (Tree.modifySlot n f))
    (hcleanup : ∀ n, Edit.Moves T (Tree.cleanup n)) : Placing T (OnTree T) where
  withTree _ _ := id
  useLike := h.useLike
  newJoinPhi := h.moves_newJoinPhi
  newCatchPhi := h.moves_newCatchPhi
  newReturnPhi := h.moves_newReturnPhi
  prependStatement := moves_prepend_of_insert
    (OnTree.moves_insertStatement fun n _ => hslot n _ fun _ => rfl)
  cleanupNode := moves_cleanup_of_remove
    (OnTree.moves_removeStatement fun n _ => hslot n _ fun _ => rfl)
    fun n => OnTree.moves_liftTree (hcleanup n)

theorem placed_of_prepare {T : Tree → Tree → Prop} [IsPreorder Tree T] (h : Placing T (OnTree T))
    {t : DominatorTree} {frontiers : List (List BlockId)} {m : Recorded (Bench Numbering)}
    {first : NodeId} {start : Roster} {prepared : Unit × Roster}
    (hstart : (liftM (Roster.start first) : Renaming Roster) s = .ok start m)
    (hprepare : Bench.onGraph (Bench.beside start (RosterEdit.prepare o t frontiers group)) m =
      .ok prepared s') : T s.value.flow.tree s'.value.flow.tree := by
  have hstarted : T s.value.flow.tree m.value.flow.tree :=
    (Bench.moves_liftFlow (Roster.moves_start h first)).of_ok hstart
  have hprepared : T m.value.flow.tree s'.value.flow.tree :=
    (Bench.moves_onGraph (Bench.moves_beside
      (RosterEdit.moves_prepare h o t frontiers group))).of_ok hprepare
  exact IsTrans.trans _ _ _ hstarted hprepared

theorem placing_inherits {α : Type} {field : Occurrence → Option α} (hf : Tree.Spared field) :
    Placing (Tree.Inherits field) (OnTree (Tree.Inherits field)) :=
  placing_of_making (Tree.Inherits.making hf) (fun n _ => Tree.Inherits.moves_modifySlot n)
    Tree.Inherits.moves_cleanup

theorem placing_noneCaught : Placing Tree.NoneCaught (OnTree Tree.NoneCaught) :=
  placing_of_making Tree.NoneCaught.making (fun n _ => Tree.NoneCaught.moves_modifySlot n)
    Tree.NoneCaught.moves_cleanup

theorem unlinked_of_inherits {base f : FlowGraph} {v : Var} {scope : NodeId → Var → Prop}
    (hprepared : Roster.Prepared (Roster.Admits o) base v scope reals r f)
    (hinherits : Tree.Inherits Occurrence.link base.tree f.tree) (b : BlockId)
    (phi : NodeId) (p : Phi)
    (hphi : r.phi? b = some phi) (hp : f.tree.node? phi = some (.phi p)) (q : NodeId)
    (hq : q ∈ p.operands) : f.tree.linkOf q = .ok none := by
  obtain ⟨p', hnew⟩ := hprepared.phi b phi hphi
  obtain rfl : p = p' := by simpa [hp] using hnew.holds.node?
  obtain ⟨oc, hs, -⟩ := hnew.holds.operand q hq
  have hnode : f.tree.node? q = some (.occurrence oc) := Tree.node?_eq_some.2 ⟨_, hs, rfl⟩
  refine Tree.linkOf_ok.2 ⟨oc, hnode, ?_⟩
  cases hlink : oc.link with
  | none => rfl
  | some d =>
    obtain ⟨old, hold, -⟩ := hinherits q oc hnode d hlink
    obtain ⟨s, hs, -⟩ := Tree.node?_eq_some.1 hold
    have hfresh := hnew.fresh q (by simp [Tree.HoldsPhi.nodes, hq])
    exact absurd (Tree.index_lt_size hs) (Nat.not_lt.2 hfresh)

/-- The phis that were placed at handlers have no operands. -/
theorem uncaught_of_noneCaught {base f : FlowGraph} {v : Var} {scope : NodeId → Var → Prop}
    (hprepared : Roster.Prepared (Roster.Admits o) base v scope reals r f)
    (hnone : base.tree.NoneCaught f.tree) (b : BlockId) (phi : NodeId) (p : Phi)
    (hphi : r.phi? b = some phi) (hp : f.tree.node? phi = some (.phi p))
    (hkind : p.kind = .catching) :
    p.operands = [] := by
  refine (hnone phi p hp hkind).resolve_right fun hold => ?_
  obtain ⟨p', hnew⟩ := hprepared.phi b phi hphi
  obtain ⟨s, hs, -⟩ := Tree.node?_eq_some.1 hold
  exact absurd (Tree.index_lt_size hs)
    (Nat.not_lt.2 (hnew.fresh phi (by simp [Tree.HoldsPhi.nodes])))

/-- The conversion of a variable opens a roster for its first occurrence, places phis, and
renames. -/
theorem convertVariable_steps {t : DominatorTree} {frontiers : List (List BlockId)}
    (h : convertVariable o t frontiers group s = .ok r s') :
    ∃ first ∈ group.nodes, ∃ start u m₁ m₂,
      (liftM (Roster.start first) : Renaming Roster) s = .ok start m₁ ∧
      Bench.onGraph (Bench.beside start (RosterEdit.prepare o t frontiers group)) m₁ =
        .ok (u, r) m₂ ∧
      Renaming.rename r t m₂ = .ok ⟨⟩ s' := by
  unfold convertVariable at h
  cases hnodes : group.nodes with
  | nil => simp [hnodes] at h
  | cons first rest =>
    simp only [hnodes, Edit.bind_ok, Edit.pure_ok] at h
    obtain ⟨start, m₁, hstart, ⟨u, r'⟩, m₂, hprepare, _, m₃, hrename, rfl, rfl⟩ := h
    exact ⟨first, List.mem_cons_self, start, u, m₁, m₂, hstart, hprepare, hrename⟩

theorem convertVariable_ok
    (h : convertVariable o s.value.flow.dominators
      (s.value.flow.graph.frontiers s.value.flow.dominators) group s = .ok r s')
    (framed : s.value.flow.Framed)
    (inside : ∀ b, ∀ n ∈ s.value.flow.statements b, n.index < s.value.flow.tree.size)
    (hlies : Lies s.value.flow group.var reals group.nodes) :
    r.var = group.var ∧
      Converted o s.value.flow (s.value.flow.Reached group.var reals) reals r s'.value.flow ∧
      Roster.Listing s.value.flow r s'.value.flow ∧ r.reals = group.nodes := by
  obtain ⟨first, hfirst, start, u, m₁, m₂, hstart, hprepare, hrename⟩ := convertVariable_steps h
  have hinherits := placed_of_prepare (placing_inherits Tree.spared_link) hstart hprepare
  have hnone := placed_of_prepare placing_noneCaught hstart hprepare
  obtain ⟨hstart, -⟩ := Bench.liftFlow_ok hstart
  obtain ⟨m, hbeside, rfl⟩ := Edit.within_ok.1 hprepare
  obtain ⟨hsound, hplaced, hlisting, hcovered, hreals⟩ := sound_of_prepare hstart
    (Bench.beside_ok.1 hbeside) (hlies.varOf hfirst) framed inside hlies
  obtain ⟨hdone, hpassed⟩ :=
    Renaming.rename_ok (k := ⟨o, s.value.flow, group.var, reals, r, m.value⟩) framed.closed
      framed.entry hrename hsound hsound.fits
  have hgraph : s'.value.flow.graph = m.value.graph := Renaming.graph_rename hrename
  refine ⟨hsound.fits.prepared.var, Plan.converted hsound hdone
    (unlinked_of_inherits hsound.fits.prepared hinherits)
    (uncaught_of_noneCaught hsound.fits.prepared hnone) hplaced hcovered hpassed,
    hlisting.congr rfl ?_, hreals⟩
  funext b
  rw [statements, block?, hgraph]
  rfl

/-- A graph in which some variables of `input` have been converted. Each block lists the phis of
these variables in front of what it listed. -/
structure Partly (o : SsaOptions) (input : FlowGraph) (rosters : List Roster) (f : FlowGraph) :
    Prop where
  shape : input.SameShape f
  kept : input.tree.Retouched (input.Renames o) f.tree
  converted : ∀ r ∈ rosters, Converted o input (input.Renames o) (input.realsIn r.var) r f
  lists : ∀ b, f.statements b = rosters.filterMap (·.phi? b) ++ input.statements b
  order : ∀ r ∈ rosters, r.reals = input.preorder.flatMap (input.realsIn r.var)

namespace Partly

variable {input f : FlowGraph} {rosters : List Roster}

theorem lies {v : Var} {nodes : List NodeId} (h : Partly o input rosters f)
    (hlies : Lies input v reals nodes) : Lies f v reals nodes where
  nodes := by rw [h.shape.preorder, hlies.nodes]
  nodup := hlies.nodup
  var b n hn := h.kept.varOf (hlies.var b n hn)
  block b n hn := h.kept.keepsPlaces.blockOf (hlies.block b n hn)

theorem isSome_phiKind? (h : Partly o input rosters f) {b : BlockId} {n : NodeId}
    (hn : n ∈ rosters.filterMap (·.phi? b)) : (f.tree.phiKind? n).isSome := by
  obtain ⟨r, hr, hphi⟩ := List.mem_filterMap.1 hn
  obtain ⟨p, hp⟩ := (h.converted r hr).prepared.phi b n hphi
  simp [hp.holds.phiKind?]

theorem inside (h : Partly o input rosters f) (coherent : input.Coherent) (b : BlockId) :
    ∀ n ∈ f.statements b, n.index < f.tree.size := by
  intro n hn
  rw [h.lists, List.mem_append] at hn
  rcases hn with hn | hn
  · obtain ⟨s, -, hs, -⟩ := FlowGraph.isSome_phiKind?.1 (h.isSome_phiKind? hn)
    exact Tree.index_lt_size hs
  · exact Nat.lt_of_lt_of_le (coherent.inside b n hn) h.kept.size

/-- The phis at the head of a block are those of the rosters. -/
theorem leadingPhis (h : Partly o input rosters f) (coherent : input.Coherent)
    (hphis : input.placedPhis = 0) (b : BlockId) :
    f.leadingPhis b = (rosters.filterMap (·.phi? b)).length := by
  rw [FlowGraph.leadingPhis, h.lists, List.takeWhile_append_of_pos fun n hn => h.isSome_phiKind? hn]
  have hrest : (input.statements b).takeWhile (fun n => (f.tree.phiKind? n).isSome) = [] := by
    rw [List.takeWhile_eq_nil_iff]
    intro hlen
    have hmem := List.get_mem (input.statements b) ⟨0, hlen⟩
    rw [h.kept.phiKind? (coherent.inside b _ hmem),
      (placedPhis_eq_zero coherent).1 hphis b _ hmem]
    simp
  rw [hrest, List.append_nil]

theorem convertVariable (hs : Partly o input rosters s.value.flow) (coherent : input.Coherent)
    (hphis : input.placedPhis = 0) (hgroup : group ∈ input.occurrences o)
    (hnew : ∀ old ∈ rosters, old.var ≠ group.var)
    (h : FlowGraph.convertVariable o input.dominators (input.graph.frontiers input.dominators) group
      s = .ok r s') :
    r.var = group.var ∧ Partly o input (rosters ++ [r]) s'.value.flow := by
  obtain ⟨hconverts, hnodes⟩ := nodes_of_mem_occurrences hgroup
  have hlies := lies_realsIn coherent hnodes
  rw [← hs.shape.dominators, ← hs.shape.frontiers] at h
  obtain ⟨hvar, hconverted, hlisting, hreals⟩ :=
    convertVariable_ok h (hs.shape.framed coherent.toFramed) (hs.inside coherent) (hs.lies hlies)
  have hscope (m : NodeId) (w : Var)
      (hw : s.value.flow.Reached group.var (input.realsIn group.var) m w) :
        input.Renames o m w := by
    obtain ⟨rfl, b, hb, hm⟩ := hw
    exact ⟨hconverts, b, hs.shape.reversePostorder ▸ hb, hm⟩
  have hrebased : Converted o input (input.Renames o) (input.realsIn r.var) r s'.value.flow := by
    rw [hvar]
    exact hconverted.rebase hs.shape hs.kept (fun m w _ => hscope m w) fun b n hn =>
      hvar ▸ hlies.var b n hn
  refine ⟨hvar, hrebased.prepared.shape, hrebased.prepared.kept, fun old hold => ?_, fun b => ?_,
    fun old hold => ?_⟩
  · rcases List.mem_append.1 hold with hold | hold
    · exact (hs.converted old hold).retouch hconverted.prepared.kept
        (fun _ hw => hnew old hold hw.1)
        hconverted.prepared.shape fun m w _ => hscope m w
    · rwa [List.mem_singleton.1 hold]
  · rw [hlisting.lists, hs.leadingPhis coherent hphis, hs.lists, List.take_left, List.drop_left,
      List.filterMap_append]
    cases hphi : r.phi? b <;> simp [hphi]
  · rcases List.mem_append.1 hold with hold | hold
    · exact hs.order old hold
    · rw [List.mem_singleton.1 hold, hreals, hnodes, hvar]

end Partly

theorem convertVariables_ok {rosters : List Roster} {input : FlowGraph}
    (h : (input.occurrences o).mapM (FlowGraph.convertVariable o input.dominators
      (input.graph.frontiers input.dominators)) s = .ok rosters s')
    (hs : s.value.flow = input) (coherent : input.Coherent) (hphis : input.placedPhis = 0) :
    rosters.map Roster.var = (input.occurrences o).map Occurrences.var ∧
      Partly o input rosters s'.value.flow := by
  refine Edit.mapM_ok h (fun before done m =>
    done.map Roster.var = before.map Occurrences.var ∧ Partly o input done m.value.flow)
    ⟨rfl, ?_⟩ ?_
  · rw [hs]
    exact ⟨.refl input, .refl _, by simp, by simp, by simp⟩
  · rintro before group after done r m m' hsplit ⟨hvars, hm⟩ hstep
    have hgroup : group ∈ input.occurrences o := by simp [hsplit]
    obtain ⟨hvar, hnext⟩ := hm.convertVariable coherent hphis hgroup
      (fun old hold => var_ne_of_occurrences hsplit (hvars ▸ List.mem_map_of_mem hold)) hstep
    exact ⟨by simp [hvars, hvar], hnext⟩

/-- A conversion that keeps its phis collects what it converts from a graph without phis, and then
converts one variable after another. -/
theorem toSsa_steps {input f : FlowGraph} {events events' : List Event} {form : SsaForm}
    (h : toSsa o ⟨input, events⟩ = .ok form ⟨f, events'⟩) (hoff : o.collapse = false) :
    ∃ collected, collect o ⟨input, events⟩ = .ok (input.occurrences o) ⟨input, collected⟩ ∧
      input.placedPhis = 0 ∧
      (input.occurrences o).mapM (FlowGraph.convertVariable o input.dominators
        (input.graph.frontiers input.dominators)) ⟨⟨input, {}⟩, collected⟩ =
          .ok form.rosters ⟨⟨f, form.numbering⟩, events'⟩ := by
  simp only [toSsa, Edit.bind_ok, Edit.get_ok, hoff, Bool.false_eq_true, if_false,
    Edit.pure_ok] at h
  obtain ⟨groups, ⟨_, collected⟩, hcollect, _, _, ⟨rfl, rfl⟩, ⟨rosters, numbering⟩, m, hconvert,
    rfl, rfl⟩ := h
  obtain ⟨rfl, rfl, hphis⟩ := collect_ok hcollect
  exact ⟨collected, hcollect, hphis, Bench.beside_ok.1 hconvert⟩

/-- What a conversion ends with unless it removes phis. -/
theorem toSsa_ok {input f : FlowGraph} {events events' : List Event} {form : SsaForm}
    (h : toSsa o ⟨input, events⟩ = .ok form ⟨f, events'⟩) (coherent : input.Coherent)
    (hoff : o.collapse = false) :
    form.vars = (input.occurrences o).map Occurrences.var ∧ Partly o input form.rosters f := by
  obtain ⟨_, -, hphis, hconvert⟩ := toSsa_steps h hoff
  exact convertVariables_ok hconvert rfl coherent hphis

theorem placedPhis_of_toSsa {s s' : Recorded FlowGraph} {form : SsaForm}
    (h : toSsa o s = .ok form s') : s.value.placedPhis = 0 := by
  obtain ⟨groups, m, hcollect, -⟩ := Edit.bind_ok.1 h
  exact (collect_ok hcollect).2.2

/-- A conversion that removes phis does so at the end. -/
theorem toSsa_collapse {s s' : Recorded FlowGraph} {form : SsaForm} (h : toSsa o s = .ok form s')
    (hon : o.collapse = true) :
    ∃ (plain : SsaForm) (m : Recorded FlowGraph),
      toSsa { o with collapse := false } s = .ok plain m ∧
        ∃ count, FormEdit.collapse ⟨⟨m.value, plain⟩, m.events⟩ =
          .ok count ⟨⟨s'.value, form⟩, s'.events⟩ := by
  simp only [toSsa, Edit.bind_ok, Edit.get_ok, hon, if_true, Edit.pure_ok] at h
  obtain ⟨groups, m₁, hcollect, _, _, ⟨rfl, rfl⟩, ⟨rosters, numbering⟩, m, hconvert,
    ⟨count, found⟩, m', hcollapse, rfl, rfl⟩ := h
  refine ⟨⟨rosters, numbering⟩, m, ?_, count, Bench.beside_ok.1 hcollapse⟩
  simp only [toSsa, Edit.bind_ok, Edit.get_ok, Bool.false_eq_true, if_false, Edit.pure_ok]
  exact ⟨groups, m₁, hcollect, m₁, m₁, ⟨rfl, rfl⟩, ⟨rosters, numbering⟩, m, hconvert, rfl, rfl⟩

end FlowGraph

end MethodFlow
