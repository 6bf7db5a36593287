import MethodFlow.Proofs.Flow.Subroutines
import MethodFlow.Proofs.Ssa.Soundness

/-!
Renaming computes what reaches each point. The definition that leaves a block is read off the block
and its immediate dominator, and it says what every use and every operand is linked to.
-/

namespace MethodFlow

/-- Calls that come back to different blocks are one call for each block. -/
theorem Subroutine.nodup_callsReturningTo {sub : Subroutine} (h : (sub.paths.map Prod.snd).Nodup)
    (b : BlockId) : (sub.callsReturningTo b).Nodup := by
  rw [callsReturningTo, List.Nodup, List.pairwise_map]
  refine ((List.pairwise_map.1 h).filter _).imp_of_mem fun {p p'} hp hp' hne => absurd ?_ hne
  have hback : p.2 = b := by simpa using (List.mem_filter.1 hp).2
  have hback' : p'.2 = b := by simpa using (List.mem_filter.1 hp').2
  exact hback.trans hback'.symm

theorem PhiInputs.find?_eq_some_of_mem {operands : List (BlockId × NodeId)}
    {key : BlockId} {q : NodeId} (nodup : (operands.map Prod.fst).Nodup) (h : (key, q) ∈ operands) :
    PhiInputs.find? operands key = some q := by
  obtain ⟨q', hq'⟩ := PhiInputs.exists_find? (List.mem_map_of_mem h)
  obtain rfl : q' = q :=
    congrArg Prod.snd (List.inj_on_of_nodup_map nodup (PhiInputs.mem_of_find? hq') h rfl)
  exact hq'

namespace Roster

/-- What renaming makes of the occurrences `reals` of a variable and of the operands of its phis,
where `out b` is the definition that leaves the block `b`. -/
structure Renamed (r : Roster) (f : FlowGraph) (reals : BlockId → List NodeId)
    (out : BlockId → Option NodeId) : Prop where
  listed : ∀ b, f.contains b = true → r.realsAt f b = .ok (reals b)
  start : f.dominators.immediate? FlowGraph.entry = none
  leaves : ∀ b, f.isReachable b = true → out b =
    (f.tree.lastDefinition (reals b)).or
      ((r.targetAt? f b).or ((f.dominators.immediate? b).bind out))
  use : ∀ b, f.isReachable b = true → ∀ before n after, reals b = before ++ n :: after →
    f.tree.defines n = false → f.tree.linkOf n = .ok ((f.tree.lastDefinition before).or
      ((r.targetAt? f b).or ((f.dominators.immediate? b).bind out)))
  keyed : ∀ b phi, r.phiAt f b = .ok (some phi) → f.tree.phiKind? phi = some .joining →
    ∀ p ∈ f.preds b, ∃ q, f.tree.joinOperandAt phi p = .ok (some q)
  joined : ∀ b phi, r.phiAt f b = .ok (some phi) →
    ∀ p q, f.tree.joinOperandAt phi p = .ok (some q) →
    f.tree.linkOf q = .ok (if f.isReachable p then out p else none)
  returned : ∀ b phi ph, r.phiAt f b = .ok (some phi) → f.tree.phi phi = .ok ph →
    ∀ s operands sub exit, ph.inputs = .returning s operands → f.subroutine? s = some sub →
      sub.exit = some exit → f.isReachable exit = true → b ∈ f.succs exit →
        ∀ q ∈ ph.operands, f.tree.linkOf q = .ok (out exit)
  dominated : ∀ b, f.isReachable b = true → ∀ n ∈ reals b, f.tree.defines n = false →
    ∀ d, f.tree.linkOf n = .ok (some d) →
      ∃ e, f.tree.blockOf d = .ok (some e) ∧ f.graph.Dominates FlowGraph.entry e b

end Roster

namespace Converted

variable {o : SsaOptions} {base f : FlowGraph} {scope : NodeId → Var → Prop}
  {reals : BlockId → List NodeId}
  {r : Roster} {b p exit : BlockId} {phi q : NodeId} {ph : Phi} {s : SubroutineId}
  {sub : Subroutine}
  {operands : List (BlockId × NodeId)}

/-- The operand that a join has for an edge links to what leaves the block in front of it, or to
nothing if that block is never left. -/
theorem linkOf_joinOperand (h : Converted o base scope reals r f) (hphi : r.phi? b = some phi)
    (hp : f.tree.node? phi = some (.phi ph)) {block : BlockId}
    (hinputs : ph.inputs = .joining block operands) (hq : PhiInputs.find? operands p = some q) :
    f.tree.linkOf q =
      .ok (if p ∈ base.graph.reversePostorder FlowGraph.entry then r.leaving f reals p
      else none) := by
  have hfed : q ∈ ph.fed base.subroutine? p b := by simp [Phi.fed, hinputs, hq]
  split
  · next hreach =>
    refine h.fed p hreach b (Digraph.mem_predecessors_iff.1 ?_) phi ph hphi hp q hfed
    have hkey : p ∈ operands.map Prod.fst := List.mem_map_of_mem (PhiInputs.mem_of_find? hq)
    rwa [h.keys_joining hphi hp hinputs] at hkey
  · next hout =>
    refine h.unfed b phi ph hphi hp (by simp [Phi.kind, hinputs]) q
      (Phi.mem_operands_of_fed hfed) ?_
    rintro c hc - hfed'
    exact hout (Phi.source_of_fed (h.newPhi hphi hp).holds.nodup hfed hfed' ▸ hc)

/-- Behind a subroutine, what leaves its exit is merged once for each call. -/
theorem linkOf_returnOperand (h : Converted o base scope reals r f) (hphi : r.phi? b = some phi)
    (hp : f.tree.node? phi = some (.phi ph)) (hinputs : ph.inputs = .returning s operands)
    (hsub : base.subroutine? s = some sub) (nodup : (sub.paths.map Prod.snd).Nodup)
    (hexit : sub.exit = some exit) (hreach : exit ∈ base.graph.reversePostorder FlowGraph.entry)
    (hedge : b ∈ base.succs exit) (hq : q ∈ ph.operands) :
    f.tree.linkOf q = .ok (r.leaving f reals exit) := by
  have hadmits := (h.newPhi hphi hp).admitted
  rw [hinputs] at hadmits
  obtain ⟨-, -, sub', hsub', -, hkeys⟩ := hadmits
  obtain rfl : sub = sub' := by simpa [hsub] using hsub'
  refine h.fed exit hreach b hedge phi ph hphi hp q ?_
  simp only [Phi.operands, hinputs, List.mem_map] at hq
  obtain ⟨⟨call, _⟩, hmem, rfl⟩ := hq
  simp only [Phi.fed, hinputs, hsub, hexit, if_true]
  exact List.mem_filterMap.2 ⟨call, hkeys ▸ List.mem_map_of_mem hmem,
    PhiInputs.find?_eq_some_of_mem (hkeys ▸ Subroutine.nodup_callsReturningTo nodup b) hmem⟩

end Converted

open Edit

namespace FlowGraph

variable {o : SsaOptions} {input f : FlowGraph} {events events' : List Event} {form : SsaForm}

/-- Calls of one subroutine come back to different blocks. -/
theorem Routed.nodup_returns {s : SubroutineId} {sub : Subroutine} (h : f.Routed)
    (hsub : f.subroutine? s = some sub) : (sub.paths.map Prod.snd).Nodup :=
  (List.nodup_flatMap.1 h.returns).1 sub (List.mem_of_getElem? hsub)

namespace Partly

variable {rosters : List Roster} {r : Roster}

theorem isReachable_iff (h : Partly o input rosters f) (coherent : input.Coherent) {b : BlockId} :
    f.isReachable b = true ↔ b ∈ input.graph.reversePostorder entry := by
  rw [isReachable, h.shape.dominators]
  exact Digraph.isReachable_iff coherent.closed coherent.entry

theorem realsAt_eq (h : Partly o input rosters f) (coherent : input.Coherent) (hr : r ∈ rosters)
    {b : BlockId} (hb : f.contains b = true) : r.realsAt f b = .ok (input.realsIn r.var b) :=
  (h.converted r hr).prepared.realsAt_eq
    ((mem_preorder coherent.closed coherent.entry).2 (h.shape.contains ▸ hb)) hb

/-- The definition that a use links to lies in a block that dominates the use. -/
theorem use_dominated (h : Partly o input rosters f) (coherent : input.Coherent) (hr : r ∈ rosters)
    {b : BlockId} (hb : f.isReachable b = true) {n d : NodeId} (hn : n ∈ input.realsIn r.var b)
    (huse : f.tree.defines n = false) (hd : f.tree.linkOf n = .ok (some d)) :
    ∃ e, f.tree.blockOf d = .ok (some e) ∧ f.graph.Dominates entry e b := by
  have hc := h.converted r hr
  have hreach := (h.isReachable_iff coherent).1 hb
  obtain ⟨before, after, hsplit⟩ := List.append_of_mem hn
  obtain ⟨e, he, hdom, -⟩ := hc.prepared.blockOf_dominating
    (lies_realsIn coherent rfl) coherent.closed
    coherent.entry hreach hsplit
      (hc.use_dominated coherent.closed coherent.entry hreach hsplit huse hd)
  have hsuccs : f.graph.successors = input.graph.successors := h.shape.succs
  refine ⟨e, he, ?_⟩
  simpa only [Digraph.Dominates, Digraph.path_iff_route, Digraph.Route, hsuccs] using hdom

theorem renamed (h : Partly o input rosters f) (coherent : input.Coherent) (routed : input.Routed)
    (hr : r ∈ rosters) : r.Renamed f (input.realsIn r.var) (r.leaving f (input.realsIn r.var)) where
  listed b hb := h.realsAt_eq coherent hr hb
  start := by
    rw [h.shape.dominators]
    exact Option.eq_none_iff_forall_ne_some.2 fun d hd =>
      ((Digraph.immediate?_eq_some_iff coherent.closed coherent.entry).1 hd).1 rfl
  leaves b hb := (h.converted r hr).prepared.leaving_eq coherent.closed coherent.entry
    ((h.isReachable_iff coherent).1 hb)
  use b hb := (h.converted r hr).use b ((h.isReachable_iff coherent).1 hb)
  keyed b phi hphi hkind p hp := by
    have hc := h.converted r hr
    obtain ⟨ph, block, operands, hnode, hinputs⟩ := Tree.exists_of_phiKind?_joining hkind
    rw [h.shape.preds, ← hc.keys_joining (hc.prepared.phiAt_ok hphi).2 hnode hinputs] at hp
    obtain ⟨q, hq⟩ := PhiInputs.exists_find? hp
    exact ⟨q, Tree.joinOperandAt_ok.2 ⟨ph, block, operands, hnode, hinputs, hq⟩⟩
  joined b phi hphi p q hq := by
    have hc := h.converted r hr
    obtain ⟨ph, block, operands, hnode, hinputs, hfind⟩ := Tree.joinOperandAt_ok.1 hq
    rw [hc.linkOf_joinOperand (hc.prepared.phiAt_ok hphi).2 hnode hinputs hfind]
    simp only [h.isReachable_iff coherent]
  returned b phi ph hphi hp s operands sub exit hinputs hsub hexit hexits hedge q hq := by
    have hc := h.converted r hr
    rw [h.shape.subroutine?] at hsub
    rw [h.shape.succs] at hedge
    exact hc.linkOf_returnOperand (hc.prepared.phiAt_ok hphi).2 (Tree.phi_ok.1 hp) hinputs hsub
      (routed.nodup_returns hsub) hexit ((h.isReachable_iff coherent).1 hexits) hedge hq
  dominated _ hb _ hn huse _ hd := h.use_dominated coherent hr hb hn huse hd

end Partly

/-- Each variable that is converted is renamed: the definition that leaves a block is the last one
there, else the target of its phi, else what leaves its immediate dominator. -/
theorem toSsa_renamed (made : input.Made) (hoff : o.collapse = false)
    (h : toSsa o ⟨input, events⟩ = .ok form ⟨f, events'⟩) :
    form.vars = (input.occurrences o).map Occurrences.var ∧
      ∀ r ∈ form.rosters, r.Renamed f (input.realsIn r.var)
        (r.leaving f (input.realsIn r.var)) := by
  obtain ⟨hvars, hpartly⟩ := toSsa_ok h made.coherent hoff
  exact ⟨hvars, fun r hr => hpartly.renamed made.coherent made.routed.1 hr⟩

/-- Two branches meet, one of which stores to a local, and a block that is never entered joins them.
Behind them a subroutine is called, and the local is returned. -/
def detour : FlowGraph := (ofLabel 0).requests
  [.addBlock 1, .addBlock 2, .addBlock 3, .addBlock 4, .addBlock 5, .addBlock 6,
    .addEdge ⟨0⟩ ⟨1⟩ .normal, .addEdge ⟨0⟩ ⟨2⟩ .normal, .addEdge ⟨1⟩ ⟨3⟩ .normal,
    .addEdge ⟨2⟩ ⟨3⟩ .normal, .addEdge ⟨4⟩ ⟨3⟩ .normal,
    .addSubroutine ⟨5⟩, .setSubroutineExit ⟨0⟩ ⟨5⟩, .addSubroutineCall ⟨0⟩ ⟨3⟩ ⟨6⟩,
    .tree (.newVariable (.ofLocal 0) .int), .tree (.newLiteral (.int 1)),
    .tree (.newStore ⟨0⟩ ⟨1⟩), .appendStatement ⟨1⟩ ⟨2⟩,
    .tree (.newVariable (.ofLocal 0) .int), .tree (.newReturnValue ⟨3⟩), .appendStatement ⟨6⟩ ⟨4⟩]

/-- The join takes the store from one branch and nothing from the block that is never entered. Its
target goes through the subroutine. -/
theorem detour_renamed : detour.Made ∧ Yields (toSsa {}) ⟨detour, []⟩ fun form m =>
    ∃ r ∈ form.rosters, ∃ join joined back returned taken missing,
      r.phiAt m.value ⟨3⟩ = .ok (some join) ∧ m.value.tree.phi join = .ok joined ∧
      m.value.tree.joinOperandAt join ⟨1⟩ = .ok (some taken) ∧
      m.value.tree.linkOf taken = .ok (some ⟨0⟩) ∧
      m.value.tree.joinOperandAt join ⟨4⟩ = .ok (some missing) ∧
      m.value.tree.linkOf missing = .ok none ∧
      r.phiAt m.value ⟨6⟩ = .ok (some back) ∧ m.value.tree.phi back = .ok returned ∧
      ∀ q ∈ returned.operands, m.value.tree.linkOf q = .ok (some joined.target) := by
  have made : detour.Made := ⟨0, _, rfl⟩
  obtain ⟨form, m, hrun, hfirst, hnever, hexit, hedge, hsub⟩ :
      Yields (toSsa {}) ⟨detour, []⟩ fun _ m =>
      m.value.isReachable ⟨1⟩ = true ∧ m.value.isReachable ⟨4⟩ = false ∧
      m.value.isReachable ⟨5⟩ = true ∧ ⟨6⟩ ∈ m.value.succs ⟨5⟩ ∧
      m.value.subroutine? ⟨0⟩ = some ⟨⟨0⟩, ⟨5⟩, some ⟨5⟩, [(⟨3⟩, ⟨6⟩)]⟩ := by decide +kernel
  obtain ⟨r, hr, hjoin, hjoined, htaken, hmissing, hback, hreturned, hstore, hthrough⟩ :=
    (yields_of_ok (P := fun form m => ∃ r ∈ form.rosters,
      r.phiAt m.value ⟨3⟩ = .ok (some ⟨13⟩) ∧
        m.value.tree.phi ⟨13⟩ = .ok ⟨⟨9⟩, .joining ⟨3⟩ [(⟨1⟩, ⟨10⟩), (⟨2⟩, ⟨11⟩), (⟨4⟩, ⟨12⟩)]⟩ ∧
        m.value.tree.joinOperandAt ⟨13⟩ ⟨1⟩ = .ok (some ⟨10⟩) ∧
        m.value.tree.joinOperandAt ⟨13⟩ ⟨4⟩ = .ok (some ⟨12⟩) ∧
        r.phiAt m.value ⟨6⟩ = .ok (some ⟨8⟩) ∧
        m.value.tree.phi ⟨8⟩ = .ok ⟨⟨6⟩, .returning ⟨0⟩ [(⟨3⟩, ⟨7⟩)]⟩ ∧
        r.leaving m.value (detour.realsIn r.var) ⟨1⟩ = some ⟨0⟩ ∧
        r.leaving m.value (detour.realsIn r.var) ⟨5⟩ = some ⟨9⟩) hrun).1 (by decide +kernel)
  have hrenamed := (toSsa_renamed made rfl hrun).2 r hr
  have hlinked := hrenamed.joined ⟨3⟩ ⟨13⟩ hjoin ⟨1⟩ ⟨10⟩ htaken
  have hunlinked := hrenamed.joined ⟨3⟩ ⟨13⟩ hjoin ⟨4⟩ ⟨12⟩ hmissing
  have hbehind := hrenamed.returned ⟨6⟩ ⟨8⟩ _ hback hreturned _ _ _ _ rfl hsub rfl hexit hedge
  rw [if_pos hfirst, hstore] at hlinked
  rw [if_neg (by simp [hnever])] at hunlinked
  exact ⟨made, form, m, hrun, r, hr, ⟨13⟩, _, ⟨8⟩, _, ⟨10⟩, ⟨12⟩, hjoin, hjoined, htaken,
    hlinked, hmissing, hunlinked, hback, hreturned, hthrough ▸ hbehind⟩

end FlowGraph

end MethodFlow
