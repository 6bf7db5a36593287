import MethodFlow.Proofs.Ssa.Conversion

/-!
What phis merge. A phi has an operand for each definition that comes in the way its kind looks at:
along an edge for a join, from a protected block for a handler, and from the exit of the subroutine
for a return.
-/

namespace MethodFlow

/-- The block `p` feeds a phi at `b` with these inputs. -/
def FlowGraph.Feeds (f : FlowGraph) (p b : BlockId) : PhiInputs → Prop
  | .joining _ _ => True
  | .catching _ => ∃ h ∈ f.handlersProtecting p, h.entry = b
  | .returning s _ => ∃ sub, f.subroutine? s = some sub ∧ sub.exit = some p

theorem PhiInputs.exists_find? {operands : List (BlockId × NodeId)} {key : BlockId}
    (h : key ∈ operands.map Prod.fst) : ∃ q, PhiInputs.find? operands key = some q := by
  obtain ⟨p, hp, rfl⟩ := List.mem_map.1 h
  have hsome : (operands.find? fun q => q.1 = p.1).isSome :=
    List.find?_isSome.2 ⟨p, hp, by simp⟩
  obtain ⟨q, hq⟩ := Option.isSome_iff_exists.1 hsome
  exact ⟨q.2, by rw [PhiInputs.find?, hq, Option.map_some]⟩

namespace Converted

variable {o : SsaOptions} {base f : FlowGraph} {scope : NodeId → Var → Prop}
  {reals : BlockId → List NodeId}
  {r : Roster} {b p : BlockId} {phi : NodeId} {ph : Phi}

theorem newPhi (h : Converted o base scope reals r f) (hphi : r.phi? b = some phi)
    (hp : f.tree.node? phi = some (.phi ph)) :
    Roster.NewPhi (Roster.Admits o) base f r.var b phi ph :=
  h.prepared.newPhi hphi hp

/-- An operand of a phi is a use, so that it stands for what it links to. -/
theorem definitionOf_operand (h : Converted o base scope reals r f) (hphi : r.phi? b = some phi)
    (hp : f.tree.node? phi = some (.phi ph)) {q : NodeId} (hq : q ∈ ph.operands)
    {d : Option NodeId} (hlink : f.tree.linkOf q = .ok d) : f.tree.definitionOf q = .ok d := by
  obtain ⟨o', hs, -, hd⟩ := (h.newPhi hphi hp).holds.operand q hq
  obtain ⟨o'', ho, rfl⟩ := Tree.linkOf_ok.1 hlink
  obtain rfl : o' = o'' := by simpa [Tree.node?, hs] using ho
  exact Tree.definitionOf_ok.2 ⟨o', ho, by simp [Occurrence.definition, hd]⟩

theorem keys_joining (h : Converted o base scope reals r f) (hphi : r.phi? b = some phi)
    (hp : f.tree.node? phi = some (.phi ph)) {block : BlockId} {operands : List (BlockId × NodeId)}
    (hinputs : ph.inputs = .joining block operands) : operands.map Prod.fst = base.preds b := by
  have hadmits := (h.newPhi hphi hp).admitted
  rwa [hinputs] at hadmits

/-- A join has an operand for each predecessor. -/
theorem exists_joinOperand (h : Converted o base scope reals r f) (hphi : r.phi? b = some phi)
    (hp : f.tree.node? phi = some (.phi ph)) {block : BlockId} {operands : List (BlockId × NodeId)}
    (hinputs : ph.inputs = .joining block operands)
    (hpr : p ∈ base.graph.reversePostorder FlowGraph.entry) (hedge : b ∈ base.succs p) :
    ∃ q, PhiInputs.find? operands p = some q ∧ q ∈ ph.operands ∧
      f.tree.linkOf q = .ok (r.leaving f reals p) := by
  obtain ⟨q, hq⟩ : ∃ q, PhiInputs.find? operands p = some q := by
    apply PhiInputs.exists_find?
    rw [h.keys_joining hphi hp hinputs]
    exact Digraph.mem_predecessors_iff.2 hedge
  have hfed : q ∈ ph.fed base.subroutine? p b := by simp [Phi.fed, hinputs, hq]
  exact ⟨q, hq, Phi.mem_operands_of_fed hfed, h.fed p hpr b hedge phi ph hphi hp q hfed⟩

/-- A phi behind a subroutine has an operand for what leaves the exit. -/
theorem exists_returnOperand (h : Converted o base scope reals r f) (hphi : r.phi? b = some phi)
    (hp : f.tree.node? phi = some (.phi ph)) {s : SubroutineId}
    {operands : List (BlockId × NodeId)} (hinputs : ph.inputs = .returning s operands)
    {sub : Subroutine} (hsub : base.subroutine? s = some sub) (hexit : sub.exit = some p)
    (hpr : p ∈ base.graph.reversePostorder FlowGraph.entry) (hedge : b ∈ base.succs p) :
    ∃ q ∈ ph.operands, f.tree.linkOf q = .ok (r.leaving f reals p) := by
  have hadmits := (h.newPhi hphi hp).admitted
  rw [hinputs] at hadmits
  obtain ⟨-, -, sub', hsub', hreturns, hkeys⟩ := hadmits
  obtain rfl : sub = sub' := by simpa [hsub] using hsub'
  obtain ⟨call, hcall⟩ := Subroutine.exists_call hreturns
  obtain ⟨q, hq⟩ := PhiInputs.exists_find? (hkeys ▸ hcall)
  have hfed : q ∈ ph.fed base.subroutine? p b := by
    simp only [Phi.fed, hinputs, hsub, hexit, if_true]
    exact List.mem_filterMap.2 ⟨call, hcall, hq⟩
  exact ⟨q, Phi.mem_operands_of_fed hfed, h.fed p hpr b hedge phi ph hphi hp q hfed⟩

theorem mem_live_of_leaving (h : Converted o base scope reals r f) (closed : base.graph.Closed)
    (hentry : base.contains FlowGraph.entry = true)
    (hpr : p ∈ base.graph.reversePostorder FlowGraph.entry) {d : NodeId}
    (hd : r.leaving f reals p = some d) : d ∈ r.live f reals p := by
  rw [h.prepared.leaving_eq closed hentry hpr] at hd
  rcases Option.or_eq_some_iff.1 hd with hlast | ⟨-, hhead⟩
  · obtain ⟨hmem, hdefines⟩ := Tree.mem_of_lastDefinition hlast
    exact List.mem_append_right _ (List.mem_filter.2 ⟨hmem, hdefines⟩)
  · exact List.mem_append_left _ (Option.mem_toList.2 hhead)

/-- What leaves a block that feeds a phi is merged there. -/
theorem exists_operand (h : Converted o base scope reals r f) (closed : base.graph.Closed)
    (hentry : base.contains FlowGraph.entry = true) (hphi : r.phi? b = some phi)
    (hp : f.tree.node? phi = some (.phi ph)) (hfeeds : base.Feeds p b ph.inputs)
    (hpr : p ∈ base.graph.reversePostorder FlowGraph.entry) (hedge : b ∈ base.succs p) {d : NodeId}
    (hd : r.leaving f reals p = some d) :
    ∃ q ∈ ph.operands, f.tree.definitionOf q = .ok (some d) := by
  cases hinputs : ph.inputs with
  | joining block operands =>
    obtain ⟨q, -, hq, hlink⟩ := h.exists_joinOperand hphi hp hinputs hpr hedge
    exact ⟨q, hq, h.definitionOf_operand hphi hp hq (hd ▸ hlink)⟩
  | catching operands =>
    rw [hinputs] at hfeeds
    obtain ⟨handler, hprotects, rfl⟩ := hfeeds
    have hkind : f.tree.phiKind? phi = some .catching := by
      simp [Tree.phiKind?, hp, Phi.kind, hinputs]
    obtain ⟨ph', q, hp', hq, hdef⟩ := h.caught p hpr handler hprotects phi hphi hkind d
      (h.mem_live_of_leaving closed hentry hpr hd)
    obtain rfl : ph = ph' := by simpa [hp] using hp'
    exact ⟨q, hq, hdef⟩
  | returning s operands =>
    rw [hinputs] at hfeeds
    obtain ⟨sub, hsub, hexit⟩ := hfeeds
    obtain ⟨q, hq, hlink⟩ := h.exists_returnOperand hphi hp hinputs hsub hexit hpr hedge
    exact ⟨q, hq, h.definitionOf_operand hphi hp hq (hd ▸ hlink)⟩

end Converted

end MethodFlow
