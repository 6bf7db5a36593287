import MethodFlow.Proofs.Ssa.Merging

/-!
Definitions that dominate the uses linked to them. Where each phi has an operand for every way into
its block, a phi that merges a single definition can give way to it: the definition dominates the
block strictly, so that it dominates whatever the phi does.
-/

namespace MethodFlow

namespace Roster

/-- The definition `d` is met in the block `e`. -/
def Meets (r : Roster) (f : FlowGraph) (reals : BlockId → List NodeId) (e : BlockId) (d : NodeId) :
    Prop := d ∈ r.met f reals e ∧ f.tree.defines d = true

/-- A phi at `b` has an operand for every way into the block: for what leaves each predecessor, and
for the undefined value that the method starts with. -/
structure Covers (r : Roster) (f : FlowGraph) (reals : BlockId → List NodeId) (b : BlockId)
    (p : Phi) : Prop where
  start : b = FlowGraph.entry → ∃ q ∈ p.operands, f.tree.definitionOf q = .ok none
  edge : ∀ c ∈ f.graph.reversePostorder FlowGraph.entry, b ∈ f.succs c →
    ∃ q ∈ p.operands, f.tree.definitionOf q = .ok (r.leaving f reals c)

/-- In the blocks that can be reached, uses link to definitions that dominate them. The operand that
a phi has for an edge stands for no definition or for one that dominates the edge. -/
structure Dominated (base : FlowGraph) (reals : BlockId → List NodeId) (r : Roster)
    (f : FlowGraph) : Prop where
  use : ∀ b ∈ base.graph.reversePostorder FlowGraph.entry, ∀ before n after,
    reals b = before ++ n :: after → f.tree.defines n = false →
      ∀ d, f.tree.linkOf n = .ok (some d) →
        d ∈ (r.targetAt? f b).toList ++ before ∧ f.tree.defines d = true ∨
          ∃ e, base.graph.StrictlyDominates FlowGraph.entry e b ∧ r.Meets f reals e d
  start : ∀ phi p, r.phi? FlowGraph.entry = some phi → f.tree.node? phi = some (.phi p) →
    ∃ q ∈ p.operands, f.tree.definitionOf q = .ok none
  edge : ∀ b phi p, r.phi? b = some phi → f.tree.node? phi = some (.phi p) →
    ∀ c ∈ base.graph.reversePostorder FlowGraph.entry, b ∈ base.succs c →
      ∃ q ∈ p.operands, ∃ x, f.tree.definitionOf q = .ok x ∧
        ∀ d, x = some d → ∃ e, base.graph.Dominates FlowGraph.entry e c ∧ r.Meets f reals e d

section

variable {o : SsaOptions} {base f f' : FlowGraph} {v : Var} {scope : NodeId → Var → Prop}
  {reals : BlockId → List NodeId} {nodes : List NodeId} {r r' : Roster} {b e : BlockId}
  {d phi : NodeId} {p : Phi}

/-- What is met in a block lies there. -/
theorem Prepared.blockOf_met (h : Prepared (Admits o) base v scope reals r f)
    (hlies : Lies base v reals nodes)
    (hd : d ∈ r.met f reals b) : f.tree.blockOf d = .ok (some b) := by
  rcases List.mem_append.1 hd with hd | hd
  · obtain ⟨_, _, -, -, -, hblock⟩ := h.target_occurrence (Option.mem_toList.1 hd)
    exact hblock
  · exact h.kept.keepsPlaces.blockOf (hlies.block b d hd)

theorem Prepared.block_unique (h : Prepared (Admits o) base v scope reals r f)
    (hlies : Lies base v reals nodes) (hb : d ∈ r.met f reals b) (he : d ∈ r.met f reals e) :
    b = e := by
  have := (h.blockOf_met hlies hb).symm.trans (h.blockOf_met hlies he)
  simpa using this

/-- A definition that is met on the way to a point of a block dominates the block. -/
theorem Prepared.blockOf_dominating (hp : Prepared (Admits o) base v scope reals r f)
    (hlies : Lies base v reals nodes) (closed : base.graph.Closed)
    (hentry : base.contains FlowGraph.entry = true)
    (hb : b ∈ base.graph.reversePostorder FlowGraph.entry) {before after : List NodeId}
    (hsplit : reals b = before ++ after)
    (h : d ∈ (r.targetAt? f b).toList ++ before ∧ f.tree.defines d = true ∨
      ∃ e, base.graph.StrictlyDominates FlowGraph.entry e b ∧ r.Meets f reals e d) :
    ∃ e, f.tree.blockOf d = .ok (some e) ∧ base.graph.Dominates FlowGraph.entry e b ∧
      (e = b → d ∈ (r.targetAt? f b).toList ++ before) := by
  rcases h with ⟨hmem, -⟩ | ⟨e, hstrict, hmet, -⟩
  · have hmet : d ∈ r.met f reals b := by
      rw [met, hsplit]
      rcases List.mem_append.1 hmem with hmem | hmem <;> simp [hmem]
    have hself : base.graph.Dominates FlowGraph.entry b b :=
      .refl ((Digraph.path_iff_mem closed hentry).2 hb)
    exact ⟨b, hp.blockOf_met hlies hmet, hself, fun _ => hmem⟩
  · exact ⟨e, hp.blockOf_met hlies hmet, hstrict.2, fun he => absurd he hstrict.1⟩

/-- A use is dominated by the definition that it links to. -/
theorem Dominated.blockOf (h : Dominated base reals r f)
    (hp : Prepared (Admits o) base v scope reals r f)
    (hlies : Lies base v reals nodes) (closed : base.graph.Closed)
    (hentry : base.contains FlowGraph.entry = true)
    (hb : b ∈ base.graph.reversePostorder FlowGraph.entry) {before after : List NodeId} {n : NodeId}
    (hsplit : reals b = before ++ n :: after) (huse : f.tree.defines n = false)
    (hlink : f.tree.linkOf n = .ok (some d)) :
    ∃ e, f.tree.blockOf d = .ok (some e) ∧ base.graph.Dominates FlowGraph.entry e b ∧
      (e = b → d ∈ (r.targetAt? f b).toList ++ before) :=
  hp.blockOf_dominating hlies closed hentry hb hsplit
    (h.use b hb before n after hsplit huse d hlink)

/-- The one definition that a phi merges besides itself dominates the phi. -/
theorem Dominated.exists_strictlyDominates (h : Dominated base reals r f)
    (hp : Prepared (Admits o) base v scope reals r f) (hlies : Lies base v reals nodes)
    (closed : base.graph.Closed) (hentry : base.contains FlowGraph.entry = true)
    (hb : b ∈ base.graph.reversePostorder FlowGraph.entry) (hphi : r.phi? b = some phi)
    (hnode : f.tree.node? phi = some (.phi p))
    (hsole : ∀ q ∈ p.operands, ∃ x, f.tree.definitionOf q = .ok (some x) ∧
      (x = p.target ∨ x = d)) :
    ∃ e, base.graph.StrictlyDominates FlowGraph.entry e b ∧ r.Meets f reals e d := by
  have hpath := (Digraph.path_iff_mem closed hentry).2 hb
  have hne : b ≠ FlowGraph.entry := by
    rintro rfl
    obtain ⟨q, hq, hnone⟩ := h.start phi p hphi hnode
    obtain ⟨x, hx, -⟩ := hsole q hq
    simp [hnone] at hx
  have htarget : p.target ∈ r.met f reals b := by
    simp [met, targetAt?_of_phi? hphi hnode]
  -- An edge that comes from a block below the phi may bring the phi's own target back.
  have hedge (c : BlockId) (hc : base.graph.Path FlowGraph.entry c) (hsucc : b ∈ base.succs c)
      (hclear : ¬base.graph.Dominates FlowGraph.entry b c) :
      ∃ e, base.graph.Dominates FlowGraph.entry e c ∧ r.Meets f reals e d := by
    obtain ⟨q, hq, x, hx, hdom⟩ :=
      h.edge b phi p hphi hnode c ((Digraph.path_iff_mem closed hentry).1 hc) hsucc
    obtain ⟨y, hy, hor⟩ := hsole q hq
    obtain rfl : x = some y := Except.ok.inj (hx.symm.trans hy)
    obtain ⟨e, he, hmeets⟩ := hdom y rfl
    rcases hor with rfl | rfl
    · exact absurd (hp.block_unique hlies htarget hmeets.1 ▸ he) hclear
    · exact ⟨e, he, hmeets⟩
  obtain ⟨path, hroute⟩ := Digraph.path_iff_route.1 hpath
  obtain ⟨before, c, hbefore, hc, hout, -⟩ := hroute.exists_before hne
  obtain ⟨e, he, hmeets⟩ := hedge c (Digraph.path_iff_route.2 ⟨before, hbefore⟩) hc
    fun hdom => hout (hdom.2 before hbefore)
  refine ⟨e, Digraph.strictlyDominates_of_predecessors hpath hne fun c' hc' hsucc hclear => ?_,
    hmeets⟩
  obtain ⟨e', he', hmeets'⟩ := hedge c' hc' hsucc hclear
  rwa [hp.block_unique hlies hmeets.1 hmeets'.1]

/-- Work that puts a definition from further up in the place of some definitions. -/
theorem Dominated.carry (h : Dominated base reals r f) (closed : base.graph.Closed)
    (hentry : base.contains FlowGraph.entry = true) (σ : NodeId → NodeId)
    (hreal : ∀ b, ∀ n ∈ reals b, f'.tree.defines n = f.tree.defines n ∧ σ n = n)
    (hlink : ∀ b ∈ base.graph.reversePostorder FlowGraph.entry, ∀ n ∈ reals b,
      f'.tree.defines n = false → ∀ d, f'.tree.linkOf n = .ok (some d) →
        ∃ d₀, f.tree.linkOf n = .ok (some d₀) ∧ σ d₀ = d)
    (htarget : ∀ b ∈ base.graph.reversePostorder FlowGraph.entry, ∀ d, r.targetAt? f b = some d →
      σ d = d ∧ r'.targetAt? f' b = some d ∧ f'.tree.defines d = true ∨
        ∃ e, base.graph.StrictlyDominates FlowGraph.entry e b ∧ r'.Meets f' reals e (σ d))
    (hphi : ∀ b phi p', r'.phi? b = some phi → f'.tree.node? phi = some (.phi p') →
      ∃ p, r.phi? b = some phi ∧ f.tree.node? phi = some (.phi p) ∧ ∀ q ∈ p.operands, ∀ x,
        f.tree.definitionOf q = .ok x →
          ∃ q' ∈ p'.operands, f'.tree.definitionOf q' = .ok (x.map σ)) :
    Dominated base reals r' f' := by
  have hmeets {b e : BlockId} {d : NodeId} (hdom : base.graph.Dominates FlowGraph.entry e b)
      (hd : r.Meets f reals e d) :
      ∃ e', base.graph.Dominates FlowGraph.entry e' e ∧ r'.Meets f' reals e' (σ d) := by
    have hself : base.graph.Dominates FlowGraph.entry e e := .refl hdom.path
    rcases List.mem_append.1 hd.1 with hmem | hmem
    · have hin := (Digraph.path_iff_mem closed hentry).1 hdom.path
      rcases htarget e hin d (Option.mem_toList.1 hmem) with ⟨hσ, ht, hdef⟩ | ⟨e', he', hd'⟩
      · exact ⟨e, hself, by rw [Meets, met, hσ, ht]; simp [hdef]⟩
      · exact ⟨e', he'.2, hd'⟩
    · obtain ⟨hdef, hσ⟩ := hreal e d hmem
      exact ⟨e, hself, by rw [Meets, met, hσ, hdef]; simp [hmem, hd.2]⟩
  refine ⟨?_, ?_, ?_⟩
  · intro b hb before n after hsplit huse d hd
    have hn : n ∈ reals b := by simp [hsplit]
    obtain ⟨d₀, hd₀, rfl⟩ := hlink b hb n hn huse d hd
    rw [(hreal b n hn).1] at huse
    rcases h.use b hb before n after hsplit huse d₀ hd₀ with ⟨hmem, hdef⟩ | ⟨e, he, hd₀⟩
    · rcases List.mem_append.1 hmem with hmem | hmem
      · rcases htarget b hb d₀ (Option.mem_toList.1 hmem) with ⟨hσ, ht, hdef'⟩ | hup
        · exact .inl ⟨by simp [hσ, ht], by rw [hσ, hdef']⟩
        · exact .inr hup
      · obtain ⟨hsame, hσ⟩ := hreal b d₀ (by simp [hsplit, hmem])
        exact .inl ⟨by simp [hσ, hmem], by rw [hσ, hsame, hdef]⟩
    · obtain ⟨e', he', hd'⟩ := hmeets he.2 hd₀
      refine .inr ⟨e', ⟨?_, he'.trans he.2⟩, hd'⟩
      rintro rfl
      exact he.1 (he.2.antisymm he')
  · intro phi p' hn hp'
    obtain ⟨p, hn, hp, hkeep⟩ := hphi _ phi p' hn hp'
    obtain ⟨q, hq, hnone⟩ := h.start phi p hn hp
    exact hkeep q hq none hnone
  · intro b phi p' hn hp' c hc hsucc
    obtain ⟨p, hn, hp, hkeep⟩ := hphi b phi p' hn hp'
    obtain ⟨q, hq, x, hx, hdom⟩ := h.edge b phi p hn hp c hc hsucc
    obtain ⟨q', hq', hx'⟩ := hkeep q hq x hx
    refine ⟨q', hq', x.map σ, hx', fun d hd => ?_⟩
    obtain ⟨d₀, rfl, rfl⟩ := Option.map_eq_some_iff.1 hd
    obtain ⟨e, he, hd₀⟩ := hdom d₀ rfl
    obtain ⟨e', he', hd'⟩ := hmeets he hd₀
    exact ⟨e', he'.trans he, hd'⟩

end

end Roster

/-- After a conversion every use links to a definition met in front of it or in a block that
strictly dominates its own. -/
theorem Converted.use_dominated {o : SsaOptions} {base f : FlowGraph} {scope : NodeId → Var → Prop}
    {reals : BlockId → List NodeId} {r : Roster} (h : Converted o base scope reals r f)
    (closed : base.graph.Closed) (hentry : base.contains FlowGraph.entry = true) {b : BlockId}
    (hb : b ∈ base.graph.reversePostorder FlowGraph.entry) {before after : List NodeId}
    {n d : NodeId} (hsplit : reals b = before ++ n :: after) (huse : f.tree.defines n = false)
    (hd : f.tree.linkOf n = .ok (some d)) :
    d ∈ (r.targetAt? f b).toList ++ before ∧ f.tree.defines d = true ∨
      ∃ e, base.graph.StrictlyDominates FlowGraph.entry e b ∧ r.Meets f reals e d := by
  have hlink := h.use b hb before n after hsplit huse
  rw [hd, Except.ok.injEq] at hlink
  rcases Option.or_eq_some_iff.1 hlink.symm with hlast | ⟨-, hhead⟩
  · obtain ⟨hmem, hdef⟩ := Tree.mem_of_lastDefinition hlast
    exact .inl ⟨List.mem_append_right _ hmem, hdef⟩
  · rcases Option.or_eq_some_iff.1 hhead with htarget | ⟨-, hentering⟩
    · exact .inl ⟨by simp [htarget], h.prepared.defines_target htarget⟩
    · rw [Roster.entering, h.prepared.shape.dominators] at hentering
      obtain ⟨e, he, hlast⟩ :=
        Digraph.exists_strictlyDominates_of_entering closed hentry hentering
      exact .inr ⟨e, he, Tree.mem_of_lastDefinition hlast⟩

/-- After a conversion every use is dominated, and so is every edge where the phis cover the ways
into their blocks. Phis at joins that are not entered from outside do. -/
theorem Converted.dominated {o : SsaOptions} {base f : FlowGraph} {scope : NodeId → Var → Prop}
    {reals : BlockId → List NodeId} {r : Roster} (h : Converted o base scope reals r f)
    (closed : base.graph.Closed) (hentry : base.contains FlowGraph.entry = true)
    (hcovers : ∀ b ∈ base.graph.reversePostorder FlowGraph.entry, ∀ phi p, r.phi? b = some phi →
      f.tree.node? phi = some (.phi p) → b = FlowGraph.entry ∨ p.kind ≠ .joining →
        r.Covers f reals b p) : r.Dominated base reals f where
  use b hb before n after hsplit huse d hd := h.use_dominated closed hentry hb hsplit huse hd
  start phi p hphi hp := by
    have hin : FlowGraph.entry ∈ base.graph.reversePostorder FlowGraph.entry :=
      (Digraph.path_iff_mem closed hentry).1 (.refl _)
    exact (hcovers _ hin phi p hphi hp (.inl rfl)).start rfl
  edge b phi p hphi hp c hc hsucc := by
    have hb : b ∈ base.graph.reversePostorder FlowGraph.entry :=
      (Digraph.path_iff_mem closed hentry).1
        (((Digraph.path_iff_mem closed hentry).2 hc).step hsucc)
    obtain ⟨q, hq, hdef⟩ : ∃ q ∈ p.operands, f.tree.definitionOf q = .ok (r.leaving f reals c) := by
      by_cases hjoin : b = FlowGraph.entry ∨ p.kind ≠ .joining
      · refine (hcovers b hb phi p hphi hp hjoin).edge c ?_ ?_
        · rwa [h.prepared.shape.reversePostorder]
        · rwa [h.prepared.shape.succs]
      · cases hinputs : p.inputs with
        | joining block operands =>
          obtain ⟨q, -, hq, hlink⟩ := h.exists_joinOperand hphi hp hinputs hc hsucc
          exact ⟨q, hq, h.definitionOf_operand hphi hp hq hlink⟩
        | catching operands => simp [Phi.kind, hinputs] at hjoin
        | returning s operands => simp [Phi.kind, hinputs] at hjoin
    refine ⟨q, hq, _, hdef, fun d hd => ?_⟩
    rw [Roster.leaving, h.prepared.shape.dominators] at hd
    obtain ⟨e, he, hlast⟩ := Digraph.exists_dominates_of_leaving closed hentry hc hd
    exact ⟨e, he, Tree.mem_of_lastDefinition hlast⟩

end MethodFlow
