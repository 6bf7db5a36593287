import MethodFlow.Proofs.Ssa.Collapse
import MethodFlow.Proofs.Ssa.Paths
import MethodFlow.Proofs.Ssa.Requests

/-!
What can be relied on after a conversion.
-/

namespace MethodFlow

open Edit

/-- Nothing but joins can have phis: those at handlers and behind subroutines are switched off, or
there is no place for them. -/
structure FlowGraph.JoinsOnly (f : FlowGraph) (o : SsaOptions) : Prop where
  catching : o.catchPhis = false ∨ f.handlers = []
  returning : o.returnPhis = false ∨ ∀ sub ∈ f.subroutines, sub.exit = none

def SsaForm.AllJoins (form : SsaForm) (f : FlowGraph) : Prop :=
  ∀ r ∈ form.rosters, ∀ b phi, r.phiAt f b = .ok (some phi) → f.tree.phiKind? phi = some .joining

section

variable {o : SsaOptions} {base input f : FlowGraph} {scope : NodeId → Var → Prop}
  {reals : BlockId → List NodeId} {r : Roster} {b p : BlockId} {phi : NodeId} {ph : Phi}

namespace Converted

theorem exists_phi (h : Converted o base scope reals r f) (hphi : r.phiAt f b = .ok (some phi)) :
    ∃ ph, f.tree.node? phi = some (.phi ph) ∧
      Roster.NewPhi (Roster.Admits o) base f r.var b phi ph := by
  obtain ⟨ph, hnew⟩ := h.prepared.phi b phi (h.prepared.phiAt_ok hphi).2
  exact ⟨ph, hnew.holds.node?, hnew⟩

/-- Where only joins can have phis, only joins have. -/
theorem phiKind?_eq_joining (h : Converted o base scope reals r f) (hjoins : base.JoinsOnly o)
    (hphi : r.phiAt f b = .ok (some phi)) : f.tree.phiKind? phi = some .joining := by
  obtain ⟨ph, hp, hnew⟩ := h.exists_phi hphi
  have hadmits := hnew.admitted
  cases hinputs : ph.inputs with
  | joining block operands => simp [Tree.phiKind?, hp, Phi.kind, hinputs]
  | catching operands =>
    rw [hinputs] at hadmits
    obtain ⟨hoption, -, hblock⟩ := hadmits
    rcases hjoins.catching with hoff | hnone
    · simp [hoff] at hoption
    · simp [FlowGraph.catchBlocks, hnone, firstOccurrences] at hblock
  | returning s operands =>
    rw [hinputs] at hadmits
    obtain ⟨hoption, ⟨sub, hsub, hexit⟩, -⟩ := hadmits
    rcases hjoins.returning with hoff | hnone
    · simp [hoff] at hoption
    · simp [hnone sub hsub] at hexit

/-- A phi at a join takes from each predecessor what leaves it. -/
theorem joinOperandAt (h : Converted o base scope reals r f)
    (hphi : r.phiAt f b = .ok (some phi)) (hkind : f.tree.phiKind? phi = some .joining)
    (hp : p ∈ base.graph.reversePostorder FlowGraph.entry) (hedge : b ∈ base.succs p) :
    ∃ q, f.tree.joinOperandAt phi p = .ok (some q) ∧
      f.tree.linkOf q = .ok (r.leaving f reals p) := by
  obtain ⟨ph, block, operands, hnode, hinputs⟩ := Tree.exists_of_phiKind?_joining hkind
  obtain ⟨q, hq, -, hlink⟩ :=
    h.exists_joinOperand (h.prepared.phiAt_ok hphi).2 hnode hinputs hp hedge
  exact ⟨q, Tree.joinOperandAt_ok.2 ⟨ph, block, operands, hnode, hinputs, hq⟩, hlink⟩

end Converted

end

namespace FlowGraph

variable {o : SsaOptions} {input f : FlowGraph} {events events' : List Event} {form : SsaForm}

/-- Where phis merge at joins only, every use links to the definition met last on the way to it,
whatever way is taken. The operand that a phi has for an edge links to the definition met last on
the way to that edge. -/
theorem toSsa_links (made : input.Made) (hoff : o.collapse = false)
    (h : toSsa o ⟨input, events⟩ = .ok form ⟨f, events'⟩) :
    form.vars = (input.occurrences o).map Occurrences.var ∧
    (input.JoinsOnly o → form.AllJoins f) ∧
    (form.AllJoins f → ∀ r ∈ form.rosters, ∀ path p, f.graph.Route entry path p →
      let met := path.flatMap (r.met f (input.realsIn r.var))
      (∀ before n after, met = before ++ n :: after → f.tree.defines n = false →
        f.tree.linkOf n = .ok (f.tree.lastDefinition before)) ∧
      ∀ b ∈ f.succs p, ∀ phi, r.phiAt f b = .ok (some phi) →
        ∃ q, f.tree.joinOperandAt phi p = .ok (some q) ∧
          f.tree.linkOf q = .ok (f.tree.lastDefinition met)) := by
  have coherent := made.coherent
  obtain ⟨hvars, hpartly⟩ := toSsa_ok h coherent hoff
  refine ⟨hvars, fun hjoins r hr b phi hphi => ?_, fun hjoins r hr path p hroute => ?_⟩
  · exact (hpartly.converted r hr).phiKind?_eq_joining hjoins hphi
  · have hc := hpartly.converted r hr
    have hsuccs : f.graph.successors = input.graph.successors := hpartly.shape.succs
    have hroute : input.graph.Route entry path p := by rwa [Digraph.Route, ← hsuccs]
    obtain ⟨huses, hlast⟩ := hc.links_along coherent.closed coherent.entry hroute
    refine ⟨huses, fun b hb phi hphi => ?_⟩
    rw [hlast]
    refine hc.joinOperandAt hphi (hjoins r hr b phi hphi) ?_ (by rwa [← hpartly.shape.succs])
    exact (Digraph.path_iff_mem coherent.closed coherent.entry).1
      (Digraph.path_iff_route.2 ⟨path, hroute⟩)

/-- Two branches that store to a local and meet again, where it is returned. -/
def diamond : FlowGraph := (ofLabel 0).requests
  [.addBlock 1, .addBlock 2, .addBlock 3,
    .addEdge ⟨0⟩ ⟨1⟩ .normal, .addEdge ⟨0⟩ ⟨2⟩ .normal, .addEdge ⟨1⟩ ⟨3⟩ .normal,
    .addEdge ⟨2⟩ ⟨3⟩ .normal,
    .tree (.newVariable (.ofLocal 0) .int), .tree (.newLiteral (.int 1)),
    .tree (.newStore ⟨0⟩ ⟨1⟩), .appendStatement ⟨1⟩ ⟨2⟩,
    .tree (.newVariable (.ofLocal 0) .int), .tree (.newLiteral (.int 2)),
    .tree (.newStore ⟨3⟩ ⟨4⟩), .appendStatement ⟨2⟩ ⟨5⟩,
    .tree (.newVariable (.ofLocal 0) .int), .tree (.newReturnValue ⟨6⟩), .appendStatement ⟨3⟩ ⟨7⟩]

/-- On the way over the first branch, the operand of the phi links to the store there. -/
theorem diamond_links : diamond.Made ∧ diamond.JoinsOnly {} ∧
    Yields (toSsa {}) ⟨diamond, []⟩ fun form m =>
      ∃ r ∈ form.rosters, ∃ phi, r.phiAt m.value ⟨3⟩ = .ok (some phi) ∧
        ∃ q, m.value.tree.joinOperandAt phi ⟨1⟩ = .ok (some q) ∧
          m.value.tree.linkOf q = .ok (some ⟨0⟩) := by
  have made : diamond.Made := ⟨0, _, rfl⟩
  have joins : diamond.JoinsOnly {} := ⟨.inr (by decide +kernel), .inr (by decide +kernel)⟩
  obtain ⟨form, m, hrun, ⟨r, hr, hphi, hlast⟩, hfork, hjoin⟩ :
      Yields (toSsa {}) ⟨diamond, []⟩ fun form m =>
        (∃ r ∈ form.rosters, r.phiAt m.value ⟨3⟩ = .ok (some ⟨12⟩) ∧
          m.value.tree.lastDefinition
            ([entry, ⟨1⟩].flatMap (r.met m.value (diamond.realsIn r.var))) = some ⟨0⟩) ∧
        ⟨1⟩ ∈ m.value.graph.successors entry ∧ ⟨3⟩ ∈ m.value.succs ⟨1⟩ := by decide +kernel
  obtain ⟨-, honly, hlinks⟩ := toSsa_links made rfl hrun
  have hmerge := (hlinks (honly joins) r hr _ _ (.extend .start hfork)).2 ⟨3⟩ hjoin ⟨12⟩ hphi
  exact ⟨made, joins, form, m, hrun, r, hr, ⟨12⟩, hphi, hlast ▸ hmerge⟩

/-- A phi has an operand for each definition that leaves a predecessor which feeds it. -/
theorem toSsa_merges (made : input.Made) (hoff : o.collapse = false)
    (h : toSsa o ⟨input, events⟩ = .ok form ⟨f, events'⟩) :
    ∀ r ∈ form.rosters, ∀ b phi, r.phiAt f b = .ok (some phi) → ∃ ph, f.tree.phi phi = .ok ph ∧
      ∀ p, f.isReachable p = true → b ∈ f.succs p → f.Feeds p b ph.inputs →
        ∀ d, r.leaving f (input.realsIn r.var) p = some d →
          ∃ q ∈ ph.operands, f.tree.definitionOf q = .ok (some d) := by
  intro r hr b phi hphi
  have coherent := made.coherent
  have hpartly := (toSsa_ok h coherent hoff).2
  have hc := hpartly.converted r hr
  obtain ⟨ph, hp, -⟩ := hc.exists_phi hphi
  refine ⟨ph, Tree.phi_ok.2 hp, fun p hreach hedge hfeeds d hd => ?_⟩
  have hfeeds : input.Feeds p b ph.inputs := by
    cases hinputs : ph.inputs with
    | joining block operands => trivial
    | catching operands =>
      rw [hinputs] at hfeeds
      simpa only [Feeds, hpartly.shape.handlersProtecting] using hfeeds
    | returning s operands =>
      rw [hinputs] at hfeeds
      simpa only [Feeds, hpartly.shape.subroutine?] using hfeeds
  refine hc.exists_operand coherent.closed coherent.entry (hc.prepared.phiAt_ok hphi).2 hp hfeeds
    ?_ (by rwa [← hpartly.shape.succs]) hd
  rw [isReachable, hpartly.shape.dominators] at hreach
  exact (Digraph.isReachable_iff coherent.closed coherent.entry).1 hreach

/-- Two branches that store to a local and meet again, where it is returned. One of them gets there
as a protected block gets to its handler. -/
def clash : FlowGraph := (ofLabel 0).requests
  [.addBlock 1, .addBlock 2, .addBlock 3,
    .addEdge ⟨0⟩ ⟨1⟩ .normal, .addEdge ⟨0⟩ ⟨2⟩ .normal, .addEdge ⟨2⟩ ⟨3⟩ .normal,
    .addHandler [⟨1⟩] ⟨3⟩ none,
    .tree (.newVariable (.ofLocal 0) .int), .tree (.newLiteral (.int 1)),
    .tree (.newStore ⟨0⟩ ⟨1⟩), .appendStatement ⟨1⟩ ⟨2⟩,
    .tree (.newVariable (.ofLocal 0) .int), .tree (.newLiteral (.int 2)),
    .tree (.newStore ⟨3⟩ ⟨4⟩), .appendStatement ⟨2⟩ ⟨5⟩,
    .tree (.newVariable (.ofLocal 0) .int), .tree (.newReturnValue ⟨6⟩), .appendStatement ⟨3⟩ ⟨7⟩]

/-- What leaves the protected branch is merged. -/
theorem clash_merges : clash.Made ∧ Yields (toSsa {}) ⟨clash, []⟩ fun form m =>
      ∃ r ∈ form.rosters, ∃ phi, r.phiAt m.value ⟨3⟩ = .ok (some phi) ∧ ∃ ph,
        m.value.tree.phi phi = .ok ph ∧ ph.kind = .catching ∧
        ∃ q ∈ ph.operands, m.value.tree.definitionOf q = .ok (some ⟨0⟩) := by
  have made : clash.Made := ⟨0, _, rfl⟩
  obtain ⟨form, m, hrun, ⟨r, hr, hphi, hkind, hleaves⟩, hreach, hedge, hhandler⟩ :
      Yields (toSsa {}) ⟨clash, []⟩ fun form m =>
        (∃ r ∈ form.rosters, r.phiAt m.value ⟨3⟩ = .ok (some ⟨10⟩) ∧
          m.value.tree.phiKind? ⟨10⟩ = some .catching ∧
          r.leaving m.value (clash.realsIn r.var) ⟨1⟩ = some ⟨0⟩) ∧
        m.value.isReachable ⟨1⟩ = true ∧ ⟨3⟩ ∈ m.value.succs ⟨1⟩ ∧
        ∃ h ∈ m.value.handlersProtecting ⟨1⟩, h.entry = ⟨3⟩ := by decide +kernel
  obtain ⟨ph, hph, hmerged⟩ := toSsa_merges made rfl hrun r hr ⟨3⟩ ⟨10⟩ hphi
  have hcatch : ph.kind = .catching := by
    simpa [Tree.phiKind?, Tree.phi_ok.1 hph] using hkind
  refine ⟨made, form, m, hrun, r, hr, ⟨10⟩, hphi, ph, hph, hcatch,
    hmerged ⟨1⟩ hreach hedge ?_ ⟨0⟩ hleaves⟩
  cases hinputs : ph.inputs with
  | catching operands => exact hhandler
  | joining block operands => simp [Phi.kind, hinputs] at hcatch
  | returning s operands => simp [Phi.kind, hinputs] at hcatch

/-- What leaves the other branch is not: the phi at the handler stands in the place of one at the
join. -/
theorem clash_loses : clash.Made ∧ Yields (toSsa {}) ⟨clash, []⟩ fun form m =>
    ∃ r ∈ form.rosters, ∃ phi operands, r.phiAt m.value ⟨3⟩ = .ok (some phi) ∧
      m.value.tree.phiOperands phi = .ok operands ∧ m.value.isReachable ⟨3⟩ = true ∧
      m.value.isReachable ⟨2⟩ = true ∧ ⟨3⟩ ∈ m.value.succs ⟨2⟩ ∧
      ∃ d, r.leaving m.value (clash.realsIn r.var) ⟨2⟩ = some d ∧
        ∀ q ∈ operands, m.value.tree.definitionOf q ≠ .ok (some d) := by
  obtain ⟨form, m, hrun, hreach, hbranch, hedge, r, hr, hphi, hoperands, hleaves, hmissing⟩ :
      Yields (toSsa {}) ⟨clash, []⟩ fun form m =>
        m.value.isReachable ⟨3⟩ = true ∧ m.value.isReachable ⟨2⟩ = true ∧ ⟨3⟩ ∈ m.value.succs ⟨2⟩ ∧
        ∃ r ∈ form.rosters, r.phiAt m.value ⟨3⟩ = .ok (some ⟨10⟩) ∧
          m.value.tree.phiOperands ⟨10⟩ = .ok [⟨11⟩] ∧
          r.leaving m.value (clash.realsIn r.var) ⟨2⟩ = some ⟨3⟩ ∧
          ∀ q ∈ [(⟨11⟩ : NodeId)], m.value.tree.definitionOf q ≠ .ok (some ⟨3⟩) := by decide +kernel
  exact ⟨⟨0, _, rfl⟩, form, m, hrun, r, hr, ⟨10⟩, [⟨11⟩], hphi, hoperands, hreach,
    hbranch, hedge, ⟨3⟩, hleaves, hmissing⟩

/-- The phis of a roster that do not take every way into their blocks by their kind, those at
handlers, behind subroutines and at the entry, do so here. -/
def Entered (f : FlowGraph) (reals : BlockId → List NodeId) (r : Roster) : Prop :=
  ∀ b, f.isReachable b = true → ∀ phi ph, r.phiAt f b = .ok (some phi) → f.tree.phi phi = .ok ph →
    b = entry ∨ ph.kind ≠ .joining → r.Covers f reals b ph

theorem nodup_vars (f : FlowGraph) (o : SsaOptions) :
    ((f.occurrences o).map Occurrences.var).Nodup := by
  rw [List.Nodup, List.pairwise_map]
  exact pairwise_occurrences f o

/-- A converted graph is in order, and so are the links where the phis take every way in. -/
theorem Partly.tidy {s : Bench SsaForm} (h : Partly o input s.own.rosters s.flow)
    (hvars : s.own.vars.Nodup) (coherent : input.Coherent) :
    FormEdit.Tidy o input (fun v => ∃ r ∈ s.own.rosters, r.var = v ∧
      s.flow.Entered (input.realsIn v) r) s where
  shape := h.shape
  kept := h.kept
  nodup := hvars
  prepared r hr := (h.converted r hr).prepared
  lists := h.lists
  order := h.order
  dominated r hr := by
    rintro ⟨r', hr', hvar, hentered⟩
    obtain rfl : r' = r := List.inj_on_of_nodup_map hvars hr' hr hvar
    have hc := h.converted r' hr
    refine hc.dominated coherent.closed coherent.entry fun b hb phi ph hphi hp hkind => ?_
    have hcontains : input.contains b = true :=
      Digraph.contains_of_mem_preorder coherent.closed coherent.entry
        ((Digraph.mem_reversePostorder coherent.closed coherent.entry).1 hb)
    refine hentered b ?_ phi ph (hc.prepared.phiAt_of_phi? hcontains hphi) (Tree.phi_ok.2 hp) hkind
    rw [isReachable, h.shape.dominators]
    exact (Digraph.isReachable_iff coherent.closed coherent.entry).2 hb

/-- After phis that merge a single definition have been removed, the definition that a use links to
dominates the use, as long as the phis at handlers, behind subroutines and at the entry take every
way into their blocks. -/
theorem toSsa_dominates (made : input.Made) (hon : o.collapse = true)
    (h : toSsa o ⟨input, events⟩ = .ok form ⟨f, events'⟩) :
    ∃ plain m, toSsa { o with collapse := false } ⟨input, events⟩ = .ok plain m ∧
      ∀ r₀ ∈ plain.rosters, m.value.Entered (input.realsIn r₀.var) r₀ →
        ∀ r ∈ form.rosters, r.var = r₀.var → ∀ b, f.isReachable b = true →
          ∀ before n after, input.realsIn r.var b = before ++ n :: after →
            f.tree.defines n = false → ∀ d, f.tree.linkOf n = .ok (some d) →
              ∃ e, f.tree.blockOf d = .ok (some e) ∧ f.graph.Dominates entry e b ∧
                (e = b → d ∈ (r.targetAt? f b).toList ++ before) := by
  have coherent := made.coherent
  obtain ⟨plain, m, hplain, count, hcollapse⟩ := toSsa_collapse h hon
  obtain ⟨hvars, hpartly⟩ := toSsa_ok hplain coherent rfl
  have hnodup : plain.vars.Nodup := hvars ▸ nodup_vars input _
  have hstart := Partly.tidy (s := ⟨m.value, plain⟩) hpartly hnodup coherent
  obtain ⟨htidy, -⟩ := hstart.collapse coherent hcollapse
  refine ⟨plain, m, hplain,
    fun r₀ hr₀ hentered r hr hvar b hb before n after hsplit huse d hd => ?_⟩
  have hdominated := htidy.dominated r hr ⟨r₀, hr₀, hvar.symm, hvar ▸ hentered⟩
  rw [isReachable, htidy.shape.dominators] at hb
  obtain ⟨e, he, hdom, hsame⟩ := hdominated.blockOf (htidy.prepared r hr)
    (lies_realsIn coherent rfl) coherent.closed coherent.entry
    ((Digraph.isReachable_iff coherent.closed coherent.entry).1 hb) hsplit huse hd
  have hsuccs : f.graph.successors = input.graph.successors := htidy.shape.succs
  refine ⟨e, he, ?_, hsame⟩
  simpa only [Digraph.Dominates, Digraph.path_iff_route, Digraph.Route, hsuccs] using hdom

/-- A local is stored to in front of a protected block, and its handler returns it. -/
def guarded : FlowGraph := (ofLabel 0).requests
  [.addBlock 1, .addBlock 2, .addEdge ⟨0⟩ ⟨1⟩ .normal, .addHandler [⟨1⟩] ⟨2⟩ none,
    .tree (.newVariable (.ofLocal 0) .int), .tree (.newLiteral (.int 1)),
    .tree (.newStore ⟨0⟩ ⟨1⟩), .appendStatement ⟨0⟩ ⟨2⟩,
    .tree (.newVariable (.ofLocal 0) .int), .tree (.newReturnValue ⟨3⟩), .appendStatement ⟨2⟩ ⟨4⟩]

/-- The phi at the handler gives way to the store, which dominates it. -/
theorem guarded_dominates : guarded.Made ∧
    Yields (toSsa { collapse := true }) ⟨guarded, []⟩ fun form m =>
      form.phiCount = 0 ∧ m.value.tree.linkOf ⟨3⟩ = .ok (some ⟨0⟩) ∧
        ∃ e, m.value.tree.blockOf ⟨0⟩ = .ok (some e) ∧ m.value.graph.Dominates entry e ⟨2⟩ := by
  have made : guarded.Made := ⟨0, _, rfl⟩
  obtain ⟨form, m, hrun, hreach, ⟨r, hr, hvar, hsplit⟩, hcount, huse, hlink⟩ :
      Yields (toSsa { collapse := true }) ⟨guarded, []⟩ fun form m =>
        m.value.isReachable ⟨2⟩ = true ∧
        (∃ r ∈ form.rosters, r.var = .ofLocal 0 ∧ guarded.realsIn r.var ⟨2⟩ = [] ++ ⟨3⟩ :: []) ∧
        form.phiCount = 0 ∧ m.value.tree.defines ⟨3⟩ = false ∧
        m.value.tree.linkOf ⟨3⟩ = .ok (some ⟨0⟩) := by decide +kernel
  obtain ⟨plain, m₀, hplain, hdominates⟩ := toSsa_dominates made rfl hrun
  -- The one phi before the removal is the handler's, whose operand stands for what comes in.
  obtain ⟨r₀, hr₀, hvar₀, hothers, hcaught, hway⟩ := (yields_of_ok (P := fun form m =>
    ∃ r ∈ form.rosters, r.var = .ofLocal 0 ∧
      (∀ b ∈ m.value.blocks, r.phiAt m.value b = .ok none ∨
        b = ⟨2⟩ ∧ r.phiAt m.value b = .ok (some ⟨7⟩)) ∧
      m.value.tree.phi ⟨7⟩ = .ok ⟨⟨6⟩, .catching [⟨8⟩]⟩ ∧
      ∀ c ∈ m.value.graph.reversePostorder entry, ⟨2⟩ ∈ m.value.succs c →
        m.value.tree.definitionOf ⟨8⟩ = .ok (r.leaving m.value (guarded.realsIn r.var) c))
    hplain).1 (by decide +kernel)
  have hentered : m₀.value.Entered (guarded.realsIn r₀.var) r₀ := by
    intro b _ phi ph hphi hph _
    obtain ⟨record, hrecord, -⟩ := Roster.phiAt_ok.1 hphi
    have hb : b ∈ m₀.value.blocks := Digraph.mem_nodeIds.2 (Roster.recordAt_ok.1 hrecord).2.1
    rcases hothers b hb with hnone | ⟨rfl, hseven⟩
    · simp [hnone] at hphi
    · obtain rfl : ⟨7⟩ = phi := by simpa [hseven] using hphi
      obtain rfl : ⟨⟨6⟩, .catching [⟨8⟩]⟩ = ph := by simpa [hcaught] using hph
      exact ⟨fun h => absurd h (by decide),
        fun c hc hedge => ⟨⟨8⟩, List.mem_singleton.2 rfl, hway c hc hedge⟩⟩
  obtain ⟨e, he, hdom, -⟩ := hdominates r₀ hr₀ hentered r hr (hvar.trans hvar₀.symm) ⟨2⟩ hreach
    [] ⟨3⟩ [] hsplit huse ⟨0⟩ hlink
  exact ⟨made, form, m, hrun, hcount, hlink, e, he, hdom⟩

/-- A loop through the entry, which reads a local that the rest of the loop stores to. -/
def entryLoop : FlowGraph := (ofLabel 0).requests
  [.addBlock 1, .tree (.newVariable (.ofLocal 0) .int), .tree (.newEval ⟨0⟩),
    .appendStatement ⟨0⟩ ⟨1⟩, .tree (.newVariable (.ofLocal 0) .int), .tree (.newLiteral (.int 1)),
    .tree (.newStore ⟨2⟩ ⟨3⟩), .appendStatement ⟨1⟩ ⟨4⟩,
    .addEdge ⟨0⟩ ⟨1⟩ .normal, .addEdge ⟨1⟩ ⟨0⟩ .normal]

/-- At the entry the phi of a loop has no operand for the undefined value that the method starts
with, so it gives way to the one definition in the loop, which does not dominate the entry. -/
theorem entryLoop_not_dominates : entryLoop.Made ∧
    Yields (toSsa { collapse := true }) ⟨entryLoop, []⟩ fun _ m =>
      m.value.tree.blockOf ⟨0⟩ = .ok (some entry) ∧ m.value.tree.linkOf ⟨0⟩ = .ok (some ⟨2⟩) ∧
        m.value.tree.blockOf ⟨2⟩ = .ok (some ⟨1⟩) ∧ ¬m.value.graph.Dominates entry ⟨1⟩ entry := by
  obtain ⟨form, m, hrun, hused, hlink, hstored⟩ :
      Yields (toSsa { collapse := true }) ⟨entryLoop, []⟩ fun _ m =>
        m.value.tree.blockOf ⟨0⟩ = .ok (some entry) ∧ m.value.tree.linkOf ⟨0⟩ = .ok (some ⟨2⟩) ∧
          m.value.tree.blockOf ⟨2⟩ = .ok (some ⟨1⟩) := by decide +kernel
  refine ⟨⟨0, _, rfl⟩, form, m, hrun, hused, hlink, hstored, fun hdom => ?_⟩
  have hstart := hdom.2 [entry] .start
  revert hstart
  decide

end FlowGraph

end MethodFlow
