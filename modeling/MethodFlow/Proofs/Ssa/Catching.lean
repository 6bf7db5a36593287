import MethodFlow.Proofs.Ssa.Linking

/-!
A protected block may be left for its handlers anywhere, so a phi at a handler merges whatever is
live somewhere in the blocks that the handler protects. It has one operand for each such definition.
-/

namespace MethodFlow

/-- What a node is found to stand for tells the definition. -/
theorem Tree.ok_some_injective :
    Function.Injective fun d : NodeId => (.ok (some d) : Except Fault (Option NodeId)) :=
  fun d d' hd => by simpa using hd

namespace Roster

/-- The definition that a path brings to its end `b`: the target of the phi there, or else what is
met last in the blocks in front of it. -/
def arriving (r : Roster) (f : FlowGraph) (reals : BlockId → List NodeId) (path : List BlockId)
    (b : BlockId) : Option NodeId :=
  (r.targetAt? f b).or (f.tree.lastDefinition (path.dropLast.flatMap (r.met f reals)))

/-- The definition is live somewhere in the block: a path brings it there, or the block holds it. -/
def LiveIn (r : Roster) (f : FlowGraph) (reals : BlockId → List NodeId) (b : BlockId)
    (d : NodeId) : Prop :=
  (∃ path, f.graph.Route FlowGraph.entry path b ∧ r.arriving f reals path b = some d) ∨
    d ∈ reals b ∧ f.tree.defines d = true

/-- The phi, which is at a handler in the block `b`, has an operand for each of `definitions`, which
are those that are live in a block that such a handler protects. -/
structure Catches (r : Roster) (f : FlowGraph) (reals : BlockId → List NodeId) (b : BlockId)
    (phi : NodeId) (operands definitions : List NodeId) : Prop where
  read : f.tree.catchOperands phi = .ok operands
  owned : ∀ q ∈ operands, f.tree.varOf q = .ok r.var ∧ f.tree.isDefinition q = .ok false ∧
    f.tree.parent q = .ok (some phi)
  standing : operands.map f.tree.definitionOf = definitions.map fun d => .ok (some d)
  nodup : definitions.Nodup
  live : ∀ d, d ∈ definitions ↔ ∃ c, f.isReachable c = true ∧
    (∃ h ∈ f.handlersProtecting c, h.entry = b) ∧ r.LiveIn f reals c d

end Roster

namespace Converted

variable {o : SsaOptions} {base f : FlowGraph} {scope : NodeId → Var → Prop}
  {reals : BlockId → List NodeId}
  {r : Roster} {b : BlockId} {phi : NodeId} {path : List BlockId}

/-- Whatever path is taken to a block, the same definition arrives there. -/
theorem arriving_eq (h : Converted o base scope reals r f) (closed : base.graph.Closed)
    (hentry : base.contains FlowGraph.entry = true)
    (route : base.graph.Route FlowGraph.entry path b) :
    r.arriving f reals path b = r.atHead f reals b := by
  rw [Roster.arriving, Roster.atHead]
  cases route with
  | start =>
    -- Nothing but the phi of the entry brings a definition to it.
    have hnone : r.entering f reals FlowGraph.entry = none := by
      rw [Roster.entering, h.prepared.shape.dominators]
      exact Digraph.entering_entry _
    simp [hnone]
  | @extend path p _ hpath hedge =>
    rw [List.dropLast_concat, (h.links_along closed hentry hpath).2]
    cases hphi : r.phi? b with
    | none =>
      -- Without a phi, every edge brings what the immediate dominator leaves.
      have hp : p ∈ base.graph.reversePostorder FlowGraph.entry :=
        (Digraph.path_iff_mem closed hentry).1 (Digraph.path_iff_route.2 ⟨path, hpath⟩)
      rw [h.leaving_eq_entering closed hentry hphi hp hedge]
    | some phi =>
      obtain ⟨p, hnew⟩ := h.prepared.phi b phi hphi
      simp [Roster.targetAt?_of_phi? hphi hnew.holds.node?]

/-- A phi has an operand for a definition exactly if that is live in a block which the phi's
handlers protect. -/
theorem definitionOf_iff_live {p : Phi} (h : Converted o base scope reals r f)
    (hphi : r.phi? b = some phi)
    (hp : f.tree.node? phi = some (.phi p)) (hkind : p.kind = .catching) {d : NodeId} :
    (∃ q ∈ p.operands, f.tree.definitionOf q = .ok (some d)) ↔
      ∃ c ∈ base.graph.reversePostorder FlowGraph.entry,
        (∃ handler ∈ base.handlersProtecting c, handler.entry = b) ∧ d ∈ r.live f reals c := by
  constructor
  · rintro ⟨q, hq, hd⟩
    obtain ⟨d', hd', hlive⟩ := h.thrown b phi p hphi hp hkind q hq
    obtain rfl : d = d' := by simpa [hd] using hd'
    exact hlive
  · rintro ⟨c, hc, ⟨handler, hprotects, rfl⟩, hlive⟩
    obtain ⟨p', q, hp', hq, hd⟩ :=
      h.caught c hc handler hprotects phi hphi (by simp [Tree.phiKind?, hp, hkind]) d hlive
    obtain rfl : p = p' := by simpa [hp] using hp'
    exact ⟨q, hq, hd⟩

end Converted

open Edit

namespace FlowGraph

variable {o : SsaOptions} {input f : FlowGraph} {events events' : List Event} {form : SsaForm}

namespace Partly

variable {rosters : List Roster} {r : Roster} {b : BlockId} {d phi : NodeId}

theorem route_iff (h : Partly o input rosters f) {path : List BlockId} :
    f.graph.Route entry path b ↔ input.graph.Route entry path b := by
  have hsuccs : f.graph.successors = input.graph.successors := h.shape.succs
  rw [Digraph.Route, Digraph.Route, hsuccs]

/-- What is live in a block that can be reached is what the paths to it bring and what it holds. -/
theorem liveIn_iff (h : Partly o input rosters f) (coherent : input.Coherent) (hr : r ∈ rosters)
    (hb : b ∈ input.graph.reversePostorder entry) :
    r.LiveIn f (input.realsIn r.var) b d ↔ d ∈ r.live f (input.realsIn r.var) b := by
  have harrives {path : List BlockId} (route : input.graph.Route entry path b) :=
    (h.converted r hr).arriving_eq coherent.closed coherent.entry route
  simp only [Roster.LiveIn, Roster.live, List.mem_append, Option.mem_toList,
    List.mem_filter, h.route_iff]
  refine or_congr_left ⟨?_, fun hhead => ?_⟩
  · rintro ⟨path, route, hd⟩
    rwa [← harrives route]
  · obtain ⟨path, route⟩ :=
      Digraph.path_iff_route.1 ((Digraph.path_iff_mem coherent.closed coherent.entry).2 hb)
    exact ⟨path, route, (harrives route).trans hhead⟩

theorem catches (h : Partly o input rosters f) (coherent : input.Coherent) (hr : r ∈ rosters)
    (hphi : r.phiAt f b = .ok (some phi)) (hkind : f.tree.phiKind? phi = some .catching) :
    ∃ operands definitions, r.Catches f (input.realsIn r.var) b phi operands definitions := by
  have hc := h.converted r hr
  obtain ⟨p, hp, hnew⟩ := hc.exists_phi hphi
  have hphi := (hc.prepared.phiAt_ok hphi).2
  have hcatching : p.kind = .catching := by simpa [Tree.phiKind?, hp] using hkind
  -- Each operand stands for some definition, so what they stand for is a list of definitions.
  obtain ⟨definitions, hdefinitions⟩ : ∃ definitions : List NodeId,
      definitions.map (fun d => .ok (some d)) = p.operands.map f.tree.definitionOf := by
    rw [← Set.mem_range, Set.range_list_map]
    intro found hfound
    obtain ⟨q, hq, rfl⟩ := List.mem_map.1 hfound
    obtain ⟨d, hd, -⟩ := hc.thrown b phi p hphi hp hcatching q hq
    exact ⟨d, hd.symm⟩
  refine ⟨p.operands, definitions, hnew.holds.catchOperands hcatching, fun q hq => ?_,
    hdefinitions.symm, ?_, fun d => ?_⟩
  · have hoccurs := hnew.holds.occurs_operand hq
    obtain ⟨_, hslot, -⟩ := hnew.holds.operand q hq
    exact ⟨hoccurs.varOf, hoccurs.isDefinition, Tree.parent_ok.2 ⟨_, hslot, rfl⟩⟩
  · refine List.Nodup.of_map (fun d => (.ok (some d) : Except Fault (Option NodeId))) ?_
    rw [hdefinitions]
    exact List.pairwise_map.2 (hc.distinct b phi p hphi hp hcatching)
  · rw [← List.mem_map_of_injective Tree.ok_some_injective, hdefinitions, List.mem_map,
      hc.definitionOf_iff_live hphi hp hcatching, h.shape.handlersProtecting]
    refine exists_congr fun c => ?_
    rw [h.isReachable_iff coherent]
    exact and_congr_right fun hreach => and_congr_right fun _ =>
      (h.liveIn_iff coherent hr hreach).symm

end Partly

/-- The operands of each phi at a handler stand for the definitions that are live somewhere in a
block that can be reached and which such a handler protects, with one operand for each. What arrives
at a block does so on every path. -/
theorem toSsa_catches (made : input.Made) (hoff : o.collapse = false)
    (h : toSsa o ⟨input, events⟩ = .ok form ⟨f, events'⟩) :
    ∀ r ∈ form.rosters,
      (∀ b path path', f.graph.Route entry path b → f.graph.Route entry path' b →
        r.arriving f (input.realsIn r.var) path b = r.arriving f (input.realsIn r.var) path' b) ∧
      ∀ b phi, r.phiAt f b = .ok (some phi) → f.tree.phiKind? phi = some .catching →
        ∃ operands definitions, r.Catches f (input.realsIn r.var) b phi operands definitions := by
  have coherent := made.coherent
  have hpartly := (toSsa_ok h coherent hoff).2
  intro r hr
  have harrives {b : BlockId} {path : List BlockId} (route : f.graph.Route entry path b) :=
    (hpartly.converted r hr).arriving_eq coherent.closed coherent.entry (hpartly.route_iff.1 route)
  exact ⟨fun b path path' route route' => (harrives route).trans (harrives route').symm,
    fun b phi hphi hkind => hpartly.catches coherent hr hphi hkind⟩

/-- A local is stored to before and twice in a protected block, and the handler, which protects
itself as well, returns it. Two handlers protect the stores. -/
def rethrowing : FlowGraph := (ofLabel 0).requests
  [.addBlock 1, .addBlock 2, .addEdge ⟨0⟩ ⟨1⟩ .normal, .addHandler [⟨1⟩] ⟨2⟩ none,
    .addHandler [⟨0⟩, ⟨1⟩] ⟨2⟩ none, .addHandler [⟨2⟩] ⟨2⟩ none,
    .tree (.newVariable (.ofLocal 0) .int), .tree (.newLiteral (.int 1)),
    .tree (.newStore ⟨0⟩ ⟨1⟩), .appendStatement ⟨0⟩ ⟨2⟩,
    .tree (.newVariable (.ofLocal 0) .int), .tree (.newLiteral (.int 2)),
    .tree (.newStore ⟨3⟩ ⟨4⟩), .appendStatement ⟨1⟩ ⟨5⟩,
    .tree (.newVariable (.ofLocal 0) .int), .tree (.newLiteral (.int 3)),
    .tree (.newStore ⟨6⟩ ⟨7⟩), .appendStatement ⟨1⟩ ⟨8⟩,
    .tree (.newVariable (.ofLocal 0) .int), .tree (.newReturnValue ⟨9⟩), .appendStatement ⟨2⟩ ⟨10⟩]

/-- The phi at the handler has one operand for each store, the overwritten one included, and one for
its own target. -/
theorem rethrowing_catches : rethrowing.Made ∧ Yields (toSsa {}) ⟨rethrowing, []⟩ fun form m =>
    ∃ r ∈ form.rosters, ∃ phi operands, r.phiAt m.value ⟨2⟩ = .ok (some phi) ∧
      m.value.tree.phiTarget phi = .ok ⟨12⟩ ∧
      r.Catches m.value (rethrowing.realsIn r.var) ⟨2⟩ phi operands [⟨0⟩, ⟨3⟩, ⟨6⟩, ⟨12⟩] := by
  have made : rethrowing.Made := ⟨0, _, rfl⟩
  obtain ⟨form, m, hrun, r, hr, hphi, hkind, htarget, hread, hstands⟩ :
      Yields (toSsa {}) ⟨rethrowing, []⟩ fun form m =>
        ∃ r ∈ form.rosters, r.phiAt m.value ⟨2⟩ = .ok (some ⟨13⟩) ∧
          m.value.tree.phiKind? ⟨13⟩ = some .catching ∧ m.value.tree.phiTarget ⟨13⟩ = .ok ⟨12⟩ ∧
          m.value.tree.catchOperands ⟨13⟩ = .ok [⟨14⟩, ⟨15⟩, ⟨16⟩, ⟨17⟩] ∧
          [⟨14⟩, ⟨15⟩, ⟨16⟩, ⟨17⟩].map m.value.tree.definitionOf =
            [⟨0⟩, ⟨3⟩, ⟨6⟩, ⟨12⟩].map fun d => .ok (some d) := by decide +kernel
  obtain ⟨operands, definitions, hcatches⟩ :=
    (toSsa_catches made rfl hrun r hr).2 ⟨2⟩ ⟨13⟩ hphi hkind
  obtain rfl : [⟨14⟩, ⟨15⟩, ⟨16⟩, ⟨17⟩] = operands := by simpa [hread] using hcatches.read
  obtain rfl : [⟨0⟩, ⟨3⟩, ⟨6⟩, ⟨12⟩] = definitions :=
    List.map_injective_iff.2 Tree.ok_some_injective (hstands.symm.trans hcatches.standing)
  exact ⟨made, form, m, hrun, r, hr, ⟨13⟩, _, hphi, htarget, hcatches⟩

end FlowGraph

end MethodFlow
