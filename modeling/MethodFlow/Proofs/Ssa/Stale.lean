import MethodFlow.Proofs.Ssa.Requests

/-!
Rosters that are used with another shape of their graph than they were made for, or asked about a
block that is not in it. They answer nothing then, and they take up nothing.
-/

namespace MethodFlow

open Edit

section rosters

variable {s : Recorded (Bench Roster)} {r : Roster} {f : FlowGraph} {b : BlockId} {e : Fault}

theorem Roster.recordAt_of_stale (h : f.stamp ≠ r.stamp) (b : BlockId) :
    r.recordAt f b = .error .staleGraph := by
  simp [recordAt, FlowGraph.checkStamp, h, bind, Except.bind]

theorem Roster.recordAt_of_foreign (h : f.stamp = r.stamp) (hb : f.contains b = false) :
    r.recordAt f b = .error (.foreignBlock b) := by
  simp [recordAt, FlowGraph.checkStamp, FlowGraph.checkBlock, h, hb, bind, Except.bind]

namespace RosterEdit

/-- Whatever is asked of a roster about the block fails with `e` and changes nothing. A phi at a
handler is asked for a local. -/
structure RefusedAt (s : Recorded (Bench Roster)) (b : BlockId) (e : Fault) : Prop where
  phiAt : s.value.own.phiAt s.value.flow b = .error e
  realsAt : s.value.own.realsAt s.value.flow b = .error e
  addDefiningBlock : addDefiningBlock b s = .error e s
  removePhi : removePhi b s = .error e s
  addJoinPhi : addJoinPhi b s = .error e s
  addCatchPhi : s.value.own.var.isLocal = true → addCatchPhi b s = .error e s

theorem askRoster_of_error {α β : Type} {f : Roster → FlowGraph → Except Fault α}
    {g : α → RosterEdit β}
    (h : f s.value.own s.value.flow = .error e) : (askRoster f >>= g) s = .error e s :=
  bind_error.2 (.inl (ask_error.2 ⟨h, rfl⟩))

/-- The record of the block is read before anything else is done. -/
theorem refusedAt_of_recordAt (h : s.value.own.recordAt s.value.flow b = .error e) :
    RefusedAt s b e := by
  have hphi : s.value.own.phiAt s.value.flow b = .error e := by
    simp [Roster.phiAt, h, bind, Except.bind]
  have hplace (kind : PhiKind) (make : NodeId → Edit Tree NodeId) :
      place kind b make s = .error e s :=
    bind_error.2 (.inl (askRoster_of_error hphi))
  refine ⟨hphi, ?_, ?_, askRoster_of_error h, hplace _ _, fun hlocal => ?_⟩
  · simp [Roster.realsAt, h, Functor.map, Except.map]
  · refine askRoster_of_error ?_
    simp [Roster.withDefiningBlock, h, bind, Except.bind]
  · show (if !s.value.own.var.isLocal then pure false else place .catching b Tree.newCatchPhi :
      RosterEdit Bool) s = _
    rw [hlocal]
    exact hplace _ _

theorem addReal_of_recordAt {real : NodeId}
    (hvar : s.value.flow.tree.varOf real = .ok s.value.own.var)
    (hblock : s.value.flow.tree.blockOf real = .ok (some b))
    (h : s.value.own.recordAt s.value.flow b = .error e) : addReal real s = .error e s := by
  refine askRoster_of_error ?_
  simp [Roster.withReal, Roster.blockOfReal, hvar, hblock, h, bind, Except.bind, pure, Except.pure]

/-- A roster whose graph has changed its shape refuses whatever names a block, and every occurrence
that is placed. While the graph has the shape that the roster was made for, the roster refuses
blocks that are not in the graph. Nothing is changed. Stack slots get no phis at handlers, which is
answered whatever the shape and the block. -/
theorem refused_unless_fitting (s : Recorded (Bench Roster)) :
    (s.value.flow.stamp ≠ s.value.own.stamp →
      (∀ b, RefusedAt s b .staleGraph) ∧
      ∀ real b, s.value.flow.tree.varOf real = .ok s.value.own.var →
        s.value.flow.tree.blockOf real = .ok (some b) → addReal real s = .error .staleGraph s) ∧
    (s.value.flow.stamp = s.value.own.stamp → ∀ b, s.value.flow.contains b = false →
      RefusedAt s b (.foreignBlock b)) ∧
    (s.value.own.var.isLocal = false → ∀ b, addCatchPhi b s = .ok false s) := by
  refine ⟨fun hstale => ⟨fun b => ?_, fun real b hvar hblock => ?_⟩, fun hstamp b hb => ?_,
    fun hslot b => ?_⟩
  · exact refusedAt_of_recordAt (Roster.recordAt_of_stale hstale b)
  · exact addReal_of_recordAt hvar hblock (Roster.recordAt_of_stale hstale b)
  · exact refusedAt_of_recordAt (Roster.recordAt_of_foreign hstamp hb)
  · show (if !s.value.own.var.isLocal then pure false else place .catching b Tree.newCatchPhi :
      RosterEdit Bool) s = _
    rw [hslot]
    rfl

/-- A block that pushes a local onto the stack. -/
def pushing : FlowGraph := (FlowGraph.ofLabel 0).requests
  [.tree (.newVariable (.ofStack 0) .int), .tree (.newVariable (.ofLocal 0) .int),
    .tree (.newStore ⟨0⟩ ⟨1⟩), .appendStatement ⟨0⟩ ⟨2⟩]

/-- One more block makes the roster of the local useless. -/
theorem pushing_refused : pushing.Made ∧ Yields (Roster.start ⟨1⟩) pushing fun r f =>
    let s : Recorded (Bench Roster) := ⟨⟨f, r⟩, []⟩
    let grown : Recorded (Bench Roster) := ⟨⟨f.request (.addBlock 1), r⟩, []⟩
    Succeeds (addReal ⟨1⟩) s ∧ RefusedAt s ⟨1⟩ (.foreignBlock ⟨1⟩) ∧
      RefusedAt grown ⟨1⟩ .staleGraph ∧ addReal ⟨1⟩ grown = .error .staleGraph grown := by
  obtain ⟨r, f, hrun, hadd, hstamp, hforeign, hstale, hvar, hblock⟩ :
      Yields (Roster.start ⟨1⟩) pushing fun r f =>
        Succeeds (addReal ⟨1⟩) ⟨⟨f, r⟩, []⟩ ∧ f.stamp = r.stamp ∧ f.contains ⟨1⟩ = false ∧
          (f.request (.addBlock 1)).stamp ≠ r.stamp ∧
          (f.request (.addBlock 1)).tree.varOf ⟨1⟩ = .ok r.var ∧
          (f.request (.addBlock 1)).tree.blockOf ⟨1⟩ = .ok (some FlowGraph.entry) := by
    decide +kernel
  obtain ⟨-, hforeigns, -⟩ := refused_unless_fitting ⟨⟨f, r⟩, []⟩
  obtain ⟨hstales, -, -⟩ := refused_unless_fitting ⟨⟨f.request (.addBlock 1), r⟩, []⟩
  obtain ⟨hrefused, hreal⟩ := hstales hstale
  exact ⟨⟨0, _, rfl⟩, r, f, hrun, hadd, hforeigns hstamp ⟨1⟩ hforeign, hrefused ⟨1⟩,
    hreal ⟨1⟩ FlowGraph.entry hvar hblock⟩

/-- For the stack slot, neither a new shape nor a block outside the graph makes a phi at a handler
fail. -/
theorem pushing_catch_not_refused : pushing.Made ∧ Yields (Roster.start ⟨0⟩) pushing fun r f =>
    (f.request (.addBlock 1)).stamp ≠ r.stamp ∧
      Yields (addCatchPhi FlowGraph.entry) ⟨⟨f.request (.addBlock 1), r⟩, []⟩
        (fun placed _ => placed = false) ∧
      f.stamp = r.stamp ∧ f.contains ⟨1⟩ = false ∧
      Yields (addCatchPhi ⟨1⟩) ⟨⟨f, r⟩, []⟩ fun placed _ => placed = false :=
  ⟨⟨0, _, rfl⟩, by decide +kernel⟩

end RosterEdit

end rosters

end MethodFlow
