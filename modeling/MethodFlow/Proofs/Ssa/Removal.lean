import MethodFlow.Proofs.Ssa.Dangling
import MethodFlow.Proofs.Ssa.Stale
import MethodFlow.Proofs.Tree.Uprooting

/-!
Phis that are removed from a form. A phi leaves its roster and its block, and it is gone with all
that is below it. Uses that were linked to its target have no version any more, and nothing else is
changed.
-/

namespace MethodFlow

open Edit

namespace FlowGraph

variable {f f' : FlowGraph} {b c : BlockId} {n : NodeId} {s : Slot}

/-- A statement has left the block `c` and is gone with all that was below it. Nothing else is
changed. -/
structure Uproots (f f' : FlowGraph) (n : NodeId) (c : BlockId) : Prop where
  shape : f.SameShape f'
  lists : ∀ b, f'.statements b = if b = c then (f.statements b).filter (· ≠ n) else f.statements b
  tree : f.tree.Uproots f'.tree n

end FlowGraph

namespace RosterEdit

variable {s : Recorded (Bench Roster)} {b c : BlockId} {phi : NodeId}

end RosterEdit

namespace SsaForm

variable {form : SsaForm} {r r' : Roster} {v : Var}

end SsaForm

namespace FormEdit

variable {s : Recorded (Bench SsaForm)} {v : Var} {b c : BlockId} {r : Roster}
  {phi : NodeId} {p : Phi}

section fraying

variable {o : SsaOptions} {input : FlowGraph} {lost : Var → NodeId → Prop}

/-- A removal at a block outside the graph leaves the form as it is. -/
theorem Frayed.removePhi_of_foreign (hs : Frayed o input lost s.value) (coherent : input.Coherent)
    (hb : input.contains b = false) :
    Frayed o input lost ((FormEdit.removePhi v b).after s).value := by
  have hends : Ends (FormEdit.removePhi v b) s (fun _ m => Frayed o input lost m.value)
      fun _ m => Frayed o input lost m.value := by
    refine onRoster_ends (fun _ => hs) fun r hroster => ?_
    have hr : r ∈ s.value.own.rosters := List.mem_of_find?_eq_some hroster
    have hprepared := hs.prepared r hr
    have hstamp : s.value.flow.stamp = r.stamp := hs.shape.stamp.trans hprepared.stamp.symm
    have hout : s.value.flow.contains b = false := (congrFun hs.shape.contains b).trans hb
    have hrefused := RosterEdit.refusedAt_of_recordAt (s := ⟨⟨s.value.flow, r⟩, s.events⟩)
      (Roster.recordAt_of_foreign hstamp hout)
    refine .inr ⟨_, _, hrefused.removePhi, ?_⟩
    exact hs.update coherent hr hprepared (.refl _) (.refl _) rfl (.refl _ _) (fun _ _ => id)
      (hs.wired r hr)
  rcases hends with ⟨_, m, hrun, hm⟩ | ⟨e, m, herror, hm⟩
  · rwa [after_of_ok hrun]
  · rwa [after_of_error herror]

/-- Whatever has been asked of a form, its operands are linked to definitions or to what is gone. -/
theorem Frayed.exists_runs (hs : Frayed o input lost s.value) (coherent : input.Coherent)
    (rs : List FormRequest) : ∃ lost, Frayed o input lost (FormRequest.runs rs s).value := by
  induction rs generalizing s lost with
  | nil => exact ⟨lost, hs⟩
  | cons r rest ih =>
    by_cases hr : r.Within input
    · have hstep : Frayed o input (fun v d => lost v d ∨ r.Drops s.value v d)
          (r.run.after s).value := by
        rcases hs.run coherent r hr with ⟨_, m, hrun, hm⟩ | ⟨e, m, herror, hm, -⟩
        · rwa [after_of_ok hrun]
        · rw [after_of_error herror]
          exact hm.mono fun _ _ => .inl
      exact ih hstep
    · cases r with
      | removePhi v b =>
        have hstep := hs.removePhi_of_foreign (v := v) coherent (Bool.eq_false_iff.2 hr)
        rw [← after_bind_pure _ fun _ => ()] at hstep
        exact ih hstep
      | collapse => exact absurd trivial hr

end fraying

end FormEdit

/-- Something asked of a converted graph or of its form. -/
inductive SsaRequest where
  | form (r : FormRequest)
  | graph (r : FlowRequest)

namespace SsaRequest

open FlowGraph (Evolves)

def run : SsaRequest → FormEdit Unit
  | form r => r.run
  | graph r => Bench.onGraph r.run

def runs (rs : List SsaRequest) (s : Recorded (Bench SsaForm)) : Recorded (Bench SsaForm) :=
  rs.foldl (fun s r => r.run.after s) s

theorem moves_run (r : SsaRequest) : Leads Evolves r.run := by
  cases r with
  | form r =>
    cases r with
    | removePhi v b =>
      exact (FormEdit.moves_removePhi FlowGraph.moves_cleanupNode v b).bind fun _ => .pure _
    | collapse => exact (FormEdit.moves_collapse .evolves).bind fun _ => .pure _
  | graph r => exact Bench.moves_onGraph (Asking.evolves.moves_run r trivial)

end SsaRequest

namespace FlowGraph

open FormEdit

variable {o : SsaOptions} {input f : FlowGraph} {events events' : List Event} {form : SsaForm}

end FlowGraph

end MethodFlow
