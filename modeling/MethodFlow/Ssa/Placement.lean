import MethodFlow.Flow.Handlers
import MethodFlow.Ssa.Roster

/-!
Where a variable gets phis. Phis behind subroutines and at handlers are placed where an occurrence
can be reached from them. Phis at joins are placed on the iterated dominance frontier of the blocks
that define the variable, those with a phi among them.
-/

namespace MethodFlow.RosterEdit

def occursIn (f : FlowGraph) (blocks : List BlockId) : List NodeId → Except Fault Bool
  | [] => return false
  | n :: rest => do
    match ← f.tree.blockOf n with
    | some b => if b ∈ blocks then return true else occursIn f blocks rest
    | none => occursIn f blocks rest

/-- An occurrence can be reached from `b`. -/
def reachesReal (b : BlockId) : RosterEdit Bool :=
  askRoster fun r f => occursIn f (f.graph.preorder b) r.reals

def anyReachesReal : List BlockId → RosterEdit Bool
  | [] => return false
  | b :: rest => do
    if ← reachesReal b then return true else anyReachesReal rest

/-- Places phis behind the subroutines that are left somewhere. -/
def placeReturnPhis : RosterEdit Unit := do
  let subs := (← get).value.flow.subroutines.filter (·.exit.isSome)
  subs.forM fun sub => do
    if ← anyReachesReal sub.returnBlocks then
      let _ ← addReturnPhis sub.id

def placeCatchPhis : RosterEdit Unit := do
  (← get).value.flow.catchBlocks.forM fun b => do
    if ← reachesReal b then
      let _ ← addCatchPhi b

/-- Blocks whose frontier is still to be looked at, the next one first, and all blocks that ever
were among them. -/
structure Pending where
  blocks : List BlockId
  queued : List BlockId

/-- Places a phi at a block of a frontier. A block that gets one has to be looked at itself. -/
def placeOnFrontier (pending : Pending) (b : BlockId) : RosterEdit Pending := do
  if (← askRoster (·.phiAt · b)).isSome then return pending
  let added ← addJoinPhi b
  if added && b ∉ pending.queued then return ⟨b :: pending.blocks, b :: pending.queued⟩
  return pending

def placeJoinsTo (frontiers : List (List BlockId)) : Nat → Pending → RosterEdit Unit
  | 0, _ => return ()
  | limit + 1, pending =>
    match pending.blocks with
    | [] => return ()
    | b :: rest => do
      let next ← (frontiers.getD b.index []).foldlM placeOnFrontier { pending with blocks := rest }
      placeJoinsTo frontiers limit next

/-- Places phis at joins. No block is pending twice, which bounds the work by the number of
blocks. -/
def placeJoinPhis (frontiers : List (List BlockId)) : RosterEdit Unit := do
  let s ← get
  let start := s.value.own.definingBlocks.reverse
  placeJoinsTo frontiers (s.value.flow.blockCount + 1) ⟨start, start⟩

end MethodFlow.RosterEdit
