import MethodFlow.Ssa.Basic

/-!
The roster of a variable: where it occurs in a graph and where it has phis, block by block. The
blocks are listed in preorder. A roster belongs to one shape of its graph and refuses to be used
with another.

A block has one phi of the variable at most. A phi of a higher kind takes the place of a lower one,
and a kind that is not higher is refused.
-/

namespace MethodFlow

structure BlockRecord where
  block : BlockId
  phi : Option NodeId := none
  /-- Occurrences outside phis. -/
  reals : List NodeId := []
deriving DecidableEq

/-- The occurrences and the phis of one variable. -/
structure Roster where
  var : Var
  /-- An occurrence without a parent, which phi targets and operands are made after. -/
  prototype : NodeId
  stamp : Stamp
  records : List BlockRecord
  reals : List NodeId := []
  /-- Blocks that define the variable, by a phi or otherwise, in the order they were found. -/
  definingBlocks : List BlockId := []
deriving DecidableEq

namespace Roster

def start (occurrence : NodeId) : Edit FlowGraph Roster := do
  let var ← Edit.ask (·.tree.varOf occurrence)
  let prototype ← Tree.useLike occurrence
  let f ← get
  return { var, prototype, stamp := f.stamp, records := f.preorder.map fun block => { block } }

/-- The record of a block, as long as the graph keeps its shape. -/
def recordAt (r : Roster) (f : FlowGraph) (b : BlockId) : Except Fault BlockRecord := do
  f.checkStamp r.stamp
  f.checkBlock b
  match r.records.find? (·.block = b) with
  | some record => return record
  | none => throw .staleGraph

/-- The phi at a block, if it is still in use. -/
def phiAt (r : Roster) (f : FlowGraph) (b : BlockId) : Except Fault (Option NodeId) := do
  return (← r.recordAt f b).phi.filter f.tree.isLive

def realsAt (r : Roster) (f : FlowGraph) (b : BlockId) : Except Fault (List NodeId) :=
  BlockRecord.reals <$> r.recordAt f b

/-- The phis on the roster, in use or not, in preorder of their blocks. -/
def phis (r : Roster) : List NodeId := r.records.filterMap BlockRecord.phi

def phiCount (r : Roster) : Nat := r.phis.length

def modifyRecord (r : Roster) (b : BlockId) (change : BlockRecord → BlockRecord) : Roster :=
  { r with records := r.records.map fun record =>
    if record.block = b then change record else record }

def setPhi (r : Roster) (b : BlockId) (phi : Option NodeId) : Roster :=
  r.modifyRecord b fun record => { record with phi }

def noteDefiningBlock (r : Roster) (b : BlockId) : Roster :=
  if b ∈ r.definingBlocks then r else { r with definingBlocks := r.definingBlocks ++ [b] }

def noteReal (r : Roster) (b : BlockId) (real : NodeId) : Roster :=
  { r.modifyRecord b fun record => { record with reals := record.reals ++ [real] } with
    reals := r.reals ++ [real] }

def blockOfReal (r : Roster) (f : FlowGraph) (real : NodeId) : Except Fault BlockId := do
  let found ← f.tree.varOf real
  if found ≠ r.var then throw (.violation (.occurrenceOfOther real found r.var))
  match ← f.tree.blockOf real with
  | some b => return b
  | none => throw (.violation (.occurrenceNotPlaced real))

/-- The roster with an occurrence added. One that is there already changes nothing. -/
def withReal (r : Roster) (f : FlowGraph) (real : NodeId) : Except Fault Roster := do
  let b ← r.blockOfReal f real
  let record ← r.recordAt f b
  if real ∈ record.reals then return r
  let r := r.noteReal b real
  if ← f.tree.isDefinition real then return r.noteDefiningBlock b
  return r

def withDefiningBlock (r : Roster) (f : FlowGraph) (b : BlockId) : Except Fault Roster := do
  let _ ← r.recordAt f b
  return r.noteDefiningBlock b

end Roster

abbrev RosterEdit (α : Type) := Edit (Recorded (Bench Roster)) α

namespace RosterEdit

def askRoster {α : Type} (f : Roster → FlowGraph → Except Fault α) : RosterEdit α :=
  Edit.ask fun s => f s.value.own s.value.flow

def addReal (real : NodeId) : RosterEdit Unit := do
  let r ← askRoster (·.withReal · real)
  Bench.modifyOwn fun _ => r

def addDefiningBlock (b : BlockId) : RosterEdit Unit := do
  let r ← askRoster (·.withDefiningBlock · b)
  Bench.modifyOwn fun _ => r

/-- Removes the phi at a block with its operands, and says whether there was one in use. -/
def removePhi (b : BlockId) : RosterEdit Bool := do
  match (← askRoster (·.recordAt · b)).phi with
  | none => return false
  | some phi =>
    Bench.modifyOwn (·.setPhi b none)
    let s ← get
    if !s.value.flow.tree.isLive phi then return false
    Edit.report (.phiRemoved phi s.value.own.var b)
    FlowGraph.cleanupNode phi
    return true

/-- Makes room at a block for a phi of some kind, and says whether it may be placed. -/
def makeRoom (kind : PhiKind) (b : BlockId) : RosterEdit Bool := do
  match ← askRoster (·.phiAt · b) with
  | none => return true
  | some existing =>
    let s ← get
    match s.value.flow.tree.phiKind? existing with
    | none => throw (.violation (.slotHoldsNonPhi s.value.own.var b existing))
    | some occupant =>
      if kind.rank ≤ occupant.rank then return false
      Edit.report (.phiOutranked kind s.value.own.var b occupant)
      let _ ← removePhi b
      return true

/-- Places a phi made by `make` from its target, and says whether it was placed. -/
def place (kind : PhiKind) (b : BlockId) (make : NodeId → Edit Tree NodeId) : RosterEdit Bool := do
  if !(← makeRoom kind b) then return false
  let r := (← get).value.own
  let target ← Tree.useLike r.prototype
  let phi ← make target
  FlowGraph.prependStatement b phi
  let _ ← askRoster (·.recordAt · b)
  Bench.modifyOwn fun r => (r.setPhi b (some phi)).noteDefiningBlock b
  Edit.report (.phiPlaced kind r.var b)
  return true

def addJoinPhi (b : BlockId) : RosterEdit Bool := do
  let preds := (← get).value.flow.preds b
  place .joining b fun target => Tree.newJoinPhi target b preds

/-- Places a phi without operands at a handler. Stack slots get none. -/
def addCatchPhi (b : BlockId) : RosterEdit Bool := do
  if !(← get).value.own.var.isLocal then return false
  place .catching b Tree.newCatchPhi

/-- Places a phi at every block that calls of a subroutine come back to, and returns the blocks that
got one. -/
def addReturnPhis (s : SubroutineId) : RosterEdit (List BlockId) := do
  let sub ← askRoster fun _ f => f.subroutine s
  sub.returnBlocks.filterM fun b =>
    place .returning b fun target => Tree.newReturnPhi target s (sub.callsReturningTo b)

end RosterEdit

end MethodFlow
