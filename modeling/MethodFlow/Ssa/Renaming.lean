import MethodFlow.Flow.Handlers
import MethodFlow.Ssa.Roster

/-!
Renaming. A walk down the dominator tree carries the definition that reaches the current point.
Every definition on the way is numbered, every use is linked to the definition that reaches it, and
the phis that a block feeds get their operands linked when the block is left.
-/

namespace MethodFlow

abbrev Renaming (α : Type) := Edit (Recorded (Bench Numbering)) α

namespace Renaming

variable {α : Type}

def askFlow (f : FlowGraph → Except Fault α) : Renaming α := Edit.ask fun s => f s.value.flow

/-- Gives a definition the next number of its variable. -/
def number (v : Var) (definition : NodeId) : Renaming Unit := do
  let version := (← get).value.own.count v
  Bench.modifyOwn (·.take v)
  Tree.setVersion definition version
  Edit.report (.numbered definition v version)

/-- What is known at a point of a block: the definition that reaches it, and the definitions that
were live so far in the block. -/
structure Reached where
  current : Option NodeId
  live : List NodeId

def passReal (v : Var) (b : BlockId) (here : Reached) (n : NodeId) : Renaming Reached := do
  if ← askFlow (·.tree.isDefinition n) then
    number v n
    return ⟨some n, here.live ++ [n]⟩
  else
    Tree.setLink n here.current
    Edit.report (.linked n b here.current)
    return here

def passPhi (r : Roster) (b : BlockId) (incoming : Option NodeId) :
    Renaming (Option NodeId) := do
  match ← askFlow (r.phiAt · b) with
  | none => return incoming
  | some phi =>
    let target ← askFlow (·.tree.phiTarget phi)
    number r.var target
    return some target

/-- Adds an operand for a definition to a phi at a handler that has none for it. -/
def addLive (r : Roster) (phi definition : NodeId) : Renaming Unit := do
  if !(← askFlow (·.tree.hasCatchDefinition phi (some definition))) then
    let operand ← Tree.useLike r.prototype
    Tree.setLink operand (some definition)
    Tree.addCatchOperand phi operand

def fillCatch (r : Roster) (live : List NodeId) (entry : BlockId) : Renaming Unit := do
  match ← askFlow (r.phiAt · entry) with
  | none => return ()
  | some phi =>
    if (← get).value.flow.tree.phiKind? phi = some .catching then
      live.forM (addLive r phi)

/-- Adds operands for the definitions live in a block to the phis at the handlers that protect
it. -/
def fillCatches (r : Roster) (b : BlockId) (live : List NodeId) : Renaming Unit := do
  if live.isEmpty then return ()
  ((← get).value.flow.handlersProtecting b).forM fun h => fillCatch r live h.entry

/-- The operands that the edge from `b` to `succ` feeds in the phi at `succ`. -/
def fedOperands (f : FlowGraph) (phi : NodeId) (b succ : BlockId) :
    Except Fault (List NodeId) := do
  match (← f.tree.phi phi).inputs with
  | .joining _ _ => return (← f.tree.joinOperandAt phi b).toList
  | .catching _ => return []
  | .returning s _ =>
    match f.subroutine? s with
    | none => return []
    | some sub =>
      if sub.exit ≠ some b then return []
      let found ← (sub.callsReturningTo succ).mapM fun call => f.tree.returnOperandAt phi call
      return found.filterMap id

def fillSuccessor (r : Roster) (b : BlockId) (current : Option NodeId) (succ : BlockId) :
    Renaming Unit := do
  match ← askFlow (r.phiAt · succ) with
  | none => return ()
  | some phi =>
    (← askFlow fun f => fedOperands f phi b succ).forM fun operand => Tree.setLink operand current

/-- Renames a block and the blocks below it in the dominator tree, to a depth of `limit`. -/
def renameTo (r : Roster) (t : DominatorTree) : Nat → Option NodeId → BlockId → Renaming Unit
  | 0, _, _ => return ()
  | limit + 1, incoming, b => do
    let start ← passPhi r b incoming
    let reals ← askFlow (r.realsAt · b)
    let reached ← reals.foldlM (passReal r.var b) ⟨start, start.toList⟩
    fillCatches r b reached.live
    ((← get).value.flow.succs b).forM (fillSuccessor r b reached.current)
    (t.children b).forM (renameTo r t limit reached.current)

/-- Renames a variable. A branch of the dominator tree is no longer than there are blocks. -/
def rename (r : Roster) (t : DominatorTree) : Renaming Unit :=
  renameTo r t (t.nodeCount + 1) none FlowGraph.entry

end Renaming

end MethodFlow
