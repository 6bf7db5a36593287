import MethodFlow.Flow.Basic
import MethodFlow.Tree.Walk

/-!
The statements of blocks. A statement is in one block at most, and it knows which. A walk over a
graph goes through the blocks in preorder, and in each block through its statements. A reverse walk
goes through both backwards.
-/

namespace MethodFlow

namespace FlowGraph

/-- Only a statement that is in use and not placed yet can be placed. -/
def checkPlaceable (f : FlowGraph) (n : NodeId) : Except Fault Unit := do
  if !f.tree.isStatement n then throw (.violation (.notLiveStatement n))
  match ← f.tree.blockOf n with
  | some b => throw (.violation (.alreadyPlaced n b))
  | none => return ()

def modifyStatements (b : BlockId) (change : List NodeId → List NodeId) : Edit FlowGraph Unit :=
  modify fun f =>
    { f with
      graph := f.graph.modifyNode b fun block =>
        { block with statements := change block.statements } }

def insertStatement (b : BlockId) (index : Nat) (n : NodeId) : Edit FlowGraph Unit := do
  Edit.ask (·.checkBlock b)
  Edit.ask (·.checkPlaceable n)
  Edit.guard (index ≤ ((← get).statements b).length) .outOfBounds
  modifyStatements b (·.insertIdx index n)
  Tree.setBlock n (some b)

def appendStatement (b : BlockId) (n : NodeId) : Edit FlowGraph Unit := do
  insertStatement b ((← get).statements b).length n

def leadingPhis (f : FlowGraph) (b : BlockId) : Nat :=
  ((f.statements b).takeWhile fun n => (f.tree.phiKind? n).isSome).length

/-- Puts a statement at the head of a block, behind the phis there. -/
def prependStatement (b : BlockId) (n : NodeId) : Edit FlowGraph Unit := do
  insertStatement b ((← get).leadingPhis b) n

def removeStatement (n : NodeId) : Edit FlowGraph BlockId := do
  match ← Edit.ask (·.tree.blockOf n) with
  | none => throw (.violation (.notPlaced n))
  | some b =>
    Edit.ask (·.checkBlock b)
    modifyStatements b (·.filter (· ≠ n))
    Tree.setBlock n none
    return b

/-- Removes a node and everything below it. A statement leaves its block first. -/
def cleanupNode (n : NodeId) : Edit FlowGraph Unit := do
  let f ← get
  if f.tree.isStatement n then
    if (← Edit.ask (·.tree.blockOf n)).isSome then
      let _ ← removeStatement n
  Tree.cleanup n

end FlowGraph

/-- One thing that a walk records. -/
inductive Visit where
  | block (b : BlockId)
  | node (category : Category) (n : NodeId)
deriving DecidableEq

def Visit.ofNodes (nodes : List (Category × NodeId)) : List Visit :=
  nodes.map fun p => .node p.1 p.2

namespace FlowGraph

def walkStatements (f : FlowGraph) (v : Visitor) (b : BlockId) : List Visit :=
  (v.direction.orient (f.statements b)).flatMap fun n => Visit.ofNodes (f.tree.walk v n)

/-- What a walk records at and in a block. -/
def walkBlock (f : FlowGraph) (v : Visitor) (b : BlockId) : List Visit :=
  (if v.atBlocks then [.block b] else []) ++ f.walkStatements v b

def walk (f : FlowGraph) (v : Visitor) : List Visit :=
  (v.direction.orient f.preorder).flatMap (f.walkBlock v)

end FlowGraph

end MethodFlow
