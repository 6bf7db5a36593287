import MethodFlow.Flow.Basic

/-!
Orders and dominators of a control flow graph, computed when they are first asked for and kept until
the shape of the graph changes. The numbering of the blocks is also given as it is computed: the
table of the positions is written while the order grows. First come the blocks that a search finds,
then each block that has no position yet.
-/

namespace MethodFlow

/-- Blocks in an order, and a table of their positions with a place for every block. -/
structure Positions where
  order : List BlockId := []
  table : Array (Option Nat)

namespace Positions

def position? (p : Positions) (b : BlockId) : Option Nat := p.table[b.index]?.join

def append (p : Positions) (b : BlockId) : Positions :=
  ⟨p.order ++ [b], p.table.setIfInBounds b.index (some p.order.length)⟩

/-- The next position goes to `b`, unless it has one. -/
def appendMissing (p : Positions) (b : BlockId) : Positions :=
  if (p.position? b).isSome then p else p.append b

end Positions

/-- The blocks of a graph with their positions, in two passes. -/
def FlowGraph.positions (f : FlowGraph) : Positions :=
  let reached := (f.graph.preorder entry).foldl .append
    { table := Array.replicate f.blockCount none }
  f.blocks.foldl .appendMissing reached

namespace FlowGraph

def recallPreorder : Edit FlowGraph (List BlockId) :=
  modifyGet fun f =>
    match f.computed.preorder with
    | some order => (order, f)
    | none => (f.preorder, { f with computed.preorder := some f.preorder })

def recallIndex (b : BlockId) : Edit FlowGraph Nat := do
  Edit.ask (·.checkBlock b)
  match (← recallPreorder).idxOf? b with
  | some i => return i
  | none => throw (.foreignBlock b)

def recallDominators : Edit FlowGraph DominatorTree :=
  modifyGet fun f =>
    match f.computed.dominators with
    | some t => (t, f)
    | none => (f.dominators, { f with computed.dominators := some f.dominators })

def recallReachable (b : BlockId) : Edit FlowGraph Bool := do
  return (← recallDominators).isReachable b

/-- The dominance frontier of every block, which takes the dominators that are kept. -/
def recallFrontiers : Edit FlowGraph (List (List BlockId)) := do
  match (← get).computed.frontiers with
  | some frontiers => return frontiers
  | none =>
    let t ← recallDominators
    modifyGet fun f =>
      (f.graph.frontiers t, { f with computed.frontiers := some (f.graph.frontiers t) })

end FlowGraph

inductive ShapeQuery where
  | preorder
  | index (b : BlockId)
  | dominators
  | reachable (b : BlockId)
  | frontiers

def ShapeQuery.run : ShapeQuery → Edit FlowGraph Unit
  | preorder => do let _ ← FlowGraph.recallPreorder
  | index b => do let _ ← FlowGraph.recallIndex b
  | dominators => do let _ ← FlowGraph.recallDominators
  | reachable b => do let _ ← FlowGraph.recallReachable b
  | frontiers => do let _ ← FlowGraph.recallFrontiers

end MethodFlow
