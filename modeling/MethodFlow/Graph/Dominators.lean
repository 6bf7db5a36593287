import MethodFlow.Graph.Search

/-!
Dominator trees and dominance frontiers. A node dominates another if every path from the entry to
the second passes through the first. Immediate dominators are computed by rounds of refinement. The
reachable nodes are numbered in reverse postorder, so the entry is number zero. In each round every
other node is given the nearest common ancestor of its predecessors in the tree built so far. Rounds
are repeated until one changes nothing.

A node lies in the frontier of all the nodes that a walk up the tree meets on its way from one of
the node's predecessors to, but not including, its immediate dominator.
-/

namespace MethodFlow

/-- A tree under construction: the parent of each numbered node, where it is known. -/
abbrev Parents := Array (Option Nat)

namespace Parents

def parent? (p : Parents) (n : Nat) : Option Nat := p[n]?.join

/-- The nearest common ancestor of two nodes: the one with the greater number climbs. Parents have
smaller numbers, so a climb that would not go down in number ends at the other node. -/
def meet (p : Parents) (a b : Nat) : Nat :=
  if a = b then a
  else if b < a then
    match p.parent? a with
    | some c => if c < a then meet p c b else b
    | none => b
  else
    match p.parent? b with
    | some c => if c < b then meet p a c else a
    | none => a
termination_by a + b

/-- The parent that the predecessors of a node agree on, those without a parent left out. -/
def agreed (p : Parents) (predecessors : List Nat) : Option Nat :=
  predecessors.foldl
    (fun found n =>
      if (p.parent? n).isNone then found
      else
        match found with
        | none => some n
        | some m => some (p.meet n m))
    none

def refineAt (predecessors : Nat → List Nat) (p : Parents) (n : Nat) : Parents :=
  match p.agreed (predecessors n) with
  | none => p
  | some m => p.setIfInBounds n (some m)

/-- One round over all nodes but the entry. -/
def refine (predecessors : Nat → List Nat) (p : Parents) : Parents :=
  (List.range' 1 (p.size - 1)).foldl (refineAt predecessors) p

/-- At most `rounds` rounds, or fewer if one changes nothing. -/
def settle (predecessors : Nat → List Nat) : Nat → Parents → Parents
  | 0, p => p
  | rounds + 1, p =>
    let next := p.refine predecessors
    if next = p then p else settle predecessors rounds next

/-- Before the first round only the entry has a parent, itself. -/
def initial (count : Nat) : Parents := (Array.replicate count none).setIfInBounds 0 (some 0)

end Parents

structure DominatorTree where
  entry : BlockId
  parents : Array (Option BlockId)
deriving DecidableEq

namespace DominatorTree

def nodeCount (t : DominatorTree) : Nat := t.parents.size

/-- The closest strict dominator. The entry and unreachable nodes have none. -/
def immediate? (t : DominatorTree) (b : BlockId) : Option BlockId :=
  if b = t.entry then none else t.parents[b.index]?.join

def isReachable (t : DominatorTree) (b : BlockId) : Bool :=
  b = t.entry || (t.immediate? b).isSome

/-- A node and its ancestors, nearest first, at most `limit` of them. -/
def climb (t : DominatorTree) : Nat → BlockId → List BlockId
  | 0, _ => []
  | limit + 1, b =>
    b ::
      match t.immediate? b with
      | none => []
      | some d => t.climb limit d

def chain (t : DominatorTree) (b : BlockId) : List BlockId := t.climb (t.nodeCount + 1) b

/-- Every reachable node dominates itself. -/
def dominates (t : DominatorTree) (a b : BlockId) : Bool := t.isReachable b && a ∈ t.chain b

def strictlyDominates (t : DominatorTree) (a b : BlockId) : Bool := a ≠ b && t.dominates a b

def children (t : DominatorTree) (b : BlockId) : List BlockId :=
  ((List.range t.nodeCount).map BlockId.mk).filter fun c => t.immediate? c = some b

def depth (t : DominatorTree) (b : BlockId) : Nat := (t.chain b).length - 1

end DominatorTree

namespace Digraph

variable {N E : Type}

/-- The immediate dominators of the nodes in `order`, by position in it. Each change of a round
lowers the number of some node's parent, which bounds the rounds. -/
def parentNumbers (g : Digraph N E) (order : List BlockId) : Parents :=
  let predecessors := order.toArray.map fun b => (g.predecessors b).filterMap (order.idxOf? ·)
  let count := order.length
  Parents.settle (fun n => predecessors.getD n []) (count * count + 2) (Parents.initial count)

/-- The dominator tree from `entry`. Where there is no such node, no node is dominated. -/
def dominatorTree (g : Digraph N E) (entry : BlockId) : DominatorTree :=
  let order := g.reversePostorder entry
  let numbers := g.parentNumbers order
  let ancestor (b : BlockId) : Option BlockId :=
    if b = entry then none
    else (order.idxOf? b).bind fun n => (numbers.parent? n).bind fun m => order[m]?
  { entry, parents := (g.nodeIds.map ancestor).toArray }

/-- The nodes that have `m` in their frontier. -/
def runners (g : Digraph N E) (t : DominatorTree) (m : BlockId) : List BlockId :=
  if t.isReachable m then
    ((g.predecessors m).filter t.isReachable).flatMap fun p =>
      (t.chain p).takeWhile fun d => some d ≠ t.immediate? m
  else []

/-- The dominance frontier of every node, by node. Each lists its members oldest first. -/
def frontiers (g : Digraph N E) (t : DominatorTree) : List (List BlockId) :=
  let met := g.nodeIds.map fun m => (m, g.runners t m)
  g.nodeIds.map fun n => (met.filter fun (_, walk) => n ∈ walk).map Prod.fst

end Digraph

end MethodFlow
