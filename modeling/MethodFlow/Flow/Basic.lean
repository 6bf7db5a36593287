import MethodFlow.Graph.Dominators
import MethodFlow.Tree.Build
import MethodFlow.Tree.Phi

/-!
Control flow graphs. A graph joins basic blocks, which list statements of one tree arena, and knows
the exception handlers and the subroutines of the method. Block zero is the entry.

A stamp tells two shapes of a graph apart: every new block and every edge added or removed counts.
Orders and dominators that were computed for a shape are kept until it changes.
-/

namespace MethodFlow

/-- How control passes along an edge. -/
inductive EdgeKind where
  | normal
  | exception
  | subroutineCall
  | subroutineReturn
deriving DecidableEq

namespace EdgeKind

def text : EdgeKind → String
  | normal => "normal"
  | exception => "exception"
  | subroutineCall => "jsr"
  | subroutineReturn => "ret"

def all : List EdgeKind := [normal, exception, subroutineCall, subroutineReturn]

def ofText? (text : String) : Option EdgeKind := all.find? (·.text = text)

def isExceptional : EdgeKind → Bool
  | exception => true
  | _ => false

def isSubroutine : EdgeKind → Bool
  | subroutineCall | subroutineReturn => true
  | _ => false

end EdgeKind

/-- A block starts at the code offset `label`. -/
structure Block where
  label : UInt32
  statements : List NodeId := []
deriving DecidableEq

/-- Control enters `entry` when a protected block throws `caught`, or anything at all. -/
structure Handler where
  protectedBlocks : List BlockId
  entry : BlockId
  caught : Option Descriptor
deriving DecidableEq

def Handler.protects (h : Handler) (b : BlockId) : Bool := b ∈ h.protectedBlocks

/-- A list without the repetitions, in the order of first occurrences. -/
def firstOccurrences {α : Type} [DecidableEq α] (xs : List α) : List α :=
  xs.foldl (fun seen x => if x ∈ seen then seen else seen ++ [x]) []

/-- A piece of code that several blocks call and that returns to each of them. -/
structure Subroutine where
  id : SubroutineId
  entry : BlockId
  exit : Option BlockId := none
  /-- The calling block and the block that control comes back to, for each call. -/
  paths : List (BlockId × BlockId) := []
deriving DecidableEq

namespace Subroutine

/-- The blocks whose calls come back to `b`. -/
def callsReturningTo (s : Subroutine) (b : BlockId) : List BlockId :=
  (s.paths.filter fun p => p.2 = b).map Prod.fst

def returnBlocks (s : Subroutine) : List BlockId := firstOccurrences (s.paths.map Prod.snd)

end Subroutine

/-- The shape of a graph at some moment. -/
structure Stamp where
  version : Nat
  blockCount : Nat
deriving DecidableEq

/-- What has been computed of the shape of a graph since it last changed. -/
structure Computed where
  preorder : Option (List BlockId) := none
  dominators : Option DominatorTree := none
  frontiers : Option (List (List BlockId)) := none

structure FlowGraph where
  tree : Tree
  graph : Digraph Block EdgeKind
  handlers : List Handler := []
  subroutines : List Subroutine := []
  version : Nat := 0
  computed : Computed := {}

instance : MonadLift (Edit Tree) (Edit FlowGraph) :=
  ⟨Edit.within FlowGraph.tree fun f tree => { f with tree }⟩

namespace FlowGraph

/-- A graph of one empty block. -/
def ofLabel (label : UInt32) : FlowGraph :=
  { tree := .empty, graph := Digraph.empty.addNode { label } }

def entry : BlockId := ⟨0⟩

def blockCount (f : FlowGraph) : Nat := f.graph.nodeCount

def contains (f : FlowGraph) (b : BlockId) : Bool := f.graph.contains b

def blocks (f : FlowGraph) : List BlockId := f.graph.nodeIds

def block? (f : FlowGraph) (b : BlockId) : Option Block := f.graph.node? b

def statements (f : FlowGraph) (b : BlockId) : List NodeId :=
  ((f.block? b).map Block.statements).getD []

/-- The oldest block that starts at `label`. -/
def blockAt? (f : FlowGraph) (label : UInt32) : Option BlockId :=
  f.blocks.find? fun b => (f.block? b).any fun block => block.label = label

def succs (f : FlowGraph) (b : BlockId) : List BlockId := f.graph.successors b

def preds (f : FlowGraph) (b : BlockId) : List BlockId := f.graph.predecessors b

def edgeKind? (f : FlowGraph) (s t : BlockId) : Option EdgeKind := f.graph.edge? s t

def stamp (f : FlowGraph) : Stamp := ⟨f.version, f.blockCount⟩

def checkBlock (f : FlowGraph) (b : BlockId) : Except Fault Unit :=
  if f.contains b then .ok () else .error (.foreignBlock b)

/-- The graph must still have the shape that the stamp was taken of. -/
def checkStamp (f : FlowGraph) (s : Stamp) : Except Fault Unit :=
  if f.stamp = s then .ok () else .error .staleGraph

/-- The blocks reachable from the entry in depth-first order, then the others, oldest first. -/
def preorder (f : FlowGraph) : List BlockId :=
  let reached := f.graph.preorder entry
  reached ++ f.blocks.filter (· ∉ reached)

def preorderIndex (f : FlowGraph) (b : BlockId) : Except Fault Nat := do
  f.checkBlock b
  match f.preorder.idxOf? b with
  | some i => return i
  | none => throw (.foreignBlock b)

def dominators (f : FlowGraph) : DominatorTree := f.graph.dominatorTree entry

def frontiers (f : FlowGraph) : List (List BlockId) := f.graph.frontiers f.dominators

def isReachable (f : FlowGraph) (b : BlockId) : Bool := f.dominators.isReachable b

/-- The shape has changed: that counts, and nothing has been computed of the new one. -/
def invalidate (f : FlowGraph) : FlowGraph := { f with version := f.version + 1, computed := {} }

def addBlock (label : UInt32) : Edit FlowGraph BlockId :=
  modifyGet fun f =>
    (f.graph.nextNode, { f with graph := f.graph.addNode { label } : FlowGraph }.invalidate)

/-- Adds an edge and says whether it is new. -/
def addEdge (s t : BlockId) (kind : EdgeKind) : Edit FlowGraph Bool := do
  Edit.ask (·.checkBlock s)
  Edit.ask (·.checkBlock t)
  let added ← Edit.within FlowGraph.graph (fun f graph => { f with graph })
    (Digraph.addEdge s t kind)
  if added then modify invalidate
  return added

def removeEdge (s t : BlockId) : Edit FlowGraph (Option EdgeKind) :=
  modifyGet fun f =>
    match f.edgeKind? s t with
    | some kind => (some kind, { f with graph := f.graph.removeEdge s t : FlowGraph }.invalidate)
    | none => (none, f)

end FlowGraph

end MethodFlow
