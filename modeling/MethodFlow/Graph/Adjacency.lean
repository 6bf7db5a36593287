import MethodFlow.Graph.Digraph

/-!
Adjacency lists. Each edge is stored twice: in the list of its source together with its payload, and
in the list of its target. New edges are added to the end of both lists, and an edge to be removed
is looked for in each of them. The number of edges is kept beside the lists.
-/

namespace MethodFlow

/-- A directed graph that keeps lists of the edges that leave and that enter each node. -/
structure Adjacency (N E : Type) where
  nodes : Array N
  outgoing : Array (List (BlockId × E))
  incoming : Array (List BlockId)
  edgeCount : Nat
deriving DecidableEq

namespace Adjacency

variable {N E : Type}

def empty : Adjacency N E := ⟨#[], #[], #[], 0⟩

def nodeCount (a : Adjacency N E) : Nat := a.nodes.size

def contains (a : Adjacency N E) (b : BlockId) : Bool := b.index < a.nodes.size

def nodeIds (a : Adjacency N E) : List BlockId := (List.range a.nodes.size).map BlockId.mk

def edgesFrom (a : Adjacency N E) (b : BlockId) : List (BlockId × E) := a.outgoing[b.index]?.getD []

def successors (a : Adjacency N E) (b : BlockId) : List BlockId := (a.edgesFrom b).map Prod.fst

def predecessors (a : Adjacency N E) (b : BlockId) : List BlockId := a.incoming[b.index]?.getD []

def outDegree (a : Adjacency N E) (b : BlockId) : Nat :=
  (a.outgoing[b.index]?.map List.length).getD 0

def inDegree (a : Adjacency N E) (b : BlockId) : Nat :=
  (a.incoming[b.index]?.map List.length).getD 0

def edge? (a : Adjacency N E) (s t : BlockId) : Option E := do
  let out ← a.outgoing[s.index]?
  (out.find? fun p => p.1 = t).map Prod.snd

def storeNode (a : Adjacency N E) (payload : N) : Adjacency N E :=
  { a with
    nodes := a.nodes.push payload
    outgoing := a.outgoing.push []
    incoming := a.incoming.push [] }

def addNode (payload : N) : Edit (Adjacency N E) BlockId :=
  modifyGet fun a => (⟨a.nodes.size⟩, a.storeNode payload)

/-- Stores an edge behind those that are there. -/
def storeEdge (a : Adjacency N E) (s t : BlockId) (label : E) : Adjacency N E :=
  { a with
    outgoing := a.outgoing.modify s.index (· ++ [(t, label)])
    incoming := a.incoming.modify t.index (· ++ [s])
    edgeCount := a.edgeCount + 1 }

/-- Adds an edge and says whether it is new. An edge that is there keeps its payload. -/
def addEdge (s t : BlockId) (label : E) : Edit (Adjacency N E) Bool := do
  let a ← get
  Edit.guard (a.contains s) (.graph (.missingSource s a.nodeCount))
  Edit.guard (a.contains t) (.graph (.missingTarget t a.nodeCount))
  if (a.edge? s t).isSome then return false
  set (a.storeEdge s t label)
  return true

def withoutFirst {α : Type} (p : α → Bool) (xs : List α) : List α :=
  match xs.findIdx? p with
  | some i => xs.eraseIdx i
  | none => xs

/-- Takes an edge out of the list of its source and out of the list of its target. -/
def dropEdge (a : Adjacency N E) (s t : BlockId) : Adjacency N E :=
  { a with
    outgoing := a.outgoing.modify s.index (withoutFirst fun p => p.1 = t)
    incoming := a.incoming.modify t.index (withoutFirst fun p => p = s)
    edgeCount := a.edgeCount - 1 }

def removeEdge (s t : BlockId) : Edit (Adjacency N E) (Option E) :=
  modifyGet fun a =>
    match a.edge? s t with
    | some label => (some label, a.dropEdge s t)
    | none => (none, a)

end Adjacency

/-- What a caller may ask of a graph. -/
inductive GraphRequest (N E : Type) where
  | addNode (payload : N)
  | addEdge (s t : BlockId) (label : E)
  | removeEdge (s t : BlockId)

inductive GraphAnswer (E : Type) where
  | node (b : BlockId)
  | added (isNew : Bool)
  | removed (label : Option E)
deriving DecidableEq

namespace GraphRequest

variable {N E : Type}

def run : GraphRequest N E → Edit (Adjacency N E) (GraphAnswer E)
  | addNode payload => .node <$> Adjacency.addNode payload
  | addEdge s t label => .added <$> Adjacency.addEdge s t label
  | removeEdge s t => .removed <$> Adjacency.removeEdge s t

/-- The same request to a graph that keeps one list of edges. -/
def runOnEdges : GraphRequest N E → Edit (Digraph N E) (GraphAnswer E)
  | addNode payload => modifyGet fun g => (.node g.nextNode, g.addNode payload)
  | addEdge s t label => .added <$> Digraph.addEdge s t label
  | removeEdge s t => modifyGet fun g => (.removed (g.edge? s t), g.removeEdge s t)

end GraphRequest

section runs

variable {N E : Type}

def Adjacency.request (a : Adjacency N E) (r : GraphRequest N E) : Adjacency N E := r.run.after a

def Adjacency.requests (a : Adjacency N E) (rs : List (GraphRequest N E)) : Adjacency N E :=
  rs.foldl request a

def Digraph.request (g : Digraph N E) (r : GraphRequest N E) : Digraph N E := r.runOnEdges.after g

def Digraph.requests (g : Digraph N E) (rs : List (GraphRequest N E)) : Digraph N E :=
  rs.foldl request g

end runs

end MethodFlow
