import MethodFlow.Edit

/-!
Directed graphs with payloads on nodes and edges. The edges form one list in the order in which they
were added; the successors and the predecessors of a node are read off it, so they keep that order
too. Between two nodes there is at most one edge in each direction. Nodes are never removed.
-/

namespace MethodFlow

structure Edge (E : Type) where
  source : BlockId
  target : BlockId
  label : E
deriving DecidableEq

structure Digraph (N E : Type) where
  nodes : Array N
  edges : List (Edge E)

namespace Digraph

variable {N E : Type}

def empty : Digraph N E := ⟨#[], []⟩

def nodeCount (g : Digraph N E) : Nat := g.nodes.size

def edgeCount (g : Digraph N E) : Nat := g.edges.length

def contains (g : Digraph N E) (b : BlockId) : Bool := b.index < g.nodes.size

def nodeIds (g : Digraph N E) : List BlockId := (List.range g.nodes.size).map BlockId.mk

def node? (g : Digraph N E) (b : BlockId) : Option N := g.nodes[b.index]?

/-- Changes the payload of a node that is there. -/
def modifyNode (g : Digraph N E) (b : BlockId) (f : N → N) : Digraph N E :=
  { g with nodes := g.nodes.modify b.index f }

/-- The node that the next `addNode` makes. -/
def nextNode (g : Digraph N E) : BlockId := ⟨g.nodes.size⟩

def addNode (g : Digraph N E) (payload : N) : Digraph N E :=
  { g with nodes := g.nodes.push payload }

def outgoing (g : Digraph N E) (b : BlockId) : List (Edge E) :=
  g.edges.filter fun e => e.source = b

def incoming (g : Digraph N E) (b : BlockId) : List (Edge E) :=
  g.edges.filter fun e => e.target = b

def successors (g : Digraph N E) (b : BlockId) : List BlockId := (g.outgoing b).map Edge.target

def predecessors (g : Digraph N E) (b : BlockId) : List BlockId := (g.incoming b).map Edge.source

def Joins (s t : BlockId) (e : Edge E) : Prop := e.source = s ∧ e.target = t

instance (s t : BlockId) (e : Edge E) : Decidable (Joins s t e) :=
  inferInstanceAs (Decidable (_ ∧ _))

def edge? (g : Digraph N E) (s t : BlockId) : Option E :=
  (g.edges.find? fun e => Joins s t e).map Edge.label

def hasEdge (g : Digraph N E) (s t : BlockId) : Bool := (g.edge? s t).isSome

def edgesBySource (g : Digraph N E) : List (Edge E) := g.nodeIds.flatMap g.outgoing

/-- Adds an edge and says whether it is new. An edge that is there keeps its payload. -/
def addEdge (s t : BlockId) (label : E) : Edit (Digraph N E) Bool := do
  let g ← get
  Edit.guard (g.contains s) (.graph (.missingSource s g.nodeCount))
  Edit.guard (g.contains t) (.graph (.missingTarget t g.nodeCount))
  if g.hasEdge s t then return false
  set { g with edges := g.edges ++ [Edge.mk s t label] }
  return true

def removeEdge (g : Digraph N E) (s t : BlockId) : Digraph N E :=
  { g with edges := g.edges.eraseP fun e => Joins s t e }

theorem mem_successors {g : Digraph N E} {s t : BlockId} :
    t ∈ g.successors s ↔ ∃ e ∈ g.edges, Joins s t e := by
  simp only [successors, outgoing, List.mem_map, List.mem_filter, decide_eq_true_eq, Joins]
  constructor
  · rintro ⟨e, ⟨he, hs⟩, ht⟩
    exact ⟨e, he, hs, ht⟩
  · rintro ⟨e, he, hs, ht⟩
    exact ⟨e, ⟨he, hs⟩, ht⟩

theorem mem_predecessors {g : Digraph N E} {s t : BlockId} :
    s ∈ g.predecessors t ↔ ∃ e ∈ g.edges, Joins s t e := by
  simp only [predecessors, incoming, List.mem_map, List.mem_filter, decide_eq_true_eq, Joins]
  constructor
  · rintro ⟨e, ⟨he, ht⟩, hs⟩
    exact ⟨e, he, hs, ht⟩
  · rintro ⟨e, he, hs, ht⟩
    exact ⟨e, ⟨he, ht⟩, hs⟩

end Digraph

end MethodFlow
