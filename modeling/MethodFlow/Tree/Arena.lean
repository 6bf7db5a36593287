import MethodFlow.Edit
import MethodFlow.Tree.Node

/-!
The arena of a method's expression trees. Each node has a slot of its own, which is emptied when the
node is removed and never filled again. A node in use knows its parent, and a statement the block
that it is placed in.
-/

namespace MethodFlow

structure Slot where
  node : Node
  parent : Option NodeId := none
  block : Option BlockId := none
deriving DecidableEq

/-- The slots of all nodes ever made, in the order in which they were. -/
structure Tree where
  slots : Array (Option Slot)
deriving DecidableEq

namespace Tree

def empty : Tree := ⟨#[]⟩

def size (t : Tree) : Nat := t.slots.size

def slot? (t : Tree) (n : NodeId) : Option Slot := t.slots[n.index]?.join

def isLive (t : Tree) (n : NodeId) : Bool := (t.slot? n).isSome

def liveCount (t : Tree) : Nat := t.slots.countP Option.isSome

def handles (t : Tree) : List NodeId := (List.range t.size).map NodeId.mk

def node? (t : Tree) (n : NodeId) : Option Node := (t.slot? n).map Slot.node

def put (t : Tree) (n : NodeId) (s : Slot) : Tree := ⟨t.slots.setIfInBounds n.index (some s)⟩

def erase (t : Tree) (n : NodeId) : Tree := ⟨t.slots.setIfInBounds n.index none⟩

/-- The node that the next `alloc` makes. -/
def next (t : Tree) : NodeId := ⟨t.slots.size⟩

def push (t : Tree) (s : Slot) : Tree := ⟨t.slots.push (some s)⟩

theorem slot?_push (t : Tree) (s : Slot) (n : NodeId) :
    (t.push s).slot? n = if n = t.next then some s else t.slot? n := by
  obtain ⟨i⟩ := n
  simp only [slot?, push, next, Array.getElem?_push, NodeId.mk.injEq]
  split <;> rfl

theorem slot?_put {t : Tree} {n m : NodeId} {s : Slot} (h : t.isLive n) :
    (t.put n s).slot? m = if m = n then some s else t.slot? m := by
  obtain ⟨i⟩ := n
  obtain ⟨j⟩ := m
  have hi : i < t.slots.size := by
    rcases Nat.lt_or_ge i t.slots.size with hi | hi
    · exact hi
    · simp [isLive, slot?, Array.getElem?_eq_none hi] at h
  simp only [slot?, put, Array.getElem?_setIfInBounds, NodeId.mk.injEq]
  by_cases hij : i = j
  · subst hij
    simp [hi]
  · simp [hij, Ne.symm hij]

theorem slot?_erase (t : Tree) (n m : NodeId) :
    (t.erase n).slot? m = if m = n then none else t.slot? m := by
  obtain ⟨i⟩ := n
  obtain ⟨j⟩ := m
  simp only [slot?, erase, Array.getElem?_setIfInBounds, NodeId.mk.injEq]
  by_cases hij : i = j
  · subst hij
    by_cases hi : i < t.slots.size <;> simp [hi]
  · simp [hij, Ne.symm hij]

def slot (t : Tree) (n : NodeId) : Except Fault Slot :=
  match t.slot? n with
  | some s => .ok s
  | none => .error (.invalidNode n)

def node (t : Tree) (n : NodeId) : Except Fault Node := Slot.node <$> t.slot n

def parent (t : Tree) (n : NodeId) : Except Fault (Option NodeId) := Slot.parent <$> t.slot n

def children (t : Tree) (n : NodeId) : Except Fault (List NodeId) := Node.children <$> t.node n

def expression (t : Tree) (n : NodeId) : Except Fault Node := do
  let node ← t.node n
  if node.isStatement then throw (.violation (.statementAsExpression n)) else return node

def statement (t : Tree) (n : NodeId) : Except Fault Node := do
  let node ← t.node n
  if node.isStatement then return node else throw (.violation (.expressionAsStatement n))

def isStatement (t : Tree) (n : NodeId) : Bool := (t.node? n).any Node.isStatement

def typeOf (t : Tree) (n : NodeId) : Except Fault Descriptor := do
  match (← t.node n).type? with
  | some type => return type
  | none => throw (.violation (.statementAsExpression n))

/-- Follows parents up from a node, at most `limit` times. -/
def climb (t : Tree) (start : NodeId) : Nat → NodeId → Except Fault NodeId
  | 0, _ => .error (.violation (.endlessOwnership start))
  | limit + 1, n => do
    match ← t.parent n with
    | none => return n
    | some p => t.climb start limit p

/-- The topmost node above `n`. Parents that go in a circle have none. -/
def root (t : Tree) (n : NodeId) : Except Fault NodeId := t.climb n (t.size + 1) n

def statementOf (t : Tree) (n : NodeId) : Except Fault (Option NodeId) := do
  let top ← t.root n
  return if t.isStatement top then some top else none

/-- The block of the statement that `n` belongs to. -/
def blockOf (t : Tree) (n : NodeId) : Except Fault (Option BlockId) := do
  Slot.block <$> t.slot (← t.root n)

def alloc (node : Node) : Edit Tree NodeId := modifyGet fun t => (t.next, t.push { node })

def modifySlot (n : NodeId) (f : Slot → Slot) : Edit Tree Unit := do
  let s ← Edit.ask (·.slot n)
  modify (·.put n (f s))

def setParent (n : NodeId) (parent : Option NodeId) : Edit Tree Unit :=
  modifySlot n fun s => { s with parent }

def setBlock (n : NodeId) (block : Option BlockId) : Edit Tree Unit :=
  modifySlot n fun s => { s with block }

def setNode (n : NodeId) (node : Node) : Edit Tree Unit :=
  modifySlot n fun s => { s with node }

end Tree

end MethodFlow
