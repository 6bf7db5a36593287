import MethodFlow.Graph.Dominators
import Mathlib.Data.PFun

/-!
Dominators by two fingers. The parents are kept in an array by node, and a second array has the
numbers of the nodes. The loops have no bounds of their own: what is computed has no value if a loop
goes on forever, and none if a node is looked up that an array has no place for.
-/

namespace MethodFlow

/-- The parents found so far, by node. The entry is its own parent until the end. -/
abbrev Idoms := Array (Option BlockId)

namespace Idoms

def look {α : Type} (table : Array α) (b : BlockId) : Part α := .ofOption table[b.index]?

section walk

variable (numbers : Array Nat) (idom : Idoms)

/-- A finger goes to the parent of its node if its number is greater than that of the other finger.
Where there is no parent the walk ends early, with the other finger. -/
def climb (other finger : BlockId) : Part (Except BlockId BlockId ⊕ BlockId) := do
  if (← look numbers finger) ≤ (← look numbers other) then return .inl (.ok finger)
  match ← look idom finger with
  | some parent => return .inr parent
  | none => return .inl (.error other)

def lift (other finger : BlockId) : Part (Except BlockId BlockId) :=
  PFun.fix (climb numbers idom other) finger

/-- Two fingers on different nodes are moved up, the first one and then the second one. -/
def turn (fingers : BlockId × BlockId) : Part (Except BlockId BlockId ⊕ BlockId × BlockId) := do
  if fingers.1 = fingers.2 then return .inl (.ok fingers.1)
  match ← lift numbers idom fingers.2 fingers.1 with
  | .error b => return .inl (.error b)
  | .ok a =>
    match ← lift numbers idom a fingers.2 with
    | .error a => return .inl (.error a)
    | .ok b => return .inr (a, b)

/-- Moves two fingers up in turns until they meet. -/
def intersect (a b : BlockId) : Part (Except BlockId BlockId) := PFun.fix (turn numbers idom) (a, b)

def ending : Except BlockId BlockId → BlockId
  | .ok b | .error b => b

/-- One predecessor added to what the earlier ones agree on. Those without a parent are left out. -/
def agreeWith (found : Option BlockId) (pred : BlockId) : Part (Option BlockId) := do
  match ← look idom pred with
  | none => return found
  | some _ =>
    match found with
    | none => return some pred
    | some current => return some (ending (← intersect numbers idom pred current))

def agreed (preds : List BlockId) : Part (Option BlockId) :=
  preds.foldlM (agreeWith numbers idom) none

end walk

def note (table : Array Nat) (place : BlockId × Nat) : Array Nat :=
  table.setIfInBounds place.1.index place.2

/-- The numbers of the nodes in `order`, by node. The others have the greatest number that a machine
word holds. -/
def numbers (count : Nat) (order : List BlockId) : Array Nat :=
  order.zipIdx.foldl note (Array.replicate count (UInt64.size - 1))

def initial (count : Nat) (entry : BlockId) : Idoms :=
  (Array.replicate count none).setIfInBounds entry.index (some entry)

end Idoms

namespace Digraph

variable {N E : Type} (g : Digraph N E)

/-- Gives one node the parent that its predecessors agree on, and notes whether that is a change. -/
def visit (numbers : Array Nat) (s : Idoms × Bool) (node : BlockId) : Part (Idoms × Bool) := do
  let found ← s.1.agreed numbers (g.predecessors node)
  if found.isSome && (← Idoms.look s.1 node) ≠ found then
    return (s.1.setIfInBounds node.index found, true)
  else return s

/-- One round over the nodes. It is the last one if it changes nothing. -/
def round (numbers : Array Nat) (nodes : List BlockId) (idom : Idoms) : Part (Idoms ⊕ Idoms) := do
  let s ← nodes.foldlM (g.visit numbers) (idom, false)
  return if s.2 then .inr s.1 else .inl s.1

def settle (numbers : Array Nat) (nodes : List BlockId) (idom : Idoms) : Part Idoms :=
  PFun.fix (g.round numbers nodes) idom

def numbersFrom (entry : BlockId) : Array Nat :=
  Idoms.numbers g.nodeCount (g.reversePostorder entry)

def computeDominators (entry : BlockId) : Part DominatorTree := do
  if !g.contains entry then return { entry, parents := Array.replicate g.nodeCount none }
  let idom ← g.settle (g.numbersFrom entry) (g.reversePostorder entry).tail
    (Idoms.initial g.nodeCount entry)
  return { entry, parents := idom.setIfInBounds entry.index none }

end Digraph

end MethodFlow
