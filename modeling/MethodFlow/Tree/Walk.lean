import MethodFlow.Tree.Arena

/-!
Walks over trees. Every node belongs to categories, from its own form to the widest. A visitor says
for each category whether it records the nodes of it and what it does below them; the narrowest
category that it has a say on decides. Nodes that it has no say on are walked through.
-/

namespace MethodFlow

inductive Category where
  | node
  | statement
  | eval
  | store
  | shuffle
  | returnValue
  | returnVoid
  | saveAddress
  | phi
  | joinPhi
  | catchPhi
  | returnPhi
  | expression
  | definable
  | memory
  | variable
  | localVariable
  | stackVariable
  | literal
  | binary
  | returnAddress
deriving DecidableEq

/-- The groups that a node belongs to, narrowest first. -/
def Node.categories : Node → List Category
  | .occurrence o =>
    [if o.var.isLocal then .localVariable else .stackVariable, .variable, .memory, .definable,
      .expression, .node]
  | .literal _ => [.literal, .expression, .node]
  | .binary _ _ _ _ => [.binary, .expression, .node]
  | .returnAddress => [.returnAddress, .expression, .node]
  | .eval _ => [.eval, .statement, .node]
  | .store _ _ => [.store, .statement, .node]
  | .shuffle _ _ _ => [.shuffle, .statement, .node]
  | .returnValue _ => [.returnValue, .statement, .node]
  | .returnVoid => [.returnVoid, .statement, .node]
  | .saveAddress _ => [.saveAddress, .statement, .node]
  | .phi p =>
    [match p.kind with
      | .joining => .joinPhi
      | .catching => .catchPhi
      | .returning => .returnPhi,
      .phi, .statement, .node]

/-- What a visitor does below a node that it records. -/
inductive Descent where
  /-- It goes on, unless it is pruned. -/
  | children
  | always
  | never
deriving DecidableEq

/-- What a walk meets, and how it goes on. -/
structure Visitor where
  direction : Direction := .forward
  /-- A pruned visitor does not go below nodes of its own accord. -/
  pruned : Bool := false
  atBlocks : Bool := false
  at? : Category → Option Descent := fun _ => none

namespace Visitor

/-- The category that decides about a node, with the decision. -/
def decision (v : Visitor) (node : Node) : Option (Category × Descent) :=
  node.categories.findSome? fun c => (v.at? c).map fun d => (c, d)

def descends (v : Visitor) : Option (Category × Descent) → Bool
  | none | some (_, .children) => !v.pruned
  | some (_, .always) => true
  | some (_, .never) => false

end Visitor

namespace Tree

/-- The children of a node in the order of a walk, none for a node that is not in use. -/
def visitOrder (t : Tree) (n : NodeId) (d : Direction) : List NodeId :=
  ((t.node? n).map (·.visitOrder d)).getD []

/-- What a walk records at and below a node, to a depth of `limit`. -/
def walkTo (t : Tree) (v : Visitor) : Nat → NodeId → List (Category × NodeId)
  | 0, _ => []
  | limit + 1, n =>
    match t.node? n with
    | none => []
    | some node =>
      let decision := v.decision node
      let here := (decision.map fun d => (d.1, n)).toList
      let below :=
        if v.descends decision then (node.visitOrder v.direction).flatMap (t.walkTo v limit) else []
      here ++ below

def walk (t : Tree) (v : Visitor) (n : NodeId) : List (Category × NodeId) := t.walkTo v t.size n

/-- What a walk records below a node, pruned or not. -/
def walkBelow (t : Tree) (v : Visitor) (n : NodeId) : List (Category × NodeId) :=
  (t.visitOrder n v.direction).flatMap (t.walk v)

/-- What a walk records below a node, nothing if it is pruned. -/
def walkChildren (t : Tree) (v : Visitor) (n : NodeId) : List (Category × NodeId) :=
  if v.pruned then [] else t.walkBelow v n

end Tree

end MethodFlow
