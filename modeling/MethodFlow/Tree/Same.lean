import MethodFlow.Tree.Variable

/-!
Structural equality of expressions. Two expressions are the same if they have the same form, and
their variables stand for the same definitions. A fingerprint spells an expression's structure as a
row of marks, operator first.
-/

namespace MethodFlow

/-- One mark of a fingerprint. -/
inductive Mark where
  | missing
  | variable (var : Var) (type : Descriptor) (definition : Option NodeId)
  | literal (value : Literal)
  | binary (op : BinaryOp) (type : Descriptor)
  | returnAddress
deriving DecidableEq

namespace Tree

/-- Equality of what is at and below two nodes, to a depth of `limit`. -/
def sameTo (t : Tree) : Nat → NodeId → NodeId → Bool
  | 0, _, _ => false
  | limit + 1, a, b =>
    match t.node? a, t.node? b with
    | some (.occurrence x), some (.occurrence y) =>
      x.var = y.var && x.type = y.type && x.definition a = y.definition b
    | some (.literal x), some (.literal y) => x = y
    | some (.binary op left right type), some (.binary op' left' right' type') =>
      op = op' && type = type' && t.sameTo limit left left' && t.sameTo limit right right'
    | some .returnAddress, some .returnAddress => true
    | _, _ => false

/-- Equality of two expressions. Whatever is not in use, or not an expression, equals nothing. -/
def same (t : Tree) (a b : NodeId) : Bool := t.sameTo t.size a b

def marksTo (t : Tree) : Nat → NodeId → List Mark
  | 0, _ => [.missing]
  | limit + 1, n =>
    match t.node? n with
    | some (.occurrence o) => [.variable o.var o.type (o.definition n)]
    | some (.literal value) => [.literal value]
    | some (.binary op left right type) =>
      .binary op type :: t.marksTo limit left ++ t.marksTo limit right
    | some .returnAddress => [.returnAddress]
    | _ => [.missing]

def fingerprint (t : Tree) (n : NodeId) : List Mark := t.marksTo t.size n

/-- The nodes that are not the same as an earlier one among them. -/
def distinct (t : Tree) (nodes : List NodeId) : List NodeId :=
  nodes.foldl (fun kept n => if kept.any (t.same n) then kept else kept ++ [n]) []

end Tree

end MethodFlow
