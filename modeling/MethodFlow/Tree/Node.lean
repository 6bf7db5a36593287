import MethodFlow.Decimal.Shortest
import MethodFlow.Descriptor.Basic
import MethodFlow.Handle
import MethodFlow.Text.Quoted
import MethodFlow.Tree.Operator

/-!
Nodes of the expression trees. A node names its children by handle. It writes the variables that it
defines and reads everything else below it, and it reads before it writes.

Floating point literals are kept as words, so two of them are equal when their bits are: not a
number equals itself, and the two zeros differ.
-/

namespace MethodFlow

/-- A literal. Integers also stand for the narrower primitive types. -/
inductive Literal where
  | int (value : Int32)
  | long (value : Int64)
  | float (bits : UInt32)
  | double (bits : UInt64)
  | string (text : String)
  | classOf (type : Descriptor)
  | null
deriving DecidableEq

namespace Literal

def type : Literal → Descriptor
  | int _ => .int
  | long _ => .primitive .long
  | float _ => .primitive .float
  | double _ => .primitive .double
  | string _ => .object "java/lang/String"
  | classOf _ => .object "java/lang/Class"
  | null => .nullType

/-- Every literal but an integer and null carries a mark of its type. -/
def text : Literal → String
  | int value => toString value.toInt
  | long value => toString value.toInt ++ "L"
  | float bits => Decimal.single.text bits.toNat ++ "F"
  | double bits => Decimal.double.text bits.toNat ++ "D"
  | string text => Text.quote text
  | classOf type => toString type ++ ".class"
  | null => "null"

end Literal

/-- One place where a variable is defined or used. A use may link to the definition that reaches it,
and a definition may carry the number that a conversion gave it. -/
structure Occurrence where
  var : Var
  type : Descriptor
  defines : Bool := false
  link : Option NodeId := none
  version : Option Nat := none
deriving DecidableEq

/-- The definition that the occurrence at `id` stands for: itself, or the one it links to. -/
def Occurrence.definition (o : Occurrence) (id : NodeId) : Option NodeId :=
  if o.defines then some id else o.link

/-- What a phi merges. Operands at a join are keyed by the block that control comes from, those
behind a subroutine by the block that called it. -/
inductive PhiInputs where
  | joining (block : BlockId) (operands : List (BlockId × NodeId))
  | catching (operands : List NodeId)
  | returning (sub : SubroutineId) (operands : List (BlockId × NodeId))
deriving DecidableEq

/-- A phi defines its target as one of its operands. -/
structure Phi where
  target : NodeId
  inputs : PhiInputs
deriving DecidableEq

def Phi.kind (p : Phi) : PhiKind :=
  match p.inputs with
  | .joining _ _ => .joining
  | .catching _ => .catching
  | .returning _ _ => .returning

def Phi.operands (p : Phi) : List NodeId :=
  match p.inputs with
  | .joining _ operands | .returning _ operands => operands.map Prod.snd
  | .catching operands => operands

inductive Node where
  | occurrence (o : Occurrence)
  | literal (value : Literal)
  | binary (op : BinaryOp) (left right : NodeId) (type : Descriptor)
  | returnAddress
  | eval (value : NodeId)
  | store (target value : NodeId)
  | shuffle (kind : Shuffle) (targets sources : List NodeId)
  | returnValue (value : NodeId)
  | returnVoid
  | saveAddress (sub : SubroutineId)
  | phi (p : Phi)
deriving DecidableEq

/-- The sense in which siblings, statements and blocks are visited. -/
inductive Direction where
  | forward
  | reverse
deriving DecidableEq

def Direction.orient {α : Type} (d : Direction) (xs : List α) : List α :=
  match d with
  | forward => xs
  | reverse => xs.reverse

namespace Node

def isStatement : Node → Bool
  | occurrence _ | literal _ | binary _ _ _ _ | returnAddress => false
  | _ => true

def type? : Node → Option Descriptor
  | occurrence o => some o.type
  | literal value => some value.type
  | binary _ _ _ type => some type
  | returnAddress => some .returnAddress
  | _ => none

def writes : Node → List NodeId
  | store target _ => [target]
  | shuffle _ targets _ => targets
  | phi p => [p.target]
  | _ => []

/-- The children that a node evaluates, in the order in which it does so. -/
def reads : Node → List NodeId
  | binary _ left right _ => [left, right]
  | eval value | store _ value | returnValue value => [value]
  | shuffle _ _ sources => sources
  | phi p => p.operands
  | _ => []

def children (n : Node) : List NodeId := n.writes ++ n.reads

/-- All children, in the order in which a walk visits them. -/
def visitOrder (n : Node) (d : Direction) : List NodeId := d.orient (n.reads ++ n.writes)

/-- New operands under the old keys. -/
def rekey (operands : List (BlockId × NodeId)) (new : List NodeId) : List (BlockId × NodeId) :=
  (operands.map Prod.fst).zip new

def phiWith (p : Phi) (target : NodeId) (operands : List NodeId) : Phi :=
  match p.inputs with
  | .joining block old => ⟨target, .joining block (rekey old operands)⟩
  | .catching _ => ⟨target, .catching operands⟩
  | .returning sub old => ⟨target, .returning sub (rekey old operands)⟩

/-- The node with other children, given as they stand in it. A list of another length changes
nothing. -/
def withChildren (n : Node) (new : List NodeId) : Node :=
  if new.length ≠ n.children.length then n
  else
    match n, new with
    | binary op _ _ type, [left, right] => binary op left right type
    | eval _, [value] => eval value
    | store _ _, [target, value] => store target value
    | shuffle kind targets _, new =>
      shuffle kind (new.take targets.length) (new.drop targets.length)
    | returnValue _, [value] => returnValue value
    | phi p, target :: operands => phi (phiWith p target operands)
    | n, _ => n

def replaceChild (n : Node) (old new : NodeId) : Node :=
  n.withChildren (n.children.map fun c => if c = old then new else c)

end Node

end MethodFlow
