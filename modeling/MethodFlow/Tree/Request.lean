import MethodFlow.Tree.Build
import MethodFlow.Tree.Phi

/-!
What a caller may ask of a tree. A request that fails leaves behind what it did before it failed.
-/

namespace MethodFlow

inductive TreeRequest where
  | newVariable (var : Var) (type : Descriptor)
  | newLiteral (value : Literal)
  | newReturnAddress
  | newBinary (op : BinaryOp) (left right : NodeId) (type : Descriptor)
  | newEval (value : NodeId)
  | newStore (target value : NodeId)
  | newShuffle (kind : Shuffle) (targets sources : List NodeId)
  | newReturnValue (value : NodeId)
  | newReturnVoid
  | newSaveAddress (sub : SubroutineId)
  | newJoinPhi (target : NodeId) (block : BlockId) (preds : List BlockId)
  | newCatchPhi (target : NodeId)
  | newReturnPhi (target : NodeId) (sub : SubroutineId) (calls : List BlockId)
  | replace (old new : NodeId)
  | cleanup (n : NodeId)
  | cloneSubtree (n : NodeId)
  | setLink (n : NodeId) (definition : Option NodeId)
  | setJoinOperand (n : NodeId) (pred : BlockId) (operand : NodeId)
  | setReturnOperand (n : NodeId) (call : BlockId) (operand : NodeId)
  | addCatchOperand (n operand : NodeId)
  | setCatchOperand (n : NodeId) (index : Nat) (operand : NodeId)

namespace TreeRequest

def run : TreeRequest → Edit Tree Unit
  | newVariable var type => do let _ ← Tree.newVariable var type
  | newLiteral value => do let _ ← Tree.newLiteral value
  | newReturnAddress => do let _ ← Tree.newReturnAddress
  | newBinary op left right type => do let _ ← Tree.newBinary op left right type
  | newEval value => do let _ ← Tree.newEval value
  | newStore target value => do let _ ← Tree.newStore target value
  | newShuffle kind targets sources => do let _ ← Tree.newShuffle kind targets sources
  | newReturnValue value => do let _ ← Tree.newReturnValue value
  | newReturnVoid => do let _ ← Tree.newReturnVoid
  | newSaveAddress sub => do let _ ← Tree.newSaveAddress sub
  | newJoinPhi target block preds => do let _ ← Tree.newJoinPhi target block preds
  | newCatchPhi target => do let _ ← Tree.newCatchPhi target
  | newReturnPhi target sub calls => do let _ ← Tree.newReturnPhi target sub calls
  | replace old new => Tree.replace old new
  | cleanup n => Tree.cleanup n
  | cloneSubtree n => do let _ ← Tree.cloneSubtree n
  | setLink n definition => Tree.setLink n definition
  | setJoinOperand n pred operand => Tree.setJoinOperand n pred operand
  | setReturnOperand n call operand => Tree.setReturnOperand n call operand
  | addCatchOperand n operand => Tree.addCatchOperand n operand
  | setCatchOperand n index operand => Tree.setCatchOperand n index operand

end TreeRequest

/-- A request, or reading the operands of a phi, which drops those that do not belong there any
more. -/
inductive TreeEdit where
  | request (r : TreeRequest)
  | retainJoinOperands (n : NodeId) (preds : List BlockId)
  | readCatchOperands (n : NodeId)

def TreeEdit.run : TreeEdit → Edit (Recorded Tree) Unit
  | request r => Edit.quietly r.run
  | retainJoinOperands n preds => do let _ ← Tree.retainJoinOperands n preds
  | readCatchOperands n => do let _ ← Tree.readCatchOperands n

namespace Tree

def request (t : Tree) (r : TreeRequest) : Tree := r.run.after t

def requests (t : Tree) (rs : List TreeRequest) : Tree := rs.foldl request t

def edit (t : Tree) (e : TreeEdit) : Tree := (e.run.after ⟨t, []⟩).value

def edits (t : Tree) (es : List TreeEdit) : Tree := es.foldl edit t

end Tree

end MethodFlow
