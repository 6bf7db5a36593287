import MethodFlow.Tree.Ownership

/-!
Making nodes. A new node takes its children over, and the variables that a statement writes become
definitions.
-/

namespace MethodFlow.Tree

def newVariable (var : Var) (type : Descriptor) : Edit Tree NodeId :=
  alloc (.occurrence { var, type })

def newLiteral (value : Literal) : Edit Tree NodeId := alloc (.literal value)

def newReturnAddress : Edit Tree NodeId := alloc .returnAddress

def newBinary (op : BinaryOp) (left right : NodeId) (type : Descriptor) : Edit Tree NodeId :=
  allocOwning (.binary op left right type)

def newEval (value : NodeId) : Edit Tree NodeId := allocOwning (.eval value)

def newReturnValue (value : NodeId) : Edit Tree NodeId := allocOwning (.returnValue value)

def newReturnVoid : Edit Tree NodeId := alloc .returnVoid

def newSaveAddress (sub : SubroutineId) : Edit Tree NodeId := alloc (.saveAddress sub)

/-- Makes a store; its target must be a variable. -/
def newStore (target value : NodeId) : Edit Tree NodeId := do
  let _ ← Edit.ask (·.occurrence target)
  let n ← allocOwning (.store target value)
  define target
  return n

/-- A shuffle works on stack slots. -/
def checkStackSlot (t : Tree) (n : NodeId) : Except Fault Unit := do
  if (← t.varOf n).isLocal then throw (.violation (.notStackSlot n))

/-- Makes a shuffle. Its kind fixes how many slots it writes and reads. -/
def newShuffle (kind : Shuffle) (targets sources : List NodeId) : Edit Tree NodeId := do
  Edit.guard (targets.length = kind.targetCount && sources.length = kind.sourceCount)
    (.violation (.shuffleArity kind targets.length sources.length))
  (targets ++ sources).forM fun n => Edit.ask (·.checkStackSlot n)
  let n ← allocOwning (.shuffle kind targets sources)
  targets.forM define
  return n

/-- A use of the target's variable for each key. -/
def newOperands (target : NodeId) (keys : List BlockId) : Edit Tree (List (BlockId × NodeId)) :=
  keys.mapM fun key => do return (key, ← useLike target)

/-- Makes a phi whose inputs are ready and defines its target. -/
def newPhi (target : NodeId) (inputs : PhiInputs) : Edit Tree NodeId := do
  let n ← allocOwning (.phi ⟨target, inputs⟩)
  define target
  return n

/-- Makes a phi for the join at `block`, with an unlinked operand for each predecessor. -/
def newJoinPhi (target : NodeId) (block : BlockId) (preds : List BlockId) : Edit Tree NodeId := do
  Edit.ask (·.checkDetached target)
  newPhi target (.joining block (← newOperands target preds))

def newCatchPhi (target : NodeId) : Edit Tree NodeId := do
  let _ ← Edit.ask (·.occurrence target)
  newPhi target (.catching [])

/-- Makes a phi for the return from `sub`, with an unlinked operand for each call. -/
def newReturnPhi (target : NodeId) (sub : SubroutineId) (calls : List BlockId) :
    Edit Tree NodeId := do
  Edit.ask (·.checkDetached target)
  newPhi target (.returning sub (← newOperands target calls))

end MethodFlow.Tree
