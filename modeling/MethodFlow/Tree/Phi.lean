import MethodFlow.Tree.Ownership

/-!
Operands of phis. Every operand is a use of the phi's own variable and belongs to the phi. An
operand that is exchanged or dropped is removed. A phi at a handler keeps one operand for each
definition; since links may change behind its back, repetitions are dropped when the operands are
read.
-/

namespace MethodFlow

def PhiInputs.find? (operands : List (BlockId × NodeId)) (key : BlockId) : Option NodeId :=
  (operands.find? fun p => p.1 = key).map Prod.snd

/-- Puts an operand under a key, in the place of the first one there or at the end. -/
def PhiInputs.assign (key : BlockId) (operand : NodeId) :
    List (BlockId × NodeId) → List (BlockId × NodeId)
  | [] => [(key, operand)]
  | (k, old) :: rest =>
    if k = key then (k, operand) :: rest else (k, old) :: assign key operand rest

namespace Tree

def phi (t : Tree) (n : NodeId) : Except Fault Phi := do
  match ← t.statement n with
  | .phi p => return p
  | _ => throw (.violation (.notPhi n))

def phiKind? (t : Tree) (n : NodeId) : Option PhiKind :=
  match t.node? n with
  | some (.phi p) => some p.kind
  | _ => none

def phiTarget (t : Tree) (n : NodeId) : Except Fault NodeId := Phi.target <$> t.phi n

def phiOperands (t : Tree) (n : NodeId) : Except Fault (List NodeId) := Phi.operands <$> t.phi n

def joinOperandAt (t : Tree) (n : NodeId) (pred : BlockId) : Except Fault (Option NodeId) := do
  match (← t.phi n).inputs with
  | .joining _ operands => return PhiInputs.find? operands pred
  | _ => throw (.violation (.notPhiOfKind .joining n))

def returnOperandAt (t : Tree) (n : NodeId) (call : BlockId) : Except Fault (Option NodeId) := do
  match (← t.phi n).inputs with
  | .returning _ operands => return PhiInputs.find? operands call
  | _ => throw (.violation (.notPhiOfKind .returning n))

def catchOperands (t : Tree) (n : NodeId) : Except Fault (List NodeId) := do
  match (← t.phi n).inputs with
  | .catching operands => return operands
  | _ => throw (.violation (.notPhiOfKind .catching n))

def catchOperandAt (t : Tree) (n : NodeId) (index : Nat) : Except Fault NodeId := do
  match (← t.catchOperands n)[index]? with
  | some operand => return operand
  | none => throw .outOfBounds

/-- Some operand stands for `definition`. -/
def standsFor (t : Tree) (definition : Option NodeId) : List NodeId → Except Fault Bool
  | [] => return false
  | operand :: rest => do
    if (← t.definitionOf operand) = definition then return true else t.standsFor definition rest

def hasCatchDefinition (t : Tree) (n : NodeId) (definition : Option NodeId) :
    Except Fault Bool := do
  t.standsFor definition (← t.catchOperands n)

/-- An operand must be a detached use of the phi's variable. -/
def checkOperand (t : Tree) (n operand : NodeId) : Except Fault Unit := do
  let target ← t.phiTarget n
  t.checkDetached operand
  if ← t.isDefinition operand then throw (.violation (.operandDefines operand))
  let found ← t.varOf operand
  let expected ← t.varOf target
  if found ≠ expected then throw (.violation (.operandOfOther operand expected))

def setInputs (n : NodeId) (p : Phi) (inputs : PhiInputs) : Edit Tree Unit :=
  setNode n (.phi { p with inputs })

/-- Hands a stored operand to its phi and removes the one that it took the place of. -/
def adopt (n operand : NodeId) (old : Option NodeId) : Edit Tree Unit := do
  setParent operand (some n)
  match old with
  | some o => discard o
  | none => pure ()

def setJoinOperand (n : NodeId) (pred : BlockId) (operand : NodeId) : Edit Tree Unit := do
  Edit.ask (·.checkOperand n operand)
  let p ← Edit.ask (·.phi n)
  match p.inputs with
  | .joining block operands =>
    setInputs n p (.joining block (PhiInputs.assign pred operand operands))
    adopt n operand (PhiInputs.find? operands pred)
  | _ => throw (.violation (.notPhiOfKind .joining n))

def setReturnOperand (n : NodeId) (call : BlockId) (operand : NodeId) : Edit Tree Unit := do
  Edit.ask (·.checkOperand n operand)
  let p ← Edit.ask (·.phi n)
  match p.inputs with
  | .returning sub operands =>
    setInputs n p (.returning sub (PhiInputs.assign call operand operands))
    adopt n operand (PhiInputs.find? operands call)
  | _ => throw (.violation (.notPhiOfKind .returning n))

/-- Appends an operand for a definition that no operand stands for yet. -/
def addCatchOperand (n operand : NodeId) : Edit Tree Unit := do
  Edit.ask (·.checkOperand n operand)
  let definition ← Edit.ask (·.definitionOf operand)
  if ← Edit.ask (·.hasCatchDefinition n definition) then
    throw (.violation (.repeatedDefinition n definition))
  let p ← Edit.ask (·.phi n)
  setInputs n p (.catching (p.operands ++ [operand]))
  adopt n operand none

/-- Exchanges the operand at a position. Its definition may repeat until the operands are next
read. -/
def setCatchOperand (n : NodeId) (index : Nat) (operand : NodeId) : Edit Tree Unit := do
  Edit.ask (·.checkOperand n operand)
  let p ← Edit.ask (·.phi n)
  let operands ← Edit.ask (·.catchOperands n)
  match operands[index]? with
  | none => throw .outOfBounds
  | some old =>
    setInputs n p (.catching (operands.set index operand))
    adopt n operand (some old)

/-- Removes operands that a phi no longer stores, each with a report. -/
def dropOperands (event : NodeId → Event) (dropped : List NodeId) : Edit (Recorded Tree) Unit :=
  dropped.forM fun operand => do
    Edit.report (event operand)
    discard operand

/-- Drops the operands at a join that no block of `preds` keys and returns the others in the order
of `preds`. A block without an operand is passed over. -/
def retainJoinOperands (n : NodeId) (preds : List BlockId) :
    Edit (Recorded Tree) (List NodeId) := do
  match ← Edit.ask (fun (r : Recorded Tree) => r.value.node n) with
  | .phi p =>
    match p.inputs with
    | .joining block operands =>
      let kept := operands.filter fun q => q.1 ∈ preds
      let dropped := operands.filter fun q => q.1 ∉ preds
      setInputs n p (.joining block kept)
      dropOperands (.edgeOperandDropped · n) (dropped.map Prod.snd)
      return preds.filterMap (PhiInputs.find? kept)
    | _ => throw (.violation (.notPhiOfKind .joining n))
  | _ => throw (.violation (.notPhi n))

/-- Splits operands into the first for each definition and the repetitions. -/
def splitRepeated (t : Tree) : List (Option NodeId) → List NodeId →
    Except Fault (List NodeId × List NodeId)
  | _, [] => return ([], [])
  | seen, operand :: rest => do
    let definition ← t.definitionOf operand
    if definition ∈ seen then
      let (kept, dropped) ← t.splitRepeated seen rest
      return (kept, operand :: dropped)
    else
      let (kept, dropped) ← t.splitRepeated (definition :: seen) rest
      return (operand :: kept, dropped)

/-- The operands at a handler, one for each definition. Repetitions are dropped. -/
def readCatchOperands (n : NodeId) : Edit (Recorded Tree) (List NodeId) := do
  let operands ← Edit.ask (fun (r : Recorded Tree) => r.value.catchOperands n)
  let (kept, dropped) ← Edit.ask (fun (r : Recorded Tree) => r.value.splitRepeated [] operands)
  if !dropped.isEmpty then
    let p ← Edit.ask (fun (r : Recorded Tree) => r.value.phi n)
    setInputs n p (.catching kept)
    dropOperands (.repeatedOperandDropped · n) dropped
  return kept

end Tree

end MethodFlow
