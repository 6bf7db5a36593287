import MethodFlow.Flow.Statements
import MethodFlow.Flow.Subroutines

/-!
What a conversion to static single assignment form is asked for, the version numbers that it takes,
and a control flow graph together with what an analysis keeps about it while both change. Each
variable has its own sequence of version numbers, which starts at zero and has no gaps.
-/

namespace MethodFlow

/-- Which phis a conversion places, which variables it converts, and whether it removes phis that
turn out to merge a single definition. -/
structure SsaOptions where
  returnPhis : Bool := true
  /-- Only locals get phis at handlers: the stack is empty when a handler is entered. -/
  catchPhis : Bool := true
  stackVariables : Bool := true
  collapse : Bool := false
deriving DecidableEq

/-- Only phis at joins, only locals, and no removal. -/
def SsaOptions.minimal : SsaOptions :=
  { returnPhis := false, catchPhis := false, stackVariables := false }

def SsaOptions.converts (o : SsaOptions) (v : Var) : Bool := v.isLocal || o.stackVariables

/-- The variables that numbers were taken for, once for each number. -/
structure Numbering where
  taken : List Var := []

namespace Numbering

/-- How many numbers were taken for a variable, which is also the next one. -/
def count (n : Numbering) (v : Var) : Nat := n.taken.count v

def take (n : Numbering) (v : Var) : Numbering := ⟨v :: n.taken⟩

@[simp] theorem count_take (n : Numbering) (v w : Var) :
    (n.take v).count w = n.count w + if v = w then 1 else 0 := by
  simp [count, take, List.count_cons]

end Numbering

/-- A graph, and the analysis's own data. -/
structure Bench (τ : Type) where
  flow : FlowGraph
  own : τ

namespace Bench

variable {τ υ α : Type}

instance : MonadLift (Edit FlowGraph) (Edit (Bench τ)) :=
  ⟨Edit.within Bench.flow fun b flow => { b with flow }⟩

def graphOf (r : Recorded (Bench τ)) : FlowGraph := r.value.flow

def ownOf (r : Recorded (Bench τ)) : τ := r.value.own

def modifyOwn (f : τ → τ) : Edit (Recorded (Bench τ)) Unit :=
  modify fun r => { r with value := { r.value with own := f r.value.own } }

/-- Runs an operation on other own data, which it returns. A failure loses them. -/
def beside (start : υ) (x : Edit (Recorded (Bench υ)) α) :
    Edit (Recorded FlowGraph) (α × υ) := fun r =>
  match x ⟨⟨r.value, start⟩, r.events⟩ with
  | .ok a r' => .ok (a, r'.value.own) ⟨r'.value.flow, r'.events⟩
  | .error e r' => .error e ⟨r'.value.flow, r'.events⟩

def onGraph (x : Edit (Recorded FlowGraph) α) : Edit (Recorded (Bench τ)) α :=
  Edit.within (fun r => ⟨r.value.flow, r.events⟩)
    (fun r s => ⟨{ r.value with flow := s.value }, s.events⟩) x

def onTree (x : Edit (Recorded Tree) α) : Edit (Recorded (Bench τ)) α :=
  Edit.within (fun r => ⟨r.value.flow.tree, r.events⟩)
    (fun r s => ⟨{ r.value with flow := { r.value.flow with tree := s.value } }, s.events⟩) x

/-- Runs an operation on a part of the own data, or gives `absent` where there is no such part. -/
def onPart (part : τ → Option υ) (restore : τ → υ → τ) (absent : α)
    (x : Edit (Recorded (Bench υ)) α) : Edit (Recorded (Bench τ)) α := fun r =>
  match part r.value.own with
  | none => .ok absent r
  | some u =>
    Edit.within (fun r : Recorded (Bench τ) => ⟨⟨r.value.flow, u⟩, r.events⟩)
      (fun r s => ⟨⟨s.value.flow, restore r.value.own s.value.own⟩, s.events⟩) x r

end Bench

end MethodFlow
