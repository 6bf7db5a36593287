/-!
Handles and variables. A handle names one of the things a method body is made of: a tree node, a
basic block or a subroutine. It is an index in creation order and stays unique for the life of its
owner, so a handle may outlive the thing it named. A variable is a slot of the local variable array
or of the operand stack; many occurrences in the code share one variable.
-/

namespace MethodFlow

structure NodeId where
  index : Nat
deriving DecidableEq

/-- A vertex of a directed graph; in a control flow graph, a basic block. -/
structure BlockId where
  index : Nat
deriving DecidableEq

structure SubroutineId where
  index : Nat
deriving DecidableEq

instance : ToString NodeId := ⟨fun n => s!"#{n.index}"⟩

instance : ToString BlockId := ⟨fun b => s!"B{b.index}"⟩

instance : ToString SubroutineId := ⟨fun s => s!"sub{s.index}"⟩

/-- The long form of a handle, with its sort spelled out. -/
def NodeId.describe (n : NodeId) : String := s!"NodeId({n.index})"

def BlockId.describe (b : BlockId) : String := s!"BlockId({b.index})"

def SubroutineId.describe (s : SubroutineId) : String := s!"SubroutineId({s.index})"

def NodeId.describeOption : Option NodeId → String
  | none => "None"
  | some n => s!"Some({n.describe})"

inductive Storage where
  | locals
  | stack
deriving DecidableEq

/-- A slot, independent of any occurrence of it. -/
structure Var where
  storage : Storage
  index : UInt16
deriving DecidableEq

namespace Var

def ofLocal (index : UInt16) : Var := ⟨.locals, index⟩

def ofStack (index : UInt16) : Var := ⟨.stack, index⟩

def isLocal (v : Var) : Bool :=
  match v.storage with
  | .locals => true
  | .stack => false

instance : ToString Var where
  toString v :=
    match v.storage with
    | .locals => s!"l{v.index.toNat}"
    | .stack => s!"s{v.index.toNat}"

/-- Locals come before stack slots; within one storage the index decides. -/
def rank (v : Var) : Nat :=
  match v.storage with
  | .locals => v.index.toNat
  | .stack => 65536 + v.index.toNat

theorem rank_injective {v w : Var} (h : v.rank = w.rank) : v = w := by
  have hv := v.index.toNat_lt
  have hw := w.index.toNat_lt
  obtain ⟨vs, vi⟩ := v
  obtain ⟨ws, wi⟩ := w
  cases vs <;> cases ws <;> simp only [rank] at h hv hw
  · rw [UInt16.toNat_inj.1 h]
  · omega
  · omega
  · rw [UInt16.toNat_inj.1 (Nat.add_left_cancel h)]

end Var

end MethodFlow
