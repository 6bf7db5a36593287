import MethodFlow.Flow.Basic

/-!
Subroutines of a control flow graph. A call adds an edge to the subroutine's entry. Once the exit is
known, there is an edge from it to the return block of every call. A block is the return block of
one call at most.
-/

namespace MethodFlow.FlowGraph

def subroutine? (f : FlowGraph) (s : SubroutineId) : Option Subroutine := f.subroutines[s.index]?

def subroutine (f : FlowGraph) (s : SubroutineId) : Except Fault Subroutine :=
  match f.subroutine? s with
  | some sub => .ok sub
  | none => .error (.violation (.unknownSubroutine s))

def modifySubroutine (s : SubroutineId) (change : Subroutine → Subroutine) : Edit FlowGraph Unit :=
  modify fun f => { f with subroutines := f.subroutines.modify s.index change }

/-- Registers a subroutine that starts at a block where no other does. -/
def addSubroutine (entry : BlockId) : Edit FlowGraph SubroutineId := do
  Edit.ask (·.checkBlock entry)
  let f ← get
  if f.subroutines.any (·.entry = entry) then throw (.subroutineConflict entry)
  let id : SubroutineId := ⟨f.subroutines.length⟩
  set { f with subroutines := f.subroutines ++ [{ id, entry : Subroutine }] }
  return id

/-- Sets the block that a subroutine is left from. It can be set again to the same block only. -/
def setSubroutineExit (s : SubroutineId) (exit : BlockId) : Edit FlowGraph Unit := do
  Edit.ask (·.checkBlock exit)
  let sub ← Edit.ask (·.subroutine s)
  match sub.exit with
  | some current => if current ≠ exit then throw (.subroutineConflict exit)
  | none => pure ()
  modifySubroutine s fun sub => { sub with exit := some exit }
  sub.returnBlocks.forM fun b => do
    let _ ← addEdge exit b .subroutineReturn

/-- Some other call comes back to `ret`. -/
def returnTaken (f : FlowGraph) (s : SubroutineId) (call ret : BlockId) : Bool :=
  f.subroutines.any fun other =>
    other.paths.any fun p => p.2 = ret && (p.1 ≠ call || other.id ≠ s)

/-- Registers a call from the block `call` that comes back to `ret`. A subroutine is not called from
its own entry, and a call that is there already changes nothing. -/
def addSubroutineCall (s : SubroutineId) (call ret : BlockId) : Edit FlowGraph Unit := do
  Edit.ask (·.checkBlock call)
  Edit.ask (·.checkBlock ret)
  if (← get).returnTaken s call ret then throw (.subroutineConflict ret)
  let sub ← Edit.ask (·.subroutine s)
  if sub.entry = call then throw (.subroutineConflict call)
  if (call, ret) ∈ sub.paths then return ()
  modifySubroutine s fun sub => { sub with paths := sub.paths ++ [(call, ret)] }
  let _ ← addEdge call sub.entry .subroutineCall
  match sub.exit with
  | some exit =>
    let _ ← addEdge exit ret .subroutineReturn
  | none => pure ()

def paths (f : FlowGraph) (s : SubroutineId) : Except Fault (List (BlockId × BlockId)) :=
  Subroutine.paths <$> f.subroutine s

end MethodFlow.FlowGraph
