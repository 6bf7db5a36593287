import MethodFlow.CodeTable.ProtectedRange
import MethodFlow.Flow.Basic

/-!
Exception handlers of a control flow graph. Registering a handler adds an edge from each protected
block to the handler's entry.
-/

namespace MethodFlow.FlowGraph

/-- Registers a handler and returns its position. -/
def addHandler (protectedBlocks : List BlockId) (entry : BlockId) (caught : Option Descriptor) :
    Edit FlowGraph Nat := do
  Edit.ask (·.checkBlock entry)
  protectedBlocks.forM fun b => Edit.ask (·.checkBlock b)
  protectedBlocks.forM fun b => do
    let _ ← addEdge b entry .exception
  modifyGet fun f =>
    (f.handlers.length, { f with handlers := f.handlers ++ [⟨protectedBlocks, entry, caught⟩] })

def handlersProtecting (f : FlowGraph) (b : BlockId) : List Handler :=
  f.handlers.filter (·.protects b)

def catchBlocks (f : FlowGraph) : List BlockId := firstOccurrences (f.handlers.map Handler.entry)

def blocksIn (f : FlowGraph) (range : ProtectedRange) : List BlockId :=
  f.blocks.filter fun b => (f.block? b).any fun block => range.covers block.label

def caughtBy (resolve : UInt16 → Except Fault Descriptor) (range : ProtectedRange) :
    Except Fault (Option Descriptor) :=
  if range.catchesAll then .ok none else some <$> resolve range.caught

def handlerOf (f : FlowGraph) (resolve : UInt16 → Except Fault Descriptor)
    (range : ProtectedRange) : Except Fault Handler := do
  match f.blockAt? range.handler.toUInt32 with
  | none => throw (.graph (.handlerOffset range.handler))
  | some entry =>
    let guarded := f.blocksIn range
    if guarded.isEmpty then throw (.graph (.nothingProtected range.start range.stop))
    return ⟨guarded, entry, ← caughtBy resolve range⟩

/-- Registers a handler for each entry of a table. If an entry has none, nothing is registered. -/
def addExceptionTable (table : CodeTable ProtectedRange)
    (resolve : UInt16 → Except Fault Descriptor) : Edit FlowGraph Unit := do
  let found ← Edit.ask fun f => table.entries.mapM (f.handlerOf resolve)
  found.forM fun h => do
    let _ ← addHandler h.protectedBlocks h.entry h.caught

/-- The classes that are looked up for a table, up to the first entry that has no handler. -/
def resolvedIndices (f : FlowGraph) (table : CodeTable ProtectedRange)
    (resolve : UInt16 → Except Fault Descriptor) : List UInt16 :=
  go table.entries
where
  go : List ProtectedRange → List UInt16
    | [] => []
    | range :: rest =>
      let asks := (f.blockAt? range.handler.toUInt32).isSome && !(f.blocksIn range).isEmpty &&
        !range.catchesAll
      let here := if asks then [range.caught] else []
      match f.handlerOf resolve range with
      | .ok _ => here ++ go rest
      | .error _ => here

end MethodFlow.FlowGraph
