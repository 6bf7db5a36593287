import MethodFlow.Flow.Recall
import MethodFlow.Ssa.Conversion
import MethodFlow.Tree.Request

/-!
What a caller may ask of a control flow graph, of its tree, and of the rosters and forms that belong
to it. A request that fails leaves behind what it did before it failed.
-/

namespace MethodFlow

inductive RosterRequest where
  | addReal (real : NodeId)
  | addDefiningBlock (b : BlockId)
  | addJoinPhi (b : BlockId)
  | addCatchPhi (b : BlockId)
  | addReturnPhis (s : SubroutineId)
  | removePhi (b : BlockId)

def RosterRequest.run : RosterRequest → RosterEdit Unit
  | addReal real => RosterEdit.addReal real
  | addDefiningBlock b => RosterEdit.addDefiningBlock b
  | addJoinPhi b => do let _ ← RosterEdit.addJoinPhi b
  | addCatchPhi b => do let _ ← RosterEdit.addCatchPhi b
  | addReturnPhis s => do let _ ← RosterEdit.addReturnPhis s
  | removePhi b => do let _ ← RosterEdit.removePhi b

inductive FormRequest where
  | removePhi (v : Var) (b : BlockId)
  | collapse

def FormRequest.run : FormRequest → FormEdit Unit
  | removePhi v b => do let _ ← FormEdit.removePhi v b
  | collapse => do let _ ← FormEdit.collapse

/-- Building a graph, asking about its shape, editing it, or converting it. Rosters and forms are
the caller's and may be any. -/
inductive FlowRequest where
  | tree (r : TreeRequest)
  | retainJoinOperands (n : NodeId) (preds : List BlockId)
  | readCatchOperands (n : NodeId)
  | addBlock (label : UInt32)
  | addEdge (s t : BlockId) (kind : EdgeKind)
  | removeEdge (s t : BlockId)
  | query (q : ShapeQuery)
  | insertStatement (b : BlockId) (index : Nat) (n : NodeId)
  | appendStatement (b : BlockId) (n : NodeId)
  | prependStatement (b : BlockId) (n : NodeId)
  | removeStatement (n : NodeId)
  | cleanupNode (n : NodeId)
  | addHandler (protectedBlocks : List BlockId) (entry : BlockId) (caught : Option Descriptor)
  | addExceptionTable (table : CodeTable ProtectedRange)
      (resolve : UInt16 → Except Fault Descriptor)
  | addSubroutine (entry : BlockId)
  | setSubroutineExit (s : SubroutineId) (exit : BlockId)
  | addSubroutineCall (s : SubroutineId) (call ret : BlockId)
  | startRoster (occurrence : NodeId)
  | onRoster (r : Roster) (request : RosterRequest)
  | convert (o : SsaOptions)
  | onForm (form : SsaForm) (request : FormRequest)

namespace FlowRequest

def onTree {α : Type} (x : Edit (Recorded Tree) α) : Edit (Recorded FlowGraph) α :=
  Edit.within (fun r => ⟨r.value.tree, r.events⟩)
    (fun r s => ⟨{ r.value with tree := s.value }, s.events⟩) x

def run : FlowRequest → Edit (Recorded FlowGraph) Unit
  | tree r => onTree (Edit.quietly r.run)
  | retainJoinOperands n preds => onTree do let _ ← Tree.retainJoinOperands n preds
  | readCatchOperands n => onTree do let _ ← Tree.readCatchOperands n
  | addBlock label => do let _ ← FlowGraph.addBlock label
  | addEdge s t kind => do let _ ← FlowGraph.addEdge s t kind
  | removeEdge s t => do let _ ← FlowGraph.removeEdge s t
  | query q => q.run
  | insertStatement b index n => FlowGraph.insertStatement b index n
  | appendStatement b n => FlowGraph.appendStatement b n
  | prependStatement b n => FlowGraph.prependStatement b n
  | removeStatement n => do let _ ← FlowGraph.removeStatement n
  | cleanupNode n => FlowGraph.cleanupNode n
  | addHandler protectedBlocks entry caught => do
    let _ ← FlowGraph.addHandler protectedBlocks entry caught
  | addExceptionTable table resolve => FlowGraph.addExceptionTable table resolve
  | addSubroutine entry => do let _ ← FlowGraph.addSubroutine entry
  | setSubroutineExit s exit => FlowGraph.setSubroutineExit s exit
  | addSubroutineCall s call ret => FlowGraph.addSubroutineCall s call ret
  | startRoster occurrence => do let _ ← Roster.start occurrence
  | onRoster r request => do let _ ← Bench.beside r request.run
  | convert o => do let _ ← FlowGraph.toSsa o
  | onForm form request => do let _ ← Bench.beside form request.run

end FlowRequest

namespace FlowGraph

def request (f : FlowGraph) (r : FlowRequest) : FlowGraph := (r.run.after ⟨f, []⟩).value

def requests (f : FlowGraph) (rs : List FlowRequest) : FlowGraph := rs.foldl request f

/-- Requests lead from a graph of one empty block to `f`. -/
def Made (f : FlowGraph) : Prop := ∃ label rs, (ofLabel label).requests rs = f

end FlowGraph

end MethodFlow
