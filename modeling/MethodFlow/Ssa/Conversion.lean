import MethodFlow.Ssa.Form
import MethodFlow.Ssa.Occurrences
import MethodFlow.Ssa.Placement
import MethodFlow.Ssa.Renaming

/-!
Conversion of a control flow graph to static single assignment form. The variables are converted one
after another: the occurrences are entered on a roster, phis are placed, and the variable is
renamed. A graph converts once; one with phis or numbers is refused before anything is changed.
-/

namespace MethodFlow

namespace RosterEdit

/-- Number of occurrences that the entry does not reach. -/
def unreachableReals (t : DominatorTree) (f : FlowGraph) : List NodeId → Except Fault Nat
  | [] => return 0
  | n :: rest => do
    let here :=
      match ← f.tree.blockOf n with
      | some b => if t.isReachable b then 0 else 1
      | none => 0
    return here + (← unreachableReals t f rest)

/-- Enters the occurrences of a variable and places its phis. -/
def prepare (o : SsaOptions) (t : DominatorTree) (frontiers : List (List BlockId))
    (group : Occurrences) : RosterEdit Unit := do
  group.nodes.forM addReal
  let unreachable ← askRoster fun _ f => unreachableReals t f group.nodes
  if unreachable ≠ 0 then Edit.report (.occurrencesUnreachable group.var unreachable)
  if o.returnPhis then placeReturnPhis
  if o.catchPhis && group.var.isLocal then placeCatchPhis
  placeJoinPhis frontiers

end RosterEdit

namespace FlowGraph

/-- Converts one variable. The shape of the graph gives the tree and the frontiers. -/
def convertVariable (o : SsaOptions) (t : DominatorTree) (frontiers : List (List BlockId))
    (group : Occurrences) : Renaming Roster := do
  match group.nodes with
  | [] => throw (.violation (.noOccurrences group.var))
  | first :: _ =>
    let start ← Roster.start first
    let (_, r) ← Bench.onGraph (Bench.beside start (RosterEdit.prepare o t frontiers group))
    Renaming.rename r t
    return r

def toSsa (o : SsaOptions) : Edit (Recorded FlowGraph) SsaForm := do
  let groups ← collect o
  let f := (← get).value
  let t := f.dominators
  let frontiers := f.graph.frontiers t
  let (rosters, numbering) ←
    Bench.beside {} (groups.mapM fun group => convertVariable o t frontiers group)
  if o.collapse then
    let (_, form) ← Bench.beside ⟨rosters, numbering⟩ FormEdit.collapse
    return form
  return ⟨rosters, numbering⟩

end FlowGraph

end MethodFlow
