import MethodFlow.Ssa.Basic
import MethodFlow.Tree.Render

/-!
The occurrences that a conversion works on: every variable outside phis, in the order of a walk
through the graph, sorted by variable.
-/

namespace MethodFlow

structure Occurrences where
  var : Var
  nodes : List NodeId

/-- Adds a variable to a list in the order of variables, once. -/
def Var.insertSorted (v : Var) : List Var → List Var
  | [] => [v]
  | w :: rest =>
    if v = w then w :: rest
    else if v.rank < w.rank then v :: w :: rest
    else w :: insertSorted v rest

namespace FlowGraph

/-- Records phis, without what is below them, and variables. -/
def occurrenceVisitor : Visitor where
  at? c :=
    match c with
    | .phi | .variable => some .never
    | _ => none

def placedPhis (f : FlowGraph) : Nat :=
  (f.walk occurrenceVisitor).countP fun
    | .node .phi _ => true
    | _ => false

def placedOccurrences (f : FlowGraph) : List NodeId :=
  (f.walk occurrenceVisitor).filterMap fun
    | .node .variable n => some n
    | _ => none

def variableAt? (f : FlowGraph) (n : NodeId) : Option Var :=
  match f.tree.varOf n with
  | .ok v => some v
  | .error _ => none

/-- The occurrences of the variables that are converted, by variable. -/
def occurrences (f : FlowGraph) (o : SsaOptions) : List Occurrences :=
  let found := f.placedOccurrences.filterMap fun n => (f.variableAt? n).map fun v => (v, n)
  let converted := found.filter fun p => o.converts p.1
  let vars := converted.foldl (fun sorted p => p.1.insertSorted sorted) []
  vars.map fun v => ⟨v, (converted.filter fun p => p.1 = v).map Prod.snd⟩

/-- A definition that has a number already cannot be converted. -/
def checkUnnumbered (f : FlowGraph) (n : NodeId) : Except Fault Unit := do
  if ← f.tree.isDefinition n then
    if (← f.tree.versionOf n).isSome then throw (.graph (.alreadyNumbered (f.tree.text n)))

/-- Collects the occurrences of a graph that holds neither phis nor numbers. -/
def collect (o : SsaOptions) : Edit (Recorded FlowGraph) (List Occurrences) := do
  let f := (← get).value
  Edit.guard (f.placedPhis = 0) (.graph (.holdsPhis f.placedPhis))
  let found := f.occurrences o
  found.forM fun group => do
    group.nodes.forM fun n => Edit.ask fun r => r.value.checkUnnumbered n
    Edit.report (.occurrencesFound group.var group.nodes.length)
  return found

end FlowGraph

end MethodFlow
