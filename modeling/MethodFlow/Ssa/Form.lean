import MethodFlow.Ssa.Roster

/-!
A converted graph's form: the rosters of the converted variables and the numbers that they were
given. Phis can be removed from it one by one, or wherever a phi merges a single definition.
-/

namespace MethodFlow

/-- The result of a conversion, with the rosters in the order of their variables. -/
structure SsaForm where
  rosters : List Roster
  numbering : Numbering

namespace SsaForm

def roster? (form : SsaForm) (v : Var) : Option Roster := form.rosters.find? (·.var = v)

def vars (form : SsaForm) : List Var := form.rosters.map Roster.var

def phiCount (form : SsaForm) : Nat := form.rosters.foldl (fun count r => count + r.phiCount) 0

def versionCount (form : SsaForm) (v : Var) : Nat := form.numbering.count v

/-- Exchanges a roster for one of the same variable. -/
def update (form : SsaForm) (r : Roster) : SsaForm :=
  { form with rosters := form.rosters.map fun old => if old.var = r.var then r else old }

end SsaForm

namespace RosterEdit

/-- The operands of a phi, without repetitions at a handler. -/
def readOperands (phi : NodeId) : RosterEdit (List NodeId) := do
  if (← get).value.flow.tree.phiKind? phi = some .catching then
    Bench.onTree (Tree.readCatchOperands phi)
  else Edit.ask fun s => s.value.flow.tree.phiOperands phi

/-- The one definition that the operands stand for, apart from `target`. There is none if an operand
stands for no definition. -/
def soleDefinition (t : Tree) (target : NodeId) : Option NodeId → List NodeId →
    Except Fault (Option NodeId)
  | found, [] => return found
  | found, operand :: rest => do
    match ← t.definitionOf operand with
    | none => return none
    | some d =>
      if d = target then soleDefinition t target found rest
      else
        match found with
        | none => soleDefinition t target (some d) rest
        | some f => if f = d then soleDefinition t target found rest else return none

def redundantDefinition (phi : NodeId) : RosterEdit (Option NodeId) := do
  let target ← Edit.ask fun s => s.value.flow.tree.phiTarget phi
  let operands ← readOperands phi
  Edit.ask fun s => soleDefinition s.value.flow.tree target none operands

/-- The occurrences and the phi operands of a roster. -/
def uses (r : Roster) (f : FlowGraph) : Except Fault (List NodeId) := do
  let operands ← (r.phis.filter f.tree.isLive).mapM f.tree.phiOperands
  return r.reals ++ operands.flatten

def redirect (target replacement n : NodeId) : RosterEdit Unit := do
  let t := (← get).value.flow.tree
  if t.isLive n then
    if !(← Edit.ask fun s => s.value.flow.tree.isDefinition n) then
      if (← Edit.ask fun s => s.value.flow.tree.linkOf n) = some target then
        Tree.setLink n (some replacement)

/-- Removes a phi that merges a single definition, whose uses are linked to that definition. Says
whether it was removed. -/
def collapsePhi (phi : NodeId) : RosterEdit Bool := do
  if !(← get).value.flow.tree.isLive phi then return false
  match ← redundantDefinition phi with
  | none => return false
  | some replacement =>
    let target ← Edit.ask fun s => s.value.flow.tree.phiTarget phi
    let found ← askRoster uses
    found.forM (redirect target replacement)
    match ← Edit.ask fun s => s.value.flow.tree.blockOf phi with
    | none => return false
    | some b =>
      let removed ← removePhi b
      if removed then Edit.report (.phiCollapsed target replacement)
      return removed

def collapseOnce : RosterEdit Nat := do
  let phis := (← get).value.own.phis
  let removed ← phis.filterM collapsePhi
  return removed.length

end RosterEdit

abbrev FormEdit (α : Type) := Edit (Recorded (Bench SsaForm)) α

namespace FormEdit

/-- Runs an operation on the roster of a variable, or gives `absent` if it has none. -/
def onRoster {α : Type} (v : Var) (absent : α) (x : RosterEdit α) : FormEdit α :=
  Bench.onPart (·.roster? v) SsaForm.update absent x

def removePhi (v : Var) (b : BlockId) : FormEdit Bool := onRoster v false (RosterEdit.removePhi b)

def collapseRound : FormEdit Nat := do
  let counts ← (← get).value.own.vars.mapM fun v => onRoster v 0 RosterEdit.collapseOnce
  return counts.foldl (· + ·) 0

/-- Repeats the round until it removes nothing, `limit` times at most. -/
def collapseTo : Nat → FormEdit Nat
  | 0 => return 0
  | limit + 1 => do
    let removed ← collapseRound
    if removed = 0 then return 0
    return removed + (← collapseTo limit)

/-- Removes phis that merge a single definition until none is left, and counts them. Each round but
the last removes a phi, which bounds the rounds. -/
def collapse : FormEdit Nat := do
  collapseTo ((← get).value.own.phiCount + 1)

end FormEdit

end MethodFlow
