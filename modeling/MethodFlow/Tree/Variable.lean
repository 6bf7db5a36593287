import MethodFlow.Tree.Arena

/-!
Variable occurrences in the arena: what an occurrence stands for, and linking uses to definitions.
-/

namespace MethodFlow.Tree

def occurrence (t : Tree) (n : NodeId) : Except Fault Occurrence := do
  match ← t.expression n with
  | .occurrence o => return o
  | _ => throw (.violation (.notVariable n))

def varOf (t : Tree) (n : NodeId) : Except Fault Var := Occurrence.var <$> t.occurrence n

def isDefinition (t : Tree) (n : NodeId) : Except Fault Bool :=
  Occurrence.defines <$> t.occurrence n

/-- The definition that a use links to. -/
def linkOf (t : Tree) (n : NodeId) : Except Fault (Option NodeId) :=
  Occurrence.link <$> t.occurrence n

/-- The definition that an occurrence stands for. -/
def definitionOf (t : Tree) (n : NodeId) : Except Fault (Option NodeId) :=
  (·.definition n) <$> t.occurrence n

/-- The number of the definition that an occurrence stands for, while that is in use. -/
def versionOf (t : Tree) (n : NodeId) : Except Fault (Option Nat) := do
  match ← t.definitionOf n with
  | some d => if t.isLive d then Occurrence.version <$> t.occurrence d else return none
  | none => return none

def modifyOccurrence (n : NodeId) (f : Occurrence → Occurrence) : Edit Tree Unit := do
  match ← Edit.ask (·.node n) with
  | .occurrence o => setNode n (.occurrence (f o))
  | _ => throw (.violation (.notVariable n))

def define (n : NodeId) : Edit Tree Unit :=
  modifyOccurrence n fun o => { o with defines := true, link := none }

def setVersion (n : NodeId) (version : Nat) : Edit Tree Unit :=
  modifyOccurrence n fun o => { o with version := some version }

/-- A use may link to a definition of its own variable. -/
def checkLink (t : Tree) (n d : NodeId) : Except Fault Unit := do
  if !(← t.isDefinition d) then throw (.violation (.notDefinition d))
  let used ← t.varOf n
  let defined ← t.varOf d
  if used ≠ defined then throw (.violation (.linkAcrossVariables used defined))

def setLink (n : NodeId) (definition : Option NodeId) : Edit Tree Unit := do
  if ← Edit.ask (·.isDefinition n) then throw (.violation (.definitionAsUse n))
  match definition with
  | some d => Edit.ask (·.checkLink n d)
  | none => pure ()
  modifyOccurrence n fun o => { o with link := definition }

/-- Makes a use of the variable that `n` belongs to. -/
def useLike (n : NodeId) : Edit Tree NodeId := do
  let o ← Edit.ask (·.occurrence n)
  alloc (.occurrence { var := o.var, type := o.type })

end MethodFlow.Tree
