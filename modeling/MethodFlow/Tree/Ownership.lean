import MethodFlow.Tree.Variable

/-!
Ownership of nodes. A node takes its children over when it is made, and from then on a child leaves
its parent only by being replaced or removed. Removal takes everything below a node along.
-/

namespace MethodFlow.Tree

/-- A child must be an expression that nothing owns. -/
def checkDetached (t : Tree) (n : NodeId) : Except Fault Unit := do
  let s ← t.slot n
  if s.node.isStatement then throw (.violation (.statementAsChild n))
  match s.parent with
  | some p => throw (.violation (.alreadyOwned n p))
  | none => return ()

/-- Each of the children must be detached, and none may stand twice among them. -/
def checkChildren (t : Tree) : List NodeId → List NodeId → Except Fault Unit
  | _, [] => return ()
  | seen, c :: rest => do
    t.checkDetached c
    if c ∈ seen then throw (.violation (.repeatedChild c))
    t.checkChildren (c :: seen) rest

def attach (parent child : NodeId) : Edit Tree Unit := do
  Edit.ask (·.checkDetached child)
  setParent child (some parent)

/-- Makes a node that owns its children. -/
def allocOwning (node : Node) : Edit Tree NodeId := do
  Edit.ask (·.checkChildren [] node.children)
  let n ← alloc node
  node.children.forM (attach n)
  return n

def isOwnedBy (t : Tree) (c n : NodeId) : Bool := (t.slot? c).any fun s => s.parent = some n

/-- Removes a node and what it owns, to a depth of `limit`. -/
def sweep : Nat → Tree → NodeId → Tree
  | 0, t, _ => t
  | limit + 1, t, n =>
    match t.slot? n with
    | none => t
    | some s =>
      s.node.children.foldl (fun t c => if t.isOwnedBy c n then sweep limit t c else t) (t.erase n)

/-- Removes a node and everything below it. The parent goes on naming it. -/
def cleanup (n : NodeId) : Edit Tree Unit := do
  let _ ← Edit.ask (·.slot n)
  modify fun t => sweep t.size t n

def discard (n : NodeId) : Edit Tree Unit := do
  setParent n none
  cleanup n

/-- Puts `new` in the place of `old`, which is removed. In the place of a definition, `new` must be
a variable and becomes a definition. -/
def replace (old new : NodeId) : Edit Tree Unit := do
  match ← Edit.ask (·.parent old) with
  | none => throw (.violation (.nothingToReplaceIn old))
  | some parent =>
    Edit.ask (·.checkDetached new)
    if (← get).node? old |>.any (fun | .occurrence o => o.defines | _ => false) then
      modifyOccurrence new fun o => { o with defines := true }
    modifySlot parent fun s => { s with node := s.node.replaceChild old new }
    setParent new (some parent)
    discard old

def copy : Nat → NodeId → Edit Tree NodeId
  | 0, n => throw (.violation (.endlessOwnership n))
  | limit + 1, n => do
    let node ← Edit.ask (·.node n)
    let copies ← node.children.mapM (copy limit)
    let top ← alloc (node.withChildren copies)
    copies.forM fun c => setParent c (some top)
    return top

/-- Copies a node and everything below it. Uses in the copy link to the same definitions, and the
copy has neither parent nor block. -/
def cloneSubtree (n : NodeId) : Edit Tree NodeId := do
  copy ((← get).size + 1) n

end MethodFlow.Tree
