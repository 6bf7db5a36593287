import MethodFlow.Graph.Digraph

/-!
Depth-first orders. The nodes to look at next stand on a stack, some of them more than once, and a
node is visited when it comes off the stack for the first time. Its successors go onto the stack in
reverse, so the first of them is explored first. A successor goes onto the stack for one edge, and
no edge is followed twice, which bounds the number of rounds.
-/

namespace MethodFlow

/-- How far a search has come, as two lists in the order of the events. -/
structure Search where
  discovered : List BlockId := []
  finished : List BlockId := []
deriving DecidableEq

namespace Search

inductive Task where
  | enter (b : BlockId)
  | leave (b : BlockId)
deriving DecidableEq

def discover (s : Search) (b : BlockId) : Search := { s with discovered := s.discovered ++ [b] }

def finish (s : Search) (b : BlockId) : Search := { s with finished := s.finished ++ [b] }

/-- Puts the nodes that are not visited yet on a stack, the last of them first. -/
def push {α : Type} (item : BlockId → α) (visited bs : List BlockId) (stack : List α) : List α :=
  bs.foldr (fun b stack => if b ∈ visited then stack else item b :: stack) stack

/-- Visits the nodes on a stack and what lies behind them. -/
def visit (successors : BlockId → List BlockId) : Nat → List BlockId → List BlockId → List BlockId
  | 0, visited, _ => visited
  | _ + 1, visited, [] => visited
  | rounds + 1, visited, b :: stack =>
    if b ∈ visited then visit successors rounds visited stack
    else visit successors rounds (visited ++ [b]) (push id (visited ++ [b]) (successors b) stack)

/-- Enters the nodes on a stack and leaves each of them after what lies behind it. -/
def traverse (successors : BlockId → List BlockId) : Nat → Search → List Task → Search
  | 0, s, _ => s
  | _ + 1, s, [] => s
  | rounds + 1, s, .enter b :: stack =>
    if b ∈ s.discovered then traverse successors rounds s stack
    else traverse successors rounds (s.discover b)
      (push .enter (s.discover b).discovered (successors b) (.leave b :: stack))
  | rounds + 1, s, .leave b :: stack => traverse successors rounds (s.finish b) stack

end Search

namespace Digraph

variable {N E : Type}

/-- The nodes reachable from `start`, in order of discovery. There are none where there is no such
node. -/
def preorder (g : Digraph N E) (start : BlockId) : List BlockId :=
  if g.contains start then Search.visit g.successors (g.edgeCount + 1) [] [start] else []

def postorder (g : Digraph N E) (start : BlockId) : List BlockId :=
  if g.contains start then
    (Search.traverse g.successors (g.nodeCount + g.edgeCount + 1) {} [.enter start]).finished
  else []

def reversePostorder (g : Digraph N E) (start : BlockId) : List BlockId :=
  (g.postorder start).reverse

/-- A path of zero or more edges. -/
inductive Path (g : Digraph N E) : BlockId → BlockId → Prop where
  | refl (b : BlockId) : Path g b b
  | step {a b c : BlockId} : Path g a b → c ∈ g.successors b → Path g a c

end Digraph

end MethodFlow
