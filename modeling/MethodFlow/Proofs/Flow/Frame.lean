import MethodFlow.Flow.Handlers
import MethodFlow.Flow.Statements
import MethodFlow.Flow.Recall
import MethodFlow.Flow.Subroutines
import MethodFlow.Proofs.Edit

/-!
Work on one side of a graph. What is done to blocks, edges, handlers and subroutines touches neither
the tree nor what the blocks list. What is done to statements does to the tree what is done to
single nodes.
-/

namespace MethodFlow

open Edit

namespace Digraph

variable {N E : Type}

def SameNodes (g g' : Digraph N E) : Prop := g'.nodes = g.nodes

instance : IsPreorder (Digraph N E) SameNodes where
  refl _ := rfl
  trans _ _ _ h h' := Eq.trans h' h

theorem SameNodes.moves_addEdge (s t : BlockId) (label : E) :
    Moves SameNodes (addEdge s t label : Edit (Digraph N E) Bool) := by
  intro g
  have hedge : SameNodes g ((if g.hasEdge s t then pure false else do
      set { g with edges := g.edges ++ [Edge.mk s t label] }
      return true : Edit (Digraph N E) Bool).after g) := by
    split <;> exact rfl
  exact Moves.of_guard (g := fun _ => _) fun _ => Moves.of_guard (g := fun _ => _) fun _ => hedge

end Digraph

namespace FlowGraph

variable {f f' : FlowGraph}

def SameLists (f f' : FlowGraph) : Prop := f'.tree = f.tree ∧ f'.statements = f.statements

instance : IsPreorder FlowGraph SameLists where
  refl _ := ⟨rfl, rfl⟩
  trans _ _ _ h h' := ⟨h'.1.trans h.1, h'.2.trans h.2⟩

theorem sameLists_of_nodes (htree : f'.tree = f.tree) (h : f'.graph.nodes = f.graph.nodes) :
    f.SameLists f' := by
  refine ⟨htree, funext fun b => ?_⟩
  simp only [statements, block?, Digraph.node?, h]

theorem removeEdge_cases (f : FlowGraph) (s t : BlockId) :
    (f.edgeKind? s t = none ∧ removeEdge s t f = .ok none f) ∨
      ∃ kind, f.edgeKind? s t = some kind ∧ removeEdge s t f =
        .ok (some kind) { f with graph := f.graph.removeEdge s t : FlowGraph }.invalidate := by
  cases hkind : f.edgeKind? s t with
  | none => exact .inl ⟨rfl, modifyGet_ok.2 (by rw [hkind])⟩
  | some kind => exact .inr ⟨kind, rfl, modifyGet_ok.2 (by rw [hkind])⟩

namespace SameLists

theorem moves_addBlock (label : UInt32) : Moves SameLists (addBlock label) := by
  intro f
  let f' : FlowGraph := { f with graph := f.graph.addNode { label } : FlowGraph }.invalidate
  -- The new block lists nothing, as a block that is not there does.
  have hstatements (b : BlockId) : f'.statements b = f.statements b := by
    simp only [statements, block?, Digraph.node?, Digraph.addNode, Array.getElem?_push,
      invalidate, f']
    split
    · next h => simp [h]
    · rfl
  exact ⟨rfl, funext hstatements⟩

theorem moves_addEdge (s t : BlockId) (kind : EdgeKind) : Moves SameLists (addEdge s t kind) := by
  refine (Moves.ask _).bind fun _ => (Moves.ask _).bind fun _ => Moves.bind ?_ fun added => ?_
  · exact (Digraph.SameNodes.moves_addEdge s t kind).within fun f g hg => sameLists_of_nodes rfl hg
  · exact Moves.ite (Moves.bind (fun f => sameLists_of_nodes rfl rfl) fun _ => .pure _) (.pure _)

theorem moves_removeEdge (s t : BlockId) : Moves SameLists (removeEdge s t) := by
  intro f
  rcases removeEdge_cases f s t with ⟨-, hrun⟩ | ⟨kind, -, hrun⟩ <;> rw [after_of_ok hrun]
  · exact Std.Refl.refl f
  · exact sameLists_of_nodes rfl rfl

theorem moves_addHandler (protectedBlocks : List BlockId) (entry : BlockId)
    (caught : Option Descriptor) : Moves SameLists (addHandler protectedBlocks entry caught) :=
  (Moves.ask _).bind fun _ => (Moves.forM (fun _ => .ask _) _).bind fun _ =>
    (Moves.forM (fun b => (moves_addEdge b entry .exception).bind fun _ => .pure _) _).bind
      fun _ _ =>
      sameLists_of_nodes rfl rfl

theorem moves_addExceptionTable (table : CodeTable ProtectedRange)
    (resolve : UInt16 → Except Fault Descriptor) :
    Moves SameLists (addExceptionTable table resolve) :=
  (Moves.ask _).bind fun _ => Moves.forM (fun _ => (moves_addHandler _ _ _).bind fun _ => .pure _) _

theorem moves_addSubroutine (entry : BlockId) : Moves SameLists (addSubroutine entry) := by
  refine fun f => Moves.of_ask fun _ _ => ?_
  show f.SameLists ((if _ then _ else _ : Edit FlowGraph SubroutineId).after f)
  split
  · exact Std.Refl.refl f
  · exact sameLists_of_nodes rfl rfl

theorem moves_modifySubroutine (s : SubroutineId) (change : Subroutine → Subroutine) :
    Moves SameLists (modifySubroutine s change) := fun _ => sameLists_of_nodes rfl rfl

theorem moves_setSubroutineExit (s : SubroutineId) (exit : BlockId) :
    Moves SameLists (setSubroutineExit s exit) := by
  refine (Moves.ask _).bind fun _ => (Moves.ask _).bind fun sub => ?_
  have hset : Moves SameLists (do
      modifySubroutine s fun sub => { sub with exit := some exit }
      sub.returnBlocks.forM fun b => do
        let _ ← addEdge exit b .subroutineReturn) :=
    (moves_modifySubroutine s _).bind fun _ =>
      .forM (fun b => (moves_addEdge exit b .subroutineReturn).bind fun _ => .pure _) _
  cases sub.exit with
  | none => exact hset
  | some current => exact Moves.ite (.throw _) hset

theorem moves_addSubroutineCall (s : SubroutineId) (call ret : BlockId) :
    Moves SameLists (addSubroutineCall s call ret) := by
  refine (Moves.ask _).bind fun _ => (Moves.ask _).bind fun _ => Moves.get.bind fun f =>
    Moves.ite (.throw _) ((Moves.ask _).bind fun sub =>
      Moves.ite (.throw _) (Moves.ite (.pure _) ?_))
  refine (moves_modifySubroutine s _).bind fun _ => (moves_addEdge _ _ _).bind fun _ => ?_
  cases sub.exit with
  | none => exact .pure _
  | some exit => exact (moves_addEdge _ _ _).bind fun _ => .pure _

end SameLists

theorem moves_recall {R : FlowGraph → FlowGraph → Prop} [IsPreorder FlowGraph R]
    (h : ∀ (f : FlowGraph) (computed : Computed), R f { f with computed }) (q : ShapeQuery) :
    Moves R q.run := by
  have hpreorder : Moves R recallPreorder := .modifyGet fun f => by
    split
    · exact Std.Refl.refl f
    · exact h f _
  have hdominators : Moves R recallDominators := .modifyGet fun f => by
    split
    · exact Std.Refl.refl f
    · exact h f _
  cases q with
  | preorder => exact hpreorder.bind fun _ => .pure _
  | index b =>
    refine Moves.bind ((Moves.ask _).bind fun _ => hpreorder.bind fun order => ?_) fun _ => .pure _
    cases order.idxOf? b with
    | some i => exact .pure _
    | none => exact .throw _
  | dominators => exact hdominators.bind fun _ => .pure _
  | reachable b => exact (hdominators.bind fun _ => .pure _).bind fun _ => .pure _
  | frontiers =>
    refine Moves.bind (Moves.get.bind fun f => ?_) fun _ => .pure _
    cases f.computed.frontiers with
    | some frontiers => exact .pure _
    | none => exact hdominators.bind fun t f => h f _

section statements

variable {R : FlowGraph → FlowGraph → Prop} [IsPreorder FlowGraph R]

theorem moves_prepend_of_insert (h : ∀ b index n, Moves R (insertStatement b index n)) (b : BlockId)
    (n : NodeId) : Moves R (prependStatement b n) := Moves.get.bind fun _ => h b _ n

theorem moves_cleanup_of_remove (hremove : ∀ n, Moves R (removeStatement n))
    (hclean : ∀ n, Moves R (liftM (Tree.cleanup n) : Edit FlowGraph Unit)) (n : NodeId) :
    Moves R (cleanupNode n) :=
  Moves.get.bind fun _ => Moves.ite ((Moves.ask _).bind fun _ =>
    Moves.ite ((hremove n).bind fun _ => hclean n) (hclean n)) (hclean n)

theorem moves_insert_of (hlists : ∀ b change, Moves R (modifyStatements b change))
    (hblock : ∀ n block, Moves R (liftM (Tree.setBlock n block) : Edit FlowGraph Unit))
    (b : BlockId) (index : Nat) (n : NodeId) : Moves R (insertStatement b index n) :=
  (Moves.ask _).bind fun _ => (Moves.ask _).bind fun _ => Moves.get.bind fun _ =>
    (Moves.guard _ _).bind fun _ => (hlists b _).bind fun _ => hblock n _

theorem moves_remove_of (hlists : ∀ b change, Moves R (modifyStatements b change))
    (hblock : ∀ n block, Moves R (liftM (Tree.setBlock n block) : Edit FlowGraph Unit))
    (n : NodeId) :
    Moves R (removeStatement n) := by
  refine (Moves.ask _).bind fun found => ?_
  cases found with
  | none => exact .throw _
  | some b =>
    exact (Moves.ask _).bind fun _ => (hlists b _).bind fun _ =>
      (hblock n none).bind fun _ => .pure _

end statements

/-- The tree of a graph is led along `T`. -/
def OnTree (T : Tree → Tree → Prop) (f f' : FlowGraph) : Prop := T f.tree f'.tree

namespace OnTree

variable {T : Tree → Tree → Prop} [IsPreorder Tree T]

instance : IsPreorder FlowGraph (OnTree T) where
  refl f := Std.Refl.refl (r := T) f.tree
  trans f f' f'' := IsTrans.trans (r := T) f.tree f'.tree f''.tree

theorem of_sameLists (h : f.SameLists f') : OnTree T f f' := by
  show T f.tree f'.tree
  rw [h.1]
  exact Std.Refl.refl f.tree

omit [IsPreorder Tree T] in
theorem moves_liftTree {α : Type} {x : Edit Tree α} (hx : Moves T x) :
    Moves (OnTree T) (liftM x : Edit FlowGraph α) := hx.within fun _ _ => id

theorem moves_modifyStatements (b : BlockId) (change : List NodeId → List NodeId) :
    Moves (OnTree T) (modifyStatements b change) := fun f => Std.Refl.refl (r := T) f.tree

variable (hblock : ∀ n block, Moves T (Tree.setBlock n block))

include hblock

theorem moves_insertStatement (b : BlockId) (index : Nat) (n : NodeId) :
    Moves (OnTree T) (insertStatement b index n) :=
  moves_insert_of moves_modifyStatements (fun n block => moves_liftTree (hblock n block)) b index n

theorem moves_removeStatement (n : NodeId) : Moves (OnTree T) (removeStatement n) :=
  moves_remove_of moves_modifyStatements (fun n block => moves_liftTree (hblock n block)) n

end OnTree

end FlowGraph

end MethodFlow
