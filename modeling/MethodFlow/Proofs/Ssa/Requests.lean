import MethodFlow.Proofs.Ssa.Evolution
import MethodFlow.Proofs.Tree.Primitive
import MethodFlow.Ssa.Request

/-!
What requests make of a graph. A relation that every operation leads along is one that every request
leads along. Every graph that requests lead to is in order.
-/

namespace MethodFlow

open Edit

open FlowGraph (Evolves)

/-- The request is about the blocks and the edges of a graph, not about its tree or its
statements. -/
def FlowRequest.IsFrame : FlowRequest → Prop
  | addBlock _ | addEdge _ _ _ | removeEdge _ _ | query _ | addHandler _ _ _ | addExceptionTable _ _
  | addSubroutine _ | setSubroutineExit _ _ | addSubroutineCall _ _ _ => True
  | _ => False

theorem FlowRequest.sameLists_run {r : FlowRequest} (h : r.IsFrame) :
    Moves (Recorded.Along FlowGraph.SameLists) r.run := by
  open FlowGraph.SameLists in
  cases r with
  | addBlock label => exact (moves_addBlock label).quietly.bind fun _ => .pure _
  | addEdge s t kind => exact (moves_addEdge s t kind).quietly.bind fun _ => .pure _
  | removeEdge s t => exact (moves_removeEdge s t).quietly.bind fun _ => .pure _
  | query q => exact (FlowGraph.moves_recall (fun _ _ => ⟨rfl, rfl⟩) q).quietly
  | addHandler protectedBlocks entry caught =>
    exact (moves_addHandler protectedBlocks entry caught).quietly.bind fun _ => .pure _
  | addExceptionTable table resolve => exact (moves_addExceptionTable table resolve).quietly
  | addSubroutine entry => exact (moves_addSubroutine entry).quietly.bind fun _ => .pure _
  | setSubroutineExit s exit => exact (moves_setSubroutineExit s exit).quietly
  | addSubroutineCall s call ret => exact (moves_addSubroutineCall s call ret).quietly
  | _ => exact h.elim

/-- What is done to a graph by requests of a kind leads along `R`, and what is done to its tree
alone along `T`. -/
structure Asking (asked : FlowRequest → Prop) (T : Tree → Tree → Prop)
    (R : FlowGraph → FlowGraph → Prop) : Prop where
  placing : Placing T R
  request : ∀ r, asked (.tree r) → Moves T r.run
  retainJoinOperands : ∀ n preds, Moves (Recorded.Along T) (Tree.retainJoinOperands n preds)
  readCatchOperands : ∀ n, Moves (Recorded.Along T) (Tree.readCatchOperands n)
  frame : ∀ r : FlowRequest, r.IsFrame → asked r → Moves (Recorded.Along R) r.run
  insertStatement : ∀ b index n, Moves R (FlowGraph.insertStatement b index n)
  removeStatement : ∀ n, Moves R (FlowGraph.removeStatement n)
  converting : ∀ o, asked (.convert o) → Relinking T R ∧ Collapsing T R
  collapsing : ∀ form, asked (.onForm form .collapse) → Collapsing T R

theorem Asking.evolves : Asking (fun _ => True) Tree.Evolves Evolves where
  placing := .evolves
  request r _ := r.moves_run
  retainJoinOperands := Tree.moves_retainJoinOperands
  readCatchOperands := Tree.moves_readCatchOperands
  frame r h _ := by
    cases r with
    | addBlock label => exact (FlowGraph.moves_addBlock label).quietly.bind fun _ => .pure _
    | addEdge s t kind => exact (FlowGraph.moves_addEdge s t kind).quietly.bind fun _ => .pure _
    | removeEdge s t => exact (FlowGraph.moves_removeEdge s t).quietly.bind fun _ => .pure _
    | query q => exact (FlowGraph.moves_recall (fun _ => FlowGraph.evolves_withComputed) q).quietly
    | addHandler protectedBlocks entry caught =>
      exact (FlowGraph.moves_addHandler protectedBlocks entry caught).quietly.bind fun _ => .pure _
    | addExceptionTable table resolve =>
      exact (FlowGraph.moves_addExceptionTable table resolve).quietly
    | addSubroutine entry =>
      exact (FlowGraph.moves_addSubroutine entry).quietly.bind fun _ => .pure _
    | setSubroutineExit s exit => exact (FlowGraph.moves_setSubroutineExit s exit).quietly
    | addSubroutineCall s call ret => exact (FlowGraph.moves_addSubroutineCall s call ret).quietly
    | _ => exact h.elim
  insertStatement := FlowGraph.moves_insertStatement
  removeStatement := FlowGraph.moves_removeStatement
  converting _ _ := ⟨.evolves, .evolves⟩
  collapsing _ _ := .evolves

theorem Collapsing.of_pruning {T : Tree → Tree → Prop} {R : FlowGraph → FlowGraph → Prop}
    [IsPreorder Tree T] [IsPreorder FlowGraph R] (hT : Tree.Pruning T)
    (setLink : ∀ n d, Moves T (Tree.setLink n d))
    (withTree : ∀ (f : FlowGraph) (tree : Tree), T f.tree tree → R f { f with tree })
    (removeStatement : ∀ n, Moves R (FlowGraph.removeStatement n)) : Collapsing T R where
  withTree := withTree
  readCatchOperands n r := hT.moves_drops (Tree.drops_readCatchOperands n r)
  setLink := setLink
  cleanupNode := FlowGraph.moves_cleanup_of_remove removeStatement
    fun n => (hT.cleanup n).within withTree

section primitive

variable {asked : FlowRequest → Prop} {T : Tree → Tree → Prop} [IsPreorder Tree T]

theorem Asking.of_primitive {R : FlowGraph → FlowGraph → Prop} [IsPreorder FlowGraph R]
    (hT : Tree.Primitive T) (hrequest : ∀ r, asked (.tree r) → Moves T r.run)
    (hlink : (∃ o, asked (.convert o)) ∨ (∃ form, asked (.onForm form .collapse)) →
      ∀ n d, Moves T (Tree.setLink n d))
    (withTree : ∀ (f : FlowGraph) (tree : Tree), T f.tree tree → R f { f with tree })
    (frame : ∀ r : FlowRequest, r.IsFrame → asked r → Moves (Recorded.Along R) r.run)
    (insertStatement : ∀ b index n, Moves R (FlowGraph.insertStatement b index n))
    (removeStatement : ∀ n, Moves R (FlowGraph.removeStatement n)) : Asking asked T R := by
  have collapsing (h : (∃ o, asked (.convert o)) ∨ (∃ form, asked (.onForm form .collapse))) :
      Collapsing T R := .of_pruning hT.toPruning (hlink h) withTree removeStatement
  exact
    { placing :=
        { withTree
          cleanupNode := FlowGraph.moves_cleanup_of_remove removeStatement
            fun n => (hT.cleanup n).within withTree
          useLike := hT.making.useLike
          newJoinPhi := hT.making.moves_newJoinPhi
          newCatchPhi := hT.making.moves_newCatchPhi
          newReturnPhi := hT.making.moves_newReturnPhi
          prependStatement := FlowGraph.moves_prepend_of_insert insertStatement }
      request := hrequest
      retainJoinOperands n preds r := hT.moves_drops (Tree.drops_retainJoinOperands n preds r)
      readCatchOperands n r := hT.moves_drops (Tree.drops_readCatchOperands n r)
      frame, insertStatement, removeStatement
      converting := fun o ho =>
        ⟨{ withTree
           useLike := hT.making.useLike
           setVersion := hT.setVersion
           setLink := hlink (.inl ⟨o, ho⟩)
           addCatchOperand := fun n operand t =>
             hT.moves_takesOperand (Tree.takesOperand_addCatchOperand n operand t) },
          collapsing (.inl ⟨o, ho⟩)⟩
      collapsing := fun form hform => collapsing (.inr ⟨form, hform⟩) }

theorem Asking.onTree (hT : Tree.Primitive T) (hblock : ∀ n block, Moves T (Tree.setBlock n block))
    (hrequest : ∀ r, asked (.tree r) → Moves T r.run)
    (hlink : (∃ o, asked (.convert o)) ∨ (∃ form, asked (.onForm form .collapse)) →
      ∀ n d, Moves T (Tree.setLink n d)) : Asking asked T (FlowGraph.OnTree T) :=
  .of_primitive hT hrequest hlink (fun _ _ => id)
    (fun _ hr _ g => FlowGraph.OnTree.of_sameLists (FlowRequest.sameLists_run hr g))
    (FlowGraph.OnTree.moves_insertStatement hblock) (FlowGraph.OnTree.moves_removeStatement hblock)

end primitive

instance : IsPreorder Tree fun _ _ => True where
  refl _ := trivial
  trans _ _ _ _ _ := trivial

/-- Whatever is asked of the tree and of the statements, the shape stays. -/
theorem Asking.sameShape : Asking (fun r => ¬r.IsFrame) (fun _ _ => True) FlowGraph.SameShape :=
  .of_primitive
    (.of_writes (fun _ _ => trivial) (fun _ _ _ _ _ _ _ => trivial) fun _ _ _ => trivial)
    (fun _ _ _ => trivial) (fun _ _ _ _ => trivial) (fun f tree _ => .withTree f tree)
    (fun _ hr hnot => absurd hr hnot) FlowGraph.SameShape.moves_insertStatement
    FlowGraph.SameShape.moves_removeStatement

section asking

variable {asked : FlowRequest → Prop} {T : Tree → Tree → Prop} {R : FlowGraph → FlowGraph → Prop}
  [IsPreorder FlowGraph R]

theorem RosterRequest.moves_run (hp : Placing T R) (r : RosterRequest) : Leads R r.run := by
  cases r with
  | addReal n => exact RosterEdit.moves_addReal n
  | addDefiningBlock b => exact (RosterEdit.moves_askRoster _).bind fun _ => Bench.moves_modifyOwn _
  | addJoinPhi b => exact (RosterEdit.moves_addJoinPhi hp b).bind fun _ => .pure _
  | addCatchPhi b => exact (RosterEdit.moves_addCatchPhi hp b).bind fun _ => .pure _
  | addReturnPhis s => exact (RosterEdit.moves_addReturnPhis hp s).bind fun _ => .pure _
  | removePhi b => exact (RosterEdit.moves_removePhi hp.cleanupNode b).bind fun _ => .pure _

namespace Asking

variable (h : Asking asked T R)

include h

omit [IsPreorder FlowGraph R] in
theorem moves_onTree {α : Type} {x : Edit (Recorded Tree) α} (hx : Moves (Recorded.Along T) x) :
    Moves (Recorded.Along R) (FlowRequest.onTree x) := hx.within fun _ _ => h.placing.withTree _ _

theorem moves_run [IsPreorder Tree T] (r : FlowRequest) (hr : asked r) :
    Moves (Recorded.Along R) r.run := by
  cases r with
  | tree r => exact h.moves_onTree (h.request r hr).quietly
  | retainJoinOperands n preds =>
    exact h.moves_onTree ((h.retainJoinOperands n preds).bind fun _ => .pure _)
  | readCatchOperands n => exact h.moves_onTree ((h.readCatchOperands n).bind fun _ => .pure _)
  | insertStatement b index n => exact (h.insertStatement b index n).quietly
  | appendStatement b n =>
    have hx : Moves R (FlowGraph.appendStatement b n) :=
      Moves.get.bind fun _ => h.insertStatement b _ n
    exact hx.quietly
  | prependStatement b n => exact (h.placing.prependStatement b n).quietly
  | removeStatement n => exact (h.removeStatement n).quietly.bind fun _ => .pure _
  | cleanupNode n => exact (h.placing.cleanupNode n).quietly
  | startRoster n => exact (Roster.moves_start h.placing n).quietly.bind fun _ => .pure _
  | onRoster r request =>
    exact (Bench.moves_beside (request.moves_run h.placing)).bind fun _ => .pure _
  | convert o =>
    obtain ⟨hrelinking, hcollapsing⟩ := h.converting o hr
    exact (FlowGraph.moves_toSsa h.placing hrelinking hcollapsing o).bind fun _ => .pure _
  | onForm form request =>
    refine (Bench.moves_beside ?_).bind fun _ => .pure _
    cases request with
    | removePhi v b =>
      exact (FormEdit.moves_removePhi h.placing.cleanupNode v b).bind fun _ => .pure _
    | collapse => exact (FormEdit.moves_collapse (h.collapsing form hr)).bind fun _ => .pure _
  | _ => exact h.frame _ trivial hr

theorem request_along [IsPreorder Tree T] (f : FlowGraph) {r : FlowRequest} (hr : asked r) :
    R f (f.request r) := h.moves_run r hr ⟨f, []⟩

theorem requests_along [IsPreorder Tree T] (f : FlowGraph) {rs : List FlowRequest}
    (hrs : ∀ r ∈ rs, asked r) : R f (f.requests rs) := by
  induction rs generalizing f with
  | nil => exact Std.Refl.refl f
  | cons r rest ih =>
    exact IsTrans.trans _ _ _ (h.request_along f (hrs r (by simp)))
      (ih (f.request r) fun r' hr' => hrs r' (by simp [hr']))

end Asking

end asking

namespace FlowGraph

theorem tree_request (f : FlowGraph) (r : TreeRequest) :
    (f.request (.tree r)).tree = f.tree.request r := by
  simp only [request, FlowRequest.run, FlowRequest.onTree, quietly, after_within, Tree.request]

theorem coherent_ofLabel (label : UInt32) : (ofLabel label).Coherent := by
  have hstatements (b : BlockId) : (ofLabel label).statements b = [] := by
    simp only [statements, block?, ofLabel, Digraph.node?, Digraph.addNode, Digraph.empty,
      Array.getElem?_push]
    split <;> simp
  exact
    { tree := Tree.forest_empty.coherent
      closed := by simp [Digraph.Closed, ofLabel, Digraph.addNode, Digraph.empty]
      entry := rfl
      nodup := by simp [hstatements]
      placed := by simp [hstatements]
      inside := by simp [hstatements]
      handled := by simp [ofLabel]
      numbered := by simp [ofLabel]
      returning := by simp [ofLabel] }

theorem Coherent.requests {f : FlowGraph} (h : f.Coherent) (rs : List FlowRequest) :
    (f.requests rs).Coherent := (Asking.evolves.requests_along f fun _ _ => trivial).coherent h

/-- What has been made can be worked on. -/
theorem Made.request {f : FlowGraph} (h : f.Made) (r : FlowRequest) : (f.request r).Made := by
  obtain ⟨label, rs, rfl⟩ := h
  exact ⟨label, rs ++ [r], by simp [requests]⟩

/-- What holds of a graph that has been made and is kept by each request holds after any run of
requests. -/
theorem requests_induction {f : FlowGraph} {P : FlowGraph → Prop} {asked : FlowRequest → Prop}
    (hf : f.Made) (start : P f) (step : ∀ f r, f.Made → asked r → P f → P (f.request r))
    {rs : List FlowRequest} (hrs : ∀ r ∈ rs, asked r) : P (f.requests rs) := by
  induction rs generalizing f with
  | nil => exact start
  | cons r rest ih =>
    exact ih (hf.request r) (step f r hf (hrs r (by simp)) start) fun r' hr' =>
      hrs r' (by simp [hr'])

/-- Whatever a caller has asked for, the graph is in order. -/
theorem Made.coherent {f : FlowGraph} (h : f.Made) : f.Coherent := by
  obtain ⟨label, rs, rfl⟩ := h
  exact (coherent_ofLabel label).requests rs

end FlowGraph

end MethodFlow
