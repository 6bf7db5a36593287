import MethodFlow.Proofs.Flow.Frame
import MethodFlow.Proofs.Tree.Phi

/-!
The shape of a control flow graph is what is left of it without its tree and its statements. All
orders of blocks and all dominators are read off the shape.
-/

namespace MethodFlow

namespace Digraph

variable {N E : Type} {g g' : Digraph N E} (hedges : g'.edges = g.edges)
  (hsize : g'.nodes.size = g.nodes.size)

include hedges

theorem successors_congr : g'.successors = g.successors := by
  funext b
  simp [successors, outgoing, hedges]

theorem predecessors_congr : g'.predecessors = g.predecessors := by
  funext b
  simp [predecessors, incoming, hedges]

include hsize

theorem preorder_congr : g'.preorder = g.preorder := by
  funext b
  simp [preorder, contains, edgeCount, successors_congr hedges, hedges, hsize]

theorem reversePostorder_congr : g'.reversePostorder = g.reversePostorder := by
  funext b
  simp [reversePostorder, postorder, contains, nodeCount, edgeCount, successors_congr hedges,
    hedges, hsize]

theorem frontiers_congr : g'.frontiers = g.frontiers := by
  funext t
  simp [frontiers, runners, nodeIds, predecessors_congr hedges, hsize]

theorem dominatorTree_congr : g'.dominatorTree = g.dominatorTree := by
  funext b
  simp [dominatorTree, reversePostorder_congr hedges hsize, nodeIds, parentNumbers,
    predecessors_congr hedges, hsize]

end Digraph

@[simp] theorem mem_firstOccurrences {α : Type} [DecidableEq α] {xs : List α} {x : α} :
    x ∈ firstOccurrences xs ↔ x ∈ xs := by
  suffices key : ∀ seen : List α,
      x ∈ xs.foldl (fun seen x => if x ∈ seen then seen else seen ++ [x]) seen ↔
        x ∈ seen ∨ x ∈ xs by
    simpa [firstOccurrences] using key []
  induction xs with
  | nil => simp
  | cons y rest ih =>
    intro seen
    rw [List.foldl_cons, ih, List.mem_cons]
    by_cases hy : y ∈ seen
    · rw [if_pos hy]
      constructor
      · exact Or.imp_right .inr
      · rintro (hx | rfl | hx)
        · exact .inl hx
        · exact .inl hy
        · exact .inr hx
    · rw [if_neg hy, List.mem_append, List.mem_singleton, or_assoc]

theorem nodup_firstOccurrences {α : Type} [DecidableEq α] (xs : List α) :
    (firstOccurrences xs).Nodup := by
  suffices key : ∀ seen : List α, seen.Nodup →
      (xs.foldl (fun seen x => if x ∈ seen then seen else seen ++ [x]) seen).Nodup from
    key [] List.nodup_nil
  induction xs with
  | nil => exact fun _ => id
  | cons y rest ih =>
    intro seen hseen
    rw [List.foldl_cons]
    refine ih _ ?_
    split
    · exact hseen
    · next hy => simpa [List.concat_eq_append] using hseen.concat hy

theorem Subroutine.exists_call {sub : Subroutine} {b : BlockId} (h : b ∈ sub.returnBlocks) :
    ∃ call, call ∈ sub.callsReturningTo b := by
  obtain ⟨⟨call, ret⟩, hpath, rfl⟩ := List.mem_map.1 (mem_firstOccurrences.1 h)
  exact ⟨call, List.mem_map.2 ⟨_, List.mem_filter.2 ⟨hpath, by simp⟩, rfl⟩⟩

theorem insertIdx_eq_take_append {α : Type} {xs : List α} {i : Nat} {x : α}
    (h : i ≤ xs.length) : xs.insertIdx i x = xs.take i ++ x :: xs.drop i := by
  induction xs generalizing i with
  | nil => simp [Nat.le_zero.1 h]
  | cons y rest ih =>
    cases i with
    | zero => rfl
    | succ i => simp [ih (Nat.le_of_succ_le_succ h)]

namespace FlowGraph

/-- The graphs differ in their trees and statements at most. -/
structure SameShape (f f' : FlowGraph) : Prop where
  edges : f'.graph.edges = f.graph.edges
  size : f'.graph.nodes.size = f.graph.nodes.size
  labels : ∀ b, (f'.block? b).map Block.label = (f.block? b).map Block.label
  handlers : f'.handlers = f.handlers
  subroutines : f'.subroutines = f.subroutines
  version : f'.version = f.version
  computed : f'.computed = f.computed

namespace SameShape

variable {f f' f'' : FlowGraph}

theorem refl (f : FlowGraph) : f.SameShape f := ⟨rfl, rfl, fun _ => rfl, rfl, rfl, rfl, rfl⟩

theorem trans (h : f.SameShape f') (h' : f'.SameShape f'') : f.SameShape f'' :=
  ⟨h'.edges.trans h.edges, h'.size.trans h.size, fun b => (h'.labels b).trans (h.labels b),
    h'.handlers.trans h.handlers, h'.subroutines.trans h.subroutines, h'.version.trans h.version,
    h'.computed.trans h.computed⟩

instance : IsPreorder FlowGraph SameShape where
  refl := refl
  trans _ _ _ := trans

theorem withTree (f : FlowGraph) (tree : Tree) : f.SameShape { f with tree } :=
  ⟨rfl, rfl, fun _ => rfl, rfl, rfl, rfl, rfl⟩

theorem succs (h : f.SameShape f') : f'.succs = f.succs := Digraph.successors_congr h.edges

theorem preds (h : f.SameShape f') : f'.preds = f.preds := Digraph.predecessors_congr h.edges

theorem contains (h : f.SameShape f') : f'.contains = f.contains := by
  funext b
  simp [FlowGraph.contains, Digraph.contains, h.size]

theorem stamp (h : f.SameShape f') : f'.stamp = f.stamp := by
  simp [FlowGraph.stamp, blockCount, Digraph.nodeCount, h.version, h.size]

theorem graphPreorder (h : f.SameShape f') : f'.graph.preorder = f.graph.preorder :=
  Digraph.preorder_congr h.edges h.size

theorem preorder (h : f.SameShape f') : f'.preorder = f.preorder := by
  simp [FlowGraph.preorder, h.graphPreorder, blocks, Digraph.nodeIds, h.size]

theorem reversePostorder (h : f.SameShape f') :
    f'.graph.reversePostorder = f.graph.reversePostorder :=
  Digraph.reversePostorder_congr h.edges h.size

theorem frontiers (h : f.SameShape f') : f'.graph.frontiers = f.graph.frontiers :=
  Digraph.frontiers_congr h.edges h.size

theorem subroutine? (h : f.SameShape f') : f'.subroutine? = f.subroutine? := by
  funext s
  simp [FlowGraph.subroutine?, h.subroutines]

theorem handlersProtecting (h : f.SameShape f') :
    f'.handlersProtecting = f.handlersProtecting := by
  funext b
  simp [FlowGraph.handlersProtecting, h.handlers]

theorem catchBlocks (h : f.SameShape f') : f'.catchBlocks = f.catchBlocks := by
  simp [FlowGraph.catchBlocks, h.handlers]

theorem dominators (h : f.SameShape f') : f'.dominators = f.dominators := by
  simp [FlowGraph.dominators, Digraph.dominatorTree_congr h.edges h.size]

end SameShape

variable {f f' : FlowGraph}

@[simp] theorem liftTree_ok {α : Type} {x : Edit Tree α} {a : α} :
    (liftM x : Edit FlowGraph α) f = .ok a f' ↔
      ∃ tree, x f.tree = .ok a tree ∧ { f with tree } = f' := Edit.within_ok

@[simp] theorem checkBlock_ok {b : BlockId} {u : Unit} :
    f.checkBlock b = .ok u ↔ f.contains b = true := by
  simp [checkBlock]

@[simp] theorem checkStamp_ok {s : Stamp} {u : Unit} : f.checkStamp s = .ok u ↔ f.stamp = s := by
  simp [checkStamp]

/-- The graph with other statements in a block. -/
def withStatements (f : FlowGraph) (b : BlockId) (change : List NodeId → List NodeId) : FlowGraph :=
  { f with graph := f.graph.modifyNode b fun block =>
    { block with statements := change block.statements } }

theorem statements_withStatements (f : FlowGraph) (b c : BlockId)
    (change : List NodeId → List NodeId) : (f.withStatements b change).statements c =
      if c = b ∧ f.contains b = true then change (f.statements c) else f.statements c := by
  simp only [statements, block?, Digraph.node?, withStatements, Digraph.modifyNode,
    Array.getElem?_modify, FlowGraph.contains, Digraph.contains, decide_eq_true_eq]
  by_cases hcb : c = b
  · subst hcb
    by_cases hin : c.index < f.graph.nodes.size
    · simp [hin]
    · simp [hin]
  · have hne : b.index ≠ c.index := fun he => hcb (by cases b; cases c; simpa using he.symm)
    simp [hcb, hne]

theorem SameShape.withStatements (f : FlowGraph) (b : BlockId)
    (change : List NodeId → List NodeId) : f.SameShape (f.withStatements b change) where
  edges := rfl
  size := by simp [FlowGraph.withStatements, Digraph.modifyNode]
  labels c := by
    simp only [block?, Digraph.node?, FlowGraph.withStatements, Digraph.modifyNode,
      Array.getElem?_modify]
    split
    · rw [Option.map_map]
      rfl
    · rfl
  handlers := rfl
  subroutines := rfl
  version := rfl
  computed := rfl

namespace SameShape

theorem moves_modifyStatements (b : BlockId) (change : List NodeId → List NodeId) :
    Edit.Moves SameShape (modifyStatements b change) := fun f => .withStatements f b change

theorem moves_liftTree {α : Type} (x : Edit Tree α) :
    Edit.Moves SameShape (liftM x : Edit FlowGraph α) :=
  Edit.Moves.within (T := fun _ _ => True) (fun _ => trivial) fun f tree _ => .withTree f tree

theorem moves_insertStatement (b : BlockId) (index : Nat) (n : NodeId) :
    Edit.Moves SameShape (insertStatement b index n) :=
  moves_insert_of moves_modifyStatements
    (fun n block => moves_liftTree (Tree.setBlock n block)) b index n

theorem moves_removeStatement (n : NodeId) : Edit.Moves SameShape (removeStatement n) :=
  moves_remove_of moves_modifyStatements (fun n block => moves_liftTree (Tree.setBlock n block)) n

end SameShape

/-- The graph with other statements in a block and another slot at a node. -/
def withMove (f : FlowGraph) (b : BlockId) (change : List NodeId → List NodeId) (n : NodeId)
    (s : Slot) : FlowGraph :=
  { f.withStatements b change with tree := f.tree.put n s }

variable {n : NodeId} {s : Slot} {block : Option BlockId}

theorem statements_withMove (f : FlowGraph) (b c : BlockId) (change : List NodeId → List NodeId)
    (n : NodeId) (s : Slot) : (f.withMove b change n s).statements c =
      if c = b ∧ f.contains b = true then change (f.statements c) else f.statements c :=
  statements_withStatements f b c change

theorem sameShape_withMove (f : FlowGraph) (b : BlockId) (change : List NodeId → List NodeId)
    (n : NodeId) (s : Slot) : f.SameShape (f.withMove b change n s) :=
  (SameShape.withStatements f b change).trans (.withTree _ _)

theorem move_ok (hs : f.tree.slot? n = some s) (b : BlockId) (change : List NodeId → List NodeId) :
    (modifyStatements b change >>= fun _ => Tree.setBlock n block : Edit FlowGraph Unit) f =
      .ok ⟨⟩ (f.withMove b change n { s with block }) :=
  Edit.bind_ok.2 ⟨(), f.withStatements b change, Edit.modify_ok.2 rfl,
    liftTree_ok.2 ⟨_, Tree.setBlock_ok.2 ⟨s, hs, rfl⟩, rfl⟩⟩

theorem leadingPhis_congr {b : BlockId} (hlist : f'.statements b = f.statements b)
    (hphi : ∀ n ∈ f.statements b, f'.tree.phiKind? n = f.tree.phiKind? n) :
    f'.leadingPhis b = f.leadingPhis b := by
  rw [leadingPhis, leadingPhis, hlist]
  congr 1
  generalize f.statements b = statements at hphi
  induction statements with
  | nil => rfl
  | cons n rest ih =>
    rw [List.takeWhile_cons, List.takeWhile_cons, hphi n (by simp),
      ih fun m hm => hphi m (by simp [hm])]

theorem insertStatement_ok {b : BlockId} {index : Nat} {u : Unit}
    (h : insertStatement b index n f = .ok u f') :
    f.contains b = true ∧ ∃ s, f.tree.slot? n = some s ∧
      f' = f.withMove b (·.insertIdx index n) n { s with block := some b } := by
  simp only [insertStatement, Edit.bind_ok, Edit.ask_ok, checkBlock_ok, Edit.get_ok,
    Edit.guard_ok] at h
  obtain ⟨_, _, ⟨hb, rfl⟩, _, _, ⟨-, rfl⟩, _, _, ⟨-, rfl⟩, _, _, ⟨-, rfl⟩, _, m, hm, hset⟩ := h
  obtain ⟨_, hput, rfl⟩ := liftTree_ok.1 hset
  obtain ⟨s, hs, rfl⟩ := Tree.setBlock_ok.1 hput
  obtain rfl := Edit.modify_ok.1 hm
  exact ⟨hb, s, hs, rfl⟩

theorem prependStatement_ok {b : BlockId} {u : Unit} (h : prependStatement b n f = .ok u f') :
    f.contains b = true ∧ ∃ s, f.tree.slot? n = some s ∧
      f' = f.withMove b (·.insertIdx (f.leadingPhis b) n) n { s with block := some b } := by
  simp only [prependStatement, Edit.bind_ok, Edit.get_ok] at h
  obtain ⟨_, _, ⟨rfl, rfl⟩, h⟩ := h
  exact insertStatement_ok h

theorem removeStatement_ok {b : BlockId} (h : removeStatement n f = .ok b f') :
    f.tree.blockOf n = .ok (some b) ∧ f.contains b = true ∧ ∃ s, f.tree.slot? n = some s ∧
      f' = f.withMove b (·.filter (· ≠ n)) n { s with block := none } := by
  simp only [removeStatement, Edit.bind_ok, Edit.ask_ok] at h
  obtain ⟨found, _, ⟨hblock, rfl⟩, h⟩ := h
  cases found with
  | none => simp at h
  | some c =>
    simp only [Edit.bind_ok, Edit.ask_ok, checkBlock_ok, Edit.pure_ok] at h
    obtain ⟨_, _, ⟨hc, rfl⟩, _, m, hm, _, m', hset, rfl, rfl⟩ := h
    obtain ⟨_, hput, rfl⟩ := liftTree_ok.1 hset
    obtain ⟨s, hs, rfl⟩ := Tree.setBlock_ok.1 hput
    obtain rfl := Edit.modify_ok.1 hm
    exact ⟨hblock, hc, s, hs, rfl⟩

theorem removeStatement_of_blockOf {b : BlockId} (hs : f.tree.slot? n = some s)
    (hblock : f.tree.blockOf n = .ok (some b)) (hb : f.contains b = true) :
    removeStatement n f = .ok b (f.withMove b (·.filter (· ≠ n)) n { s with block := none }) := by
  refine Edit.bind_ok.2 ⟨some b, f, Edit.ask_ok.2 ⟨hblock, rfl⟩, ?_⟩
  refine Edit.bind_ok.2 ⟨(), f, Edit.ask_ok.2 ⟨checkBlock_ok.2 hb, rfl⟩, ?_⟩
  rw [← bind_assoc]
  exact Edit.bind_ok.2 ⟨(), _, move_ok hs b _, rfl⟩

/-- Removal of a placed phi takes it out of its block, together with what it owns. -/
theorem cleanupNode_phi {v : Var} {p : Phi} {b : BlockId} {u : Unit}
    (h : cleanupNode n f = .ok u f') (hphi : f.tree.HoldsPhi v n p (some b)) :
    f.SameShape f' ∧ f.tree.Removes f'.tree n p ∧ ∀ c, f'.statements c =
      if c = b then (f.statements c).filter (· ≠ n) else f.statements c := by
  have hkind : f.tree.isStatement n = true := by
    simp [Tree.isStatement, Tree.node?, hphi.slot, Node.isStatement]
  have hblock : f.tree.blockOf n = .ok (some b) := Tree.blockOf_root hphi.slot rfl
  simp only [cleanupNode, Edit.bind_ok, Edit.get_ok] at h
  obtain ⟨_, _, ⟨rfl, rfl⟩, h⟩ := h
  rw [if_pos hkind] at h
  simp only [Edit.bind_ok, Edit.ask_ok, hblock] at h
  obtain ⟨_, _, ⟨⟨⟩, rfl⟩, h⟩ := h
  simp only [Option.isSome_some, if_true, Edit.bind_ok] at h
  obtain ⟨b', m, hremove, hclean⟩ := h
  obtain ⟨hblock', hb, s, hs, rfl⟩ := removeStatement_ok hremove
  obtain rfl : b = b' := by simpa [hblock] using hblock'
  obtain rfl : s = _ := Option.some.inj (hs.symm.trans hphi.slot)
  obtain ⟨tree, hsweep, rfl⟩ := liftTree_ok.1 hclean
  have hput := Tree.slot?_put_of_slot hphi.slot ⟨.phi p, none, none⟩
  have hremoves := Tree.cleanup_phi hsweep (hphi.put none)
  refine ⟨(sameShape_withMove _ _ _ _ _).trans (.withTree _ _),
    ⟨hremoves.size.trans (Tree.size_put _), hremoves.gone, fun k hk hmem => ?_⟩, fun c => ?_⟩
  · exact (hremoves.other k hk hmem).trans ((hput k).trans (if_neg hk))
  · refine (statements_withMove f b c _ n ⟨.phi p, none, none⟩).trans ?_
    simp only [hb, and_true]

end FlowGraph

end MethodFlow
