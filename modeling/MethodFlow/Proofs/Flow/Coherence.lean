import MethodFlow.Proofs.Flow.Shape
import MethodFlow.Proofs.Graph.Search
import MethodFlow.Proofs.Tree.Walk

/-!
Graphs that can be relied on. Edges join blocks of the graph, what a block lists are statements that
know where they are, and handlers and subroutines name blocks of the graph.
-/

namespace MethodFlow.FlowGraph

/-- The edges, the handlers and the subroutines of the graph can be relied on. -/
structure Framed (f : FlowGraph) : Prop where
  closed : f.graph.Closed
  entry : f.contains entry = true
  handled : ∀ h ∈ f.handlers, f.contains h.entry = true
  numbered : ∀ (i : Nat) (sub : Subroutine), f.subroutines[i]? = some sub → sub.id = ⟨i⟩
  returning : ∀ sub ∈ f.subroutines, ∀ p ∈ sub.paths, f.contains p.2 = true

/-- The frame of the graph can be relied on, and so can its tree and the lists of its blocks. -/
structure Coherent (f : FlowGraph) : Prop extends Framed f where
  tree : f.tree.Coherent
  nodup : ∀ b, (f.statements b).Nodup
  placed : ∀ b, ∀ n ∈ f.statements b, ∀ s, f.tree.slot? n = some s →
    s.node.isStatement = true ∧ s.block = some b
  inside : ∀ b, ∀ n ∈ f.statements b, n.index < f.tree.size

variable {f : FlowGraph} {b : BlockId}

theorem SameShape.closed {f' : FlowGraph} (h : f.SameShape f') (hclosed : f.graph.Closed) :
    f'.graph.Closed := fun e he => by
  rw [h.edges] at he
  exact ⟨(congrFun h.contains e.source).trans (hclosed e he).1,
    (congrFun h.contains e.target).trans (hclosed e he).2⟩

theorem SameShape.framed {f' : FlowGraph} (h : f.SameShape f') (hf : f.Framed) : f'.Framed where
  closed := h.closed hf.closed
  entry := (congrFun h.contains _).trans hf.entry
  handled handler hh := (congrFun h.contains _).trans (hf.handled handler (h.handlers ▸ hh))
  numbered i sub hsub := hf.numbered i sub (by rw [← h.subroutines]; exact hsub)
  returning sub hsub p hp :=
    (congrFun h.contains _).trans (hf.returning sub (h.subroutines ▸ hsub) p hp)

theorem Framed.contains_catchBlock (h : f.Framed) (hb : b ∈ f.catchBlocks) :
    f.contains b = true := by
  obtain ⟨handler, hh, rfl⟩ := List.mem_map.1 (mem_firstOccurrences.1 hb)
  exact h.handled handler hh

theorem Framed.contains_returnBlock (h : f.Framed) {sub : Subroutine} (hsub : sub ∈ f.subroutines)
    (hb : b ∈ sub.returnBlocks) : f.contains b = true := by
  obtain ⟨p, hp, rfl⟩ := List.mem_map.1 (mem_firstOccurrences.1 hb)
  exact h.returning sub hsub p hp

theorem Framed.subroutine?_id (h : f.Framed) {sub : Subroutine} (hsub : sub ∈ f.subroutines) :
    f.subroutine? sub.id = some sub := by
  obtain ⟨i, hi⟩ := List.getElem?_of_mem hsub
  rw [subroutine?, h.numbered i sub hi]
  exact hi

/-- Work on the tree and the statements leaves a graph in order as long as the tree is, and each
block lists statements that know where they are. -/
theorem Coherent.of_shape {f' : FlowGraph} (h : f.Coherent) (hshape : f.SameShape f')
    (tree : f'.tree.Coherent) (nodup : ∀ b, (f'.statements b).Nodup)
    (placed : ∀ b, ∀ n ∈ f'.statements b, ∀ s, f'.tree.slot? n = some s →
      s.node.isStatement = true ∧ s.block = some b)
    (inside : ∀ b, ∀ n ∈ f'.statements b, n.index < f'.tree.size) : f'.Coherent where
  toFramed := hshape.framed h.toFramed
  tree := tree
  nodup := nodup
  placed := placed
  inside := inside

theorem contains_of_mem_statements {n : NodeId} (hn : n ∈ f.statements b) :
    f.contains b = true := by
  unfold statements block? Digraph.node? at hn
  unfold contains Digraph.contains
  by_contra hout
  rw [Array.getElem?_eq_none (by simpa using hout)] at hn
  simp at hn

theorem Coherent.root (h : f.Coherent) {n : NodeId} (hn : n ∈ f.statements b) {s : Slot}
    (hs : f.tree.slot? n = some s) : s.parent = none :=
  h.tree.root n s hs (h.placed b n hn s hs).1

/-- A statement is in the block that lists it. -/
theorem Coherent.blockOf_listed (h : f.Coherent) {n : NodeId} (hn : n ∈ f.statements b) {s : Slot}
    (hs : f.tree.slot? n = some s) : f.tree.blockOf n = .ok (some b) := by
  rw [Tree.blockOf_root hs (h.root hn hs), (h.placed b n hn s hs).2]

/-- The preorder lists every block once. -/
theorem nodup_preorder (closed : f.graph.Closed) (hentry : f.contains entry = true) :
    f.preorder.Nodup := by
  rw [preorder, List.nodup_append]
  refine ⟨Digraph.nodup_preorder closed hentry, ?_, ?_⟩
  · refine List.Nodup.filter _ ?_
    exact List.nodup_range.map fun i j h => BlockId.mk.inj h
  · rintro b hb _ hb' rfl
    simp [hb] at hb'

theorem mem_preorder (closed : f.graph.Closed) (hentry : f.contains entry = true) :
    b ∈ f.preorder ↔ f.contains b = true := by
  simp only [preorder, List.mem_append, List.mem_filter, decide_eq_true_eq]
  constructor
  · rintro (hb | ⟨hb, -⟩)
    · exact Digraph.contains_of_mem_preorder closed hentry hb
    · exact Digraph.mem_nodeIds.1 hb
  · intro hb
    by_cases hin : b ∈ f.graph.preorder entry
    · exact .inl hin
    · exact .inr ⟨Digraph.mem_nodeIds.2 hb, hin⟩

end MethodFlow.FlowGraph
