import MethodFlow.Proofs.Flow.Evolution

/-!
Graphs that grow. Blocks and edges are added and never go, the version counts them, and what is kept
of computations stays what computing it anew would give. Operations that add edges either add all of
them or are refused and change nothing.
-/

namespace MethodFlow

open Edit

namespace FlowGraph

variable {f f' f'' : FlowGraph} {s t : BlockId}

/-- The blocks and the edges are the same. -/
def SameOutline (f f' : FlowGraph) : Prop :=
  f'.blockCount = f.blockCount ∧ f'.graph.edges = f.graph.edges

namespace SameOutline

theorem preorder (h : f.SameOutline f') : f'.preorder = f.preorder := by
  have hsize : f'.graph.nodes.size = f.graph.nodes.size := h.1
  simp [FlowGraph.preorder, Digraph.preorder_congr h.2 hsize, blocks, Digraph.nodeIds, hsize]

theorem dominators (h : f.SameOutline f') : f'.dominators = f.dominators := by
  rw [FlowGraph.dominators, FlowGraph.dominators, Digraph.dominatorTree_congr h.2 h.1]

theorem frontiers (h : f.SameOutline f') : f'.frontiers = f.frontiers := by
  rw [FlowGraph.frontiers, FlowGraph.frontiers, h.dominators, Digraph.frontiers_congr h.2 h.1]

end SameOutline

theorem SameShape.sameOutline (h : f.SameShape f') : f.SameOutline f' := ⟨h.size, h.edges⟩

/-- What is kept of computations is what computing it anew gives. -/
structure Faithful (f : FlowGraph) : Prop where
  preorder : ∀ order ∈ f.computed.preorder, order = f.preorder
  dominators : ∀ tree ∈ f.computed.dominators, tree = f.dominators
  frontiers : ∀ frontiers ∈ f.computed.frontiers, frontiers = f.frontiers

theorem Faithful.of_nothing (h : f.computed = {}) : f.Faithful := by
  constructor <;> simp [h]

theorem Faithful.of_sameOutline (h : f.Faithful) (hsame : f.SameOutline f')
    (hcomputed : f'.computed = f.computed) : f'.Faithful where
  preorder := by simpa only [hcomputed, hsame.preorder] using h.preorder
  dominators := by simpa only [hcomputed, hsame.dominators] using h.dominators
  frontiers := by simpa only [hcomputed, hsame.frontiers] using h.frontiers

/-- Blocks and edges are only added, the version counts how many, and what is kept stays
faithful. -/
structure Grows (f f' : FlowGraph) : Prop where
  blocks : f.blockCount ≤ f'.blockCount
  edges : f.graph.edges <+: f'.graph.edges
  version : f'.version + f.blockCount + f.graph.edgeCount =
    f.version + f'.blockCount + f'.graph.edgeCount
  faithful : f.Faithful → f'.Faithful

instance : IsPreorder FlowGraph Grows where
  refl _ := ⟨Nat.le_refl _, List.prefix_rfl, rfl, id⟩
  trans f f' f'' h h' :=
    { blocks := h.blocks.trans h'.blocks
      edges := h.edges.trans h'.edges
      version := by have := h.version; have := h'.version; omega
      faithful := h'.faithful ∘ h.faithful }

theorem Grows.of_sameOutline (h : f.SameOutline f') (hversion : f'.version = f.version)
    (hcomputed : f'.computed = f.computed) : f.Grows f' where
  blocks := h.1.ge
  edges := h.2 ▸ List.prefix_rfl
  version := by rw [hversion, h.1, Digraph.edgeCount, Digraph.edgeCount, h.2]
  faithful hf := hf.of_sameOutline h hcomputed

theorem SameShape.grows (h : f.SameShape f') : f.Grows f' :=
  .of_sameOutline h.sameOutline h.version h.computed

namespace Grows

theorem contains (h : f.Grows f') {b : BlockId} (hb : f.contains b = true) :
    f'.contains b = true := by
  have hblocks := h.blocks
  simp only [FlowGraph.contains, Digraph.contains, decide_eq_true_eq, blockCount,
    Digraph.nodeCount] at hb hblocks ⊢
  omega

theorem succs (h : f.Grows f') (ht : t ∈ f.succs s) : t ∈ f'.succs s := by
  obtain ⟨e, he, hjoins⟩ := Digraph.mem_successors.1 ht
  exact Digraph.mem_successors.2 ⟨e, h.edges.subset he, hjoins⟩

/-- The version stands still exactly if nothing was added. -/
theorem version_eq_iff (h : f.Grows f') : f'.version = f.version ↔ f.SameOutline f' := by
  have hblocks := h.blocks
  have hedges := h.edges.length_le
  have hversion := h.version
  simp only [Digraph.edgeCount] at hversion
  constructor
  · intro he
    exact ⟨by omega, (h.edges.eq_of_length (by omega)).symm⟩
  · rintro ⟨hsize, hsame⟩
    rw [hsame] at hversion
    omega

theorem version_le (h : f.Grows f') : f.version ≤ f'.version := by
  have hblocks := h.blocks
  have hedges := h.edges.length_le
  have hversion := h.version
  simp only [Digraph.edgeCount] at hversion
  omega

end Grows

theorem grows_addBlock (label : UInt32) (f : FlowGraph) :
    f.Grows { f with graph := f.graph.addNode { label } : FlowGraph }.invalidate where
  blocks := by simp [blockCount, Digraph.nodeCount, Digraph.addNode, invalidate]
  edges := List.prefix_rfl
  version := by
    simp only [blockCount, Digraph.nodeCount, Digraph.addNode, Digraph.edgeCount, invalidate,
      Array.size_push]
    omega
  faithful _ := .of_nothing rfl

theorem hasEdge_iff : f.graph.hasEdge s t = true ↔ t ∈ f.succs s := by
  simp [Digraph.hasEdge, Digraph.edge?, succs, Digraph.mem_successors]

section edges

variable (f s t) (kind : EdgeKind)

theorem grows_withEdge : f.Grows (f.withEdge s t kind) := by
  unfold withEdge
  split
  · exact Std.Refl.refl f
  · exact
      { blocks := Nat.le_refl _
        edges := List.prefix_append _ _
        version := by
          simp only [blockCount, Digraph.nodeCount, Digraph.edgeCount, invalidate,
            List.length_append, List.length_singleton]
          omega
        faithful := fun _ => .of_nothing rfl }

theorem mem_succs_withEdge : t ∈ (f.withEdge s t kind).succs s := by
  unfold withEdge
  split
  · next h => exact hasEdge_iff.1 h
  · exact Digraph.mem_successors.2 ⟨⟨s, t, kind⟩, by simp [invalidate], rfl, rfl⟩

theorem subroutines_withEdge : (f.withEdge s t kind).subroutines = f.subroutines := by
  unfold withEdge
  split <;> rfl

end edges

/-- The graph has grown, and some blocks are now joined. -/
structure Joins (pairs : List (BlockId × BlockId)) (f f' : FlowGraph) : Prop where
  grows : f.Grows f'
  joined : ∀ p ∈ pairs, p.2 ∈ f'.succs p.1
  subroutines : f'.subroutines = f.subroutines

namespace Joins

theorem refl (f : FlowGraph) : Joins [] f f := ⟨Std.Refl.refl f, by simp, rfl⟩

theorem trans {pairs pairs' : List (BlockId × BlockId)} (h : Joins pairs f f')
    (h' : Joins pairs' f' f'') :
    Joins (pairs ++ pairs') f f'' where
  grows := IsTrans.trans _ _ _ h.grows h'.grows
  joined p hp := (List.mem_append.1 hp).elim
    (fun hp => h'.grows.succs (h.joined p hp)) (h'.joined p)
  subroutines := h'.subroutines.trans h.subroutines

theorem withEdge (f : FlowGraph) (s t : BlockId) (kind : EdgeKind) :
    Joins [(s, t)] f (f.withEdge s t kind) where
  grows := grows_withEdge f s t kind
  joined := by simpa using mem_succs_withEdge f s t kind
  subroutines := subroutines_withEdge f s t kind

end Joins

theorem addEdge_joins (hs : f.contains s = true) (ht : f.contains t = true) (kind : EdgeKind) :
    Yields (addEdge s t kind) f fun _ => Joins [(s, t)] f :=
  ⟨_, _, addEdge_ok hs ht kind, .withEdge f s t kind⟩

theorem addEdges_joins {α : Type} (xs : List α) (source target : α → BlockId) (kind : EdgeKind)
    (h : ∀ x ∈ xs, f.contains (source x) = true ∧ f.contains (target x) = true) :
    Yields (xs.forM fun x => do let _ ← addEdge (source x) (target x) kind) f fun _ =>
      Joins (xs.map fun x => (source x, target x)) f := by
  refine Yields.forM (fun before => Joins (before.map fun x => (source x, target x)) f) (.refl f) ?_
  intro before x after m hxs hm
  obtain ⟨hsource, htarget⟩ := h x (by simp [hxs])
  refine (addEdge_joins (hm.grows.contains hsource) (hm.grows.contains htarget) kind).bind ?_
  intro _ m' _ hm'
  rw [List.map_append]
  exact .pure (hm.trans hm')

theorem checkBlocks_ok {bs : List BlockId} (h : ∀ b ∈ bs, f.contains b = true) :
    bs.forM (fun b => ask (·.checkBlock b)) f = .ok ⟨⟩ f := by
  rcases forM_ask_ends (fun b (f : FlowGraph) => f.checkBlock b) bs f with
    ⟨_, f, hrun, rfl, -⟩ | ⟨e, f, -, rfl, b, hb, hfail⟩
  · exact hrun
  · simp [checkBlock, h b hb] at hfail

theorem addHandler_joins {protectedBlocks : List BlockId} {entry : BlockId}
    (caught : Option Descriptor)
    (hentry : f.contains entry = true) (hprotected : ∀ b ∈ protectedBlocks, f.contains b = true) :
    Yields (addHandler protectedBlocks entry caught) f fun _ =>
      Joins (protectedBlocks.map fun b => (b, entry)) f := by
  refine .of_ask (a := ⟨⟩) (checkBlock_ok.2 hentry) (.of_first (checkBlocks_ok hprotected) ?_)
  refine (addEdges_joins protectedBlocks id (fun _ => entry) .exception fun b hb =>
    ⟨hprotected b hb, hentry⟩).bind fun _ m _ hm => ?_
  exact ⟨_, _, rfl, { hm with
    grows := IsTrans.trans _ _ _ hm.grows (.of_sameOutline ⟨rfl, rfl⟩ rfl rfl) }⟩

theorem addHandler_settles (f : FlowGraph) (protectedBlocks : List BlockId) (entry : BlockId)
    (caught : Option Descriptor) :
    Settles (addHandler protectedBlocks entry caught) f fun _ f' =>
      f.contains entry = true ∧ (∀ b ∈ protectedBlocks, f.contains b = true) ∧
        Joins (protectedBlocks.map fun b => (b, entry)) f f' := by
  by_cases hentry : f.contains entry = true
  · by_cases hprotected : ∀ b ∈ protectedBlocks, f.contains b = true
    · exact .inr ((addHandler_joins caught hentry hprotected).mono fun _ _ h =>
        ⟨hentry, hprotected, h⟩)
    · refine .of_ask fun _ _ =>
        .of_forM_ask (g := fun b (f : FlowGraph) => f.checkBlock b) fun hall => ?_
      exact absurd (fun b hb => checkBlock_ok.1 (hall b hb)) hprotected
  · exact .of_ask fun _ h => absurd (checkBlock_ok.1 h) hentry

theorem contains_handlerOf {resolve : UInt16 → Except Fault Descriptor} {range : ProtectedRange}
    {h : Handler} (hrun : f.handlerOf resolve range = .ok h) :
    f.contains h.entry = true ∧ ∀ b ∈ h.protectedBlocks, f.contains b = true := by
  unfold handlerOf at hrun
  split at hrun
  · simp at hrun
  · next entry hentry =>
    have hblock : ∀ b ∈ f.blocks, f.contains b = true := fun b hb => Digraph.mem_nodeIds.1 hb
    dsimp only at hrun
    split at hrun
    · simp at hrun
    · simp only [Except.bind_eq_ok, Except.pure_eq_ok] at hrun
      obtain ⟨caught, -, rfl⟩ := hrun
      exact ⟨hblock _ (List.mem_of_find?_eq_some hentry),
        fun b hb => hblock b (List.mem_filter.1 hb).1⟩

theorem addExceptionTable_settles (f : FlowGraph) (table : CodeTable ProtectedRange)
    (resolve : UInt16 → Except Fault Descriptor) :
    Settles (addExceptionTable table resolve) f fun _ f' =>
      ∃ found, table.entries.mapM (f.handlerOf resolve) = .ok found ∧
        Joins (found.flatMap fun h => h.protectedBlocks.map fun b => (b, h.entry)) f f' := by
  refine .of_ask fun found hfound => .inr ?_
  refine (Yields.forM
    (fun before => Joins (before.flatMap fun h => h.protectedBlocks.map fun b => (b, h.entry)) f)
    (.refl f) ?_).mono fun _ _ hjoins => ⟨found, hfound, hjoins⟩
  intro before h after m hxs hm
  obtain ⟨range, -, hrange⟩ := Except.mem_of_mapM hfound (y := h) (by simp [hxs])
  obtain ⟨hentry, hprotected⟩ := contains_handlerOf hrange
  refine (addHandler_joins h.caught (hm.grows.contains hentry) fun b hb =>
    hm.grows.contains (hprotected b hb)).bind fun _ m' _ hm' => .pure ?_
  simpa using hm.trans hm'

section recalling

/-- More may be kept of computations, and it is faithful. -/
def Recalls (f f' : FlowGraph) : Prop := ∃ computed, { f with computed } = f' ∧ f'.Faithful

theorem Recalls.grows (h : f.Recalls f') : f.Grows f' := by
  obtain ⟨computed, rfl, hfaithful⟩ := h
  exact ⟨Nat.le_refl _, List.prefix_rfl, rfl, fun _ => hfaithful⟩

variable (h : f.Faithful)

include h

theorem recallPreorder_yields :
    Yields recallPreorder f fun order f' => order = f.preorder ∧ f.Recalls f' := by
  cases hkept : f.computed.preorder with
  | some order =>
    exact ⟨order, f, modifyGet_ok.2 (by rw [hkept]), h.preorder order hkept, f.computed, rfl, h⟩
  | none =>
    refine ⟨f.preorder, { f with computed.preorder := some f.preorder },
      modifyGet_ok.2 (by rw [hkept]), rfl, _, rfl, ?_, h.dominators, h.frontiers⟩
    rintro _ ⟨⟩
    rfl

theorem recallDominators_yields :
    Yields recallDominators f fun tree f' => tree = f.dominators ∧ f.Recalls f' := by
  cases hkept : f.computed.dominators with
  | some tree =>
    exact ⟨tree, f, modifyGet_ok.2 (by rw [hkept]), h.dominators tree hkept, f.computed, rfl, h⟩
  | none =>
    refine ⟨f.dominators, { f with computed.dominators := some f.dominators },
      modifyGet_ok.2 (by rw [hkept]), rfl, _, rfl, h.preorder, ?_, h.frontiers⟩
    rintro _ ⟨⟩
    rfl

theorem recallReachable_yields (b : BlockId) :
    Yields (recallReachable b) f fun reached f' => reached = f.isReachable b ∧ f.Recalls f' := by
  refine (recallDominators_yields h).bind ?_
  rintro _ f' - ⟨rfl, hrecalls⟩
  exact .pure ⟨rfl, hrecalls⟩

theorem recallFrontiers_yields :
    Yields recallFrontiers f fun frontiers f' => frontiers = f.frontiers ∧ f.Recalls f' := by
  refine .of_get ?_
  cases hkept : f.computed.frontiers with
  | some frontiers => exact .pure ⟨h.frontiers frontiers hkept, f.computed, rfl, h⟩
  | none =>
    refine (recallDominators_yields h).bind ?_
    rintro _ _ - ⟨rfl, computed, rfl, hfaithful⟩
    refine ⟨_, _, rfl, rfl, _, rfl, hfaithful.preorder, hfaithful.dominators, ?_⟩
    rintro _ ⟨⟩
    rfl

/-- A block of the graph has a position, and no other has. -/
theorem recallIndex_settles (hf : f.Framed) (b : BlockId) :
    Settles (recallIndex b) f fun i f' => f.preorderIndex b = .ok i ∧ f.Recalls f' := by
  refine .of_ask fun _ hb => .inr ((recallPreorder_yields h).bind ?_)
  rintro _ f' - ⟨rfl, hrecalls⟩
  have hmem : b ∈ f.preorder := (mem_preorder hf.closed hf.entry).2 (checkBlock_ok.1 hb)
  obtain ⟨i, hi⟩ := Option.isSome_iff_exists.1 (List.isSome_idxOf?.2 hmem)
  rw [hi]
  refine .pure ⟨?_, hrecalls⟩
  simp [preorderIndex, hb, hi, bind, Except.bind, pure, Except.pure]

theorem recall_settles (hf : f.Framed) (q : ShapeQuery) : Settles q.run f fun _ => f.Recalls := by
  cases q with
  | preorder => exact .inr ((recallPreorder_yields h).bind fun _ _ _ hm => .pure hm.2)
  | index b => exact (recallIndex_settles h hf b).bind fun _ _ hm => .pure hm.2
  | dominators => exact .inr ((recallDominators_yields h).bind fun _ _ _ hm => .pure hm.2)
  | reachable b => exact .inr ((recallReachable_yields h b).bind fun _ _ _ hm => .pure hm.2)
  | frontiers => exact .inr ((recallFrontiers_yields h).bind fun _ _ _ hm => .pure hm.2)

end recalling

end FlowGraph

end MethodFlow
