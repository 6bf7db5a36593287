import MethodFlow.Proofs.Flow.Coherence
import MethodFlow.Proofs.Tree.Requests

/-!
What operations make of a control flow graph. They keep it in order, and no block is ever lost.
-/

namespace MethodFlow

open Edit

namespace FlowGraph

variable {f f' f'' : FlowGraph} {b : BlockId} {n : NodeId}

/-- A graph in order stays in order, and every graph keeps its blocks. -/
structure Evolves (f f' : FlowGraph) : Prop where
  coherent : f.Coherent → f'.Coherent
  contains : ∀ b, f.contains b = true → f'.contains b = true

instance : IsPreorder FlowGraph Evolves where
  refl _ := ⟨id, fun _ => id⟩
  trans _ _ _ h h' := ⟨h'.coherent ∘ h.coherent, fun b => h'.contains b ∘ h.contains b⟩

theorem SameShape.evolves (hshape : f.SameShape f') (h : f.Coherent → f'.Coherent) :
    f.Evolves f' := ⟨h, fun b hb => (congrFun hshape.contains b).trans hb⟩

theorem evolves_withTree {tree : Tree} (htree : f.tree.Evolves tree) :
    f.Evolves { f with tree } := by
  refine (SameShape.withTree f tree).evolves fun hf => ?_
  obtain ⟨htree, hsteady⟩ := htree hf.tree
  refine hf.of_shape (.withTree f tree) htree hf.nodup (fun b n hn s' hs' => ?_)
    fun b n hn => Nat.lt_of_lt_of_le (hf.inside b n hn) hsteady.size
  obtain ⟨s, hs, hkind, hblock⟩ := hsteady.old n s' (hf.inside b n hn) hs'
  obtain ⟨hstatement, hplaced⟩ := hf.placed b n hn s hs
  exact ⟨hkind.trans hstatement, hblock.trans hplaced⟩

theorem moves_liftTree {α : Type} {x : Edit Tree α} (hx : Moves Tree.Evolves x) :
    Moves Evolves (liftM x : Edit FlowGraph α) := hx.within fun _ _ => evolves_withTree

theorem moves_addBlock (label : UInt32) : Moves Evolves (addBlock label) := by
  intro f
  let f' : FlowGraph := { f with graph := f.graph.addNode { label } : FlowGraph }.invalidate
  have hcontains (b : BlockId) (hb : f.contains b = true) : f'.contains b = true := by
    simp only [FlowGraph.contains, Digraph.contains, Digraph.addNode, Array.size_push,
      decide_eq_true_eq, invalidate, f'] at hb ⊢
    omega
  -- The new block lists nothing.
  have hstatements (b : BlockId) (n : NodeId) (hn : n ∈ f'.statements b) : n ∈ f.statements b := by
    simp only [statements, block?, Digraph.node?, Digraph.addNode, Array.getElem?_push, invalidate,
      f'] at hn ⊢
    split at hn
    · simp at hn
    · exact hn
  have hnodup (hf : f.Coherent) (b : BlockId) : (f'.statements b).Nodup := by
    have hold := hf.nodup b
    simp only [statements, block?, Digraph.node?, Digraph.addNode, Array.getElem?_push, invalidate,
      f'] at hold ⊢
    split
    · simp
    · exact hold
  refine ⟨fun hf => ?_, hcontains⟩
  exact
    { tree := hf.tree
      closed := fun e he => ⟨hcontains _ (hf.closed e he).1, hcontains _ (hf.closed e he).2⟩
      entry := hcontains _ hf.entry
      nodup := hnodup hf
      placed := fun b n hn => hf.placed b n (hstatements b n hn)
      inside := fun b n hn => hf.inside b n (hstatements b n hn)
      handled := fun h hh => hcontains _ (hf.handled h hh)
      numbered := hf.numbered
      returning := fun sub hsub p hp => hcontains _ (hf.returning sub hsub p hp) }

/-- Edges may come and go, as long as they join blocks of the graph. -/
theorem evolves_withEdges (edges : List (Edge EdgeKind)) (hedges : ∀ e ∈ edges, e ∈ f.graph.edges ∨
      f.contains e.source = true ∧ f.contains e.target = true) :
    f.Evolves { f with graph := { f.graph with edges } : FlowGraph }.invalidate :=
  ⟨fun hf => { hf with closed := fun e he => (hedges e he).elim (hf.closed e) id }, fun _ => id⟩

theorem evolves_withComputed (computed : Computed) : f.Evolves { f with computed } :=
  ⟨fun hf => { hf with }, fun _ => id⟩

def withEdge (f : FlowGraph) (s t : BlockId) (kind : EdgeKind) : FlowGraph :=
  if f.graph.hasEdge s t then f
  else { f with graph :=
    { f.graph with edges := f.graph.edges ++ [Edge.mk s t kind] } : FlowGraph }.invalidate

theorem addEdge_ok {s t : BlockId} (hs : f.contains s = true) (ht : f.contains t = true)
    (kind : EdgeKind) : addEdge s t kind f = .ok (!f.graph.hasEdge s t) (f.withEdge s t kind) := by
  have hs' : f.graph.contains s = true := hs
  have ht' : f.graph.contains t = true := ht
  have hadd : Digraph.addEdge s t kind f.graph =
      .ok (!f.graph.hasEdge s t) (f.withEdge s t kind).graph := by
    simp only [Digraph.addEdge, bind_ok, get_ok, guard_ok]
    refine ⟨_, _, ⟨rfl, rfl⟩, (), _, ⟨hs', rfl⟩, (), _, ⟨ht', rfl⟩, ?_⟩
    unfold withEdge
    cases f.graph.hasEdge s t <;> rfl
  simp only [addEdge, bind_ok, ask_ok, checkBlock_ok, within_ok]
  refine ⟨(), f, ⟨hs, rfl⟩, (), f, ⟨ht, rfl⟩, _, _, ⟨_, hadd, rfl⟩, ?_⟩
  unfold withEdge
  cases f.graph.hasEdge s t <;> rfl

theorem addEdge_settles (f : FlowGraph) (s t : BlockId) (kind : EdgeKind) :
    Settles (addEdge s t kind) f fun _ f' =>
      f.contains s = true ∧ f.contains t = true ∧ f' = f.withEdge s t kind := by
  by_cases hs : f.contains s = true
  · by_cases ht : f.contains t = true
    · exact .inr ⟨_, _, addEdge_ok hs ht kind, hs, ht, rfl⟩
    · exact .of_ask fun _ _ => .of_ask fun _ h => absurd (checkBlock_ok.1 h) ht
  · exact .of_ask fun _ h => absurd (checkBlock_ok.1 h) hs

theorem moves_addEdge (s t : BlockId) (kind : EdgeKind) : Moves Evolves (addEdge s t kind) := by
  refine fun f => (addEdge_settles f s t kind).along (Std.Refl.refl f) ?_
  rintro _ _ ⟨hs, ht, rfl⟩
  unfold withEdge
  split
  · exact Std.Refl.refl f
  · refine evolves_withEdges _ fun e he => ?_
    rcases List.mem_append.1 he with he | he
    · exact .inl he
    · rw [List.mem_singleton.1 he]
      exact .inr ⟨hs, ht⟩

theorem moves_removeEdge (s t : BlockId) : Moves Evolves (removeEdge s t) := by
  intro f
  rcases removeEdge_cases f s t with ⟨-, hrun⟩ | ⟨kind, -, hrun⟩ <;> rw [after_of_ok hrun]
  · exact Std.Refl.refl f
  · exact evolves_withEdges _ fun e he => .inl (List.eraseP_sublist.subset he)

section placement

variable {s : Slot} {block : Option BlockId}

/-- A node is moved to another block. A block that lists it is the one that it knows. -/
theorem evolves_move (hshape : f.SameShape f') (hs : f.tree.slot? n = some s)
    (htree : f'.tree = f.tree.put n { s with block })
    (h : f.Coherent → (∀ c, (f'.statements c).Nodup) ∧ ∀ c, ∀ m ∈ f'.statements c,
      (m = n ∧ s.node.isStatement = true ∧ block = some c) ∨ (m ≠ n ∧ m ∈ f.statements c)) :
    f.Evolves f' := by
  refine hshape.evolves fun hf => ?_
  obtain ⟨hnodup, hlisted⟩ := h hf
  refine hf.of_shape hshape (htree ▸ hf.tree.put_block hs block) hnodup (fun c m hm s' hs' => ?_)
    fun c m hm => ?_
  · rw [htree, Tree.slot?_put_of_slot hs] at hs'
    rcases hlisted c m hm with ⟨rfl, hkind, hblock⟩ | ⟨hne, hold⟩
    · rw [if_pos rfl, Option.some.injEq] at hs'
      exact hs' ▸ ⟨hkind, hblock⟩
    · rw [if_neg hne] at hs'
      exact hf.placed c m hold s' hs'
  · rw [htree, Tree.size_put]
    rcases hlisted c m hm with ⟨rfl, -⟩ | ⟨-, hold⟩
    · exact Tree.index_lt_size hs
    · exact hf.inside c m hold

/-- A statement that is placed nowhere is placed in a block. -/
theorem evolves_place (hs : f.tree.slot? n = some s) (hkind : s.node.isStatement = true)
    (hfree : f.tree.blockOf n = .ok none) (b : BlockId) (index : Nat) :
    f.Evolves (f.withMove b (·.insertIdx index n) n { s with block := some b }) := by
  refine evolves_move (sameShape_withMove f b _ n _) hs rfl fun hf => ?_
  have hnew (c : BlockId) : n ∉ f.statements c := fun hmem => by
    simp [hf.blockOf_listed hmem hs] at hfree
  refine ⟨fun c => ?_, fun c m hm => ?_⟩
  · rw [statements_withMove]
    split
    · by_cases hindex : index ≤ (f.statements c).length
      · exact (List.perm_insertIdx n _ hindex).nodup_iff.2 ((hf.nodup c).cons (hnew c))
      · rw [List.insertIdx_of_length_lt (Nat.lt_of_not_le hindex)]
        exact hf.nodup c
    · exact hf.nodup c
  · have hold (hmem : m ∈ f.statements c) : m ≠ n ∧ m ∈ f.statements c :=
      ⟨fun he => hnew c (he ▸ hmem), hmem⟩
    rw [statements_withMove] at hm
    split at hm
    · next hc =>
      rcases List.eq_or_mem_of_mem_insertIdx hm with rfl | hm
      · exact .inl ⟨rfl, hkind, by rw [hc.1]⟩
      · exact .inr (hold hm)
    · exact .inr (hold hm)

/-- A node leaves the block that its root is in. -/
theorem evolves_leave (hs : f.tree.slot? n = some s) (hb : f.contains b = true)
    (hblock : f.tree.blockOf n = .ok (some b)) :
    f.Evolves (f.withMove b (·.filter (· ≠ n)) n { s with block := none }) := by
  refine evolves_move (sameShape_withMove f b _ n _) hs rfl fun hf => ?_
  refine ⟨fun c => ?_, fun c m hm => .inr ?_⟩
  · rw [statements_withMove]
    split
    · exact (hf.nodup c).filter _
    · exact hf.nodup c
  · rw [statements_withMove] at hm
    split at hm
    · simpa [and_comm] using hm
    · next hc =>
      refine ⟨?_, hm⟩
      -- A statement is listed where it is placed, and that is its own block.
      rintro rfl
      rw [hf.blockOf_listed hm hs, Except.ok.injEq, Option.some.injEq] at hblock
      exact hc ⟨hblock, hb⟩

theorem checkPlaceable_ok {u : Unit} (h : f.checkPlaceable n = .ok u) :
    f.tree.isStatement n = true ∧ f.tree.blockOf n = .ok none := by
  unfold checkPlaceable at h
  cases hkind : f.tree.isStatement n with
  | false => simp [hkind, bind, Except.bind, throw, throwThe, MonadExceptOf.throw] at h
  | true =>
    simp only [hkind, Bool.not_true, Bool.false_eq_true, if_false, Except.bind_eq_ok] at h
    obtain ⟨block, hblock, h⟩ := h
    cases block with
    | none => exact ⟨rfl, hblock⟩
    | some b => simp at h

theorem moves_insertStatement (b : BlockId) (index : Nat) (n : NodeId) :
    Moves Evolves (insertStatement b index n) := by
  refine fun f => Moves.of_ask fun _ _ => Moves.of_ask fun _ hcheck =>
    Moves.of_guard (g := fun _ => _) fun _ => ?_
  obtain ⟨hkind, hblock⟩ := checkPlaceable_ok hcheck
  simp only [Tree.isStatement, Option.any_eq_true, Tree.node?_eq_some] at hkind
  obtain ⟨_, ⟨s, hs, rfl⟩, hkind⟩ := hkind
  rw [after_of_ok (move_ok hs b _)]
  exact evolves_place hs hkind hblock b index

theorem moves_prependStatement (b : BlockId) (n : NodeId) : Moves Evolves (prependStatement b n) :=
  Moves.get.bind fun _ => moves_insertStatement b _ n

theorem moves_removeStatement (n : NodeId) : Moves Evolves (removeStatement n) := by
  refine fun f => Moves.of_ask fun found hblock => ?_
  cases found with
  | none => exact Std.Refl.refl f
  | some b =>
    refine Moves.of_ask fun _ hcheck => ?_
    obtain ⟨s, hs⟩ := Tree.slot_of_blockOf hblock
    rw [← bind_assoc, after_bind_pure, after_of_ok (move_ok hs b _)]
    exact evolves_leave hs (checkBlock_ok.1 hcheck) hblock

theorem moves_cleanupNode (n : NodeId) : Moves Evolves (cleanupNode n) := by
  have hclean : Moves Evolves (liftM (Tree.cleanup n) : Edit FlowGraph Unit) :=
    moves_liftTree (Tree.evolves_cleanup n)
  refine Moves.get.bind fun f => Moves.ite ?_ hclean
  refine (Moves.ask _).bind fun block => Moves.ite ?_ hclean
  exact (moves_removeStatement n).bind fun _ => hclean

end placement

section registering

theorem evolves_withHandler (h : Handler) (hentry : f.contains h.entry = true) :
    f.Evolves { f with handlers := f.handlers ++ [h] } := by
  refine ⟨fun hf => { hf with handled := fun handler hmem => ?_ }, fun _ => id⟩
  rcases List.mem_append.1 hmem with hold | hnew
  · exact hf.handled handler hold
  · rwa [List.mem_singleton.1 hnew]

theorem moves_addHandler (protectedBlocks : List BlockId) (entry : BlockId)
    (caught : Option Descriptor) : Moves Evolves (addHandler protectedBlocks entry caught) := by
  refine fun f => Moves.of_ask fun _ hentry => Moves.of_run (Moves.forM (fun _ => .ask _) _)
    fun _ f₁ _ hf₁ => Moves.of_run (Moves.forM (fun b => ?_) _) fun _ f₂ _ hf₂ => ?_
  · exact (moves_addEdge b entry .exception).bind fun _ => .pure _
  · exact evolves_withHandler _ (hf₂.contains _ (hf₁.contains _ (checkBlock_ok.1 hentry)))

theorem moves_addExceptionTable (table : CodeTable ProtectedRange)
    (resolve : UInt16 → Except Fault Descriptor) :
    Moves Evolves (addExceptionTable table resolve) :=
  (Moves.ask _).bind fun _ => Moves.forM (fun _ => (moves_addHandler _ _ _).bind fun _ => .pure _) _

/-- Subroutines may change as long as they keep their numbers and come back to blocks of the
graph. -/
theorem evolves_withSubroutines {subs : List Subroutine}
    (hsubs : ∀ (i : Nat) (sub : Subroutine), subs[i]? = some sub → (f.Coherent → sub.id = ⟨i⟩) ∧
      ∀ p ∈ sub.paths, f.contains p.2 = true ∨ ∃ old ∈ f.subroutines, p ∈ old.paths) :
    f.Evolves { f with subroutines := subs } := by
  refine ⟨fun hf => { hf with
    numbered := fun i sub hsub => (hsubs i sub hsub).1 hf
    returning := fun sub hsub p hp => ?_ }, fun _ => id⟩
  obtain ⟨i, hi⟩ := List.mem_iff_getElem?.1 hsub
  rcases (hsubs i sub hi).2 p hp with hin | ⟨old, hold, hp⟩
  · exact hin
  · exact hf.returning old hold p hp

theorem moves_addSubroutine (entry : BlockId) : Moves Evolves (addSubroutine entry) := by
  refine fun f => Moves.of_ask fun _ _ => ?_
  show f.Evolves ((if _ then _ else _ : Edit FlowGraph SubroutineId).after f)
  split
  · exact Std.Refl.refl f
  · refine evolves_withSubroutines fun i sub hsub => ?_
    rw [List.getElem?_append] at hsub
    split at hsub
    · exact ⟨fun hf => hf.numbered i sub hsub,
        fun p hp => .inr ⟨sub, List.mem_of_getElem? hsub, hp⟩⟩
    · next hi =>
      obtain ⟨hlast, rfl⟩ : i - f.subroutines.length = 0 ∧
          { id := ⟨f.subroutines.length⟩, entry : Subroutine } = sub := by
        simpa [List.getElem?_singleton] using hsub
      have hindex : i = f.subroutines.length := by omega
      exact ⟨fun _ => by rw [hindex], by simp⟩

theorem evolves_modifySubroutine (s : SubroutineId) {g : Subroutine → Subroutine}
    (hid : ∀ sub, (g sub).id = sub.id)
    (hpaths : ∀ sub, ∀ p ∈ (g sub).paths, p ∈ sub.paths ∨ f.contains p.2 = true) :
    f.Evolves ((modifySubroutine s g).after f) := by
  refine evolves_withSubroutines fun i sub hsub => ?_
  rw [List.getElem?_modify, Option.map_eq_map, Option.map_eq_some_iff] at hsub
  obtain ⟨old, hold, hsub⟩ := hsub
  have hmem := List.mem_of_getElem? hold
  split at hsub
  · subst hsub
    exact ⟨fun hf => (hid old).trans (hf.numbered i old hold),
      fun p hp => (hpaths old p hp).symm.imp_right fun hp => ⟨old, hmem, hp⟩⟩
  · obtain rfl : old = sub := hsub
    exact ⟨fun hf => hf.numbered i old hold, fun p hp => .inr ⟨old, hmem, hp⟩⟩

theorem moves_setSubroutineExit (s : SubroutineId) (exit : BlockId) :
    Moves Evolves (setSubroutineExit s exit) := by
  refine (Moves.ask _).bind fun _ => (Moves.ask _).bind fun sub => ?_
  have hset : Moves Evolves (modifySubroutine s fun sub => { sub with exit := some exit }) :=
    fun f => evolves_modifySubroutine s (fun _ => rfl) fun _ _ => .inl
  have hedges : Moves Evolves (sub.returnBlocks.forM fun b => do
      let _ ← addEdge exit b .subroutineReturn) :=
    Moves.forM (fun b => (moves_addEdge _ _ _).bind fun _ => .pure _) _
  cases sub.exit with
  | none => exact hset.bind fun _ => hedges
  | some current => exact Moves.ite (.throw _) (hset.bind fun _ => hedges)

theorem moves_addSubroutineCall (s : SubroutineId) (call ret : BlockId) :
    Moves Evolves (addSubroutineCall s call ret) := by
  refine fun f => Moves.of_ask fun _ _ => Moves.of_ask fun _ hret => ?_
  have hset := evolves_modifySubroutine (f := f) s
    (g := fun sub => { sub with paths := sub.paths ++ [(call, ret)] }) (fun _ => rfl)
    fun sub p hp => by
      rcases List.mem_append.1 hp with hold | hnew
      · exact .inl hold
      · rw [List.mem_singleton.1 hnew]
        exact .inr (checkBlock_ok.1 hret)
  show f.Evolves ((if f.returnTaken s call ret = true then _ else _ : Edit FlowGraph Unit).after f)
  by_cases htaken : f.returnTaken s call ret = true
  · rw [if_pos htaken]
    exact Std.Refl.refl f
  rw [if_neg htaken]
  refine Moves.of_ask fun sub _ => ?_
  by_cases hentry : sub.entry = call
  · simp only [hentry, if_true]
    exact Std.Refl.refl f
  simp only [hentry, if_false]
  by_cases hold : (call, ret) ∈ sub.paths
  · simp only [hold, if_true]
    exact Std.Refl.refl f
  simp only [hold, if_false]
  refine IsTrans.trans _ _ _ hset (Moves.bind (moves_addEdge _ _ _) (fun _ => ?_) _)
  cases sub.exit with
  | none => exact .pure _
  | some exit => exact (moves_addEdge _ _ _).bind fun _ => .pure _

end registering

end FlowGraph

end MethodFlow
