import MethodFlow.Proofs.Ssa.Requests

/-!
Where statements are. A statement knows its block and a block lists its statements, and whatever is
done to the graph or to its tree, the two agree. A statement that cannot be placed is refused before
anything is written.
-/

namespace MethodFlow

open Edit

namespace Tree

variable {t : Tree} {n : NodeId} {s s' : Slot}

/-- What is in a block was in it before. -/
def KeepsBlocks (t t' : Tree) : Prop :=
  ∀ n s', t'.slot? n = some s' → ∀ b, s'.block = some b → ∃ s, t.slot? n = some s ∧ s.block = some b

namespace KeepsBlocks

instance : IsPreorder Tree KeepsBlocks where
  refl _ _ s hs _ hb := ⟨s, hs, hb⟩
  trans _ _ _ h h' n _ hs b hb := by
    obtain ⟨s', hs', hb'⟩ := h' n _ hs b hb
    exact h n s' hs' b hb'

theorem of_put (hs : t.slot? n = some s) (hblock : s'.block = s.block) :
    t.KeepsBlocks (t.put n s') :=
  fun m sm hm b hb => by
    rcases slot?_put_cases hs hm with ⟨rfl, rfl⟩ | ⟨-, hm⟩
    · exact ⟨s, hs, hblock.symm.trans hb⟩
    · exact ⟨sm, hm, hb⟩

theorem moves_modifySlot (n : NodeId) {f : Slot → Slot} (hf : ∀ s, (f s).block = s.block) :
    Moves KeepsBlocks (modifySlot n f) := moves_modifySlot_of_put fun _ s hs => of_put hs (hf s)

theorem moves_modifyOccurrence (n : NodeId) (f : Occurrence → Occurrence) :
    Moves KeepsBlocks (modifyOccurrence n f) :=
  moves_modifyOccurrence_of_put fun _ _ _ hs _ => of_put hs rfl

/-- New nodes are in no block, and no operation on trees moves the others. -/
theorem primitive : Primitive KeepsBlocks := by
  refine .of_writes (fun t node m s hs b hb => ?_) (fun t n s s' hs hblock _ => of_put hs hblock)
    fun t t' h m s hs b hb => ⟨s, ?_, hb⟩
  · rw [slot?_push] at hs
    split at hs
    · obtain rfl := Option.some.inj hs
      simp at hb
    · exact ⟨s, hs, hb⟩
  · rcases h.2 m with hsame | hgone
    · exact hsame ▸ hs
    · simp [hgone] at hs

theorem moves_setLink (n : NodeId) (d : Option NodeId) : Moves KeepsBlocks (setLink n d) :=
  Primitive.moves_setLink (fun n _ => moves_modifyOccurrence n _) n d

/-- Nothing that is asked of a tree places a statement. -/
theorem moves_run (r : TreeRequest) : Moves KeepsBlocks r.run :=
  primitive.moves_run r (fun n d _ => moves_setLink n d) fun old new _ =>
    primitive.moves_replace (fun n => moves_modifyOccurrence n _)
      (fun p _ _ => moves_modifySlot p fun _ => rfl) old new

end KeepsBlocks

end Tree

namespace FlowGraph

variable {f f' : FlowGraph} {b : BlockId} {n : NodeId} {s : Slot} {block : Option BlockId}

/-- Whatever knows a block is listed by it. -/
def Registered (f : FlowGraph) : Prop :=
  ∀ n s, f.tree.slot? n = some s → ∀ b, s.block = some b → n ∈ f.statements b

def KeepsRegistered (f f' : FlowGraph) : Prop := f.Registered → f'.Registered

namespace KeepsRegistered

instance : IsPreorder FlowGraph KeepsRegistered where
  refl _ := id
  trans _ _ _ h h' := h' ∘ h

theorem of_keepsBlocks (htree : f.tree.KeepsBlocks f'.tree)
    (hlists : f'.statements = f.statements) :
    f.KeepsRegistered f' := fun hf n s' hs' b hb => by
  obtain ⟨s, hs, hb⟩ := htree n s' hs' b hb
  exact hlists ▸ hf n s hs b hb

/-- A node moves to a block that lists it, and the others are listed as before. -/
theorem of_move {change : List NodeId → List NodeId} (hs : f.tree.slot? n = some s)
    (hkept : ∀ c, ∀ m ∈ f.statements c, m ≠ n →
      m ∈ (f.withMove b change n { s with block }).statements c)
    (hnew : ∀ c, block = some c → n ∈ (f.withMove b change n { s with block }).statements c) :
    f.KeepsRegistered (f.withMove b change n { s with block }) := fun hf m sm hm c hc => by
  rcases Tree.slot?_put_cases hs hm with ⟨rfl, rfl⟩ | ⟨hne, hold⟩
  · exact hnew c hc
  · exact hkept c m (hf m sm hold c hc) hne

theorem moves_insertStatement (b : BlockId) (index : Nat) (n : NodeId) :
    Moves KeepsRegistered (insertStatement b index n) := by
  refine fun f => Moves.of_ask fun _ hb => Moves.of_ask fun _ hcheck =>
    Moves.of_guard (g := fun _ => _) fun hindex => ?_
  obtain ⟨-, hblock⟩ := checkPlaceable_ok hcheck
  obtain ⟨s, hs⟩ := Tree.slot_of_blockOf hblock
  replace hindex : index ≤ (f.statements b).length := of_decide_eq_true hindex
  rw [after_of_ok (move_ok hs b _)]
  refine of_move hs (fun c m hm _ => ?_) ?_
  · rw [statements_withMove]
    split
    · next hc => exact (List.mem_insertIdx (hc.1 ▸ hindex)).2 (.inr hm)
    · exact hm
  · rintro _ ⟨⟩
    rw [statements_withMove, if_pos ⟨rfl, checkBlock_ok.1 hb⟩]
    exact (List.mem_insertIdx hindex).2 (.inl rfl)

theorem moves_removeStatement (n : NodeId) : Moves KeepsRegistered (removeStatement n) := by
  refine fun f => Moves.of_ask fun found hblock => ?_
  cases found with
  | none => exact Std.Refl.refl f
  | some b =>
    refine Moves.of_ask fun _ _ => ?_
    obtain ⟨s, hs⟩ := Tree.slot_of_blockOf hblock
    rw [← bind_assoc, after_bind_pure, after_of_ok (move_ok hs b _)]
    refine of_move hs (fun c m hm hne => ?_) (by simp)
    rw [statements_withMove]
    split
    · exact List.mem_filter.2 ⟨hm, decide_eq_true hne⟩
    · exact hm

/-- Whatever is asked of a graph, what knows a block stays listed by it. -/
theorem asking : Asking (fun _ => True) Tree.KeepsBlocks KeepsRegistered :=
  .of_primitive Tree.KeepsBlocks.primitive (fun r _ => Tree.KeepsBlocks.moves_run r)
    (fun _ => Tree.KeepsBlocks.moves_setLink) (fun _ _ h => of_keepsBlocks h rfl)
    (fun _ hr _ g => by
      have hlists := FlowRequest.sameLists_run hr g
      exact of_keepsBlocks (hlists.1 ▸ Std.Refl.refl _) hlists.2)
    moves_insertStatement moves_removeStatement

end KeepsRegistered

/-- In a graph that has been made, whatever knows a block is listed by it. -/
theorem Made.registered (h : f.Made) : f.Registered := by
  obtain ⟨label, rs, rfl⟩ := h
  refine KeepsRegistered.asking.requests_along _ (fun _ _ => trivial) fun n s hs => ?_
  simp [ofLabel, Tree.empty, Tree.slot?] at hs

theorem insertStatement_refuses (f : FlowGraph) (b : BlockId) (index : Nat) (n : NodeId) :
    Refuses (insertStatement b index n) f := by
  refine .of_ask fun _ _ => .of_ask fun _ hcheck => .of_get (.of_guard fun _ => ?_)
  obtain ⟨s, hs⟩ := Tree.slot_of_blockOf (checkPlaceable_ok hcheck).2
  exact (succeeds_of_ok (move_ok hs b _)).refuses

/-- A statement of a graph that has been made is in a block exactly if the block lists it, which is
then the only one that does and does so once. A statement that is not placed leaves everything as it
was. -/
theorem Made.statements_agree (h : f.Made) :
    (∀ n node, f.tree.statement n = .ok node →
      (∀ b, f.tree.blockOf n = .ok (some b) ↔ n ∈ f.statements b) ∧
      (f.tree.blockOf n = .ok none ↔ ∀ b, n ∉ f.statements b) ∧
      ∀ b, n ∈ f.statements b →
        (f.statements b).count n = 1 ∧ ∀ c, n ∈ f.statements c → c = b) ∧
    ∀ b n, (∀ index, Refuses (insertStatement b index n) f) ∧
      Refuses (appendStatement b n) f ∧ Refuses (prependStatement b n) f := by
  have hf := h.coherent
  refine ⟨fun n node hnode => ?_, fun b n => ⟨fun index => insertStatement_refuses f b index n,
    .of_get (insertStatement_refuses f b _ n), .of_get (insertStatement_refuses f b _ n)⟩⟩
  obtain ⟨hn, hkind⟩ := Tree.statement_ok.1 hnode
  obtain ⟨s, hs, rfl⟩ := Tree.node?_eq_some.1 hn
  -- A statement is a root, so its block is the one in its own slot.
  have hblock : f.tree.blockOf n = .ok s.block := Tree.blockOf_root hs (hf.tree.root n s hs hkind)
  have hiff (b : BlockId) : s.block = some b ↔ n ∈ f.statements b :=
    ⟨h.registered n s hs b, fun hmem => (hf.placed b n hmem s hs).2⟩
  refine ⟨fun b => ?_, ?_, fun b hmem =>
    ⟨List.count_eq_one_of_mem (hf.nodup b) hmem, fun c hc => ?_⟩⟩
  · rw [hblock, Except.ok.injEq, hiff]
  · rw [hblock, Except.ok.injEq, Option.eq_none_iff_forall_ne_some]
    exact forall_congr' fun b => not_congr (hiff b)
  · exact Option.some.inj (((hiff c).2 hc).symm.trans ((hiff b).2 hmem))

/-- A store in a block, and a copy of it that is in none. -/
def copied : FlowGraph := (ofLabel 0).requests
  [.addBlock 1, .tree (.newVariable (.ofLocal 0) .int), .tree (.newLiteral (.int 1)),
    .tree (.newStore ⟨0⟩ ⟨1⟩), .appendStatement ⟨1⟩ ⟨2⟩, .tree (.cloneSubtree ⟨2⟩)]

theorem copied_statements_agree : copied.Made ∧
    copied.tree.statement ⟨2⟩ = .ok (.store ⟨0⟩ ⟨1⟩) ∧
    copied.tree.statement ⟨5⟩ = .ok (.store ⟨3⟩ ⟨4⟩) ∧
    (copied.statements ⟨1⟩).count ⟨2⟩ = 1 ∧ (∀ c, ⟨2⟩ ∈ copied.statements c → c = ⟨1⟩) ∧
    (∀ b, ⟨5⟩ ∉ copied.statements b) ∧ ∃ e, appendStatement ⟨0⟩ ⟨2⟩ copied = .error e copied := by
  have made : copied.Made := ⟨0, _, rfl⟩
  have hstore : copied.tree.statement ⟨2⟩ = .ok (.store ⟨0⟩ ⟨1⟩) := by decide +kernel
  have hcopy : copied.tree.statement ⟨5⟩ = .ok (.store ⟨3⟩ ⟨4⟩) := by decide +kernel
  obtain ⟨hagree, hrefuses⟩ := made.statements_agree
  obtain ⟨hin, -, honce⟩ := hagree ⟨2⟩ _ hstore
  have hmem : ⟨2⟩ ∈ copied.statements ⟨1⟩ := (hin ⟨1⟩).1 (by decide +kernel)
  obtain ⟨s', hrun⟩ := outcome_error.1 (show (appendStatement ⟨0⟩ ⟨2⟩).outcome copied =
    .error (.violation (.alreadyPlaced ⟨2⟩ ⟨1⟩)) by decide +kernel)
  exact ⟨made, hstore, hcopy, (honce ⟨1⟩ hmem).1, (honce ⟨1⟩ hmem).2,
    (hagree ⟨5⟩ _ hcopy).2.1.1 (by decide +kernel), _,
    (hrefuses ⟨0⟩ ⟨2⟩).2.1 _ s' hrun ▸ hrun⟩

end FlowGraph

end MethodFlow
