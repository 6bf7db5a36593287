import MethodFlow.Proofs.Flow.Subroutines
import MethodFlow.Proofs.Graph.SearchTree

/-!
The preorder of a graph as a numbering of its blocks. The blocks that a search from the entry finds
have the first numbers, in the order in which the search discovers them, and the others follow in
the order of their age. Every number below the count of the blocks belongs to one block, and every
block of the graph has one.
-/

namespace MethodFlow

theorem Precedes.exists_lt {α : Type} {x y : α} {l : List α} (h : Precedes x y l) :
    ∃ i j : Nat, i < j ∧ l[i]? = some x ∧ l[j]? = some y := by
  obtain ⟨front, back, rfl, hx, hy⟩ := h
  obtain ⟨i, hi, hxi⟩ := List.getElem_of_mem hx
  obtain ⟨j, hj, hyj⟩ := List.getElem_of_mem hy
  exact ⟨i, front.length + j, by omega, by simp [List.getElem?_append_left hi, hi, hxi],
    by simp [hj, hyj]⟩

/-- Each node that is found stands in the list, or it comes after a node that has an edge to it. -/
theorem Grows.mem_or_follows {successors : BlockId → List BlockId}
    {seen bs : List BlockId} {t : Forest}
    {v : BlockId} (h : Grows successors seen bs t) (hv : v ∈ t.preorder) :
    v ∈ bs ∨ ∃ u, v ∈ successors u ∧ Precedes u v t.preorder := by
  induction h with
  | done => exact absurd hv List.not_mem_nil
  | old _ _ ih => exact (ih hv).imp_left (List.mem_cons_of_mem _)
  | @new seen rest b below beside _ _ _ ihBelow ihBeside =>
    rcases List.mem_append.1 hv with hv | hv
    · rcases List.mem_cons.1 hv with rfl | hv
      · exact .inl List.mem_cons_self
      · rcases ihBelow hv with hedge | ⟨u, hedge, hfirst⟩
        · exact .inr ⟨b, hedge, [b], below.preorder ++ beside.preorder, rfl, by simp, by simp [hv]⟩
        · exact .inr ⟨u, hedge, (hfirst.append_left [b]).append_right _⟩
    · rcases ihBeside hv with hrest | ⟨u, hedge, hfirst⟩
      · exact .inl (List.mem_cons_of_mem _ hrest)
      · exact .inr ⟨u, hedge, hfirst.append_left _⟩

namespace Positions

variable {p : Positions} {b c : BlockId} {bs : List BlockId} {count : Nat}

/-- The table has a place for each of `count` blocks and tells where in the order a block stands. -/
structure Inverse (p : Positions) (count : Nat) : Prop where
  size : p.table.size = count
  position : ∀ b i, p.position? b = some i ↔ p.order[i]? = some b

theorem inverse_replicate (count : Nat) :
    Inverse { table := Array.replicate count none } count := by
  refine ⟨Array.size_replicate, fun b i => ?_⟩
  rw [position?, Array.getElem?_replicate]
  split <;> simp

namespace Inverse

theorem isSome_iff (h : p.Inverse count) : (p.position? b).isSome = true ↔ b ∈ p.order := by
  rw [Option.isSome_iff_exists, List.mem_iff_getElem?]
  exact exists_congr fun i => h.position b i

theorem append (h : p.Inverse count) (hb : b.index < count) (hnew : b ∉ p.order) :
    (p.append b).Inverse count := by
  refine ⟨(Array.size_setIfInBounds ..).trans h.size, fun c i => ?_⟩
  have hcell : (p.append b).position? c = if c = b then some p.order.length else p.position? c := by
    obtain ⟨k⟩ := b
    obtain ⟨l⟩ := c
    have hk : k < p.table.size := h.size ▸ hb
    simp only [position?, Positions.append, Array.getElem?_setIfInBounds, BlockId.mk.injEq]
    by_cases hkl : k = l
    · subst hkl
      simp [hk]
    · simp [hkl, Ne.symm hkl]
  rw [hcell, Positions.append, List.getElem?_append]
  by_cases hcb : c = b
  · subst hcb
    have hno (j : Nat) : p.order[j]? ≠ some c := fun hj => hnew (List.mem_of_getElem? hj)
    rw [if_pos rfl, Option.some.injEq]
    split
    · next hi => exact iff_of_false (by omega) (hno i)
    · next hi => simp [List.getElem?_singleton]; omega
  · rw [if_neg hcb, h.position]
    split
    · exact Iff.rfl
    · next hi =>
      have hpast : p.order[i]? = none := List.getElem?_eq_none (by omega)
      simp [hpast, List.getElem?_singleton, Ne.symm hcb]

theorem foldl_append (h : p.Inverse count) (hbs : ∀ b ∈ bs, b.index < count)
    (nodup : (p.order ++ bs).Nodup) :
    (bs.foldl .append p).Inverse count ∧ (bs.foldl .append p).order = p.order ++ bs := by
  induction bs generalizing p with
  | nil => exact ⟨h, (List.append_nil _).symm⟩
  | cons b rest ih =>
    have hnew : b ∉ p.order :=
      fun hb => (List.nodup_append.1 nodup).2.2 b hb b List.mem_cons_self rfl
    have hsplit : p.order ++ b :: rest = (p.append b).order ++ rest := by simp [Positions.append]
    rw [List.foldl_cons, hsplit]
    exact ih (h.append (hbs b List.mem_cons_self) hnew)
      (fun c hc => hbs c (List.mem_cons_of_mem _ hc))
      (hsplit ▸ nodup)

theorem foldl_appendMissing (h : p.Inverse count) (hbs : ∀ b ∈ bs, b.index < count)
    (nodup : bs.Nodup) :
    (bs.foldl .appendMissing p).Inverse count ∧
      (bs.foldl .appendMissing p).order = p.order ++ bs.filter (· ∉ p.order) := by
  induction bs generalizing p with
  | nil => exact ⟨h, (List.append_nil _).symm⟩
  | cons b rest ih =>
    obtain ⟨hrest, nodup⟩ := List.nodup_cons.1 nodup
    replace hbs := List.forall_mem_cons.1 hbs
    rw [List.foldl_cons, appendMissing]
    by_cases hb : b ∈ p.order
    · rw [if_pos (h.isSome_iff.2 hb), List.filter_cons_of_neg (by simpa using hb)]
      exact ih h hbs.2 nodup
    · rw [if_neg (mt h.isSome_iff.1 hb), List.filter_cons_of_pos (by simpa using hb)]
      obtain ⟨hinverse, horder⟩ := ih (h.append hbs.1 hb) hbs.2 nodup
      refine ⟨hinverse, horder.trans ?_⟩
      have hfilter : rest.filter (· ∉ (p.append b).order) = rest.filter (· ∉ p.order) := by
        refine List.filter_congr fun c hc => ?_
        have hcb : c ≠ b := fun he => hrest (he ▸ hc)
        simp [Positions.append, hcb]
      rw [hfilter, Positions.append, List.append_assoc, List.singleton_append]

end Inverse

end Positions

namespace FlowGraph

open Edit

variable {f : FlowGraph} {b : BlockId} {i : Nat}

section framed

variable (hf : f.Framed)

include hf

theorem preorder_perm_blocks : f.preorder.Perm f.blocks := by
  refine (List.perm_ext_iff_of_nodup (nodup_preorder hf.closed hf.entry) f.graph.nodup_nodeIds).2
    fun b => ?_
  exact (mem_preorder hf.closed hf.entry).trans Digraph.mem_nodeIds.symm

theorem length_preorder : f.preorder.length = f.blockCount := by
  rw [(preorder_perm_blocks hf).length_eq]
  simp [blocks, Digraph.nodeIds, blockCount, Digraph.nodeCount]

/-- The two passes over the table give the preorder and the position of each block in it. -/
theorem positions_inverse : f.positions.Inverse f.blockCount ∧ f.positions.order = f.preorder := by
  have hinside {b : BlockId} (hb : f.contains b = true) : b.index < f.blockCount :=
    of_decide_eq_true hb
  obtain ⟨hreached, horder⟩ := (Positions.inverse_replicate f.blockCount).foldl_append
    (fun b hb => hinside (Digraph.contains_of_mem_preorder hf.closed hf.entry hb))
    (by simpa using Digraph.nodup_preorder hf.closed hf.entry)
  rw [List.nil_append] at horder
  obtain ⟨hall, hwhole⟩ := hreached.foldl_appendMissing
    (fun b (hb : b ∈ f.blocks) => hinside (Digraph.mem_nodeIds.1 hb)) f.graph.nodup_nodeIds
  exact ⟨hall, by rw [positions, hwhole, horder, preorder]⟩

/-- A search from the entry grows a tree, and the preorder of the tree comes first. -/
theorem exists_searchTree : ∃ t, MethodFlow.Grows f.succs [] [entry] t ∧
    f.graph.preorder entry = t.preorder := by
  obtain ⟨t, hgrows, hdiscovered, -⟩ := (Digraph.explores_start hf.closed hf.entry).exists_grows
  exact ⟨t, hgrows, (Digraph.preorder_eq hf.closed hf.entry).trans hdiscovered⟩

/-- A block that the entry reaches, other than the entry, comes after one of its predecessors. -/
theorem exists_earlier_pred (hpath : f.graph.Path entry b) (hne : b ≠ entry) :
    ∃ p ∈ f.preds b, Precedes p b f.preorder := by
  obtain ⟨t, hgrows, horder⟩ := exists_searchTree hf
  have hb := (Digraph.mem_preorder_iff hf.closed hf.entry).2 hpath
  rcases hgrows.mem_or_follows (horder ▸ hb) with hentry | ⟨p, hedge, hfirst⟩
  · exact absurd (List.mem_singleton.1 hentry) hne
  · exact ⟨p, Digraph.mem_predecessors_iff.2 hedge, (horder ▸ hfirst).append_right _⟩

theorem idxOf?_preorder : f.preorder.idxOf? b = some i ↔ f.preorder[i]? = some b := by
  rw [List.idxOf?_eq_some_iff, List.getElem?_eq_some_iff]
  refine exists_congr fun hi => ⟨And.left, fun he => ⟨he, fun j hj hje => ?_⟩⟩
  have := (nodup_preorder hf.closed hf.entry).getElem_inj_iff.1 (hje.trans he.symm)
  omega

theorem preorderIndex_ok : f.preorderIndex b = .ok i ↔ f.preorder[i]? = some b := by
  rw [← idxOf?_preorder hf]
  simp only [preorderIndex, Except.bind_eq_ok, checkBlock_ok, exists_const]
  constructor
  · rintro ⟨-, h⟩
    cases hposition : f.preorder.idxOf? b with
    | none => simp [hposition] at h
    | some j => simpa [hposition] using h
  · intro h
    have hmem : b ∈ f.preorder := List.isSome_idxOf?.1 (by rw [h]; rfl)
    exact ⟨(mem_preorder hf.closed hf.entry).1 hmem, by rw [h]; rfl⟩

/-- Only a block that is not of the graph has no position. -/
theorem preorderIndex_error {e : Fault} :
    f.preorderIndex b = .error e ↔ e = .foreignBlock b ∧ f.contains b = false := by
  cases hb : f.contains b with
  | false => simp [preorderIndex, checkBlock, hb, bind, Except.bind, eq_comm]
  | true =>
    obtain ⟨i, hi⟩ := List.getElem?_of_mem ((mem_preorder hf.closed hf.entry).2 hb)
    simp [(preorderIndex_ok hf).2 hi]

end framed

theorem outcome_recallIndex (h : f.Faithful) (b : BlockId) :
    (recallIndex b).outcome f = f.preorderIndex b := by
  obtain ⟨_, f', hrun, rfl, -⟩ := recallPreorder_yields h
  cases hb : f.checkBlock b with
  | error e =>
    have hindex : f.preorderIndex b = .error e := by rw [preorderIndex, hb]; rfl
    rw [hindex]
    exact outcome_error.2 ⟨f, bind_error.2 (.inl (ask_error.2 ⟨hb, rfl⟩))⟩
  | ok u =>
    cases hi : f.preorder.idxOf? b with
    | none =>
      have hindex : f.preorderIndex b = .error (.foreignBlock b) := by
        rw [preorderIndex, hb, hi]; rfl
      rw [hindex, outcome_error]
      exact ⟨f', bind_error.2 (.inr ⟨u, f, ask_ok.2 ⟨hb, rfl⟩,
        bind_error.2 (.inr ⟨_, f', hrun, by rw [hi]; rfl⟩)⟩)⟩
    | some i =>
      have hindex : f.preorderIndex b = .ok i := by rw [preorderIndex, hb, hi]; rfl
      rw [hindex, outcome_ok]
      exact ⟨f', bind_ok.2 ⟨u, f, ask_ok.2 ⟨hb, rfl⟩, bind_ok.2 ⟨_, f', hrun, by rw [hi]; rfl⟩⟩⟩

/-- A search from the entry finds the blocks of `t`, which come first, and then come those that no
path leads to, the oldest first. -/
structure SearchedFirst (f : FlowGraph) (t : Forest) (others : List BlockId) : Prop where
  grows : MethodFlow.Grows f.succs [] [FlowGraph.entry] t
  order : f.preorder = t.preorder ++ others
  reached : ∀ b, b ∈ t.preorder ↔ f.graph.Path FlowGraph.entry b
  unreached : ∀ b, b ∈ others ↔ f.contains b = true ∧ ¬f.graph.Path FlowGraph.entry b
  aged : others.Pairwise fun b c => b.index < c.index

theorem exists_searchedFirst (hf : f.Framed) : ∃ t others, f.SearchedFirst t others := by
  obtain ⟨t, hgrows, horder⟩ := exists_searchTree hf
  have hreached (b : BlockId) : b ∈ t.preorder ↔ f.graph.Path entry b :=
    horder ▸ Digraph.mem_preorder_iff hf.closed hf.entry
  exact ⟨t, f.blocks.filter (· ∉ f.graph.preorder entry), {
    grows := hgrows
    order := by rw [preorder, horder]
    reached := hreached
    unreached := fun b => by simp [blocks, Digraph.mem_nodeIds, horder, hreached, contains]
    aged := f.graph.pairwise_nodeIds.filter _ }⟩

/-- In every graph that requests lead to, the preorder lists every block once, first those that the
entry reaches, as a depth-first search discovers them, then the others by age. A block is asked for
its number, and the numbers undo the order: they are those below the count of the blocks, and only a
block that is not of the graph has none. A block that the entry reaches has a predecessor with a
smaller number, unless it is the entry. Order and numbers are those that two passes over a table
write into it. -/
theorem preorder_numbers (label : UInt32) (requests : List FlowRequest) :
    let f := (ofLabel label).requests requests
    recallPreorder.outcome f = .ok f.preorder ∧ f.preorder.Perm f.blocks ∧
      (∃ t others, f.SearchedFirst t others) ∧
      (∀ b i, (recallIndex b).outcome f = .ok i ↔ f.preorder[i]? = some b) ∧
      (∀ i, (∃ b, (recallIndex b).outcome f = .ok i) ↔ i < f.blockCount) ∧
      (∀ b e, (recallIndex b).outcome f = .error e ↔ e = .foreignBlock b ∧ f.contains b = false) ∧
      (∀ b, f.graph.Path entry b → b ≠ entry → ∃ p ∈ f.preds b, ∃ i j,
        (recallIndex p).outcome f = .ok i ∧ (recallIndex b).outcome f = .ok j ∧ i < j) ∧
      f.positions.order = f.preorder ∧ ∀ b i, f.positions.position? b = some i ↔
        f.preorder[i]? = some b := by
  intro f
  have hmade : f.Made := ⟨label, requests, rfl⟩
  have hf := hmade.coherent.toFramed
  have hindex (b : BlockId) : (recallIndex b).outcome f = f.preorderIndex b :=
    outcome_recallIndex hmade.routed.2 b
  obtain ⟨hinverse, horder⟩ := positions_inverse hf
  simp only [hindex, preorderIndex_ok hf, preorderIndex_error hf]
  refine ⟨?_, preorder_perm_blocks hf, exists_searchedFirst hf, fun _ _ => trivial, fun i => ?_,
    fun _ _ => trivial, fun b hpath hne => ?_, horder, horder ▸ hinverse.position⟩
  · obtain ⟨_, f', hrun, rfl, -⟩ := recallPreorder_yields hmade.routed.2
    exact outcome_ok.2 ⟨f', hrun⟩
  · rw [← length_preorder hf]
    exact ⟨fun ⟨_, hb⟩ => (List.getElem?_eq_some_iff.1 hb).1,
      fun hi => ⟨_, List.getElem?_eq_getElem hi⟩⟩
  · obtain ⟨p, hp, hfirst⟩ := exists_earlier_pred hf hpath hne
    obtain ⟨i, j, hij, hi, hj⟩ := hfirst.exists_lt
    exact ⟨p, hp, i, j, hi, hj, hij⟩

/-- The search turns to the block that the older edge leads to, and the block that no edge leads to
is last. -/
example :
    let f := (ofLabel 0).requests [.addBlock 1, .addBlock 2, .addBlock 3,
      .addEdge ⟨0⟩ ⟨3⟩ .normal, .addEdge ⟨0⟩ ⟨1⟩ .normal]
    f.preorder = [⟨0⟩, ⟨3⟩, ⟨1⟩, ⟨2⟩] ∧ f.positions.order = f.preorder := by decide

end FlowGraph

end MethodFlow
