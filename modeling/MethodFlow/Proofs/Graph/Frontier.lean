import MethodFlow.Proofs.Graph.Dominance
import Mathlib.Data.List.TakeWhile

/-!
Values that flow down a dominator tree. Some blocks set a value, and a block sees the one that its
nearest ancestor set. Where the frontier of the setting blocks sets a value itself, this is the
value that comes in along every edge.
-/

namespace MethodFlow

namespace DominatorTree

variable {α : Type}

/-- The value at the end of `b`, where `last` gives the value that a block itself sets. -/
def leaving (t : DominatorTree) (last : BlockId → Option α) (b : BlockId) : Option α :=
  (t.chain b).findSome? last

/-- The value at the start of `b`. -/
def entering (t : DominatorTree) (last : BlockId → Option α) (b : BlockId) : Option α :=
  (t.immediate? b).bind (t.leaving last)

end DominatorTree

namespace Digraph

variable {N E α : Type} {g : Digraph N E}

/-- The frontier of `a` begins at `b`: `a` dominates a predecessor of `b`, but does not strictly
dominate `b`. -/
def InFrontier (g : Digraph N E) (entry a b : BlockId) : Prop :=
  ∃ p, b ∈ g.successors p ∧ g.Dominates entry a p ∧ ¬g.StrictlyDominates entry a b

theorem mem_frontiers_iff {t : DominatorTree} {b m : BlockId} :
    m ∈ (g.frontiers t).getD b.index [] ↔ g.contains b ∧ g.contains m ∧ b ∈ g.runners t m := by
  obtain ⟨i⟩ := b
  by_cases hi : i < g.nodes.size
  · simp [frontiers, nodeIds, contains, hi, List.getD_eq_getElem?_getD, List.mem_filter]
    constructor
    · rintro ⟨j, ⟨hj, rfl⟩, hrun⟩
      exact ⟨hj, hrun⟩
    · rintro ⟨hj, hrun⟩
      exact ⟨m.index, ⟨hj, rfl⟩, hrun⟩
  · simp [frontiers, nodeIds, contains, hi, List.getD_eq_getElem?_getD]

section

variable {entry : BlockId} (closed : g.Closed) (h : g.contains entry)

include closed h

theorem leaving_eq {last : BlockId → Option α} {b : BlockId} (hb : b ∈ g.reversePostorder entry) :
    (g.dominatorTree entry).leaving last b =
      (last b).or ((g.dominatorTree entry).entering last b) := by
  rw [DominatorTree.leaving, chain_eq closed h hb, List.findSome?_cons]
  cases last b with
  | some a => rfl
  | none =>
    rw [DominatorTree.entering]
    cases (g.dominatorTree entry).immediate? b <;> rfl

omit closed h in
theorem entering_entry (last : BlockId → Option α) :
    (g.dominatorTree entry).entering last entry = none := by
  simp [DominatorTree.entering, DominatorTree.immediate?, dominatorTree]

/-- The value at the end of a block was set by one that dominates it. -/
theorem exists_dominates_of_leaving {last : BlockId → Option α} {b : BlockId} {a : α}
    (hb : b ∈ g.reversePostorder entry) (ha : (g.dominatorTree entry).leaving last b = some a) :
    ∃ e, g.Dominates entry e b ∧ last e = some a := by
  obtain ⟨e, he, hlast⟩ := List.exists_of_findSome?_eq_some ha
  exact ⟨e, ⟨(path_iff_mem closed h).2 hb, (mem_chain_iff closed h hb).1 he⟩, hlast⟩

/-- The value at the start of a block was set by one that strictly dominates it. -/
theorem exists_strictlyDominates_of_entering {last : BlockId → Option α} {b : BlockId} {a : α}
    (ha : (g.dominatorTree entry).entering last b = some a) :
    ∃ e, g.StrictlyDominates entry e b ∧ last e = some a := by
  obtain ⟨d, hd, hleaving⟩ := Option.bind_eq_some_iff.1 ha
  have hdr := (immediate?_descends closed h hd).1
  obtain ⟨e, he, hlast⟩ := exists_dominates_of_leaving closed h hdr hleaving
  exact ⟨e, (strictlyDominates_iff_immediate closed h hd e).2 he, hlast⟩

theorem immediate?_mem_chain {p m d : BlockId} (hp : p ∈ g.reversePostorder entry)
    (hm : m ∈ g.successors p) (hd : (g.dominatorTree entry).immediate? m = some d) :
    d ∈ (g.dominatorTree entry).chain p := by
  rw [mem_chain_iff closed h hp]
  intro path hpath
  have hstrict := (immediate?_eq_some_iff_dominance closed h).1 hd |>.2.2.1
  have hmem := hstrict.2.2 _ (hpath.extend hm)
  rcases List.mem_append.1 hmem with hmem | hmem
  · exact hmem
  · exact absurd (List.mem_singleton.1 hmem) hstrict.1

theorem not_mem_below {a d p : BlockId} {below : List BlockId} (hp : p ∈ g.reversePostorder entry)
    (hchain : (g.dominatorTree entry).chain p = below ++ (g.dominatorTree entry).chain d)
    (ha : a ∈ (g.dominatorTree entry).chain d) (hd : d ∈ g.reversePostorder entry) : a ∉ below := by
  obtain ⟨between, hbetween, -⟩ := exists_chain_eq_append closed h _ d hd rfl ha
  obtain ⟨whole, hwhole, hout⟩ := exists_chain_eq_append closed h _ p hp rfl
    (by rw [hchain]; exact List.mem_append_right _ ha)
  rw [hwhole, hbetween, ← List.append_assoc] at hchain
  rw [List.append_cancel_right hchain] at hout
  exact fun hbelow => hout (List.mem_append_left _ hbelow)

/-- The walk from a predecessor of `m` meets the nodes that dominate the predecessor without
strictly dominating `m`. -/
theorem mem_takeWhile_chain {a p m : BlockId} (hp : p ∈ g.reversePostorder entry)
    (hm : m ∈ g.successors p) :
    a ∈ ((g.dominatorTree entry).chain p).takeWhile
        (fun d => some d ≠ (g.dominatorTree entry).immediate? m) ↔
      g.Dominates entry a p ∧ ¬g.StrictlyDominates entry a m := by
  have hdom : g.Dominates entry a p ↔ a ∈ (g.dominatorTree entry).chain p := by
    rw [Dominates, mem_chain_iff closed h hp, and_iff_right ((path_iff_mem closed h).2 hp)]
  have hmr : m ∈ g.reversePostorder entry := (mem_reversePostorder closed h).2
    (successor_mem_preorder closed h ((mem_reversePostorder closed h).1 hp) hm)
  rw [hdom]
  cases hd : (g.dominatorTree entry).immediate? m with
  | none =>
    have hentry : m = entry := by
      by_contra hne
      obtain ⟨d, hd'⟩ := exists_immediate closed h hmr hne
      simp [hd] at hd'
    have hnot : ¬g.StrictlyDominates entry a m := fun hs =>
      hs.1 (List.mem_singleton.1 (hs.2.2 [entry] (hentry ▸ .start)) |>.trans hentry.symm)
    rw [List.takeWhile_eq_self_iff.2 (by simp), and_iff_left hnot]
  | some d =>
    have hdr := (immediate?_descends closed h hd).1
    obtain ⟨below, hchain, hout⟩ := exists_chain_eq_append closed h _ p hp rfl
      (immediate?_mem_chain closed h hp hm hd)
    have hwalk : ((g.dominatorTree entry).chain p).takeWhile (fun c => some c ≠ some d) =
        below := by
      rw [hchain, chain_eq closed h hdr, List.takeWhile_append_of_pos]
      · simp
      · intro c hc
        have hne : c ≠ d := fun he => hout (he ▸ hc)
        simp [hne]
    rw [hwalk, strictlyDominates_iff_immediate closed h hd, Dominates, mem_chain_iff closed h hp,
      ← mem_chain_iff closed h hp, hchain, List.mem_append, ← mem_chain_iff closed h hdr,
      and_iff_right ((path_iff_mem closed h).2 hdr)]
    constructor
    · exact fun hbelow => ⟨.inl hbelow, fun ha => not_mem_below closed h hp hchain ha hdr hbelow⟩
    · rintro ⟨hbelow | ha, hnot⟩
      · exact hbelow
      · exact absurd ha hnot

/-- The computed frontiers are the dominance frontiers. -/
theorem mem_frontiers_iff_inFrontier {a b : BlockId} :
    b ∈ (g.frontiers (g.dominatorTree entry)).getD a.index [] ↔ g.InFrontier entry a b := by
  rw [mem_frontiers_iff, runners]
  constructor
  · rintro ⟨-, -, hrun⟩
    split at hrun
    · obtain ⟨p, hp, hwalk⟩ := List.mem_flatMap.1 hrun
      obtain ⟨hpred, hreach⟩ := List.mem_filter.1 hp
      have hsucc := mem_predecessors_iff.1 hpred
      exact ⟨p, hsucc,
        (mem_takeWhile_chain closed h ((isReachable_iff closed h).1 hreach) hsucc).1 hwalk⟩
    · simp at hrun
  · rintro ⟨p, hsucc, hdom, hnot⟩
    have hp := (path_iff_mem closed h).1 hdom.1
    have hb : b ∈ g.preorder entry :=
      successor_mem_preorder closed h ((mem_reversePostorder closed h).1 hp) hsucc
    have ha := (mem_preorder_iff closed h).2 hdom.path
    refine ⟨contains_of_mem_preorder closed h ha, contains_of_mem_preorder closed h hb, ?_⟩
    rw [if_pos ((isReachable_iff closed h).2 ((mem_reversePostorder closed h).2 hb)),
      List.mem_flatMap]
    exact ⟨p, List.mem_filter.2 ⟨mem_predecessors_iff.2 hsucc, (isReachable_iff closed h).2 hp⟩,
      (mem_takeWhile_chain closed h hp hsucc).2 ⟨hdom, hnot⟩⟩

omit closed h in
/-- Each frontier lists its members oldest first. -/
theorem pairwise_frontiers (t : DominatorTree) (b : BlockId) :
    ((g.frontiers t).getD b.index []).Pairwise fun m m' => m.index < m'.index := by
  have hmet : (g.nodeIds.map fun m => (m, g.runners t m)).Pairwise
      fun met met' => met.1.index < met'.1.index := List.pairwise_map.2 g.pairwise_nodeIds
  rw [frontiers, List.getD_eq_getElem?_getD, List.getElem?_map]
  cases g.nodeIds[b.index]? with
  | none => exact .nil
  | some n =>
    rw [Option.map_some, Option.getD_some, List.pairwise_map]
    exact hmet.filter _

/-- A node that is in the frontier of no block above the source of an edge gets the same value along
the edge as from its immediate dominator. -/
theorem leaving_eq_entering {last : BlockId → Option α} {p m : BlockId}
    (hp : p ∈ g.reversePostorder entry) (hm : m ∈ g.successors p)
    (hclear : ∀ c ∈ g.runners (g.dominatorTree entry) m, last c = none) :
    (g.dominatorTree entry).leaving last p = (g.dominatorTree entry).entering last m := by
  have hmr : m ∈ g.reversePostorder entry := (mem_reversePostorder closed h).2
    (successor_mem_preorder closed h ((mem_reversePostorder closed h).1 hp) hm)
  have hwalk : ∀ c ∈ ((g.dominatorTree entry).chain p).takeWhile
      (fun d => some d ≠ (g.dominatorTree entry).immediate? m), last c = none := by
    intro c hc
    apply hclear
    rw [runners, if_pos ((isReachable_iff closed h).2 hmr), List.mem_flatMap]
    exact ⟨p, List.mem_filter.2 ⟨mem_predecessors_iff.2 hm, (isReachable_iff closed h).2 hp⟩, hc⟩
  rw [DominatorTree.leaving, DominatorTree.entering]
  cases hd : (g.dominatorTree entry).immediate? m with
  | none =>
    rw [Option.bind_none, List.findSome?_eq_none_iff]
    intro c hc
    apply hwalk
    rw [List.takeWhile_eq_self_iff.2 (by simp [hd])]
    exact hc
  | some d =>
    obtain ⟨below, he, hout⟩ := exists_chain_eq_append closed h _ p hp rfl
      (immediate?_mem_chain closed h hp hm hd)
    have hbelow : below.findSome? last = none := by
      rw [List.findSome?_eq_none_iff]
      intro c hc
      apply hwalk
      rw [he, List.takeWhile_append_of_pos]
      · exact List.mem_append_left _ hc
      · intro x hx
        have hne : x ≠ d := fun hxd => hout (hxd ▸ hx)
        simp [hd, hne]
    rw [he, List.findSome?_append, hbelow, Option.none_or]
    rfl

end

/-- Frontiers that say of the nodes of a graph what the paths from the entry say. A node that no
path leads to has none and is in none. -/
structure DescribesFrontiers (g : Digraph N E) (entry : BlockId) (frontiers : List (List BlockId)) :
    Prop where
  length : frontiers.length = g.nodeCount
  ordered : ∀ a : BlockId, (frontiers.getD a.index []).Pairwise fun b c => b.index < c.index
  nodup : ∀ a : BlockId, (frontiers.getD a.index []).Nodup
  members : ∀ a b : BlockId, b ∈ frontiers.getD a.index [] ↔
    g.Path entry b ∧ (∃ p ∈ g.predecessors b, g.Path entry p ∧ g.Dominates entry a p) ∧
      ¬g.StrictlyDominates entry a b
  unreachable : ∀ b : BlockId, ¬g.Path entry b →
    frontiers.getD b.index [] = [] ∧ ∀ a : BlockId, b ∉ frontiers.getD a.index []

/-- The computed frontiers are those that dominance gives. -/
theorem frontiers_describeFrontiers {entry : BlockId} (closed : g.Closed) (h : g.contains entry) :
    g.DescribesFrontiers entry (g.frontiers (g.dominatorTree entry)) := by
  have members (a b : BlockId) : b ∈ (g.frontiers (g.dominatorTree entry)).getD a.index [] ↔
      g.Path entry b ∧ (∃ p ∈ g.predecessors b, g.Path entry p ∧ g.Dominates entry a p) ∧
        ¬g.StrictlyDominates entry a b := by
    rw [mem_frontiers_iff_inFrontier closed h]
    constructor
    · rintro ⟨p, hp, hdom, hnot⟩
      exact ⟨hdom.1.step hp, ⟨p, mem_predecessors_iff.2 hp, hdom.1, hdom⟩, hnot⟩
    · rintro ⟨-, ⟨p, hp, -, hdom⟩, hnot⟩
      exact ⟨p, mem_predecessors_iff.1 hp, hdom, hnot⟩
  exact {
    length := by simp [frontiers, nodeIds, nodeCount]
    ordered := pairwise_frontiers _
    nodup := fun a => (pairwise_frontiers _ a).imp fun hlt he => absurd (he ▸ hlt) (Nat.lt_irrefl _)
    members := members
    unreachable := fun b hb => by
      refine ⟨List.eq_nil_iff_forall_not_mem.2 fun m hm => ?_,
        fun a ha => hb ((members a b).1 ha).1⟩
      obtain ⟨-, ⟨p, -, -, hdom⟩, -⟩ := (members b m).1 hm
      exact hb hdom.path }

/-- An entry that loops to itself and is the end of another loop, and a node that no path leads
to. -/
def returning : Digraph Unit Unit :=
  ⟨#[(), (), (), ()],
    [⟨⟨0⟩, ⟨0⟩, ()⟩, ⟨⟨0⟩, ⟨1⟩, ()⟩, ⟨⟨1⟩, ⟨2⟩, ()⟩, ⟨⟨2⟩, ⟨0⟩, ()⟩, ⟨⟨3⟩, ⟨2⟩, ()⟩]⟩

theorem returning_describesFrontiers : returning.Closed ∧ returning.contains ⟨0⟩ = true ∧
    returning.DescribesFrontiers ⟨0⟩ [[⟨0⟩], [⟨0⟩], [⟨0⟩], []] := by
  have closed : returning.Closed := by simp [Closed, returning, contains]
  have hfrontiers : returning.frontiers (returning.dominatorTree ⟨0⟩) =
      [[⟨0⟩], [⟨0⟩], [⟨0⟩], []] := by decide +kernel
  exact ⟨closed, rfl, hfrontiers ▸ frontiers_describeFrontiers closed rfl⟩

end Digraph

end MethodFlow
