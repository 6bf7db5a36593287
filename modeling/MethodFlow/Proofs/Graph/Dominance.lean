import MethodFlow.Proofs.Graph.Refinement
import MethodFlow.Proofs.Graph.Search

/-!
Dominance by paths. A node dominates another if it lies on every path from the entry to it, and the
tree that rounds of refinement end with is the tree of this relation.
-/

namespace MethodFlow.Digraph

variable {N E : Type} {g : Digraph N E}

/-- A path from `a` to `b` with the nodes that it passes, both ends among them. -/
abbrev Route (g : Digraph N E) (a : BlockId) : List BlockId → BlockId → Prop :=
  Trail (fun b c => c ∈ g.successors b) a

theorem path_iff_route {a b : BlockId} : g.Path a b ↔ ∃ path, g.Route a path b := by
  constructor
  · intro h
    induction h with
    | refl => exact ⟨[a], .start⟩
    | step _ hc ih =>
      obtain ⟨path, hpath⟩ := ih
      exact ⟨_, .extend hpath hc⟩
  · rintro ⟨path, h⟩
    induction h with
    | start => exact .refl a
    | extend _ hc ih => exact .step ih hc

/-- There is a path to `b`, and `a` lies on every path to it. -/
def Dominates (g : Digraph N E) (entry a b : BlockId) : Prop :=
  g.Path entry b ∧ ∀ path, g.Route entry path b → a ∈ path

def StrictlyDominates (g : Digraph N E) (entry a b : BlockId) : Prop :=
  a ≠ b ∧ g.Dominates entry a b

theorem Dominates.refl {entry b : BlockId} (h : g.Path entry b) : g.Dominates entry b b :=
  ⟨h, fun _ hpath => hpath.end_mem⟩

theorem Dominates.path {entry a b : BlockId} (h : g.Dominates entry a b) : g.Path entry a := by
  obtain ⟨path, hpath⟩ := path_iff_route.1 h.1
  obtain ⟨first, hfirst, -⟩ := hpath.cut (h.2 path hpath)
  exact path_iff_route.2 ⟨first, hfirst⟩

theorem Dominates.trans {entry a b c : BlockId} (hab : g.Dominates entry a b)
    (hbc : g.Dominates entry b c) : g.Dominates entry a c := by
  refine ⟨hbc.1, fun path hpath => ?_⟩
  obtain ⟨first, hfirst, hpre⟩ := hpath.cut (hbc.2 path hpath)
  exact hpre.subset (hab.2 first hfirst)

theorem Dominates.antisymm {entry a b : BlockId} (hab : g.Dominates entry a b)
    (hba : g.Dominates entry b a) : a = b := by
  by_contra hne
  -- A path to `a` passes `b`, and before that `a`: every path to `a` would have a shorter one.
  have hdescent : ∀ n path, g.Route entry path a → path.length ≠ n := by
    intro n
    induction n using Nat.strongRecOn with
    | _ n ih =>
      rintro path hpath rfl
      obtain ⟨toB, hb, hpreB⟩ := hpath.cut (hba.2 path hpath)
      obtain ⟨toA, ha, hpreA⟩ := hb.cut (hab.2 toB hb)
      rcases Nat.lt_or_ge toA.length path.length with hlt | hge
      · exact ih _ hlt toA ha rfl
      · have hsame : toB = path := hpreB.eq_of_length_le (Nat.le_trans hge hpreA.length_le)
        have hends := hpath.getLast?_eq.symm.trans (hsame ▸ hb.getLast?_eq)
        exact hne (Option.some.inj hends)
  obtain ⟨path, hpath⟩ := path_iff_route.1 hba.1
  exact hdescent _ path hpath rfl

/-- Whatever dominates the predecessors of a node dominates the node. Predecessors that the node
dominates itself do not count. -/
theorem strictlyDominates_of_predecessors {entry a b : BlockId} (hb : g.Path entry b)
    (hne : b ≠ entry) (h : ∀ c, g.Path entry c → b ∈ g.successors c → ¬g.Dominates entry b c →
      g.Dominates entry a c) : g.StrictlyDominates entry a b := by
  have hbefore {path : List BlockId} (hpath : g.Route entry path b) :
      ∃ before : List BlockId, b ∉ before ∧ a ∈ before ∧ ∀ x ∈ before, x ∈ path := by
    obtain ⟨before, c, hroute, hc, hout, hsub⟩ := hpath.exists_before hne
    have hclear : ¬g.Dominates entry b c := fun hdom => hout (hdom.2 before hroute)
    exact ⟨before, hout, (h c (path_iff_route.2 ⟨before, hroute⟩) hc hclear).2 before hroute, hsub⟩
  refine ⟨?_, hb, fun path hpath => ?_⟩
  · rintro rfl
    obtain ⟨path, hpath⟩ := path_iff_route.1 hb
    obtain ⟨before, hout, hin, -⟩ := hbefore hpath
    exact hout hin
  · obtain ⟨before, -, hin, hsub⟩ := hbefore hpath
    exact hsub a hin

theorem idxOf?_eq_some_iff_getElem? {order : List BlockId} (nodup : order.Nodup) {b : BlockId}
    {n : Nat} : order.idxOf? b = some n ↔ order[n]? = some b := by
  rw [List.idxOf?_eq_some_iff, List.getElem?_eq_some_iff]
  constructor
  · rintro ⟨h, hb, _⟩
    exact ⟨h, by simpa using hb⟩
  · rintro ⟨h, rfl⟩
    refine ⟨h, by simp, fun j hj => ?_⟩
    intro he
    have := (List.Nodup.getElem_inj_iff nodup).1 he
    omega

theorem idxOf_of_getElem? {order : List BlockId} (nodup : order.Nodup) {b : BlockId} {n : Nat}
    (h : order[n]? = some b) : order.idxOf b = n := by
  rw [← (List.getElem?_eq_some_iff.1 h).2, nodup.idxOf_getElem]

def numberedPredecessors (g : Digraph N E) (order : List BlockId) (n : Nat) : List Nat :=
  (order.toArray.map fun b => (g.predecessors b).filterMap (order.idxOf? ·)).getD n []

theorem mem_numberedPredecessors {order : List BlockId} (nodup : order.Nodup) {a n : Nat} :
    a ∈ g.numberedPredecessors order n ↔
      ∃ b c, order[a]? = some b ∧ order[n]? = some c ∧ c ∈ g.successors b := by
  have hget : g.numberedPredecessors order n =
      ((order[n]?).map fun b => (g.predecessors b).filterMap (order.idxOf? ·)).getD [] := by
    simp [numberedPredecessors, Array.getD_eq_getD_getElem?]
  rw [hget]
  cases hn : order[n]? with
  | none => simp
  | some c =>
    simp only [Option.map_some, Option.getD_some, List.mem_filterMap, mem_predecessors_iff,
      idxOf?_eq_some_iff_getElem? nodup, Option.some.injEq, exists_and_left, exists_eq_left']
    exact ⟨fun ⟨b, hb, ha⟩ => ⟨b, ha, hb⟩, fun ⟨b, ha, hb⟩ => ⟨b, hb, ha⟩⟩

section

variable {entry : BlockId} (closed : g.Closed) (h : g.contains entry)

include closed h

theorem numbered_predecessors :
    Parents.Numbered (g.numberedPredecessors (g.reversePostorder entry))
      (g.reversePostorder entry).length := by
  have nodup := nodup_reversePostorder closed h
  obtain ⟨rest, hcons⟩ := reversePostorder_eq_cons closed h
  refine ⟨by simp [hcons], fun ha => ?_, fun {n} hn hlt => ?_⟩
  · obtain ⟨b, c, hb, hc, _⟩ := (mem_numberedPredecessors nodup).1 ha
    exact ⟨(List.getElem?_eq_some_iff.1 hb).1, (List.getElem?_eq_some_iff.1 hc).1⟩
  · obtain ⟨b, hb⟩ : ∃ b, (g.reversePostorder entry)[n]? = some b :=
      ⟨_, List.getElem?_eq_getElem hlt⟩
    have hne : b ≠ entry := by
      rintro rfl
      have hzero : (g.reversePostorder b)[0]? = some b := by simp [hcons]
      have := (idxOf?_eq_some_iff_getElem? nodup).2 hb
      rw [(idxOf?_eq_some_iff_getElem? nodup).2 hzero] at this
      exact Nat.ne_of_lt hn (Option.some.inj this)
    obtain ⟨p, hp, hprec⟩ :=
      exists_earlier_predecessor closed h (List.mem_of_getElem? hb) hne
    have hlt' := hprec.idxOf_lt nodup
    have hidx := idxOf_of_getElem? nodup hb
    have hpmem : p ∈ g.reversePostorder entry := by
      obtain ⟨front, back, he, hpf, _⟩ := hprec
      rw [he]
      exact List.mem_append_left back hpf
    refine ⟨(g.reversePostorder entry).idxOf p, ?_, hidx ▸ hlt'⟩
    exact (mem_numberedPredecessors nodup).2 ⟨p, b, List.getElem?_idxOf hpmem, hb, hp⟩

/-- The refined tree has a parent for every node that it numbers, and the nodes above a node are
those on all ways to it. -/
theorem parentNumbers_spec {n : Nat} (hn : n < (g.reversePostorder entry).length) :
    let p := g.parentNumbers (g.reversePostorder entry)
    p.Rooted ∧ p.Known n ∧ ∀ x, p.Above x n ↔
      ∀ path, Parents.Way (g.numberedPredecessors (g.reversePostorder entry)) path n →
        x ∈ path := by
  have hsettle : g.parentNumbers (g.reversePostorder entry) = _ := Parents.settle_eq_iterate _ _ _
  rw [hsettle]
  exact Parents.above_iterate_iff (numbered_predecessors closed h)
    (Nat.le_add_right_of_le (Nat.le_mul_self _)) hn

theorem mem_of_route {path : List BlockId} {b : BlockId} (hpath : g.Route entry path b) :
    b ∈ g.reversePostorder entry :=
  (mem_reversePostorder closed h).2
    ((mem_preorder_iff closed h).2 (path_iff_route.2 ⟨path, hpath⟩))

theorem route_subset {path : List BlockId} {a b : BlockId} (hpath : g.Route entry path b)
    (ha : a ∈ path) : a ∈ g.reversePostorder entry := by
  obtain ⟨first, hfirst, _⟩ := hpath.cut ha
  exact mem_of_route closed h hfirst

theorem way_of_route {path : List BlockId} {b : BlockId} (hpath : g.Route entry path b) :
    Parents.Way (g.numberedPredecessors (g.reversePostorder entry))
      (path.map (g.reversePostorder entry).idxOf) ((g.reversePostorder entry).idxOf b) := by
  induction hpath with
  | start =>
    obtain ⟨rest, hcons⟩ := reversePostorder_eq_cons closed h
    simpa [hcons] using Trail.start
  | @extend path b c hb hc ih =>
    rw [List.map_append, List.map_singleton]
    refine .extend ih ((mem_numberedPredecessors (nodup_reversePostorder closed h)).2
      ⟨b, c, List.getElem?_idxOf (mem_of_route closed h hb), ?_, hc⟩)
    exact List.getElem?_idxOf (mem_of_route closed h (.extend hb hc))

/-- A way gives a route through the nodes with its numbers. -/
theorem route_of_way {numbers : List Nat} {n : Nat}
    (hway : Parents.Way (g.numberedPredecessors (g.reversePostorder entry)) numbers n) :
    ∃ b, (g.reversePostorder entry)[n]? = some b ∧
      g.Route entry (numbers.filterMap ((g.reversePostorder entry)[·]?)) b := by
  induction hway with
  | start =>
    obtain ⟨rest, hcons⟩ := reversePostorder_eq_cons closed h
    exact ⟨entry, by simp [hcons], by simpa [hcons] using Trail.start⟩
  | @extend numbers a n _ ha ih =>
    obtain ⟨b, hb, hroute⟩ := ih
    obtain ⟨b', c, hb', hc, hsucc⟩ :=
      (mem_numberedPredecessors (nodup_reversePostorder closed h)).1 ha
    obtain rfl : b = b' := Option.some.inj (hb.symm.trans hb')
    refine ⟨c, hc, ?_⟩
    rw [List.filterMap_append]
    simpa [hc] using Trail.extend hroute hsucc

/-- In the refined tree the nodes above a node are those on every route to it. -/
theorem above_parentNumbers_iff {a b : BlockId} (hb : b ∈ g.reversePostorder entry) :
    Parents.Above (g.parentNumbers (g.reversePostorder entry))
        ((g.reversePostorder entry).idxOf a) ((g.reversePostorder entry).idxOf b) ↔
      ∀ path, g.Route entry path b → a ∈ path := by
  have nodup := nodup_reversePostorder closed h
  rw [(parentNumbers_spec closed h (List.idxOf_lt_length_of_mem hb)).2.2]
  constructor
  · intro hall path hpath
    have hmem := hall _ (way_of_route closed h hpath)
    obtain ⟨c, hc, he⟩ := List.mem_map.1 hmem
    rwa [← (List.idxOf_inj (route_subset closed h hpath hc)).1 he]
  · intro hall numbers hway
    obtain ⟨c, hc, hroute⟩ := route_of_way closed h hway
    obtain rfl : b = c := by
      rw [List.getElem?_idxOf hb] at hc
      exact Option.some.inj hc
    obtain ⟨n, hn, hna⟩ := List.mem_filterMap.1 (hall _ hroute)
    rwa [idxOf_of_getElem? nodup hna]

theorem immediate?_eq_some_iff {b d : BlockId} :
    (g.dominatorTree entry).immediate? b = some d ↔
      b ≠ entry ∧ b ∈ g.reversePostorder entry ∧
        ∃ m, (g.parentNumbers (g.reversePostorder entry)).parent?
            ((g.reversePostorder entry).idxOf b) = some m ∧
          (g.reversePostorder entry)[m]? = some d := by
  have nodup := nodup_reversePostorder closed h
  by_cases hne : b = entry
  · simp [DominatorTree.immediate?, dominatorTree, hne]
  by_cases hb : b ∈ g.reversePostorder entry
  · have hin : g.contains b :=
      contains_of_mem_preorder closed h ((mem_reversePostorder closed h).1 hb)
    have hid : g.nodeIds[b.index]? = some b := by
      have : b.index < g.nodes.size := by simpa [contains] using hin
      simp [nodeIds, this]
    have hidx := (idxOf?_eq_some_iff_getElem? nodup).2 (List.getElem?_idxOf hb)
    simp [DominatorTree.immediate?, dominatorTree, hne, hb, hid, hidx, Option.bind_eq_some_iff]
  · have hnone : (g.reversePostorder entry).idxOf? b = none := by simpa using hb
    have hjoin (x : Option (Option BlockId)) (hx : ∀ y ∈ x, y = none) : x.join = none := by
      cases x with
      | none => rfl
      | some y => simpa using hx y rfl
    simp only [DominatorTree.immediate?, dominatorTree, hne, hb, ↓reduceIte, ne_eq,
      not_false_eq_true, false_and, and_false, iff_false]
    rw [hjoin]
    · simp
    · intro y hy
      simp only [List.getElem?_toArray, List.getElem?_map, Option.mem_def,
        Option.map_eq_some_iff] at hy
      obtain ⟨c, hc, rfl⟩ := hy
      obtain rfl : c = b := by
        simp only [nodeIds, List.getElem?_map, Option.map_eq_some_iff] at hc
        obtain ⟨i, hi, rfl⟩ := hc
        obtain ⟨_, rfl⟩ := List.getElem?_eq_some_iff.1 hi
        simp
      simp [hne, hnone]

theorem exists_immediate {b : BlockId} (hb : b ∈ g.reversePostorder entry) (hne : b ≠ entry) :
    ∃ d, (g.dominatorTree entry).immediate? b = some d := by
  have nodup := nodup_reversePostorder closed h
  have hlt := List.idxOf_lt_length_of_mem hb
  obtain ⟨hrooted, hknown, _⟩ := parentNumbers_spec closed h hlt
  obtain ⟨m, hm⟩ := hknown.exists
  have hpos : 0 < (g.reversePostorder entry).idxOf b := by
    obtain ⟨rest, hcons⟩ := reversePostorder_eq_cons closed h
    rw [hcons, List.idxOf_cons_ne _ (Ne.symm hne)]
    exact Nat.succ_pos _
  have hml := hrooted.descends hpos hm
  exact ⟨_, (immediate?_eq_some_iff closed h).2
    ⟨hne, hb, m, hm, List.getElem?_eq_getElem (Nat.lt_trans hml hlt)⟩⟩

theorem immediate?_descends {b d : BlockId}
    (hd : (g.dominatorTree entry).immediate? b = some d) :
    d ∈ g.reversePostorder entry ∧
      (g.reversePostorder entry).idxOf d < (g.reversePostorder entry).idxOf b ∧
      (g.parentNumbers (g.reversePostorder entry)).parent? ((g.reversePostorder entry).idxOf b) =
        some ((g.reversePostorder entry).idxOf d) := by
  obtain ⟨hne, hb, m, hm, hmd⟩ := (immediate?_eq_some_iff closed h).1 hd
  have hidx := idxOf_of_getElem? (nodup_reversePostorder closed h) hmd
  have hpos : 0 < (g.reversePostorder entry).idxOf b := by
    obtain ⟨rest, hcons⟩ := reversePostorder_eq_cons closed h
    rw [hcons, List.idxOf_cons_ne _ (Ne.symm hne)]
    exact Nat.succ_pos _
  have hrooted := (parentNumbers_spec closed h (List.idxOf_lt_length_of_mem hb)).1
  exact ⟨List.mem_of_getElem? hmd, hidx ▸ hrooted.descends hpos hm, hidx ▸ hm⟩

theorem isReachable_iff {b : BlockId} :
    (g.dominatorTree entry).isReachable b ↔ b ∈ g.reversePostorder entry := by
  rw [DominatorTree.isReachable, Bool.or_eq_true, decide_eq_true_eq, Option.isSome_iff_exists]
  constructor
  · rintro (he | ⟨d, hd⟩)
    · obtain ⟨rest, hcons⟩ := reversePostorder_eq_cons closed h
      change b = entry at he
      simp [hcons, he]
    · exact ((immediate?_eq_some_iff closed h).1 hd).2.1
  · intro hb
    by_cases hne : b = entry
    · exact .inl hne
    · exact .inr (exists_immediate closed h hb hne)

theorem climb_eq_of_lt (n : Nat) :
    ∀ b ∈ g.reversePostorder entry, (g.reversePostorder entry).idxOf b = n → ∀ limit, n < limit →
      (g.dominatorTree entry).climb limit b = (g.dominatorTree entry).climb (n + 1) b := by
  induction n using Nat.strongRecOn with
  | _ n ih =>
    intro b hb hn limit hlimit
    obtain ⟨l, rfl⟩ : ∃ l, limit = l + 1 := ⟨limit - 1, by omega⟩
    simp only [DominatorTree.climb]
    cases hd : (g.dominatorTree entry).immediate? b with
    | none => rfl
    | some d =>
      obtain ⟨hdm, hlt, _⟩ := immediate?_descends closed h hd
      have := ih _ (hn ▸ hlt) d hdm rfl
      simp only [List.cons.injEq, true_and]
      rw [this l (by omega), this n (by omega)]

theorem length_reversePostorder_le :
    (g.reversePostorder entry).length ≤ (g.dominatorTree entry).nodeCount := by
  have hle := length_le_nodeCount (nodup_reversePostorder closed h) fun c hc =>
    contains_of_mem_preorder closed h ((mem_reversePostorder closed h).1 hc)
  simpa [DominatorTree.nodeCount, dominatorTree, nodeIds, nodeCount] using hle

/-- The chain of a reachable node goes on with the chain of its immediate dominator. -/
theorem chain_eq {b : BlockId} (hb : b ∈ g.reversePostorder entry) :
    (g.dominatorTree entry).chain b =
      b ::
        match (g.dominatorTree entry).immediate? b with
        | none => []
        | some d => (g.dominatorTree entry).chain d := by
  have hcount := length_reversePostorder_le closed h
  have hlt := List.idxOf_lt_length_of_mem hb
  conv_lhs => rw [DominatorTree.chain, DominatorTree.climb]
  cases hd : (g.dominatorTree entry).immediate? b with
  | none => rfl
  | some d =>
    obtain ⟨hdm, hdlt, _⟩ := immediate?_descends closed h hd
    simp only [List.cons.injEq, true_and]
    rw [DominatorTree.chain, climb_eq_of_lt closed h _ d hdm rfl (DominatorTree.nodeCount _)
      (by omega), climb_eq_of_lt closed h _ d hdm rfl (DominatorTree.nodeCount _ + 1) (by omega)]

theorem mem_chain_iff_above {a : BlockId} (n : Nat) :
    ∀ b ∈ g.reversePostorder entry, (g.reversePostorder entry).idxOf b = n →
      (a ∈ (g.dominatorTree entry).chain b ↔
        (g.parentNumbers (g.reversePostorder entry)).Above
          ((g.reversePostorder entry).idxOf a) n) := by
  induction n using Nat.strongRecOn with
  | _ n ih =>
    intro b hb hn
    rw [chain_eq closed h hb, List.mem_cons]
    have hself : a = b ↔ (g.reversePostorder entry).idxOf a = n := by
      rw [← hn, eq_comm, ← List.idxOf_inj hb, eq_comm]
    cases hd : (g.dominatorTree entry).immediate? b with
    | none =>
      obtain rfl : b = entry := by
        by_contra hne
        obtain ⟨d, hd'⟩ := exists_immediate closed h hb hne
        simp [hd] at hd'
      obtain ⟨rest, hcons⟩ := reversePostorder_eq_cons closed h
      obtain rfl : n = 0 := by
        rw [← hn, hcons, List.idxOf_cons_self]
      have hrooted :=
        (parentNumbers_spec closed h (List.idxOf_lt_length_of_mem hb)).1
      rw [Parents.Above.zero_iff hrooted, hself]
      simp
    | some d =>
      obtain ⟨hdm, hlt, hpar⟩ := immediate?_descends closed h hd
      rw [Parents.Above.iff_parent (hn ▸ hpar), hself, ih _ (hn ▸ hlt) d hdm rfl]

/-- The chain of a node lists the nodes on every route to it. -/
theorem mem_chain_iff {a b : BlockId} (hb : b ∈ g.reversePostorder entry) :
    a ∈ (g.dominatorTree entry).chain b ↔ ∀ path, g.Route entry path b → a ∈ path :=
  (mem_chain_iff_above closed h _ b hb rfl).trans (above_parentNumbers_iff closed h hb)

theorem path_iff_mem {b : BlockId} : g.Path entry b ↔ b ∈ g.reversePostorder entry :=
  (mem_preorder_iff closed h).symm.trans (mem_reversePostorder closed h).symm

theorem mem_reversePostorder_of_mem_chain {a b : BlockId} (hb : b ∈ g.reversePostorder entry)
    (ha : a ∈ (g.dominatorTree entry).chain b) : a ∈ g.reversePostorder entry := by
  obtain ⟨path, hpath⟩ := path_iff_route.1 ((path_iff_mem closed h).2 hb)
  obtain ⟨first, hfirst, -⟩ := hpath.cut ((mem_chain_iff closed h hb).1 ha path hpath)
  exact (path_iff_mem closed h).1 (path_iff_route.2 ⟨first, hfirst⟩)

theorem dominates_iff {a b : BlockId} :
    (g.dominatorTree entry).dominates a b ↔ g.Dominates entry a b := by
  rw [DominatorTree.dominates, Bool.and_eq_true, isReachable_iff closed h, decide_eq_true_eq,
    Dominates, path_iff_mem closed h]
  exact and_congr_right fun hb => mem_chain_iff closed h hb

theorem strictlyDominates_iff_immediate {b d : BlockId}
    (hd : (g.dominatorTree entry).immediate? b = some d) (a : BlockId) :
    g.StrictlyDominates entry a b ↔ g.Dominates entry a d := by
  have hb := ((immediate?_eq_some_iff closed h).1 hd).2.1
  obtain ⟨hdm, hlt, hpar⟩ := immediate?_descends closed h hd
  have hreach : g.Path entry b ∧ g.Path entry d :=
    ⟨(path_iff_mem closed h).2 hb, (path_iff_mem closed h).2 hdm⟩
  have hrooted := (parentNumbers_spec closed h (List.idxOf_lt_length_of_mem hb)).1
  simp only [StrictlyDominates, Dominates, hreach, true_and, ← above_parentNumbers_iff closed h hb,
    ← above_parentNumbers_iff closed h hdm]
  rw [Parents.Above.iff_parent hpar]
  constructor
  · rintro ⟨hne, he | ha⟩
    · exact absurd ((List.idxOf_inj hb).1 he.symm).symm hne
    · exact ha
  · intro ha
    refine ⟨?_, .inr ha⟩
    rintro rfl
    have := ha.le hrooted
    omega

theorem immediate?_eq_some_iff_dominance {b d : BlockId} :
    (g.dominatorTree entry).immediate? b = some d ↔
      g.Path entry b ∧ b ≠ entry ∧ g.StrictlyDominates entry d b ∧
        ∀ a, g.StrictlyDominates entry a b → g.Dominates entry a d := by
  constructor
  · intro hd
    obtain ⟨hne, hb, _⟩ := (immediate?_eq_some_iff closed h).1 hd
    have hpath := (path_iff_mem closed h).2 (immediate?_descends closed h hd).1
    refine ⟨(path_iff_mem closed h).2 hb, hne, ?_, fun a ha => ?_⟩
    · exact (strictlyDominates_iff_immediate closed h hd d).2
        (.refl hpath)
    · exact (strictlyDominates_iff_immediate closed h hd a).1 ha
  · rintro ⟨hpath, hne, hstrict, hleast⟩
    obtain ⟨c, hc⟩ := exists_immediate closed h ((path_iff_mem closed h).1 hpath) hne
    have hdc := (strictlyDominates_iff_immediate closed h hc d).1 hstrict
    have hreach := (path_iff_mem closed h).2 (immediate?_descends closed h hc).1
    have hcd := hleast c ((strictlyDominates_iff_immediate closed h hc c).2
      (.refl hreach))
    rw [hc, hcd.antisymm hdc]

theorem exists_chain_eq_append {a : BlockId} (n : Nat) :
    ∀ b ∈ g.reversePostorder entry, (g.reversePostorder entry).idxOf b = n →
      a ∈ (g.dominatorTree entry).chain b →
      ∃ below, (g.dominatorTree entry).chain b = below ++ (g.dominatorTree entry).chain a ∧
        a ∉ below := by
  induction n using Nat.strongRecOn with
  | _ n ih =>
    intro b hb hn ha
    by_cases hab : a = b
    · exact ⟨[], by simp [hab]⟩
    · rw [chain_eq closed h hb] at ha ⊢
      cases hd : (g.dominatorTree entry).immediate? b with
      | none => simp [hd, hab] at ha
      | some d =>
        obtain ⟨hdm, hlt, _⟩ := immediate?_descends closed h hd
        have ha' : a ∈ (g.dominatorTree entry).chain d := by simpa [hd, hab] using ha
        obtain ⟨below, he, hout⟩ := ih _ (hn ▸ hlt) d hdm rfl ha'
        exact ⟨b :: below, by simp [he], by simp [hab, hout]⟩

/-- A chain is no longer than there are nodes. -/
theorem length_chain_le {b : BlockId} (hb : b ∈ g.reversePostorder entry) :
    ((g.dominatorTree entry).chain b).length ≤ (g.dominatorTree entry).nodeCount := by
  suffices key : ∀ n, ∀ b ∈ g.reversePostorder entry, (g.reversePostorder entry).idxOf b = n →
      ((g.dominatorTree entry).chain b).length ≤ n + 1 by
    have := key _ b hb rfl
    have := List.idxOf_lt_length_of_mem hb
    have := length_reversePostorder_le closed h
    omega
  intro n
  induction n using Nat.strongRecOn with
  | _ n ih =>
    intro b hb hn
    rw [chain_eq closed h hb]
    cases hd : (g.dominatorTree entry).immediate? b with
    | none => simp
    | some d =>
      obtain ⟨hdm, hlt, _⟩ := immediate?_descends closed h hd
      have := ih _ (hn ▸ hlt) d hdm rfl
      simp only [List.length_cons]
      omega

theorem exists_child_of_mem_chain {a : BlockId} (n : Nat) :
    ∀ b ∈ g.reversePostorder entry, (g.reversePostorder entry).idxOf b = n →
      a ∈ (g.dominatorTree entry).chain b →
      b = a ∨ ∃ c, (g.dominatorTree entry).immediate? c = some a ∧
        c ∈ (g.dominatorTree entry).chain b := by
  induction n using Nat.strongRecOn with
  | _ n ih =>
    intro b hb hn ha
    by_cases hab : b = a
    · exact .inl hab
    · rw [chain_eq closed h hb] at ha ⊢
      cases hd : (g.dominatorTree entry).immediate? b with
      | none => simp [hd, Ne.symm hab] at ha
      | some d =>
        obtain ⟨hdm, hlt, _⟩ := immediate?_descends closed h hd
        have ha' : a ∈ (g.dominatorTree entry).chain d := by simpa [hd, Ne.symm hab] using ha
        rcases ih _ (hn ▸ hlt) d hdm rfl ha' with rfl | ⟨c, hc, hmem⟩
        · exact .inr ⟨b, hd, by simp⟩
        · exact .inr ⟨c, hc, by simp [hmem]⟩

end

theorem pairwise_children (t : DominatorTree) (d : BlockId) :
    (t.children d).Pairwise fun a b => a.index < b.index := by
  unfold DominatorTree.children
  apply List.Pairwise.filter
  rw [List.pairwise_map]
  exact List.pairwise_lt_range

theorem mem_children_iff {t : DominatorTree} {b d : BlockId} :
    b ∈ t.children d ↔ t.immediate? b = some d := by
  simp only [DominatorTree.children, List.mem_filter, List.mem_map, List.mem_range,
    decide_eq_true_eq]
  refine ⟨And.right, fun hd => ⟨⟨b.index, ?_, rfl⟩, hd⟩⟩
  by_contra hout
  rw [DominatorTree.immediate?, Array.getElem?_eq_none (Nat.not_lt.1 hout)] at hd
  simp at hd

/-- A dominator tree that says of the nodes of a graph what the paths from the entry say. -/
structure DescribesDominance (g : Digraph N E) (entry : BlockId) (t : DominatorTree) : Prop where
  reachable : ∀ b, t.isReachable b ↔ g.Path entry b
  found : ∀ b, t.isReachable b ↔ b ∈ g.preorder entry
  dominates : ∀ a b, t.dominates a b ↔ g.Dominates entry a b
  immediate : ∀ b d, t.immediate? b = some d ↔
    g.Path entry b ∧ b ≠ entry ∧ g.StrictlyDominates entry d b ∧
      ∀ a, g.StrictlyDominates entry a b → g.Dominates entry a d
  children : ∀ b d, b ∈ t.children d ↔ t.immediate? b = some d
  ordered : ∀ d, (t.children d).Pairwise fun a b => a.index < b.index

/-- The computed tree is the dominator tree. -/
theorem dominatorTree_describesDominance {entry : BlockId} (closed : g.Closed)
    (h : g.contains entry) : g.DescribesDominance entry (g.dominatorTree entry) where
  reachable _ := (isReachable_iff closed h).trans (path_iff_mem closed h).symm
  found _ := (isReachable_iff closed h).trans (mem_reversePostorder closed h)
  dominates _ _ := dominates_iff closed h
  immediate _ _ := immediate?_eq_some_iff_dominance closed h
  children _ _ := mem_children_iff
  ordered := pairwise_children _

/-- Two loops that are entered at different nodes, and a node that no path leads to. -/
def crossing : Digraph Unit Unit :=
  ⟨#[(), (), (), ()],
    [⟨⟨0⟩, ⟨1⟩, ()⟩, ⟨⟨0⟩, ⟨2⟩, ()⟩, ⟨⟨1⟩, ⟨2⟩, ()⟩, ⟨⟨2⟩, ⟨1⟩, ()⟩, ⟨⟨3⟩, ⟨1⟩, ()⟩]⟩

theorem crossing_describesDominance : crossing.Closed ∧ crossing.contains ⟨0⟩ = true ∧
    crossing.DescribesDominance ⟨0⟩ (crossing.dominatorTree ⟨0⟩) := by
  have closed : crossing.Closed := by simp [Closed, crossing, contains]
  exact ⟨closed, rfl, dominatorTree_describesDominance closed rfl⟩

end MethodFlow.Digraph
