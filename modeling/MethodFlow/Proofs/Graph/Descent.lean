import MethodFlow.Proofs.Graph.Dominance

/-!
The way down a dominator tree. It comes to every node that can be reached once, and to a node's
dominators first.
-/

namespace MethodFlow

/-- The nodes on the way down from `b` to a depth of `limit`: the node itself, then what is below
each of its children. -/
def DominatorTree.below (t : DominatorTree) : Nat → BlockId → List BlockId
  | 0, _ => []
  | limit + 1, b => b :: (t.children b).flatMap (t.below limit)

def DominatorTree.descent (t : DominatorTree) : List BlockId := t.below (t.nodeCount + 1) t.entry

namespace Digraph

variable {N E : Type} {g : Digraph N E} {entry a b c d : BlockId}

section

variable (closed : g.Closed) (h : g.contains entry)

include closed h

theorem chain_self (hb : g.Path entry b) : b ∈ (g.dominatorTree entry).chain b := by
  rw [chain_eq closed h ((path_iff_mem closed h).1 hb)]
  exact List.mem_cons_self

/-- Of two dominators of a node one dominates the other. -/
theorem Dominates.total (hac : g.Dominates entry a c) (hbc : g.Dominates entry b c) :
    g.Dominates entry a b ∨ g.Dominates entry b a := by
  have hc := (path_iff_mem closed h).1 hac.1
  have hchain {x : BlockId} (hx : g.Dominates entry x c) :
      (g.dominatorTree entry).chain x <:+ (g.dominatorTree entry).chain c := by
    obtain ⟨below, hbelow, -⟩ :=
      exists_chain_eq_append closed h _ c hc rfl ((mem_chain_iff closed h hc).2 hx.2)
    exact ⟨below, hbelow.symm⟩
  have hmem {x y : BlockId} (hx : g.Path entry x) (hy : g.Path entry y)
      (hxy : (g.dominatorTree entry).chain x <:+ (g.dominatorTree entry).chain y) :
      g.Dominates entry x y :=
    ⟨hy, (mem_chain_iff closed h ((path_iff_mem closed h).1 hy)).1
      (hxy.subset (chain_self closed h hx))⟩
  rcases List.suffix_or_suffix_of_suffix (hchain hac) (hchain hbc) with hab | hba
  · exact .inl (hmem hac.path hbc.path hab)
  · exact .inr (hmem hbc.path hac.path hba)

/-- A child of `b` can be reached, `b` strictly dominates it, and whatever else does dominates
`b`. -/
theorem mem_children_iff_dominance :
    d ∈ (g.dominatorTree entry).children b ↔
      g.Path entry d ∧ d ≠ entry ∧ g.StrictlyDominates entry b d ∧
        ∀ a, g.StrictlyDominates entry a d → g.Dominates entry a b :=
  mem_children_iff.trans (immediate?_eq_some_iff_dominance closed h)

theorem dominates_of_mem_below {limit : Nat} (hb : g.Path entry b)
    (hc : c ∈ (g.dominatorTree entry).below limit b) : g.Dominates entry b c := by
  induction limit generalizing b with
  | zero => simp [DominatorTree.below] at hc
  | succ limit ih =>
    rcases List.mem_cons.1 hc with rfl | hc
    · exact .refl hb
    · obtain ⟨d, hd, hc⟩ := List.mem_flatMap.1 hc
      obtain ⟨hpath, -, hbd, -⟩ := (mem_children_iff_dominance closed h).1 hd
      exact hbd.2.trans (ih hpath hc)

/-- A node that is dominated is below its dominator, no further down than there are nodes. -/
theorem mem_below {limit : Nat} (hbc : g.Dominates entry b c)
    (hlimit : (g.dominatorTree entry).nodeCount <
      limit + ((g.dominatorTree entry).chain b).length) :
    c ∈ (g.dominatorTree entry).below limit b := by
  have hb := (path_iff_mem closed h).1 hbc.path
  induction limit generalizing b with
  | zero =>
    have := length_chain_le closed h hb
    rw [Nat.zero_add] at hlimit
    exact absurd hlimit (Nat.not_lt.2 this)
  | succ limit ih =>
    have hc := (path_iff_mem closed h).1 hbc.1
    have hmem := (mem_chain_iff closed h hc).2 hbc.2
    rcases exists_child_of_mem_chain closed h _ c hc rfl hmem with rfl | ⟨d, hd, hdc⟩
    · exact List.mem_cons_self
    · have hdc : g.Dominates entry d c := ⟨hbc.1, (mem_chain_iff closed h hc).1 hdc⟩
      have hreach := (path_iff_mem closed h).1 hdc.path
      have hlength : ((g.dominatorTree entry).chain d).length =
          ((g.dominatorTree entry).chain b).length + 1 := by
        rw [chain_eq closed h hreach, hd, List.length_cons]
      exact List.mem_cons_of_mem _ (List.mem_flatMap.2
        ⟨d, mem_children_iff.2 hd, ih hdc (by omega) hreach⟩)

/-- What comes later on the way down dominates nothing that came before, itself included. -/
theorem pairwise_below {limit : Nat} (hb : g.Path entry b) :
    ((g.dominatorTree entry).below limit b).Pairwise fun x y => ¬g.Dominates entry y x := by
  induction limit generalizing b with
  | zero => exact .nil
  | succ limit ih =>
    have hchild {d : BlockId} (hd : d ∈ (g.dominatorTree entry).children b) :=
      (mem_children_iff_dominance closed h).1 hd
    -- Of two children none dominates what is below the other: one would dominate the other, and
    -- `b`.
    have hapart {d d' : BlockId} (hd : d ∈ (g.dominatorTree entry).children b)
        (hd' : d' ∈ (g.dominatorTree entry).children b) (hne : d ≠ d')
        (hdd' : g.Dominates entry d d') : False := by
      obtain ⟨-, -, hbd, -⟩ := hchild hd
      obtain ⟨-, -, -, hclosest⟩ := hchild hd'
      exact hbd.1 (hbd.2.antisymm (hclosest d ⟨hne, hdd'⟩))
    refine List.pairwise_cons.2 ⟨fun c hc hcb => ?_, List.pairwise_flatMap.2 ⟨fun d hd => ?_, ?_⟩⟩
    · obtain ⟨d, hd, hc⟩ := List.mem_flatMap.1 hc
      obtain ⟨hpath, -, hbd, -⟩ := hchild hd
      exact hbd.1 (hbd.2.antisymm ((dominates_of_mem_below closed h hpath hc).trans hcb))
    · exact ih (hchild hd).1
    · refine (pairwise_children _ b).imp_of_mem fun {d d'} hd hd' hlt x hx y hy hyx => ?_
      have hne : d ≠ d' := by
        rintro rfl
        exact Nat.lt_irrefl _ hlt
      have hdx := dominates_of_mem_below closed h (hchild hd).1 hx
      have hdy := (dominates_of_mem_below closed h (hchild hd').1 hy).trans hyx
      rcases hdx.total closed h hdy with hdd' | hdd'
      · exact hapart hd hd' hne hdd'
      · exact hapart hd' hd hne.symm hdd'

theorem mem_descent : b ∈ (g.dominatorTree entry).descent ↔ g.Path entry b := by
  refine ⟨fun hb => (dominates_of_mem_below closed h (.refl entry) hb).1, fun hb => ?_⟩
  refine mem_below closed h ⟨hb, fun _ hroute => hroute.start_mem⟩ ?_
  have hlength := List.length_pos_of_mem (chain_self closed h (.refl entry))
  omega

theorem pairwise_descent :
    (g.dominatorTree entry).descent.Pairwise fun x y => ¬g.Dominates entry y x :=
  pairwise_below closed h (.refl entry)

/-- The way down comes to no node twice. -/
theorem nodup_descent : (g.dominatorTree entry).descent.Nodup :=
  (pairwise_descent closed h).imp_of_mem fun {x y} hx _ hxy => by
    rintro rfl
    exact hxy (.refl ((mem_descent closed h).1 hx))

/-- The way down comes to a node behind those that strictly dominate it. -/
theorem exists_descent_eq_append (hab : g.StrictlyDominates entry a b) :
    ∃ before after, (g.dominatorTree entry).descent = before ++ a :: after ∧ b ∈ after := by
  obtain ⟨before, after, hsplit⟩ := List.append_of_mem ((mem_descent closed h).2 hab.2.path)
  refine ⟨before, after, hsplit, ?_⟩
  have hb := (mem_descent closed h).2 hab.2.1
  have hpairs := pairwise_descent closed h
  rw [hsplit] at hb hpairs
  rcases List.mem_append.1 hb with hb | hb
  · exact absurd hab.2 ((List.pairwise_append.1 hpairs).2.2 b hb a List.mem_cons_self)
  · exact (List.mem_cons.1 hb).resolve_left hab.1.symm

end

end Digraph

end MethodFlow
