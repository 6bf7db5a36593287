import MethodFlow.Proofs.Tree.Walk

/-!
Subtrees that are finite, and those that are entirely in use as well. No way down from their top
meets a node twice, so it has fewer steps than the tree has nodes, and a search that may go as deep
as that sees all of the subtree.
-/

namespace MethodFlow.Tree

variable {t t' : Tree} {m n c : NodeId} {s : Slot} {i j limit : Nat}

/-- What stands at and below a node is in use, and every way down from there ends. -/
inductive Whole (t : Tree) : NodeId → Prop
  | node {n : NodeId} {s : Slot} :
    t.slot? n = some s → (∀ c ∈ s.node.children, Whole t c) → Whole t n

/-- Everything below a node is fewer than `limit` levels down. -/
def Within (t : Tree) (limit : Nat) (n : NodeId) : Prop := ∀ j m, t.Under n j m → j < limit

theorem Within.exists_limit (h : t.Within limit n) (hs : t.slot? n = some s) :
    ∃ rest, limit = rest + 1 ∧ ∀ c ∈ s.node.children, t.Within rest c := by
  have hpos : 0 < limit := h 0 n (.self hs)
  refine ⟨limit - 1, by omega, fun c hc j m hunder => ?_⟩
  have := h (j + 1) m (.of_child hs hc hunder)
  omega

/-- Every way down from a node ends. -/
inductive Ends (t : Tree) : NodeId → Prop
  | node {n : NodeId} : (∀ s, t.slot? n = some s → ∀ c ∈ s.node.children, Ends t c) → Ends t n

namespace Ends

theorem of_mem_children (h : t.Ends n) (hs : t.slot? n = some s) (hc : c ∈ s.node.children) :
    t.Ends c := by
  cases h with
  | node hchildren => exact hchildren s hs c hc

theorem of_under (h : t.Ends m) (hunder : t.Under m j n) : t.Ends n := by
  induction hunder with
  | self _ => exact h
  | child _ hs hc _ ih => exact ih.of_mem_children hs hc

/-- No way down leads back to where it began. -/
theorem not_under_self (h : t.Ends n) : ¬t.Under n (j + 1) n := by
  induction h generalizing j with
  | node _ ih =>
    -- The child that the way leads through would stand below itself as well.
    intro hunder
    obtain ⟨s, c, hs, hc, hdown⟩ := hunder.exists_child
    obtain ⟨sc, hsc⟩ := hdown.exists_slot
    exact ih s hs c hc (.child hdown hs hc hsc)

theorem within_size (h : t.Ends n) : t.Within t.size n := fun _ _ hunder =>
  hunder.lt_size_of_never fun _ _ _ hi hk => (h.of_under hi).not_under_self hk

theorem depth_unique (h : t.Ends m) (owns : t.OwnsChildren) (hi : t.Under m i n)
    (hj : t.Under m j n) :
    i = j := by
  wlog hle : i ≤ j generalizing i j
  · exact (this hj hi (Nat.le_of_not_le hle)).symm
  · have hself := hi.nested owns hj hle
    cases hk : j - i with
    | zero => omega
    | succ k => exact absurd (hk ▸ hself) h.not_under_self

end Ends

/-- What is in use stays in use and keeps what it lists. -/
def KeepsNodes (t t' : Tree) : Prop :=
  ∀ k s, t.slot? k = some s → ∃ s', t'.slot? k = some s' ∧ s'.node = s.node

theorem KeepsNodes.of_kept (h : ∀ k : NodeId, k.index < t.size → t'.slot? k = t.slot? k) :
    t.KeepsNodes t' := fun k s hs => ⟨s, (h k (index_lt_size hs)).trans hs, rfl⟩

theorem KeepsNodes.node? {node : Node} (h : t.KeepsNodes t') (hn : t.node? n = some node) :
    t'.node? n = some node := by
  obtain ⟨s, hs, rfl⟩ := node?_eq_some.1 hn
  obtain ⟨s', hs', hnode⟩ := h n s hs
  exact node?_eq_some.2 ⟨s', hs', hnode⟩

namespace Whole

theorem exists_slot (h : t.Whole n) : ∃ s, t.slot? n = some s := by
  cases h with
  | node hs _ => exact ⟨_, hs⟩

theorem of_mem_children (h : t.Whole n) (hs : t.slot? n = some s) (hc : c ∈ s.node.children) :
    t.Whole c := by
  cases h with
  | node hs' hchildren =>
    obtain rfl : _ = s := Option.some.inj (hs'.symm.trans hs)
    exact hchildren c hc

theorem of_under (h : t.Whole m) (hunder : t.Under m j n) : t.Whole n := by
  induction hunder with
  | self _ => exact h
  | child _ hs hc _ ih => exact ih.of_mem_children hs hc

theorem ends (h : t.Whole n) : t.Ends n := by
  induction h with
  | node hs _ ih =>
    refine .node fun s' hs' => ?_
    obtain rfl := Option.some.inj (hs.symm.trans hs')
    exact ih

theorem of_keepsNodes (h : t.Whole n) (hkeeps : t.KeepsNodes t') : t'.Whole n := by
  induction h with
  | node hs _ ih =>
    obtain ⟨s', hs', hnode⟩ := hkeeps _ _ hs
    exact .node hs' fun c hc => ih c (hnode ▸ hc)

/-- Nothing comes to stand below a whole subtree whose nodes stay. -/
theorem under_of_keepsNodes (h : t.Whole m) (hkeeps : t.KeepsNodes t') (hunder : t'.Under m j n) :
    t.Under m j n := by
  induction hunder with
  | self _ =>
    obtain ⟨s, hs⟩ := h.exists_slot
    exact .self hs
  | child _ hs hc _ ih =>
    have hwhole := h.of_under ih
    obtain ⟨s, hs₀⟩ := hwhole.exists_slot
    obtain ⟨s', hs', hnode⟩ := hkeeps _ s hs₀
    obtain rfl := Option.some.inj (hs.symm.trans hs')
    rw [hnode] at hc
    obtain ⟨sc, hsc⟩ := (hwhole.of_mem_children hs₀ hc).exists_slot
    exact .child ih hs₀ hc hsc

theorem within_of_keepsNodes (h : t.Whole n) (hkeeps : t.KeepsNodes t')
    (hwithin : t.Within limit n) :
    t'.Within limit n := fun j m hunder => hwithin j m (h.under_of_keepsNodes hkeeps hunder)

end Whole

end MethodFlow.Tree
