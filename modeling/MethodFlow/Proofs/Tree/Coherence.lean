import MethodFlow.Proofs.Tree.Phi

/-!
Ownership that can be relied on. A node in use that lists another as its child is that child's
parent, and a statement has none. A link leads to a node that was made, in use or not.
-/

namespace MethodFlow.Tree

variable {t t' : Tree} {n c m : NodeId} {s s' : Slot}

/-- A link of the node leads to one of the first `size` nodes. -/
def LinksBelow (size : Nat) (node : Node) : Prop :=
  ∀ o d, node = .occurrence o → o.link = some d → d.index < size

/-- Children in use know their parent, and no node lists a child twice. -/
structure Coherent (t : Tree) : Prop where
  root : ∀ n s, t.slot? n = some s → s.node.isStatement = true → s.parent = none
  nodup : ∀ n s, t.slot? n = some s → s.node.children.Nodup
  inside : ∀ n s, t.slot? n = some s → ∀ c ∈ s.node.children, c.index < t.size
  owned : ∀ n s, t.slot? n = some s → ∀ c ∈ s.node.children, ∀ sc, t.slot? c = some sc →
    sc.parent = some n
  linked : ∀ n s, t.slot? n = some s → LinksBelow t.size s.node

section adopting

variable {node : Node} {sm : Slot} (ha : Adopts t.next node.children (t.push { node }) t')
  (hdetached : ∀ c ∈ node.children, t.Detached c) (hm : t'.slot? m = some sm)

include ha hdetached hm

theorem Adopts.slot?_cases : (m = t.next ∧ sm = { node }) ∨
    (m ∈ node.children ∧ ∃ old, t.slot? m = some old ∧ old.node.isStatement = false ∧
      sm = { old with parent := some t.next }) ∨
    (m ≠ t.next ∧ m ∉ node.children ∧ t.slot? m = some sm) := by
  rw [ha.2] at hm
  by_cases hc : m ∈ node.children
  · obtain ⟨old, hold, hkind, -⟩ := hdetached m hc
    rw [if_pos hc, slot?_push, if_neg (ne_next (index_lt_size hold)), hold] at hm
    exact .inr (.inl ⟨hc, old, hold, hkind, (Option.some.inj hm).symm⟩)
  · rw [if_neg hc, slot?_push] at hm
    by_cases he : m = t.next
    · rw [if_pos he] at hm
      exact .inl ⟨he, (Option.some.inj hm).symm⟩
    · rw [if_neg he] at hm
      exact .inr (.inr ⟨he, hc, hm⟩)

theorem Adopts.node_cases :
    m = t.next ∧ sm.node = node ∨ ∃ old, t.slot? m = some old ∧ sm.node = old.node := by
  rcases ha.slot?_cases hdetached hm with ⟨he, rfl⟩ | ⟨-, old, hold, -, rfl⟩ | ⟨-, -, hold⟩
  · exact .inl ⟨he, rfl⟩
  · exact .inr ⟨old, hold, rfl⟩
  · exact .inr ⟨sm, hold, rfl⟩

end adopting

namespace Coherent

theorem not_mem_children (h : t.Coherent) (hc : t.slot? c = some s) (hp : s.parent = none)
    (hm : t.slot? m = some s') : c ∉ s'.node.children := fun hmem => by
  simp [h.owned m s' hm c hmem s hc] at hp

theorem isStatement_of_mem_children (h : t.Coherent) (hn : t.slot? n = some s)
    (hc : c ∈ s.node.children) (hs : t.slot? c = some s') : s'.node.isStatement = false := by
  cases hkind : s'.node.isStatement with
  | false => rfl
  | true =>
    have howned := h.owned n s hn c hc s' hs
    simp [h.root c s' hs hkind] at howned

theorem of_prunes (h : t.Coherent) (hp : t.Prunes t') : t'.Coherent := by
  have hback {m : NodeId} {s : Slot} (hs : t'.slot? m = some s) : t.slot? m = some s := by
    rcases hp.2 m with hsame | hgone
    · rwa [← hsame]
    · simp [hgone] at hs
  refine ⟨fun m s hs => h.root m s (hback hs), fun m s hs => h.nodup m s (hback hs),
    fun m s hs c hm => ?_, fun m s hs c hm sc hsc => h.owned m s (hback hs) c hm sc (hback hsc),
    fun m s hs => ?_⟩
  · rw [hp.1]
    exact h.inside m s (hback hs) c hm
  · rw [hp.1]
    exact h.linked m s (hback hs)

/-- One slot is written. What the new node lists is its own, and whoever lists it is its parent. -/
theorem put (h : t.Coherent) (hs : t.slot? n = some s)
    (hroot : s'.node.isStatement = true → s'.parent = none) (nodup : s'.node.children.Nodup)
    (hinside : ∀ c ∈ s'.node.children, c.index < t.size)
    (howned : ∀ c ∈ s'.node.children, ∀ sc, (t.put n s').slot? c = some sc → sc.parent = some n)
    (hparent : ∀ m sm, m ≠ n → t.slot? m = some sm → n ∈ sm.node.children → s'.parent = some m)
    (hlinked : LinksBelow t.size s'.node) : (t.put n s').Coherent := by
  refine ⟨fun m sm hm hkind => ?_, fun m sm hm => ?_, fun m sm hm c hc => ?_,
    fun m sm hm c hc sc hsc => ?_, fun m sm hm => ?_⟩
  · rcases slot?_put_cases hs hm with ⟨-, rfl⟩ | ⟨-, hm⟩
    · exact hroot hkind
    · exact h.root m sm hm hkind
  · rcases slot?_put_cases hs hm with ⟨-, rfl⟩ | ⟨-, hm⟩
    · exact nodup
    · exact h.nodup m sm hm
  · rw [size_put]
    rcases slot?_put_cases hs hm with ⟨-, rfl⟩ | ⟨-, hm⟩
    · exact hinside c hc
    · exact h.inside m sm hm c hc
  · rcases slot?_put_cases hs hm with ⟨rfl, rfl⟩ | ⟨hne, hold⟩
    · exact howned c hc sc hsc
    · rcases slot?_put_cases hs hsc with ⟨rfl, rfl⟩ | ⟨-, holdc⟩
      · exact hparent m sm hne hold hc
      · exact h.owned m sm hold c hc sc holdc
  · rw [size_put]
    rcases slot?_put_cases hs hm with ⟨-, rfl⟩ | ⟨-, hm⟩
    · exact hlinked
    · exact h.linked m sm hm

theorem give (h : t.Coherent) (hs : t.slot? n = some s)
    (hfree : ∀ m sm, t.slot? m = some sm → n ∉ sm.node.children) {parent : Option NodeId}
    (hroot : s.node.isStatement = true → parent = none) :
    (t.put n { s with parent }).Coherent := by
  refine h.put hs hroot (h.nodup n s hs) (h.inside n s hs) ?_ ?_ (h.linked n s hs)
  · intro c hmem sc hsc
    have hne : c ≠ n := fun he => hfree n s hs (he ▸ hmem)
    rw [slot?_put_of_slot hs, if_neg hne] at hsc
    exact h.owned n s hs c hmem sc hsc
  · exact fun m sm _ hm hmem => absurd hmem (hfree m sm hm)

theorem relist (h : t.Coherent) (hs : t.slot? n = some s) {node : Node}
    (hkind : node.isStatement = s.node.isStatement) (nodup : node.children.Nodup)
    (hchildren : ∀ c ∈ node.children, c ∈ s.node.children ∨
      ∃ sc, t.slot? c = some sc ∧ sc.parent = some n) (hlinked : LinksBelow t.size node) :
    (t.put n { s with node }).Coherent := by
  refine h.put hs (fun hst => h.root n s hs (hkind ▸ hst)) nodup ?_ ?_ ?_ hlinked
  · intro c hc
    rcases hchildren c hc with hold | ⟨sc, hsc, -⟩
    · exact h.inside n s hs c hold
    · exact index_lt_size hsc
  · intro c hc sc hsc
    obtain ⟨sc', hsc', hparent⟩ : ∃ sc', t.slot? c = some sc' ∧ sc'.parent = sc.parent := by
      rcases slot?_put_cases hs hsc with ⟨rfl, rfl⟩ | ⟨-, hsc⟩
      · exact ⟨s, hs, rfl⟩
      · exact ⟨sc, hsc, rfl⟩
    rw [← hparent]
    rcases hchildren c hc with hold | ⟨sc'', hsc'', hown⟩
    · exact h.owned n s hs c hold sc' hsc'
    · obtain rfl : sc' = sc'' := by simpa [hsc'] using hsc''
      exact hown
  · exact fun m sm _ hm hmem => h.owned m sm hm n hmem s hs

theorem put_occurrence (h : t.Coherent) {o o' : Occurrence} (hs : t.slot? n = some s)
    (ho : s.node = .occurrence o)
    (hlinked : ∀ d, o'.link = some d → o.link = some d ∨ d.index < t.size) :
    (t.put n { s with node := .occurrence o' }).Coherent := by
  have hnone : (Node.occurrence o').children = [] := rfl
  refine h.relist hs (by rw [ho]; rfl) (by simp [hnone]) (by simp [hnone]) ?_
  rintro _ d ⟨⟩ hd
  exact (hlinked d hd).elim (h.linked n s hs o d ho) id

/-- A node may be moved to another block. -/
theorem put_block (h : t.Coherent) (hs : t.slot? n = some s) (block : Option BlockId) :
    (t.put n { s with block }).Coherent := by
  refine h.put hs (h.root n s hs) (h.nodup n s hs) (h.inside n s hs) (fun c hc sc hsc => ?_)
    (fun m sm _ hm hmem => h.owned m sm hm n hmem s hs) (h.linked n s hs)
  rcases slot?_put_cases hs hsc with ⟨rfl, rfl⟩ | ⟨-, hsc⟩
  · exact h.owned c s hs c hc s hs
  · exact h.owned n s hs c hc sc hsc

theorem adopts {node : Node} (h : t.Coherent) (nodup : node.children.Nodup)
    (hdetached : ∀ c ∈ node.children, t.Detached c) (hlinked : LinksBelow t.size node)
    (ha : Adopts t.next node.children (t.push { node }) t') : t'.Coherent := by
  have hsize : t'.size = t.size + 1 := ha.1.trans (size_push _)
  refine ⟨fun m sm hm hkind => ?_, fun m sm hm => ?_, fun m sm hm c hc => ?_,
    fun m sm hm c hc sc hsc => ?_, fun m sm hm o d ho hd => ?_⟩
  · rcases ha.slot?_cases hdetached hm with ⟨-, rfl⟩ | ⟨-, old, -, hstatement, rfl⟩ | ⟨-, -, hold⟩
    · rfl
    · simp [hstatement] at hkind
    · exact h.root m sm hold hkind
  · rcases ha.node_cases hdetached hm with ⟨-, he⟩ | ⟨old, hold, he⟩
    · rwa [he]
    · rw [he]
      exact h.nodup m old hold
  · rcases ha.node_cases hdetached hm with ⟨-, he⟩ | ⟨old, hold, he⟩
    · obtain ⟨s, hs, -⟩ := hdetached c (he ▸ hc)
      have := index_lt_size hs
      omega
    · have := h.inside m old hold c (he ▸ hc)
      omega
  · rcases ha.node_cases hdetached hm with ⟨rfl, he⟩ | ⟨old, hold, he⟩
    · rw [he] at hc
      rcases ha.slot?_cases hdetached hsc with ⟨rfl, -⟩ | ⟨-, _, -, -, rfl⟩ | ⟨-, hout, -⟩
      · obtain ⟨s, hs, -⟩ := hdetached _ hc
        exact absurd rfl (ne_next (index_lt_size hs))
      · rfl
      · exact absurd hc hout
    · rw [he] at hc
      rcases ha.slot?_cases hdetached hsc with ⟨rfl, -⟩ | ⟨hin, -⟩ | ⟨-, -, hsc⟩
      · exact absurd (h.inside m old hold _ hc) (Nat.lt_irrefl _)
      · obtain ⟨sc', hsc', -, hp⟩ := hdetached c hin
        exact absurd hc (h.not_mem_children hsc' hp hold)
      · exact h.owned m old hold c hc sc hsc
  · rcases ha.node_cases hdetached hm with ⟨-, he⟩ | ⟨old, hold, he⟩
    · have := hlinked o d (he ▸ ho) hd
      omega
    · have := h.linked m old hold o d (he ▸ ho) hd
      omega

end Coherent

/-- Whoever is a node's parent does not list it. -/
def Stray (t : Tree) (n : NodeId) : Prop :=
  ∀ s p sp, t.slot? n = some s → s.parent = some p → t.slot? p = some sp → n ∉ sp.node.children

theorem Coherent.leave (h : t.Coherent) (hs : t.slot? n = some s) (hstray : t.Stray n) :
    (t.put n { s with parent := none }).Coherent :=
  h.give hs (fun m sm hm hmem => hstray s m sm hs (h.owned m sm hm n hmem s hs) hm hmem)
    fun _ => rfl

end MethodFlow.Tree
