import MethodFlow.Proofs.Tree.Copying

/-!
Parents and children. The parent of a node lists it, and what a node lists is in use, unless a node
is removed from below another one.
-/

namespace MethodFlow.Tree

open Edit

variable {t t' : Tree} {n c p : NodeId} {s sp : Slot} {node : Node} {old : Option NodeId}

/-- The parent of a node in use lists it, unless the node is one of `loose`. -/
def Listed (loose : List NodeId) (t : Tree) : Prop :=
  ∀ n s p, t.slot? n = some s → s.parent = some p → n ∉ loose →
    ∃ sp, t.slot? p = some sp ∧ n ∈ sp.node.children

/-- What a node in use lists is in use. -/
def Present (t : Tree) : Prop :=
  ∀ n s, t.slot? n = some s → ∀ c ∈ s.node.children, ∃ sc, t.slot? c = some sc

section slots

theorem Listed.of_slots {loose : List NodeId} (h : t.Listed loose)
    (hback : ∀ x s', t'.slot? x = some s' → ∃ s, t.slot? x = some s ∧ s'.parent = s.parent)
    (hforth : ∀ x s, t.slot? x = some s →
      ∃ s', t'.slot? x = some s' ∧ ∀ c ∈ s.node.children, c ∈ s'.node.children) :
    t'.Listed loose := by
  intro x s' p hx hp hout
  obtain ⟨s, hs, hparent⟩ := hback x s' hx
  obtain ⟨sp, hsp, hmem⟩ := h x s p hs (hparent ▸ hp) hout
  obtain ⟨sp', hsp', hall⟩ := hforth p sp hsp
  exact ⟨sp', hsp', hall x hmem⟩

theorem Present.of_slots (h : t.Present)
    (hback : ∀ x s', t'.slot? x = some s' →
      ∃ s, t.slot? x = some s ∧ ∀ c ∈ s'.node.children, c ∈ s.node.children)
    (hforth : ∀ x s, t.slot? x = some s → ∃ s', t'.slot? x = some s') : t'.Present := by
  intro x s' hx c hc
  obtain ⟨s, hs, hall⟩ := hback x s' hx
  obtain ⟨sc, hsc⟩ := h x s hs c (hall c hc)
  exact hforth c sc hsc

theorem Present.put (h : t.Present) (hs : t.slot? n = some s) {s' : Slot}
    (hsub : ∀ c ∈ s'.node.children, c ∈ s.node.children) : (t.put n s').Present := by
  refine h.of_slots (fun x sx hx => ?_) fun x sx hx => ?_
  · rcases slot?_put_cases hs hx with ⟨rfl, rfl⟩ | ⟨-, hx⟩
    · exact ⟨s, hs, hsub⟩
    · exact ⟨sx, hx, fun _ => id⟩
  · obtain ⟨new, hnew, -⟩ := exists_slot?_put hs s' hx
    exact ⟨new, hnew⟩

/-- A node may stop listing what is loose from then on, and one that was loose may leave its
parent. -/
theorem Listed.put {loose loose' : List NodeId} (h : t.Listed loose) (hs : t.slot? n = some s)
    {s' : Slot} (hparent : ∀ p, s'.parent = some p → s.parent = some p)
    (hkept : ∀ c ∈ s.node.children, c ∉ loose' → c ∈ s'.node.children)
    (hloose : ∀ x ∈ loose, x ∉ loose' → x = n ∧ s'.parent = none) : (t.put n s').Listed loose' := by
  intro x sx p hx hp hout
  obtain ⟨sp, hsp, hmem⟩ : ∃ sp, t.slot? p = some sp ∧ x ∈ sp.node.children := by
    rcases slot?_put_cases hs hx with ⟨rfl, rfl⟩ | ⟨hne, hx⟩
    · exact h x s p hs (hparent p hp) fun hin => by simp [(hloose x hin hout).2] at hp
    · exact h x sx p hx hp fun hin => hne (hloose x hin hout).1
  obtain ⟨new, hnew, ⟨rfl, rfl, rfl⟩ | ⟨-, rfl⟩⟩ := exists_slot?_put hs s' hsp
  · exact ⟨_, hnew, hkept x hmem hout⟩
  · exact ⟨_, hnew, hmem⟩

end slots

section making

variable (hdetached : ∀ c ∈ node.children, t.Detached c)
  (ha : Adopts t.next node.children (t.push { node }) t')

include hdetached ha

theorem Adopts.slots : t'.slot? t.next = some { node } ∧
    (∀ x s, t.slot? x = some s → t'.slot? x =
      some (if x ∈ node.children then { s with parent := some t.next } else s)) ∧
    ∀ x s, t'.slot? x = some s → x = t.next ∨ ∃ old, t.slot? x = some old := by
  have hlt {x : NodeId} {s : Slot} (hx : t.slot? x = some s) : x ≠ t.next :=
    ne_next (index_lt_size hx)
  refine ⟨?_, fun x s hx => ?_, fun x s hx => ?_⟩
  · have hout : t.next ∉ node.children := fun hmem => by
      obtain ⟨s, hs, -⟩ := hdetached _ hmem
      exact hlt hs rfl
    rw [ha.2, if_neg hout, slot?_push, if_pos rfl]
  · rw [ha.2, slot?_push, if_neg (hlt hx), hx]
    split <;> rfl
  · rcases ha.node_cases hdetached hx with ⟨he, -⟩ | ⟨old, hold, -⟩
    · exact .inl he
    · exact .inr ⟨old, hold⟩

theorem Listed.make (h : t.Listed []) : t'.Listed [] := by
  obtain ⟨hnew, hold, hcases⟩ := ha.slots hdetached
  intro x sx p hx hp hout
  rcases hcases x sx hx with rfl | ⟨old, hxo⟩
  · obtain rfl : sx = { node } := by simpa [hnew] using hx.symm
    simp at hp
  · rw [hold x old hxo, Option.some.injEq] at hx
    by_cases hc : x ∈ node.children
    · rw [if_pos hc] at hx
      obtain rfl : t.next = p := by simpa [← hx] using hp
      exact ⟨_, hnew, hc⟩
    · rw [if_neg hc] at hx
      obtain ⟨sp, hsp, hmem⟩ := h x old p hxo (hx ▸ hp) hout
      refine ⟨_, hold p sp hsp, ?_⟩
      split <;> exact hmem

theorem Present.make (h : t.Present) : t'.Present := by
  obtain ⟨hnew, hold, hcases⟩ := ha.slots hdetached
  intro x sx hx c hc
  rcases hcases x sx hx with rfl | ⟨old, hxo⟩
  · obtain rfl : sx = { node } := by simpa [hnew] using hx.symm
    obtain ⟨s, hs, -⟩ := hdetached c hc
    exact ⟨_, hold c s hs⟩
  · rw [hold x old hxo, Option.some.injEq] at hx
    have hmem : c ∈ old.node.children := by
      rw [← hx] at hc
      split at hc <;> exact hc
    obtain ⟨s, hs⟩ := h x old hxo c hmem
    exact ⟨_, hold c s hs⟩

end making

section taking

theorem Listed.handsOver (h : t.Listed []) (ho : HandsOver t t' p c node old)
    (hp : t.slot? p = some sp) (hentered : c ∈ node.children)
    (hkept : ∀ x ∈ sp.node.children, old ≠ some x → x ∈ node.children) : t'.Listed [] := by
  intro x s' q hx hq hout
  obtain ⟨s, hs, he⟩ := ho.back x s' hx
  by_cases hold : old = some x
  · rw [if_pos hold] at he
    simp [he] at hq
  rw [if_neg hold] at he
  by_cases hxc : x = c
  · rw [if_pos hxc] at he
    obtain rfl : p = q := by simpa [he] using hq
    obtain ⟨sp', hsp', hnode⟩ := ho.forth p sp hp
    rw [if_pos rfl] at hnode
    exact ⟨sp', hsp', hnode ▸ hxc ▸ hentered⟩
  · rw [if_neg hxc] at he
    obtain ⟨sq, hsq, hmem⟩ := h x s q hs (he ▸ hq) hout
    obtain ⟨sq', hsq', hnode⟩ := ho.forth q sq hsq
    refine ⟨sq', hsq', ?_⟩
    by_cases hqp : q = p
    · subst hqp
      obtain rfl : sq = sp := by simpa [hsq] using hp
      rw [hnode, if_pos rfl]
      exact hkept x hmem hold
    · rwa [hnode, if_neg hqp]

theorem Present.handsOver (h : t.Present) (ho : HandsOver t t' p c node old)
    (htakes : t.Takes p sp c node old) : t'.Present := by
  intro x s' hx y hy
  obtain ⟨s, hs, -⟩ := ho.back x s' hx
  obtain ⟨s'', hs'', hnode⟩ := ho.forth x s hs
  obtain rfl : s' = s'' := by simpa [hx] using hs''
  have hlive : ∃ sy, t.slot? y = some sy := by
    by_cases hxp : x = p
    · subst hxp
      rw [hnode, if_pos rfl] at hy
      rcases htakes.mem y hy with rfl | hmem
      · obtain ⟨sc, hsc, -⟩ := htakes.detached
        exact ⟨sc, hsc⟩
      · exact h x sp htakes.slot y hmem
    · rw [hnode, if_neg hxp] at hy
      exact h x s hs y hy
  obtain ⟨sy, hsy⟩ := hlive
  obtain ⟨sy', hsy', -⟩ := ho.forth y sy hsy
  exact ⟨sy', hsy'⟩

end taking

section removing

/-- Who goes takes its children along, so the parent of a node that stays stays too. -/
theorem Listed.clears {tops : NodeId → Prop} {loose : List NodeId} (h : t.Listed loose)
    (hc : Clears tops t t') : t'.Listed loose := by
  intro x s p hx hp hout
  obtain ⟨sp, hsp, hmem⟩ := h x s p (hc.slot? hx) hp hout
  rcases hc.prunes.2 p with hsame | hgone
  · exact ⟨sp, hsame.trans hsp, hmem⟩
  · simp [hc.down p sp x s hsp hgone hmem (hc.slot? hx) hp] at hx

theorem Present.clears (h : t.Present) (coherent : t.Coherent) (hc : Clears (· = n) t t')
    (hn : ∀ s, t.slot? n = some s → s.parent = none) : t'.Present := by
  intro x s hx y hy
  obtain ⟨sy, hsy⟩ := h x s (hc.slot? hx) y hy
  have hparent := coherent.owned x s (hc.slot? hx) y hy sy hsy
  rcases hc.prunes.2 y with hsame | hgone
  · exact ⟨sy, hsame.trans hsy⟩
  · rcases hc.up y sy hsy hgone with rfl | ⟨q, hq, hout⟩
    · simp [hn sy hsy] at hparent
    · obtain rfl : q = x := by simpa [hq] using hparent
      simp [hout] at hx

end removing

end MethodFlow.Tree
