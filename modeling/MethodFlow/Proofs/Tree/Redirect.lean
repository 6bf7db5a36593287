import MethodFlow.Proofs.Tree.Repeats

/-!
Work on one variable of a finished tree: uses are linked to other definitions, and phis are removed.
Nothing that belongs to other variables changes.
-/

namespace MethodFlow.Tree

variable {v : Var} {t t' t'' : Tree} {n m target d : NodeId} {p : Phi} {block : Option BlockId}

/-- Only occurrences of `v` and phis of `v` differ, and nothing is new. -/
structure Touches (v : Var) (t t' : Tree) : Prop where
  size : t'.size = t.size
  kept : ∀ m s, t.slot? m = some s → t'.slot? m = some s ∨
    (∃ o, s.node = .occurrence o ∧ o.var = v) ∨ ∃ p, s.node = .phi p ∧ t.varOf p.target = .ok v
  back : ∀ m w, t'.varOf m = .ok w → t.varOf m = .ok w
  live : ∀ m, t'.isLive m = true → t.isLive m = true

namespace Touches

theorem refl (v : Var) (t : Tree) : Touches v t t :=
  ⟨rfl, fun _ _ hs => .inl hs, fun _ _ h => h, fun _ h => h⟩

theorem trans (h : Touches v t t') (h' : Touches v t' t'') : Touches v t t'' := by
  refine ⟨h'.size.trans h.size, fun m s hs => ?_, fun m w hw => h.back m w (h'.back m w hw),
    fun m hm => h.live m (h'.live m hm)⟩
  rcases h.kept m s hs with hs' | hbelongs
  · rcases h'.kept m s hs' with hs'' | hocc | ⟨p, hp, hv⟩
    · exact .inl hs''
    · exact .inr (.inl hocc)
    · exact .inr (.inr ⟨p, hp, h.back _ _ hv⟩)
  · exact .inr hbelongs

theorem slot?_of_varOf (h : Touches v t t') {w : Var} (hm : t.varOf m = .ok w) (hne : w ≠ v) :
    t'.slot? m = t.slot? m := by
  obtain ⟨o, ho, rfl⟩ := varOf_ok.1 hm
  obtain ⟨s, hs, hnode⟩ := node?_eq_some.1 ho
  rw [hs]
  rcases h.kept m s hs with hs' | ⟨o', ho', hv⟩ | ⟨p, hp, -⟩
  · exact hs'
  · exact absurd ((Node.occurrence.inj (hnode.symm.trans ho')) ▸ hv) hne
  · simp [hp] at hnode

theorem slot?_of_ne (h : Touches v t t') {o : Occurrence} {parent : Option NodeId}
    (hm : t.slot? m = some ⟨.occurrence o, parent, block⟩) (hne : o.var ≠ v) :
    t'.slot? m = t.slot? m :=
  h.slot?_of_varOf (varOf_ok.2 ⟨o, node?_eq_some.2 ⟨_, hm, rfl⟩, rfl⟩) hne

theorem slot?_of_holdsPhi (h : Touches v t t') {w : Var} (hp : t.HoldsPhi w n p block) (hne : w ≠ v)
    (hm : m ∈ HoldsPhi.nodes n p) : t'.slot? m = t.slot? m := by
  rcases List.mem_cons.1 hm with rfl | hm
  · rw [hp.slot]
    rcases h.kept m _ hp.slot with hs' | ⟨o, ho, -⟩ | ⟨p', hp', hv⟩
    · exact hs'
    · simp at ho
    · obtain rfl := Node.phi.inj hp'
      obtain ⟨o, ho, hw, -⟩ := hp.target
      obtain ⟨o', ho', hv⟩ := varOf_ok.1 hv
      obtain rfl : o = o' := by simpa [node?, ho] using ho'
      exact absurd (hw.symm.trans hv) hne
  · obtain ⟨o, ho, hw⟩ := hp.owned hm
    exact h.slot?_of_ne ho (hw ▸ hne)

/-- The phis of other variables are kept. -/
theorem holdsPhi (h : Touches v t t') {w : Var} (hp : t.HoldsPhi w n p block) (hne : w ≠ v) :
    t'.HoldsPhi w n p block := hp.of_slots fun _ hq => h.slot?_of_holdsPhi hp hne hq

theorem of_holdsPhi (hp : t.HoldsPhi v n p block) (hsize : t'.size = t.size)
    (hphi : t'.slot? n = none ∨ ∃ p', t'.slot? n = some ⟨.phi p', none, block⟩)
    (howned : ∀ m ∈ p.target :: p.operands, t'.slot? m = t.slot? m ∨ t'.slot? m = none)
    (hother : ∀ m, m ≠ n → m ∉ p.target :: p.operands → t'.slot? m = t.slot? m) :
    Touches v t t' := by
  have hcases (m : NodeId) (hm : m ≠ n) : t'.slot? m = t.slot? m ∨ t'.slot? m = none := by
    by_cases hin : m ∈ p.target :: p.operands
    · exact howned m hin
    · exact .inl (hother m hm hin)
  refine ⟨hsize, fun m s hs => ?_, fun m w hw => ?_, fun m hm => ?_⟩
  · by_cases hmn : m = n
    · subst hmn
      obtain rfl : s = _ := Option.some.inj (hs.symm.trans hp.slot)
      obtain ⟨o, ho, hv, -⟩ := hp.target
      exact .inr (.inr ⟨p, rfl, varOf_ok.2 ⟨o, node?_eq_some.2 ⟨_, ho, rfl⟩, hv⟩⟩)
    · by_cases hin : m ∈ p.target :: p.operands
      · obtain ⟨o, ho, hv⟩ := hp.owned hin
        obtain rfl : s = _ := Option.some.inj (hs.symm.trans ho)
        exact .inr (.inl ⟨o, rfl, hv⟩)
      · exact .inl ((hother m hmn hin).trans hs)
  · obtain ⟨o, ho, hv⟩ := varOf_ok.1 hw
    obtain ⟨s, hs, hnode⟩ := node?_eq_some.1 ho
    have hmn : m ≠ n := by
      rintro rfl
      rcases hphi with hnone | ⟨p', hp'⟩
      · simp [hnone] at hs
      · rw [hp', Option.some.injEq] at hs
        simp [← hs] at hnode
    rcases hcases m hmn with hsame | hnone
    · exact varOf_ok.2 ⟨o, node?_eq_some.2 ⟨s, hsame ▸ hs, hnode⟩, hv⟩
    · simp [hnone] at hs
  · by_cases hmn : m = n
    · simp [isLive, hmn, hp.slot]
    · rcases hcases m hmn with hsame | hnone
      · rwa [isLive, hsame] at hm
      · simp [isLive, hnone] at hm

end Touches

theorem Removes.touches (h : t.Removes t' n p) (hp : t.HoldsPhi v n p block) : Touches v t t' :=
  .of_holdsPhi hp h.size (.inl (h.gone n (by simp [HoldsPhi.nodes])))
    (fun m hm => .inr (h.gone m (List.mem_cons_of_mem _ hm))) h.other

theorem Reads.touches {kept : List NodeId} (h : t.Reads t' v n p block kept)
    (hp : t.HoldsPhi v n p block) : Touches v t t' := by
  refine .of_holdsPhi hp h.size (.inr ⟨_, h.holds.slot⟩) (fun m hm => ?_) h.slot?_eq
  by_cases hin : m ∈ p.operands
  · by_cases hkept : m ∈ kept
    · exact .inl (h.same m hkept)
    · exact .inr (h.gone m hin hkept)
  · exact .inl (h.other m (hp.ne_self hm) hin)

/-- Some uses of `v` that linked to `target` link to `d` instead. -/
def Redirects (v : Var) (target d : NodeId) (t t' : Tree) : Prop :=
  t'.size = t.size ∧ ∀ m, t'.slot? m = t.slot? m ∨ ∃ o parent block,
    t.slot? m = some ⟨.occurrence o, parent, block⟩ ∧ o.var = v ∧ o.defines = false ∧
      o.link = some target ∧
      t'.slot? m = some ⟨.occurrence { o with link := some d }, parent, block⟩

namespace Redirects

theorem refl (v : Var) (target d : NodeId) (t : Tree) : Redirects v target d t t :=
  ⟨rfl, fun _ => .inl rfl⟩

theorem trans (h : Redirects v target d t t') (h' : Redirects v target d t' t'')
    (hne : d ≠ target) : Redirects v target d t t'' := by
  refine ⟨h'.1.trans h.1, fun m => ?_⟩
  rcases h'.2 m with hs' | ⟨o, parent, block, hs', hv, hd, hl, hs''⟩
  · rcases h.2 m with hs | ⟨o, parent, block, hs, hv, hd, hl, hm⟩
    · exact .inl (hs'.trans hs)
    · exact .inr ⟨o, parent, block, hs, hv, hd, hl, hs'.trans hm⟩
  · rcases h.2 m with hs | ⟨o', parent', block', -, -, -, -, hm⟩
    · exact .inr ⟨o, parent, block, hs ▸ hs', hv, hd, hl, hs''⟩
    · rw [hs', Option.some.injEq, Slot.mk.injEq, Node.occurrence.injEq] at hm
      rw [hm.1, Option.some.injEq] at hl
      exact absurd hl hne

theorem retouched (h : Redirects v target d t t') :
    Retouched (fun m w => w = v ∧ t.varOf m = .ok v ∧ t.linkOf m = .ok (some target)) t t' := by
  refine ⟨Nat.le_of_eq h.1.symm, fun m s hs => ?_, fun m _ hs => ?_⟩
  · rcases h.2 m with hsame | ⟨o, parent, block, hs', hv, -, hl, hm⟩
    · exact ⟨s, hsame.trans hs, .inl rfl⟩
    · obtain rfl : s = _ := Option.some.inj (hs.symm.trans hs')
      have ho : t.node? m = some (.occurrence o) := node?_eq_some.2 ⟨_, hs', rfl⟩
      exact ⟨_, hm, .inr ⟨o, some d, o.version, rfl,
        ⟨hv, varOf_ok.2 ⟨o, ho, hv⟩, linkOf_ok.2 ⟨o, ho, hl⟩⟩, rfl⟩⟩
  · rcases h.2 m with hsame | ⟨o, parent, block, hs', -⟩
    · exact hsame.trans hs
    · simp [hs] at hs'

theorem touches (h : Redirects v target d t t') : Touches v t t' := by
  refine ⟨h.1, fun m s hs => ?_, fun m w hw => ?_, fun m hm => ?_⟩
  · rcases h.2 m with hsame | ⟨o, parent, block, hs', hv, -⟩
    · exact .inl (hsame.trans hs)
    · obtain rfl : s = _ := Option.some.inj (hs.symm.trans hs')
      exact .inr (.inl ⟨o, rfl, hv⟩)
  · rcases h.2 m with hsame | ⟨o, parent, block, hs', -, -, -, hm⟩
    · rw [varOf_ok, node?, hsame] at hw
      exact varOf_ok.2 hw
    · obtain ⟨o', ho', rfl⟩ := varOf_ok.1 hw
      rw [node?, hm, Option.map_some, Option.some.injEq, Node.occurrence.injEq] at ho'
      exact varOf_ok.2 ⟨o, node?_eq_some.2 ⟨_, hs', rfl⟩, by rw [← ho']⟩
  · rcases h.2 m with hsame | ⟨o, parent, block, hs', -⟩
    · rwa [isLive, hsame] at hm
    · simp [isLive, hs']

theorem definitionOf (h : Redirects v target d t t') {x : Option NodeId}
    (hx : t.definitionOf m = .ok x) : t'.definitionOf m = .ok x ∨
      x = some target ∧ t'.definitionOf m = .ok (some d) := by
  obtain ⟨o, ho, rfl⟩ := definitionOf_ok.1 hx
  rcases h.2 m with hsame | ⟨o', parent, block, hs', -, hd, hl, hm⟩
  · exact .inl (definitionOf_ok.2 ⟨o, by rwa [node?, hsame], rfl⟩)
  · obtain rfl : o' = o := by simpa [node?, hs'] using ho
    refine .inr ⟨by simp [Occurrence.definition, hd, hl], ?_⟩
    exact definitionOf_ok.2 ⟨_, node?_eq_some.2 ⟨_, hm, rfl⟩, by simp [Occurrence.definition, hd]⟩

theorem linkOf (h : Redirects v target d t t') {x : Option NodeId} (hx : t'.linkOf m = .ok x) :
    t.linkOf m = .ok x ∨ x = some d ∧ t.linkOf m = .ok (some target) := by
  obtain ⟨o, ho, rfl⟩ := linkOf_ok.1 hx
  rcases h.2 m with hsame | ⟨o', parent, block, hs', -, -, hl, hm⟩
  · exact .inl (linkOf_ok.2 ⟨o, by rwa [node?, ← hsame], rfl⟩)
  · obtain rfl : _ = o := by simpa [node?, hm] using ho
    exact .inr ⟨rfl, linkOf_ok.2 ⟨o', node?_eq_some.2 ⟨_, hs', rfl⟩, hl⟩⟩

end Redirects

theorem redirects_of_setLink {u : Unit} (h : setLink n (some d) t = .ok u t')
    (hn : t.linkOf n = .ok (some target)) (hv : t.varOf n = .ok v) :
    Redirects v target d t t' ∧ t'.linkOf n = .ok (some d) := by
  obtain ⟨⟨node, parent, block⟩, o, hs, rfl, huse, -, rfl⟩ := setLink_ok h
  have ho : t.node? n = some (.occurrence o) := node?_eq_some.2 ⟨_, hs, rfl⟩
  obtain ⟨o₁, ho₁, hl⟩ := linkOf_ok.1 hn
  obtain rfl : o = o₁ := by simpa [ho] using ho₁
  obtain ⟨o₂, ho₂, hvar⟩ := varOf_ok.1 hv
  obtain rfl : o = o₂ := by simpa [ho] using ho₂
  have hput := slot?_put_of_slot hs ⟨.occurrence { o with link := some d }, parent, block⟩
  refine ⟨⟨size_put _, fun m => ?_⟩, ?_⟩
  · by_cases hm : m = n
    · subst hm
      exact .inr ⟨o, parent, block, hs, hvar, huse, hl, by rw [hput, if_pos rfl]⟩
    · exact .inl (by rw [hput, if_neg hm])
  · exact linkOf_ok.2 ⟨_, node?_eq_some.2 ⟨_, by rw [hput, if_pos rfl], rfl⟩, rfl⟩

end MethodFlow.Tree
