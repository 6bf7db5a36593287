import MethodFlow.Proofs.Ssa.Replacement
import MethodFlow.Proofs.Tree.Origins

/-!
What the uses of a variable stand for, seen through the phis on its roster. A phi that merges one
definition may give way to it, however the phis refer to themselves and to each other.
-/

namespace MethodFlow

open Relation

namespace Roster

variable {o : SsaOptions} {base f f' : FlowGraph} {v w : Var} {scope : NodeId → Var → Prop}
  {reals : BlockId → List NodeId} {nodes : List NodeId} {r : Roster} {b c : BlockId}
  {d e n phi target x y : NodeId} {p q : Phi}

/-- The definitions that a use stands for, which are no targets of phis on the roster. -/
def origins (r : Roster) (f : FlowGraph) (n : NodeId) : Set NodeId :=
  f.tree.origins {phi | ∃ b, r.phi? b = some phi} n

theorem mem_origins : e ∈ r.origins f n ↔ (∀ c, r.targetAt? f c ≠ some e) ∧
    ∃ x, f.tree.linkOf n = .ok (some x) ∧
      ReflTransGen (f.tree.PassesTo {phi | ∃ b, r.phi? b = some phi}) x e := by
  refine and_congr_left fun _ => ⟨fun h c htarget => ?_, fun h phi ⟨c, hphi⟩ htarget => ?_⟩
  · obtain ⟨phi, hphi, htarget⟩ := Option.bind_eq_some_iff.1 htarget
    cases hx : f.tree.phiTarget phi with
    | error e => simp [hx, Except.toOption] at htarget
    | ok x => exact h phi ⟨c, hphi⟩ (by simpa [hx, Except.toOption] using htarget)
  · refine h c ?_
    rw [targetAt?, hphi, Option.bind_some, htarget]
    rfl

theorem instead_ne (hne : d ≠ target) : instead target d x ≠ target := by
  rw [instead]
  split
  · exact hne
  · assumption

/-- Whatever is reached in steps of `M` is reached in steps of `M'`, which take `d` for `target`, if
steps from `target` lead there itself or to `d`. -/
theorem reflTransGen_instead {M M' : NodeId → NodeId → Prop} (hne : d ≠ target) (hd : M target d)
    (hsole : ∀ y, M target y → y = target ∨ y = d)
    (hM : ∀ x y, M' x y ↔ x ≠ target ∧ ∃ z, M x z ∧ instead target d z = y) (he : e ≠ target) :
    ReflTransGen M' (instead target d x) e ↔ ReflTransGen M x e := by
  -- What stands for a node is among what it leads to.
  have hown (z : NodeId) : ReflTransGen M z (instead target d z) := by
    rw [instead]
    split
    · next hz => exact hz ▸ .single hd
    · exact .refl
  constructor
  · intro h
    refine (hown x).trans ?_
    clear he
    induction h with
    | refl => exact .refl
    | tail _ hstep ih =>
      obtain ⟨-, z, hz, rfl⟩ := (hM _ _).1 hstep
      exact (ih.tail hz).trans (hown z)
  · intro h
    induction h using ReflTransGen.head_induction_on with
    | refl => rw [instead, if_neg he]
    | @head x z hstep _ ih =>
      by_cases hx : x = target
      · have hsame : instead target d z = instead target d x := by
          rcases hsole z (hx ▸ hstep) with rfl | rfl
          · rw [hx]
          · rw [hx, instead, if_neg hne, instead, if_pos rfl]
        rwa [← hsame]
      · refine ReflTransGen.head ((hM _ _).2 ⟨instead_ne hne, z, ?_, rfl⟩) ih
        rwa [instead, if_neg hx]

/-- Work that leaves the phis of a roster with their targets, and with operands for the same
definitions, leaves what a use stands for. -/
theorem origins_congr (hphis : ∀ c phi, r.phi? c = some phi →
      f'.tree.phiTarget phi = f.tree.phiTarget phi ∧ ∀ d, f'.tree.DrawsOn phi d ↔
        f.tree.DrawsOn phi d)
    (hlink : f'.tree.linkOf n = f.tree.linkOf n) : r.origins f' n = r.origins f n :=
  Tree.origins_congr (fun phi ⟨c, hphi⟩ => hphis c phi hphi) hlink

/-- What a use of one variable stands for is left alone by work on another. -/
theorem origins_touch (h : Prepared (Admits o) base w scope reals r f)
    (ht : Tree.Touches v f.tree f'.tree) (hne : w ≠ v) (hn : f.tree.varOf n = .ok w) :
    r.origins f' n = r.origins f n := by
  have hlinkOf {m : NodeId} (hm : f.tree.varOf m = .ok w) : f'.tree.linkOf m = f.tree.linkOf m :=
    Tree.linkOf_congr (ht.slot?_of_varOf hm hne)
  refine origins_congr (fun c phi hphi => ?_) (hlinkOf hn)
  obtain ⟨p, hp⟩ := h.phi c phi hphi
  have hp' := ht.holdsPhi hp.holds hne
  refine ⟨hp'.phiTarget.trans hp.holds.phiTarget.symm, fun d => ?_⟩
  rw [hp.holds.drawsOn_iff, hp'.drawsOn_iff]
  refine exists_congr fun q => and_congr_right fun hq => ?_
  rw [hlinkOf (hp.holds.occurs_operand hq).varOf]

/-- Reading the operands of a phi leaves it with operands for the same definitions. -/
theorem origins_read {kept : List NodeId} (h : Prepared (Admits o) base v scope reals r f)
    (hphi : r.phi? b = some phi) (hnew : NewPhi (Admits o) base f v b phi p)
    (hread : f.tree.Reads f'.tree v phi p (some b) kept) (hn : n.index < base.tree.size) :
    r.origins f' n = r.origins f n := by
  refine origins_congr (fun c phi' hphi' => ?_)
    (Tree.linkOf_congr (h.slot?_of_relies hphi hnew hread.slot?_eq (.inl hn)))
  by_cases hc : c = b
  · obtain rfl : phi = phi' := Option.some.inj (hphi.symm.trans (hc ▸ hphi'))
    refine ⟨hread.holds.phiTarget.trans hnew.holds.phiTarget.symm, fun d => ?_⟩
    rw [hnew.holds.drawsOn_iff, hread.holds.drawsOn_iff]
    constructor
    · rintro ⟨m, hm, hd⟩
      exact ⟨m, hread.subset hm, by rwa [← Tree.linkOf_congr (hread.same m hm)]⟩
    · rintro ⟨m, hm, hd⟩
      rw [← (hnew.holds.occurs_operand hm).definitionOf] at hd
      obtain ⟨m', hm', hd'⟩ := hread.exists_operand hm hd
      exact ⟨m', hm', by rwa [← (hread.holds.occurs_operand hm').definitionOf]⟩
  · obtain ⟨q, hq⟩ := h.phi c phi' hphi'
    have hslots : ∀ m ∈ Tree.HoldsPhi.nodes phi' q, f'.tree.slot? m = f.tree.slot? m := fun m hm =>
      h.slot?_of_phi hphi hnew hread.slot?_eq hc hphi' hq.holds hm
    have hq' := hq.holds.of_slots hslots
    refine ⟨hq'.phiTarget.trans hq.holds.phiTarget.symm, fun d => ?_⟩
    rw [hq.holds.drawsOn_iff, hq'.drawsOn_iff]
    refine exists_congr fun m => and_congr_right fun hm => ?_
    rw [Tree.linkOf_congr (hslots m (by simp [Tree.HoldsPhi.nodes, hm]))]

namespace Replaced

variable {t : Tree} (h : Replaced o base v scope reals r b phi p d f t f')

include h

/-- A use of the variable links to what it linked to, or to `d` in the place of the target. -/
theorem linkOf (coherent : base.tree.Coherent)
    (hscope : ∀ m, scope m v → ∃ c ∈ base.preorder, m ∈ reals c) (hn : base.tree.Occurs v false n)
    {x : Option NodeId} (hx : f.tree.linkOf n = .ok x) :
    f'.tree.linkOf n = .ok (x.map (instead p.target d)) := by
  have hlt : n.index < base.tree.size := hn.index_lt
  have hocc := h.before.kept.occurs hn
  have hslot := h.middle.slot?_of_relies h.listed h.newPhi h.removes.other (.inl hlt)
  refine h.linkOf_of_occurs hocc hslot (fun htarget => .inl (hscope n ?_)) hx
  exact h.before.scope_of_link coherent hlt (h.new.fresh p.target (by simp [Tree.HoldsPhi.nodes]))
    htarget hocc.varOf

theorem target_ne (hlies : Lies base v reals nodes) (hc : c ≠ b) (hn : r.phi? c = some n)
    (hq : f.tree.HoldsPhi v n q (some c)) : q.target ≠ p.target := by
  refine h.ne_target hlies (List.mem_append_left _ ?_) (.inl hc)
  simp [targetAt?_of_phi? hn hq.node?]

theorem passesTo_iff (hlies : Lies base v reals nodes) :
    f'.tree.PassesTo {phi | ∃ c, (r.setPhi b none).phi? c = some phi} x y ↔ x ≠ p.target ∧
      ∃ z, f.tree.PassesTo {phi | ∃ c, r.phi? c = some phi} x z ∧ instead p.target d z = y := by
  constructor
  · rintro ⟨n, ⟨c, hn⟩, htarget, hdraws⟩
    have hc : c ≠ b := by
      rintro rfl
      simp at hn
    rw [phi?_setPhi_of_ne hc] at hn
    obtain ⟨q, hf, hf', -⟩ := h.holdsPhi hc hn
    obtain rfl := Except.ok.inj (hf'.phiTarget.symm.trans htarget)
    obtain ⟨m, hm, hlink⟩ := hf'.drawsOn_iff.1 hdraws
    obtain ⟨link, hbefore⟩ := (hf.occurs_operand hm).exists_linkOf
    rw [h.linkOf_operand hc hn hf hm hbefore, Except.ok.injEq, Option.map_eq_some_iff] at hlink
    obtain ⟨z, rfl, hz⟩ := hlink
    exact ⟨h.target_ne hlies hc hn hf, z,
      ⟨n, ⟨c, hn⟩, hf.phiTarget, hf.drawsOn_iff.2 ⟨m, hm, hbefore⟩⟩, hz⟩
  · rintro ⟨hx, z, ⟨n, ⟨c, hn⟩, htarget, hdraws⟩, rfl⟩
    have hc : c ≠ b := by
      rintro rfl
      obtain rfl : phi = n := Option.some.inj (h.listed.symm.trans hn)
      exact hx (Except.ok.inj (htarget.symm.trans h.new.holds.phiTarget))
    obtain ⟨q, hf, hf', -⟩ := h.holdsPhi hc hn
    obtain ⟨m, hm, hlink⟩ := hf.drawsOn_iff.1 hdraws
    refine ⟨n, ⟨c, (phi?_setPhi_of_ne hc).trans hn⟩, ?_, hf'.drawsOn_iff.2 ⟨m, hm, ?_⟩⟩
    · rw [hf'.phiTarget, ← hf.phiTarget, htarget]
    · rw [h.linkOf_operand hc hn hf hm hlink, Option.map_some]

/-- The target of the phi is the one target that is lost. -/
theorem targetAt?_ne_iff : (∀ c, r.targetAt? f c ≠ some e) ↔
    e ≠ p.target ∧ ∀ c, (r.setPhi b none).targetAt? f' c ≠ some e := by
  have hself : (r.setPhi b none).targetAt? f' b = none := targetAt?_eq_none phi?_setPhi_none
  constructor
  · refine fun he => ⟨fun heq => he b (heq ▸ h.targetAt?_self), fun c => ?_⟩
    by_cases hc : c = b
    · simp [hc, hself]
    · rw [h.targetAt?_of_ne hc]
      exact he c
  · rintro ⟨hne, he⟩ c
    by_cases hc : c = b
    · rw [hc, h.targetAt?_self]
      exact fun heq => hne (Option.some.inj heq).symm
    · rw [← h.targetAt?_of_ne hc]
      exact he c

/-- If the phi merged `d` alone, uses stand for what they stood for. -/
theorem origins (hlies : Lies base v reals nodes) (coherent : base.tree.Coherent)
    (hscope : ∀ m, scope m v → ∃ c ∈ base.preorder, m ∈ reals c) (hne : d ≠ p.target)
    (hexists : ∃ q ∈ p.operands, f.tree.definitionOf q = .ok (some d))
    (hsole : ∀ q ∈ p.operands, ∃ x, f.tree.definitionOf q = .ok (some x) ∧ (x = p.target ∨ x = d))
    (hn : base.tree.Occurs v false n) : (r.setPhi b none).origins f' n = r.origins f n := by
  have hpasses (x y : NodeId) := h.passesTo_iff hlies (x := x) (y := y)
  have hlink {q : NodeId} (hq : q ∈ p.operands) := (h.new.holds.occurs_operand hq).definitionOf
  have hd : f.tree.PassesTo {phi | ∃ c, r.phi? c = some phi} p.target d := by
    obtain ⟨q, hq, hqd⟩ := hexists
    exact ⟨phi, ⟨b, h.listed⟩, h.new.holds.phiTarget,
      h.new.holds.drawsOn_iff.2 ⟨q, hq, hlink hq ▸ hqd⟩⟩
  have honly (y : NodeId) (hy : f.tree.PassesTo {phi | ∃ c, r.phi? c = some phi} p.target y) :
      y = p.target ∨ y = d := by
    obtain ⟨n', ⟨c, hn'⟩, htarget, hdraws⟩ := hy
    obtain rfl : c = b := by
      by_contra hc
      obtain ⟨q, hf, -⟩ := h.holdsPhi hc hn'
      exact h.target_ne hlies hc hn' hf (Except.ok.inj (hf.phiTarget.symm.trans htarget))
    obtain rfl : phi = n' := Option.some.inj (h.listed.symm.trans hn')
    obtain ⟨q, hq, hqy⟩ := h.new.holds.drawsOn_iff.1 hdraws
    obtain ⟨x, hx, hcases⟩ := hsole q hq
    obtain rfl : y = x := by simpa [hlink hq, hqy] using hx
    exact hcases
  obtain ⟨link, hbefore⟩ := (h.before.kept.occurs hn).exists_linkOf
  have hafter := h.linkOf coherent hscope hn hbefore
  ext e
  rw [mem_origins, mem_origins, hbefore, hafter, h.targetAt?_ne_iff (e := e)]
  cases link with
  | none => simp
  | some x =>
    simp only [Option.map_some, Except.ok.injEq, Option.some.injEq, exists_eq_left']
    constructor
    · rintro ⟨he, hreach⟩
      -- Nothing leads to the target any more.
      have hother : e ≠ p.target := by
        cases hreach with
        | refl => exact instead_ne hne
        | tail _ hstep =>
          obtain ⟨-, z, -, rfl⟩ := (hpasses _ _).1 hstep
          exact instead_ne hne
      exact ⟨⟨hother, he⟩, (reflTransGen_instead hne hd honly hpasses hother).1 hreach⟩
    · rintro ⟨⟨hother, he⟩, hreach⟩
      exact ⟨he, (reflTransGen_instead hne hd honly hpasses hother).2 hreach⟩

end Replaced

end Roster

end MethodFlow
