import MethodFlow.Proofs.Tree.Redirect
import MethodFlow.Proofs.Tree.Rewiring
import Mathlib.Logic.Relation

/-!
What a use stands for once phis are seen through. From the target of a phi one goes on to the
definitions that its operands link to, and the definitions that are no target are where this ends.
-/

namespace MethodFlow.Tree

variable {base t t' : Tree} {phis phis' : Set NodeId} {v : Var} {n m phi x d : NodeId} {p : Phi}
  {block : Option BlockId}

/-- An operand of a phi links to `d`. -/
def DrawsOn (t : Tree) (phi d : NodeId) : Prop :=
  ∃ p, t.node? phi = some (.phi p) ∧ ∃ q ∈ p.operands, t.linkOf q = .ok (some d)

/-- The target `x` of one of the phis passes on to `d`, among others. -/
def PassesTo (t : Tree) (phis : Set NodeId) (x d : NodeId) : Prop :=
  ∃ phi ∈ phis, t.phiTarget phi = .ok x ∧ t.DrawsOn phi d

/-- The definitions that a use stands for, which are no targets of the phis. -/
def origins (t : Tree) (phis : Set NodeId) (n : NodeId) : Set NodeId :=
  {d | (∀ phi ∈ phis, t.phiTarget phi ≠ .ok d) ∧
    ∃ x, t.linkOf n = .ok (some x) ∧ Relation.ReflTransGen (t.PassesTo phis) x d}

theorem HoldsPhi.phiTarget (h : t.HoldsPhi v n p block) : t.phiTarget n = .ok p.target :=
  phiTarget_ok.2 ⟨p, h.node?, rfl⟩

theorem HoldsPhi.drawsOn_iff (h : t.HoldsPhi v n p block) :
    t.DrawsOn n d ↔ ∃ q ∈ p.operands, t.linkOf q = .ok (some d) := by
  have hnode : t.node? n = some (.phi p) := h.node?
  simp [DrawsOn, hnode]

/-- Where the phis have the targets that they had and draw on the same definitions, a use stands for
the same. -/
theorem origins_congr (hphis : ∀ phi ∈ phis, t'.phiTarget phi = t.phiTarget phi ∧
      ∀ d, t'.DrawsOn phi d ↔ t.DrawsOn phi d)
    (hlink : t'.linkOf n = t.linkOf n) : t'.origins phis n = t.origins phis n := by
  have hpasses : t'.PassesTo phis = t.PassesTo phis := funext₂ fun x d =>
    propext (exists_congr fun phi => and_congr_right fun hphi => by
      rw [(hphis phi hphi).1, (hphis phi hphi).2 d])
  have htargets (d : NodeId) : (∀ phi ∈ phis, t'.phiTarget phi ≠ .ok d) ↔
      ∀ phi ∈ phis, t.phiTarget phi ≠ .ok d :=
    forall₂_congr fun phi hphi => by rw [(hphis phi hphi).1]
  simp only [origins, hpasses, htargets, hlink]

/-- Other phis do not matter where the links of the uses of a variable lead to targets of the phis
of the variable only. -/
theorem origins_eq_of_subset (hsub : phis' ⊆ phis)
    (hoperands : ∀ phi ∈ phis', ∀ p, t.node? phi = some (.phi p) →
      ∀ q ∈ p.operands, t.varOf q = .ok v)
    (hlinks : ∀ m x, t.varOf m = .ok v → t.linkOf m = .ok (some x) → ∀ phi ∈ phis,
      t.phiTarget phi = .ok x → phi ∈ phis')
    (hn : t.varOf n = .ok v) : t.origins phis' n = t.origins phis n := by
  -- Only phis in `phis'` have a target that the links of the variable lead to.
  have hinside {x d : NodeId} (hx : ∀ phi ∈ phis, t.phiTarget phi = .ok x → phi ∈ phis')
      (hd : Relation.ReflTransGen (t.PassesTo phis) x d) :
      Relation.ReflTransGen (t.PassesTo phis') x d ∧
        ∀ phi ∈ phis, t.phiTarget phi = .ok d → phi ∈ phis' := by
    induction hd with
    | refl => exact ⟨.refl, hx⟩
    | tail _ hstep ih =>
      obtain ⟨hd, hy⟩ := ih
      obtain ⟨phi, hphi, htarget, p, hp, q, hq, hlink⟩ := hstep
      have hphi' := hy phi hphi htarget
      exact ⟨hd.tail ⟨phi, hphi', htarget, p, hp, q, hq, hlink⟩,
        hlinks q _ (hoperands phi hphi' p hp q hq) hlink⟩
  ext d
  constructor
  · rintro ⟨hd, x, hx, hreach⟩
    have hmono : t.PassesTo phis' ≤ t.PassesTo phis :=
      fun _ _ ⟨phi, hphi, hstep⟩ => ⟨phi, hsub hphi, hstep⟩
    have hreach := Relation.ReflTransGen.mono hmono x d hreach
    obtain ⟨-, hends⟩ := hinside (hlinks n x hn hx) hreach
    exact ⟨fun phi hphi htarget => hd phi (hends phi hphi htarget) htarget, x, hx, hreach⟩
  · rintro ⟨hd, x, hx, hreach⟩
    exact ⟨fun phi hphi => hd phi (hsub hphi), x, hx, (hinside (hlinks n x hn hx) hreach).1⟩

/-- A link to an occurrence that is newer than `base` stays within a variable. -/
def Kindred (base t : Tree) : Prop :=
  ∀ n x, t.linkOf n = .ok (some x) → base.size ≤ x.index → ∀ w, t.varOf x = .ok w →
    t.varOf n = .ok w

namespace Kindred

theorem of_rewires (h : base.Rewires t) (coherent : base.Coherent) : Kindred base t := by
  intro n x hx hle w hw
  rcases h.linked n x hx with hold | ⟨u, hu, hocc⟩
  · obtain ⟨o, ho, hlink⟩ := linkOf_ok.1 hold
    obtain ⟨s, hs, hnode⟩ := node?_eq_some.1 ho
    exact absurd (coherent.linked n s hs o x hnode hlink) (Nat.not_lt.2 hle)
  · obtain rfl : w = u := by simpa [hw] using hocc.varOf
    exact hu

theorem of_slots (h : Kindred base t)
    (hslots : ∀ m o, t'.node? m = some (.occurrence o) → t.node? m = some (.occurrence o)) :
    Kindred base t' := by
  intro n x hx hle w hw
  obtain ⟨o, ho, hlink⟩ := linkOf_ok.1 hx
  obtain ⟨ox, hox, hvar⟩ := varOf_ok.1 hw
  obtain ⟨o', ho', rfl⟩ := varOf_ok.1 (h n x (linkOf_ok.2 ⟨o, hslots n o ho, hlink⟩) hle w
    (varOf_ok.2 ⟨ox, hslots x ox hox, hvar⟩))
  obtain rfl : o = o' := by simpa [hslots n o ho] using ho'
  exact varOf_ok.2 ⟨o, ho, rfl⟩

theorem removes (h : Kindred base t) (hremoves : t.Removes t' n p) : Kindred base t' := by
  refine h.of_slots fun m o ho => ?_
  by_cases hm : m ∈ HoldsPhi.nodes n p
  · simp [node?, hremoves.gone m hm] at ho
  · simp only [HoldsPhi.nodes, List.mem_cons, not_or] at hm
    rwa [node?, hremoves.other m hm.1 (by simp [hm.2]), ← node?] at ho

theorem reads {kept : List NodeId} (h : Kindred base t) (hreads : t.Reads t' v n p block kept) :
    Kindred base t' := by
  refine h.of_slots fun m o ho => ?_
  have hslot : t'.slot? m = t.slot? m := by
    have hm : m ≠ n := by
      rintro rfl
      simp [node?, hreads.holds.slot] at ho
    by_cases hin : m ∈ p.operands
    · by_cases hkept : m ∈ kept
      · exact hreads.same m hkept
      · simp [node?, hreads.gone m hin hkept] at ho
    · exact hreads.other m hm hin
  rwa [node?, hslot, ← node?] at ho

theorem redirects {target : NodeId} (h : Kindred base t) (hredirects : Redirects v target d t t')
    (hq : t.varOf m = .ok v) (hd : t.linkOf m = .ok (some d)) : Kindred base t' := by
  intro n x hx hle w hw
  have hback := hredirects.touches.back
  have hvar : t.varOf n = .ok w → t'.varOf n = .ok w := fun hn => hredirects.retouched.varOf hn
  rcases hredirects.2 n with hsame | ⟨o, parent, block, hs, hv, -, hlink, hs'⟩
  · refine hvar (h n x ?_ hle w (hback x w hw))
    rwa [linkOf_congr hsame] at hx
  · have hn : t.varOf n = .ok v := varOf_ok.2 ⟨o, node?_eq_some.2 ⟨_, hs, rfl⟩, hv⟩
    obtain rfl : x = d := by
      obtain ⟨o', ho', hlink'⟩ := linkOf_ok.1 hx
      rw [node?, hs', Option.map_some, Option.some.injEq, Node.occurrence.injEq] at ho'
      simpa [← ho', eq_comm] using hlink'
    obtain rfl : v = w := Except.ok.inj (hq.symm.trans (h m x hd hle w (hback x w hw)))
    exact hvar hn

end Kindred

end MethodFlow.Tree
