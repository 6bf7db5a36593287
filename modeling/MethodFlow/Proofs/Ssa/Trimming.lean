import MethodFlow.Proofs.Ssa.Fixpoint
import MethodFlow.Proofs.Ssa.Removal

/-!
Forms of a graph that has changed its shape. Removing phis that merge a single definition never
takes a phi away then. Until it comes upon such a phi it succeeds, and when it does, uses are linked
to the definition before it fails.
-/

namespace MethodFlow

open Edit

section confined

variable {τ α : Type} {s s' : Recorded (Bench Roster)} {phi target d n : NodeId} {b : BlockId}

/-- Of a graph and of what is kept about it, nothing but the tree is changed. -/
def Bench.Confined (s s' : Bench τ) : Prop :=
  s'.own = s.own ∧ s'.flow = { s.flow with tree := s'.flow.tree }

instance : IsPreorder (Bench τ) Bench.Confined where
  refl _ := ⟨rfl, rfl⟩
  trans _ _ _ h h' := ⟨h'.1.trans h.1, by rw [h'.2, h.2]⟩

theorem Bench.confined_liftTree (x : Edit Tree α) :
    Moves (Recorded.Along Confined) (liftM x : Edit (Recorded (Bench τ)) α) := by
  have hflow : Moves (fun f f' => f' = { f with tree := f'.tree }) (liftM x : Edit FlowGraph α) :=
    Moves.within (T := fun _ _ => True) (fun _ => trivial) fun _ _ _ => rfl
  have hbench : Moves Confined (liftM (liftM x : Edit FlowGraph α) : Edit (Bench τ) α) :=
    hflow.within fun _ _ h => ⟨rfl, h⟩
  exact hbench.quietly

namespace RosterEdit

open Bench

theorem confined_redundantDefinition (phi : NodeId) :
    Moves (Recorded.Along Confined) (redundantDefinition phi) := by
  have hread : Moves (Recorded.Along Confined) (readOperands phi) :=
    Moves.get.bind fun s => Moves.ite
      (Moves.within (T := fun _ _ => True) (fun _ => trivial) fun _ _ _ => ⟨rfl, rfl⟩) (.ask _)
  exact (Moves.ask _).bind fun _ => hread.bind fun _ => .ask _

theorem confined_redirect (target d n : NodeId) :
    Moves (Recorded.Along Confined) (redirect target d n) := by
  refine Moves.get.bind fun s => Moves.ite ?_ (.pure _)
  refine (Moves.ask _).bind fun _ => Moves.ite ?_ (.pure _)
  exact (Moves.ask _).bind fun _ => Moves.ite (confined_liftTree _) (.pure _)

/-- A roster of another shape loses no phi. -/
theorem removePhi_of_stale (h : s.value.flow.stamp ≠ s.value.own.stamp) (b : BlockId) :
    removePhi b s = .error .staleGraph s := askRoster_of_error (Roster.recordAt_of_stale h b)

/-- While the shape is another, a phi is read and uses are linked, but it stays. -/
theorem collapsePhi_of_stale (h : s.value.flow.stamp ≠ s.value.own.stamp) (phi : NodeId) :
    Ends (collapsePhi phi) s (fun removed m => removed = false ∧ Confined s.value m.value)
      fun _ m => Confined s.value m.value := by
  have hbind {α β : Type} {x : RosterEdit α} {f : α → RosterEdit β}
      {P : β → Recorded (Bench Roster) → Prop} {m : Recorded (Bench Roster)}
      (hx : Moves (Recorded.Along Confined) x) (hm : Confined s.value m.value)
      (hf : ∀ a m', Confined s.value m'.value →
        Ends (f a) m' P fun _ m => Confined s.value m.value) :
      Ends (x >>= f) m P fun _ m => Confined s.value m.value := by
    refine ((hx.ends m).mono fun _ m' h => ?_).bind fun a m' _ h => hf a m' ?_
    · exact IsTrans.trans (r := Confined) _ _ _ hm h
    · exact IsTrans.trans (r := Confined) _ _ _ hm h
  refine .of_get ?_
  split
  · exact .pure ⟨rfl, Std.Refl.refl (r := Confined) _⟩
  refine hbind (confined_redundantDefinition phi)
    (Std.Refl.refl (r := Confined) _) fun found m hm => ?_
  cases found with
  | none => exact .pure ⟨rfl, hm⟩
  | some d =>
    refine hbind (.ask _) hm fun target m hm => hbind (.ask _) hm fun found m hm =>
      hbind (.forM (confined_redirect target d) found) hm fun _ m hm =>
        hbind (.ask _) hm fun block m hm => ?_
    cases block with
    | none => exact .pure ⟨rfl, hm⟩
    | some b =>
      have hstale : m.value.flow.stamp ≠ m.value.own.stamp := by
        rw [hm.1, hm.2]
        exact h
      exact .inr ⟨_, m, bind_error.2 (.inl (removePhi_of_stale hstale b)), hm⟩

end RosterEdit

end confined

namespace Tree

variable {t t' : Tree} {p p' : Phi} {v : Var} {n d : NodeId} {block : Option BlockId}

/-- The phi merges `d` alone: some operand stands for `d`, and each of them for `d` or for the phi
itself. -/
structure MergesOnly (t : Tree) (p : Phi) (d : NodeId) : Prop where
  ne_target : d ≠ p.target
  exists_operand : ∃ q ∈ p.operands, t.definitionOf q = .ok (some d)
  sole : ∀ q ∈ p.operands, ∃ x, t.definitionOf q = .ok (some x) ∧ (x = p.target ∨ x = d)

theorem soleDefinition_eq_some_iff :
    RosterEdit.soleDefinition t p.target none p.operands = .ok (some d) ↔ t.MergesOnly p d := by
  refine ⟨fun h => ?_, fun h =>
    soleDefinition_eq_some h.ne_target (.inl rfl) (.inr h.exists_operand) h.sole⟩
  obtain ⟨hne, hfound, hsole⟩ := RosterEdit.soleDefinition_ok h (by simp)
  exact ⟨hne, (hfound.resolve_left (by simp)).2, hsole⟩

/-- The operands of the phis stand for the same definitions. -/
def StandAlike (t : Tree) (p : Phi) (t' : Tree) (p' : Phi) : Prop :=
  p'.target = p.target ∧
    ∀ x, (∃ q ∈ p'.operands, t'.definitionOf q = .ok x) ↔ ∃ q ∈ p.operands, t.definitionOf q = .ok x

theorem StandAlike.symm (h : StandAlike t p t' p') : StandAlike t' p' t p :=
  ⟨h.1.symm, fun x => (h.2 x).symm⟩

theorem StandAlike.mergesOnly (h : StandAlike t p t' p') (hp' : t'.HoldsPhi v n p' block)
    (hd : t.MergesOnly p d) : t'.MergesOnly p' d := by
  refine ⟨h.1 ▸ hd.ne_target, (h.2 _).2 hd.exists_operand, fun q' hq' => ?_⟩
  obtain ⟨o, ho, -⟩ := hp'.occurs_operand hq'
  have hx := definitionOf_ok.2 ⟨o, ho, rfl⟩
  obtain ⟨q, hq, hsame⟩ := (h.2 _).1 ⟨q', hq', hx⟩
  obtain ⟨x, hdx, hcase⟩ := hd.sole q hq
  exact ⟨x, hx.trans (hsame.symm.trans hdx), h.1 ▸ hcase⟩

theorem Reads.standAlike {kept : List NodeId} (h : t.Reads t' v n p block kept) :
    StandAlike t p t' { p with inputs := .catching kept } := by
  refine ⟨rfl, fun x => ⟨?_, ?_⟩⟩
  · rintro ⟨q, hq, hx⟩
    refine ⟨q, h.subset hq, ?_⟩
    rw [definitionOf_ok, node?, ← h.same q hq]
    exact definitionOf_ok.1 hx
  · rintro ⟨q, hq, hx⟩
    exact h.exists_operand hq hx

theorem Reads.slot?_of_holdsPhi {w : Var} {phi m : NodeId} {q : Phi} {place : Option BlockId}
    {kept : List NodeId} (h : t.Reads t' v phi p block kept) (hp : t.HoldsPhi v phi p block)
    (hq : t.HoldsPhi w n q place) (hne : n ≠ phi) (hm : m ∈ HoldsPhi.nodes n q) :
    t'.slot? m = t.slot? m := by
  have hout := hp.disjoint hq hne hm
  exact h.slot?_eq m (fun he => hout (he ▸ List.mem_cons_self ..))
    fun hmem => hout (List.mem_cons_of_mem _ hmem)

end Tree

namespace SsaForm

variable {form : SsaForm} {r : Roster} {t t' t'' : Tree} {p : Phi} {n phi d target : NodeId}
  {block : Option BlockId} {kept : List NodeId}

/-- The phis of a form that are in use are placed and own their target and their operands, which are
linked to definitions of the variable, or to what is gone. The occurrences on the form that are in
use are occurrences of their variables. -/
structure Orderly (form : SsaForm) (t : Tree) : Prop where
  phi : ∀ r ∈ form.rosters, ∀ n ∈ r.phis, t.isLive n = true → ∃ p b, t.HoldsPhi r.var n p (some b)
  links : ∀ r ∈ form.rosters, ∀ n ∈ r.phis, ∀ p, t.node? n = some (.phi p) → ∀ q ∈ p.operands, ∀ d,
    t.linkOf q = .ok (some d) → t.LinkEnd (fun _ => True) r.var d
  reals : ∀ r ∈ form.rosters, ∀ n ∈ r.reals, t.isLive n = true → t.varOf n = .ok r.var

/-- Phis of a form at handlers lose operands which stand for what others stand for. Nothing else is
changed. -/
structure Trims (form : SsaForm) (t t' : Tree) : Prop where
  size : t'.size = t.size
  slot : ∀ m, t'.slot? m = t.slot? m ∨ ∃ r ∈ form.rosters, ∃ n ∈ r.phis, ∃ p block,
    t.slot? n = some ⟨.phi p, none, block⟩ ∧ p.kind = .catching ∧
      (m ∈ p.operands ∧ t'.slot? m = none ∨ m = n ∧ ∃ kept ⊆ p.operands,
        t'.slot? m = some ⟨.phi { p with inputs := .catching kept }, none, block⟩)
  alike : ∀ r ∈ form.rosters, ∀ n ∈ r.phis, ∀ p, t.node? n = some (.phi p) →
    ∃ p', t'.node? n = some (.phi p') ∧ Tree.StandAlike t p t' p'

theorem Trims.refl (form : SsaForm) (t : Tree) : form.Trims t t :=
  ⟨rfl, fun _ => .inl rfl, fun _ _ _ _ p hp => ⟨p, hp, rfl, fun _ => Iff.rfl⟩⟩

theorem Trims.trans (h : form.Trims t t') (h' : form.Trims t' t'') : form.Trims t t'' := by
  refine ⟨h'.size.trans h.size, fun m => ?_, fun r hr n hn p hp => ?_⟩
  · rcases h'.slot m with hsame | ⟨r, hr, n, hn, p', block, hp', hkind, hcase⟩
    · rw [hsame]
      exact h.slot m
    -- What a phi loses later was among its operands from the start.
    · obtain ⟨p, hp, hkind, hsub⟩ : ∃ p, t.slot? n = some ⟨.phi p, none, block⟩ ∧
          p.kind = .catching ∧ p'.operands ⊆ p.operands ∧ p'.target = p.target := by
        rcases h.slot n with hsame |
          ⟨r₁, -, n₁, -, p, block₁, hp, hkind₁, ⟨-, hgone⟩ | ⟨rfl, kept, hsub, hnow⟩⟩
        · exact ⟨p', hsame ▸ hp', hkind, fun _ hq => hq, rfl⟩
        · simp [hgone] at hp'
        · rw [hp', Option.some.injEq, Slot.mk.injEq, Node.phi.injEq] at hnow
          obtain ⟨rfl, -, rfl⟩ := hnow
          exact ⟨p, hp, hkind₁, hsub, rfl⟩
      refine .inr ⟨r, hr, n, hn, p, block, hp, hkind, ?_⟩
      rcases hcase with ⟨hm, hgone⟩ | ⟨rfl, kept, hkept, hnow⟩
      · exact .inl ⟨hsub.1 hm, hgone⟩
      · refine .inr ⟨rfl, kept, fun q hq => hsub.1 (hkept hq), ?_⟩
        rw [hnow, hsub.2]
  · obtain ⟨p', hp', htarget, halike⟩ := h.alike r hr n hn p hp
    obtain ⟨p'', hp'', htarget', halike'⟩ := h'.alike r hr n hn p' hp'
    exact ⟨p'', hp'', htarget'.trans htarget, fun x => (halike' x).trans (halike x)⟩

theorem Trims.exists_phi (h : form.Trims t t') {p' : Phi} (hp' : t'.node? n = some (.phi p')) :
    ∃ p, t.node? n = some (.phi p) := by
  rcases h.slot n with hsame | ⟨r, -, n₁, -, p, block, hp, -, ⟨-, hgone⟩ | ⟨rfl, -⟩⟩
  · exact ⟨p', by rwa [Tree.node?, ← hsame]⟩
  · simp [Tree.node?, hgone] at hp'
  · exact ⟨p, Tree.node?_eq_some.2 ⟨_, hp, rfl⟩⟩

section orderly

variable {v : Var} (h : form.Orderly t)

include h

theorem Orderly.holdsPhi (hr : r ∈ form.rosters) (hn : n ∈ r.phis)
    (hp : t.node? n = some (.phi p)) :
    ∃ b, t.HoldsPhi r.var n p (some b) := by
  obtain ⟨p', b, hp'⟩ := h.phi r hr n hn (Tree.isLive_of_node? hp)
  obtain rfl : p = p' := by simpa [hp] using hp'.node?
  exact ⟨b, hp'⟩

/-- When the operands of a phi have been read, the phis on the form that are in use have no operands
but those that they had. -/
theorem Orderly.exists_phi_of_reads (hp : t.HoldsPhi v phi p block)
    (hreads : t.Reads t' v phi p block kept) (hr : r ∈ form.rosters) (hn : n ∈ r.phis)
    (hlive : t'.isLive n = true) : ∃ q q' b, t.HoldsPhi r.var n q (some b) ∧
      t'.HoldsPhi r.var n q' (some b) ∧ ∀ m ∈ q'.operands, m ∈ q.operands ∧
        t'.slot? m = t.slot? m := by
  obtain ⟨q, b, hq⟩ := h.phi r hr n hn ((hreads.touches hp).live n hlive)
  by_cases hne : n = phi
  · subst hne
    have hslot := hp.slot.symm.trans hq.slot
    rw [Option.some.injEq, Slot.mk.injEq, Node.phi.injEq] at hslot
    obtain ⟨rfl, -, rfl⟩ := hslot
    obtain rfl : v = r.var := Except.ok.inj
      (hp.occurs_target.varOf.symm.trans hq.occurs_target.varOf)
    exact ⟨p, _, b, hq, hreads.holds, fun m hm => ⟨hreads.subset hm, hreads.same m hm⟩⟩
  · have hslots (m : NodeId) (hm : m ∈ Tree.HoldsPhi.nodes n q) : t'.slot? m = t.slot? m :=
      hreads.slot?_of_holdsPhi hp hq hne hm
    exact ⟨q, q, b, hq, hq.of_slots hslots,
      fun m hm => ⟨hm, hslots m (by simp [Tree.HoldsPhi.nodes, hm])⟩⟩

theorem Orderly.reads (hp : t.HoldsPhi v phi p block) (hreads : t.Reads t' v phi p block kept) :
    form.Orderly t' := by
  have hlive := (hreads.touches hp).live
  refine ⟨fun r hr n hn hl => ?_, fun r hr n hn q' hq' m hm d hd => ?_, fun r hr n hn hl => ?_⟩
  · obtain ⟨-, q', b, -, hq', -⟩ := h.exists_phi_of_reads hp hreads hr hn hl
    exact ⟨q', b, hq'⟩
  · obtain ⟨q, q₁, b, hq, hq₁, hsame⟩ :=
      h.exists_phi_of_reads hp hreads hr hn (Tree.isLive_of_node? hq')
    obtain rfl : q' = q₁ := by simpa [hq'] using hq₁.node?
    rw [Tree.linkOf_congr (hsame m hm).2] at hd
    exact (h.links r hr n hn q hq.node? m (hsame m hm).1 d hd).keep
      (fun hocc => hreads.occurs hp hocc) (hlive d)
  · have hvar := h.reals r hr n hn (hlive n hl)
    obtain ⟨defines, hocc⟩ := Tree.occurs_of_varOf hvar
    have hsame : t'.slot? n = t.slot? n := by
      by_cases hmem : n ∈ p.operands
      · by_cases hkept : n ∈ kept
        · exact hreads.same n hkept
        · simp [Tree.isLive, hreads.gone n hmem hkept] at hl
      · exact hreads.other n (hocc.ne_of_holdsPhi hp) hmem
    exact (hocc.of_slot? hsame).varOf

theorem Orderly.trims_of_reads (hr : r ∈ form.rosters) (hphi : phi ∈ r.phis)
    (hp : t.HoldsPhi r.var phi p block) (hkind : p.kind = .catching)
    (hreads : t.Reads t' r.var phi p block kept) : form.Trims t t' := by
  refine ⟨hreads.size, fun m => ?_, fun r' hr' n hn q hq => ?_⟩
  · by_cases hm : m = phi
    · exact .inr ⟨r, hr, phi, hphi, p, block, hp.slot, hkind, .inr ⟨hm, kept, hreads.subset,
        hm ▸ hreads.holds.slot⟩⟩
    by_cases hmem : m ∈ p.operands
    · by_cases hkept : m ∈ kept
      · exact .inl (hreads.same m hkept)
      · exact .inr ⟨r, hr, phi, hphi, p, block, hp.slot, hkind,
          .inl ⟨hmem, hreads.gone m hmem hkept⟩⟩
    · exact .inl (hreads.other m hm hmem)
  · by_cases hne : n = phi
    · subst hne
      obtain rfl := Node.phi.inj (Option.some.inj (hp.node?.symm.trans hq))
      exact ⟨_, hreads.holds.node?, hreads.standAlike⟩
    · obtain ⟨b, hq'⟩ := h.holdsPhi hr' hn hq
      have hslots (m : NodeId) (hm : m ∈ Tree.HoldsPhi.nodes n q) : t'.slot? m = t.slot? m :=
        hreads.slot?_of_holdsPhi hp hq' hne hm
      refine ⟨q, (hq'.of_slots hslots).node?, rfl,
        fun x => exists_congr fun m => and_congr_right fun hm => ?_⟩
      rw [Tree.definitionOf_congr (hslots m (by simp [Tree.HoldsPhi.nodes, hm]))]

/-- Uses that are linked to a definition of their variable, or to nothing new, leave a form in
order. -/
theorem Orderly.redirects (hd : t.LinkEnd (fun _ => True) v d)
    (hredirects : t.Redirects v target d t') :
    form.Orderly t' := by
  have hend {w : Var} {x : NodeId} (hx : t.LinkEnd (fun _ => True) w x) :
      t'.LinkEnd (fun _ => True) w x :=
        hx.keep hredirects.retouched.occurs (hredirects.touches.live x)
  have hback {n : NodeId} {p : Phi} (hn : t'.node? n = some (.phi p)) :
      t.node? n = some (.phi p) := by
    rcases hredirects.2 n with hsame | ⟨o, parent, block, -, -, -, -, hnow⟩
    · rwa [Tree.node?, ← hsame]
    · simp [Tree.node?, hnow] at hn
  refine ⟨fun r hr n hn hl => ?_, fun r hr n hn p hp m hm x hx => ?_, fun r hr n hn hl => ?_⟩
  · obtain ⟨p, b, hp⟩ := h.phi r hr n hn (hredirects.touches.live n hl)
    exact ⟨p, b, hredirects.retouched.holdsPhi hp⟩
  · obtain ⟨b, hp'⟩ := h.holdsPhi hr hn (hback hp)
    rcases hredirects.linkOf hx with hsame | ⟨he, hbefore⟩
    · exact hend (h.links r hr n hn p (hback hp) m hm x hsame)
    · obtain rfl := Option.some.inj he
      rcases hredirects.2 m with hsame | ⟨o, parent, block, hs, hv, -, -, -⟩
      · rw [Tree.linkOf_congr hsame] at hx
        exact hend (h.links r hr n hn p (hback hp) m hm x hx)
      · obtain rfl : r.var = v := by
          obtain ⟨om, hom, hvm, -⟩ := hp'.operand m hm
          rw [hs, Option.some.injEq, Slot.mk.injEq, Node.occurrence.injEq] at hom
          rw [← hvm, ← hom.1, hv]
        exact hend hd
  · exact hredirects.retouched.varOf (h.reals r hr n hn (hredirects.touches.live n hl))

end orderly

theorem Orderly.exists_uses {f : FlowGraph} (h : form.Orderly f.tree) (hr : r ∈ form.rosters) :
    ∃ found, RosterEdit.uses r f = .ok found ∧
      ∀ n ∈ found, f.tree.isLive n = true → f.tree.varOf n = .ok r.var := by
  obtain ⟨found, hfound, hmem⟩ := RosterEdit.exists_uses (r := r) (f := f) fun n hn hlive => by
    obtain ⟨p, b, hp⟩ := h.phi r hr n hn hlive
    exact ⟨p, hp.node?⟩
  refine ⟨found, hfound, fun n hn hlive => ?_⟩
  rcases (hmem n).1 hn with hn | ⟨phi, hphi, p, hp, hn⟩
  · exact h.reals r hr n hn hlive
  · obtain ⟨b, hholds⟩ := h.holdsPhi hr hphi hp
    exact (hholds.occurs_operand hn).varOf

end SsaForm

namespace RosterEdit

variable {form : SsaForm} {v : Var} {r : Roster} {t : Tree} {p : Phi} {n phi d target : NodeId}
  {block : Option BlockId} {s : Recorded (Bench Roster)}

/-- Looking for the single definition that a phi on the form merges keeps the form in order. -/
theorem redundantDefinition_of_orderly (h : form.Orderly s.value.flow.tree) (hr : r ∈ form.rosters)
    (hphi : phi ∈ r.phis) (hlive : s.value.flow.tree.isLive phi = true) :
    Yields (redundantDefinition phi) s fun found m =>
      form.Orderly m.value.flow.tree ∧ form.Trims s.value.flow.tree m.value.flow.tree ∧
        ∃ p b, m.value.flow.tree.HoldsPhi r.var phi p (some b) ∧
          soleDefinition m.value.flow.tree p.target none p.operands = .ok found := by
  obtain ⟨p, b, hp⟩ := h.phi r hr phi hphi hlive
  refine .of_ask (Tree.phiTarget_ok.2 ⟨p, hp.node?, rfl⟩)
    ((readOperands_yields hp).bind fun operands m _ hm => ?_)
  obtain ⟨horderly, htrims, p', hp', htarget, hoperands⟩ : form.Orderly m.value.flow.tree ∧
      form.Trims s.value.flow.tree m.value.flow.tree ∧
      ∃ p', m.value.flow.tree.HoldsPhi r.var phi p' (some b) ∧ p'.target = p.target ∧
        p'.operands = operands := by
    rcases hm with ⟨rfl, rfl⟩ | ⟨hkind, hreads⟩
    · exact ⟨h, .refl form _, p, hp, rfl, rfl⟩
    · exact ⟨h.reads hp hreads, h.trims_of_reads hr hphi hp hkind hreads, _, hreads.holds, rfl, rfl⟩
  obtain ⟨found, hfound⟩ :
      ∃ found, soleDefinition m.value.flow.tree p'.target none p'.operands = .ok found :=
    Tree.exists_soleDefinition (fun q hq => hp'.occurs_operand hq) none
  rw [← htarget, ← hoperands]
  exact ⟨found, m, ask_ok.2 ⟨hfound, rfl⟩, horderly, htrims, p', b, hp', hfound⟩

/-- Uses are linked one after another, unless the definition that they should be linked to is
gone. -/
theorem forM_redirect_ends {found : List NodeId}
    (hfound : ∀ n ∈ found, s.value.flow.tree.isLive n = true → s.value.flow.tree.varOf n = .ok v)
    (hne : d ≠ target) (hd : s.value.flow.tree.LinkEnd (fun _ => True) v d) :
    Ends (found.forM (redirect target d)) s
      (fun _ m => Tree.Redirects v target d s.value.flow.tree m.value.flow.tree) fun e m =>
        e = .invalidNode d ∧ m.value.flow.tree.isLive d = false ∧
          Tree.Redirects v target d s.value.flow.tree m.value.flow.tree := by
  refine Ends.forM (fun _ (m : Recorded (Bench Roster)) =>
    Tree.Redirects v target d s.value.flow.tree m.value.flow.tree) (.refl _ _ _ _)
    fun before n after m hsplit hm => ?_
  cases hlive : m.value.flow.tree.isLive n with
  | false =>
    refine .of_get ?_
    simp only [hlive, Bool.false_eq_true, if_false]
    exact .pure hm
  | true =>
    have hn := hm.retouched.varOf (hfound n (by simp [hsplit]) (hm.touches.live n hlive))
    have hnext : Ends (redirect target d n) m (fun _ _ => True) fun e m' =>
        e = .invalidNode d ∧ m'.value.flow.tree.isLive d = false ∧
          Tree.Redirects v target d s.value.flow.tree m'.value.flow.tree := by
      rcases hd with hocc | ⟨-, hdead⟩
      · exact .inl (redirect_succeeds hn (hm.retouched.occurs hocc))
      · have hdead' : m.value.flow.tree.isLive d = false :=
          Bool.eq_false_iff.2 fun h => by simp [hm.touches.live d h] at hdead
        refine ((redirect_of_dead hn hdead').mono ?_).of_ok fun _ _ _ _ => trivial
        rintro e m' ⟨rfl, rfl, -⟩
        exact ⟨rfl, hdead', hm⟩
    refine hnext.of_ok fun _ m' hrun _ => ?_
    obtain ⟨-, -, -, hredirects, -⟩ := redirect_ok hrun hn hne
    exact hm.trans hredirects hne

section stale

variable (hr : r ∈ form.rosters) (hphi : phi ∈ r.phis) (hown : s.value.own = r)
  (hstale : s.value.flow.stamp ≠ r.stamp)

include hr hphi hown hstale

/-- If a phi on the form is found to merge a single definition and the shape is another, uses of its
target are linked to the definition, but the phi is not removed. -/
theorem collapsePhi_of_merging {m : Recorded (Bench Roster)} {b : BlockId}
    (hlive : s.value.flow.tree.isLive phi = true)
    (hrun : redundantDefinition phi s = .ok (some d) m)
    (hm : form.Orderly m.value.flow.tree) (hp : m.value.flow.tree.HoldsPhi r.var phi p (some b))
    (hd : m.value.flow.tree.MergesOnly p d) :
    Ends (collapsePhi phi) s (fun _ _ => False) fun e m' => form.Orderly m'.value.flow.tree ∧
      m.value.flow.tree.Redirects r.var p.target d m'.value.flow.tree ∧
      (e = .staleGraph ∨ e = .invalidNode d ∧ m'.value.flow.tree.isLive d = false) := by
  have hconfined : Bench.Confined s.value m.value := (confined_redundantDefinition phi).of_ok hrun
  have hend : m.value.flow.tree.LinkEnd (fun _ => True) r.var d := by
    obtain ⟨q, hq, hqd⟩ := hd.exists_operand
    rw [(hp.occurs_operand hq).definitionOf] at hqd
    exact hm.links r hr phi hphi p hp.node? q hq d hqd
  obtain ⟨found, hfound, hvars⟩ := SsaForm.Orderly.exists_uses (f := m.value.flow) hm hr
  have huses : uses m.value.own m.value.flow = .ok found := by rwa [hconfined.1, hown]
  refine .of_get ?_
  simp only [hlive, Bool.not_true, Bool.false_eq_true, if_false]
  refine .of_first hrun (.of_ask (Tree.phiTarget_ok.2 ⟨p, hp.node?, rfl⟩) (.of_ask huses ?_))
  refine ((forM_redirect_ends hvars hd.ne_target hend).mono ?_).bind fun _ m' hloop hredirects => ?_
  · rintro e m' ⟨rfl, hdead, hredirects⟩
    exact ⟨hm.redirects hend hredirects, hredirects, .inr ⟨rfl, hdead⟩⟩
  · have hconfined' : Bench.Confined m.value m'.value :=
      (Moves.forM (confined_redirect p.target d) found).of_ok hloop
    have hstale' : m'.value.flow.stamp ≠ m'.value.own.stamp := by
      rw [hconfined'.1, hconfined'.2, hconfined.1, hconfined.2, hown]
      exact hstale
    refine .of_ask (Tree.blockOf_root (hredirects.retouched.holdsPhi hp).slot rfl) ?_
    exact .inr ⟨_, m', bind_error.2 (.inl (removePhi_of_stale hstale' b)),
      hm.redirects hend hredirects, hredirects, .inl rfl⟩

/-- What trying a phi on a form in order comes to when the shape is another. It fails if the phi
merges a single definition, and uses of its target are linked to that definition before. -/
theorem collapsePhi_of_orderly (h₀ : form.Orderly t) (h : form.Orderly s.value.flow.tree)
    (ht : form.Trims t s.value.flow.tree) :
    Ends (collapsePhi phi) s
      (fun _ m => form.Orderly m.value.flow.tree ∧ form.Trims t m.value.flow.tree ∧
        ∀ p d, t.node? phi = some (.phi p) → ¬t.MergesOnly p d)
      fun e m => form.Orderly m.value.flow.tree ∧ ∃ p d t₁, t.node? phi = some (.phi p) ∧
        t.MergesOnly p d ∧ form.Trims t t₁ ∧ t₁.Redirects r.var p.target d m.value.flow.tree ∧
        (e = .staleGraph ∨ e = .invalidNode d ∧ m.value.flow.tree.isLive d = false) := by
  cases hlive : s.value.flow.tree.isLive phi with
  | false =>
    refine .inl ⟨_, _, collapsePhi_of_dead hlive, h, ht, fun p d hp _ => ?_⟩
    obtain ⟨p', hp', -⟩ := ht.alike r hr phi hphi p hp
    simp [Tree.isLive_of_node? hp'] at hlive
  | true =>
    obtain ⟨found, m, hrun, hm, htrims, p', b, hp', hfound⟩ :=
      redundantDefinition_of_orderly h hr hphi hlive
    have htrims : form.Trims t m.value.flow.tree := ht.trans htrims
    obtain ⟨p, hp⟩ := htrims.exists_phi hp'.node?
    obtain ⟨p₁, hp₁, halike⟩ := htrims.alike r hr phi hphi p hp
    obtain rfl : p' = p₁ := by simpa [hp'.node?] using hp₁
    cases found with
    | none =>
      refine .of_get ?_
      simp only [hlive, Bool.not_true, Bool.false_eq_true, if_false]
      refine .of_first hrun (.pure ⟨hm, htrims, fun q d hq hd => ?_⟩)
      obtain rfl : p = q := by simpa [hp] using hq
      simp [Tree.soleDefinition_eq_some_iff.2 (halike.mergesOnly hp' hd)] at hfound
    | some d =>
      have hd := Tree.soleDefinition_eq_some_iff.1 hfound
      obtain ⟨b₀, hp₀⟩ := h₀.holdsPhi hr hphi hp
      refine ((collapsePhi_of_merging hr hphi hown hstale hlive hrun hm hp' hd).mono ?_).of_ok
        fun _ _ _ hfalse => hfalse.elim
      rintro e m' ⟨hm', hredirects, hfault⟩
      exact ⟨hm', p, d, _, hp, halike.symm.mergesOnly hp₀ hd, htrims, halike.1 ▸ hredirects, hfault⟩

end stale

end RosterEdit

namespace FormEdit

section tries

variable {form : SsaForm} {I : FlowGraph → Prop} {C : Roster → NodeId → Prop}
  {E : Fault → FlowGraph → Prop}
  (step : ∀ r ∈ form.rosters, ∀ phi ∈ r.phis, ∀ s : Recorded (Bench Roster), s.value.own = r →
    I s.value.flow → Ends (RosterEdit.collapsePhi phi) s
      (fun removed m => removed = false ∧ m.value.own = r ∧ I m.value.flow ∧ C r phi)
      fun e m => m.value.own = r ∧ E e m.value.flow)

include step

/-- A roster whose phis all stay is left as it was. -/
theorem collapseOnce_of_tries {r : Roster} (hr : r ∈ form.rosters) {s : Recorded (Bench Roster)}
    (hown : s.value.own = r) (hs : I s.value.flow) : Ends RosterEdit.collapseOnce s
      (fun count m => count = 0 ∧ m.value.own = r ∧ I m.value.flow ∧ ∀ phi ∈ r.phis, C r phi)
      fun e m => m.value.own = r ∧ E e m.value.flow := by
  refine .of_get ?_
  rw [hown]
  refine (Ends.filterM (fun before kept (m : Recorded (Bench Roster)) => kept = [] ∧
    m.value.own = r ∧ I m.value.flow ∧ ∀ phi ∈ before, C r phi) ⟨rfl, hown, hs, by simp⟩ ?_).bind ?_
  · rintro before phi after _ m hsplit ⟨rfl, hown, hm, hall⟩
    refine (step r hr phi (by simp [hsplit]) m hown hm).of_ok fun removed m' _ h => ?_
    obtain ⟨rfl, hown', hm', hphi⟩ := h
    refine ⟨rfl, hown', hm', fun phi' hphi' => ?_⟩
    rcases List.mem_append.1 hphi' with hphi' | hphi'
    · exact hall phi' hphi'
    · exact List.mem_singleton.1 hphi' ▸ hphi
  · rintro _ m - ⟨rfl, hm⟩
    exact .pure ⟨rfl, hm⟩

variable (nodup : form.vars.Nodup)

include nodup

/-- A round in which all phis stay is the last one. -/
theorem collapseRound_of_tries {s : Recorded (Bench SsaForm)} (hown : s.value.own = form)
    (hs : I s.value.flow) : Ends collapseRound s
      (fun count m => count = 0 ∧ m.value.own = form ∧ I m.value.flow ∧
        ∀ r ∈ form.rosters, ∀ phi ∈ r.phis, C r phi)
      fun e m => m.value.own = form ∧ E e m.value.flow := by
  refine .of_get ?_
  rw [hown]
  refine (Ends.mapM (fun before counts (m : Recorded (Bench SsaForm)) =>
    counts.foldl (· + ·) 0 = 0 ∧ m.value.own = form ∧ I m.value.flow ∧
    ∀ r ∈ form.rosters, r.var ∈ before → ∀ phi ∈ r.phis, C r phi)
      ⟨rfl, hown, hs, by simp⟩ ?_).bind ?_
  · rintro before v after counts m - ⟨hsum, hown, hm, hall⟩
    refine onRoster_ends (fun hnone => ?_) fun r hr => ?_
    · refine ⟨by simp [hsum], hown, hm, fun r hr hmem => ?_⟩
      refine hall r hr ((List.mem_append.1 hmem).resolve_right fun hv => ?_)
      rw [hown] at hnone
      simpa using List.find?_eq_none.1 hnone r hr (by simpa using hv)
    · rw [hown] at hr ⊢
      have hmem : r ∈ form.rosters := List.mem_of_find?_eq_some hr
      have hvar : r.var = v := by simpa using List.find?_some hr
      have honce := collapseOnce_of_tries step hmem (s := ⟨⟨m.value.flow, r⟩, m.events⟩) rfl hm
      refine (honce.mono ?_).of_ok ?_
      · rintro e m' ⟨hown', he⟩
        exact ⟨by rw [hown', SsaForm.update_self nodup hmem], he⟩
      · rintro count m' - ⟨rfl, hown', hm', hphis⟩
        refine ⟨by simp [hsum], by rw [hown', SsaForm.update_self nodup hmem], hm',
          fun r' hr' hv => ?_⟩
        rcases List.mem_append.1 hv with hv | hv
        · exact hall r' hr' hv
        · obtain rfl := List.inj_on_of_nodup_map nodup hr' hmem
            ((List.mem_singleton.1 hv).trans hvar.symm)
          exact hphis
  · rintro counts m - ⟨hsum, hown, hm, hall⟩
    exact .pure ⟨hsum, hown, hm, fun r hr => hall r hr (List.mem_map_of_mem hr)⟩

theorem collapse_of_tries {s : Recorded (Bench SsaForm)} (hown : s.value.own = form)
    (hs : I s.value.flow) :
    Ends collapse s
      (fun count m => count = 0 ∧ m.value.own = form ∧ I m.value.flow ∧
        ∀ r ∈ form.rosters, ∀ phi ∈ r.phis, C r phi)
      fun e m => m.value.own = form ∧ E e m.value.flow := by
  refine .of_get ((collapseRound_of_tries step nodup hown hs).bind fun removed m _ hm => ?_)
  rw [if_pos hm.1]
  exact .pure ⟨rfl, hm.2⟩

end tries

/-- A form whose operands link to definitions, or to what is gone, is in order. -/
theorem Frayed.orderly {o : SsaOptions} {input : FlowGraph} {lost : Var → NodeId → Prop}
    {s : Bench SsaForm}
    (hs : Frayed o input lost s) (coherent : input.Coherent) : s.own.Orderly s.flow.tree := by
  have nodup := FlowGraph.nodup_preorder coherent.closed coherent.entry
  refine ⟨fun r hr n hn _ => ?_, fun r hr n hn p hp q hq d hd => ?_, fun r hr n hn _ => ?_⟩
  · obtain ⟨b, hphi⟩ := ((hs.prepared r hr).mem_phis nodup).1 hn
    obtain ⟨p, hnew⟩ := (hs.prepared r hr).phi b n hphi
    exact ⟨p, b, hnew.holds⟩
  · obtain ⟨b, hphi⟩ := ((hs.prepared r hr).mem_phis nodup).1 hn
    exact (hs.wired r hr b n p hphi hp q hq d hd).mono fun _ _ => trivial
  · obtain ⟨b, -, hn⟩ := ((hs.prepared r hr).all n).1 hn
    exact hs.kept.varOf ((FlowGraph.lies_realsIn coherent rfl).var b n hn)

/-- The form of a converted graph is in order, whatever has been asked of it. Its rosters are about
different variables and belong to the shape that the graph has. -/
theorem toSsa_orderly {o : SsaOptions} {input f : FlowGraph} {events events' : List Event}
    {form : SsaForm}
    (made : input.Made) (h : FlowGraph.toSsa o ⟨input, events⟩ = .ok form ⟨f, events'⟩)
    (rs : List FormRequest) {s : Recorded (Bench SsaForm)}
    (hs : FormRequest.runs rs ⟨⟨f, form⟩, events'⟩ = s) :
    s.value.own.Orderly s.value.flow.tree ∧ s.value.own.vars.Nodup ∧
      ∀ r ∈ s.value.own.rosters, r.stamp = s.value.flow.stamp := by
  obtain ⟨lost, hfrayed⟩ := (Sturdy.frayed (s := ⟨⟨f, form⟩, events'⟩)
    (FlowGraph.toSsa_sturdy made.coherent h)).exists_runs made.coherent rs
  rw [hs] at hfrayed
  exact ⟨hfrayed.orderly made.coherent, hfrayed.nodup, fun r hr =>
    (hfrayed.prepared r hr).stamp.trans hfrayed.shape.stamp.symm⟩

/-- Removing phis that merge a single definition from the form of a graph that has changed its
shape. Nothing is ever removed: the form, the statements of the blocks and the rest of the graph
stay as they are, but not the tree. If the form is in order and none of its phis merges a single
definition, there is no failure and links stay; phis at handlers may lose operands that stand for
what others stand for. If one does, there is a failure, but uses of its target have been linked to
the definition that it merges. -/
theorem collapse_of_stale {form : SsaForm} {g : FlowGraph} (nodup : form.vars.Nodup)
    (hstale : ∀ r ∈ form.rosters, g.stamp ≠ r.stamp) (events : List Event) :
    Ends collapse ⟨⟨g, form⟩, events⟩
      (fun count m => count = 0 ∧ m.value.own = form ∧
        m.value.flow = { g with tree := m.value.flow.tree } ∧
        (form.Orderly g.tree → form.Orderly m.value.flow.tree ∧
          form.Trims g.tree m.value.flow.tree ∧
          ∀ r ∈ form.rosters, ∀ phi ∈ r.phis, ∀ p d, g.tree.node? phi = some (.phi p) →
            ¬g.tree.MergesOnly p d))
      fun e m => m.value.own = form ∧ m.value.flow = { g with tree := m.value.flow.tree } ∧
        (form.Orderly g.tree → form.Orderly m.value.flow.tree ∧
          ∃ r ∈ form.rosters, ∃ phi ∈ r.phis, ∃ p d t, g.tree.node? phi = some (.phi p) ∧
            g.tree.MergesOnly p d ∧ form.Trims g.tree t ∧
            t.Redirects r.var p.target d m.value.flow.tree ∧
            (e = .staleGraph ∨ e = .invalidNode d ∧ m.value.flow.tree.isLive d = false)) := by
  have hruns : Ends collapse ⟨⟨g, form⟩, events⟩ _ _ := collapse_of_tries
    (I := fun f => f = { g with tree := f.tree } ∧
      (form.Orderly g.tree → form.Orderly f.tree ∧ form.Trims g.tree f.tree))
    (C := fun r phi => form.Orderly g.tree → ∀ p d, g.tree.node? phi = some (.phi p) →
      ¬g.tree.MergesOnly p d)
    (E := fun e f => f = { g with tree := f.tree } ∧ (form.Orderly g.tree → form.Orderly f.tree ∧
      ∃ r ∈ form.rosters, ∃ phi ∈ r.phis, ∃ p d t, g.tree.node? phi = some (.phi p) ∧
        g.tree.MergesOnly p d ∧ form.Trims g.tree t ∧ t.Redirects r.var p.target d f.tree ∧
        (e = .staleGraph ∨ e = .invalidNode d ∧ f.tree.isLive d = false)))
    ?_ nodup (s := ⟨⟨g, form⟩, events⟩) rfl ⟨rfl, fun h => ⟨h, .refl form _⟩⟩
  · refine hruns.of_ok ?_
    rintro count m - ⟨hcount, hown, ⟨hflow, horderly⟩, hall⟩
    exact ⟨hcount, hown, hflow, fun h =>
      ⟨(horderly h).1, (horderly h).2, fun r hr phi hphi => hall r hr phi hphi h⟩⟩
  · rintro r hr phi hphi s hown ⟨hflow, horderly⟩
    have hs : s.value.flow.stamp ≠ r.stamp := by
      rw [hflow]
      exact hstale r hr
    have hconfined := RosterEdit.collapsePhi_of_stale (s := s) (by rwa [hown]) phi
    have hgraph {m : Recorded (Bench Roster)} (hm : Bench.Confined s.value m.value) :
        m.value.own = r ∧ m.value.flow = { g with tree := m.value.flow.tree } :=
      ⟨hm.1.trans hown, by rw [hm.2, hflow]⟩
    by_cases h₀ : form.Orderly g.tree
    · obtain ⟨h, ht⟩ := horderly h₀
      have hends := hconfined.and (RosterEdit.collapsePhi_of_orderly hr hphi hown hs h₀ h ht)
      refine (hends.mono ?_).of_ok ?_
      · rintro e m ⟨hm, hm', hphi'⟩
        exact ⟨(hgraph hm).1, (hgraph hm).2, fun _ => ⟨hm', r, hr, phi, hphi, hphi'⟩⟩
      · rintro removed m - ⟨⟨hremoved, hm⟩, hm', ht', hnone⟩
        exact ⟨hremoved, (hgraph hm).1, ⟨(hgraph hm).2, fun _ => ⟨hm', ht'⟩⟩, fun _ => hnone⟩
    · refine (hconfined.mono ?_).of_ok ?_
      · rintro e m hm
        exact ⟨(hgraph hm).1, (hgraph hm).2, fun h => absurd h h₀⟩
      · rintro removed m - ⟨hremoved, hm⟩
        exact ⟨hremoved, (hgraph hm).1, ⟨(hgraph hm).2, fun h => absurd h h₀⟩, fun h => absurd h h₀⟩

open FlowGraph (guarded diamond toSsa)

/-- One more block, and the phi at the handler stays, but what the handler returns is linked to the
store. -/
theorem guarded_collapse_of_stale : guarded.Made ∧ Yields (toSsa {}) ⟨guarded, []⟩ fun form m =>
    let g := m.value.request (.addBlock 3)
    form.vars.Nodup ∧ (∀ r ∈ form.rosters, g.stamp ≠ r.stamp) ∧ form.Orderly g.tree ∧
      ∃ s', collapse ⟨⟨g, form⟩, m.events⟩ = .error .staleGraph s' ∧ s'.value.own = form ∧
        s'.value.flow = { g with tree := s'.value.flow.tree } ∧
        (∃ r ∈ form.rosters, ∃ phi ∈ r.phis, ∃ p d,
          g.tree.node? phi = some (.phi p) ∧ g.tree.MergesOnly p d) ∧
        g.tree.linkOf ⟨3⟩ = .ok (some ⟨6⟩) ∧ s'.value.flow.tree.linkOf ⟨3⟩ = .ok (some ⟨0⟩) := by
  have made : guarded.Made := ⟨0, _, rfl⟩
  obtain ⟨form, m, hrun, hstale, htree, houtcome, hlink, hafter⟩ :
      Yields (toSsa {}) ⟨guarded, []⟩ fun form m =>
        let s : Recorded (Bench SsaForm) := ⟨⟨m.value.request (.addBlock 3), form⟩, m.events⟩
        (∀ r ∈ form.rosters, s.value.flow.stamp ≠ r.stamp) ∧ s.value.flow.tree = m.value.tree ∧
          collapse.outcome s = .error .staleGraph ∧ s.value.flow.tree.linkOf ⟨3⟩ = .ok (some ⟨6⟩) ∧
          (collapse.after s).value.flow.tree.linkOf ⟨3⟩ = .ok (some ⟨0⟩) := by
    decide +kernel
  obtain ⟨horderly, nodup, -⟩ : form.Orderly m.value.tree ∧ form.vars.Nodup ∧ _ :=
    toSsa_orderly made hrun [] rfl
  rw [← htree] at horderly
  obtain ⟨s', herror⟩ := outcome_error.1 houtcome
  rw [after_of_error herror] at hafter
  rcases collapse_of_stale nodup hstale m.events with ⟨_, _, hok, -⟩ |
    ⟨e, s'', herror', hown, hflow, hends⟩
  · simp [herror] at hok
  · obtain ⟨rfl, rfl⟩ := EStateM.Result.error.inj (herror.symm.trans herror')
    obtain ⟨-, r, hr, phi, hphi, p, d, _, hp, hmerges, -⟩ := hends horderly
    exact ⟨made, form, m, hrun, nodup, hstale, horderly, s', herror, hown, hflow,
      ⟨r, hr, phi, hphi, p, d, hp, hmerges⟩, hlink, hafter⟩

/-- So a new shape is not always noticed, and where it is, links have been changed before. -/
theorem stale_collapse_not_refused :
    (diamond.Made ∧ Yields (toSsa {}) ⟨diamond, []⟩ fun form m =>
      let g := m.value.request (.addBlock 4)
      form.vars = [.ofLocal 0] ∧ (∀ r ∈ form.rosters, g.stamp ≠ r.stamp) ∧
        Yields collapse ⟨⟨g, form⟩, m.events⟩ fun count _ => count = 0) ∧
    guarded.Made ∧ Yields (toSsa {}) ⟨guarded, []⟩ fun form m =>
      let s : Recorded (Bench SsaForm) := ⟨⟨m.value.request (.addBlock 3), form⟩, m.events⟩
      form.vars = [.ofLocal 0] ∧ (∀ r ∈ form.rosters, s.value.flow.stamp ≠ r.stamp) ∧
        s.value.flow.tree.linkOf ⟨3⟩ ≠ (collapse.after s).value.flow.tree.linkOf ⟨3⟩ :=
  ⟨⟨⟨0, _, rfl⟩, by decide +kernel⟩, ⟨0, _, rfl⟩, by decide +kernel⟩

end FormEdit

end MethodFlow
