import MethodFlow.Proofs.Ssa.PhiRequests
import MethodFlow.Proofs.Ssa.Provenance

/-!
What is left when phis that merge a single definition have been removed. Every round but the last
removes a phi, so any bound on the rounds that exceeds the number of phis will do. In the last round
each phi is tried and stays; trying it once more would change nothing.
-/

namespace MethodFlow

open Edit

namespace Tree

variable {t t' : Tree} {v : Var} {n target d : NodeId} {p : Phi} {block : Option BlockId}
  {operands kept dropped : List NodeId} {seen : List (Option NodeId)}

/-- A phi that does not merge a single definition. An operand stands for none, two operands stand
for different ones apart from the phi itself, or no operand stands for another one than the phi. -/
def Irredundant (t : Tree) (p : Phi) : Prop :=
  (∃ q ∈ p.operands, t.definitionOf q = .ok none) ∨
    (∃ q ∈ p.operands, ∃ q' ∈ p.operands, ∃ d d', t.definitionOf q = .ok (some d) ∧
      t.definitionOf q' = .ok (some d') ∧ d ≠ d' ∧ d ≠ p.target ∧ d' ≠ p.target) ∨
    ∀ q ∈ p.operands, ∀ d, t.definitionOf q = .ok (some d) → d = p.target

theorem soleDefinition_eq_some {found : Option NodeId} (hne : d ≠ target)
    (hfound : found = none ∨ found = some d)
    (hexists : found = some d ∨ ∃ q ∈ operands, t.definitionOf q = .ok (some d))
    (hsole : ∀ q ∈ operands, ∃ x, t.definitionOf q = .ok (some x) ∧ (x = target ∨ x = d)) :
    RosterEdit.soleDefinition t target found operands = .ok (some d) := by
  induction operands generalizing found with
  | nil =>
    obtain rfl : found = some d := by simpa using hexists
    rfl
  | cons q rest ih =>
    obtain ⟨⟨x, hx, hcase⟩, hsole⟩ := List.forall_mem_cons.1 hsole
    simp only [RosterEdit.soleDefinition, hx, bind, Except.bind]
    by_cases hself : x = target
    · rw [if_pos hself]
      refine ih hfound (hexists.imp_right ?_) hsole
      rintro ⟨q', hq', hd⟩
      rcases List.mem_cons.1 hq' with rfl | hq'
      · exact absurd (Option.some.inj (Except.ok.inj (hd.symm.trans hx)) ▸ hself) hne
      · exact ⟨q', hq', hd⟩
    · obtain rfl := hcase.resolve_left hself
      rw [if_neg hself]
      rcases hfound with rfl | rfl
      · exact ih (.inr rfl) (.inl rfl) hsole
      · simp only [if_true]
        exact ih (.inr rfl) (.inl rfl) hsole

theorem soleDefinition_eq_none_iff (hp : t.HoldsPhi v n p block) :
    RosterEdit.soleDefinition t p.target none p.operands = .ok none ↔ t.Irredundant p := by
  have hread := fun q (hq : q ∈ p.operands) => hp.occurs_operand hq
  constructor
  · intro h
    by_contra hnot
    have hlinked (q : NodeId) (hq : q ∈ p.operands) : ∃ x, t.definitionOf q = .ok (some x) := by
      obtain ⟨o, ho, -⟩ := hread q hq
      cases hx : o.definition q with
      | none => exact absurd (.inl ⟨q, hq, definitionOf_ok.2 ⟨o, ho, hx⟩⟩) hnot
      | some x => exact ⟨x, definitionOf_ok.2 ⟨o, ho, hx⟩⟩
    obtain ⟨q, hq, d, hd, hne⟩ :
        ∃ q ∈ p.operands, ∃ d, t.definitionOf q = .ok (some d) ∧ d ≠ p.target := by
      by_contra hnone
      exact hnot (.inr (.inr fun q hq d hd => by_contra fun hne => hnone ⟨q, hq, d, hd, hne⟩))
    have hsole (q' : NodeId) (hq' : q' ∈ p.operands) :
        ∃ x, t.definitionOf q' = .ok (some x) ∧ (x = p.target ∨ x = d) := by
      obtain ⟨x, hx⟩ := hlinked q' hq'
      refine ⟨x, hx, or_iff_not_imp_left.2 fun hxt => ?_⟩
      by_contra hxd
      exact hnot (.inr (.inl ⟨q', hq', q, hq, x, d, hx, hd, hxd, hxt, hne⟩))
    have hfound := soleDefinition_eq_some hne (.inl rfl) (.inr ⟨q, hq, hd⟩) hsole
    simp [h] at hfound
  · intro h
    obtain ⟨found, hfound⟩ : ∃ found,
        RosterEdit.soleDefinition t p.target none p.operands = .ok found :=
      exists_soleDefinition hread none
    cases found with
    | none => exact hfound
    | some d =>
      obtain ⟨hne, hexists, hsole⟩ := RosterEdit.soleDefinition_ok hfound (by simp)
      obtain ⟨q₀, hq₀, hd₀⟩ := (hexists.resolve_left (by simp)).2
      rcases h with ⟨q, hq, hnone⟩ | ⟨q, hq, q', hq', x, x', hx, hx', hxx, hxt, hxt'⟩ | hself
      · obtain ⟨x, hx, -⟩ := hsole q hq
        simp [hnone] at hx
      · have heq {q x : NodeId} (hq : q ∈ p.operands) (hx : t.definitionOf q = .ok (some x))
            (hxt : x ≠ p.target) : x = d := by
          obtain ⟨y, hy, hcase⟩ := hsole q hq
          obtain rfl : x = y := by simpa [hx] using hy
          exact hcase.resolve_left hxt
        exact absurd ((heq hq hx hxt).trans (heq hq' hx' hxt').symm) hxx
      · exact absurd (hself q₀ hq₀ d hd₀) hne

/-- Trying to remove the phi changes nothing. At a handler, no operand would be dropped. -/
structure AtRest (t : Tree) (p : Phi) : Prop where
  irredundant : t.Irredundant p
  distinct : p.kind = .catching → t.Distinct p.operands

theorem AtRest.congr (h : t.AtRest p) (hslots : ∀ q ∈ p.operands, t'.slot? q = t.slot? q) :
    t'.AtRest p := by
  have hsame (q : NodeId) (hq : q ∈ p.operands) : t'.definitionOf q = t.definitionOf q :=
    definitionOf_congr (hslots q hq)
  refine ⟨?_, fun hkind => (h.distinct hkind).congr hsame⟩
  rcases h.irredundant with ⟨q, hq, hnone⟩ | ⟨q, hq, q', hq', d, d', hd, hd', hne⟩ | hself
  · exact .inl ⟨q, hq, (hsame q hq).trans hnone⟩
  · exact .inr (.inl ⟨q, hq, q', hq', d, d', (hsame q hq).trans hd, (hsame q' hq').trans hd', hne⟩)
  · exact .inr (.inr fun q hq d hd => hself q hq d ((hsame q hq).symm.trans hd))

theorem readCatchOperands_of_atRest {s : Recorded Tree} (hp : s.value.HoldsPhi v n p block)
    (h : s.value.AtRest p) (hkind : p.kind = .catching) :
    readCatchOperands n s = .ok p.operands s := by
  have hsplit : s.value.splitRepeated [] p.operands = .ok (p.operands, []) :=
    splitRepeated_of_distinct (fun q hq => (hp.occurs_operand hq).exists_definitionOf)
      (h.distinct hkind)
      (by simp)
  rw [readCatchOperands]
  exact Edit.bind_ok.2 ⟨_, s, Edit.ask_ok.2 ⟨hp.catchOperands hkind, rfl⟩,
    Edit.bind_ok.2 ⟨_, s, Edit.ask_ok.2 ⟨hsplit, rfl⟩, rfl⟩⟩

end Tree

namespace Roster

variable {o : SsaOptions} {base f f' : FlowGraph} {v w : Var} {scope : NodeId → Var → Prop}
  {reals : BlockId → List NodeId} {r : Roster} {b c : BlockId} {phi : NodeId} {p : Phi}

def AtRestAt (r : Roster) (f : FlowGraph) (b : BlockId) : Prop :=
  ∀ phi p, r.phi? b = some phi → f.tree.node? phi = some (.phi p) → f.tree.AtRest p

def AtRest (r : Roster) (f : FlowGraph) : Prop := ∀ b, r.AtRestAt f b

theorem AtRestAt.congr (h : r.AtRestAt f b) (hr : Prepared (Admits o) base v scope reals r f)
    (hslots : ∀ phi p, r.phi? b = some phi → f.tree.HoldsPhi v phi p (some b) →
      ∀ m ∈ Tree.HoldsPhi.nodes phi p, f'.tree.slot? m = f.tree.slot? m) : r.AtRestAt f' b := by
  intro phi p hphi hp
  obtain ⟨q, hq⟩ := hr.phi b phi hphi
  have hsame := hslots phi q hphi hq.holds
  have hnode := hq.holds.node?
  obtain rfl : p = q := by
    rw [Tree.node?, hsame phi (by simp [Tree.HoldsPhi.nodes]), ← Tree.node?, hnode] at hp
    exact (Node.phi.inj (Option.some.inj hp)).symm
  exact (h phi p hphi hnode).congr fun m hm => hsame m (by simp [Tree.HoldsPhi.nodes, hm])

theorem AtRest.touch (h : r.AtRest f) (hr : Prepared (Admits o) base r.var scope reals r f)
    (ht : Tree.Touches w f.tree f'.tree) (hne : r.var ≠ w) : r.AtRest f' := fun b =>
  (h b).congr hr fun _ _ _ hp _ hm => ht.slot?_of_holdsPhi hp hne hm

theorem Prepared.phiCount_setPhi (h : Prepared (Admits o) base v scope reals r f)
    (nodup : base.preorder.Nodup) (hphi : r.phi? b = some phi) :
    (r.setPhi b none).phiCount + 1 = r.phiCount := by
  rw [phiCount, phiCount, h.forget.phis_eq nodup, h.phis_eq nodup]
  obtain ⟨before, after, hsplit⟩ := List.append_of_mem (h.mem_preorder hphi)
  rw [hsplit, List.nodup_middle, List.nodup_cons, List.mem_append, not_or] at nodup
  obtain ⟨⟨hbefore, hafter⟩, -⟩ := nodup
  have hsame {cs : List BlockId} (hb : b ∉ cs) :
      cs.flatMap (fun c => ((r.setPhi b none).phi? c).toList) =
        cs.flatMap fun c => (r.phi? c).toList := by
    refine List.flatMap_congr fun c hc => ?_
    have hne : c ≠ b := fun he => hb (he ▸ hc)
    rw [phi?_setPhi_of_ne hne]
  simp [hsplit, hsame hbefore, hsame hafter, hphi]
  omega

end Roster

namespace RosterEdit

open Roster

variable {o : SsaOptions} {base : FlowGraph} {v : Var} {scope : NodeId → Var → Prop}
  {reals : BlockId → List NodeId} {nodes : List NodeId} {b : BlockId} {phi : NodeId} {p : Phi}
  {s s' : Recorded (Bench Roster)}

section

variable (hs : Prepared (Admits o) base v scope reals s.value.own s.value.flow)

include hs

/-- A phi at rest is found to merge no single definition, and nothing has changed. -/
theorem redundantDefinition_of_atRest (hphi : s.value.own.phi? b = some phi)
    (hrest : s.value.own.AtRestAt s.value.flow b) : redundantDefinition phi s = .ok none s := by
  obtain ⟨p, hnew⟩ := hs.phi b phi hphi
  have hnode := hnew.holds.node?
  have hp := hrest phi p hphi hnode
  have hread : readOperands phi s = .ok p.operands s := by
    refine Edit.bind_ok.2 ⟨s, s, Edit.get_ok.2 ⟨rfl, rfl⟩, ?_⟩
    by_cases hkind : s.value.flow.tree.phiKind? phi = some .catching
    · rw [if_pos hkind]
      rw [hnew.holds.phiKind?, Option.some.injEq] at hkind
      exact Edit.within_ok.2 ⟨_, Tree.readCatchOperands_of_atRest hnew.holds hp hkind, rfl⟩
    · rw [if_neg hkind]
      exact Edit.ask_ok.2 ⟨Tree.phiOperands_ok.2 ⟨p, hnode, rfl⟩, rfl⟩
  exact Edit.bind_ok.2 ⟨p.target, s, Edit.ask_ok.2 ⟨Tree.phiTarget_ok.2 ⟨p, hnode, rfl⟩, rfl⟩,
    Edit.bind_ok.2 ⟨p.operands, s, hread,
      Edit.ask_ok.2 ⟨(Tree.soleDefinition_eq_none_iff hnew.holds).2 hp.irredundant, rfl⟩⟩⟩

theorem collapsePhi_of_atRest (hphi : s.value.own.phi? b = some phi)
    (hrest : s.value.own.AtRestAt s.value.flow b) : collapsePhi phi s = .ok false s := by
  refine Edit.bind_ok.2 ⟨s, s, Edit.get_ok.2 ⟨rfl, rfl⟩, ?_⟩
  simp only [hs.phi_live hphi, Bool.not_true, Bool.false_eq_true, if_false]
  exact Edit.bind_ok.2 ⟨none, s, redundantDefinition_of_atRest hs hphi hrest, rfl⟩

/-- Going over phis at rest changes nothing. -/
theorem collapseOnce_of_atRest (nodup : base.preorder.Nodup)
    (hrest : s.value.own.AtRest s.value.flow) : collapseOnce s = .ok 0 s := by
  have hloop : Yields (s.value.own.phis.filterM collapsePhi) s fun removed m =>
      removed = [] ∧ m = s := by
    have hstep {phi : NodeId} (hmem : phi ∈ s.value.own.phis) : collapsePhi phi s =
        .ok false s := by
      obtain ⟨b, hphi⟩ := (hs.mem_phis nodup).1 hmem
      exact collapsePhi_of_atRest hs hphi (hrest b)
    have hyields : Yields (s.value.own.phis.filterM collapsePhi) s fun _ m => m = s :=
      .filterM (fun _ m => m = s) rfl fun before phi after m hsplit hm => by
        rw [hm]
        exact ⟨false, s, hstep (by simp [hsplit]), rfl⟩
    refine hyields.of_ok fun removed m hrun hm => ⟨?_, hm⟩
    refine (Edit.filterM_ok hrun (fun _ done m => done = [] ∧ m = s) ⟨rfl, rfl⟩ ?_).1
    rintro before phi after done kept m m' hsplit ⟨rfl, rfl⟩ hkept
    obtain ⟨rfl, rfl⟩ := EStateM.Result.ok.inj (hkept.symm.trans (hstep (by simp [hsplit])))
    exact ⟨rfl, rfl⟩
  obtain ⟨removed, m, hrun, rfl, rfl⟩ := hloop
  exact Edit.bind_ok.2 ⟨m, m, Edit.get_ok.2 ⟨rfl, rfl⟩, Edit.bind_ok.2 ⟨[], m, hrun, rfl⟩⟩

variable (hlies : Lies base v reals nodes) (closed : base.graph.Closed)
  (hentry : base.contains FlowGraph.entry = true)

include hlies closed hentry

/-- A phi that is found to merge no single definition is at rest then, and the others are as
before. -/
theorem atRest_of_redundantDefinition (h : redundantDefinition phi s = .ok none s')
    (hphi : s.value.own.phi? b = some phi) {c : BlockId}
    (hc : c = b ∨ s.value.own.AtRestAt s.value.flow c) : s'.value.own.AtRestAt s'.value.flow c := by
  simp only [redundantDefinition, Edit.bind_ok, Edit.ask_ok] at h
  obtain ⟨target, _, ⟨htarget, rfl⟩, operands, m, hread, hsole, rfl⟩ := h
  obtain ⟨hm, -, hown, p, hp, rfl, htarget'⟩ := readOperands_ok hs hlies closed hentry hread hphi
  obtain rfl : target = p.target := Except.ok.inj (htarget.symm.trans htarget')
  have hirredundant :=
    (Tree.soleDefinition_eq_none_iff (hm.newPhi (hown ▸ hphi) hp).holds).1 hsole
  obtain ⟨q, hnew⟩ := hs.phi b phi hphi
  rw [hown]
  simp only [readOperands, Edit.bind_ok, Edit.get_ok] at hread
  obtain ⟨_, _, ⟨rfl, rfl⟩, hread⟩ := hread
  by_cases hkind : s.value.flow.tree.phiKind? phi = some .catching
  · rw [if_pos hkind] at hread
    obtain ⟨t, hread, htree, -⟩ := Bench.onTree_ok hread
    have hdistinct := Tree.distinct_of_readCatchOperands hread hnew.holds
    have hreads := Tree.readCatchOperands_ok hread hnew.holds
    rw [← htree] at hdistinct hreads
    by_cases hcb : c = b
    · intro n p' hn hp'
      obtain rfl : phi = n := Option.some.inj (hphi.symm.trans (hcb ▸ hn))
      obtain rfl := Node.phi.inj (Option.some.inj (hp.symm.trans hp'))
      exact ⟨hirredundant, fun _ => hdistinct⟩
    · exact (hc.resolve_left hcb).congr hs fun n p hn hp m hm =>
        hs.slot?_of_phi hphi hnew hreads.slot?_eq hcb hn hp hm
  · rw [if_neg hkind] at hread
    obtain ⟨-, rfl⟩ := Edit.ask_ok.1 hread
    rcases hc with rfl | hrest
    · intro n p' hn hp'
      obtain rfl : phi = n := Option.some.inj (hphi.symm.trans hn)
      obtain rfl := Node.phi.inj (Option.some.inj (hp.symm.trans hp'))
      refine ⟨hirredundant, fun hcatch => absurd ?_ hkind⟩
      rw [(hm.newPhi hphi hp).holds.phiKind?, hcatch]
    · exact hrest

variable (coherent : base.tree.Coherent)
  (hscope : ∀ n, scope n v → ∃ c ∈ base.preorder, n ∈ reals c)

include coherent hscope

/-- A phi that is tried is removed, which is counted, or it stays and is at rest. -/
theorem collapsePhi_counts {removed : Bool} (h : collapsePhi phi s = .ok removed s')
    (hlisted : s.value.flow.tree.isLive phi = true → ∃ b, s.value.own.phi? b = some phi) :
    s'.value.own.phiCount + removed.toNat = s.value.own.phiCount ∧ (removed = false →
      s'.value.own = s.value.own ∧ ∀ b, s.value.own.phi? b = some phi ∨
        s.value.own.AtRestAt s.value.flow b → s'.value.own.AtRestAt s'.value.flow b) := by
  cases hlive : s.value.flow.tree.isLive phi with
  | false =>
    obtain ⟨rfl, rfl⟩ := EStateM.Result.ok.inj (h.symm.trans (collapsePhi_of_dead hlive))
    refine ⟨rfl, fun _ => ⟨rfl, fun b hb => hb.resolve_left fun hphi => ?_⟩⟩
    simp [hs.phi_live hphi] at hlive
  | true =>
    obtain ⟨b, hphi⟩ := hlisted hlive
    have nodup := FlowGraph.nodup_preorder closed hentry
    rcases collapsePhi_cases hs hlies closed hentry coherent hscope h hphi with
      ⟨rfl, hredundant⟩ | ⟨rfl, d, p, m, -, -, hown, -⟩
    · obtain ⟨-, -, hown, -⟩ := redundantDefinition_ok hs hlies closed hentry hredundant hphi
      refine ⟨by rw [hown]; rfl, fun _ => ⟨hown, fun c hc => ?_⟩⟩
      exact atRest_of_redundantDefinition hs hlies closed hentry hredundant hphi
        (hc.imp_left (hs.phi?_injective · hphi))
    · rw [hown]
      exact ⟨hs.phiCount_setPhi nodup hphi, by simp⟩

/-- Going over the phis counts those that are removed. If none is, all are at rest. -/
theorem collapseOnce_counts {count : Nat} (h : collapseOnce s = .ok count s') :
    s'.value.own.phiCount + count = s.value.own.phiCount ∧
      (count = 0 → s'.value.own.AtRest s'.value.flow) := by
  have nodup := FlowGraph.nodup_preorder closed hentry
  simp only [collapseOnce, Edit.bind_ok, Edit.get_ok, Edit.pure_ok] at h
  obtain ⟨_, _, ⟨rfl, rfl⟩, removed, m, hloop, rfl, rfl⟩ := h
  obtain ⟨-, -, hcount, hrest⟩ := Edit.filterM_ok hloop (fun before done m =>
    Prepared (Admits o) base v scope reals m.value.own m.value.flow ∧
    Keeps base v reals s.value m.value ∧
    m.value.own.phiCount + done.length = s.value.own.phiCount ∧
    (done = [] → m.value.own = s.value.own ∧ ∀ b, ∀ phi ∈ before, s.value.own.phi? b = some phi →
      m.value.own.AtRestAt m.value.flow b)) ⟨hs, .refl _, rfl, fun _ => ⟨rfl, by simp⟩⟩ (by
    rintro before phi after done kept m m' hsplit ⟨hm, hkeeps, hcount, hrest⟩ hstep
    have hlisted (hlive : m.value.flow.tree.isLive phi = true) : ∃ b,
        m.value.own.phi? b = some phi := by
      have hmem : phi ∈ s.value.own.phis := by simp [hsplit]
      obtain ⟨b, hb⟩ := (hs.mem_phis nodup).1 hmem
      exact ⟨b, hkeeps.listed b phi hb hlive⟩
    obtain ⟨hm', hkeeps'⟩ := collapsePhi_ok hm hlies closed hentry coherent hscope hstep hlisted
    obtain ⟨hcount', hrest'⟩ :=
      collapsePhi_counts hm hlies closed hentry coherent hscope hstep hlisted
    refine ⟨hm', hkeeps.trans hkeeps', ?_, fun hdone => ?_⟩
    · cases kept with
      | true =>
        simp only [Bool.toNat_true, if_true, List.length_append, List.length_singleton] at hcount' ⊢
        omega
      | false =>
        simp only [Bool.toNat_false, Bool.false_eq_true, if_false] at hcount' ⊢
        omega
    · cases kept with
      | true => simp at hdone
      | false =>
        obtain ⟨hown, hbefore⟩ := hrest (by simpa using hdone)
        obtain ⟨hown', hnext⟩ := hrest' rfl
        refine ⟨hown'.trans hown, fun b n hn hphi => hnext b ?_⟩
        rcases List.mem_append.1 hn with hn | hn
        · exact .inr (hbefore b n hn hphi)
        · rw [hown, ← List.mem_singleton.1 hn]
          exact .inl hphi)
  refine ⟨hcount, fun hzero b => ?_⟩
  obtain ⟨hown, hall⟩ := hrest (List.length_eq_zero_iff.1 hzero)
  intro phi p hphi hp
  rw [hown] at hphi
  exact hall b phi ((hs.mem_phis nodup).2 ⟨b, hphi⟩) hphi phi p (hown ▸ hphi) hp

end

end RosterEdit

namespace SsaForm

variable {form : SsaForm} {r r' : Roster}

theorem phiCount_eq_length (form : SsaForm) :
    form.phiCount = (form.rosters.flatMap Roster.phis).length := by
  rw [phiCount, List.length_flatMap, List.sum_eq_foldl, List.foldl_map]
  rfl

theorem update_eq_append (nodup : form.vars.Nodup) {before after : List Roster}
    (hsplit : form.rosters = before ++ r :: after) (hvar : r'.var = r.var) :
    (form.update r').rosters = before ++ r' :: after := by
  rw [vars, hsplit, List.map_append, List.map_cons, List.nodup_middle, List.nodup_cons] at nodup
  have hkeep {rosters : List Roster} (hout : r.var ∉ rosters.map Roster.var) :
      rosters.map (fun old => if old.var = r'.var then r' else old) = rosters := by
    refine (List.map_congr_left fun old hold => ?_).trans (List.map_id rosters)
    have hne : old.var ≠ r'.var := fun he => hout (List.mem_map.2 ⟨old, hold, he.trans hvar⟩)
    rw [if_neg hne, id]
  have hout := nodup.1
  rw [List.mem_append, not_or] at hout
  rw [update, hsplit, List.map_append, List.map_cons, hkeep hout.1, hkeep hout.2, if_pos hvar.symm]

theorem update_self (nodup : form.vars.Nodup) (hr : r ∈ form.rosters) : form.update r = form := by
  obtain ⟨before, after, hsplit⟩ := List.append_of_mem hr
  show { form with rosters := (form.update r).rosters } = form
  rw [update_eq_append nodup hsplit rfl, ← hsplit]

theorem phiCount_update (nodup : form.vars.Nodup) (hr : r ∈ form.rosters) (hvar : r'.var = r.var)
    {count : Nat} (hcount : r'.phiCount + count = r.phiCount) :
    (form.update r').phiCount + count = form.phiCount := by
  obtain ⟨before, after, hsplit⟩ := List.append_of_mem hr
  rw [phiCount_eq_length, phiCount_eq_length, update_eq_append nodup hsplit hvar, hsplit]
  rw [Roster.phiCount, Roster.phiCount] at hcount
  simp only [List.flatMap_append, List.flatMap_cons, List.length_append]
  omega

end SsaForm

namespace FormEdit

open Roster

variable {o : SsaOptions} {input : FlowGraph} {sound : Var → Prop} {v : Var}
  {s s' : Recorded (Bench SsaForm)}

def AtRest (s : Bench SsaForm) : Prop := ∀ r ∈ s.own.rosters, r.AtRest s.flow

/-- Going over the phis of one variable counts those that are removed. If none is, they are at rest,
as are the phis that were. -/
theorem Tidy.collapseOnce_counts {count : Nat} (hs : Tidy o input sound s.value)
    (coherent : input.Coherent) (h : onRoster v 0 RosterEdit.collapseOnce s = .ok count s') :
    s'.value.own.phiCount + count = s.value.own.phiCount ∧ (count = 0 → ∀ vars : List Var,
      (∀ r ∈ s.value.own.rosters, r.var ∈ vars → r.AtRest s.value.flow) →
        ∀ r ∈ s'.value.own.rosters, r.var ∈ vars ++ [v] → r.AtRest s'.value.flow) := by
  rcases onRoster_ok h with ⟨hnone, rfl, rfl⟩ | ⟨r, m, hr, hrun, hflow, hown⟩
  · refine ⟨rfl, fun _ vars hrest r hr hv => hrest r hr ?_⟩
    refine (List.mem_append.1 hv).resolve_right fun hv => ?_
    have hmiss := List.find?_eq_none.1 hnone r hr
    exact hmiss (decide_eq_true (List.mem_singleton.1 hv))
  · have hmem : r ∈ s.value.own.rosters := List.mem_of_find?_eq_some hr
    obtain rfl : r.var = v := by simpa using List.find?_some hr
    obtain ⟨hm, hkeeps⟩ := hs.keeps coherent hmem hrun
    obtain ⟨hcount, hrest⟩ := RosterEdit.collapseOnce_counts (hs.prepared r hmem)
      (FlowGraph.lies_realsIn coherent rfl) coherent.closed coherent.entry coherent.tree
      (FlowGraph.exists_mem_of_renames coherent) hrun
    rw [hown, hflow]
    refine ⟨SsaForm.phiCount_update hs.nodup hmem hm.var hcount,
      fun hzero vars hold r' hr' hv => ?_⟩
    rcases mem_update hr' with rfl | ⟨hr', hne⟩
    · exact hrest hzero
    · rw [hm.var] at hne
      have hv : r'.var ∈ vars := (List.mem_append.1 hv).resolve_right fun hv =>
        hne (List.mem_singleton.1 hv)
      exact (hold r' hr' hv).touch (hs.prepared r' hr') hkeeps.touches hne

/-- A round counts the phis that are removed. If none is, all are at rest. -/
theorem Tidy.collapseRound_counts {count : Nat} (hs : Tidy o input sound s.value)
    (coherent : input.Coherent) (h : FormEdit.collapseRound s = .ok count s') :
    s'.value.own.phiCount + count = s.value.own.phiCount ∧ (count = 0 → AtRest s'.value) := by
  simp only [FormEdit.collapseRound, Edit.bind_ok, Edit.get_ok, Edit.pure_ok] at h
  obtain ⟨_, _, ⟨rfl, rfl⟩, counts, m, hloop, rfl, rfl⟩ := h
  rw [← List.sum_eq_foldl]
  obtain ⟨-, hvars, hcount, hrest⟩ := Edit.mapM_ok hloop (fun before done m =>
    Tidy o input sound m.value ∧ m.value.own.vars = s.value.own.vars ∧
    m.value.own.phiCount + done.sum = s.value.own.phiCount ∧ (done.sum = 0 →
      ∀ r ∈ m.value.own.rosters, r.var ∈ before → r.AtRest m.value.flow))
    ⟨hs, rfl, rfl, fun _ _ _ hv => absurd hv List.not_mem_nil⟩ (by
    rintro before v after done count m m' - ⟨hm, hvars, hcount, hrest⟩ hstep
    obtain ⟨hm', hthins⟩ := hm.collapseOnce coherent hstep
    obtain ⟨hcount', hrest'⟩ := hm.collapseOnce_counts coherent hstep
    rw [List.sum_append, List.sum_singleton]
    refine ⟨hm', hthins.vars.trans hvars, by omega, fun hzero => ?_⟩
    exact hrest' (by omega) before (hrest (by omega)))
  refine ⟨hcount, fun hzero r hr => hrest hzero r hr ?_⟩
  rw [← hvars]
  exact List.mem_map_of_mem hr

/-- The rounds count the phis that are removed. If there are more of them than phis, all phis are at
rest in the end. -/
theorem Tidy.collapseTo_counts {limit count : Nat} (hs : Tidy o input sound s.value)
    (coherent : input.Coherent) (hlimit : s.value.own.phiCount < limit)
    (h : FormEdit.collapseTo limit s = .ok count s') :
    count + s'.value.own.phiCount = s.value.own.phiCount ∧ AtRest s'.value := by
  induction limit generalizing s count with
  | zero => exact absurd hlimit (Nat.not_lt_zero _)
  | succ limit ih =>
    simp only [FormEdit.collapseTo, Edit.bind_ok] at h
    obtain ⟨removed, m, hround, h⟩ := h
    obtain ⟨hm, -⟩ := hs.collapseRound coherent hround
    obtain ⟨hcount, hrest⟩ := hs.collapseRound_counts coherent hround
    by_cases hzero : removed = 0
    · rw [if_pos hzero] at h
      obtain ⟨rfl, rfl⟩ := Edit.pure_ok.1 h
      exact ⟨by omega, hrest hzero⟩
    · simp only [if_neg hzero, Edit.bind_ok, Edit.pure_ok] at h
      obtain ⟨rest, m', hrun, rfl, rfl⟩ := h
      obtain ⟨hcount', hrest'⟩ := ih hm (by omega) hrun
      exact ⟨by omega, hrest'⟩

theorem Sturdy.collapseTo_eq {limit limit' : Nat} (hs : Sturdy o input sound s.value)
    (coherent : input.Coherent) (hlimit : s.value.own.phiCount < limit)
    (hlimit' : s.value.own.phiCount < limit') :
    FormEdit.collapseTo limit s = FormEdit.collapseTo limit' s := by
  induction limit generalizing s limit' with
  | zero => exact absurd hlimit (Nat.not_lt_zero _)
  | succ limit ih =>
    obtain ⟨limit', rfl⟩ : ∃ n, limit' = n + 1 := ⟨limit' - 1, by omega⟩
    obtain ⟨removed, m, hround, hm⟩ := hs.collapseRound coherent
    obtain ⟨hcount, -⟩ := hs.toTidy.collapseRound_counts coherent hround
    refine (Edit.bind_of_ok hround).trans (Eq.trans ?_ (Edit.bind_of_ok hround).symm)
    by_cases hzero : removed = 0
    · rw [if_pos hzero, if_pos hzero]
    · rw [if_neg hzero, if_neg hzero]
      exact Edit.bind_congr (ih hm (by omega) (by omega))

section

variable (hs : Tidy o input sound s.value) (coherent : input.Coherent) (hrest : AtRest s.value)

include hs coherent hrest

theorem collapseOnce_of_atRest : onRoster v 0 RosterEdit.collapseOnce s = .ok 0 s := by
  unfold onRoster Bench.onPart
  cases hr : s.value.own.roster? v with
  | none => simp only [hr]
  | some r =>
    have hmem : r ∈ s.value.own.rosters := List.mem_of_find?_eq_some hr
    have nodup := FlowGraph.nodup_preorder coherent.closed coherent.entry
    simp only [hr]
    refine Edit.within_ok.2 ⟨_,
      RosterEdit.collapseOnce_of_atRest (s := ⟨⟨s.value.flow, r⟩, s.events⟩)
      (hs.prepared r hmem) nodup (hrest r hmem), ?_⟩
    rw [SsaForm.update_self hs.nodup hmem]

theorem collapseRound_of_atRest : FormEdit.collapseRound s = .ok 0 s := by
  have hloop : Yields (s.value.own.vars.mapM fun v => onRoster v 0 RosterEdit.collapseOnce) s
      fun counts m => counts.sum = 0 ∧ m = s := by
    refine .mapM (fun _ counts m => counts.sum = 0 ∧ m = s) ⟨rfl, rfl⟩ ?_
    rintro before v after done m - ⟨hdone, rfl⟩
    exact ⟨0, m, collapseOnce_of_atRest hs coherent hrest, by simpa using hdone, rfl⟩
  obtain ⟨counts, m, hrun, hzero, rfl⟩ := hloop
  refine Edit.bind_ok.2 ⟨m, m, Edit.get_ok.2 ⟨rfl, rfl⟩, Edit.bind_ok.2 ⟨counts, m, hrun, ?_⟩⟩
  rw [← List.sum_eq_foldl, hzero]
  rfl

/-- Where all phis are at rest, removing those that merge a single definition changes nothing. -/
theorem collapse_of_atRest : FormEdit.collapse s = .ok 0 s :=
  Edit.bind_ok.2 ⟨s, s, Edit.get_ok.2 ⟨rfl, rfl⟩,
    Edit.bind_ok.2 ⟨0, s, collapseRound_of_atRest hs coherent hrest, rfl⟩⟩

end

/-- What the removal of `count` phis from a converted graph comes to. `held` says that the phis that
are gone have left the form, and the others are where they were. `settled` says that none of these
merges a single definition. `linked` is about the uses of the converted graph and the operands of
the phis that are left: if one links to what is gone, it did so before. -/
structure Collapsed (input : FlowGraph) (s s' : Bench SsaForm) (count : Nat) : Prop where
  vars : s'.own.vars = s.own.vars
  count : count + s'.own.phiCount = s.own.phiCount
  held : ∀ r ∈ s.own.rosters, ∀ r' ∈ s'.own.rosters, r'.var = r.var → ∀ b n,
    r'.phi? b = some n ↔ r.phi? b = some n ∧ s'.flow.tree.isLive n = true
  settled : ∀ r ∈ s'.own.rosters, ∀ n ∈ r.phis, ∃ p, s'.flow.tree.node? n = some (.phi p) ∧
    s'.flow.tree.Irredundant p
  linked : ∀ r ∈ s'.own.rosters, ∀ n,
    (input.tree.Occurs r.var false n ∨
      ∃ phi ∈ r.phis, ∃ operands, s'.flow.tree.phiOperands phi = .ok operands ∧ n ∈ operands) →
    ∀ d, s'.flow.tree.linkOf n = .ok (some d) → s'.flow.tree.isLive d = false →
      s.flow.tree.linkOf n = .ok (some d) ∧ s.flow.tree.isLive d = false

/-- A use that links to what is gone did so before phis were removed. -/
theorem Sturdy.linked {s s' : Bench SsaForm} (hs : Sturdy o input sound s)
    (hs' : Tidy o input sound s') (coherent : input.Coherent)
    (hthins : Thins input s s') {r : Roster}
    {n d : NodeId} (hr : r ∈ s'.own.rosters) (hn : input.tree.Occurs r.var false n)
    (hlink : s'.flow.tree.linkOf n = .ok (some d)) (hdead : s'.flow.tree.isLive d = false) :
    s.flow.tree.linkOf n = .ok (some d) ∧ s.flow.tree.isLive d = false := by
  obtain ⟨on, hon, hv, huse⟩ := hn
  obtain ⟨slot, hslot, hnode⟩ := Tree.node?_eq_some.1 hon
  -- The link is one of the graph that was converted. What it leads to was gone there already.
  have hold : s.flow.tree.linkOf n = .ok (some d) ∧ input.tree.linkOf n = .ok (some d) := by
    by_cases hrenames : input.Renames o n r.var
    · let stale n d := s.flow.tree.linkOf n = .ok (some d) ∧ input.tree.linkOf n = .ok (some d)
      have hanchored : ∀ r ∈ s.own.rosters, r.Anchored stale s.flow := fun r hr n hn huse d hd =>
        (hs.anchored r hr n hn huse d hd).imp_right fun hbase => ⟨hd, hbase⟩
      have hreal : n ∈ r.reals :=
        ((hs'.prepared r hr).all n).2 (FlowGraph.exists_mem_of_renames coherent n hrenames)
      have huse' := (Tree.occurs_iff.1 (hs'.kept.occurs ⟨on, hon, hv, huse⟩)).2
      refine (hthins.anchored stale hs.wired hanchored r hr n hreal huse' d hlink).resolve_left ?_
      exact fun hocc => absurd (Tree.Occurs.isLive hocc) (by simp [hdead])
    · have hout : ∀ o', slot.node = .occurrence o' → ¬input.Renames o n o'.var := by
        intro o' ho'
        obtain rfl := Node.occurrence.inj (hnode.symm.trans ho')
        rwa [hv]
      have hsame := hs.kept.slot?_of_not hslot hout
      have hsame' := hs'.kept.slot?_of_not hslot hout
      rw [Tree.linkOf_congr (hsame'.trans hslot.symm)] at hlink
      exact ⟨(Tree.linkOf_congr (hsame.trans hslot.symm)).trans hlink, hlink⟩
  obtain ⟨o', ho', hd⟩ := Tree.linkOf_ok.1 hold.2
  obtain rfl := Node.occurrence.inj (Option.some.inj (hon.symm.trans ho'))
  have hbelow : d.index < input.tree.size := coherent.tree.linked n slot hslot on d hnode hd
  exact ⟨hold.1, by rwa [hs.kept.isLive hbelow, ← hs'.kept.isLive hbelow]⟩

/-- Phis are removed from a form as long as one of them merges a single definition. -/
theorem Sturdy.collapsed {count : Nat} (hs : Sturdy o input sound s.value)
    (coherent : input.Coherent)
    (h : FormEdit.collapse s = .ok count s') : Collapsed input s.value s'.value count := by
  obtain ⟨htidy, hthins⟩ := hs.toTidy.collapse coherent h
  obtain ⟨_, _, hget, hrun⟩ := Edit.bind_ok.1 h
  obtain ⟨rfl, rfl⟩ := Edit.get_ok.1 hget
  obtain ⟨hcount, hrest⟩ := hs.toTidy.collapseTo_counts coherent (Nat.lt_succ_self _) hrun
  have nodup := FlowGraph.nodup_preorder coherent.closed coherent.entry
  have hwired := hthins.all_wired hs.wired
  refine ⟨hthins.vars, hcount,
    fun r hr r' hr' hvar b n => ⟨fun hn => ?_, fun ⟨hn, hlive⟩ => ?_⟩, ?_, ?_⟩
  · exact ⟨hthins.phis r hr r' hr' hvar b n hn, (htidy.prepared r' hr').phi_live hn⟩
  · exact hthins.listed r hr r' hr' hvar b n hn hlive
  · intro r hr n hn
    obtain ⟨b, hphi⟩ := ((htidy.prepared r hr).mem_phis nodup).1 hn
    obtain ⟨p, hp⟩ := (htidy.prepared r hr).phi b n hphi
    have hnode := hp.holds.node?
    exact ⟨p, hnode, (hrest r hr b n p hphi hnode).irredundant⟩
  · rintro r hr n (hn | ⟨phi, hphi, operands, hoperands, hn⟩) d hlink hdead
    · exact hs.linked htidy coherent hthins hr hn hlink hdead
    · obtain ⟨b, hphi⟩ := ((htidy.prepared r hr).mem_phis nodup).1 hphi
      obtain ⟨p, hp, rfl⟩ := Tree.phiOperands_ok.1 hoperands
      have hocc := hwired r hr b phi p hphi hp n hn d hlink
      exact absurd (Tree.Occurs.isLive hocc) (by simp [hdead])

end FormEdit

namespace FlowGraph

open FormEdit

variable {o : SsaOptions} {input f : FlowGraph} {events events' : List Event} {form : SsaForm}

/-- Once a graph is converted, the rounds that remove phis come to an end by themselves: more of
them than there are phis never matter. None of the phis that are left merges a single definition
then, nothing new links to what is gone, and doing it again changes nothing. -/
theorem toSsa_collapses (made : input.Made) (h : toSsa o ⟨input, events⟩ = .ok form ⟨f, events'⟩) :
    (∀ limit, form.phiCount < limit →
      FormEdit.collapseTo limit ⟨⟨f, form⟩, events'⟩ = FormEdit.collapse ⟨⟨f, form⟩, events'⟩) ∧
    Yields FormEdit.collapse ⟨⟨f, form⟩, events'⟩ fun count s' =>
      Collapsed input ⟨f, form⟩ s'.value count ∧ FormEdit.collapse s' = .ok 0 s' := by
  have coherent := made.coherent
  have hs : Sturdy o input (fun _ => False) ⟨f, form⟩ := toSsa_sturdy coherent h
  refine ⟨fun limit hlimit => ?_, ?_⟩
  · exact Sturdy.collapseTo_eq (s := ⟨⟨f, form⟩, events'⟩) hs coherent hlimit (Nat.lt_succ_self _)
  · refine (Sturdy.collapse (s := ⟨⟨f, form⟩, events'⟩) hs coherent).of_ok
      fun count s' hrun hs' => ?_
    refine ⟨Sturdy.collapsed (s := ⟨⟨f, form⟩, events'⟩) hs coherent hrun, ?_⟩
    obtain ⟨_, _, hget, hloop⟩ := Edit.bind_ok.1 hrun
    obtain ⟨rfl, rfl⟩ := Edit.get_ok.1 hget
    exact collapse_of_atRest hs'.toTidy coherent
      (hs.toTidy.collapseTo_counts coherent (Nat.lt_succ_self _) hloop).2

/-- Two branches store to a local and join in front of a protected block, to which its handler
returns after it has read the local. -/
def rejoined : FlowGraph := (ofLabel 0).requests
  [.addBlock 1, .addBlock 2, .addBlock 3, .addBlock 4, .addBlock 5, .addEdge ⟨0⟩ ⟨1⟩ .normal,
    .addEdge ⟨0⟩ ⟨2⟩ .normal, .addEdge ⟨1⟩ ⟨3⟩ .normal, .addEdge ⟨2⟩ ⟨3⟩ .normal,
    .addEdge ⟨3⟩ ⟨4⟩ .normal, .addHandler [⟨4⟩] ⟨5⟩ none, .addEdge ⟨5⟩ ⟨4⟩ .normal,
    .tree (.newVariable (.ofLocal 0) .int), .tree (.newLiteral (.int 1)), .tree (.newStore ⟨0⟩ ⟨1⟩),
    .appendStatement ⟨1⟩ ⟨2⟩, .tree (.newVariable (.ofLocal 0) .int), .tree (.newLiteral (.int 2)),
    .tree (.newStore ⟨3⟩ ⟨4⟩), .appendStatement ⟨2⟩ ⟨5⟩, .tree (.newVariable (.ofLocal 0) .int),
    .tree (.newEval ⟨6⟩), .appendStatement ⟨5⟩ ⟨7⟩]

/-- The phis of the protected block and of its handler give way to the one of the join, which merges
both stores and stays. -/
theorem rejoined_collapses : rejoined.Made ∧ Yields (toSsa {}) ⟨rejoined, []⟩ fun form m =>
    form.phiCount = 3 ∧
      (FormEdit.collapseTo 4 ⟨⟨m.value, form⟩, m.events⟩ =
        FormEdit.collapse ⟨⟨m.value, form⟩, m.events⟩) ∧
      Yields FormEdit.collapse ⟨⟨m.value, form⟩, m.events⟩ fun count s' =>
        count = 2 ∧ s'.value.flow.tree.phiTarget ⟨18⟩ = .ok ⟨15⟩ ∧
          s'.value.flow.tree.linkOf ⟨6⟩ = .ok (some ⟨15⟩) ∧
          Collapsed rejoined ⟨m.value, form⟩ s'.value count ∧ FormEdit.collapse s' = .ok 0 s' := by
  have made : rejoined.Made := ⟨0, _, rfl⟩
  obtain ⟨form, m, hrun, hcount, hcollapse⟩ : Yields (toSsa {}) ⟨rejoined, []⟩ fun form m =>
      form.phiCount = 3 ∧ Yields FormEdit.collapse ⟨⟨m.value, form⟩, m.events⟩ fun count s' =>
        count = 2 ∧ s'.value.flow.tree.phiTarget ⟨18⟩ = .ok ⟨15⟩ ∧
          s'.value.flow.tree.linkOf ⟨6⟩ = .ok (some ⟨15⟩) := by decide +kernel
  obtain ⟨hbound, count, s', hremoved, hcollapsed, hagain⟩ := toSsa_collapses made hrun
  obtain ⟨htwo, htarget, hlink⟩ := (yields_of_ok hremoved).1 hcollapse
  exact ⟨made, form, m, hrun, hcount, hbound 4 (by omega), count, s', hremoved, htwo,
    htarget, hlink, hcollapsed, hagain⟩

end FlowGraph

end MethodFlow
