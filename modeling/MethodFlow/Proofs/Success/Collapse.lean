import MethodFlow.Proofs.Ssa.Collapse
import MethodFlow.Proofs.Success.Placing

/-!
Removing phis that merge a single definition succeeds as long as operands are linked to definitions
in use. Then the uses of a phi's target can be linked to the definition that takes its place.
-/

namespace MethodFlow

open Edit

namespace Tree

variable {t : Tree} {v : Var} {n target : NodeId} {defines : Bool} {p : Phi}
  {block : Option BlockId}
  {operands : List NodeId}

theorem readCatchOperands_succeeds {s : Recorded Tree} (hp : s.value.HoldsPhi v n p block)
    (hkind : p.kind = .catching) : Succeeds (readCatchOperands n) s :=
  (hp.readCatchOperands_yields (Phi.inputs_of_catching hkind)).succeeds

theorem exists_soleDefinition (h : ∀ q ∈ operands, t.Occurs v defines q) (found : Option NodeId) :
    ∃ d, RosterEdit.soleDefinition t target found operands = .ok d := by
  induction operands generalizing found with
  | nil => exact ⟨found, rfl⟩
  | cons q rest ih =>
    obtain ⟨o, ho, -⟩ := h q (by simp)
    have hq : t.definitionOf q = .ok (o.definition q) := definitionOf_ok.2 ⟨o, ho, rfl⟩
    have ih := ih fun q' hq' => h q' (by simp [hq'])
    simp only [RosterEdit.soleDefinition, hq, bind, Except.bind]
    cases o.definition q with
    | none => exact ⟨none, rfl⟩
    | some d =>
      dsimp only
      split
      · exact ih found
      · cases found with
        | none => exact ih (some d)
        | some f =>
          dsimp only
          split
          · exact ih (some f)
          · exact ⟨none, rfl⟩

theorem setLink_of_dead {d : NodeId} (hn : t.Occurs v false n) (hd : t.isLive d = false) :
    setLink n (some d) t = .error (.invalidNode d) t := by
  have hslot : t.slot? d = none := by simpa [isLive] using hd
  have hcheck : t.checkLink n d = .error (.invalidNode d) := by
    simp [checkLink, isDefinition, occurrence, expression, node, slot, hslot, bind, Except.bind,
      Functor.map, Except.map]
  exact bind_error.2 (.inr ⟨false, t, ask_ok.2 ⟨hn.isDefinition, rfl⟩,
    bind_error.2 (.inl (ask_error.2 ⟨hcheck, rfl⟩))⟩)

end Tree

namespace Bench

theorem liftTree_error {τ α : Type} {x : Edit Tree α} {e : Fault} {s : Recorded (Bench τ)}
    (h : x s.value.flow.tree = .error e s.value.flow.tree) :
    (liftM x : Edit (Recorded (Bench τ)) α) s = .error e s := by
  have hflow : (liftM x : Edit FlowGraph α) s.value.flow = .error e s.value.flow :=
    within_error.2 ⟨_, h, rfl⟩
  have hbench : (liftM (liftM x : Edit FlowGraph α) : Edit (Bench τ) α) s.value =
      .error e s.value :=
    within_error.2 ⟨_, hflow, rfl⟩
  show quietly (liftM (liftM x : Edit FlowGraph α) : Edit (Bench τ) α) s = _
  exact within_error.2 ⟨_, hbench, rfl⟩

end Bench

namespace Roster

/-- A phi on the roster merges nothing but `d`, and uses are linked to its own target. -/
def Stuck (r : Roster) (f : FlowGraph) (d : NodeId) : Prop :=
  ∃ b phi p, r.phi? b = some phi ∧ f.tree.node? phi = some (.phi p) ∧ d ≠ p.target ∧
    (∃ q ∈ p.operands, f.tree.definitionOf q = .ok (some d)) ∧
    (∀ q ∈ p.operands, ∃ x, f.tree.definitionOf q = .ok (some x) ∧ (x = p.target ∨ x = d)) ∧
    ∃ found, RosterEdit.uses r f = .ok found ∧ ∃ n ∈ found, f.tree.linkOf n = .ok (some p.target)

end Roster

namespace RosterEdit

open Roster

variable {o : SsaOptions} {base : FlowGraph} {v : Var} {scope : NodeId → Var → Prop}
  {reals : BlockId → List NodeId} {nodes : List NodeId} {b : BlockId} {phi target d : NodeId}
  {s s' : Recorded (Bench Roster)}

theorem redirect_succeeds {n : NodeId} (hn : s.value.flow.tree.varOf n = .ok v)
    (hd : s.value.flow.tree.Occurs v true d) : Succeeds (redirect target d n) s := by
  obtain ⟨defines, hocc⟩ := Tree.occurs_of_varOf hn
  obtain ⟨on, hon, -⟩ := Tree.varOf_ok.1 hn
  refine .of_get ?_
  dsimp only
  split
  · refine .of_ask hocc.isDefinition ?_
    cases defines with
    | true => exact .pure trivial
    | false =>
      refine .of_ask (Tree.linkOf_ok.2 ⟨on, hon, rfl⟩) ?_
      split
      · exact Bench.succeeds_liftTree (Tree.setLink_succeeds hocc fun _ hm => by
          rwa [← Option.some.inj hm])
      · exact .pure trivial
  · exact .pure trivial

theorem forM_redirect_succeeds {found : List NodeId}
    (hfound : ∀ n ∈ found, s.value.flow.tree.varOf n = .ok v) (hne : d ≠ target)
    (hd : s.value.flow.tree.Occurs v true d) : Succeeds (found.forM (redirect target d)) s := by
  refine (Yields.forM (fun _ (m : Recorded (Bench Roster)) =>
    Tree.Redirects v target d s.value.flow.tree m.value.flow.tree) (.refl _ _ _ _)
    fun passed n rest m hsplit hm => ?_).succeeds
  have hn := hm.retouched.varOf (hfound n (by simp [hsplit]))
  refine (redirect_succeeds hn (hm.retouched.occurs hd)).of_ok fun _ m' hrun _ => ?_
  obtain ⟨-, -, -, hredirects, -⟩ := redirect_ok hrun hn hne
  exact hm.trans hredirects hne

/-- Nothing is linked to a definition that is gone, and nothing happens unless a use of the target
would be. -/
theorem redirect_of_dead {n : NodeId} (hn : s.value.flow.tree.varOf n = .ok v)
    (hd : s.value.flow.tree.isLive d = false) : Ends (redirect target d n) s (fun _ m => m = s)
      fun e m => e = .invalidNode d ∧ m = s ∧ s.value.flow.tree.linkOf n = .ok (some target) := by
  obtain ⟨defines, hocc⟩ := Tree.occurs_of_varOf hn
  obtain ⟨on, hon, -⟩ := Tree.varOf_ok.1 hn
  have hlink := Tree.linkOf_ok.2 ⟨on, hon, rfl⟩
  refine .of_get ?_
  dsimp only
  split
  · refine .of_ask hocc.isDefinition ?_
    cases defines with
    | true => exact .inl (.pure rfl)
    | false =>
      refine .of_ask hlink ?_
      split
      · next htarget =>
        exact .inr ⟨_, _, Bench.liftTree_error (Tree.setLink_of_dead hocc hd), rfl, rfl,
          htarget ▸ hlink⟩
      · exact .inl (.pure rfl)
  · exact .inl (.pure rfl)

theorem forM_redirect_of_dead {found : List NodeId}
    (hfound : ∀ n ∈ found, s.value.flow.tree.varOf n = .ok v)
    (hd : s.value.flow.tree.isLive d = false) :
    Ends (found.forM (redirect target d)) s (fun _ m => m = s) fun e m =>
      e = .invalidNode d ∧ m = s ∧ ∃ n ∈ found, s.value.flow.tree.linkOf n = .ok (some target) := by
  refine Ends.forM (fun _ m => m = s) rfl fun before n after m hsplit hm => ?_
  obtain rfl := hm
  have hn : n ∈ found := by simp [hsplit]
  refine (redirect_of_dead (hfound n hn) hd).mono ?_
  rintro e m ⟨he, hm, hlink⟩
  exact ⟨he, hm, n, hn, hlink⟩

/-- Reading the operands of a phi drops repetitions at a handler, and nothing otherwise. -/
theorem readOperands_yields {p : Phi} {block : Option BlockId}
    (hp : s.value.flow.tree.HoldsPhi v phi p block) :
    Yields (readOperands phi) s fun operands m => m = s ∧ operands = p.operands ∨
      p.kind = .catching ∧ s.value.flow.tree.Reads m.value.flow.tree v phi p block operands := by
  refine .of_get ?_
  split
  · next hkind =>
    rw [hp.phiKind?, Option.some.injEq] at hkind
    have hsucceeds : Succeeds (Bench.onTree (Tree.readCatchOperands phi)) s :=
      Succeeds.within (Tree.readCatchOperands_succeeds hp hkind)
    refine hsucceeds.of_ok fun operands m hrun _ => .inr ⟨hkind, ?_⟩
    obtain ⟨tree, hread, htree, -⟩ := Bench.onTree_ok hrun
    exact htree ▸ Tree.readCatchOperands_ok hread hp
  · exact ⟨_, s, ask_ok.2 ⟨Tree.phiOperands_ok.2 ⟨p, hp.node?, rfl⟩, rfl⟩, .inl ⟨rfl, rfl⟩⟩

section collapsing

variable (hs : Prepared (Admits o) base v scope reals s.value.own s.value.flow)
  (hlies : Lies base v reals nodes) (framed : base.Framed)

include hs hlies framed

theorem redundantDefinition_succeeds (hphi : s.value.own.phi? b = some phi) :
    Succeeds (redundantDefinition phi) s := by
  obtain ⟨p, hnew⟩ := hs.phi b phi hphi
  have hnode := hnew.holds.node?
  refine .of_ask (Tree.phiTarget_ok.2 ⟨p, hnode, rfl⟩)
    ((readOperands_yields hnew.holds).bind fun operands m hread _ => ?_)
  obtain ⟨hprepared, -, hown, p', hp', rfl, -⟩ :=
    readOperands_ok hs hlies framed.closed framed.entry hread hphi
  have hholds := (hprepared.newPhi (hown ▸ hphi) hp').holds
  obtain ⟨found, hfound⟩ := Tree.exists_soleDefinition (fun q hq => hholds.occurs_operand hq) none
  exact succeeds_of_ok (ask_ok.2 ⟨hfound, rfl⟩)

variable (coherent : base.tree.Coherent)

include coherent

/-- A phi can be tried for removal, unless the single definition that it merges is gone while its
own target has uses. Then it has been read and no more. -/
theorem collapsePhi_ends {lost : NodeId → Prop} (hwired : s.value.own.WiredBut lost s.value.flow)
    (hphi : s.value.own.phi? b = some phi) :
    Ends (collapsePhi phi) s (fun _ _ => True) fun e m => ∃ d, e = .invalidNode d ∧ lost d ∧
      redundantDefinition phi s = .ok (some d) m ∧ m.value.flow.tree.isLive d = false ∧
      m.value.own.Stuck m.value.flow d := by
  refine .of_get ?_
  simp only [hs.phi_live hphi, Bool.not_true, Bool.false_eq_true, if_false]
  obtain ⟨found, m, hrun, -⟩ := redundantDefinition_succeeds hs hlies framed hphi
  obtain ⟨hm, hkeeps, hown, hmerges⟩ :=
    redundantDefinition_ok hs hlies framed.closed framed.entry hrun hphi
  refine .of_first hrun ?_
  cases found with
  | none => exact .inl (.pure trivial)
  | some d =>
    obtain ⟨p, hmerges⟩ := hmerges d rfl
    rw [← hown] at hphi
    have hnode := hmerges.new.holds.node?
    have nodup := FlowGraph.nodup_preorder framed.closed framed.entry
    obtain ⟨found, hfound, -, hvars⟩ := exists_uses_of_prepared hm hlies nodup
    refine .of_ask (Tree.phiTarget_ok.2 ⟨p, hnode, rfl⟩) (.of_ask hfound ?_)
    have hloop : Ends (found.forM (redirect p.target d)) m (fun _ _ => True) fun e m' =>
        ∃ x, e = .invalidNode x ∧ lost x ∧ redundantDefinition phi s = .ok (some x) m' ∧
          m'.value.flow.tree.isLive x = false ∧ m'.value.own.Stuck m'.value.flow x := by
      rcases hmerges.linkEnd hm.var (hkeeps.wired lost hwired) hphi with hd | ⟨hlost, hdead⟩
      · exact .inl (forM_redirect_succeeds hvars hmerges.ne_target hd)
      · rcases forM_redirect_of_dead hvars hdead with hok | ⟨e, m', herror, rfl, rfl, huse⟩
        · exact .inl hok.succeeds
        · exact .inr ⟨_, _, herror, d, rfl, hlost, hrun, hdead, b, phi, p, hphi, hnode,
            hmerges.ne_target, hmerges.exists_operand, hmerges.sole, found, hfound, huse⟩
    refine hloop.bind fun _ m₁ hredirect _ => ?_
    obtain ⟨hshape, -, hown₁, hredirects, -⟩ := forM_redirect_ok hredirect hvars hmerges.ne_target
    have hm₁ : Prepared (Admits o) base v scope reals m₁.value.own m₁.value.flow :=
      hown₁ ▸ hm.redirect coherent hmerges.new hredirects hshape
    have hb : base.contains b = true :=
      (FlowGraph.mem_preorder framed.closed framed.entry).1 (hm.mem_preorder hphi)
    have hslot := (hredirects.retouched.holdsPhi hmerges.new.holds).slot
    refine .of_ask (Tree.blockOf_root hslot rfl) (.inl ((removePhi_succeeds framed hb hm₁).bind
      fun removed _ _ _ => ?_))
    cases removed with
    | false => exact .pure trivial
    | true => exact (Succeeds.report _ _).bind fun _ _ _ _ => .pure trivial

variable (hscope : ∀ n, scope n v → ∃ c ∈ base.preorder, n ∈ reals c)

include hscope

/-- The phis of a roster can be tried one after another, up to one that merges a definition that is
gone. -/
theorem collapseOnce_ends {lost : NodeId → Prop} (hwired : s.value.own.WiredBut lost s.value.flow) :
    Ends collapseOnce s (fun _ _ => True) fun e m =>
      Prepared (Admits o) base v scope reals m.value.own m.value.flow ∧
        Keeps base v reals s.value m.value ∧ ∃ d, e = .invalidNode d ∧ lost d ∧
          m.value.flow.tree.isLive d = false ∧ m.value.own.Stuck m.value.flow d := by
  refine .of_get ((Ends.filterM (fun _ _ (m : Recorded (Bench Roster)) =>
    Prepared (Admits o) base v scope reals m.value.own m.value.flow ∧
      Keeps base v reals s.value m.value) ⟨hs, .refl _⟩
    fun before phi after _ m hsplit hm => ?_).bind fun _ _ _ _ => .pure trivial)
  obtain ⟨hm, hkeeps⟩ := hm
  have hlisted (hlive : m.value.flow.tree.isLive phi = true) : ∃ b,
      m.value.own.phi? b = some phi := by
    have hmem : phi ∈ s.value.own.phis := by simp [hsplit]
    obtain ⟨b, hb⟩ := (hs.mem_phis (FlowGraph.nodup_preorder framed.closed framed.entry)).1 hmem
    exact ⟨b, hkeeps.listed b phi hb hlive⟩
  have hends : Ends (collapsePhi phi) m (fun _ _ => True) fun e m' =>
      Prepared (Admits o) base v scope reals m'.value.own m'.value.flow ∧
        Keeps base v reals s.value m'.value ∧ ∃ d, e = .invalidNode d ∧ lost d ∧
          m'.value.flow.tree.isLive d = false ∧ m'.value.own.Stuck m'.value.flow d := by
    cases hlive : m.value.flow.tree.isLive phi with
    | false => exact .inl (succeeds_of_ok (collapsePhi_of_dead hlive))
    | true =>
      obtain ⟨b, hphi⟩ := hlisted hlive
      refine (collapsePhi_ends hm hlies framed coherent (hkeeps.wired lost hwired) hphi).mono ?_
      rintro e m' ⟨d, rfl, hlost, hrun, hstuck⟩
      obtain ⟨hm', hkeeps', -⟩ :=
        redundantDefinition_ok hm hlies framed.closed framed.entry hrun hphi
      exact ⟨hm', hkeeps.trans hkeeps', d, rfl, hlost, hstuck⟩
  refine hends.of_ok fun _ m' hrun _ => ?_
  obtain ⟨hm', hkeeps'⟩ :=
    collapsePhi_ok hm hlies framed.closed framed.entry coherent hscope hrun hlisted
  exact ⟨hm', hkeeps.trans hkeeps'⟩

end collapsing

end RosterEdit

namespace FormEdit

open Roster

variable {o : SsaOptions} {input : FlowGraph} {sound : Var → Prop} {v : Var}
  {s : Recorded (Bench SsaForm)}

/-- A form in order whose phi operands link to definitions of their variables, or to nodes in `lost`
that are gone. -/
structure Frayed (o : SsaOptions) (input : FlowGraph) (lost : Var → NodeId → Prop)
    (s : Bench SsaForm) :
    Prop extends Tidy o input (fun _ => False) s where
  wired : ∀ r ∈ s.own.rosters, r.WiredBut (lost r.var) s.flow

/-- A phi on the form merges nothing but a definition in `lost` that is gone, while uses are linked
to its own target. This is what the fault is about. -/
def Blocked (lost : Var → NodeId → Prop) (e : Fault) (s : Bench SsaForm) : Prop :=
  ∃ r ∈ s.own.rosters, ∃ d, e = .invalidNode d ∧ lost r.var d ∧ s.flow.tree.isLive d = false ∧
    r.Stuck s.flow d

theorem not_blocked {e : Fault} {s : Bench SsaForm} : ¬Blocked (fun _ _ => False) e s :=
  fun ⟨_, _, _, _, hlost, _⟩ => hlost

theorem onRoster_ends {α : Type} {absent : α} {x : RosterEdit α}
    {P : α → Recorded (Bench SsaForm) → Prop}
    {E : Fault → Recorded (Bench SsaForm) → Prop}
    (hnone : s.value.own.roster? v = none → P absent s)
    (h : ∀ r, s.value.own.roster? v = some r → Ends x ⟨⟨s.value.flow, r⟩, s.events⟩
      (fun a m => P a ⟨⟨m.value.flow, s.value.own.update m.value.own⟩, m.events⟩)
      fun e m => E e ⟨⟨m.value.flow, s.value.own.update m.value.own⟩, m.events⟩) :
    Ends (onRoster v absent x) s P E := by
  unfold onRoster Bench.onPart
  cases hr : s.value.own.roster? v with
  | none => exact .inl ⟨absent, s, by simp [hr], hnone hr⟩
  | some r =>
    rcases h r hr with ⟨a, m, hrun, ha⟩ | ⟨e, m, herror, he⟩
    · exact .inl ⟨a, _, by simp [hr, hrun], ha⟩
    · exact .inr ⟨e, _, by simp [hr, herror], he⟩

section fraying

variable {lost : Var → NodeId → Prop} (hs : Frayed o input lost s.value) (coherent : input.Coherent)

include hs

theorem Frayed.advance {s' : Bench SsaForm} (htidy : Tidy o input (fun _ => False) s')
    (hthins : Thins input s.value s') : Frayed o input lost s' :=
  ⟨htidy, hthins.wired lost hs.wired⟩

include coherent

theorem Frayed.collapseOnce : Ends (onRoster v 0 RosterEdit.collapseOnce) s
    (fun _ m => Frayed o input lost m.value)
    fun e m => Frayed o input lost m.value ∧ Blocked lost e m.value := by
  have hends : Ends (onRoster v 0 RosterEdit.collapseOnce) s (fun _ _ => True)
      fun e m => Frayed o input lost m.value ∧ Blocked lost e m.value := by
    refine onRoster_ends (fun _ => trivial) fun r hr => ?_
    have hmem : r ∈ s.value.own.rosters := List.mem_of_find?_eq_some hr
    refine (RosterEdit.collapseOnce_ends (hs.prepared r hmem) (FlowGraph.lies_realsIn coherent rfl)
      coherent.toFramed coherent.tree (FlowGraph.exists_mem_of_renames coherent)
      (hs.wired r hmem)).mono ?_
    rintro e m ⟨hm, hkeeps, d, rfl, hlost, hdead, hstuck⟩
    obtain ⟨htidy, hthins⟩ := hs.toTidy.advance coherent hmem hm hkeeps
    refine ⟨hs.advance htidy hthins, m.value.own, ?_, d, rfl, hm.var ▸ hlost, hdead, hstuck⟩
    exact List.mem_map.2 ⟨r, hmem, if_pos hm.var.symm⟩
  refine hends.of_ok fun _ m hrun _ => ?_
  obtain ⟨htidy, hthins⟩ := hs.toTidy.collapseOnce coherent hrun
  exact hs.advance htidy hthins

theorem Frayed.collapseRound : Ends collapseRound s (fun _ m => Frayed o input lost m.value)
    fun e m => Frayed o input lost m.value ∧ Blocked lost e m.value :=
  .of_get ((Ends.mapM (fun _ _ (m : Recorded (Bench SsaForm)) => Frayed o input lost m.value) hs
    fun _ _ _ _ _ _ hm => hm.collapseOnce coherent).bind fun _ _ _ h => .pure h)

theorem Frayed.collapseTo (limit : Nat) : Ends (collapseTo limit) s
    (fun _ m => Frayed o input lost m.value)
    fun e m => Frayed o input lost m.value ∧ Blocked lost e m.value := by
  induction limit generalizing s with
  | zero => exact .pure hs
  | succ limit ih =>
    refine (hs.collapseRound coherent).bind fun removed m _ hm => ?_
    split
    · exact .pure hm
    · exact (ih hm).bind fun _ _ _ h => .pure h

/-- Phis of a form can be removed wherever they merge a single definition, up to one whose
definition is gone. -/
theorem Frayed.collapse : Ends FormEdit.collapse s (fun _ m => Frayed o input lost m.value)
    fun e m => Frayed o input lost m.value ∧ Blocked lost e m.value :=
  .of_get (hs.collapseTo coherent _)

end fraying

/-- A form in order whose phi operands all link to definitions. Other uses do so unless they are
linked as in the graph that was converted. No link to a new definition leaves its variable. -/
structure Sturdy (o : SsaOptions) (input : FlowGraph) (sound : Var → Prop) (s : Bench SsaForm) :
    Prop extends Tidy o input sound s where
  wired : ∀ r ∈ s.own.rosters, r.Wired s.flow
  anchored : ∀ r ∈ s.own.rosters, r.Anchored (fun n d => input.tree.linkOf n = .ok (some d)) s.flow
  kindred : Tree.Kindred input.tree s.flow.tree

theorem Sturdy.advance {s s' : Bench SsaForm} (hs : Sturdy o input sound s)
    (h : Tidy o input sound s' ∧ Thins input s s') : Sturdy o input sound s' :=
  ⟨h.1, h.2.all_wired hs.wired, h.2.anchored _ hs.wired hs.anchored, h.2.kindred hs.kindred⟩

section

variable (hs : Sturdy o input sound s.value) (coherent : input.Coherent)

include hs

theorem Sturdy.frayed : Frayed o input (fun _ _ => False) s.value :=
  ⟨hs.toTidy.mono fun _ => False.elim, fun r hr => wiredBut_iff_wired.2 (hs.wired r hr)⟩

include coherent

/-- A round over phis that are linked to definitions in use succeeds. -/
theorem Sturdy.collapseRound : Yields collapseRound s fun _ m => Sturdy o input sound m.value := by
  have hends := ((Sturdy.frayed hs).collapseRound coherent).mono fun _ _ h => not_blocked h.2
  exact hends.yields.of_ok fun _ _ hrun _ => hs.advance (hs.toTidy.collapseRound coherent hrun)

/-- The phis of a form can be removed wherever they merge a single definition. -/
theorem Sturdy.collapse : Yields FormEdit.collapse s fun _ m => Sturdy o input sound m.value := by
  have hends := ((Sturdy.frayed hs).collapse coherent).mono fun _ _ h => not_blocked h.2
  exact hends.yields.of_ok fun _ _ hrun _ => hs.advance (hs.toTidy.collapse coherent hrun)

end

end FormEdit

end MethodFlow
