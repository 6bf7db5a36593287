import MethodFlow.Proofs.Ssa.Provenance

/-!
Phis removed by request. What was linked to the target of such a phi is still linked to it when it
is gone. Removing phis that merge a single definition is of no use to a phi that merges nothing but
such a target: where uses would have to be linked to the target, it fails.
-/

namespace MethodFlow

open Edit

namespace Roster

variable {o : SsaOptions} {base f f' : FlowGraph} {v : Var} {scope : NodeId → Var → Prop}
  {reals : BlockId → List NodeId} {r : Roster} {b : BlockId} {phi : NodeId} {p : Phi}
  {lost lost' : NodeId → Prop}

theorem WiredBut.mono (h : r.WiredBut lost f) (hlost : ∀ d, lost d → lost' d) :
    r.WiredBut lost' f :=
  fun b phi p hphi hp q hq d hd => (h b phi p hphi hp q hq d hd).mono hlost

/-- Without a phi, operands elsewhere may be linked to its target still. -/
theorem WiredBut.remove (hw : r.WiredBut lost f)
    (hr : Prepared (Admits o) base r.var scope reals r f)
    (hphi : r.phi? b = some phi) (hnew : NewPhi (Admits o) base f r.var b phi p)
    (hremoves : f.tree.Removes f'.tree phi p) (hlost : ∀ d, lost d → lost' d)
    (htarget : lost' p.target) :
    (r.setPhi b none).WiredBut lost' f' := by
  intro c n q' hn hq' m hm d hd
  have hc : c ≠ b := by
    rintro rfl
    simp at hn
  rw [phi?_setPhi_of_ne hc] at hn
  obtain ⟨q, hq⟩ := hr.phi c n hn
  have hslots := fun m => hr.slot?_of_phi (m := m) hphi hnew hremoves.other hc hn hq.holds
  have hnode := hq.holds.node?
  obtain rfl : q = q' := by
    rw [Tree.node?, hslots n (by simp [Tree.HoldsPhi.nodes]), ← Tree.node?, hnode] at hq'
    exact Node.phi.inj (Option.some.inj hq')
  rw [Tree.linkOf_congr (hslots m (by simp [Tree.HoldsPhi.nodes, hm]))] at hd
  show f'.tree.LinkEnd lost' r.var d
  by_cases hdt : d = p.target
  · have hgone := hremoves.gone p.target (by simp [Tree.HoldsPhi.nodes])
    exact .inr (hdt ▸ ⟨htarget, by simp [Tree.isLive, hgone]⟩)
  · refine ((hw c n q hn hnode m hm d hd).mono hlost).keep (fun hocc => ?_)
      ((hremoves.touches hnew.holds).live d)
    refine hocc.of_slot? (hremoves.other d (hocc.ne_of_holdsPhi hnew.holds) fun hmem => ?_)
    rcases List.mem_cons.1 hmem with he | hmem
    · exact hdt he
    · exact hnew.holds.not_mem_operands hocc hmem

end Roster

namespace FormRequest

/-- Where requests lead to, one after another, whether they fail or not. -/
def runs (rs : List FormRequest) (s : Recorded (Bench SsaForm)) : Recorded (Bench SsaForm) :=
  rs.foldl (fun s r => r.run.after s) s

/-- The request names a block of the graph if it names one. -/
def Within (f : FlowGraph) : FormRequest → Prop
  | removePhi _ b => f.contains b = true
  | collapse => True

/-- The request removes a phi of `v` with the target `d`. -/
def Drops (s : Bench SsaForm) (v : Var) (d : NodeId) : FormRequest → Prop
  | removePhi w b => v = w ∧ ∃ r phi, s.own.roster? w = some r ∧ r.phi? b = some phi ∧
      s.flow.tree.phiTarget phi = .ok d
  | collapse => False

/-- One of the requests removes a phi of `v` with the target `d`. -/
def Lost (rs : List FormRequest) (s : Recorded (Bench SsaForm)) (v : Var) (d : NodeId) : Prop :=
  ∃ before r after, rs = before ++ r :: after ∧ r.Drops (runs before s).value v d

end FormRequest

namespace FormEdit

open Roster FormRequest

variable {o : SsaOptions} {input : FlowGraph} {lost lost' : Var → NodeId → Prop}
  {v : Var} {b : BlockId}
  {s s' : Recorded (Bench SsaForm)}

theorem Frayed.mono {s : Bench SsaForm} (hs : Frayed o input lost s)
    (hlost : ∀ v d, lost v d → lost' v d) : Frayed o input lost' s :=
  ⟨hs.toTidy, fun r hr => (hs.wired r hr).mono (hlost r.var)⟩

/-- The roster of a variable is exchanged for one whose operands are linked to `lost'` at worst. -/
theorem Frayed.update {s : Bench SsaForm} {r : Roster} {m : Bench Roster}
    (hs : Frayed o input lost s) (coherent : input.Coherent) (hr : r ∈ s.own.rosters)
    (hm : Prepared (Admits o) input r.var (input.Renames o) (input.realsIn r.var) m.own m.flow)
    (hshape : s.flow.SameShape m.flow) (hsheds : Sheds ⟨s.flow, r⟩ m)
    (hreals : m.own.reals = r.reals)
    (htouches : Tree.Touches r.var s.flow.tree m.flow.tree) (hlost : ∀ v d, lost v d → lost' v d)
    (hw : m.own.WiredBut (lost' r.var) m.flow) :
    Frayed o input lost' ⟨m.flow, s.own.update m.own⟩ := by
  refine ⟨hs.toTidy.update coherent hr hm hshape hsheds hreals htouches False.elim,
    fun r' hr' => ?_⟩
  rcases mem_update hr' with rfl | ⟨hold, hne⟩
  · rwa [hm.var]
  · exact ((hs.wired r' hold).touch (hs.prepared r' hold) htouches (hm.var ▸ hne)).mono
      (hlost r'.var)

/-- A phi can be removed at any block. Its target is lost then. -/
theorem Frayed.removePhi (hs : Frayed o input lost s.value) (coherent : input.Coherent)
    (hb : input.contains b = true) : Yields (FormEdit.removePhi v b) s fun _ m =>
      Frayed o input (fun w d => lost w d ∨ (FormRequest.removePhi v b).Drops s.value w d)
        m.value := by
  refine (onRoster_ends (E := fun _ _ => False)
    (fun _ => hs.mono fun _ _ => .inl) fun r hroster => ?_).yields
  have hr : r ∈ s.value.own.rosters := List.mem_of_find?_eq_some hroster
  obtain rfl : r.var = v := by simpa using List.find?_some hroster
  have hprepared := hs.prepared r hr
  have hsucceeds : Succeeds (RosterEdit.removePhi b) ⟨⟨s.value.flow, r⟩, s.events⟩ :=
    RosterEdit.removePhi_succeeds coherent.toFramed hb hprepared
  refine .inl (hsucceeds.of_ok fun removed m hrun _ => ?_)
  cases hphi : r.phi? b with
  | none =>
    obtain ⟨-, rfl⟩ := RosterEdit.removePhi_of_none hrun hphi
    exact hs.update coherent hr hprepared (.refl _) (.refl _) rfl (.refl _ _) (fun _ _ => .inl)
      ((hs.wired r hr).mono fun _ => .inl)
  | some phi =>
    obtain ⟨p, hnew⟩ := hprepared.phi b phi hphi
    obtain ⟨-, hown, hshape, hremoves, hsheds⟩ := RosterEdit.removePhi_of_phi? hrun hphi hnew.holds
    refine hs.update coherent hr (RosterEdit.removePhi_ok hrun hprepared).1 hshape hsheds
      (by rw [hown]; rfl) (hremoves.touches hnew.holds) (fun _ _ => .inl) ?_
    rw [hown]
    exact (hs.wired r hr).remove hprepared hphi hnew hremoves (fun _ => .inl)
      (.inr ⟨rfl, r, phi, hroster, hphi, hnew.holds.phiTarget⟩)

/-- A request is served, up to a removal of phis that comes upon what is lost. -/
theorem Frayed.run (hs : Frayed o input lost s.value) (coherent : input.Coherent) (r : FormRequest)
    (hr : r.Within input) : Ends r.run s
      (fun _ m => Frayed o input (fun v d => lost v d ∨ r.Drops s.value v d) m.value)
      fun e m => Frayed o input lost m.value ∧ r = .collapse ∧ Blocked lost e m.value := by
  cases r with
  | removePhi v b => exact .inl ((hs.removePhi coherent hr).bind fun _ _ _ h => .pure h)
  | collapse =>
    refine ((hs.collapse coherent).mono fun e m h => ⟨h.1, rfl, h.2⟩).bind fun _ m _ h => .pure ?_
    exact h.mono fun _ _ => .inl

/-- Whatever is asked for, operands are linked to definitions, or to targets of phis that were
removed by request. -/
theorem Frayed.runs (coherent : input.Coherent) (rs : List FormRequest)
    (hrs : ∀ r ∈ rs, r.Within input) (hs : Frayed o input lost s.value) :
    Frayed o input (fun v d => lost v d ∨ Lost rs s v d) (FormRequest.runs rs s).value := by
  induction rs generalizing lost s with
  | nil => exact hs.mono fun _ _ => .inl
  | cons r rest ih =>
    obtain ⟨hr, hrest⟩ := List.forall_mem_cons.1 hrs
    have hnext : Frayed o input (fun v d => lost v d ∨ r.Drops s.value v d)
        (r.run.after s).value := by
      rcases hs.run coherent r hr with ⟨_, m, hrun, hm⟩ | ⟨e, m, herror, hm, -⟩
      · rwa [Edit.after_of_ok hrun]
      · rw [Edit.after_of_error herror]
        exact hm.mono fun _ _ => .inl
    refine (ih hrest hnext).mono fun v d h => ?_
    rcases h with (hlost | hdrops) | ⟨before, r', after, rfl, hdrops⟩
    · exact .inl hlost
    · exact .inr ⟨[], r, rest, rfl, hdrops⟩
    · exact .inr ⟨r :: before, r', after, rfl, hdrops⟩

end FormEdit

namespace FlowGraph

open FormRequest

variable {o : SsaOptions} {input f : FlowGraph} {events events' : List Event} {form : SsaForm}

/-- Whatever has been asked of the form of a converted graph, phis can be removed by request. Phis
that merge a single definition can be removed unless one of them merges a target that went with its
phi by request, while uses are linked to its own target. -/
theorem toSsa_serves (made : input.Made) (h : toSsa o ⟨input, events⟩ = .ok form ⟨f, events'⟩)
    (rs : List FormRequest) (hrs : ∀ r ∈ rs, r.Within f) (r : FormRequest) (hr : r.Within f) :
    Ends r.run (runs rs ⟨⟨f, form⟩, events'⟩) (fun _ _ => True) fun e m =>
      r = .collapse ∧ FormEdit.Blocked (Lost rs ⟨⟨f, form⟩, events'⟩) e m.value := by
  have coherent := made.coherent
  have hs := toSsa_sturdy coherent h
  have hwithin {r : FormRequest} (hr : r.Within f) : r.Within input := by
    cases r with
    | removePhi v b => exact (congrFun hs.shape.contains b).symm.trans hr
    | collapse => trivial
  have hruns := FormEdit.Frayed.runs (s := ⟨⟨f, form⟩, events'⟩) coherent rs
    (fun r hr => hwithin (hrs r hr)) (FormEdit.Sturdy.frayed hs)
  have hlost := hruns.mono fun v d h => h.resolve_left id
  exact ((hlost.run coherent r (hwithin hr)).mono fun _ _ h => h.2).of_ok fun _ _ _ _ => trivial

/-- Two branches store to a local and join in a protected block, whose handler returns the local. -/
def severed : FlowGraph := (ofLabel 0).requests
  [.addBlock 1, .addBlock 2, .addBlock 3, .addBlock 4,
    .tree (.newVariable (.ofLocal 0) .int), .tree (.newLiteral (.int 1)), .tree (.newStore ⟨0⟩ ⟨1⟩),
    .appendStatement ⟨1⟩ ⟨2⟩, .tree (.newVariable (.ofLocal 0) .int), .tree (.newLiteral (.int 2)),
    .tree (.newStore ⟨3⟩ ⟨4⟩), .appendStatement ⟨2⟩ ⟨5⟩, .tree (.newVariable (.ofLocal 0) .int),
    .tree (.newReturnValue ⟨6⟩), .appendStatement ⟨4⟩ ⟨7⟩, .addEdge ⟨0⟩ ⟨1⟩ .normal,
    .addEdge ⟨0⟩ ⟨2⟩ .normal, .addEdge ⟨1⟩ ⟨3⟩ .normal, .addEdge ⟨2⟩ ⟨3⟩ .normal,
    .addHandler [⟨3⟩] ⟨4⟩ none]

/-- Without the phi of the join, the one of the handler merges its target, which is gone, and the
return is linked to the target of the handler's phi. -/
theorem severed_blocked : severed.Made ∧ Yields (toSsa {}) ⟨severed, []⟩ fun form m =>
    let rs := [.removePhi (.ofLocal 0) ⟨3⟩]
    ∃ s', FormRequest.collapse.run (runs rs ⟨⟨m.value, form⟩, m.events⟩) =
      .error (.invalidNode ⟨11⟩) s' ∧
      FormEdit.Blocked (Lost rs ⟨⟨m.value, form⟩, m.events⟩) (.invalidNode ⟨11⟩) s'.value := by
  have made : severed.Made := ⟨0, _, rfl⟩
  obtain ⟨form, m, hrun, hcontains, houtcome⟩ : Yields (toSsa {}) ⟨severed, []⟩ fun form m =>
      m.value.contains ⟨3⟩ = true ∧ FormRequest.collapse.run.outcome
        (runs [.removePhi (.ofLocal 0) ⟨3⟩] ⟨⟨m.value, form⟩, m.events⟩) =
          .error (.invalidNode ⟨11⟩) := by
    decide +kernel
  obtain ⟨s', herror⟩ := outcome_error.1 houtcome
  have hends := toSsa_serves made hrun [.removePhi (.ofLocal 0) ⟨3⟩]
    (by simpa [Within] using hcontains)
    .collapse trivial
  rcases hends with ⟨_, _, hok, -⟩ | ⟨e, m', herror', -, hblocked⟩
  · simp [herror] at hok
  · obtain ⟨rfl, rfl⟩ := EStateM.Result.error.inj (herror.symm.trans herror')
    exact ⟨made, form, m, hrun, s', herror, hblocked⟩

/-- So removing phis that merge a single definition does not always succeed after one was removed by
request. -/
theorem severed_collapse_fails : severed.Made ∧ Yields (toSsa {}) ⟨severed, []⟩ fun form m =>
    Yields (FormEdit.removePhi (.ofLocal 0) ⟨3⟩) ⟨⟨m.value, form⟩, m.events⟩ fun removed m' =>
      removed = true ∧ ¬Succeeds FormEdit.collapse m' := by
  have hrun : Yields (toSsa {}) ⟨severed, []⟩ fun form m =>
      Yields (FormEdit.removePhi (.ofLocal 0) ⟨3⟩) ⟨⟨m.value, form⟩, m.events⟩ fun removed m' =>
        removed = true ∧ FormEdit.collapse.outcome m' = .error (.invalidNode ⟨11⟩) := by
    decide +kernel
  refine ⟨⟨0, _, rfl⟩, hrun.mono fun form m h => h.mono fun removed m' ⟨htrue, hout⟩ => ⟨htrue, ?_⟩⟩
  rintro ⟨count, s', hok, -⟩
  obtain ⟨s'', herror⟩ := outcome_error.1 hout
  simp [hok] at herror

end FlowGraph

end MethodFlow
