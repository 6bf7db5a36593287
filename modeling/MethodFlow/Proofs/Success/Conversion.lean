import MethodFlow.Proofs.Ssa.Refusal
import MethodFlow.Proofs.Ssa.Soundness
import MethodFlow.Proofs.Success.Collapse
import MethodFlow.Proofs.Success.Renaming

/-!
A conversion succeeds unless the graph is refused. Whatever a graph was made by, no step of its
conversion finds something that it cannot work with.
-/

namespace MethodFlow

open Edit

theorem Bench.yields_beside {τ α : Type} {start : τ} {x : Edit (Recorded (Bench τ)) α}
    {s : Recorded FlowGraph} {P : α → Recorded (Bench τ) → Prop}
    (h : Yields x ⟨⟨s.value, start⟩, s.events⟩ P) :
    Yields (Bench.beside start x) s fun a s' => P a.1 ⟨⟨s'.value, a.2⟩, s'.events⟩ := by
  obtain ⟨a, m, hrun, ha⟩ := h
  exact ⟨(a, m.value.own), ⟨m.value.flow, m.events⟩, by rw [Bench.beside, hrun], ha⟩

namespace FlowGraph

variable {o : SsaOptions} {group : Occurrences} {reals : BlockId → List NodeId} {r : Roster}
  {input f : FlowGraph} {rosters : List Roster} {events : List Event}
  {s : Recorded (Bench Numbering)}

/-- One variable can be converted. -/
theorem convertVariable_succeeds (framed : s.value.flow.Framed)
    (inside : ∀ b, ∀ n ∈ s.value.flow.statements b, n.index < s.value.flow.tree.size)
    (hlies : Lies s.value.flow group.var reals group.nodes) (hnodes : group.nodes ≠ []) :
    Succeeds (convertVariable o s.value.flow.dominators
      (s.value.flow.graph.frontiers s.value.flow.dominators) group) s := by
  obtain ⟨first, rest, hcons⟩ := List.exists_cons_of_ne_nil hnodes
  have hfirst : s.value.flow.tree.varOf first = .ok group.var := hlies.varOf (by simp [hcons])
  unfold convertVariable
  simp only [hcons]
  refine (Bench.succeeds_liftFlow (Roster.start_succeeds hfirst)).bind fun start m₁ hlift _ => ?_
  obtain ⟨hstart, -⟩ := Bench.liftFlow_ok hlift
  obtain ⟨hbegun, -⟩ : Roster.Ready (Roster.Admits o) s.value.flow group.var
      (s.value.flow.Reached group.var reals) (fun _ => []) ⟨m₁.value.flow, start⟩ ∧
        ∀ b, start.phi? b = none :=
    Roster.start_ok hstart hfirst inside
  have hprepare := RosterEdit.prepare_succeeds (s := ⟨⟨m₁.value.flow, start⟩, m₁.events⟩)
    (t := s.value.flow.dominators) hbegun hlies framed rfl
  refine (Succeeds.within (Bench.yields_beside hprepare).succeeds).bind fun ⟨_, r⟩ m₂ hrun _ => ?_
  obtain ⟨m, hbeside, rfl⟩ := Edit.within_ok.1 hrun
  have hsound := (sound_of_prepare hstart (Bench.beside_ok.1 hbeside) hfirst framed inside hlies).1
  have hrename := Renaming.rename_succeeds (s := ⟨⟨m.value, m₁.value.own⟩, m.events⟩) framed hsound
    hsound.fits
  exact hrename.bind fun _ _ _ _ => .pure trivial

/-- All variables of a graph without phis can be converted, and every new link leads to a definition
in use. -/
theorem convertVariables_yields (hs : s.value.flow = input) (coherent : input.Coherent)
    (hphis : input.placedPhis = 0) :
    Yields ((input.occurrences o).mapM (convertVariable o input.dominators
      (input.graph.frontiers input.dominators))) s fun rosters m =>
        rosters.map Roster.var = (input.occurrences o).map Occurrences.var ∧
          Partly o input rosters m.value.flow ∧ input.tree.Rewires m.value.flow.tree := by
  refine .mapM (fun before done (m : Recorded (Bench Numbering)) =>
    done.map Roster.var = before.map Occurrences.var ∧ Partly o input done m.value.flow ∧
      input.tree.Rewires m.value.flow.tree) ⟨rfl, ?_⟩ ?_
  · rw [hs]
    exact ⟨⟨.refl input, .refl _, by simp, by simp, by simp⟩, Std.Refl.refl _⟩
  · rintro before group after done m hsplit ⟨hvars, hm, hlinks⟩
    have hgroup : group ∈ input.occurrences o := by simp [hsplit]
    have hnew : ∀ old ∈ done, old.var ≠ group.var := fun old hold =>
      var_ne_of_occurrences hsplit (hvars ▸ List.mem_map_of_mem hold)
    have hlies := lies_realsIn coherent (nodes_of_mem_occurrences hgroup).2
    have hrun := convertVariable_succeeds (o := o) (hm.shape.framed coherent.toFramed)
      (hm.inside coherent) (hm.lies hlies) (nodes_ne_nil hgroup)
    rw [hm.shape.dominators, hm.shape.frontiers] at hrun
    refine hrun.of_ok fun r m' hrun _ => ?_
    obtain ⟨hvar, hnext⟩ := hm.convertVariable coherent hphis hgroup hnew hrun
    exact ⟨by simp [hvars, hvar], hnext,
      IsTrans.trans _ _ _ hlinks (hm.rewires coherent hgroup hrun)⟩

/-- A graph in which new links lead to definitions has a form that phis can be removed from. -/
theorem Partly.sturdy {s : Bench SsaForm} (h : Partly o input s.own.rosters s.flow)
    (hlinks : input.tree.Rewires s.flow.tree)
    (hvars : s.own.vars = (input.occurrences o).map Occurrences.var) (coherent : input.Coherent) :
    FormEdit.Sturdy o input (fun _ => False) s where
  toTidy := (h.tidy (hvars ▸ nodup_vars input o) coherent).mono fun _ => False.elim
  wired := h.wired hlinks
  anchored := h.anchored hlinks coherent
  kindred := .of_rewires hlinks coherent.tree

/-- What a conversion ends with unless the graph is refused. New links lead to definitions in use,
as long as no phi is removed. -/
theorem toSsa_yields (coherent : input.Coherent) (h : ¬input.Refused o) :
    Yields (toSsa o) ⟨input, events⟩ fun form m =>
      FormEdit.Sturdy o input (fun _ => False) ⟨m.value, form⟩ ∧
        (o.collapse = false → input.tree.Rewires m.value.tree) := by
  obtain ⟨-, hphis, m, hcollect, hvalue⟩ | ⟨hrefused, -⟩ :=
    collect_outcome o ⟨input, events⟩ coherent
  · refine .of_first hcollect (.of_get ?_)
    rw [hvalue]
    have hconvert := convertVariables_yields (o := o)
      (s := ⟨⟨m.value, {}⟩, m.events⟩) hvalue coherent
      hphis
    refine (Bench.yields_beside hconvert).bind ?_
    rintro ⟨rosters, numbering⟩ m₁ - ⟨hvars, hpartly, hlinks⟩
    have hsturdy := hpartly.sturdy (s := ⟨m₁.value, ⟨rosters, numbering⟩⟩) hlinks hvars coherent
    cases hcollapse : o.collapse with
    | false => exact .pure ⟨hsturdy, fun _ => hlinks⟩
    | true =>
      exact (Bench.yields_beside
        (FormEdit.Sturdy.collapse (s := ⟨_, m₁.events⟩) hsturdy coherent)).bind
        fun _ _ _ h => .pure ⟨h, by simp⟩
  · exact absurd hrefused h

theorem toSsa_succeeds (coherent : input.Coherent) (h : ¬input.Refused o) :
    Succeeds (toSsa o) ⟨input, events⟩ := (toSsa_yields coherent h).succeeds

/-- A conversion fails for the graphs that are refused and for no others. The reason lies in the
graph then, which is left as it is. -/
theorem toSsa_fails_iff (made : input.Made) (o : SsaOptions) (events : List Event) :
    (¬Succeeds (toSsa o) ⟨input, events⟩ ↔ input.Refused o) ∧
      (input.Refused o → ∃ cause s', toSsa o ⟨input, events⟩ = .error (.graph cause) s' ∧
        s'.value = input) := by
  have coherent := made.coherent
  have hrefusal (h : input.Refused o) :
      ∃ cause s', toSsa o ⟨input, events⟩ = .error (.graph cause) s' ∧ s'.value = input := by
    rcases collect_outcome o ⟨input, events⟩ coherent with ⟨hnot, -⟩ |
      ⟨-, cause, s', hcollect, hsame⟩
    · exact absurd h hnot
    · exact ⟨cause, s', bind_error.2 (.inl hcollect), hsame⟩
  refine ⟨⟨fun hfails => ?_, fun h => ?_⟩, hrefusal⟩
  · by_contra h
    exact hfails (toSsa_succeeds coherent h)
  · rintro ⟨form, m, hrun, -⟩
    obtain ⟨cause, s', herror, -⟩ := hrefusal h
    simp [herror] at hrun

/-- The diamond is converted, and once it is, it is refused for its phi. -/
theorem diamond_converts_once : ¬diamond.Refused {} ∧ (diamond.request (.convert {})).Made ∧
    ∃ cause s', toSsa {} ⟨diamond.request (.convert {}), []⟩ = .error (.graph cause) s' ∧
      s'.value = diamond.request (.convert {}) := by
  have made : diamond.Made := ⟨0, _, rfl⟩
  have hsucceeds : Succeeds (toSsa {}) ⟨diamond, []⟩ := by decide +kernel
  have made' : (diamond.request (.convert {})).Made := made.request _
  have hphi : ⟨12⟩ ∈ (diamond.request (.convert {})).statements ⟨3⟩ ∧
      ((diamond.request (.convert {})).tree.phiKind? ⟨12⟩).isSome := by decide +kernel
  exact ⟨fun h => (toSsa_fails_iff made {} []).1.2 h hsucceeds, made',
    (toSsa_fails_iff made' {} []).2 (.inl ⟨⟨3⟩, ⟨12⟩, hphi⟩)⟩

end FlowGraph

end MethodFlow
