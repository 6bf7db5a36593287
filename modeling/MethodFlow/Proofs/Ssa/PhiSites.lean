import MethodFlow.Proofs.Ssa.Soundness

/-!
Where phis stand after a conversion, read off the converted graph alone. They are where they are
needed, one for a variable and a block.
-/

namespace MethodFlow

open Edit

namespace Tree

def phiVar (t : Tree) (n : NodeId) : Except Fault Var := do t.varOf (← t.phiTarget n)

theorem phiVar_ok {t : Tree} {n : NodeId} {v : Var} :
    t.phiVar n = .ok v ↔ ∃ p, t.node? n = some (.phi p) ∧ t.varOf p.target = .ok v := by
  simp only [phiVar, Except.bind_eq_ok, phiTarget_ok]
  constructor
  · rintro ⟨_, ⟨p, hp, rfl⟩, hv⟩
    exact ⟨p, hp, hv⟩
  · rintro ⟨p, hp, hv⟩
    exact ⟨_, ⟨p, hp, rfl⟩, hv⟩

/-- The variable of a phi is a matter of the phi and its target. -/
theorem phiVar_congr {t t' : Tree} {n : NodeId} (hn : t'.node? n = t.node? n)
    (htarget : ∀ p, t.node? n = some (.phi p) → t'.node? p.target = t.node? p.target) {v : Var} :
    t'.phiVar n = .ok v ↔ t.phiVar n = .ok v := by
  rw [phiVar_ok, phiVar_ok, hn]
  refine exists_congr fun p => and_congr_right fun hp => ?_
  rw [varOf_ok, varOf_ok, htarget p hp]

theorem HoldsPhi.phiVar {t : Tree} {n : NodeId} {v : Var} {p : Phi} {block : Option BlockId}
    (h : t.HoldsPhi v n p block) : t.phiVar n = .ok v := by
  obtain ⟨o, ho, hv, -⟩ := h.target
  exact phiVar_ok.2 ⟨p, h.node?,
    varOf_ok.2 ⟨o, node?_eq_some.2 ⟨_, ho, rfl⟩, hv⟩⟩

end Tree

namespace FlowGraph

def phisOf (f : FlowGraph) (v : Var) (b : BlockId) : List NodeId :=
  (f.statements b).filter fun n => f.tree.phiVar n = .ok v

theorem phiVar_of_phiKind?_eq_none {t : Tree} {n : NodeId} (h : t.phiKind? n = none) (v : Var) :
    t.phiVar n ≠ .ok v := by
  intro hv
  obtain ⟨p, hp, -⟩ := Tree.phiVar_ok.1 hv
  simp [Tree.phiKind?, hp] at h

/-- Without phis in its blocks a graph has none of any variable. -/
theorem phisOf_eq_nil {f : FlowGraph} (coherent : f.Coherent) (h : f.placedPhis = 0) (v : Var)
    (b : BlockId) : f.phisOf v b = [] :=
  List.filter_eq_nil_iff.2 fun n hn => by
    simpa using phiVar_of_phiKind?_eq_none ((placedPhis_eq_zero coherent).1 h b n hn) v

theorem NeedsPhi.exists_kind {f : FlowGraph} {o : SsaOptions} {v : Var}
    {reals : BlockId → List NodeId} {b : BlockId} (h : f.NeedsPhi o v reals b) :
    ∃ k, f.NeedsPhiOf o v reals b k := by
  by_cases hreturn : f.ReturnPoint o reals b
  · exact ⟨.returning, h, by simp [hreturn], by simp [CatchPoint, hreturn]⟩
  · by_cases hcatch : f.CatchPoint o v reals b
    · exact ⟨.catching, h, by simp [hreturn], by simp [hcatch]⟩
    · exact ⟨.joining, h, by simp [hreturn], by simp [hcatch]⟩

variable {o : SsaOptions} {input f : FlowGraph} {events events' : List Event} {form : SsaForm}

namespace Partly

variable {rosters : List Roster} {r : Roster} {b : BlockId}

/-- What a block lists of a variable's phis is the phi on the variable's roster. -/
theorem phisOf_eq (h : Partly o input rosters f) (coherent : input.Coherent)
    (hphis : input.placedPhis = 0) (hvars : (rosters.map Roster.var).Nodup) (hr : r ∈ rosters) :
    f.phisOf r.var b = (r.phi? b).toList := by
  have hvar {r' : Roster} (hr' : r' ∈ rosters) {n : NodeId} (hn : r'.phi? b = some n) :
      f.tree.phiVar n = .ok r'.var := by
    obtain ⟨p, hp⟩ := (h.converted r' hr').prepared.phi b n hn
    exact hp.holds.phiVar
  have hrest : (input.statements b).filter (fun n => f.tree.phiVar n = .ok r.var) = [] := by
    refine List.filter_eq_nil_iff.2 fun n hn => ?_
    have hnone : f.tree.phiKind? n = none := by
      rw [h.kept.phiKind? (coherent.inside b n hn), (placedPhis_eq_zero coherent).1 hphis b n hn]
    simpa using phiVar_of_phiKind?_eq_none hnone r.var
  -- Only the roster itself has the variable among those in front of it and behind it.
  obtain ⟨before, after, rfl⟩ := List.append_of_mem hr
  rw [List.map_append, List.map_cons, List.nodup_append, List.nodup_cons] at hvars
  obtain ⟨-, ⟨hafter, -⟩, hbefore⟩ := hvars
  have hothers {rest : List Roster} (hmem : ∀ r' ∈ rest, r' ∈ before ++ r :: after)
      (hne : ∀ r' ∈ rest, r'.var ≠ r.var) :
      (rest.filterMap (·.phi? b)).filter (fun n => f.tree.phiVar n = .ok r.var) = [] := by
    refine List.filter_eq_nil_iff.2 fun n hn => ?_
    obtain ⟨r', hr', hphi⟩ := List.mem_filterMap.1 hn
    simp [hvar (hmem r' hr') hphi, hne r' hr']
  rw [phisOf, h.lists, List.filter_append, hrest, List.append_nil, List.filterMap_append,
    List.filterMap_cons, List.filter_append, hothers (fun r' hr' => by simp [hr']) fun r' hr' =>
      hbefore _ (List.mem_map_of_mem hr') _ (by simp), List.nil_append]
  have hlast : (after.filterMap (·.phi? b)).filter (fun n => f.tree.phiVar n = .ok r.var) = [] :=
    hothers (fun r' hr' => by simp [hr']) fun r' hr' he => hafter (he ▸ List.mem_map_of_mem hr')
  cases hphi : r.phi? b with
  | none => exact hlast
  | some n =>
    show (n :: after.filterMap (·.phi? b)).filter _ = [n]
    rw [List.filter_cons_of_pos (by simp [hvar hr hphi]), hlast]

end Partly

/-- After a conversion that keeps its phis, a block lists a phi of a converted variable if it needs
one, and never a second one. It is a phi of the kind that is needed there. -/
theorem toSsa_places (made : input.Made) (hoff : o.collapse = false)
    (h : toSsa o ⟨input, events⟩ = .ok form ⟨f, events'⟩) :
    form.vars = (input.occurrences o).map Occurrences.var ∧
      ∀ v ∈ form.vars, ∀ b, (f.phisOf v b).length ≤ 1 ∧
        (f.phisOf v b ≠ [] ↔ input.NeedsPhi o v (input.realsIn v) b) ∧
        ∀ n ∈ f.phisOf v b, ∀ k,
          f.tree.phiKind? n = some k ↔ input.NeedsPhiOf o v (input.realsIn v) b k := by
  have coherent := made.coherent
  obtain ⟨hvars, hpartly⟩ := toSsa_ok h coherent hoff
  refine ⟨hvars, fun v hv b => ?_⟩
  obtain ⟨r, hr, rfl⟩ := List.mem_map.1 hv
  have hnodup : form.vars.Nodup := hvars ▸ nodup_vars input o
  have hlist := hpartly.phisOf_eq (b := b) coherent (placedPhis_of_toSsa h) hnodup hr
  have hplaced := (hpartly.converted r hr).placed b
  have hsome := (hpartly.converted r hr).prepared.isSome_kindAt? b
  rw [Roster.kindAt?] at hplaced hsome
  rw [hlist]
  cases hphi : r.phi? b with
  | none =>
    refine ⟨by simp, iff_of_false (by simp) fun hneeds => ?_, by simp⟩
    obtain ⟨k, hk⟩ := hneeds.exists_kind
    simpa [hphi] using (hplaced k).2 hk
  | some n =>
    rw [hphi, Option.bind_some] at hplaced hsome
    obtain ⟨k, hk⟩ := Option.isSome_iff_exists.1 hsome
    refine ⟨by simp, iff_of_true (by simp) ((hplaced k).1 hk).1, fun m hm => ?_⟩
    obtain rfl := List.mem_singleton.1 hm
    exact hplaced

/-- A subroutine stores to a local, which is returned where its one call comes back to. -/
def callOnce : FlowGraph := (ofLabel 0).requests
  [.addBlock 1, .addBlock 2, .addSubroutine ⟨2⟩, .setSubroutineExit ⟨0⟩ ⟨2⟩,
    .addSubroutineCall ⟨0⟩ ⟨0⟩ ⟨1⟩, .tree (.newVariable (.ofLocal 0) .int),
    .tree (.newLiteral (.int 1)), .tree (.newStore ⟨0⟩ ⟨1⟩), .appendStatement ⟨2⟩ ⟨2⟩,
    .tree (.newVariable (.ofLocal 0) .int), .tree (.newReturnValue ⟨3⟩), .appendStatement ⟨1⟩ ⟨4⟩]

/-- The local gets a phi where the call comes back to, and nowhere else. -/
theorem callOnce_places : callOnce.Made ∧ Yields (toSsa {}) ⟨callOnce, []⟩ fun _ m =>
    m.value.phisOf (.ofLocal 0) ⟨1⟩ = [⟨8⟩] ∧
      callOnce.NeedsPhiOf {} (.ofLocal 0) (callOnce.realsIn (.ofLocal 0)) ⟨1⟩ .returning ∧
      ¬callOnce.NeedsPhi {} (.ofLocal 0) (callOnce.realsIn (.ofLocal 0)) ⟨2⟩ := by
  have made : callOnce.Made := ⟨0, _, rfl⟩
  obtain ⟨form, m, hrun, hv, hlist, hkind, hnone⟩ : Yields (toSsa {}) ⟨callOnce, []⟩ fun form m =>
      .ofLocal 0 ∈ form.vars ∧ m.value.phisOf (.ofLocal 0) ⟨1⟩ = [⟨8⟩] ∧
        m.value.tree.phiKind? ⟨8⟩ = some .returning ∧ m.value.phisOf (.ofLocal 0) ⟨2⟩ = [] := by
    decide +kernel
  have hplaces := (toSsa_places made rfl hrun).2 _ hv
  refine ⟨made, form, m, hrun, hlist, ?_, fun hneeds => (hplaces ⟨2⟩).2.1.2 hneeds hnone⟩
  exact ((hplaces ⟨1⟩).2.2 ⟨8⟩ (by simp [hlist]) .returning).1 hkind

end FlowGraph

end MethodFlow
