import MethodFlow.Proofs.Success.Conversion

/-!
What the uses of a converted graph stand for, read off the graph alone. It stays the same when phis
that merge a single definition are removed.
-/

namespace MethodFlow

open Edit

/-- The definitions that a use stands for, apart from those of phis. From what it links to, one goes
on from the target of a phi that a block lists to the definitions that the operands of the phi link
to. -/
def FlowGraph.origins (f : FlowGraph) (n : NodeId) : Set NodeId :=
  f.tree.origins {phi | ∃ b, phi ∈ f.statements b} n

variable {o : SsaOptions} {input f : FlowGraph} {sound : Var → Prop} {events events' : List Event}
  {form : SsaForm} {n : NodeId}

/-- For a use of a converted variable, only the phis on the roster of the variable matter. -/
theorem FormEdit.Tidy.origins_eq {s : Bench SsaForm} {r : Roster} (hs : Tidy o input sound s)
    (hkindred : Tree.Kindred input.tree s.flow.tree) (coherent : input.Coherent)
    (hphis : input.placedPhis = 0) (hr : r ∈ s.own.rosters) (hn : input.tree.Occurs r.var false n) :
    s.flow.origins n = r.origins s.flow n := by
  refine (Tree.origins_eq_of_subset ?_ ?_ ?_ (hs.kept.varOf hn.varOf)).symm
  · rintro phi ⟨b, hphi⟩
    refine ⟨b, ?_⟩
    rw [hs.lists]
    exact List.mem_append_left _ (List.mem_filterMap.2 ⟨r, hr, hphi⟩)
  · rintro phi ⟨b, hphi⟩ p hp q hq
    exact (((hs.prepared r hr).newPhi hphi hp).holds.occurs_operand hq).varOf
  · rintro m x hm hlink phi ⟨b, hphi⟩ htarget
    rw [hs.lists] at hphi
    rcases List.mem_append.1 hphi with hphi | hold
    · -- The target is newer than the graph, so what links to it is an occurrence of its variable.
      obtain ⟨r', hr', hphi⟩ := List.mem_filterMap.1 hphi
      obtain ⟨p, hp⟩ := (hs.prepared r' hr').phi b phi hphi
      obtain rfl : p.target = x := Except.ok.inj (hp.holds.phiTarget.symm.trans htarget)
      obtain ⟨ot, hot, hvar, -⟩ := hp.holds.target
      have hm' := hkindred m p.target hlink (hp.fresh p.target (by simp [Tree.HoldsPhi.nodes]))
        r'.var (Tree.varOf_ok.2 ⟨ot, Tree.node?_eq_some.2 ⟨_, hot, rfl⟩, hvar⟩)
      obtain rfl : r' = r :=
        List.inj_on_of_nodup_map hs.nodup hr' hr (Except.ok.inj (hm'.symm.trans hm))
      exact ⟨b, hphi⟩
    · have hkind : s.flow.tree.phiKind? phi = none := by
        rw [hs.kept.phiKind? (coherent.inside b phi hold),
          (FlowGraph.placedPhis_eq_zero coherent).1 hphis b phi hold]
      obtain ⟨p, hp, -⟩ := Tree.phiTarget_ok.1 htarget
      simp [Tree.phiKind?, hp] at hkind

namespace FlowGraph

/-- What a conversion ends with has a form that phis can be removed from. -/
theorem toSsa_sturdy (coherent : input.Coherent)
    (h : toSsa o ⟨input, events⟩ = .ok form ⟨f, events'⟩) :
    FormEdit.Sturdy o input (fun _ => False) ⟨f, form⟩ := by
  rcases collect_outcome o ⟨input, events⟩ coherent with ⟨hnot, -⟩ | ⟨-, cause, s', herror, -⟩
  · exact ((yields_of_ok h).1 (toSsa_yields coherent hnot)).1
  · obtain ⟨groups, m, hcollect, -⟩ := Edit.bind_ok.1 h
    simp [herror] at hcollect

/-- After a conversion, phis that merge a single definition can be removed, and every use of a
converted variable outside phis stands for the definitions that it stood for. -/
theorem toSsa_origins (made : input.Made) (h : toSsa o ⟨input, events⟩ = .ok form ⟨f, events'⟩) :
    Yields FormEdit.collapse ⟨⟨f, form⟩, events'⟩ fun _ m =>
      ∀ v ∈ form.vars, ∀ n, input.tree.Occurs v false n → m.value.flow.origins n = f.origins n := by
  have coherent := made.coherent
  have hphis := placedPhis_of_toSsa h
  have hs := toSsa_sturdy coherent h
  refine (FormEdit.Sturdy.collapse (s := ⟨⟨f, form⟩, events'⟩) hs coherent).of_ok
    fun count m hrun hm v hv n hn => ?_
  obtain ⟨-, hthins⟩ := FormEdit.Tidy.collapse (s := ⟨⟨f, form⟩, events'⟩) hs.toTidy coherent hrun
  obtain ⟨r, hr, rfl⟩ := List.mem_map.1 hv
  obtain ⟨r', hr', hvar⟩ := List.mem_map.1 (hthins.vars ▸ hv : r.var ∈ m.value.own.vars)
  rw [hm.toTidy.origins_eq hm.kindred coherent hphis hr' (hvar ▸ hn),
    hs.toTidy.origins_eq hs.kindred coherent hphis hr hn, hthins.origins r hr r' hr' hvar n hn]

/-- A local is stored to in front of a protected block, to which its handler returns after it has
read the local. -/
def retried : FlowGraph := (ofLabel 0).requests
  [.addBlock 1, .addBlock 2, .addEdge ⟨0⟩ ⟨1⟩ .normal, .addHandler [⟨1⟩] ⟨2⟩ none,
    .addEdge ⟨2⟩ ⟨1⟩ .normal, .tree (.newVariable (.ofLocal 0) .int), .tree (.newLiteral (.int 1)),
    .tree (.newStore ⟨0⟩ ⟨1⟩), .appendStatement ⟨0⟩ ⟨2⟩,
    .tree (.newVariable (.ofLocal 0) .int), .tree (.newEval ⟨3⟩), .appendStatement ⟨2⟩ ⟨4⟩]

/-- The phis of the protected block and of its handler have each other's targets among their
operands. One gives way to the other, which then has its own, and the use is left with the store. -/
theorem retried_origins : retried.Made ∧ Yields (toSsa {}) ⟨retried, []⟩ fun form m =>
    m.value.tree.phiTarget ⟨7⟩ = .ok ⟨6⟩ ∧ m.value.tree.linkOf ⟨3⟩ = .ok (some ⟨6⟩) ∧
      Yields FormEdit.collapse ⟨⟨m.value, form⟩, m.events⟩ fun count m' =>
        count = 2 ∧ m'.value.flow.tree.linkOf ⟨3⟩ = .ok (some ⟨0⟩) ∧
          m'.value.flow.origins ⟨3⟩ = m.value.origins ⟨3⟩ := by
  have made : retried.Made := ⟨0, _, rfl⟩
  have huse : retried.tree.Occurs (.ofLocal 0) false ⟨3⟩ :=
    ⟨⟨.ofLocal 0, .int, false, none, none⟩, by decide +kernel, rfl, rfl⟩
  obtain ⟨form, m, hrun, hv, htarget, hlink, hcollapse⟩ :
      Yields (toSsa {}) ⟨retried, []⟩ fun form m =>
      .ofLocal 0 ∈ form.vars ∧ m.value.tree.phiTarget ⟨7⟩ = .ok ⟨6⟩ ∧
        m.value.tree.linkOf ⟨3⟩ = .ok (some ⟨6⟩) ∧
        Yields FormEdit.collapse ⟨⟨m.value, form⟩, m.events⟩ fun count m' =>
          count = 2 ∧ m'.value.flow.tree.linkOf ⟨3⟩ = .ok (some ⟨0⟩) := by decide +kernel
  obtain ⟨count, m', hremoved, horigins⟩ := toSsa_origins made hrun
  obtain ⟨hcount, hlink'⟩ := (yields_of_ok hremoved).1 hcollapse
  exact ⟨made, form, m, hrun, htarget, hlink, count, m', hremoved, hcount, hlink',
    horigins _ hv ⟨3⟩ huse⟩

end FlowGraph

end MethodFlow
