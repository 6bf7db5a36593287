import MethodFlow.Proofs.Ssa.Numbers
import MethodFlow.Proofs.Ssa.PhiSites
import MethodFlow.Proofs.Ssa.Refusal

/-!
The versions that definitions have after a conversion. For each variable they are the numbers from
zero on, one for each definition that can be reached, and they grow within a block and down the
dominator tree.
-/

namespace MethodFlow

open Edit

/-- The version of `d` is smaller than that of `e`, as far as both have one. -/
def Tree.Precedes (t : Tree) (d e : NodeId) : Prop :=
  ∀ i j, t.versionOf d = .ok (some i) → t.versionOf e = .ok (some j) → i < j

namespace Roster

variable {o : SsaOptions} {base f f' : FlowGraph} {v : Var} {scope scope' : NodeId → Var → Prop}
  {reals : BlockId → List NodeId} {r : Roster} {nodes : List NodeId} {s s' : Bench Numbering}

theorem Alike.definitions (h : r.Alike reals f f') :
    r.definitions f' reals = r.definitions f reals := by
  funext b
  rw [Roster.definitions, h.met, Roster.definitions]
  exact List.filter_congr fun n hn => h.defines b n hn

/-- No definition is met twice. -/
theorem Prepared.nodup_definitions (h : Prepared (Admits o) base v scope reals r f)
    (hlies : Lies base v reals nodes) {blocks : List BlockId} (hblocks : blocks.Nodup) :
    (blocks.flatMap (r.definitions f reals)).Nodup := by
  refine List.nodup_flatMap.2 ⟨fun b _ => ?_, hblocks.imp fun hne d hd hd' => ?_⟩
  · rw [h.definitions_eq, List.nodup_append]
    refine ⟨?_, (hlies.nodup b).filter _, ?_⟩
    · cases r.targetAt? f b <;> simp
    · rintro d hd _ hd' rfl
      obtain ⟨phi, p, hphi, hp, rfl⟩ := h.targetAt?_eq_some.1 (Option.mem_toList.1 hd)
      have hfresh := (h.newPhi hphi hp).fresh p.target (by simp [Tree.HoldsPhi.nodes])
      exact absurd (hlies.index_lt (List.mem_filter.1 hd').1) (Nat.not_lt.2 hfresh)
  · exact hne (h.block_unique hlies (List.mem_filter.1 hd).1 (List.mem_filter.1 hd').1)

/-- The definitions of a variable have their numbers, in the order in which the way down a dominator
tree meets them. Those that are not met on the way have none. -/
structure Numbered (r : Roster) (t : DominatorTree) (reals : BlockId → List NodeId)
    (s : Bench Numbering) : Prop where
  count : s.own.count r.var = (t.descent.flatMap (r.definitions s.flow reals)).length
  given : ∀ i d, (t.descent.flatMap (r.definitions s.flow reals))[i]? = some d →
    s.flow.tree.number? d = some i
  unmet : ∀ b, b ∉ t.descent → ∀ d ∈ r.definitions s.flow reals b, s.flow.tree.number? d = none

section order

variable {t : DominatorTree} {b : BlockId} {d e : NodeId}

theorem Numbered.mem_met (h : r.Numbered t reals s) (hb : b ∈ t.descent)
    (hd : d ∈ r.definitions s.flow reals b) :
    ∃ i, (t.descent.flatMap (r.definitions s.flow reals))[i]? = some d ∧
      s.flow.tree.number? d = some i := by
  obtain ⟨i, hi⟩ := List.mem_iff_getElem?.1 (List.mem_flatMap.2 ⟨b, hb, hd⟩)
  exact ⟨i, hi, h.given i d hi⟩

/-- The numbers of the definitions that are met are those below their count, each given once. -/
theorem Numbered.bijOn (h : r.Numbered t reals s) :
    Set.BijOn s.flow.tree.number? {d | ∃ b ∈ t.descent, d ∈ r.definitions s.flow reals b}
      (some '' Set.Iio (s.own.count r.var)) := by
  refine ⟨?_, ?_, ?_⟩
  · rintro d ⟨b, hb, hd⟩
    obtain ⟨i, hi, hnumber⟩ := h.mem_met hb hd
    obtain ⟨hlt, -⟩ := List.getElem?_eq_some_iff.1 hi
    exact ⟨i, h.count ▸ hlt, hnumber.symm⟩
  · rintro d ⟨b, hb, hd⟩ e ⟨c, hc, he⟩ hsame
    obtain ⟨i, hi, hd⟩ := h.mem_met hb hd
    obtain ⟨j, hj, he⟩ := h.mem_met hc he
    obtain rfl : i = j := Option.some.inj (hd.symm.trans (hsame.trans he))
    exact Option.some.inj (hi.symm.trans hj)
  · rintro _ ⟨i, hlt, rfl⟩
    have hi := List.getElem?_eq_getElem (h.count ▸ hlt)
    obtain ⟨b, hb, hd⟩ := List.mem_flatMap.1 (List.mem_of_getElem? hi)
    exact ⟨_, ⟨b, hb, hd⟩, h.given i _ hi⟩

/-- Of two definitions that are met the earlier one has the smaller number. -/
theorem Numbered.pairwise (h : r.Numbered t reals s) :
    (t.descent.flatMap (r.definitions s.flow reals)).Pairwise fun d e =>
      ∀ i j, s.flow.tree.number? d = some i → s.flow.tree.number? e = some j → i < j := by
  refine List.pairwise_iff_getElem.2 fun i j hi hj hlt i' j' hi' hj' => ?_
  rw [h.given i _ (List.getElem?_eq_getElem hi), Option.some.injEq] at hi'
  rw [h.given j _ (List.getElem?_eq_getElem hj), Option.some.injEq] at hj'
  rwa [← hi', ← hj']

/-- Numbers grow within a block. -/
theorem Numbered.pairwise_definitions (h : r.Numbered t reals s) (b : BlockId) :
    (r.definitions s.flow reals b).Pairwise fun d e =>
      ∀ i j, s.flow.tree.number? d = some i → s.flow.tree.number? e = some j → i < j := by
  by_cases hb : b ∈ t.descent
  · exact (List.pairwise_flatMap.1 h.pairwise).1 b hb
  · refine List.pairwise_of_forall_mem_list fun d hd e _ i j hi => ?_
    simp [h.unmet b hb d hd] at hi

/-- Numbers grow down the dominator tree. -/
theorem Numbered.lt_of_strictlyDominates {g : Digraph Block EdgeKind} {entry a : BlockId}
    (h : r.Numbered (g.dominatorTree entry) reals s) (closed : g.Closed) (hentry : g.contains entry)
    (hdom : g.StrictlyDominates entry a b) (hd : d ∈ r.definitions s.flow reals a)
    (he : e ∈ r.definitions s.flow reals b) {i j : Nat} (hi : s.flow.tree.number? d = some i)
    (hj : s.flow.tree.number? e = some j) : i < j := by
  obtain ⟨before, after, hsplit, hb⟩ := Digraph.exists_descent_eq_append closed hentry hdom
  have hpairs := (List.pairwise_flatMap.1 h.pairwise).2
  rw [hsplit] at hpairs
  exact (List.pairwise_cons.1 (List.pairwise_append.1 hpairs).2.1).1 b hb d hd e he i j hi hj

end order

theorem Numbered.retouch {t : DominatorTree} (h : r.Numbered t reals s)
    (hc : Converted o base scope reals r s.flow) (hshape : s.flow.SameShape s'.flow)
    (hkept : s.flow.tree.Retouched scope' s'.flow.tree) (hout : ∀ m, ¬scope' m r.var)
    (hcount : s'.own.count r.var = s.own.count r.var) : r.Numbered t reals s' := by
  have hdefinitions := (hc.alike_of_retouched hshape hkept).definitions
  have hnumber {b : BlockId} {d : NodeId} (hd : d ∈ r.definitions s.flow reals b) :
      s'.flow.tree.number? d = s.flow.tree.number? d :=
    hkept.number?_eq (hc.varOf_met (List.mem_filter.1 hd).1) (hout d)
  refine ⟨?_, fun i d hd => ?_, fun b hb d hd => ?_⟩
  · rw [hcount, hdefinitions, h.count]
  · rw [hdefinitions] at hd
    obtain ⟨b, -, hmem⟩ := List.mem_flatMap.1 (List.mem_of_getElem? hd)
    rw [hnumber hmem, h.given i d hd]
  · rw [hdefinitions] at hd
    rw [hnumber hd, h.unmet b hb d hd]

end Roster

/-- No number of a variable is taken, and no definition outside phis has one. -/
structure Unnumbered (v : Var) (reals : BlockId → List NodeId) (s : Bench Numbering) : Prop where
  count : s.own.count v = 0
  number : ∀ b, ∀ n ∈ reals b, s.flow.tree.defines n = true → s.flow.tree.number? n = none

theorem Unnumbered.retouch {v : Var} {reals : BlockId → List NodeId} {s s' : Bench Numbering}
    {scope : NodeId → Var → Prop} (h : Unnumbered v reals s)
    (hvar : ∀ b, ∀ n ∈ reals b, s.flow.tree.varOf n = .ok v)
    (hkept : s.flow.tree.Retouched scope s'.flow.tree) (hout : ∀ m, ¬scope m v)
    (hcount : s'.own.count v = s.own.count v) : Unnumbered v reals s' := by
  refine ⟨hcount.trans h.count, fun b n hn hd => ?_⟩
  rw [hkept.defines (hvar b n hn)] at hd
  rw [hkept.number?_eq (hvar b n hn) (hout n), h.number b n hn hd]

namespace Plan

variable {k : Plan} {nodes : List NodeId} {s s' : Bench Numbering}

theorem Sound.number?_eq_none (hk : k.Sound nodes) {b : BlockId} {d : NodeId}
    (hinherits : Tree.Inherits Occurrence.version k.base.tree k.graph.tree)
    (hnone : ∀ b, ∀ n ∈ k.reals b, k.base.tree.defines n = true → k.base.tree.number? n = none)
    (hd : d ∈ k.roster.definitions k.graph k.reals b) : k.graph.tree.number? d = none := by
  rw [Option.eq_none_iff_forall_ne_some]
  intro i hi
  obtain ⟨oc, hoc, hversion⟩ := Tree.number?_eq_some.1 hi
  obtain ⟨old, hold, hnumbered⟩ := hinherits d oc hoc i hversion
  rw [hk.fits.prepared.definitions_eq] at hd
  rcases List.mem_append.1 hd with hd | hd
  · -- The target of a phi is new.
    obtain ⟨phi, p, hphi, hp, rfl⟩ := hk.fits.prepared.targetAt?_eq_some.1 (Option.mem_toList.1 hd)
    have hfresh := (hk.newPhi hphi hp).fresh p.target (by simp [Tree.HoldsPhi.nodes])
    obtain ⟨so, hso, -⟩ := Tree.node?_eq_some.1 hold
    exact absurd (Tree.index_lt_size hso) (Nat.not_lt.2 hfresh)
  · obtain ⟨hreal, hdefines⟩ := List.mem_filter.1 hd
    rw [hk.fits.prepared.kept.defines (hk.lies.var b d hreal)] at hdefines
    have := hnone b d hreal hdefines
    rw [Tree.number?_of_node? hold, hnumbered] at this
    cases this

/-- A plan that has been carried out has numbered its definitions. -/
theorem numbered (hk : k.Sound nodes) (hf : k.Fits s'.flow)
    (closed : k.base.graph.Closed) (hentry : k.base.contains FlowGraph.entry = true)
    (hnumbers : Numbers k.var (k.base.dominators.descent.flatMap
      (k.roster.definitions k.graph k.reals)) s s')
    (hcount : s.own.count k.var = 0)
    (hnone : ∀ b, ∀ d ∈ k.roster.definitions k.graph k.reals b, s.flow.tree.number? d = none) :
    k.roster.Numbered k.base.dominators k.reals s' := by
  have hdefinitions := (hf.alike hk).definitions
  have hnodup := hk.fits.prepared.nodup_definitions hk.lies (Digraph.nodup_descent closed hentry)
  refine ⟨?_, fun i d hd => ?_, fun b hb d hd => ?_⟩
  · rw [hdefinitions, hk.fits.prepared.var, hnumbers.count, hcount, if_pos rfl, Nat.zero_add]
  · rw [hdefinitions] at hd
    rw [hnumbers.given_of_nodup hnodup hd, hcount, Nat.zero_add]
  · rw [hdefinitions] at hd
    rw [hnumbers.other d fun hmem => hb ?_, hnone b d hd]
    obtain ⟨c, hc, hdc⟩ := List.mem_flatMap.1 hmem
    rwa [hk.fits.prepared.block_unique hk.lies (List.mem_filter.1 hd).1 (List.mem_filter.1 hdc).1]

end Plan

namespace FlowGraph

variable {o : SsaOptions} {group : Occurrences} {reals : BlockId → List NodeId} {r : Roster}
  {rosters : List Roster} {input f : FlowGraph} {events events' : List Event} {form : SsaForm}
  {s s' : Recorded (Bench Numbering)}

/-- The conversion of a variable that has no numbers gives it numbers, and no other variable. -/
theorem numbered_of_convertVariable
    (h : convertVariable o s.value.flow.dominators
      (s.value.flow.graph.frontiers s.value.flow.dominators) group s = .ok r s')
    (framed : s.value.flow.Framed)
    (inside : ∀ b, ∀ n ∈ s.value.flow.statements b, n.index < s.value.flow.tree.size)
    (hlies : Lies s.value.flow group.var reals group.nodes)
    (hnone : Unnumbered group.var reals s.value) :
    r.Numbered s.value.flow.dominators reals s'.value ∧
      ∀ w, w ≠ group.var → s'.value.own.count w = s.value.own.count w := by
  obtain ⟨first, hfirst, start, u, m₁, m₂, hstart, hprepare, hrename⟩ := convertVariable_steps h
  have hinherits := placed_of_prepare (placing_inherits Tree.spared_version) hstart hprepare
  obtain ⟨hstart, hown⟩ := Bench.liftFlow_ok hstart
  obtain ⟨m, hbeside, rfl⟩ := Edit.within_ok.1 hprepare
  obtain ⟨hsound, -⟩ := sound_of_prepare hstart
    (Bench.beside_ok.1 hbeside) (hlies.varOf hfirst) framed inside hlies
  obtain ⟨hadvances, -⟩ :=
    Renaming.rename_ok (k := ⟨o, s.value.flow, group.var, reals, r, m.value⟩) framed.closed
      framed.entry hrename hsound hsound.fits
  have hnumbers := Renaming.numbers_rename framed.closed framed.entry hsound hrename hsound.fits
  have hcount := hown ▸ hnone.count
  have hnumbered := Plan.numbered hsound hadvances.fits framed.closed framed.entry hnumbers hcount
    fun _ _ => hsound.number?_eq_none hinherits hnone.number
  refine ⟨hnumbered, fun w hw => ?_⟩
  rw [hnumbers.count, if_neg (Ne.symm hw), ← hown]
  rfl

/-- The converted variables have their numbers, and those that are still to be converted have
none. -/
structure Assigned (o : SsaOptions) (input : FlowGraph) (rosters : List Roster)
    (s : Bench Numbering) : Prop where
  done : ∀ r ∈ rosters, r.Numbered input.dominators (input.realsIn r.var) s
  rest : ∀ group ∈ input.occurrences o, group.var ∉ rosters.map Roster.var →
    Unnumbered group.var (input.realsIn group.var) s

theorem Assigned.convertVariable (ha : Assigned o input rosters s.value)
    (hs : Partly o input rosters s.value.flow) (coherent : input.Coherent)
    (hgroup : group ∈ input.occurrences o) (hnew : group.var ∉ rosters.map Roster.var)
    (h : FlowGraph.convertVariable o input.dominators (input.graph.frontiers input.dominators) group
      s = .ok r s') : Assigned o input (rosters ++ [r]) s'.value := by
  have hlies {group : Occurrences} (hgroup : group ∈ input.occurrences o) :=
    hs.lies (lies_realsIn coherent (nodes_of_mem_occurrences hgroup).2)
  have hdominators := hs.shape.dominators
  rw [← hdominators, ← hs.shape.frontiers] at h
  obtain ⟨hvar, hconverted, -⟩ := convertVariable_ok h (hs.shape.framed coherent.toFramed)
    (hs.inside coherent) (hlies hgroup)
  obtain ⟨hnumbered, hcounts⟩ := numbered_of_convertVariable h (hs.shape.framed coherent.toFramed)
    (hs.inside coherent) (hlies hgroup) (ha.rest group hgroup hnew)
  have hkept := hconverted.prepared.kept
  refine ⟨fun old hold => ?_, fun other hother hout => ?_⟩
  · rcases List.mem_append.1 hold with hold | hold
    · have hne : old.var ≠ group.var := fun he => hnew (he ▸ List.mem_map_of_mem hold)
      exact (ha.done old hold).retouch (hs.converted old hold) hconverted.prepared.shape hkept
        (fun _ hw => hne hw.1) (hcounts _ hne)
    · rw [List.mem_singleton.1 hold, hvar, ← hdominators]
      exact hnumbered
  · rw [List.map_append, List.mem_append, not_or] at hout
    have hne : other.var ≠ group.var := fun he => hout.2 (by simp [hvar, he])
    exact (ha.rest other hother hout.1).retouch (hlies hother).var hkept (fun _ hw => hne hw.1)
      (hcounts _ hne)

theorem convertVariables_assigned
    (h : (input.occurrences o).mapM (FlowGraph.convertVariable o input.dominators
      (input.graph.frontiers input.dominators)) s = .ok rosters s')
    (hs : s.value.flow = input) (coherent : input.Coherent) (hphis : input.placedPhis = 0)
    (hstart : Assigned o input [] s.value) : Assigned o input rosters s'.value := by
  refine (Edit.mapM_ok h (fun before done m =>
    (done.map Roster.var = before.map Occurrences.var ∧ Partly o input done m.value.flow) ∧
      Assigned o input done m.value) ⟨⟨rfl, ?_⟩, hstart⟩ ?_).2
  · rw [hs]
    exact ⟨.refl input, .refl _, by simp, by simp, by simp⟩
  · rintro before group after done r m m' hsplit ⟨⟨hvars, hm⟩, ha⟩ hstep
    have hgroup : group ∈ input.occurrences o := by simp [hsplit]
    have hnew : group.var ∉ done.map Roster.var := fun hmem =>
      var_ne_of_occurrences hsplit (hvars ▸ hmem) rfl
    obtain ⟨hvar, hnext⟩ := hm.convertVariable coherent hphis hgroup
      (fun old hold he => hnew (he ▸ List.mem_map_of_mem hold)) hstep
    exact ⟨⟨by simp [hvars, hvar], hnext⟩, ha.convertVariable hm coherent hgroup hnew hstep⟩

theorem unnumbered_of_collect {groups : List Occurrences} {m m' : Recorded FlowGraph}
    (h : collect o m = .ok groups m') (coherent : m.value.Coherent)
    (hgroup : group ∈ m.value.occurrences o) :
    Unnumbered group.var (m.value.realsIn group.var) ⟨m.value, {}⟩ := by
  rcases collect_ends o m with ⟨_, m'', -, -, -, hphis, hchecks⟩ | ⟨e, m'', herror, -⟩
  · refine ⟨rfl, fun b n hn hd => ?_⟩
    obtain ⟨hvar, hunder⟩ := (mem_realsIn coherent hphis).1 hn
    obtain ⟨oc, hoc, -⟩ := Tree.varOf_ok.1 hvar
    have hcheck := hchecks group hgroup n
      ((mem_nodes_of_mem_occurrences coherent hphis hgroup).2 ⟨hvar, b, hunder⟩)
    have hdefines : oc.defines = true := by simpa [Tree.defines, hoc] using hd
    rw [checkUnnumbered_eq hoc, hdefines] at hcheck
    rw [Tree.number?_of_node? hoc]
    cases hversion : oc.version with
    | none => rfl
    | some i => simp [hversion] at hcheck
  · simp [herror] at h

/-- A conversion that keeps its phis numbers the definitions of the converted variables. -/
theorem toSsa_numbered (h : toSsa o ⟨input, events⟩ = .ok form ⟨f, events'⟩)
    (coherent : input.Coherent) (hoff : o.collapse = false) :
    ∀ r ∈ form.rosters, r.Numbered input.dominators (input.realsIn r.var) ⟨f, form.numbering⟩ := by
  obtain ⟨_, hcollect, hphis, hconvert⟩ := toSsa_steps h hoff
  have hnone {group : Occurrences} (hgroup : group ∈ input.occurrences o) :=
    unnumbered_of_collect hcollect coherent hgroup
  have hstart : Assigned o input [] ⟨input, {}⟩ := ⟨by simp, fun _ hgroup _ => hnone hgroup⟩
  exact (convertVariables_assigned hconvert rfl coherent hphis hstart).done

/-- The definitions of a variable in a block, in the order in which they are evaluated: the targets
of its phis, and then those among the occurrences `reals` outside phis. -/
def definitionsOf (f : FlowGraph) (v : Var) (reals : BlockId → List NodeId) (b : BlockId) :
    List NodeId :=
  ((f.phisOf v b).filterMap fun phi => (f.tree.phiTarget phi).toOption) ++
    (reals b).filter f.tree.defines

/-- What a block has of definitions is what the roster of the variable has there. -/
theorem Partly.definitionsOf_eq (h : Partly o input rosters f) (coherent : input.Coherent)
    (hphis : input.placedPhis = 0) (hvars : (rosters.map Roster.var).Nodup) (hr : r ∈ rosters)
    (b : BlockId) : f.definitionsOf r.var (input.realsIn r.var) b =
      r.definitions f (input.realsIn r.var) b := by
  rw [definitionsOf, h.phisOf_eq coherent hphis hvars hr,
    (h.converted r hr).prepared.definitions_eq, Roster.targetAt?]
  cases r.phi? b with
  | none => rfl
  | some phi => cases hphi : (f.tree.phiTarget phi).toOption <;> simp [hphi]

theorem Partly.versionOf_eq (h : Partly o input rosters f) (hr : r ∈ rosters) {b : BlockId}
    {d : NodeId} (hd : d ∈ r.definitions f (input.realsIn r.var) b) :
    f.tree.versionOf d = .ok (f.tree.number? d) := by
  obtain ⟨hmet, hdefines⟩ := List.mem_filter.1 hd
  obtain ⟨oc, hoc, hv⟩ := Tree.varOf_ok.1 ((h.converted r hr).varOf_met hmet)
  exact Tree.versionOf_of_occurs ⟨oc, hoc, hv, by simpa [Tree.defines, hoc] using hdefines⟩

/-- After a conversion that keeps its phis, the versions of a converted variable are the numbers
below their count. Each of its definitions in the blocks that can be reached has one of its own, and
the others have none. Versions grow within a block, and from a block to those that it strictly
dominates. -/
theorem toSsa_numbers (made : input.Made) (hoff : o.collapse = false)
    (h : toSsa o ⟨input, events⟩ = .ok form ⟨f, events'⟩) :
    form.vars = (input.occurrences o).map Occurrences.var ∧
      ∀ v ∈ form.vars, let definitions := f.definitionsOf v (input.realsIn v)
        Set.BijOn f.tree.versionOf {d | ∃ b, f.graph.Path entry b ∧ d ∈ definitions b}
          ((fun i => .ok (some i)) '' Set.Iio (form.versionCount v)) ∧
        (∀ b, ¬f.graph.Path entry b → ∀ d ∈ definitions b, f.tree.versionOf d = .ok none) ∧
        (∀ b, (definitions b).Pairwise f.tree.Precedes) ∧
        ∀ a b, f.graph.StrictlyDominates entry a b →
          ∀ d ∈ definitions a, ∀ e ∈ definitions b, f.tree.Precedes d e := by
  have coherent := made.coherent
  obtain ⟨hvars, hpartly⟩ := toSsa_ok h coherent hoff
  refine ⟨hvars, fun v hv => ?_⟩
  obtain ⟨r, hr, rfl⟩ := List.mem_map.1 hv
  have hnumbered := toSsa_numbered h coherent hoff r hr
  have hnodup : form.vars.Nodup := hvars ▸ nodup_vars input o
  have hdefinitions := funext (hpartly.definitionsOf_eq coherent (placedPhis_of_toSsa h) hnodup hr)
  have hversion {b : BlockId} {d : NodeId} (hd : d ∈ r.definitions f (input.realsIn r.var) b) :=
    hpartly.versionOf_eq hr hd
  have hsuccs : f.graph.successors = input.graph.successors := hpartly.shape.succs
  have hpath (b : BlockId) : f.graph.Path entry b ↔ b ∈ input.dominators.descent := by
    rw [Digraph.path_iff_route, Digraph.Route, hsuccs, ← Digraph.path_iff_route]
    exact (Digraph.mem_descent coherent.closed coherent.entry).symm
  have hprecedes {a b : BlockId} {d e : NodeId} (hd : d ∈ r.definitions f (input.realsIn r.var) a)
      (he : e ∈ r.definitions f (input.realsIn r.var) b) (hlt : ∀ i j, f.tree.number? d = some i →
        f.tree.number? e = some j → i < j) : f.tree.Precedes d e := fun i j hi hj =>
    hlt i j (Except.ok.inj ((hversion hd).symm.trans hi))
      (Except.ok.inj ((hversion he).symm.trans hj))
  simp only [hdefinitions, hpath]
  refine ⟨?_, fun b hb d hd => ?_, fun b => ?_, fun a b hdom d hd e he => ?_⟩
  · have hok : Set.InjOn (Except.ok : Option Nat → Except Fault (Option Nat))
        (some '' Set.Iio (form.versionCount r.var)) := fun _ _ _ _ => Except.ok.inj
    have hbij := hok.bijOn_image.comp hnumbered.bijOn
    rw [Set.image_image] at hbij
    refine hbij.congr ?_
    rintro d ⟨b, -, hd⟩
    exact (hversion hd).symm
  · rw [hversion hd, hnumbered.unmet b hb d hd]
  · exact (hnumbered.pairwise_definitions b).imp_of_mem hprecedes
  · refine hprecedes hd he fun i j hi hj => ?_
    refine hnumbered.lt_of_strictlyDominates coherent.closed coherent.entry ?_ hd he hi hj
    simpa only [Digraph.StrictlyDominates, Digraph.Dominates, Digraph.path_iff_route, Digraph.Route,
      hsuccs] using hdom

/-- The two stores and the phi of the diamond have the versions below three. -/
theorem diamond_numbers : diamond.Made ∧ Yields (toSsa {}) ⟨diamond, []⟩ fun form m =>
    form.versionCount (.ofLocal 0) = 3 ∧ ∀ i < 3, ∃ b d, m.value.graph.Path entry b ∧
      d ∈ m.value.definitionsOf (.ofLocal 0) (diamond.realsIn (.ofLocal 0)) b ∧
        m.value.tree.versionOf d = .ok (some i) := by
  have made : diamond.Made := ⟨0, _, rfl⟩
  obtain ⟨form, m, hrun, hv, hcount⟩ : Yields (toSsa {}) ⟨diamond, []⟩ fun form _ =>
      .ofLocal 0 ∈ form.vars ∧ form.versionCount (.ofLocal 0) = 3 := by decide +kernel
  obtain ⟨hversions, -⟩ := (toSsa_numbers made rfl hrun).2 _ hv
  refine ⟨made, form, m, hrun, hcount, fun i hi => ?_⟩
  obtain ⟨d, ⟨b, hb, hd⟩, hversion⟩ := hversions.surjOn ⟨i, hcount ▸ hi, rfl⟩
  exact ⟨b, d, hb, hd, hversion⟩

end FlowGraph

end MethodFlow
