import MethodFlow.Proofs.Ssa.Occurrences
import MethodFlow.Proofs.Tree.Rewiring

/-!
Graphs that are refused. A conversion collects occurrences before it changes anything, and it stops
there if the graph holds phis, or numbers for a variable that is to be converted.
-/

namespace MethodFlow

open Edit

namespace FlowGraph

variable {f : FlowGraph} {o : SsaOptions} {v : Var} {b : BlockId} {n : NodeId}

/-- The visitor of occurrences stops at occurrences and at phis only. -/
theorem decision_occurrenceVisitor_variable {node : Node} {descent : Descent} :
    occurrenceVisitor.decision node = some (.variable, descent) ↔
      (∃ oc, node = .occurrence oc) ∧ descent = .never := by
  cases node with
  | occurrence oc =>
    by_cases hlocal : oc.var.isLocal <;>
      simp [Visitor.decision, Node.categories, occurrenceVisitor, hlocal, eq_comm]
  | phi p => cases hkind : p.kind <;>
    simp [Visitor.decision, Node.categories, occurrenceVisitor, hkind]
  | _ => simp [Visitor.decision, Node.categories, occurrenceVisitor]

theorem descends_occurrenceVisitor {node : Node} (hoccurrence : ∀ oc, node ≠ .occurrence oc)
    (hphi : ∀ p, node ≠ .phi p) :
    occurrenceVisitor.descends (occurrenceVisitor.decision node) = true := by
  cases node with
  | occurrence oc => exact absurd rfl (hoccurrence oc)
  | phi p => exact absurd rfl (hphi p)
  | _ => rfl

/-- Outside phis, the occurrences in a block are those that stand below what the block lists. -/
theorem mem_realsIn (h : f.Coherent) (hphis : f.placedPhis = 0) :
    n ∈ f.realsIn v b ↔
      f.tree.varOf n = .ok v ∧ ∃ m ∈ f.statements b, ∃ j, f.tree.Under m j n := by
  have hbelow {m : NodeId} (hm : m ∈ f.statements b) (hn : f.tree.varOf n = .ok v) :
      n ∈ f.occurrencesBelow m ↔ ∃ j, f.tree.Under m j n := by
    simp only [occurrencesBelow, List.mem_map, List.mem_filter, decide_eq_true_eq, Prod.exists]
    constructor
    · rintro ⟨category, _, ⟨hwalk, -⟩, rfl⟩
      obtain ⟨j, -, -, hunder, -⟩ := Tree.decision_of_mem_walkTo hwalk
      exact ⟨j, hunder⟩
    · rintro ⟨j, hunder⟩
      obtain ⟨oc, hoc, -⟩ := Tree.varOf_ok.1 hn
      obtain ⟨s, hs, hnode⟩ := Tree.node?_eq_some.1 hoc
      obtain ⟨sm, hsm⟩ := hunder.exists_slot
      have hroot := h.root hm hsm
      refine ⟨_, n, ⟨Tree.mem_walkTo_of_under hunder (hunder.lt_size h.tree hsm hroot) hs
        (decision_occurrenceVisitor_variable.2 ⟨⟨oc, hnode⟩, rfl⟩) ?_, rfl⟩, rfl⟩
      intro i k p sp hp hpn hsp
      refine descends_occurrenceVisitor (fun oc' ho => ?_) fun q hq => ?_
      · have hvar := Tree.varOf_ok.2 ⟨oc', Tree.node?_eq_some.2 ⟨sp, hsp, ho⟩, rfl⟩
        exact Tree.Under.not_below_of_varOf hvar hpn
      · cases hp with
        | self =>
          have hkind := Option.isSome_iff_ne_none.1 (isSome_phiKind?.2 ⟨sp, q, hsp, hq⟩)
          exact hkind ((placedPhis_eq_zero h).1 hphis b m hm)
        | child _ hparent hc hsc =>
          -- Below a statement there are expressions only.
          have := h.tree.isStatement_of_mem_children hparent hc hsp
          simp [hq, Node.isStatement] at this
  simp only [realsIn, List.mem_filter, List.mem_flatMap, variableAt?_eq_some, decide_eq_true_eq]
  constructor
  · rintro ⟨⟨m, hm, hn⟩, hvar⟩
    exact ⟨hvar, m, hm, (hbelow hm hvar).1 hn⟩
  · rintro ⟨hvar, m, hm, hunder⟩
    exact ⟨⟨m, hm, (hbelow hm hvar).2 hunder⟩, hvar⟩

/-- A block lists a phi, or there is a number in it already: a definition below what it lists has
one, and its variable is to be converted. -/
def Refused (f : FlowGraph) (o : SsaOptions) : Prop :=
  (∃ b, ∃ n ∈ f.statements b, (f.tree.phiKind? n).isSome) ∨
    ∃ b, ∃ n ∈ f.statements b, ∃ j d oc, f.tree.Under n j d ∧
      f.tree.node? d = some (.occurrence oc) ∧ o.converts oc.var = true ∧ oc.defines = true ∧
      oc.version.isSome

theorem mem_nodes_of_mem_occurrences (h : f.Coherent) (hphis : f.placedPhis = 0)
    {group : Occurrences} (hgroup : group ∈ f.occurrences o) : n ∈ group.nodes ↔
      f.tree.varOf n = .ok group.var ∧ ∃ b, ∃ m ∈ f.statements b, ∃ j, f.tree.Under m j n := by
  simp only [(nodes_of_mem_occurrences hgroup).2, List.mem_flatMap, mem_realsIn h hphis]
  constructor
  · rintro ⟨b, -, hvar, hunder⟩
    exact ⟨hvar, b, hunder⟩
  · rintro ⟨hvar, b, m, hm, hunder⟩
    exact ⟨b, (mem_preorder h.closed h.entry).2 (contains_of_mem_statements hm), hvar,
      m, hm, hunder⟩

theorem exists_occurrence_of_mem_occurrences {group : Occurrences}
    (hgroup : group ∈ f.occurrences o)
    (hn : n ∈ group.nodes) : ∃ oc, f.tree.node? n = some (.occurrence oc) ∧ oc.var = group.var := by
  rw [(nodes_of_mem_occurrences hgroup).2] at hn
  obtain ⟨b, -, hreal⟩ := List.mem_flatMap.1 hn
  exact Tree.varOf_ok.1 (variableAt?_eq_some.1 (of_decide_eq_true (List.mem_filter.1 hreal).2))

/-- An occurrence is refused if it is a definition with a number. -/
theorem checkUnnumbered_eq {oc : Occurrence} (hn : f.tree.node? n = some (.occurrence oc)) :
    f.checkUnnumbered n = if oc.defines && oc.version.isSome then
      .error (.graph (.alreadyNumbered (f.tree.text n))) else .ok () := by
  unfold checkUnnumbered
  have hdefines : f.tree.isDefinition n = .ok oc.defines := Tree.isDefinition_ok.2 ⟨oc, hn, rfl⟩
  rw [hdefines]
  cases hd : oc.defines with
  | false => rfl
  | true =>
    have hversion : f.tree.versionOf n = .ok oc.version := by
      rw [Tree.versionOf_of_occurs ⟨oc, hn, rfl, hd⟩, Tree.number?_of_node? hn]
    simp only [bind, Except.bind, if_true, hversion, Bool.true_and]
    cases oc.version <;> rfl

/-- A variable that occurs outside phis is among those that are converted, if it is meant to be. -/
theorem exists_occurrences (h : f.Coherent) (hv : o.converts v = true) (hn : n ∈ f.realsIn v b) :
    ∃ group ∈ f.occurrences o, group.var = v := by
  obtain ⟨hbelow, hvar⟩ := List.mem_filter.1 hn
  obtain ⟨m, hm, -⟩ := List.mem_flatMap.1 hbelow
  have hplaced : n ∈ f.placedOccurrences := by
    rw [placedOccurrences_eq]
    exact List.mem_flatMap.2
      ⟨b, (mem_preorder h.closed h.entry).2 (contains_of_mem_statements hm), hbelow⟩
  have hfound : (v, n) ∈ f.placedOccurrences.filterMap fun n =>
      (f.variableAt? n).map fun v => (v, n) :=
    List.mem_filterMap.2 ⟨n, hplaced, by simp [of_decide_eq_true hvar]⟩
  exact ⟨_, List.mem_map_of_mem ((Var.mem_foldl_insertSorted _ _ _).2
    (.inr ⟨(v, n), List.mem_filter.2 ⟨hfound, hv⟩, rfl⟩)), rfl⟩

/-- Only variables that occur are collected. -/
theorem nodes_ne_nil {group : Occurrences} (hgroup : group ∈ f.occurrences o) :
    group.nodes ≠ [] := by
  obtain ⟨v, hv, rfl⟩ := List.mem_map.1 hgroup
  rcases (Var.mem_foldl_insertSorted _ _ _).1 hv with hv | ⟨p, hp, rfl⟩
  · simp at hv
  · exact List.ne_nil_of_mem (List.mem_map_of_mem (List.mem_filter.2 ⟨hp, decide_eq_true rfl⟩))

/-- A graph is refused if it holds phis, or else if one of the occurrences that are to be renamed
has a number. -/
theorem refused_iff (h : f.Coherent) : f.Refused o ↔
    f.placedPhis ≠ 0 ∨
      ∃ group ∈ f.occurrences o, ∃ n ∈ group.nodes, ∃ e, f.checkUnnumbered n = .error e := by
  have hphis : f.placedPhis ≠ 0 ↔ ∃ b, ∃ n ∈ f.statements b, (f.tree.phiKind? n).isSome := by
    rw [Ne, placedPhis_eq_zero h]
    push Not
    simp only [Option.isSome_iff_ne_none, ne_eq]
  by_cases hzero : f.placedPhis = 0
  · have hnone : ¬∃ b, ∃ n ∈ f.statements b, (f.tree.phiKind? n).isSome := by simp [← hphis, hzero]
    simp only [Refused, hnone, hzero, ne_eq, not_true_eq_false, false_or]
    constructor
    · rintro ⟨b, n, hn, j, d, oc, hunder, hd, hconverts, hdefines, hversion⟩
      have hvar : f.tree.varOf d = .ok oc.var := Tree.varOf_ok.2 ⟨oc, hd, rfl⟩
      obtain ⟨group, hgroup, hof⟩ := exists_occurrences h hconverts
        ((mem_realsIn h hzero).2 ⟨hvar, n, hn, j, hunder⟩)
      refine ⟨group, hgroup, d, (mem_nodes_of_mem_occurrences h hzero hgroup).2
        ⟨hof ▸ hvar, b, n, hn, j, hunder⟩, ?_⟩
      rw [checkUnnumbered_eq hd, hdefines, hversion]
      exact ⟨_, rfl⟩
    · rintro ⟨group, hgroup, d, hd, e, he⟩
      obtain ⟨hvar, b, n, hn, j, hunder⟩ := (mem_nodes_of_mem_occurrences h hzero hgroup).1 hd
      obtain ⟨oc, hoc, hof⟩ := Tree.varOf_ok.1 hvar
      have hnumbered : (oc.defines && oc.version.isSome) = true := by
        by_contra hnot
        rw [checkUnnumbered_eq hoc, if_neg hnot] at he
        cases he
      rw [Bool.and_eq_true] at hnumbered
      exact ⟨b, n, hn, j, d, oc, hunder, hoc, hof ▸ (nodes_of_mem_occurrences hgroup).1, hnumbered⟩
  · exact iff_of_true (.inl (hphis.1 hzero)) (.inl hzero)

/-- What a collection ends with. It fails without a change to the graph. -/
theorem collect_ends (o : SsaOptions) (s : Recorded FlowGraph) : Ends (collect o) s
    (fun groups m => groups = s.value.occurrences o ∧ m.value = s.value ∧ s.value.placedPhis = 0 ∧
      ∀ group ∈ s.value.occurrences o, ∀ n ∈ group.nodes, s.value.checkUnnumbered n = .ok ())
    fun e m => m.value = s.value ∧
      ((s.value.placedPhis ≠ 0 ∧ e = .graph (.holdsPhis s.value.placedPhis)) ∨
        ∃ group ∈ s.value.occurrences o, ∃ n ∈ group.nodes,
          s.value.checkUnnumbered n = .error e) := by
  refine .of_get ?_
  by_cases hphis : s.value.placedPhis = 0
  · refine .of_first (a := ()) (guard_ok.2 ⟨by simpa using hphis, rfl⟩) ?_
    refine (Ends.forM (fun (before : List Occurrences) (m : Recorded FlowGraph) =>
      m.value = s.value ∧
      ∀ group ∈ before, ∀ n ∈ group.nodes, s.value.checkUnnumbered n = .ok ()) ⟨rfl, by simp⟩
      fun before group after m hgroups hm => ?_).bind fun _ m _ hm => .pure ⟨rfl, hm.1, hphis, hm.2⟩
    obtain ⟨hm, hbefore⟩ := hm
    have hcheck := Edit.forM_ask_ends (fun n (r : Recorded FlowGraph) => r.value.checkUnnumbered n)
      group.nodes m
    refine (hcheck.mono ?_).bind ?_
    · rintro e m' ⟨rfl, n, hn, he⟩
      exact ⟨hm, .inr ⟨group, by simp [hgroups], n, hn, hm ▸ he⟩⟩
    · rintro _ m' - ⟨rfl, hall⟩
      refine .inl ⟨_, _, rfl, hm, fun g hg => ?_⟩
      rcases List.mem_append.1 hg with hg | hg
      · exact hbefore g hg
      · rw [List.mem_singleton.1 hg, ← hm]
        exact hall
  · refine .inr ⟨_, s, bind_error.2 (.inl ?_), rfl, .inl ⟨hphis, rfl⟩⟩
    rw [Edit.guard, if_neg (by simpa using hphis)]
    rfl

/-- A collection succeeds unless the graph is refused. Then it fails for a reason that lies in the
graph, which stays as it is. -/
theorem collect_outcome (o : SsaOptions) (s : Recorded FlowGraph) (h : s.value.Coherent) :
    (¬s.value.Refused o ∧ s.value.placedPhis = 0 ∧
      ∃ s', collect o s = .ok (s.value.occurrences o) s' ∧ s'.value = s.value) ∨
    (s.value.Refused o ∧ ∃ cause s', collect o s = .error (.graph cause) s' ∧
      s'.value = s.value) := by
  rcases collect_ends o s with ⟨_, s', hok, rfl, hsame, hphis, hall⟩ | ⟨e, s', herror, hsame, hwhy⟩
  · refine .inl ⟨fun hrefused => ?_, hphis, s', hok, hsame⟩
    rcases (refused_iff h).1 hrefused with hsome | ⟨group, hgroup, n, hn, e, he⟩
    · exact hsome hphis
    · simp [hall group hgroup n hn] at he
  · rcases hwhy with ⟨hphis, rfl⟩ | ⟨group, hgroup, n, hn, he⟩
    · exact .inr ⟨(refused_iff h).2 (.inl hphis), _, s', herror, hsame⟩
    · refine .inr ⟨(refused_iff h).2 (.inr ⟨group, hgroup, n, hn, e, he⟩), ?_⟩
      obtain ⟨oc, hoc, -⟩ := exists_occurrence_of_mem_occurrences hgroup hn
      rw [checkUnnumbered_eq hoc] at he
      split at he
      · obtain rfl := Except.error.inj he
        exact ⟨_, s', herror, hsame⟩
      · cases he

end FlowGraph

end MethodFlow
