import MethodFlow.Proofs.Tree.Phi

/-!
When work on a tree succeeds: linking and numbering occurrences, making phis, and adding operands to
phis at handlers.
-/

namespace MethodFlow.Tree

open Edit

variable {t t' : Tree} {v : Var} {n d target operand : NodeId} {defines : Bool}

/-- The node is an occurrence of `v`, a definition or a use. -/
def Occurs (t : Tree) (v : Var) (defines : Bool) (n : NodeId) : Prop :=
  ∃ o, t.node? n = some (.occurrence o) ∧ o.var = v ∧ o.defines = defines

theorem occurs_iff : t.Occurs v defines n ↔ t.varOf n = .ok v ∧ t.defines n = defines := by
  rw [varOf_ok]
  constructor
  · rintro ⟨o, ho, hv, hd⟩
    exact ⟨⟨o, ho, hv⟩, by simp [Tree.defines, ho, hd]⟩
  · rintro ⟨⟨o, ho, hv⟩, hd⟩
    exact ⟨o, ho, hv, by simpa [Tree.defines, ho] using hd⟩

theorem Occurs.varOf (h : t.Occurs v defines n) : t.varOf n = .ok v := (occurs_iff.1 h).1

theorem Occurs.isDefinition (h : t.Occurs v defines n) : t.isDefinition n = .ok defines := by
  obtain ⟨o, ho, -, hd⟩ := h
  exact isDefinition_ok.2 ⟨o, ho, hd⟩

theorem Occurs.definitionOf (h : t.Occurs v false n) : t.definitionOf n = t.linkOf n := by
  obtain ⟨o, ho, -, hd⟩ := h
  rw [definitionOf_ok.2 ⟨o, ho, rfl⟩, linkOf_ok.2 ⟨o, ho, rfl⟩, Occurrence.definition, hd,
    if_neg (by simp)]

theorem Occurs.exists_linkOf (h : t.Occurs v defines n) : ∃ link, t.linkOf n = .ok link := by
  obtain ⟨o, ho, -⟩ := h
  exact ⟨o.link, linkOf_ok.2 ⟨o, ho, rfl⟩⟩

theorem Occurs.exists_definitionOf (h : t.Occurs v defines n) : ∃ d, t.definitionOf n = .ok d := by
  obtain ⟨o, ho, -⟩ := h
  exact ⟨o.definition n, definitionOf_ok.2 ⟨o, ho, rfl⟩⟩

theorem Occurs.index_lt (h : t.Occurs v defines n) : n.index < t.size := by
  obtain ⟨o, ho, -⟩ := h
  obtain ⟨s, hs, -⟩ := node?_eq_some.1 ho
  exact index_lt_size hs

theorem Occurs.isLive (h : t.Occurs v defines n) : t.isLive n = true := by
  obtain ⟨o, ho, -⟩ := h
  exact isLive_of_node? ho

theorem Occurs.of_slot? (h : t.Occurs v defines n) (hs : t'.slot? n = t.slot? n) :
    t'.Occurs v defines n := by
  obtain ⟨o, ho, hrest⟩ := h
  exact ⟨o, by rwa [node?, hs], hrest⟩

theorem occurs_of_varOf (h : t.varOf n = .ok v) : ∃ defines, t.Occurs v defines n := by
  obtain ⟨o, ho, hv⟩ := varOf_ok.1 h
  exact ⟨o.defines, o, ho, hv, rfl⟩

theorem Loose.occurs (h : t.Loose v n) : t.Occurs v false n := by
  obtain ⟨o, hs, hv, hd⟩ := h
  exact ⟨o, node?_eq_some.2 ⟨_, hs, rfl⟩, hv, hd⟩

theorem HoldsPhi.occurs_target {p : Phi} {block : Option BlockId} (h : t.HoldsPhi v n p block) :
    t.Occurs v true p.target := by
  obtain ⟨o, hs, hv, hd⟩ := h.target
  exact ⟨o, node?_eq_some.2 ⟨_, hs, rfl⟩, hv, hd⟩

theorem HoldsPhi.occurs_operand {p : Phi} {block : Option BlockId} (h : t.HoldsPhi v n p block)
    (hq : operand ∈ p.operands) : t.Occurs v false operand := by
  obtain ⟨o, hs, hv, hd⟩ := h.operand operand hq
  exact ⟨o, node?_eq_some.2 ⟨_, hs, rfl⟩, hv, hd⟩

theorem Occurs.ne_of_holdsPhi {w : Var} {p : Phi} {block : Option BlockId} {m : NodeId}
    (h : t.Occurs v defines m) (hp : t.HoldsPhi w n p block) : m ≠ n := by
  rintro rfl
  obtain ⟨o, ho, -⟩ := h
  simp [node?, hp.slot] at ho

theorem HoldsPhi.not_mem_operands {w : Var} {p : Phi} {block : Option BlockId}
    (h : t.HoldsPhi w n p block) (hd : t.Occurs v true d) : d ∉ p.operands := fun hmem => by
  have := hd.isDefinition.symm.trans (h.occurs_operand hmem).isDefinition
  simp at this

theorem Retouched.occurs {scope : NodeId → Var → Prop} (h : Retouched scope t t')
    (hn : t.Occurs v defines n) : t'.Occurs v defines n :=
  occurs_iff.2 ⟨h.varOf hn.varOf, (h.defines hn.varOf).trans (occurs_iff.1 hn).2⟩

theorem modifyOccurrence_succeeds (h : t.Occurs v defines n) (f : Occurrence → Occurrence) :
    Succeeds (modifyOccurrence n f) t := by
  obtain ⟨o, ho, -⟩ := h
  obtain ⟨s, hs, hnode⟩ := node?_eq_some.1 ho
  exact succeeds_of_ok (a := ()) (modifyOccurrence_ok.2 ⟨s, o, hs, hnode, rfl⟩)

theorem setVersion_succeeds (h : t.Occurs v defines n) (version : Nat) :
    Succeeds (setVersion n version) t := modifyOccurrence_succeeds h _

theorem setLink_succeeds {link : Option NodeId} (hn : t.Occurs v false n)
    (hd : ∀ d ∈ link, t.Occurs v true d) : Succeeds (setLink n link) t := by
  refine .of_ask hn.isDefinition ?_
  simp only [Bool.false_eq_true, if_false]
  cases link with
  | none => exact modifyOccurrence_succeeds hn _
  | some d =>
    have hcheck : t.checkLink n d = .ok ⟨⟩ := by
      simp [checkLink, (hd d rfl).isDefinition, hn.varOf, (hd d rfl).varOf, bind, Except.bind,
        pure, Except.pure]
    exact .of_ask hcheck (modifyOccurrence_succeeds hn _)

theorem useLike_succeeds (h : t.Occurs v defines n) : Succeeds (useLike n) t := by
  obtain ⟨o, ho, -⟩ := h
  exact succeeds_of_ok (useLike_ok.2 ⟨o, ho, rfl, rfl⟩)

theorem newOperands_succeeds (h : t.varOf target = .ok v) (keys : List BlockId) :
    Succeeds (newOperands target keys) t := by
  refine (Yields.mapM (fun _ _ m => m.varOf target = .ok v) h
    fun before key after done m _ hm => ?_).succeeds
  obtain ⟨defines, hoccurs⟩ := occurs_of_varOf hm
  refine (useLike_succeeds hoccurs).bind fun operand m' huse _ => .pure ?_
  obtain ⟨o, ho, hv⟩ := varOf_ok.1 hm
  obtain ⟨s, hs, hnode⟩ := node?_eq_some.1 ho
  exact varOf_ok.2
    ⟨o,
      node?_eq_some.2 ⟨s, ((useLike_loose huse hm).2.2.2 _ (index_lt_size hs)).trans hs, hnode⟩, hv⟩

theorem Loose.detached (h : t.Loose v n) : t.Detached n := by
  obtain ⟨o, hs, -⟩ := h
  exact ⟨_, hs, rfl, rfl⟩

theorem varOf_of_allocOwning {node : Node} (h : allocOwning node t = .ok n t')
    (hv : t.varOf d = .ok v) :
    t'.varOf d = .ok v := by
  obtain ⟨-, -, -, -, hslots⟩ := allocOwning_ok h
  obtain ⟨o, ho, hvar⟩ := varOf_ok.1 hv
  obtain ⟨s, hs, hnode⟩ := node?_eq_some.1 ho
  have hpushed : (t.push { node }).slot? d = some s := by
    rw [slot?_push, if_neg (ne_next (index_lt_size hs)), hs]
  have hslot := hslots d
  rw [hpushed] at hslot
  split at hslot
  · exact varOf_ok.2 ⟨o, node?_eq_some.2 ⟨_, hslot, hnode⟩, hvar⟩
  · exact varOf_ok.2 ⟨o, node?_eq_some.2 ⟨s, hslot, hnode⟩, hvar⟩

theorem define_succeeds (h : t.varOf n = .ok v) : Succeeds (define n) t := by
  obtain ⟨defines, hoccurs⟩ := occurs_of_varOf h
  exact modifyOccurrence_succeeds hoccurs _

theorem newPhi_succeeds {inputs : PhiInputs} (htarget : t.varOf target = .ok v)
    (detached : ∀ q ∈ target :: (Phi.mk target inputs).operands, t.Detached q)
    (nodup : (target :: (Phi.mk target inputs).operands).Nodup) :
    Succeeds (newPhi target inputs) t := by
  have hchildren : ∀ c ∈ (Node.phi ⟨target, inputs⟩).children, t.Detached c := detached
  have hnodup : (Node.phi ⟨target, inputs⟩).children.Nodup := nodup
  obtain ⟨t', hrun, -⟩ := exists_allocOwning hnodup hchildren
  exact .of_first hrun
    (.bind (define_succeeds (varOf_of_allocOwning hrun htarget)) fun _ _ _ h => .pure h)

theorem newPhi_of_newOperands_succeeds {keys : List BlockId}
    {inputs : List (BlockId × NodeId) → PhiInputs}
    (hinputs : ∀ operands, (Phi.mk target (inputs operands)).operands = operands.map Prod.snd)
    (htarget : t.varOf target = .ok v) (hdetached : t.Detached target) :
    Succeeds (do newPhi target (inputs (← newOperands target keys)) : Edit Tree NodeId) t := by
  refine (newOperands_succeeds htarget keys).bind fun operands m hoperands _ => ?_
  obtain ⟨-, hnodup, hfresh, -, hold⟩ := newOperands_ok hoperands htarget
  obtain ⟨s, hs, hkind⟩ := hdetached
  have hs' : m.slot? target = some s := (hold _ (index_lt_size hs)).trans hs
  have hnode : m.node? target = t.node? target := by rw [node?, node?, hs, hs']
  have htarget' : m.varOf target = .ok v := by
    rw [varOf_ok] at htarget ⊢
    rwa [hnode]
  refine newPhi_succeeds htarget' ?_ ?_
  · rw [hinputs]
    exact List.forall_mem_cons.2 ⟨⟨s, hs', hkind⟩, fun q hq => (hfresh q hq).2.detached⟩
  · rw [hinputs]
    refine List.nodup_cons.2 ⟨fun hmem => ?_, hnodup⟩
    exact absurd (index_lt_size hs) (Nat.not_lt.2 (hfresh target hmem).1)

theorem newJoinPhi_succeeds (h : t.Loose v target) (b : BlockId) (preds : List BlockId) :
    Succeeds (newJoinPhi target b preds) t :=
  .of_ask (a := ()) (checkDetached_ok.2 h.detached)
    (newPhi_of_newOperands_succeeds (fun _ => rfl) h.varOf h.detached)

theorem newReturnPhi_succeeds (h : t.Loose v target) (sub : SubroutineId) (calls : List BlockId) :
    Succeeds (newReturnPhi target sub calls) t :=
  .of_ask (a := ()) (checkDetached_ok.2 h.detached)
    (newPhi_of_newOperands_succeeds (fun _ => rfl) h.varOf h.detached)

theorem newCatchPhi_succeeds (h : t.Loose v target) : Succeeds (newCatchPhi target) t := by
  obtain ⟨o, ho, -⟩ := h.occurs
  refine .of_ask (occurrence_ok.2 ho) (newPhi_succeeds h.varOf ?_ ?_)
  · simpa [Phi.operands] using h.detached
  · simp [Phi.operands]

section catching

variable {operands : List NodeId} {link : Option NodeId}

theorem exists_standsFor (h : ∀ q ∈ operands, t.Occurs v defines q) :
    ∃ found, t.standsFor link operands = .ok found := by
  induction operands with
  | nil => exact ⟨false, rfl⟩
  | cons q rest ih =>
    obtain ⟨o, ho, -⟩ := h q (by simp)
    have hq : t.definitionOf q = .ok (o.definition q) := definitionOf_ok.2 ⟨o, ho, rfl⟩
    obtain ⟨found, hfound⟩ := ih fun q' hq' => h q' (by simp [hq'])
    by_cases hsame : o.definition q = link
    · exact ⟨true, by simp [standsFor, hq, hsame, bind, Except.bind, pure, Except.pure]⟩
    · exact ⟨found, by simp [standsFor, hq, hsame, hfound, bind, Except.bind]⟩

theorem standsFor_congr (h : ∀ q ∈ operands, t'.definitionOf q = t.definitionOf q) :
    t'.standsFor link operands = t.standsFor link operands := by
  induction operands with
  | nil => rfl
  | cons q rest ih =>
    rw [standsFor, standsFor, h q (by simp), ih fun q' hq' => h q' (by simp [hq'])]

/-- A new use linked to a definition can be added to a phi at a handler that has no operand for the
definition. -/
theorem addCatchOperand_succeeds {p : Phi} {block : Option BlockId} {m : NodeId} {u : Unit}
    {t₁ t₂ : Tree} (hphi : t.HoldsPhi v n p block) (hkind : p.kind = .catching)
    (hm : t.varOf m = .ok v) (hnone : t.standsFor (some d) p.operands = .ok false)
    (huse : useLike m t = .ok operand t₁) (hlink : setLink operand (some d) t₁ = .ok u t₂) :
    Succeeds (addCatchOperand n operand) t₂ := by
  obtain ⟨rfl, ⟨o, hso, hv, hd⟩, -, hkept⟩ := useLike_loose huse hm
  obtain ⟨o₁, -, -, hr, hset⟩ := relinks_of_setLink hlink
  obtain ⟨o₂, hso₂, hv₂, hd₂⟩ := hr.retouched.slot?_occurrence hso
  have hslot {q : NodeId} {s : Slot} (hs : t.slot? q = some s) : t₂.slot? q = some s := by
    have hne : q ≠ t.next := ne_next (index_lt_size hs)
    rw [hr.slot?_of_ne hne, hkept q (index_lt_size hs), hs]
  have hphi₂ : t₂.HoldsPhi v n p block := hphi.of_slots fun q hq => by
    rcases List.mem_cons.1 hq with rfl | hq
    · rw [hslot hphi.slot, hphi.slot]
    · obtain ⟨oq, hs, -⟩ := hphi.owned hq
      rw [hslot hs, hs]
  have hnode : t₂.node? n = some (.phi p) := hphi₂.node?
  have hloose : t₂.Loose v t.next := ⟨o₂, hso₂, hv₂.trans hv, hd₂.trans hd⟩
  have hcheck : t₂.checkOperand n t.next = .ok ⟨⟩ := by
    have htarget : t₂.phiTarget n = .ok p.target := phiTarget_ok.2 ⟨p, hnode, rfl⟩
    have hfree : t₂.checkDetached t.next = .ok ⟨⟩ := checkDetached_ok.2 ⟨_, hso₂, rfl, rfl⟩
    simp [checkOperand, htarget, hfree, hloose.occurs.isDefinition, hloose.occurs.varOf,
      hphi₂.occurs_target.varOf, bind, Except.bind, pure, Except.pure]
  have hdefinition : t₂.definitionOf t.next = .ok (some d) := by
    obtain ⟨o₃, ho₃, hlinked⟩ := linkOf_ok.1 hset
    obtain rfl : o₂ = o₃ := by simpa [node?, hso₂] using ho₃
    exact definitionOf_ok.2 ⟨o₂, ho₃, by simp [Occurrence.definition, hd₂, hd, hlinked]⟩
  have hmissing : t₂.hasCatchDefinition n (some d) = .ok false := by
    rw [hasCatchDefinition, hphi₂.catchOperands hkind]
    refine (standsFor_congr fun q hq => ?_).trans hnone
    obtain ⟨oq, hs, -⟩ := hphi.operand q hq
    rw [definitionOf, definitionOf, occurrence, occurrence, expression, expression, Tree.node,
      Tree.node, slot, slot, hslot hs, hs]
  have hne : t.next ≠ n := by
    intro he
    rw [he, hphi₂.slot] at hso₂
    simp at hso₂
  refine .of_ask hcheck (.of_ask hdefinition (.of_ask hmissing ?_))
  simp only [Bool.false_eq_true, if_false]
  refine .of_ask (phi_ok.2 hnode) (.of_first (a := ()) (setNode_ok.2 ⟨_, hphi₂.slot, rfl⟩) ?_)
  have hslot' : (t₂.put n ⟨.phi { p with inputs := .catching (p.operands ++ [t.next]) }, none,
      block⟩).slot? t.next = some ⟨.occurrence o₂, none, none⟩ := by
    rw [slot?_put_of_slot hphi₂.slot, if_neg hne, hso₂]
  exact .of_first (a := ()) (setParent_ok.2 ⟨_, hslot', rfl⟩) (.pure trivial)

end catching

theorem discard_succeeds {s : Slot} (hs : t.slot? n = some s) : Succeeds (discard n) t := by
  refine .of_first (a := ()) (setParent_ok.2 ⟨s, hs, rfl⟩) ?_
  have hslot : (t.put n { s with parent := none }).slot n = .ok { s with parent := none } :=
    slot_ok.2 (by rw [slot?_put_of_slot hs, if_pos rfl])
  exact .of_ask hslot (succeeds_of_ok (a := ()) rfl)

end MethodFlow.Tree
