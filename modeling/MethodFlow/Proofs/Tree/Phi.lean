import MethodFlow.Proofs.Tree.Sweeping
import Mathlib.Data.List.Nodup

/-!
Making phis and removing them. A new phi owns its target and its operands, which are all new
occurrences of one variable, and it takes them along when it is removed.
-/

namespace MethodFlow

theorem Phi.inputs_of_catching {p : Phi} (h : p.kind = .catching) :
    p.inputs = .catching p.operands := by
  cases hinputs : p.inputs with
  | catching operands => simp [Phi.operands, hinputs]
  | joining block operands => simp [Phi.kind, hinputs] at h
  | returning sub operands => simp [Phi.kind, hinputs] at h

namespace Tree

variable {t t' : Tree} {n target : NodeId} {v : Var}

/-- The phi at `n` with the occurrences that it owns. -/
structure HoldsPhi (t : Tree) (v : Var) (n : NodeId) (p : Phi) (block : Option BlockId) : Prop where
  slot : t.slot? n = some ⟨.phi p, none, block⟩
  target : ∃ o, t.slot? p.target = some ⟨.occurrence o, some n, none⟩ ∧ o.var = v ∧ o.defines = true
  operand : ∀ q ∈ p.operands, ∃ o, t.slot? q = some ⟨.occurrence o, some n, none⟩ ∧ o.var = v ∧
    o.defines = false
  nodup : p.operands.Nodup

theorem HoldsPhi.node? {p : Phi} {block : Option BlockId} (h : t.HoldsPhi v n p block) :
    t.node? n = some (.phi p) := node?_eq_some.2 ⟨_, h.slot, rfl⟩

/-- The nodes that stand or fall with a phi. -/
def HoldsPhi.nodes (n : NodeId) (p : Phi) : List NodeId := n :: p.target :: p.operands

theorem HoldsPhi.of_slots {p : Phi} {block : Option BlockId} (h : t.HoldsPhi v n p block)
    (hslots : ∀ q ∈ HoldsPhi.nodes n p, t'.slot? q = t.slot? q) : t'.HoldsPhi v n p block where
  slot := (hslots n (by simp [HoldsPhi.nodes])).trans h.slot
  target := by
    rw [hslots _ (by simp [HoldsPhi.nodes])]
    exact h.target
  operand q hq := by
    rw [hslots q (by simp [HoldsPhi.nodes, hq])]
    exact h.operand q hq
  nodup := h.nodup

theorem HoldsPhi.owned {p : Phi} {block : Option BlockId} (h : t.HoldsPhi v n p block) {q : NodeId}
    (hq : q ∈ p.target :: p.operands) :
    ∃ o, t.slot? q = some ⟨.occurrence o, some n, none⟩ ∧ o.var = v := by
  rcases List.mem_cons.1 hq with rfl | hq
  · obtain ⟨o, hs, hv, -⟩ := h.target
    exact ⟨o, hs, hv⟩
  · obtain ⟨o, hs, hv, -⟩ := h.operand q hq
    exact ⟨o, hs, hv⟩

theorem HoldsPhi.index_lt {p : Phi} {block : Option BlockId}
    (h : t.HoldsPhi v n p block) {q : NodeId} (hq : q ∈ HoldsPhi.nodes n p) : q.index < t.size := by
  rcases List.mem_cons.1 hq with rfl | hq
  · exact index_lt_size h.slot
  · obtain ⟨_, hs, -⟩ := h.owned hq
    exact index_lt_size hs

theorem HoldsPhi.ne_self {p : Phi} {block : Option BlockId}
    (h : t.HoldsPhi v n p block) {q : NodeId} (hq : q ∈ p.target :: p.operands) : q ≠ n := by
  rintro rfl
  obtain ⟨o, hs, -⟩ := h.owned hq
  simp [h.slot] at hs

theorem HoldsPhi.put {p : Phi} {block : Option BlockId} (h : t.HoldsPhi v n p block)
    (block' : Option BlockId) : (t.put n ⟨.phi p, none, block'⟩).HoldsPhi v n p block' := by
  have hput := slot?_put_of_slot h.slot ⟨.phi p, none, block'⟩
  refine ⟨by rw [hput, if_pos rfl], ?_, fun q hq => ?_, h.nodup⟩
  · rw [hput, if_neg (h.ne_self (by simp))]
    exact h.target
  · rw [hput, if_neg (h.ne_self (by simp [hq]))]
    exact h.operand q hq

/-- Two phis have no node in common. -/
theorem HoldsPhi.disjoint {w : Var} {m : NodeId} {p p' : Phi} {block block' : Option BlockId}
    (h : t.HoldsPhi v n p block) (h' : t.HoldsPhi w m p' block') (hne : m ≠ n) {q : NodeId}
    (hq : q ∈ HoldsPhi.nodes m p') : q ∉ HoldsPhi.nodes n p := by
  intro hmem
  rcases List.mem_cons.1 hq with rfl | hq
  · rcases List.mem_cons.1 hmem with he | hmem
    · exact hne he
    · obtain ⟨o, hs, -⟩ := h.owned hmem
      simp [h'.slot] at hs
  · obtain ⟨o, hs, -⟩ := h'.owned hq
    rcases List.mem_cons.1 hmem with rfl | hmem
    · simp [h.slot] at hs
    · obtain ⟨o', hs', -⟩ := h.owned hmem
      rw [hs, Option.some.injEq, Slot.mk.injEq] at hs'
      exact hne (Option.some.inj hs'.2.1)

/-- What `t'` has more than `t` is a phi of `v`, whose target was made ready in `t`. -/
structure MadePhi (t t' : Tree) (v : Var) (n : NodeId) (p : Phi) : Prop where
  holds : t'.HoldsPhi v n p none
  fresh : t.size ≤ n.index
  fresh_operand : ∀ q ∈ p.operands, t.size ≤ q.index
  size_le : t.size ≤ t'.size
  other : ∀ m, m.index < t.size → m ≠ p.target → t'.slot? m = t.slot? m

/-- A use of `v` that nothing owns. -/
def Loose (t : Tree) (v : Var) (n : NodeId) : Prop :=
  ∃ o, t.slot? n = some ⟨.occurrence o, none, none⟩ ∧ o.var = v ∧ o.defines = false

theorem Loose.index_lt (h : t.Loose v n) : n.index < t.size := by
  obtain ⟨o, hs, -⟩ := h
  exact index_lt_size hs

theorem Loose.varOf (h : t.Loose v n) : t.varOf n = .ok v := by
  obtain ⟨o, hs, hv, -⟩ := h
  exact varOf_ok.2 ⟨o, node?_eq_some.2 ⟨_, hs, rfl⟩, hv⟩

theorem useLike_loose {m : NodeId} (h : useLike m t = .ok n t') (hm : t.varOf m = .ok v) :
    n = t.next ∧ t'.Loose v n ∧ t'.size = t.size + 1 ∧
      ∀ k, k.index < t.size → t'.slot? k = t.slot? k := by
  obtain ⟨o, ho, rfl, rfl⟩ := useLike_ok.1 h
  obtain ⟨o', ho', rfl⟩ := varOf_ok.1 hm
  obtain rfl : o = o' := by simpa [ho] using ho'
  refine ⟨rfl, ⟨{ var := o.var, type := o.type }, ?_, rfl, rfl⟩, size_push _, fun k hk => ?_⟩
  · rw [slot?_push, if_pos rfl]
  rw [slot?_push, if_neg (ne_next hk)]

theorem newOperands_ok {keys : List BlockId} {operands : List (BlockId × NodeId)}
    (h : newOperands target keys t = .ok operands t') (htarget : t.varOf target = .ok v) :
    operands.map Prod.fst = keys ∧ (operands.map Prod.snd).Nodup ∧
      (∀ q ∈ operands.map Prod.snd, t.size ≤ q.index ∧ t'.Loose v q) ∧ t.size ≤ t'.size ∧
      ∀ m, m.index < t.size → t'.slot? m = t.slot? m := by
  refine Edit.mapM_ok h (fun before done t' => done.map Prod.fst = before ∧
    (done.map Prod.snd).Nodup ∧ (∀ q ∈ done.map Prod.snd, t.size ≤ q.index ∧ t'.Loose v q) ∧
    t.size ≤ t'.size ∧ ∀ m, m.index < t.size → t'.slot? m = t.slot? m) (by simp) ?_
  rintro before key - done made m m' - ⟨hkeys, hnodup, hfresh, hsize, hold⟩ hrun
  obtain ⟨operand, m₁, hmake, hpure⟩ := Edit.bind_ok.1 hrun
  obtain ⟨rfl, rfl⟩ := Edit.pure_ok.1 hpure
  have hvar : m.varOf target = .ok v := by
    obtain ⟨o, ho, hv⟩ := varOf_ok.1 htarget
    obtain ⟨s, hs, hnode⟩ := node?_eq_some.1 ho
    exact varOf_ok.2 ⟨o, node?_eq_some.2 ⟨s, (hold target (index_lt_size hs)).trans hs, hnode⟩, hv⟩
  obtain ⟨rfl, hloose, hsize', hold'⟩ := useLike_loose hmake hvar
  refine ⟨by simp [hkeys], ?_, ?_, by omega, fun k hk => ?_⟩
  · simp only [List.map_append, List.map_cons, List.map_nil]
    rw [← List.concat_eq_append]
    refine hnodup.concat fun hmem => ?_
    exact absurd (hfresh _ hmem).2.index_lt (Nat.lt_irrefl _)
  · intro q hq
    simp only [List.map_append, List.map_cons, List.map_nil, List.mem_append,
      List.mem_singleton] at hq
    rcases hq with hq | rfl
    · obtain ⟨hle, o, hs, ho⟩ := hfresh q hq
      exact ⟨hle, o, by rw [hold' q (index_lt_size hs), hs], ho⟩
    · exact ⟨hsize, hloose⟩
  · rw [hold' k (by omega), hold k hk]

/-- A phi whose target and inputs are loose uses takes them over, the target as its definition. -/
theorem newPhi_ok {inputs : PhiInputs} (h : newPhi target inputs t = .ok n t')
    (htarget : t.Loose v target) (hinputs : ∀ q ∈ (Phi.mk target inputs).operands, t.Loose v q) :
    t.next = n ∧ t'.HoldsPhi v n ⟨target, inputs⟩ none ∧ t'.size = t.size + 1 ∧
      ∀ m, m.index < t.size → m ≠ target → m ∉ (Phi.mk target inputs).operands →
        t'.slot? m = t.slot? m := by
  simp only [newPhi, Edit.bind_ok, modifyOccurrence_ok, define, Edit.pure_ok] at h
  obtain ⟨n', m, halloc, ⟨⟩, m', ⟨s, o, hs, ho, rfl⟩, rfl, rfl⟩ := h
  obtain ⟨rfl, hnodup, hdetached, hsize, hslots⟩ := allocOwning_ok halloc
  have hchildren : Node.children (.phi ⟨target, inputs⟩) =
      target :: (Phi.mk target inputs).operands := rfl
  rw [hchildren] at hnodup hdetached hslots
  have htn : target ≠ t.next := ne_next htarget.index_lt
  have hno : ∀ q ∈ (Phi.mk target inputs).operands, q ≠ t.next ∧ q ≠ target := by
    intro q hq
    exact ⟨ne_next (hinputs q hq).index_lt, fun he => (List.nodup_cons.1 hnodup).1 (he ▸ hq)⟩
  obtain ⟨ot, hst, hvt, -⟩ := htarget
  have hstarget : s = ⟨.occurrence ot, some t.next, none⟩ := by
    rw [hslots, if_pos (by simp), slot?_push, if_neg htn, hst] at hs
    simpa using hs.symm
  subst hstarget
  obtain rfl : ot = o := by simpa using ho
  have hput := slot?_put_of_slot hs ⟨.occurrence { ot with defines := true, link := none },
    some t.next, none⟩
  refine ⟨rfl, ⟨?_, ?_, ?_, (List.nodup_cons.1 hnodup).2⟩, by simp [hsize], fun m hm hmt hmo => ?_⟩
  · have hout : t.next ∉ target :: (Phi.mk target inputs).operands := by
      intro hmem
      rcases List.mem_cons.1 hmem with he | hmem
      · exact htn he.symm
      · exact (hno _ hmem).1 rfl
    rw [hput, if_neg (Ne.symm htn), hslots, if_neg hout, slot?_push, if_pos rfl]
  · exact ⟨{ ot with defines := true, link := none }, by rw [hput, if_pos rfl], hvt, rfl⟩
  · intro q hq
    obtain ⟨oq, hsq, hvq, hdq⟩ := hinputs q hq
    refine ⟨oq, ?_, hvq, hdq⟩
    rw [hput, if_neg (hno q hq).2, hslots, if_pos (by simp [hq]), slot?_push, if_neg (hno q hq).1,
      hsq]
    rfl
  · rw [hput, if_neg hmt, hslots, if_neg (by simp [hmt, hmo]), slot?_push, if_neg (ne_next hm)]

theorem madePhi_of_newOperands {keys : List BlockId} {operands : List (BlockId × NodeId)}
    {inputs : PhiInputs} {m : Tree}
    (hinputs : (Phi.mk target inputs).operands = operands.map Prod.snd)
    (hoperands : newOperands target keys t = .ok operands m)
    (hphi : newPhi target inputs m = .ok n t')
    (htarget : t.Loose v target) : t.MadePhi t' v n ⟨target, inputs⟩ := by
  obtain ⟨-, -, hfresh, hsize, hold⟩ := newOperands_ok hoperands htarget.varOf
  have htarget' : m.Loose v target := by
    obtain ⟨o, hs, ho⟩ := htarget
    exact ⟨o, (hold target (index_lt_size hs)).trans hs, ho⟩
  obtain ⟨rfl, hholds, hsize', hother⟩ := newPhi_ok hphi htarget' fun q hq =>
    (hfresh q (hinputs ▸ hq)).2
  refine ⟨hholds, hsize, fun q hq => (hfresh q (hinputs ▸ hq)).1, by omega, fun k hk hkt => ?_⟩
  rw [hother k (by omega) hkt, hold k hk]
  intro hmem
  exact absurd (hfresh k (hinputs ▸ hmem)).1 (by omega)

theorem newJoinPhi_ok {b : BlockId} {preds : List BlockId}
    (h : newJoinPhi target b preds t = .ok n t') (htarget : t.Loose v target) :
    ∃ operands, operands.map Prod.fst = preds ∧
      t.MadePhi t' v n ⟨target, .joining b operands⟩ := by
  simp only [newJoinPhi, Edit.bind_ok, Edit.ask_ok] at h
  obtain ⟨_, _, ⟨-, rfl⟩, operands, m, hoperands, hphi⟩ := h
  exact ⟨operands, (newOperands_ok hoperands htarget.varOf).1,
    madePhi_of_newOperands rfl hoperands hphi htarget⟩

theorem newReturnPhi_ok {s : SubroutineId} {calls : List BlockId}
    (h : newReturnPhi target s calls t = .ok n t') (htarget : t.Loose v target) :
    ∃ operands, operands.map Prod.fst = calls ∧
      t.MadePhi t' v n ⟨target, .returning s operands⟩ := by
  simp only [newReturnPhi, Edit.bind_ok, Edit.ask_ok] at h
  obtain ⟨_, _, ⟨-, rfl⟩, operands, m, hoperands, hphi⟩ := h
  exact ⟨operands, (newOperands_ok hoperands htarget.varOf).1,
    madePhi_of_newOperands rfl hoperands hphi htarget⟩

theorem newCatchPhi_ok (h : newCatchPhi target t = .ok n t') (htarget : t.Loose v target) :
    t.MadePhi t' v n ⟨target, .catching []⟩ := by
  simp only [newCatchPhi, Edit.bind_ok, Edit.ask_ok] at h
  obtain ⟨_, _, ⟨-, rfl⟩, hphi⟩ := h
  have hnone : newOperands target [] t = .ok [] t := rfl
  exact madePhi_of_newOperands rfl hnone hphi htarget

section relinking

variable {w : Var} {m : NodeId} {p : Phi} {block : Option BlockId} {s : Slot} {o : Occurrence}

/-- An occurrence was given another link and another number. -/
def Relinks (n : NodeId) (o : Occurrence) (t t' : Tree) : Prop :=
  ∃ s link version, t.slot? n = some s ∧ s.node = .occurrence o ∧
    t.put n { s with node := .occurrence { o with link, version } } = t'

theorem Relinks.slot?_of_ne (h : Relinks n o t t') (hne : m ≠ n) : t'.slot? m = t.slot? m := by
  obtain ⟨s, link, version, hs, -, rfl⟩ := h
  rw [slot?_put_of_slot hs, if_neg hne]

theorem Relinks.size (h : Relinks n o t t') : t'.size = t.size := by
  obtain ⟨s, link, version, hs, -, rfl⟩ := h
  exact size_put _

theorem relinks_of_setLink {d : Option NodeId} {u : Unit} (h : setLink n d t = .ok u t') :
    ∃ o, t.node? n = some (.occurrence o) ∧ o.defines = false ∧ Relinks n o t t' ∧
      t'.linkOf n = .ok d := by
  obtain ⟨s, o, hs, ho, hd, -, rfl⟩ := setLink_ok h
  refine ⟨o, node?_eq_some.2 ⟨s, hs, ho⟩, hd, ⟨s, d, o.version, hs, ho, rfl⟩, ?_⟩
  exact linkOf_ok.2 ⟨{ o with link := d }, by simp [node?, slot?_put_of_slot hs], rfl⟩

theorem relinks_of_setVersion {version : Nat} {u : Unit} (h : setVersion n version t = .ok u t') :
    ∃ o, t.node? n = some (.occurrence o) ∧ Relinks n o t t' ∧
      (∀ m d, t.linkOf m = .ok d → t'.linkOf m = .ok d) ∧
      ∀ m d, t.definitionOf m = .ok d → t'.definitionOf m = .ok d := by
  obtain ⟨s, o, hs, ho, rfl⟩ := modifyOccurrence_ok.1 h
  have hrelinks : Relinks n o t _ := ⟨s, o.link, some version, hs, ho, rfl⟩
  have hself : (t.put n { s with node := .occurrence { o with version := some version } }).node? n =
      some (.occurrence { o with version := some version }) := by
    simp [node?, slot?_put_of_slot hs]
  have hnode : t.node? n = some (.occurrence o) := node?_eq_some.2 ⟨s, hs, ho⟩
  refine ⟨o, hnode, hrelinks, fun m d hm => ?_, fun m d hm => ?_⟩
  · by_cases hmn : m = n
    · subst hmn
      obtain ⟨o', ho', hd⟩ := linkOf_ok.1 hm
      obtain rfl : o = o' := by simpa [hnode] using ho'
      exact linkOf_ok.2 ⟨_, hself, hd⟩
    · rwa [linkOf_congr (hrelinks.slot?_of_ne hmn)]
  · by_cases hmn : m = n
    · subst hmn
      obtain ⟨o', ho', hd⟩ := definitionOf_ok.1 hm
      obtain rfl : o = o' := by simpa [hnode] using ho'
      exact definitionOf_ok.2 ⟨_, hself, hd⟩
    · rw [definitionOf_ok, node?, hrelinks.slot?_of_ne hmn]
      exact definitionOf_ok.1 hm

theorem Relinks.retouched (h : Relinks n o t t') :
    Retouched (fun m v => m = n ∧ v = o.var) t t' := by
  obtain ⟨s, link, version, hs, ho, rfl⟩ := h
  have hput := slot?_put_of_slot hs { s with node := .occurrence { o with link, version } }
  refine ⟨by simp, fun m sm hm => ?_, fun m _ hm => ?_⟩
  · obtain ⟨new, hnew, ⟨rfl, rfl, rfl⟩ | ⟨-, rfl⟩⟩ :=
      exists_slot?_put hs { s with node := .occurrence { o with link, version } } hm
    · exact ⟨_, hnew, .inr ⟨o, link, version, ho, ⟨rfl, rfl⟩, rfl⟩⟩
    · exact ⟨_, hnew, .inl rfl⟩
  · rw [hput, if_neg, hm]
    rintro rfl
    simp [hs] at hm

theorem Retouched.slot?_occurrence {scope : NodeId → Var → Prop} (h : Retouched scope t t')
    {parent : Option NodeId} (hm : t.slot? m = some ⟨.occurrence o, parent, block⟩) :
    ∃ o', t'.slot? m = some ⟨.occurrence o', parent, block⟩ ∧ o'.var = o.var ∧
      o'.defines = o.defines := by
  obtain ⟨s', hs', rfl | ⟨o₁, link, version, ho, -, rfl⟩⟩ := h.slot m _ hm
  · exact ⟨o, hs', rfl, rfl⟩
  · obtain rfl := Node.occurrence.inj ho
    exact ⟨_, hs', rfl, rfl⟩

theorem Retouched.holdsPhi {scope : NodeId → Var → Prop} (h : Retouched scope t t')
    (hm : t.HoldsPhi w m p block) : t'.HoldsPhi w m p block where
  slot := h.slot?_of_not hm.slot (by simp)
  target := by
    obtain ⟨o₁, hs, hv, hd⟩ := hm.target
    obtain ⟨o₂, hs', hv', hd'⟩ := h.slot?_occurrence hs
    exact ⟨o₂, hs', hv'.trans hv, hd'.trans hd⟩
  operand q hq := by
    obtain ⟨o₁, hs, hv, hd⟩ := hm.operand q hq
    obtain ⟨o₂, hs', hv', hd'⟩ := h.slot?_occurrence hs
    exact ⟨o₂, hs', hv'.trans hv, hd'.trans hd⟩
  nodup := hm.nodup

theorem Retouched.phiKind? {scope : NodeId → Var → Prop} (h : Retouched scope t t')
    (hm : m.index < t.size) : t'.phiKind? m = t.phiKind? m := by
  unfold Tree.phiKind? node?
  cases hs : t.slot? m with
  | none => rw [h.gone m hm hs]
  | some s =>
    obtain ⟨s', hs', rfl | ⟨o₁, link, version, ho, -, rfl⟩⟩ := h.slot m s hs
    · rw [hs']
    · simp [hs', ho]

theorem HoldsPhi.phiKind? (h : t.HoldsPhi w m p block) : t.phiKind? m = some p.kind := by
  simp [Tree.phiKind?, h.node?]

theorem Retouched.loose {scope : NodeId → Var → Prop} (h : Retouched scope t t')
    (hm : t.Loose w m) :
    t'.Loose w m := by
  obtain ⟨o₁, hs, hv, hd⟩ := hm
  obtain ⟨o₂, hs', hv', hd'⟩ := h.slot?_occurrence hs
  exact ⟨o₂, hs', hv'.trans hv, hd'.trans hd⟩

end relinking

section catching

variable {p : Phi} {d operand : NodeId}

theorem catchOperands_ok {operands : List NodeId} :
    t.catchOperands n = .ok operands ↔
      ∃ p, t.node? n = some (.phi p) ∧ p.inputs = .catching operands := by
  simp only [catchOperands, Except.bind_eq_ok, phi_ok]
  refine exists_congr fun p => and_congr_right fun _ => ?_
  cases p.inputs <;> simp

theorem HoldsPhi.catchOperands {block : Option BlockId} (h : t.HoldsPhi v n p block)
    (hkind : p.kind = .catching) : t.catchOperands n = .ok p.operands :=
  catchOperands_ok.2 ⟨p, h.node?, Phi.inputs_of_catching hkind⟩

theorem standsFor_ok {definition : Option NodeId} {operands : List NodeId} {found : Bool}
    (h : t.standsFor definition operands = .ok found) :
    found = true ↔ ∃ q ∈ operands, t.definitionOf q = .ok definition := by
  induction operands with
  | nil => simp [← Except.pure_eq_ok.1 h]
  | cons q rest ih =>
    simp only [standsFor, Except.bind_eq_ok] at h
    obtain ⟨d, hd, h⟩ := h
    simp only [List.exists_mem_cons_iff, hd, Except.ok.injEq]
    by_cases he : d = definition
    · rw [if_pos he] at h
      exact iff_of_true (Except.pure_eq_ok.1 h).symm (.inl he)
    · rw [if_neg he] at h
      simp only [he, false_or, ih h]

/-- No two operands stand for the same. -/
def Distinct (t : Tree) (operands : List NodeId) : Prop :=
  operands.Pairwise fun q q' => t.definitionOf q ≠ t.definitionOf q'

theorem Distinct.congr {operands : List NodeId} (h : t.Distinct operands)
    (hsame : ∀ q ∈ operands, t'.definitionOf q = t.definitionOf q) : t'.Distinct operands := by
  refine h.imp_of_mem fun {q q'} hq hq' hne => ?_
  rwa [hsame q hq, hsame q' hq']

/-- An operand that is added to a phi at a handler stands behind the others and belongs to the
phi. -/
theorem addCatchOperand_ok {u : Unit} {o : Occurrence} {s : Slot}
    (h : addCatchOperand n operand t = .ok u t')
    (hoperand : t.slot? operand = some ⟨.occurrence o, none, none⟩) (hs : t.slot? n = some s)
    (hp : s.node = .phi p) :
    (∃ operands, p.inputs = .catching operands) ∧ t'.size = t.size ∧
      ∀ m, t'.slot? m =
        if m = operand then some ⟨.occurrence o, some n, none⟩
        else if m = n then
          some { s with node := .phi { p with inputs := .catching (p.operands ++ [operand]) } }
        else t.slot? m := by
  have hnode : t.node? n = some (.phi p) := node?_eq_some.2 ⟨s, hs, hp⟩
  simp only [addCatchOperand, Edit.bind_ok, Edit.ask_ok, hasCatchDefinition, Except.bind_eq_ok,
    catchOperands_ok] at h
  obtain ⟨_, _, ⟨-, rfl⟩, definition, _, ⟨-, rfl⟩, has, _, ⟨⟨operands, ⟨p', hp', hinputs⟩, -⟩, rfl⟩,
    h⟩ := h
  obtain rfl : p = p' := by simpa [hnode] using hp'
  cases has with
  | true => simp at h
  | false =>
    simp only [Bool.false_eq_true, if_false, Edit.bind_ok, Edit.ask_ok, phi_ok, setInputs,
      setNode_ok, adopt, setParent_ok, Edit.pure_ok] at h
    obtain ⟨p', _, ⟨hp', rfl⟩, _, m₁, ⟨s', hs', rfl⟩, _, m₂, ⟨so, hso, rfl⟩, -, rfl⟩ := h
    obtain rfl : p = p' := by simpa [hnode] using hp'
    obtain rfl : s = s' := by simpa [hs] using hs'
    have hne : operand ≠ n := by
      rintro rfl
      rw [hs, Option.some.injEq] at hoperand
      simp [hoperand] at hp
    have hput := slot?_put_of_slot hs
      { s with node := .phi { p with inputs := .catching (p.operands ++ [operand]) } }
    have hput' := slot?_put_of_slot hso { so with parent := some n }
    rw [hput, if_neg hne, hoperand, Option.some.injEq] at hso
    subst hso
    exact ⟨⟨operands, hinputs⟩, by simp, fun m => by rw [hput', hput]⟩

/-- A new use linked to `d` is added to a phi at a handler. -/
structure Catching (t t' : Tree) (v : Var) (n : NodeId) (p : Phi) (block : Option BlockId)
    (d : NodeId) : Prop where
  inputs : ∃ operands, p.inputs = .catching operands
  size : t'.size = t.size + 1
  other : ∀ m : NodeId, m.index < t.size → m ≠ n → t'.slot? m = t.slot? m
  holds : t'.HoldsPhi v n { p with inputs := .catching (p.operands ++ [t.next]) } block
  definition : t'.definitionOf t.next = .ok (some d)

namespace Catching

variable {block : Option BlockId} (h : t.Catching t' v n p block d)

include h

theorem node?_self : t'.node? n =
    some (.phi { p with inputs := .catching (p.operands ++ [t.next]) }) :=
  h.holds.node?

theorem node?_of_ne {m : NodeId} {node : Node} (hm : t.node? m = some node) (hne : m ≠ n) :
    t'.node? m = some node := by
  obtain ⟨s, hs, hnode⟩ := node?_eq_some.1 hm
  exact node?_eq_some.2 ⟨s, (h.other m (index_lt_size hs) hne).trans hs, hnode⟩

theorem occurrence {m : NodeId} {o : Occurrence} (hp : t.node? n = some (.phi p))
    (ho : t.node? m = some (.occurrence o)) : t'.node? m = some (.occurrence o) := by
  refine h.node?_of_ne ho ?_
  rintro rfl
  simp [ho] at hp

end Catching

theorem catching_of_addCatchOperand {t₁ t₂ : Tree} {m : NodeId}
    {block : Option BlockId} {u u' : Unit}
    (hphi : t.HoldsPhi v n p block) (hm : t.varOf m = .ok v) (huse : useLike m t = .ok operand t₁)
    (hlink : setLink operand (some d) t₁ = .ok u t₂)
    (hadd : addCatchOperand n operand t₂ = .ok u' t') : t.Catching t' v n p block d := by
  obtain ⟨rfl, ⟨o, hso, hv, hd⟩, hsize, hkept⟩ := useLike_loose huse hm
  obtain ⟨o₁, ho₁, -, hr, hdef⟩ := relinks_of_setLink hlink
  obtain ⟨o₂, hso₂, hv₂, hd₂⟩ := hr.retouched.slot?_occurrence hso
  have hlt {q : NodeId} {s : Slot} (hs : t.slot? q = some s) : q ≠ t.next :=
    ne_next (index_lt_size hs)
  have hslot {q : NodeId} {s : Slot} (hs : t.slot? q = some s) : t₂.slot? q = some s := by
    rw [hr.slot?_of_ne (hlt hs), hkept q (index_lt_size hs), hs]
  obtain ⟨hinputs, hsize', hslots⟩ := addCatchOperand_ok hadd hso₂ (hslot hphi.slot) rfl
  have hother {q : NodeId} {s : Slot} (hs : t.slot? q = some s) (hq : q ≠ n) :
      t'.slot? q = some s := by
    rw [hslots, if_neg (hlt hs), if_neg hq, hslot hs]
  have hnew : t'.slot? t.next = some ⟨.occurrence o₂, some n, none⟩ := by
    rw [hslots, if_pos rfl]
  have hoperands : ∀ q ∈ p.operands, q ≠ t.next := by
    intro q hq
    obtain ⟨oq, hs, -⟩ := hphi.operand q hq
    exact hlt hs
  refine ⟨hinputs, ?_, fun q hq hqn => ?_, ⟨?_, ?_, ?_, ?_⟩, ?_⟩
  · rw [hsize', hr.size, hsize]
  · have hqt : q ≠ t.next := ne_next hq
    rw [hslots, if_neg hqt, if_neg hqn, hr.slot?_of_ne hqt, hkept q hq]
  · rw [hslots, if_neg (hlt hphi.slot), if_pos rfl]
  · obtain ⟨ot, hs, hvt, hdt⟩ := hphi.target
    exact ⟨ot, hother hs (hphi.ne_self (by simp)), hvt, hdt⟩
  · intro q hq
    rcases List.mem_append.1 hq with hq | hq
    · obtain ⟨oq, hs, hvq, hdq⟩ := hphi.operand q hq
      exact ⟨oq, hother hs (hphi.ne_self (by simp [hq])), hvq, hdq⟩
    · rw [List.mem_singleton.1 hq]
      exact ⟨o₂, hnew, hv₂.trans hv, hd₂.trans hd⟩
  · show (p.operands ++ [t.next]).Nodup
    rw [← List.concat_eq_append]
    exact hphi.nodup.concat fun hmem => hoperands _ hmem rfl
  · obtain ⟨o₃, ho₃, hlinked⟩ := linkOf_ok.1 hdef
    rw [node?, hso₂, Option.map_some, Option.some.injEq, Node.occurrence.injEq] at ho₃
    subst ho₃
    refine definitionOf_ok.2 ⟨o₂, by rw [node?, hnew]; rfl, ?_⟩
    simp [Occurrence.definition, hd₂, hd, hlinked]

end catching

section removal

/-- A phi is gone, and with it what it owned, and nothing else. -/
structure Removes (t t' : Tree) (n : NodeId) (p : Phi) : Prop where
  size : t'.size = t.size
  gone : ∀ m ∈ HoldsPhi.nodes n p, t'.slot? m = none
  other : ∀ m, m ≠ n → m ∉ p.target :: p.operands → t'.slot? m = t.slot? m

theorem Removes.ages {p : Phi} (h : t.Removes t' n p) : t.Ages t' := by
  refine ⟨Nat.le_of_eq h.size.symm, fun m _ => ?_⟩
  by_cases hm : m ∈ HoldsPhi.nodes n p
  · exact .inr (h.gone m hm)
  · exact .inl (h.other m (fun he => hm (he ▸ List.mem_cons_self))
      fun hmem => hm (List.mem_cons_of_mem _ hmem))

/-- Removal of a phi takes away its target and its operands and nothing else. -/
theorem cleanup_phi {p : Phi} {block : Option BlockId} {u : Unit} (h : cleanup n t = .ok u t')
    (hphi : t.HoldsPhi v n p block) : t.Removes t' n p := by
  have hclears := clears_cleanup t n
  rw [Edit.after_of_ok h] at hclears
  simp only [cleanup, Edit.bind_ok, Edit.ask_ok, slot_ok, Edit.modify_ok] at h
  obtain ⟨s, _, ⟨hs, rfl⟩, rfl⟩ := h
  have hself := slot?_sweep_size hs
  refine ⟨hclears.prunes.1, fun m hm => ?_, fun m hm hmem => ?_⟩
  · rcases List.mem_cons.1 hm with rfl | hm
    · exact hself
    · obtain ⟨o, ho, -⟩ := hphi.owned hm
      exact hclears.down n _ m _ hphi.slot hself hm ho rfl
  · rw [hphi.slot, Option.some.injEq] at hs
    subst hs
    refine slot?_sweep hphi.slot ?_ hm hmem
    intro c hc sc hsc
    obtain ⟨o, ho, -⟩ := hphi.owned hc
    rw [ho, Option.some.injEq] at hsc
    exact ⟨o, by rw [← hsc]⟩

end removal

end Tree

end MethodFlow
