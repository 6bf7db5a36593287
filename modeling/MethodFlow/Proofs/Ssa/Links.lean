import MethodFlow.Proofs.Ssa.Replacement

/-!
Where links lead. Phis are placed with operands that are not linked, and whatever is linked when the
variable is renamed, its link leads to a definition that is in use. It stays so when phis are
removed.
-/

namespace MethodFlow

open Edit

namespace Tree

/-- What a link of an occurrence of `v` may lead to: a definition of `v`, or a node in `lost` that
is gone. -/
def LinkEnd (t : Tree) (lost : NodeId → Prop) (v : Var) (d : NodeId) : Prop :=
  t.Occurs v true d ∨ lost d ∧ t.isLive d = false

theorem LinkEnd.keep {t t' : Tree} {lost : NodeId → Prop} {v : Var} {d : NodeId}
    (h : t.LinkEnd lost v d) (hocc : t.Occurs v true d → t'.Occurs v true d)
    (hlive : t'.isLive d = true → t.isLive d = true) : t'.LinkEnd lost v d :=
  h.imp hocc fun ⟨hlost, hdead⟩ => ⟨hlost, Bool.eq_false_iff.2 fun h => by simp [hlive h] at hdead⟩

theorem LinkEnd.mono {t : Tree} {lost lost' : NodeId → Prop} {v : Var} {d : NodeId}
    (h : t.LinkEnd lost v d) (hlost : ∀ d, lost d → lost' d) : t.LinkEnd lost' v d :=
  h.imp_right fun ⟨hd, hdead⟩ => ⟨hlost d hd, hdead⟩

/-- Reading the operands of a phi leaves the definitions alone. -/
theorem Reads.occurs {t t' : Tree} {v w : Var} {n d : NodeId} {p : Phi} {block : Option BlockId}
    {kept : List NodeId} (h : t.Reads t' v n p block kept) (hp : t.HoldsPhi v n p block)
    (hd : t.Occurs w true d) : t'.Occurs w true d :=
  hd.of_slot? (h.other d (hd.ne_of_holdsPhi hp) (hp.not_mem_operands hd))

end Tree

namespace FlowGraph

theorem relinking_rewires : Relinking Tree.Rewires (OnTree Tree.Rewires) where
  withTree _ _ := id
  useLike := Tree.Rewires.moves_useLike
  setVersion := Tree.Rewires.moves_setVersion
  setLink := Tree.Rewires.moves_setLink
  addCatchOperand := Tree.Rewires.moves_addCatchOperand

variable {o : SsaOptions} {t : DominatorTree} {frontiers : List (List BlockId)}
  {group : Occurrences}
  {r : Roster} {s m s' : Recorded (Bench Numbering)} {n d : NodeId}

/-- A link that was not there before a variable is converted leads to a definition of the variable
that the linked node belongs to. -/
theorem link_of_convertVariable (h : convertVariable o t frontiers group s = .ok r s')
    (hd : s'.value.flow.tree.linkOf n = .ok (some d)) :
    s.value.flow.tree.linkOf n = .ok (some d) ∨
      ∃ v, s'.value.flow.tree.varOf n = .ok v ∧ s'.value.flow.tree.Occurs v true d := by
  obtain ⟨first, -, start, u, m₁, m₂, hstart, hprepare, hrename⟩ := convertVariable_steps h
  have hrenamed : m₂.value.flow.tree.Rewires s'.value.flow.tree :=
    (Renaming.moves_rename relinking_rewires r t).of_ok hrename
  refine (hrenamed.linked n d hd).imp_left fun hd => ?_
  obtain ⟨oc, hoc, hlink⟩ := Tree.linkOf_ok.1 hd
  exact Tree.linkOf_ok.2
    (placed_of_prepare (placing_inherits Tree.spared_link) hstart hprepare n oc hoc d hlink)

end FlowGraph

namespace Roster

/-- Links of the operands of the phis on a roster lead to definitions of the variable. -/
def Wired (r : Roster) (f : FlowGraph) : Prop :=
  ∀ b phi p, r.phi? b = some phi → f.tree.node? phi = some (.phi p) → ∀ q ∈ p.operands, ∀ d,
    f.tree.linkOf q = .ok (some d) → f.tree.Occurs r.var true d

variable {o : SsaOptions} {base f f' : FlowGraph} {v : Var} {scope : NodeId → Var → Prop}
  {reals : BlockId → List NodeId} {r : Roster} {phi : NodeId} {b : BlockId} {p : Phi}

/-- Operands that were made since `base` are linked to definitions if all links are that were made
since. -/
theorem Prepared.wired (h : Prepared (Admits o) base v scope reals r f)
    (hlinks : ∀ n d, f.tree.linkOf n = .ok (some d) → base.tree.linkOf n = .ok (some d) ∨
      ∃ w, f.tree.varOf n = .ok w ∧ f.tree.Occurs w true d) : r.Wired f := by
  intro b phi p hphi hp q hq d hd
  have hnew := h.newPhi hphi hp
  rcases hlinks q d hd with hold | ⟨w, hw, hocc⟩
  · obtain ⟨o', ho', -⟩ := Tree.linkOf_ok.1 hold
    obtain ⟨s, hs, -⟩ := Tree.node?_eq_some.1 ho'
    have hfresh := hnew.fresh q (List.mem_cons_of_mem _ (List.mem_cons_of_mem _ hq))
    exact absurd (Tree.index_lt_size hs) (Nat.not_lt.2 hfresh)
  · obtain rfl : w = v := by simpa [hw] using (hnew.holds.occurs_operand hq).varOf
    rwa [h.var]

/-- Links of the operands lead to definitions of the variable, or to nodes in `lost` that are
gone. -/
def WiredBut (lost : NodeId → Prop) (r : Roster) (f : FlowGraph) : Prop :=
  ∀ b phi p, r.phi? b = some phi → f.tree.node? phi = some (.phi p) → ∀ q ∈ p.operands, ∀ d,
    f.tree.linkOf q = .ok (some d) → f.tree.LinkEnd lost r.var d

theorem wiredBut_iff_wired : r.WiredBut (fun _ => False) f ↔ r.Wired f := by
  simp [WiredBut, Wired, Tree.LinkEnd]

/-- Links of the uses outside phis lead to definitions of the variable, apart from links in
`stale`. -/
def Anchored (stale : NodeId → NodeId → Prop) (r : Roster) (f : FlowGraph) : Prop :=
  ∀ n ∈ r.reals, f.tree.defines n = false → ∀ d, f.tree.linkOf n = .ok (some d) →
    f.tree.Occurs r.var true d ∨ stale n d

/-- Uses outside phis are linked to definitions unless they are linked as in `base`, if all links
are that were made since. -/
theorem Prepared.anchored {nodes : List NodeId} (h : Prepared (Admits o) base v scope reals r f)
    (hlies : Lies base v reals nodes)
    (hlinks : ∀ n d, f.tree.linkOf n = .ok (some d) → base.tree.linkOf n = .ok (some d) ∨
      ∃ w, f.tree.varOf n = .ok w ∧ f.tree.Occurs w true d) :
    r.Anchored (fun n d => base.tree.linkOf n = .ok (some d)) f := by
  intro n hn _ d hd
  rcases hlinks n d hd with hold | ⟨w, hw, hocc⟩
  · exact .inr hold
  · obtain ⟨c, -, hc⟩ := (h.all n).1 hn
    obtain rfl : w = v := by simpa [hw] using h.kept.varOf (hlies.var c n hc)
    exact .inl (h.var ▸ hocc)

section removing

variable {w : Var} {d : NodeId} {nodes : List NodeId} {lost : NodeId → Prop}
  {stale : NodeId → NodeId → Prop}

section touching

variable (h : Prepared (Admits o) base r.var scope reals r f) (ht : Tree.Touches w f.tree f'.tree)
  (hne : r.var ≠ w)

include h ht hne

/-- Removing phis of other variables leaves the operands linked as they are. -/
theorem WiredBut.touch (hw : r.WiredBut lost f) : r.WiredBut lost f' := by
  intro b phi p hphi hp q hq d hd
  obtain ⟨p', hnew⟩ := h.phi b phi hphi
  have hphi' : f'.tree.node? phi = some (.phi p') :=
    (ht.holdsPhi hnew.holds hne).node?
  obtain rfl : p = p' := by simpa [hp] using hphi'
  have hslot := ht.slot?_of_varOf (hnew.holds.occurs_operand hq).varOf hne
  rw [Tree.linkOf_congr hslot] at hd
  have hend := hw b phi p hphi hnew.holds.node? q hq d hd
  exact hend.keep (fun hocc => hocc.of_slot? (ht.slot?_of_varOf hocc.varOf hne)) (ht.live d)

/-- Uses outside phis are left alone, too. -/
theorem Anchored.touch (hlies : Lies base r.var reals nodes) (ha : r.Anchored stale f) :
    r.Anchored stale f' := by
  intro n hn huse d hd
  obtain ⟨c, -, hc⟩ := (h.all n).1 hn
  have hslot := ht.slot?_of_varOf (h.kept.varOf (hlies.var c n hc)) hne
  rw [Tree.linkOf_congr hslot] at hd
  rw [Tree.defines, Tree.node?, hslot] at huse
  exact (ha n hn huse d hd).imp_left fun hocc => hocc.of_slot? (ht.slot?_of_varOf hocc.varOf hne)

end touching

section reading

variable {kept : List NodeId} (h : Prepared (Admits o) base v scope reals r f)
  (hphi : r.phi? b = some phi)
  (hnew : NewPhi (Admits o) base f v b phi p) (hread : f.tree.Reads f'.tree v phi p (some b) kept)

include h hphi hnew hread

/-- Reading the operands of a phi leaves those that stay linked as they are. -/
theorem WiredBut.read (hw : r.WiredBut lost f) : r.WiredBut lost f' := by
  have hstays {d : NodeId} (hd : f.tree.LinkEnd lost r.var d) : f'.tree.LinkEnd lost r.var d :=
    hd.keep (fun hocc => hread.occurs hnew.holds hocc) ((hread.touches hnew.holds).live d)
  intro c n q' hn hq' m hm d hd
  rcases h.read_cases hphi hnew hread hn hq' with ⟨rfl, rfl, rfl⟩ | ⟨hq, hslots⟩
  · rw [Tree.linkOf_congr (hread.same m hm)] at hd
    exact hstays (hw c n p hphi hnew.holds.node? m (hread.subset hm) d hd)
  · rw [Tree.linkOf_congr (hslots m (by simp [Tree.HoldsPhi.nodes, hm]))] at hd
    exact hstays (hw c n q' hn hq.node? m hm d hd)

theorem Anchored.read (hlies : Lies base v reals nodes) (ha : r.Anchored stale f) :
    r.Anchored stale f' := by
  intro n hn huse d hd
  obtain ⟨c, -, hc⟩ := (h.all n).1 hn
  have hslot := h.slot?_of_relies hphi hnew hread.slot?_eq (.inl (hlies.index_lt hc))
  rw [Tree.linkOf_congr hslot] at hd
  rw [Tree.defines, Tree.node?, hslot] at huse
  exact (ha n hn huse d hd).imp_left (hread.occurs hnew.holds)

end reading

namespace Replaced

variable {t : Tree} (h : Replaced o base v scope reals r b phi p d f t f')

include h

theorem occurs {x : NodeId} (hx : f.tree.Occurs v true x) (hne : x ≠ p.target) :
    f'.tree.Occurs v true x := by
  have hx' := h.redirects.retouched.occurs hx
  refine hx'.of_slot? (h.removes.other x (hx'.ne_of_holdsPhi h.newPhi.holds) fun hmem => ?_)
  rcases List.mem_cons.1 hmem with he | hmem
  · exact hne he
  · exact h.newPhi.holds.not_mem_operands hx' hmem

theorem live {x : NodeId} (hx : f'.tree.isLive x = true) : f.tree.isLive x = true :=
  h.redirects.touches.live x ((h.removes.touches h.newPhi.holds).live x hx)

/-- Where a phi has given way to a definition, what its operands linked to stays. -/
theorem wiredBut (hw : r.WiredBut lost f) (hd : f.tree.LinkEnd lost v d) (hne : d ≠ p.target) :
    (r.setPhi b none).WiredBut lost f' := by
  have hvar : r.var = v := h.before.var
  have hstays {x : NodeId} (hx : f.tree.LinkEnd lost v x) (hxt : x ≠ p.target) :
      f'.tree.LinkEnd lost v x := hx.keep (fun hocc => h.occurs hocc hxt) h.live
  intro c n q hn hq m hm x hx
  have hc : c ≠ b := by
    rintro rfl
    simp at hn
  rw [phi?_setPhi_of_ne hc] at hn
  obtain ⟨q', hf, hf', -⟩ := h.holdsPhi hc hn
  obtain rfl : q = q' := by simpa [hq] using hf'.node?
  have hnode := hf.node?
  obtain ⟨om, hom, -, huse⟩ := hf.occurs_operand hm
  have hnow := h.definitionOf hc hn hnode hm (Tree.definitionOf_ok.2 ⟨om, hom, rfl⟩)
  rw [← (hf'.occurs_operand hm).definitionOf, hnow, Except.ok.injEq, Option.map_eq_some_iff] at hx
  obtain ⟨y, hy, rfl⟩ := hx
  have hlink : f.tree.linkOf m = .ok (some y) := by
    rw [← (hf.occurs_operand hm).definitionOf]
    exact Tree.definitionOf_ok.2 ⟨om, hom, hy⟩
  have hend := hvar ▸ hw c n q hn hnode m hm y hlink
  show f'.tree.LinkEnd lost r.var _
  rw [hvar, instead]
  split
  · exact hstays hd hne
  · next hother => exact hstays hend hother

/-- What the uses outside phis linked to stays, too. -/
theorem anchored (hlies : Lies base v reals nodes) (ha : r.Anchored stale f)
    (hd : f.tree.Occurs v true d) (hne : d ≠ p.target) : (r.setPhi b none).Anchored stale f' := by
  have hvar : r.var = v := h.before.var
  intro n hn huse x hx
  obtain ⟨c, hc, hreal⟩ := (h.before.all n).1 hn
  obtain ⟨y, hy, rfl⟩ := h.exists_linkOf hlies hc hreal huse hx
  rw [h.defines_of_real hlies hreal] at huse
  show f'.tree.Occurs r.var true _ ∨ _
  rw [hvar, instead]
  split
  · exact .inl (h.occurs hd hne)
  · next hother => exact (hvar ▸ ha n hn huse y hy).imp_left fun hocc => h.occurs hocc hother

end Replaced

end removing

end Roster

namespace FlowGraph.Partly

variable {o : SsaOptions} {input f : FlowGraph} {rosters : List Roster}
  {group : Occurrences} {r : Roster}
  {s s' : Recorded (Bench Numbering)}

/-- One more variable is converted by links to its definitions. -/
theorem rewires (hs : Partly o input rosters s.value.flow) (coherent : input.Coherent)
    (hgroup : group ∈ input.occurrences o)
    (h : FlowGraph.convertVariable o input.dominators (input.graph.frontiers input.dominators) group
      s = .ok r s') : s.value.flow.tree.Rewires s'.value.flow.tree := by
  obtain ⟨-, hnodes⟩ := nodes_of_mem_occurrences hgroup
  have hlinked := fun n d => link_of_convertVariable (n := n) (d := d) h
  rw [← hs.shape.dominators, ← hs.shape.frontiers] at h
  obtain ⟨-, hconverted, -⟩ := convertVariable_ok h (hs.shape.framed coherent.toFramed)
    (hs.inside coherent) (hs.lies (lies_realsIn coherent hnodes))
  exact ⟨fun _ _ _ => hconverted.prepared.kept.occurs, hlinked⟩

/-- The operands of all phis are linked to definitions then. -/
theorem wired (h : Partly o input rosters f) (hlinks : input.tree.Rewires f.tree) :
    ∀ r ∈ rosters, r.Wired f :=
  fun r hr => (h.converted r hr).prepared.wired hlinks.linked

/-- The uses outside phis are linked to definitions then, unless they are linked as they were. -/
theorem anchored (h : Partly o input rosters f) (hlinks : input.tree.Rewires f.tree)
    (coherent : input.Coherent) :
    ∀ r ∈ rosters, r.Anchored (fun n d => input.tree.linkOf n = .ok (some d)) f :=
  fun r hr => (h.converted r hr).prepared.anchored (lies_realsIn coherent rfl) hlinks.linked

end FlowGraph.Partly

end MethodFlow
