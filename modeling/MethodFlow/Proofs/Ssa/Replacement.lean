import MethodFlow.Proofs.Ssa.Domination
import MethodFlow.Proofs.Tree.Redirect

/-!
Phis that give way to the single definition that they merge. What was linked to the target of such a
phi links to this definition, and every use is still dominated.
-/

namespace MethodFlow

namespace Roster

variable {o : SsaOptions} {base f f' : FlowGraph} {v w : Var} {scope : NodeId → Var → Prop}
  {reals : BlockId → List NodeId} {nodes : List NodeId} {r : Roster} {b : BlockId} {d phi : NodeId}
  {p : Phi}

/-- Work that leaves the occurrences outside phis alone, and every definition that a phi merges an
operand. -/
theorem Dominated.keep (hd : Dominated base reals r f)
    (h : Prepared (Admits o) base v scope reals r f)
    (h' : Prepared (Admits o) base v scope reals r f') (closed : base.graph.Closed)
    (hentry : base.contains FlowGraph.entry = true)
    (hreal : ∀ c, ∀ n ∈ reals c, f'.tree.slot? n = f.tree.slot? n)
    (hphi : ∀ c n q', r.phi? c = some n → f'.tree.node? n = some (.phi q') →
      ∃ q, f.tree.node? n = some (.phi q) ∧ q'.target = q.target ∧ ∀ m ∈ q.operands, ∀ x,
        f.tree.definitionOf m = .ok x → ∃ m' ∈ q'.operands, f'.tree.definitionOf m' = .ok x) :
    Dominated base reals r f' := by
  refine hd.carry closed hentry id (fun c n hn => ⟨?_, rfl⟩) ?_ ?_ ?_
  · rw [Tree.defines, Tree.node?, hreal c n hn, Tree.defines, Tree.node?]
  · intro c _ n hn _ d hlink
    refine ⟨d, ?_, rfl⟩
    rwa [Tree.linkOf_congr (hreal c n hn)] at hlink
  · intro c _ target htarget
    obtain ⟨n, q, hn, hq, rfl⟩ := h.targetAt?_eq_some.1 htarget
    obtain ⟨q', hnew⟩ := h'.phi c n hn
    have hq' := hnew.holds.node?
    obtain ⟨q'', hq'', hsame, -⟩ := hphi c n q' hn hq'
    obtain rfl : q = q'' := by simpa [hq] using hq''
    have htarget' := targetAt?_of_phi? hn hq'
    rw [hsame] at htarget'
    exact .inl ⟨rfl, htarget', h'.defines_target htarget'⟩
  · intro c n q' hn hq'
    obtain ⟨q, hq, -, hkeep⟩ := hphi c n q' hn hq'
    refine ⟨q, hn, hq, fun m hm x hx => ?_⟩
    rw [Option.map_id_fun, id]
    exact hkeep m hm x hx

section touching

variable (h : Prepared (Admits o) base w scope reals r f)
  (ht : Tree.Touches v f.tree f'.tree) (hne : w ≠ v)

include h ht hne

theorem Prepared.touch (hshape : f.SameShape f') (hkept : base.tree.Retouched scope f'.tree) :
    Prepared (Admits o) base w scope reals r f' :=
  { h with
    shape := h.shape.trans hshape
    kept := hkept
    prototype := by
      obtain ⟨hle, o', hs, hv, hd⟩ := h.prototype
      exact ⟨hle, o', (ht.slot?_of_ne hs (hv ▸ hne)).trans hs, hv, hd⟩
    phi := fun b n hn => by
      obtain ⟨p, hp⟩ := h.phi b n hn
      exact ⟨p, ht.holdsPhi hp.holds hne, hp.fresh, hp.admitted⟩ }

theorem Dominated.touch (hd : Dominated base reals r f) (hlies : Lies base w reals nodes)
    (hshape : f.SameShape f') (hkept : base.tree.Retouched scope f'.tree)
    (closed : base.graph.Closed) (hentry : base.contains FlowGraph.entry = true) :
    Dominated base reals r f' := by
  refine hd.keep h (h.touch ht hne hshape hkept) closed hentry (fun c n hn => ?_) ?_
  · exact ht.slot?_of_varOf (h.kept.varOf (hlies.var c n hn)) hne
  · intro c n q' hn hq'
    obtain ⟨q, hq⟩ := h.phi c n hn
    have hkeep := (ht.holdsPhi hq.holds hne).node?
    obtain rfl : q' = q := by simpa [hq'] using hkeep
    refine ⟨q', hq.holds.node?, rfl, fun m hm x hx => ⟨m, hm, ?_⟩⟩
    obtain ⟨om, hs, hv, -⟩ := hq.holds.operand m hm
    rwa [Tree.definitionOf_congr (ht.slot?_of_ne hs (hv ▸ hne))]

end touching

section reading

variable (h : Prepared (Admits o) base v scope reals r f) (hphi : r.phi? b = some phi)
  (hnew : NewPhi (Admits o) base f v b phi p)

include h hphi hnew

theorem Prepared.read {kept : List NodeId} (hread : f.tree.Reads f'.tree v phi p (some b) kept)
    (hshape : f.SameShape f') (hcatch : p.kind = .catching) :
    Prepared (Admits o) base v scope reals r f' := by
  refine { h with shape := h.shape.trans hshape, kept := ?_, prototype := ?_, phi := ?_ }
  · exact h.kept.keep (Nat.le_of_eq hread.size.symm) fun m hm =>
      h.slot?_of_relies hphi hnew hread.slot?_eq (.inl hm)
  · obtain ⟨hle, o', hs, ho⟩ := h.prototype
    exact ⟨hle, o', (h.slot?_of_relies hphi hnew hread.slot?_eq (.inr (.inl rfl))).trans hs, ho⟩
  · intro c n hn
    by_cases hc : c = b
    · subst hc
      obtain rfl : phi = n := Option.some.inj (hphi.symm.trans hn)
      refine ⟨_, hread.holds, fun q hq => hnew.fresh q ?_, ?_⟩
      · rcases List.mem_cons.1 hq with rfl | hq
        · simp [Tree.HoldsPhi.nodes]
        · rcases List.mem_cons.1 hq with rfl | hq
          · simp [Tree.HoldsPhi.nodes]
          · simp [Tree.HoldsPhi.nodes, hread.subset hq]
      · have hadmits := hnew.admitted
        cases hinputs : p.inputs with
        | catching operands => rwa [hinputs] at hadmits
        | joining block operands => simp [Phi.kind, hinputs] at hcatch
        | returning sub operands => simp [Phi.kind, hinputs] at hcatch
    · obtain ⟨q, hq⟩ := h.phi c n hn
      exact ⟨q, hq.holds.of_slots fun m hm =>
        h.slot?_of_phi hphi hnew hread.slot?_eq hc hn hq.holds hm, hq.fresh, hq.admitted⟩

/-- A phi on the roster is the one read, or it is what it was. -/
theorem Prepared.read_cases {kept : List NodeId}
    (hread : f.tree.Reads f'.tree v phi p (some b) kept) {c : BlockId} {n : NodeId} {q : Phi}
    (hn : r.phi? c = some n) (hq : f'.tree.node? n = some (.phi q)) :
    c = b ∧ n = phi ∧ q = { p with inputs := .catching kept } ∨
      f.tree.HoldsPhi v n q (some c) ∧
        ∀ m ∈ Tree.HoldsPhi.nodes n q, f'.tree.slot? m = f.tree.slot? m := by
  by_cases hc : c = b
  · subst hc
    obtain rfl : phi = n := Option.some.inj (hphi.symm.trans hn)
    have hread' := hread.holds.node?
    exact .inl ⟨rfl, rfl, (Node.phi.inj (Option.some.inj (hread'.symm.trans hq))).symm⟩
  · obtain ⟨q', hq'⟩ := h.phi c n hn
    have hslots (m : NodeId) := h.slot?_of_phi (m := m) hphi hnew hread.slot?_eq hc hn hq'.holds
    have hnode := hq'.holds.node?
    obtain rfl : q' = q := by
      rw [Tree.node?, hslots n (by simp [Tree.HoldsPhi.nodes]), ← Tree.node?, hnode] at hq
      exact Node.phi.inj (Option.some.inj hq)
    exact .inr ⟨hq'.holds, hslots⟩

theorem Dominated.read {kept : List NodeId} (hd : Dominated base reals r f)
    (hread : f.tree.Reads f'.tree v phi p (some b) kept) (hshape : f.SameShape f')
    (hcatch : p.kind = .catching) (closed : base.graph.Closed)
    (hentry : base.contains FlowGraph.entry = true) (hlies : Lies base v reals nodes) :
    Dominated base reals r f' := by
  have h' := h.read hphi hnew hread hshape hcatch
  refine hd.keep h h' closed hentry (fun c n hn => ?_) fun c n q' hn hq' => ?_
  · exact h.slot?_of_relies hphi hnew hread.slot?_eq (.inl (hlies.index_lt hn))
  rcases h.read_cases hphi hnew hread hn hq' with ⟨rfl, rfl, rfl⟩ | ⟨hq, hslots⟩
  · exact ⟨p, hnew.holds.node?, rfl, fun m hm x hx => hread.exists_operand hm hx⟩
  · refine ⟨q', hq.node?, rfl, fun m hm x hx => ⟨m, hm, ?_⟩⟩
    rwa [Tree.definitionOf_congr (hslots m (by simp [Tree.HoldsPhi.nodes, hm]))]

end reading

/-- An occurrence that was there first and links to a definition that was not has been linked
since. -/
theorem Prepared.scope_of_link (h : Prepared (Admits o) base v scope reals r f)
    (coherent : base.tree.Coherent)
    {m d : NodeId} (hm : m.index < base.tree.size) (hd : base.tree.size ≤ d.index)
    (hlink : f.tree.linkOf m = .ok (some d)) (hvar : f.tree.varOf m = .ok w) : scope m w := by
  obtain ⟨o', ho', hl⟩ := Tree.linkOf_ok.1 hlink
  obtain ⟨o'', ho'', rfl⟩ := Tree.varOf_ok.1 hvar
  obtain rfl : o' = o'' := by simpa [ho'] using ho''
  obtain ⟨s', hs', hnode⟩ := Tree.node?_eq_some.1 ho'
  cases hs : base.tree.slot? m with
  | none => simp [h.kept.gone m hm hs] at hs'
  | some s =>
    obtain ⟨s'', hs'', hr⟩ := h.kept.slot m s hs
    obtain rfl : s' = s'' := Option.some.inj (hs'.symm.trans hs'')
    rcases hr with rfl | ⟨old, link, version, -, hscope, rfl⟩
    · exact absurd (coherent.linked m s' hs o' d hnode hl) (Nat.not_lt.2 hd)
    · obtain rfl := Node.occurrence.inj hnode
      exact hscope

/-- Linking uses of a phi's target to another definition keeps a roster. -/
theorem Prepared.redirect (h : Prepared (Admits o) base v scope reals r f)
    (coherent : base.tree.Coherent)
    (hnew : NewPhi (Admits o) base f v b phi p) (hredirects : f.tree.Redirects v p.target d f'.tree)
    (hshape : f.SameShape f') : Prepared (Admits o) base v scope reals r f' := by
  refine h.retouch hshape hredirects.retouched fun n w hn hw => ?_
  obtain ⟨rfl, hvar, hlink⟩ := hw
  exact h.scope_of_link coherent hn (hnew.fresh p.target (by simp [Tree.HoldsPhi.nodes])) hlink hvar

/-- A node that a roster's variable is used at outside phis, or an operand of one of its phis. -/
def Uses (base f : FlowGraph) (reals : BlockId → List NodeId) (r : Roster) (n : NodeId) : Prop :=
  (∃ c ∈ base.preorder, n ∈ reals c) ∨
    ∃ c phi p, r.phi? c = some phi ∧ f.tree.node? phi = some (.phi p) ∧ n ∈ p.operands

/-- The phi at `b` gives way to `d`. What used its target links to `d` in the tree `t`, and then the
phi is removed. -/
structure Replaced (o : SsaOptions) (base : FlowGraph) (v : Var) (scope : NodeId → Var → Prop)
    (reals : BlockId → List NodeId) (r : Roster) (b : BlockId) (phi : NodeId) (p : Phi) (d : NodeId)
    (f : FlowGraph) (t : Tree) (f' : FlowGraph) : Prop where
  before : Prepared (Admits o) base v scope reals r f
  middle : Prepared (Admits o) base v scope reals r { f with tree := t }
  after : Prepared (Admits o) base v scope reals (r.setPhi b none) f'
  listed : r.phi? b = some phi
  new : NewPhi (Admits o) base f v b phi p
  redirects : f.tree.Redirects v p.target d t
  clear : ∀ n, Uses base f reals r n → t.defines n = false → t.linkOf n ≠ .ok (some p.target)
  removes : t.Removes f'.tree phi p

/-- What stands for `x` once `d` stands for `target`. -/
def instead (target d x : NodeId) : NodeId := if x = target then d else x

namespace Replaced

variable {t : Tree} (h : Replaced o base v scope reals r b phi p d f t f')
  {c : BlockId} {n : NodeId}

include h

theorem newPhi : NewPhi (Admits o) base { f with tree := t } v b phi p :=
  ⟨h.redirects.retouched.holdsPhi h.new.holds, h.new.fresh, h.new.admitted⟩

theorem targetAt?_self : r.targetAt? f b = some p.target :=
  targetAt?_of_phi? h.listed h.new.holds.node?

theorem slot?_of_real (hlies : Lies base v reals nodes) (hn : n ∈ reals c) :
    f'.tree.slot? n = t.slot? n :=
  h.middle.slot?_of_relies h.listed h.newPhi h.removes.other (.inl (hlies.index_lt hn))

theorem defines_of_real (hlies : Lies base v reals nodes) (hn : n ∈ reals c) :
    f'.tree.defines n = f.tree.defines n := by
  rw [← h.redirects.retouched.defines (h.before.kept.varOf (hlies.var c n hn)),
    Tree.defines, Tree.node?, h.slot?_of_real hlies hn, Tree.defines, Tree.node?]

/-- The other phis stay. -/
theorem holdsPhi (hc : c ≠ b) (hn : r.phi? c = some n) :
    ∃ q, f.tree.HoldsPhi v n q (some c) ∧ f'.tree.HoldsPhi v n q (some c) ∧
      ∀ m ∈ Tree.HoldsPhi.nodes n q, f'.tree.slot? m = t.slot? m := by
  obtain ⟨q, hq⟩ := h.before.phi c n hn
  have hmiddle : t.HoldsPhi v n q (some c) := h.redirects.retouched.holdsPhi hq.holds
  have hslots : ∀ m ∈ Tree.HoldsPhi.nodes n q, f'.tree.slot? m = t.slot? m := fun m hm =>
    h.middle.slot?_of_phi h.listed h.newPhi h.removes.other hc hn hmiddle hm
  exact ⟨q, hq.holds, hmiddle.of_slots hslots, hslots⟩

theorem targetAt?_of_ne (hc : c ≠ b) : (r.setPhi b none).targetAt? f' c = r.targetAt? f c := by
  have hsame : (r.setPhi b none).phi? c = r.phi? c := phi?_setPhi_of_ne hc
  cases hn : r.phi? c with
  | none => rw [targetAt?_eq_none hn, targetAt?_eq_none (hsame.trans hn)]
  | some n =>
    obtain ⟨q, hq, hq', -⟩ := h.holdsPhi hc hn
    rw [targetAt?_of_phi? hn hq.node?,
      targetAt?_of_phi? (hsame.trans hn) hq'.node?]

theorem meets_of_ne (hlies : Lies base v reals nodes) (hc : c ≠ b) (hn : r.Meets f reals c n) :
    (r.setPhi b none).Meets f' reals c n := by
  have htarget := h.targetAt?_of_ne hc
  refine ⟨by rw [met, htarget]; exact hn.1, ?_⟩
  rcases List.mem_append.1 hn.1 with hin | hin
  · exact h.after.defines_target (htarget.trans (Option.mem_toList.1 hin))
  · rw [h.defines_of_real hlies hin, hn.2]

theorem linkOf_of_occurs (hn : f.tree.Occurs v false n) (hslot : f'.tree.slot? n = t.slot? n)
    (huses : f.tree.linkOf n = .ok (some p.target) → Uses base f reals r n) {x : Option NodeId}
    (hx : f.tree.linkOf n = .ok x) : f'.tree.linkOf n = .ok (x.map (instead p.target d)) := by
  have hn' := h.redirects.retouched.occurs hn
  rw [Tree.linkOf_congr hslot, ← hn'.definitionOf]
  rcases h.redirects.definitionOf (hn.definitionOf.trans hx) with hsame | ⟨rfl, hnow⟩
  · have hother : x ≠ some p.target := by
      rintro rfl
      exact h.clear n (huses hx) (Tree.occurs_iff.1 hn').2 (hn'.definitionOf.symm.trans hsame)
    rw [hsame]
    cases x with
    | none => rfl
    | some y => rw [Option.map_some, instead, if_neg fun he : y = p.target => hother (he ▸ rfl)]
  · rw [hnow, Option.map_some, instead, if_pos rfl]

theorem exists_linkOf (hlies : Lies base v reals nodes) (hc : c ∈ base.preorder) (hn : n ∈ reals c)
    (huse : f'.tree.defines n = false) {x : NodeId} (hlink : f'.tree.linkOf n = .ok (some x)) :
    ∃ y, f.tree.linkOf n = .ok (some y) ∧ instead p.target d y = x := by
  rw [h.defines_of_real hlies hn] at huse
  have hocc : f.tree.Occurs v false n :=
    Tree.occurs_iff.2 ⟨h.before.kept.varOf (hlies.var c n hn), huse⟩
  obtain ⟨link, hbefore⟩ := hocc.exists_linkOf
  rw [h.linkOf_of_occurs hocc (h.slot?_of_real hlies hn) (fun _ => .inl ⟨c, hc, hn⟩) hbefore,
    Except.ok.injEq, Option.map_eq_some_iff] at hlink
  obtain ⟨y, rfl, hx⟩ := hlink
  exact ⟨y, hbefore, hx⟩

theorem linkOf_operand {m : NodeId} {q : Phi} (hc : c ≠ b) (hn : r.phi? c = some n)
    (hq : f.tree.HoldsPhi v n q (some c)) (hm : m ∈ q.operands) {x : Option NodeId}
    (hx : f.tree.linkOf m = .ok x) : f'.tree.linkOf m = .ok (x.map (instead p.target d)) := by
  obtain ⟨q', hf, -, hslots⟩ := h.holdsPhi hc hn
  have hnode := hq.node?
  obtain rfl : q = q' := by simpa [hnode] using hf.node?
  exact h.linkOf_of_occurs (hq.occurs_operand hm) (hslots m (by simp [Tree.HoldsPhi.nodes, hm]))
    (fun _ => .inr ⟨c, n, q, hn, hnode, hm⟩) hx

theorem definitionOf {m : NodeId} {q : Phi} (hc : c ≠ b) (hn : r.phi? c = some n)
    (hq : f.tree.node? n = some (.phi q)) (hm : m ∈ q.operands) {x : Option NodeId}
    (hx : f.tree.definitionOf m = .ok x) :
    f'.tree.definitionOf m = .ok (x.map (instead p.target d)) := by
  obtain ⟨q', hf, hf', -⟩ := h.holdsPhi hc hn
  obtain rfl : q = q' := by simpa [hq] using hf.node?
  rw [(hf'.occurs_operand hm).definitionOf]
  exact h.linkOf_operand hc hn hf hm ((hf.occurs_operand hm).definitionOf.symm.trans hx)

/-- The target of the phi is met in no other block and is no occurrence outside phis. -/
theorem ne_target (hlies : Lies base v reals nodes) (hn : n ∈ r.met f reals c)
    (hcase : c ≠ b ∨ n ∈ reals c) : n ≠ p.target := by
  rintro rfl
  rcases hcase with hc | hold
  · exact hc (h.before.block_unique hlies hn (by simp [met, h.targetAt?_self]))
  · have := h.new.fresh p.target (by simp [Tree.HoldsPhi.nodes])
    exact absurd (hlies.index_lt hold) (Nat.not_lt.2 this)

/-- If the phi merged `d` alone, what dominated before still does. -/
theorem dominated (hlies : Lies base v reals nodes) (closed : base.graph.Closed)
    (hentry : base.contains FlowGraph.entry = true) (hd : Dominated base reals r f)
    (hsole : ∀ q ∈ p.operands, ∃ x, f.tree.definitionOf q = .ok (some x) ∧
      (x = p.target ∨ x = d)) : Dominated base reals (r.setPhi b none) f' := by
  have hnode := h.new.holds.node?
  refine hd.carry closed hentry (instead p.target d) ?_ ?_ ?_ ?_
  · intro c n hn
    have hne := h.ne_target hlies (List.mem_append_right _ hn) (.inr hn)
    exact ⟨h.defines_of_real hlies hn, if_neg hne⟩
  · intro c hc n hn huse x hlink
    have hcp : c ∈ base.preorder := List.mem_append_left _
      ((Digraph.mem_reversePostorder closed hentry).1 hc)
    exact h.exists_linkOf hlies hcp hn huse hlink
  · intro c hc x hx
    by_cases hcb : c = b
    · subst hcb
      obtain rfl : p.target = x := Option.some.inj (h.targetAt?_self.symm.trans hx)
      obtain ⟨e, he, hmeets⟩ := hd.exists_strictlyDominates h.before hlies closed hentry hc h.listed
        hnode hsole
      refine .inr ⟨e, he, ?_⟩
      rw [instead, if_pos rfl]
      exact h.meets_of_ne hlies he.1 hmeets
    · have hx' := (h.targetAt?_of_ne hcb).trans hx
      have hne := h.ne_target hlies (n := x) (by simp [met, hx]) (.inl hcb)
      exact .inl ⟨if_neg hne, hx', h.after.defines_target hx'⟩
  · intro c n q hn hq
    have hcb : c ≠ b := by
      rintro rfl
      simp at hn
    rw [phi?_setPhi_of_ne hcb] at hn
    obtain ⟨q', hf, hf', -⟩ := h.holdsPhi hcb hn
    obtain rfl : q = q' := by simpa [hq] using hf'.node?
    have hnodef := hf.node?
    exact ⟨q, hn, hnodef, fun m hm x hx => ⟨m, hm, h.definitionOf hcb hn hnodef hm hx⟩⟩

end Replaced

end Roster

end MethodFlow
