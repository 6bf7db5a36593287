import MethodFlow.Proofs.Ssa.Links
import MethodFlow.Proofs.Ssa.Origins

/-!
Removal of phis that merge a single definition. Each removal keeps its roster and the links in
order, lets uses stand for what they stood for and leaves the other variables alone, so any number
of rounds does.
-/

namespace MethodFlow

namespace Bench

variable {τ υ α : Type} {s s' : Recorded (Bench τ)} {a : α}

theorem onTree_ok {x : Edit (Recorded Tree) α}
    (h : (onTree x : Edit (Recorded (Bench τ)) α) s = .ok a s') :
    ∃ m : Recorded Tree, x ⟨s.value.flow.tree, s.events⟩ = .ok a m ∧
      s'.value.flow.tree = m.value ∧ s.value.flow.SameShape s'.value.flow ∧
      s'.value.flow.statements = s.value.flow.statements ∧ s'.value.own = s.value.own := by
  obtain ⟨m, hm, rfl⟩ := Edit.within_ok.1 h
  exact ⟨m, hm, rfl, .withTree _ _, rfl, rfl⟩

end Bench

namespace RosterEdit

open Roster

variable {o : SsaOptions} {base : FlowGraph} {v : Var} {scope : NodeId → Var → Prop}
  {reals : BlockId → List NodeId} {nodes : List NodeId} {b : BlockId} {phi target d : NodeId}
  {s s' : Recorded (Bench Roster)}

/-- Every operand stands for the phi's own target or for the sole definition, which is another. -/
theorem soleDefinition_ok {t : Tree} {found : Option NodeId} {operands : List NodeId}
    (h : soleDefinition t target found operands = .ok (some d)) (hfound : found ≠ some target) :
    d ≠ target ∧
      (found = some d ∨ found = none ∧ ∃ q ∈ operands, t.definitionOf q = .ok (some d)) ∧
      ∀ q ∈ operands, ∃ x, t.definitionOf q = .ok (some x) ∧ (x = target ∨ x = d) := by
  induction operands generalizing found with
  | nil =>
    obtain rfl := Except.pure_eq_ok.1 h
    exact ⟨fun he => hfound (he ▸ rfl), .inl rfl, by simp⟩
  | cons q rest ih =>
    simp only [soleDefinition, Except.bind_eq_ok] at h
    obtain ⟨x, hx, h⟩ := h
    cases x with
    | none => simp at h
    | some x =>
      by_cases hself : x = target
      · simp only [if_pos hself] at h
        obtain ⟨hne, hkept, hrest⟩ := ih h hfound
        refine ⟨hne, hkept.imp_right ?_, List.forall_mem_cons.2 ⟨⟨x, hx, .inl hself⟩, hrest⟩⟩
        rintro ⟨hnone, q', hq', hd⟩
        exact ⟨hnone, q', List.mem_cons_of_mem q hq', hd⟩
      · simp only [if_neg hself] at h
        cases found with
        | none =>
          obtain ⟨hne, hkept, hrest⟩ := ih h (by simpa using hself)
          obtain rfl : x = d := by simpa using hkept
          exact ⟨hne, .inr ⟨rfl, q, by simp, hx⟩, List.forall_mem_cons.2 ⟨⟨x, hx, .inr rfl⟩, hrest⟩⟩
        | some known =>
          by_cases hsame : known = x
          · simp only [if_pos hsame] at h
            obtain ⟨hne, hkept, hrest⟩ := ih h hfound
            obtain rfl : x = d := by simpa [hsame] using hkept
            exact ⟨hne, .inl (by rw [hsame]), List.forall_mem_cons.2 ⟨⟨x, hx, .inr rfl⟩, hrest⟩⟩
          · simp [hsame] at h

/-- The phi at `b` merges `d` alone: some operand stands for `d`, and each of them for `d` or for
the phi itself. -/
structure Merges (o : SsaOptions) (base f : FlowGraph) (v : Var) (b : BlockId)
    (phi : NodeId) (p : Phi) (d : NodeId) : Prop where
  new : NewPhi (Admits o) base f v b phi p
  ne_target : d ≠ p.target
  exists_operand : ∃ q ∈ p.operands, f.tree.definitionOf q = .ok (some d)
  sole : ∀ q ∈ p.operands, ∃ x, f.tree.definitionOf q = .ok (some x) ∧ (x = p.target ∨ x = d)

theorem Merges.linkEnd {f : FlowGraph} {r : Roster} {p : Phi} {lost : NodeId → Prop}
    (h : Merges o base f v b phi p d) (hvar : r.var = v) (hw : r.WiredBut lost f)
    (hphi : r.phi? b = some phi) : f.tree.LinkEnd lost v d := by
  obtain ⟨q, hq, hqd⟩ := h.exists_operand
  rw [(h.new.holds.occurs_operand hq).definitionOf] at hqd
  exact hvar ▸ hw b phi p hphi h.new.holds.node? q hq d hqd

theorem Merges.occurs {f : FlowGraph} {r : Roster} {p : Phi} (h : Merges o base f v b phi p d)
    (hvar : r.var = v) (hw : r.Wired f) (hphi : r.phi? b = some phi) : f.tree.Occurs v true d := by
  simpa [Tree.LinkEnd] using h.linkEnd hvar (wiredBut_iff_wired.2 hw) hphi

/-- What work on a roster's phis leaves as it was. -/
structure Keeps (base : FlowGraph) (v : Var) (reals : BlockId → List NodeId)
    (s s' : Bench Roster) : Prop where
  shape : s.flow.SameShape s'.flow
  sheds : Sheds s s'
  sameReals : s'.own.reals = s.own.reals
  touches : Tree.Touches v s.flow.tree s'.flow.tree
  listed : ∀ b n, s.own.phi? b = some n → s'.flow.tree.isLive n = true → s'.own.phi? b = some n
  dominated : Dominated base reals s.own s.flow → Dominated base reals s'.own s'.flow
  kindred : Tree.Kindred base.tree s.flow.tree → Tree.Kindred base.tree s'.flow.tree
  origins : ∀ n, base.tree.Occurs v false n → s'.own.origins s'.flow n = s.own.origins s.flow n
  wired : ∀ lost, s.own.WiredBut lost s.flow → s'.own.WiredBut lost s'.flow
  anchored : ∀ stale, s.own.Wired s.flow → s.own.Anchored stale s.flow →
    s'.own.Anchored stale s'.flow

theorem Keeps.refl (s : Bench Roster) : Keeps base v reals s s :=
  ⟨.refl _, .refl _, rfl, .refl _ _, fun _ _ hn _ => hn, id, id, fun _ _ => rfl, fun _ => id,
    fun _ _ => id⟩

theorem Keeps.trans {s s' s'' : Bench Roster} (h : Keeps base v reals s s')
    (h' : Keeps base v reals s' s'') : Keeps base v reals s s'' where
  shape := h.shape.trans h'.shape
  sheds := h.sheds.trans h'.sheds
  sameReals := h'.sameReals.trans h.sameReals
  touches := h.touches.trans h'.touches
  listed b n hn hlive := h'.listed b n (h.listed b n hn (h'.touches.live n hlive)) hlive
  dominated hd := h'.dominated (h.dominated hd)
  kindred hk := h'.kindred (h.kindred hk)
  origins n hn := (h'.origins n hn).trans (h.origins n hn)
  wired lost hw := h'.wired lost (h.wired lost hw)
  anchored stale hw ha := h'.anchored stale
    (wiredBut_iff_wired.1 (h.wired _ (wiredBut_iff_wired.2 hw)))
    (h.anchored stale hw ha)

section

variable (hs : Prepared (Admits o) base v scope reals s.value.own s.value.flow)
  (hlies : Lies base v reals nodes) (closed : base.graph.Closed)
  (hentry : base.contains FlowGraph.entry = true)

include hs hlies closed hentry

theorem readOperands_ok {operands : List NodeId} (h : readOperands phi s = .ok operands s')
    (hphi : s.value.own.phi? b = some phi) :
    Prepared (Admits o) base v scope reals s'.value.own s'.value.flow ∧
      Keeps base v reals s.value s'.value ∧ s'.value.own = s.value.own ∧
      ∃ p, s'.value.flow.tree.node? phi = some (.phi p) ∧ p.operands = operands ∧
        s.value.flow.tree.phiTarget phi = .ok p.target := by
  obtain ⟨p, hnew⟩ := hs.phi b phi hphi
  have hnode := hnew.holds.node?
  simp only [readOperands, Edit.bind_ok, Edit.get_ok] at h
  obtain ⟨_, _, ⟨rfl, rfl⟩, h⟩ := h
  by_cases hkind : s.value.flow.tree.phiKind? phi = some .catching
  · rw [if_pos hkind] at h
    obtain ⟨m, hread, htree, hshape, hlists, hown⟩ := Bench.onTree_ok h
    have hcatch : p.kind = .catching := by simpa [Tree.phiKind?, hnode] using hkind
    have hreads := Tree.readCatchOperands_ok hread hnew.holds
    rw [← htree] at hreads
    rw [hown]
    refine ⟨hs.read hphi hnew hreads hshape hcatch,
      ⟨hshape, .of_eq (by rw [hown]) hlists, by rw [hown], hreads.touches hnew.holds, ?_, ?_,
        (·.reads hreads), ?_, ?_, ?_⟩, rfl, _,
      hreads.holds.node?, rfl, Tree.phiTarget_ok.2 ⟨p, hnode, rfl⟩⟩
    · intro c n hn _
      rw [hown, hn]
    · intro hd
      rw [hown]
      exact hd.read hs hphi hnew hreads hshape hcatch closed hentry hlies
    · intro n hn
      rw [hown]
      exact origins_read hs hphi hnew hreads hn.index_lt
    · intro lost hw
      rw [hown]
      exact hw.read hs hphi hnew hreads
    · intro stale _ ha
      rw [hown]
      exact ha.read hs hphi hnew hreads hlies
  · rw [if_neg hkind] at h
    obtain ⟨hoperands, rfl⟩ := Edit.ask_ok.1 h
    obtain ⟨p', hp', he⟩ := Tree.phiOperands_ok.1 hoperands
    exact ⟨hs, .refl _, rfl, p', hp', he, Tree.phiTarget_ok.2 ⟨p', hp', rfl⟩⟩

/-- A phi is found redundant only if it merges a single definition. -/
theorem redundantDefinition_ok {found : Option NodeId}
    (h : redundantDefinition phi s = .ok found s') (hphi : s.value.own.phi? b = some phi) :
    Prepared (Admits o) base v scope reals s'.value.own s'.value.flow ∧
      Keeps base v reals s.value s'.value ∧ s'.value.own = s.value.own ∧
      ∀ d ∈ found, ∃ p, Merges o base s'.value.flow v b phi p d := by
  simp only [redundantDefinition, Edit.bind_ok, Edit.ask_ok] at h
  obtain ⟨target, _, ⟨htarget, rfl⟩, operands, m, hread, hsole, rfl⟩ := h
  obtain ⟨hm, hkeeps, hown, p, hp, rfl, htarget'⟩ :=
    readOperands_ok hs hlies closed hentry hread hphi
  obtain rfl : target = p.target := Except.ok.inj (htarget.symm.trans htarget')
  refine ⟨hm, hkeeps, hown, fun d hd => ?_⟩
  obtain rfl := Option.mem_def.1 hd
  obtain ⟨hne, hfound, hsole⟩ := soleDefinition_ok hsole (by simp)
  have hexists := (hfound.resolve_left (by simp)).2
  exact ⟨p, hm.newPhi (hown ▸ hphi) hp, hne, hexists, hsole⟩

end

section uses

variable {r : Roster} {f : FlowGraph}

/-- What a roster finds that may be linked are its occurrences and the operands of its phis. -/
theorem exists_uses
    (h : ∀ n ∈ r.phis, f.tree.isLive n = true → ∃ p, f.tree.node? n = some (.phi p)) :
    ∃ found, uses r f = .ok found ∧ ∀ n, n ∈ found ↔
      n ∈ r.reals ∨ ∃ phi ∈ r.phis, ∃ p, f.tree.node? phi = some (.phi p) ∧ n ∈ p.operands := by
  obtain ⟨operands, hoperands⟩ : ∃ operands,
      (r.phis.filter f.tree.isLive).mapM f.tree.phiOperands = .ok operands := by
    refine Except.exists_mapM fun n hn => ?_
    obtain ⟨hn, hlive⟩ := List.mem_filter.1 hn
    obtain ⟨p, hp⟩ := h n hn hlive
    exact ⟨p.operands, Tree.phiOperands_ok.2 ⟨p, hp, rfl⟩⟩
  have hlists := Except.mapM_ok hoperands
    (g := fun n => (f.tree.phiOperands n).toOption.getD []) fun n _ y hy => by
      simp [hy, Except.toOption]
  refine ⟨r.reals ++ operands.flatten, ?_, fun n => List.mem_append.trans (or_congr_right ?_)⟩
  · simp [uses, hoperands, bind, Except.bind, pure, Except.pure]
  rw [hlists]
  constructor
  · intro hn
    obtain ⟨_, hmap, hn⟩ := List.mem_flatten.1 hn
    obtain ⟨phi, hmem, rfl⟩ := List.mem_map.1 hmap
    obtain ⟨hphi, hlive⟩ := List.mem_filter.1 hmem
    obtain ⟨p, hp⟩ := h phi hphi hlive
    rw [Tree.phiOperands_ok.2 ⟨p, hp, rfl⟩] at hn
    exact ⟨phi, hphi, p, hp, hn⟩
  · rintro ⟨phi, hphi, p, hp, hn⟩
    have hmem := List.mem_filter.2 ⟨hphi, Tree.isLive_of_node? hp⟩
    refine List.mem_flatten.2 ⟨p.operands, List.mem_map.2 ⟨phi, hmem, ?_⟩, hn⟩
    rw [Tree.phiOperands_ok.2 ⟨p, hp, rfl⟩]
    rfl

variable (hr : Prepared (Admits o) base v scope reals r f) (hlies : Lies base v reals nodes)
  (nodup : base.preorder.Nodup)

include hr hlies nodup

/-- All uses that a roster knows of are found, and nothing but occurrences of its variable. -/
theorem exists_uses_of_prepared : ∃ found, uses r f = .ok found ∧
    (∀ n, Uses base f reals r n → n ∈ found) ∧ ∀ n ∈ found, f.tree.varOf n = .ok v := by
  obtain ⟨found, hfound, hmem⟩ := exists_uses (r := r) (f := f) fun n hn _ => by
    obtain ⟨c, hc⟩ := (hr.mem_phis nodup).1 hn
    obtain ⟨p, hp⟩ := hr.phi c n hc
    exact ⟨p, hp.holds.node?⟩
  refine ⟨found, hfound, fun n hn => (hmem n).2 ?_, fun n hn => ?_⟩
  · rcases hn with ⟨c, hc, hn⟩ | ⟨c, phi, q, hn, hq, hoperand⟩
    · exact .inl ((hr.all n).2 ⟨c, hc, hn⟩)
    · exact .inr ⟨phi, (hr.mem_phis nodup).2 ⟨c, hn⟩, q, hq, hoperand⟩
  · rcases (hmem n).1 hn with hn | ⟨phi, hphi, p, hp, hn⟩
    · obtain ⟨c, -, hn⟩ := (hr.all n).1 hn
      exact hr.kept.varOf (hlies.var c n hn)
    · obtain ⟨c, hc⟩ := (hr.mem_phis nodup).1 hphi
      exact ((hr.newPhi hc hp).holds.occurs_operand hn).varOf

theorem uses_ok {found : List NodeId} (h : uses r f = .ok found) :
    (∀ n, Uses base f reals r n → n ∈ found) ∧ ∀ n ∈ found, f.tree.varOf n = .ok v := by
  obtain ⟨found', hfound', hall⟩ := exists_uses_of_prepared hr hlies nodup
  obtain rfl : found = found' := Except.ok.inj (h.symm.trans hfound')
  exact hall

end uses

theorem redirect_ok {n : NodeId} {u : Unit} (h : redirect target d n s = .ok u s')
    (hn : s.value.flow.tree.varOf n = .ok v) (hne : d ≠ target) :
    s.value.flow.SameShape s'.value.flow ∧ s'.value.flow.graph = s.value.flow.graph ∧
      s'.value.own = s.value.own ∧
      Tree.Redirects v target d s.value.flow.tree s'.value.flow.tree ∧
      (s'.value.flow.tree.defines n = false →
        s'.value.flow.tree.linkOf n ≠ .ok (some target)) := by
  obtain ⟨on, hon, -⟩ := Tree.varOf_ok.1 hn
  simp only [redirect, Edit.bind_ok, Edit.get_ok] at h
  obtain ⟨_, _, ⟨rfl, rfl⟩, h⟩ := h
  simp only [Tree.isLive_of_node? hon, if_true, Edit.bind_ok, Edit.ask_ok] at h
  obtain ⟨defines, _, ⟨hdefines, rfl⟩, h⟩ := h
  have hdefines := Tree.defines_of_isDefinition hdefines
  cases defines with
  | true =>
    obtain ⟨-, rfl⟩ := Edit.pure_ok.1 h
    exact ⟨.refl _, rfl, rfl, .refl _ _ _ _, by simp [hdefines]⟩
  | false =>
    simp only [Bool.not_false, if_true, Edit.bind_ok, Edit.ask_ok] at h
    obtain ⟨link, _, ⟨hlink, rfl⟩, h⟩ := h
    by_cases htarget : link = some target
    · rw [if_pos htarget] at h
      have hgraph := Bench.graph_liftTree h
      obtain ⟨htree, hshape, hown⟩ := Bench.liftTree_ok h
      obtain ⟨hredirects, hnow⟩ := Tree.redirects_of_setLink htree (htarget ▸ hlink) hn
      exact ⟨hshape, hgraph, hown, hredirects, fun _ => by simp [hnow, hne]⟩
    · rw [if_neg htarget] at h
      obtain ⟨-, rfl⟩ := Edit.pure_ok.1 h
      exact ⟨.refl _, rfl, rfl, .refl _ _ _ _, fun _ => by simp [hlink, htarget]⟩

theorem forM_redirect_ok {found : List NodeId} {u : Unit}
    (h : found.forM (redirect target d) s = .ok u s')
    (hfound : ∀ n ∈ found, s.value.flow.tree.varOf n = .ok v) (hne : d ≠ target) :
    s.value.flow.SameShape s'.value.flow ∧ s'.value.flow.graph = s.value.flow.graph ∧
      s'.value.own = s.value.own ∧
      Tree.Redirects v target d s.value.flow.tree s'.value.flow.tree ∧
      ∀ n ∈ found, s'.value.flow.tree.defines n = false →
        s'.value.flow.tree.linkOf n ≠ .ok (some target) := by
  refine Edit.forM_ok h (fun passed m => s.value.flow.SameShape m.value.flow ∧
    m.value.flow.graph = s.value.flow.graph ∧ m.value.own = s.value.own ∧
    Tree.Redirects v target d s.value.flow.tree m.value.flow.tree ∧
    ∀ n ∈ passed, m.value.flow.tree.defines n = false →
      m.value.flow.tree.linkOf n ≠ .ok (some target))
    ⟨.refl _, rfl, rfl, .refl _ _ _ _, by simp⟩ ?_
  rintro passed n rest m m' hsplit ⟨hshape, hgraph, hown, hredirects, hclear⟩ hstep
  have hvar := hredirects.retouched.varOf (hfound n (by simp [hsplit]))
  obtain ⟨hshape', hgraph', hown', hredirects', hlast⟩ := redirect_ok hstep hvar hne
  refine ⟨hshape.trans hshape', hgraph'.trans hgraph, hown'.trans hown,
    hredirects.trans hredirects' hne, fun k hk => ?_⟩
  rcases List.mem_append.1 hk with hk | hk
  · intro huse hlink
    have hbefore := hredirects.retouched.varOf (hfound k (by simp [hsplit, hk]))
    rw [hredirects'.retouched.defines hbefore] at huse
    rcases hredirects'.linkOf hlink with hsame | ⟨he, -⟩
    · exact hclear k hk huse hsame
    · exact hne (Option.some.inj he).symm
  · rw [List.mem_singleton.1 hk]
    exact hlast

/-- A phi that is gone is passed over. -/
theorem collapsePhi_of_dead (h : s.value.flow.tree.isLive phi = false) :
    collapsePhi phi s = .ok false s := by
  rw [collapsePhi, Edit.bind_of_ok (Edit.get_ok.2 ⟨rfl, rfl⟩)]
  simp only [h, Bool.not_false, if_true]
  rfl

section

variable (hs : Prepared (Admits o) base v scope reals s.value.own s.value.flow)
  (hlies : Lies base v reals nodes) (closed : base.graph.Closed)
  (hentry : base.contains FlowGraph.entry = true) (coherent : base.tree.Coherent)
  (hscope : ∀ n, scope n v → ∃ c ∈ base.preorder, n ∈ reals c)

include hs hlies closed hentry coherent hscope

/-- The second half of the removal: the phi gives way to the definition that it merges. -/
theorem replace_ok {p : Phi} {found : List NodeId} {m : Recorded (Bench Roster)} {u : Unit}
    {removed : Bool} (hphi : s.value.own.phi? b = some phi)
    (hmerges : Merges o base s.value.flow v b phi p d)
    (hfound : uses s.value.own s.value.flow = .ok found)
    (hredirect : found.forM (redirect p.target d) s = .ok u m)
    (hremove : removePhi b m = .ok removed s') :
    s'.value.own = s.value.own.setPhi b none ∧
      Replaced o base v scope reals s.value.own b phi p d s.value.flow m.value.flow.tree
        s'.value.flow ∧ Keeps base v reals s.value s'.value := by
  have hlinked {lost : NodeId → Prop} (hw : s.value.own.WiredBut lost s.value.flow) :
      s.value.flow.tree.LinkEnd lost v d := hmerges.linkEnd hs.var hw hphi
  have hdefined := fun hw => hmerges.occurs hs.var hw hphi
  obtain ⟨hnew, hne, hexists, hsole⟩ := hmerges
  have nodup := FlowGraph.nodup_preorder closed hentry
  obtain ⟨hall, hvars⟩ := uses_ok hs hlies nodup hfound
  obtain ⟨hshape, hgraph, hown, hredirects, hclear⟩ := forM_redirect_ok hredirect hvars hne
  have hm : Prepared (Admits o) base v scope reals m.value.own m.value.flow :=
    hown ▸ hs.redirect coherent hnew hredirects hshape
  have hholds := hredirects.retouched.holdsPhi hnew.holds
  obtain ⟨-, hown', hshape', hremoves, hsheds⟩ := removePhi_of_phi? hremove (hown ▸ hphi) hholds
  have hs' := (removePhi_ok hremove hm).1
  rw [hown', hown] at hs'
  have hfirst : Sheds s.value m.value := .of_eq (by rw [hown]) (by
    funext c
    rw [FlowGraph.statements, FlowGraph.block?, hgraph]
    rfl)
  have hreplaced : Replaced o base v scope reals s.value.own b phi p d s.value.flow
      m.value.flow.tree s'.value.flow :=
    ⟨hs, hs.redirect coherent hnew hredirects (.withTree _ _), hs', hphi, hnew, hredirects,
      fun n hn => hclear n (hall n hn), hremoves⟩
  refine ⟨by rw [hown', hown], hreplaced, hshape.trans hshape', hfirst.trans hsheds, ?_,
    hredirects.touches.trans (hremoves.touches hholds), ?_, ?_, ?_, ?_, ?_, ?_⟩
  · rw [hown', hown]
    rfl
  · intro c n hn hlive
    rw [hown', hown]
    by_cases hc : c = b
    · obtain rfl : phi = n := Option.some.inj (hphi.symm.trans (hc ▸ hn))
      simp [Tree.isLive, hremoves.gone phi (by simp [Tree.HoldsPhi.nodes])] at hlive
    · rw [phi?_setPhi_of_ne hc, hn]
  · intro hd
    rw [hown', hown]
    exact hreplaced.dominated hlies closed hentry hd hsole
  · intro hk
    obtain ⟨q, hq, hqd⟩ := hexists
    have hocc := hnew.holds.occurs_operand hq
    rw [hocc.definitionOf] at hqd
    exact (hk.redirects hredirects hocc.varOf hqd).removes hremoves
  · intro n hn
    rw [hown', hown]
    exact hreplaced.origins hlies coherent hscope hne hexists hsole hn
  · intro lost hw
    rw [hown', hown]
    exact hreplaced.wiredBut hw (hlinked hw) hne
  · intro stale hw ha
    rw [hown', hown]
    exact hreplaced.anchored hlies ha (hdefined hw) hne

/-- What trying a phi of a roster comes to. Either no single definition is found, or the phi gives
way to the one that it merges. -/
theorem collapsePhi_cases {removed : Bool} (h : collapsePhi phi s = .ok removed s')
    (hphi : s.value.own.phi? b = some phi) :
    removed = false ∧ redundantDefinition phi s = .ok none s' ∨
      removed = true ∧ ∃ d p m, redundantDefinition phi s = .ok (some d) m ∧
        Merges o base m.value.flow v b phi p d ∧
        s'.value.own = s.value.own.setPhi b none ∧
        ∃ t, Replaced o base v scope reals m.value.own b phi p d m.value.flow t s'.value.flow ∧
          Keeps base v reals m.value s'.value := by
  simp only [collapsePhi, Edit.bind_ok, Edit.get_ok] at h
  obtain ⟨_, _, ⟨rfl, rfl⟩, h⟩ := h
  simp only [hs.phi_live hphi, Bool.not_true, Bool.false_eq_true, if_false] at h
  obtain ⟨found, m, hredundant, h⟩ := Edit.bind_ok.1 h
  obtain ⟨hm, -, hown, hmerges⟩ := redundantDefinition_ok hs hlies closed hentry hredundant hphi
  cases found with
  | none =>
    obtain ⟨rfl, rfl⟩ := Edit.pure_ok.1 h
    exact .inl ⟨rfl, hredundant⟩
  | some d =>
    obtain ⟨p, hmerges⟩ := hmerges d rfl
    have hp : m.value.flow.tree.node? phi = some (.phi p) :=
      hmerges.new.holds.node?
    rw [← hown] at hphi
    simp only [Edit.bind_ok, Edit.ask_ok, askRoster_ok, Tree.phiTarget_ok] at h
    obtain ⟨_, _, ⟨⟨p', hp', rfl⟩, rfl⟩, found, _, ⟨hfound, rfl⟩, _, m₁, hredirect, block, _,
      ⟨hblock, rfl⟩, h⟩ := h
    obtain rfl : p = p' := by simpa [hp] using hp'
    have nodup := FlowGraph.nodup_preorder closed hentry
    obtain ⟨hshape, -, hown₁, hredirects, -⟩ :=
      forM_redirect_ok hredirect (uses_ok hm hlies nodup hfound).2 hmerges.ne_target
    have hholds := hredirects.retouched.holdsPhi hmerges.new.holds
    obtain rfl : block = some b :=
      Except.ok.inj (hblock.symm.trans (Tree.blockOf_root hholds.slot rfl))
    simp only [Edit.bind_ok] at h
    obtain ⟨removed', m₂, hremove, hend⟩ := h
    obtain ⟨rfl, -⟩ := removePhi_of_phi? hremove (hown₁ ▸ hphi) hholds
    obtain ⟨hown', hreplaced, hkeeps⟩ :=
      replace_ok hm hlies closed hentry coherent hscope hphi hmerges hfound hredirect hremove
    obtain ⟨_, m₃, hreport, hpure⟩ := Edit.bind_ok.1 hend
    obtain ⟨rfl, rfl⟩ := Edit.pure_ok.1 hpure
    rw [Bench.report_ok hreport]
    exact .inr ⟨rfl, d, p, m, hredundant, hmerges, hown'.trans (by rw [hown]), _, hreplaced, hkeeps⟩

theorem collapsePhi_ok {removed : Bool} (h : collapsePhi phi s = .ok removed s')
    (hlisted : s.value.flow.tree.isLive phi = true → ∃ b, s.value.own.phi? b = some phi) :
    Prepared (Admits o) base v scope reals s'.value.own s'.value.flow ∧
      Keeps base v reals s.value s'.value := by
  cases hlive : s.value.flow.tree.isLive phi with
  | false =>
    obtain ⟨-, rfl⟩ := EStateM.Result.ok.inj (h.symm.trans (collapsePhi_of_dead hlive))
    exact ⟨hs, .refl _⟩
  | true =>
    obtain ⟨b, hphi⟩ := hlisted hlive
    rcases collapsePhi_cases hs hlies closed hentry coherent hscope h hphi with
      ⟨-, hredundant⟩ | ⟨-, d, p, m, hredundant, -, hown', t, hreplaced, hkeeps'⟩
    · obtain ⟨hm, hkeeps, -⟩ := redundantDefinition_ok hs hlies closed hentry hredundant hphi
      exact ⟨hm, hkeeps⟩
    · obtain ⟨-, hkeeps, hown, -⟩ := redundantDefinition_ok hs hlies closed hentry hredundant hphi
      rw [hown', ← hown]
      exact ⟨hreplaced.after, hkeeps.trans hkeeps'⟩

theorem collapseOnce_ok {count : Nat} (h : collapseOnce s = .ok count s') :
    Prepared (Admits o) base v scope reals s'.value.own s'.value.flow ∧
      Keeps base v reals s.value s'.value := by
  simp only [collapseOnce, Edit.bind_ok, Edit.get_ok, Edit.pure_ok] at h
  obtain ⟨_, _, ⟨rfl, rfl⟩, removed, m, hloop, -, rfl⟩ := h
  refine Edit.filterM_ok hloop (fun _ _ m =>
    Prepared (Admits o) base v scope reals m.value.own m.value.flow ∧
    Keeps base v reals s.value m.value)
    ⟨hs, .refl _⟩ ?_
  rintro before phi after - kept m m' hsplit ⟨hm, hkeeps⟩ hstep
  obtain ⟨hm', hkeeps'⟩ := collapsePhi_ok hm hlies closed hentry coherent hscope hstep
    fun hlive => by
    obtain ⟨b, hb⟩ := (hs.mem_phis (FlowGraph.nodup_preorder closed hentry)).1
      (hsplit ▸ List.mem_append_right _ List.mem_cons_self : phi ∈ s.value.own.phis)
    exact ⟨b, hkeeps.listed b phi hb hlive⟩
  exact ⟨hm', hkeeps.trans hkeeps'⟩

end

end RosterEdit

namespace FormEdit

open Roster

variable {o : SsaOptions} {input : FlowGraph} {sound : Var → Prop} {v : Var}
  {s s' : Recorded (Bench SsaForm)}

/-- All rosters of a form are in order, and the variables in `sound` are dominated. -/
structure Tidy (o : SsaOptions) (input : FlowGraph) (sound : Var → Prop) (s : Bench SsaForm) :
    Prop where
  shape : input.SameShape s.flow
  kept : input.tree.Retouched (input.Renames o) s.flow.tree
  nodup : s.own.vars.Nodup
  prepared : ∀ r ∈ s.own.rosters,
    Prepared (Admits o) input r.var (input.Renames o) (input.realsIn r.var) r s.flow
  lists : ∀ b, s.flow.statements b = s.own.rosters.filterMap (·.phi? b) ++ input.statements b
  order : ∀ r ∈ s.own.rosters, r.reals = input.preorder.flatMap (input.realsIn r.var)
  dominated : ∀ r ∈ s.own.rosters, sound r.var → Dominated input (input.realsIn r.var) r s.flow

theorem Tidy.mono {sound' : Var → Prop} {s : Bench SsaForm} (hs : Tidy o input sound s)
    (hsound : ∀ v, sound' v → sound v) : Tidy o input sound' s :=
  { hs with dominated := fun r hr h => hs.dominated r hr (hsound r.var h) }

theorem onRoster_ok {α : Type} {absent a : α} {x : RosterEdit α}
    (h : onRoster v absent x s = .ok a s') :
    (s.value.own.roster? v = none ∧ a = absent ∧ s' = s) ∨
      ∃ r m, s.value.own.roster? v = some r ∧ x ⟨⟨s.value.flow, r⟩, s.events⟩ = .ok a m ∧
        s'.value.flow = m.value.flow ∧ s'.value.own = s.value.own.update m.value.own := by
  unfold onRoster Bench.onPart at h
  cases hr : s.value.own.roster? v with
  | none =>
    simp only [hr, EStateM.Result.ok.injEq] at h
    exact .inl ⟨rfl, h.1.symm, h.2.symm⟩
  | some r =>
    simp only [hr] at h
    obtain ⟨m, hm, rfl⟩ := Edit.within_ok.1 h
    exact .inr ⟨r, m, rfl, hm, rfl, rfl⟩

theorem vars_update {form : SsaForm} {r : Roster} : (form.update r).vars = form.vars := by
  simp only [SsaForm.vars, SsaForm.update, List.map_map]
  refine List.map_congr_left fun old _ => ?_
  by_cases hold : old.var = r.var <;> simp [hold]

/-- The rosters of a form after one was exchanged. -/
theorem mem_update {form : SsaForm} {r r' : Roster} (h : r' ∈ (form.update r).rosters) :
    r' = r ∨ r' ∈ form.rosters ∧ r'.var ≠ r.var := by
  obtain ⟨old, hold, rfl⟩ := List.mem_map.1 h
  by_cases hvar : old.var = r.var
  · exact .inl (if_pos hvar)
  · exact .inr (by simpa [hvar] using hold)

theorem Tidy.phi?_ne {s : Bench SsaForm} (hs : Tidy o input sound s) {r r' : Roster} {b : BlockId}
    {n : NodeId} (hr : r ∈ s.own.rosters) (hr' : r' ∈ s.own.rosters) (hne : r'.var ≠ r.var)
    (hn : r.phi? b = some n) : r'.phi? b ≠ some n := by
  intro hn'
  obtain ⟨p, hp⟩ := (hs.prepared r hr).phi b n hn
  obtain ⟨p', hp'⟩ := (hs.prepared r' hr').phi b n hn'
  obtain rfl : p = p' := by simpa [hp.holds.slot] using hp'.holds.slot
  obtain ⟨o₁, hs₁, hv₁, -⟩ := hp.holds.target
  obtain ⟨o₂, hs₂, hv₂, -⟩ := hp'.holds.target
  obtain rfl : o₁ = o₂ := by simpa [hs₁] using hs₂
  exact hne (hv₂.symm.trans hv₁)

theorem Tidy.lists_update {s : Bench SsaForm} (hs : Tidy o input sound s)
    (coherent : input.Coherent)
    {r r' : Roster} {f : FlowGraph} (hr : r ∈ s.own.rosters) (hvar : r'.var = r.var)
    (hsheds : Sheds ⟨s.flow, r⟩ ⟨f, r'⟩) (b : BlockId) :
    f.statements b = (s.own.update r').rosters.filterMap (·.phi? b) ++ input.statements b := by
  rw [hsheds.lists b, hs.lists, List.filter_append, SsaForm.update, List.filterMap_map,
    List.filter_filterMap]
  congr 1
  · refine List.filterMap_congr fun old hold => ?_
    by_cases hsame : old.var = r.var
    · obtain rfl : old = r := List.inj_on_of_nodup_map hs.nodup hold hr hsame
      have hback := hsheds.phis b
      simp only [Function.comp_apply, hvar, if_true]
      cases hn' : r'.phi? b with
      | some n => simp [hback n hn']
      | none => cases old.phi? b <;> simp
    · simp only [Function.comp_apply, hvar, if_neg hsame]
      cases hn : old.phi? b with
      | none => rfl
      | some n => simp [hs.phi?_ne hold hr (Ne.symm hsame) hn]
  · rw [List.filter_eq_self]
    intro n hn
    refine decide_eq_true fun hphi => ?_
    obtain ⟨p, hp⟩ := (hs.prepared r hr).phi b n hphi
    exact absurd (coherent.inside b n hn)
      (Nat.not_lt.2 (hp.fresh n (by simp [Tree.HoldsPhi.nodes])))

theorem Tidy.keeps {count : Nat} {r : Roster} {m : Recorded (Bench Roster)}
    (hs : Tidy o input sound s.value) (coherent : input.Coherent) (hr : r ∈ s.value.own.rosters)
    (h : RosterEdit.collapseOnce ⟨⟨s.value.flow, r⟩, s.events⟩ = .ok count m) :
    Prepared (Admits o) input r.var (input.Renames o)
      (input.realsIn r.var) m.value.own m.value.flow ∧
      RosterEdit.Keeps input r.var (input.realsIn r.var) ⟨s.value.flow, r⟩ m.value :=
  RosterEdit.collapseOnce_ok (hs.prepared r hr)
    (FlowGraph.lies_realsIn coherent rfl) coherent.closed
    coherent.entry coherent.tree (FlowGraph.exists_mem_of_renames coherent) h

theorem Tidy.update {s : Bench SsaForm} {r : Roster} {m : Bench Roster} (hs : Tidy o input sound s)
    (coherent : input.Coherent) (hr : r ∈ s.own.rosters)
    (hm : Prepared (Admits o) input r.var (input.Renames o) (input.realsIn r.var) m.own m.flow)
    (hshape : s.flow.SameShape m.flow) (hsheds : Sheds ⟨s.flow, r⟩ m)
    (hreals : m.own.reals = r.reals) (htouches : Tree.Touches r.var s.flow.tree m.flow.tree)
    (hdominated : sound r.var → Dominated input (input.realsIn r.var) m.own m.flow) :
    Tidy o input sound ⟨m.flow, s.own.update m.own⟩ where
  shape := hm.shape
  kept := hm.kept
  nodup := by
    rw [vars_update]
    exact hs.nodup
  prepared := by
    intro r' hr'
    rcases mem_update hr' with rfl | ⟨hold, hne⟩
    · rwa [hm.var]
    · rw [hm.var] at hne
      exact (hs.prepared r' hold).touch htouches hne hshape hm.kept
  lists := hs.lists_update coherent hr hm.var hsheds
  order := by
    intro r' hr'
    rcases mem_update hr' with rfl | ⟨hold, -⟩
    · rw [hreals, hs.order r hr, hm.var]
    · exact hs.order r' hold
  dominated := by
    intro r' hr' hsound
    rcases mem_update hr' with rfl | ⟨hold, hne⟩
    · rw [hm.var] at hsound ⊢
      exact hdominated hsound
    · rw [hm.var] at hne
      exact (hs.dominated r' hold hsound).touch (hs.prepared r' hold) htouches hne
        (FlowGraph.lies_realsIn coherent rfl) hshape hm.kept coherent.closed coherent.entry

/-- What becomes of a form whose phis are removed where they merge a single definition. -/
structure Thins (input : FlowGraph) (s s' : Bench SsaForm) : Prop where
  vars : s'.own.vars = s.own.vars
  phis : ∀ r ∈ s.own.rosters, ∀ r' ∈ s'.own.rosters, r'.var = r.var →
    ∀ b n, r'.phi? b = some n → r.phi? b = some n
  listed : ∀ r ∈ s.own.rosters, ∀ r' ∈ s'.own.rosters, r'.var = r.var →
    ∀ b n, r.phi? b = some n → s'.flow.tree.isLive n = true → r'.phi? b = some n
  live : ∀ n, s'.flow.tree.isLive n = true → s.flow.tree.isLive n = true
  kindred : Tree.Kindred input.tree s.flow.tree → Tree.Kindred input.tree s'.flow.tree
  origins : ∀ r ∈ s.own.rosters, ∀ r' ∈ s'.own.rosters, r'.var = r.var →
    ∀ n, input.tree.Occurs r.var false n → r'.origins s'.flow n = r.origins s.flow n
  wired : ∀ lost : Var → NodeId → Prop, (∀ r ∈ s.own.rosters, r.WiredBut (lost r.var) s.flow) →
    ∀ r ∈ s'.own.rosters, r.WiredBut (lost r.var) s'.flow
  anchored : ∀ stale, (∀ r ∈ s.own.rosters, r.Wired s.flow) →
    (∀ r ∈ s.own.rosters, r.Anchored stale s.flow) → ∀ r ∈ s'.own.rosters, r.Anchored stale s'.flow

theorem Tidy.thins_refl {s : Bench SsaForm} (hs : Tidy o input sound s) : Thins input s s where
  vars := rfl
  phis r hr r' hr' hvar b n hn := by rwa [← List.inj_on_of_nodup_map hs.nodup hr' hr hvar]
  listed r hr r' hr' hvar b n hn _ := by rwa [List.inj_on_of_nodup_map hs.nodup hr' hr hvar]
  live _ := id
  kindred := id
  origins r hr r' hr' hvar n _ := by rw [List.inj_on_of_nodup_map hs.nodup hr' hr hvar]
  wired _ := id
  anchored _ _ := id

theorem exists_roster_of_vars {s s' : Bench SsaForm} (h : s'.own.vars = s.own.vars) {r : Roster}
    (hr : r ∈ s.own.rosters) : ∃ r' ∈ s'.own.rosters, r'.var = r.var :=
  List.mem_map.1 (h ▸ List.mem_map_of_mem hr : r.var ∈ s'.own.vars)

/-- All operands are still linked to definitions. -/
theorem Thins.all_wired {s s' : Bench SsaForm} (h : Thins input s s')
    (hw : ∀ r ∈ s.own.rosters, r.Wired s.flow) :
    ∀ r ∈ s'.own.rosters, r.Wired s'.flow := fun r hr =>
  wiredBut_iff_wired.1
    (h.wired (fun _ _ => False) (fun r hr => wiredBut_iff_wired.2 (hw r hr)) r hr)

theorem Thins.trans {s s' s'' : Bench SsaForm} (h : Thins input s s') (h' : Thins input s' s'') :
    Thins input s s'' where
  vars := h'.vars.trans h.vars
  phis r hr r'' hr'' hvar b n hn := by
    obtain ⟨r', hr', hsame⟩ := exists_roster_of_vars h.vars hr
    exact h.phis r hr r' hr' hsame b n (h'.phis r' hr' r'' hr'' (hvar.trans hsame.symm) b n hn)
  listed r hr r'' hr'' hvar b n hn hlive := by
    obtain ⟨r', hr', hsame⟩ := exists_roster_of_vars h.vars hr
    exact h'.listed r' hr' r'' hr'' (hvar.trans hsame.symm) b n
      (h.listed r hr r' hr' hsame b n hn (h'.live n hlive)) hlive
  live n hn := h.live n (h'.live n hn)
  kindred hk := h'.kindred (h.kindred hk)
  origins r hr r'' hr'' hvar n hn := by
    obtain ⟨r', hr', hsame⟩ := exists_roster_of_vars h.vars hr
    rw [h'.origins r' hr' r'' hr'' (hvar.trans hsame.symm) n (hsame ▸ hn),
      h.origins r hr r' hr' hsame n hn]
  wired lost hw := h'.wired lost (h.wired lost hw)
  anchored stale hw ha := h'.anchored stale (h.all_wired hw) (h.anchored stale hw ha)

theorem Tidy.advance {s : Bench SsaForm} {r : Roster} {m : Bench Roster} (hs : Tidy o input sound s)
    (coherent : input.Coherent) (hr : r ∈ s.own.rosters)
    (hm : Prepared (Admits o) input r.var (input.Renames o) (input.realsIn r.var) m.own m.flow)
    (hkeeps : RosterEdit.Keeps input r.var (input.realsIn r.var) ⟨s.flow, r⟩ m) :
    Tidy o input sound ⟨m.flow, s.own.update m.own⟩ ∧
    Thins input s ⟨m.flow, s.own.update m.own⟩ := by
  -- The roster is the one of its variable, and the others are left alone.
  have hsame {old : Roster} (hold : old ∈ s.own.rosters) (hvar : m.own.var = old.var) : old = r :=
    List.inj_on_of_nodup_map hs.nodup hold hr (hvar.symm.trans hm.var)
  have hother {r' : Roster} (hne : r'.var ≠ m.own.var) : r'.var ≠ r.var := hm.var ▸ hne
  refine ⟨hs.update coherent hr hm hkeeps.shape hkeeps.sheds hkeeps.sameReals hkeeps.touches
    fun hsound => hkeeps.dominated (hs.dominated r hr hsound), vars_update, ?_, ?_,
    hkeeps.touches.live, hkeeps.kindred, ?_, ?_, ?_⟩
  · intro old hold r' hr' hvar b n hn
    rcases mem_update hr' with rfl | ⟨hr', -⟩
    · obtain rfl := hsame hold hvar
      exact hkeeps.sheds.phis b n hn
    · rwa [← List.inj_on_of_nodup_map hs.nodup hr' hold hvar]
  · intro old hold r' hr' hvar b n hn hlive
    rcases mem_update hr' with rfl | ⟨hr', -⟩
    · obtain rfl := hsame hold hvar
      exact hkeeps.listed b n hn hlive
    · rwa [List.inj_on_of_nodup_map hs.nodup hr' hold hvar]
  · intro old hold r' hr' hvar n hn
    rcases mem_update hr' with rfl | ⟨hr', hne⟩
    · obtain rfl := hsame hold hvar
      exact hkeeps.origins n hn
    · obtain rfl : r' = old := List.inj_on_of_nodup_map hs.nodup hr' hold hvar
      exact origins_touch (hs.prepared r' hr') hkeeps.touches (hother hne) (hs.kept.varOf hn.varOf)
  · intro lost hw r' hr'
    rcases mem_update hr' with rfl | ⟨hold, hne⟩
    · rw [hm.var]
      exact hkeeps.wired _ (hw r hr)
    · exact (hw r' hold).touch (hs.prepared r' hold) hkeeps.touches (hother hne)
  · intro stale hw ha r' hr'
    rcases mem_update hr' with rfl | ⟨hold, hne⟩
    · exact hkeeps.anchored stale (hw r hr) (ha r hr)
    · exact (ha r' hold).touch (hs.prepared r' hold) hkeeps.touches (hother hne)
        (FlowGraph.lies_realsIn coherent rfl)

theorem Tidy.collapseOnce {count : Nat} (hs : Tidy o input sound s.value)
    (coherent : input.Coherent) (h : onRoster v 0 RosterEdit.collapseOnce s = .ok count s') :
    Tidy o input sound s'.value ∧ Thins input s.value s'.value := by
  rcases onRoster_ok h with ⟨-, -, rfl⟩ | ⟨r, m, hr, hrun, hflow, hown⟩
  · exact ⟨hs, hs.thins_refl⟩
  have hmem : r ∈ s.value.own.rosters := List.mem_of_find?_eq_some hr
  obtain ⟨hm, hkeeps⟩ := hs.keeps coherent hmem hrun
  have hvalue : s'.value = ⟨m.value.flow, s.value.own.update m.value.own⟩ := by rw [← hflow, ← hown]
  rw [hvalue]
  exact hs.advance coherent hmem hm hkeeps

theorem Tidy.collapseRound {count : Nat} (hs : Tidy o input sound s.value)
    (coherent : input.Coherent) (h : FormEdit.collapseRound s = .ok count s') :
    Tidy o input sound s'.value ∧ Thins input s.value s'.value := by
  simp only [FormEdit.collapseRound, Edit.bind_ok, Edit.get_ok, Edit.pure_ok] at h
  obtain ⟨_, _, ⟨rfl, rfl⟩, counts, m, hloop, -, rfl⟩ := h
  refine Edit.mapM_ok hloop (fun _ _ m => Tidy o input sound m.value ∧ Thins input s.value m.value)
    ⟨hs, hs.thins_refl⟩ ?_
  rintro - v - - count m m' - ⟨hm, hthins⟩ hstep
  obtain ⟨hm', hthins'⟩ := hm.collapseOnce coherent hstep
  exact ⟨hm', hthins.trans hthins'⟩

theorem Tidy.collapseTo {limit count : Nat} (hs : Tidy o input sound s.value)
    (coherent : input.Coherent) (h : FormEdit.collapseTo limit s = .ok count s') :
    Tidy o input sound s'.value ∧ Thins input s.value s'.value := by
  induction limit generalizing s count with
  | zero =>
    obtain ⟨-, rfl⟩ := Edit.pure_ok.1 h
    exact ⟨hs, hs.thins_refl⟩
  | succ limit ih =>
    simp only [FormEdit.collapseTo, Edit.bind_ok] at h
    obtain ⟨removed, m, hround, h⟩ := h
    obtain ⟨hm, hthins⟩ := hs.collapseRound coherent hround
    by_cases hzero : removed = 0
    · rw [if_pos hzero] at h
      obtain ⟨-, rfl⟩ := Edit.pure_ok.1 h
      exact ⟨hm, hthins⟩
    · simp only [if_neg hzero, Edit.bind_ok, Edit.pure_ok] at h
      obtain ⟨rest, m', hrest, -, rfl⟩ := h
      obtain ⟨hm', hthins'⟩ := ih hm hrest
      exact ⟨hm', hthins.trans hthins'⟩

theorem Tidy.collapse {count : Nat} (hs : Tidy o input sound s.value) (coherent : input.Coherent)
    (h : FormEdit.collapse s = .ok count s') :
    Tidy o input sound s'.value ∧ Thins input s.value s'.value := by
  simp only [FormEdit.collapse, Edit.bind_ok, Edit.get_ok] at h
  obtain ⟨_, _, ⟨rfl, rfl⟩, h⟩ := h
  exact hs.collapseTo coherent h

end FormEdit

end MethodFlow
