import MethodFlow.Proofs.Ssa.Placement
import MethodFlow.Proofs.Success.Tree

/-!
Entering occurrences and placing phis succeeds in every graph whose frame can be relied on: each
block that comes up has a record, every phi that has to make room is where its roster says, and what
is placed is new.
-/

namespace MethodFlow

open Edit

namespace Bench

variable {τ α : Type} {s : Recorded (Bench τ)}

theorem succeeds_liftFlow {x : Edit FlowGraph α} (h : Succeeds x s.value.flow) :
    Succeeds (liftM x : Edit (Recorded (Bench τ)) α) s := by
  have hflow : Succeeds (liftM x : Edit (Bench τ) α) s.value := Succeeds.within h
  exact Succeeds.within hflow

theorem succeeds_liftTree {x : Edit Tree α} (h : Succeeds x s.value.flow.tree) :
    Succeeds (liftM x : Edit (Recorded (Bench τ)) α) s :=
  succeeds_liftFlow (x := (liftM x : Edit FlowGraph α)) (Succeeds.within h)

theorem succeeds_modifyOwn (f : τ → τ) : Succeeds (modifyOwn f) s := succeeds_of_ok rfl

end Bench

namespace FlowGraph

variable {f : FlowGraph} {b : BlockId} {n : NodeId}

theorem prependStatement_succeeds {node : Node} (hb : f.contains b = true)
    (hs : f.tree.slot? n = some ⟨node, none, none⟩) (hnode : node.isStatement = true) :
    Succeeds (prependStatement b n) f := by
  have hplaceable : f.checkPlaceable n = .ok ⟨⟩ := by
    have hkind : f.tree.isStatement n = true := by simp [Tree.isStatement, Tree.node?, hs, hnode]
    simp [checkPlaceable, hkind, Tree.blockOf_root hs rfl, bind, Except.bind, pure, Except.pure]
  refine .of_get
    (.of_ask (a := ()) (checkBlock_ok.2 hb) (.of_ask hplaceable (.of_get (.of_guard ?_ ?_))))
  · exact decide_eq_true (Roster.Listing.leadingPhis_le f b)
  · exact succeeds_of_ok (move_ok hs b _)

theorem cleanupNode_succeeds {v : Var} {p : Phi} (hb : f.contains b = true)
    (hphi : f.tree.HoldsPhi v n p (some b)) : Succeeds (cleanupNode n) f := by
  have hkind : f.tree.isStatement n = true := by
    simp [Tree.isStatement, Tree.node?, hphi.slot, Node.isStatement]
  have hblock : f.tree.blockOf n = .ok (some b) := Tree.blockOf_root hphi.slot rfl
  have hremove : Succeeds (removeStatement n) f := by
    refine .of_ask hblock (.of_ask (a := ()) (checkBlock_ok.2 hb) ?_)
    rw [← bind_assoc]
    exact .of_first (move_ok hphi.slot b _) (.pure trivial)
  refine .of_get ?_
  rw [if_pos hkind]
  refine .of_ask hblock (hremove.bind fun b' m hm _ => ?_)
  obtain ⟨-, -, s, hs, rfl⟩ := removeStatement_ok hm
  have hslot : (f.tree.put n { s with block := none }).slot n = .ok { s with block := none } :=
    Tree.slot_ok.2 (by rw [Tree.slot?_put_of_slot hs, if_pos rfl])
  have hclean : Succeeds (Tree.cleanup n) (f.tree.put n { s with block := none }) :=
    .of_ask hslot (succeeds_of_ok (a := ()) rfl)
  exact Succeeds.within hclean

end FlowGraph

namespace Roster

variable {rule : Rule} {base f : FlowGraph} {v : Var} {scope : NodeId → Var → Prop}
  {reals : BlockId → List NodeId} {r : Roster} {b : BlockId}

theorem start_succeeds {first : NodeId} (hvar : f.tree.varOf first = .ok v) :
    Succeeds (start first) f := by
  obtain ⟨o', ho', -⟩ := Tree.varOf_ok.1 hvar
  have huse : Succeeds (liftM (Tree.useLike first) : Edit FlowGraph NodeId) f :=
    Succeeds.within (Tree.useLike_succeeds ⟨o', ho', rfl, rfl⟩)
  exact .of_ask hvar (huse.bind fun _ _ _ h => .of_get (.pure h))

namespace Prepared

variable (h : Prepared rule base v scope reals r f) (framed : base.Framed)
  (hb : base.contains b = true)

include h framed hb

theorem recordAt : ∃ record, r.recordAt f b = .ok record ∧ record.phi = r.phi? b := by
  obtain ⟨record, hrecord⟩ :=
    h.exists_record ((FlowGraph.mem_preorder framed.closed framed.entry).2 hb)
  refine ⟨record, recordAt_ok.2 ⟨?_, ?_, hrecord⟩, by rw [phi?, hrecord, Option.bind_some]⟩
  · rw [h.shape.stamp, h.stamp]
  · rwa [h.shape.contains]

theorem phiAt : r.phiAt f b = .ok (r.phi? b) := by
  obtain ⟨record, hrecord, hphi⟩ := h.recordAt framed hb
  refine Roster.phiAt_ok.2 ⟨record, hrecord, ?_⟩
  rw [hphi]
  cases hn : r.phi? b with
  | none => rfl
  | some n => simp [h.phi_live hn]

end Prepared

theorem Prepared.withReal (h : Prepared rule base v scope reals r f) (framed : base.Framed)
    (hb : b ∈ base.preorder) {n : NodeId} (hvar : base.tree.varOf n = .ok v)
    (hblock : base.tree.blockOf n = .ok (some b)) : ∃ r', r.withReal f n = .ok r' := by
  have hvar' := h.kept.varOf hvar
  obtain ⟨o', ho', -⟩ := Tree.varOf_ok.1 hvar'
  have hdefinition : f.tree.isDefinition n = .ok o'.defines := Tree.isDefinition_ok.2 ⟨o', ho', rfl⟩
  have hhome : r.blockOfReal f n = .ok b := by
    simp [blockOfReal, hvar', h.var, h.kept.keepsPlaces.blockOf hblock, bind, Except.bind, pure,
      Except.pure]
  obtain ⟨record, hrecord, -⟩ :=
    h.recordAt framed ((FlowGraph.mem_preorder framed.closed framed.entry).1 hb)
  simp only [Roster.withReal, hhome, hrecord, hdefinition, bind, Except.bind]
  split
  · exact ⟨_, rfl⟩
  · split <;> exact ⟨_, rfl⟩

end Roster

namespace RosterEdit

open Roster

variable {rule : Rule} {o : SsaOptions} {base : FlowGraph} {v : Var} {scope : NodeId → Var → Prop}
  {reals : BlockId → List NodeId} {b : BlockId} {s s' : Recorded (Bench Roster)}

section placing

variable (framed : base.Framed) (hb : base.contains b = true)

include framed hb

theorem removePhi_succeeds (hs : Prepared rule base v scope reals s.value.own s.value.flow) :
    Succeeds (removePhi b) s := by
  obtain ⟨record, hrecord, hphi⟩ := hs.recordAt framed hb
  refine .of_ask hrecord ?_
  rw [hphi]
  cases hn : s.value.own.phi? b with
  | none => exact .pure trivial
  | some n =>
    obtain ⟨p, hp⟩ := hs.phi b n hn
    refine (Bench.succeeds_modifyOwn _).bind fun _ m hm _ => .of_get ?_
    obtain ⟨hflow, -⟩ := Bench.modifyOwn_ok hm
    rw [hflow]
    simp only [hs.phi_live hn, Bool.not_true, Bool.false_eq_true, if_false]
    refine (Succeeds.report _ _).bind fun _ m' hm' _ => .bind ?_ fun _ _ _ h => .pure h
    refine Bench.succeeds_liftFlow (FlowGraph.cleanupNode_succeeds (v := v) (p := p) (b := b) ?_ ?_)
    · rwa [Bench.report_ok hm', hflow, hs.shape.contains]
    · rw [Bench.report_ok hm', hflow]
      exact hp.holds

theorem makeRoom_succeeds (kind : PhiKind)
    (hs : Prepared rule base v scope reals s.value.own s.value.flow) :
    Succeeds (makeRoom kind b) s := by
  refine .of_ask (hs.phiAt framed hb) ?_
  cases hn : s.value.own.phi? b with
  | none => exact .pure trivial
  | some existing =>
    obtain ⟨p, hp⟩ := hs.phi b existing hn
    refine .of_get ?_
    simp only [hp.holds.phiKind?]
    split
    · exact .pure trivial
    · refine (Succeeds.report _ _).bind fun _ m hm _ => .bind ?_ fun _ _ _ h => .pure h
      rw [← Bench.report_ok hm] at hs
      exact removePhi_succeeds framed hb hs

theorem place_succeeds {kind : PhiKind} {make : NodeId → Edit Tree NodeId}
    (hs : Prepared rule base v scope reals s.value.own s.value.flow)
    (hl : Listing base s.value.own s.value.flow) (hmake : Makes rule base v kind b make)
    (hmakes : ∀ t target, t.Loose v target → Succeeds (make target) t) :
    Succeeds (place kind b make) s := by
  refine (makeRoom_succeeds framed hb kind hs).bind fun room m hroom _ => ?_
  obtain ⟨hm, -⟩ := makeRoom_ok hroom hs hl
  cases room with
  | false => exact .pure trivial
  | true =>
    obtain ⟨-, hloose⟩ := hm.prototype
    refine .of_get ((Bench.succeeds_liftTree (Tree.useLike_succeeds hloose.occurs)).bind
      fun target m₁ htarget _ => ?_)
    have hfree : m₁.value.flow.tree.Loose v target :=
      (Tree.useLike_loose (Bench.liftTree_ok htarget).1 hloose.occurs.varOf).2.1
    refine (Bench.succeeds_liftTree (hmakes _ target hfree)).bind fun n m₂ hphi _ => ?_
    obtain ⟨hown₂, p, -, -, hgains⟩ := gains_of_make hm htarget hphi hmake
    have hshape₂ := hm.shape.trans hgains.shape
    have hb₂ : m₂.value.flow.contains b = true := by rwa [hshape₂.contains]
    refine (Bench.succeeds_liftFlow
      (FlowGraph.prependStatement_succeeds hb₂ hgains.holds.slot rfl)).bind fun _ m₃ hplace _ => ?_
    obtain ⟨hplace, hown₃⟩ := Bench.liftFlow_ok hplace
    obtain ⟨-, slot, -, hmove⟩ := FlowGraph.prependStatement_ok hplace
    have hshape₃ : base.SameShape m₃.value.flow := by
      rw [hmove]
      exact hshape₂.trans (FlowGraph.sameShape_withMove _ _ _ _ _)
    obtain ⟨record, hrecord, -⟩ := hm.recordAt framed hb
    have hrecord₃ : m₃.value.own.recordAt m₃.value.flow b = .ok record := by
      obtain ⟨-, -, hr⟩ := recordAt_ok.1 hrecord
      rw [hown₃, hown₂]
      exact recordAt_ok.2 ⟨hshape₃.stamp.trans hm.stamp.symm, by rwa [hshape₃.contains], hr⟩
    exact .of_ask hrecord₃ ((Bench.succeeds_modifyOwn _).bind fun _ _ _ _ =>
      (Succeeds.report _ _).bind fun _ _ _ h => .pure h)

theorem place_yields {kind : PhiKind} {make : NodeId → Edit Tree NodeId}
    (hs : Ready rule base v scope reals s.value) (hmake : Makes rule base v kind b make)
    (hmakes : ∀ t target, t.Loose v target → Succeeds (make target) t) :
    Yields (place kind b make) s fun _ s' => Ready rule base v scope reals s'.value :=
  (place_succeeds framed hb hs.prepared hs.listing hmake hmakes).of_ok fun _ _ hplace _ =>
    (place_ready hs hplace hmake).1

theorem addJoinPhi_yields (hs : Ready (Admits o) base v scope reals s.value) :
    Yields (addJoinPhi b) s fun _ s' => Ready (Admits o) base v scope reals s'.value :=
  .of_get (place_yields framed hb hs (makes_join hs.prepared.shape fun _ => id) fun _ _ h =>
    Tree.newJoinPhi_succeeds h b _)

end placing

section reaching

variable {nodes : List NodeId} (hlies : Lies base v reals nodes)

include hlies

theorem exists_blockOf (hs : Prepared (Admits o) base v scope reals s.value.own s.value.flow)
    {n : NodeId} (hn : n ∈ nodes) : ∃ b, s.value.flow.tree.blockOf n = .ok (some b) := by
  obtain ⟨b, -, hnb⟩ := hlies.exists_block hn
  exact ⟨b, hs.kept.keepsPlaces.blockOf (hlies.block b n hnb)⟩

theorem exists_occursIn (hs : Prepared (Admits o) base v scope reals s.value.own s.value.flow)
    (blocks : List BlockId) {ns : List NodeId} (hns : ∀ n ∈ ns, n ∈ nodes) :
    ∃ found, occursIn s.value.flow blocks ns = .ok found := by
  induction ns with
  | nil => exact ⟨false, rfl⟩
  | cons n rest ih =>
    obtain ⟨b, hb⟩ := exists_blockOf hlies hs (hns n (by simp))
    obtain ⟨found, hfound⟩ := ih fun m hm => hns m (by simp [hm])
    simp only [occursIn, hb, bind, Except.bind]
    split
    · exact ⟨true, rfl⟩
    · exact ⟨found, hfound⟩

theorem exists_unreachableReals
    (hs : Prepared (Admits o) base v scope reals s.value.own s.value.flow)
    (t : DominatorTree) {ns : List NodeId} (hns : ∀ n ∈ ns, n ∈ nodes) :
    ∃ count, unreachableReals t s.value.flow ns = .ok count := by
  induction ns with
  | nil => exact ⟨0, rfl⟩
  | cons n rest ih =>
    obtain ⟨b, hb⟩ := exists_blockOf hlies hs (hns n (by simp))
    obtain ⟨count, hcount⟩ := ih fun m hm => hns m (by simp [hm])
    exact ⟨_, by simp only [unreachableReals, hb, hcount, bind, Except.bind]; rfl⟩

theorem reachesReal_succeeds (hs : Prepared (Admits o) base v scope reals s.value.own s.value.flow)
    (b : BlockId) : Succeeds (reachesReal b) s := by
  have hreals : ∀ n ∈ s.value.own.reals, n ∈ nodes := by
    intro n hn
    obtain ⟨c, hc, hnc⟩ := (hs.all n).1 hn
    rw [hlies.nodes]
    exact List.mem_flatMap.2 ⟨c, hc, hnc⟩
  obtain ⟨found, hfound⟩ := exists_occursIn hlies hs (s.value.flow.graph.preorder b) hreals
  exact succeeds_of_ok (askRoster_ok.2 ⟨hfound, rfl⟩)

variable (framed : base.Framed)

include framed

theorem anyReachesReal_succeeds (hs : Ready (Admits o) base v scope reals s.value)
    {blocks : List BlockId}
    (hblocks : ∀ b ∈ blocks, base.contains b = true) : Succeeds (anyReachesReal blocks) s := by
  induction blocks with
  | nil => exact .pure trivial
  | cons b rest ih =>
    refine (reachesReal_succeeds hlies hs.prepared b).bind fun found m hm _ => ?_
    obtain ⟨rfl, -⟩ := reachesReal_ok hm hs hlies framed (hblocks b (by simp))
    cases found with
    | true => exact .pure trivial
    | false => exact ih fun c hc => hblocks c (by simp [hc])

omit hlies in
theorem addReturnPhis_yields (hs : Ready (Admits o) base v scope reals s.value)
    (hoption : o.returnPhis = true)
    {sub : Subroutine} (hsub : sub ∈ base.subroutines) (hexit : sub.exit.isSome) :
    Yields (addReturnPhis sub.id) s fun _ s' => Ready (Admits o) base v scope reals s'.value := by
  have hid := framed.subroutine?_id hsub
  have hfound : s.value.flow.subroutine sub.id = .ok sub := by
    rw [FlowGraph.subroutine, hs.prepared.shape.subroutine?, hid]
  refine .of_ask hfound (Yields.filterM (fun _ (m : Recorded (Bench Roster)) =>
    Ready (Admits o) base v scope reals m.value) hs
    fun before b after m hsplit hm => ?_)
  have hb : b ∈ sub.returnBlocks := by simp [hsplit]
  exact place_yields framed (framed.contains_returnBlock hsub hb) hm
    (makes_return fun _ hkeys => ⟨hoption, ⟨sub, hsub, hexit⟩, sub, hid, hb, hkeys⟩) fun _ _ h =>
      Tree.newReturnPhi_succeeds h _ _

theorem placeReturnPhis_yields (hs : Ready (Admits o) base v scope reals s.value)
    (hoption : o.returnPhis = true) :
    Yields placeReturnPhis s fun _ s' => Ready (Admits o) base v scope reals s'.value := by
  refine .of_get ?_
  rw [hs.prepared.shape.subroutines]
  refine Yields.forM (fun _ (m : Recorded (Bench Roster)) =>
    Ready (Admits o) base v scope reals m.value) hs
    fun before sub after m hsplit hm => ?_
  obtain ⟨hsub, hexit⟩ := List.mem_filter.1 (show sub ∈ base.subroutines.filter (·.exit.isSome) by
    simp [hsplit])
  have hblocks : ∀ b ∈ sub.returnBlocks, base.contains b = true := fun b hb =>
    framed.contains_returnBlock hsub hb
  refine (anyReachesReal_succeeds hlies framed hm hblocks).bind fun found m' hfound _ => ?_
  obtain ⟨rfl, -⟩ := anyReachesReal_ok hfound hm hlies framed hblocks
  cases found with
  | false => exact .pure hm
  | true => exact (addReturnPhis_yields framed hm hoption hsub hexit).bind fun _ _ _ h => .pure h

theorem placeCatchPhis_yields (hs : Ready (Admits o) base v scope reals s.value)
    (hoption : o.catchPhis = true) (hlocal : v.isLocal = true) :
    Yields placeCatchPhis s fun _ s' => Ready (Admits o) base v scope reals s'.value := by
  refine .of_get ?_
  rw [hs.prepared.shape.catchBlocks]
  refine Yields.forM (fun _ (m : Recorded (Bench Roster)) =>
    Ready (Admits o) base v scope reals m.value) hs
    fun before b after m hsplit hm => ?_
  have hb : b ∈ base.catchBlocks := by simp [hsplit]
  have hcontains := framed.contains_catchBlock hb
  refine (reachesReal_succeeds hlies hm.prepared b).bind fun found m' hfound _ => ?_
  obtain ⟨rfl, -⟩ := reachesReal_ok hfound hm hlies framed hcontains
  cases found with
  | false => exact .pure hm
  | true =>
    refine .bind (.of_get ?_) fun _ _ _ h => .pure h
    simp only [hm.prepared.var, hlocal, Bool.not_true, Bool.false_eq_true, if_false]
    exact place_yields framed hcontains hm (makes_catch fun _ => ⟨hoption, hlocal, hb⟩) fun _ _ h =>
      Tree.newCatchPhi_succeeds h

end reaching

section joins

variable {frontiers : List (List BlockId)} (framed : base.Framed)

include framed

theorem placeOnFrontier_yields (hs : Ready (Admits o) base v scope reals s.value)
    (pending : Pending) (hb : base.contains b = true) :
    Yields (placeOnFrontier pending b) s fun _ s' =>
      Ready (Admits o) base v scope reals s'.value := by
  refine .of_ask (hs.prepared.phiAt framed hb) ?_
  split
  · exact .pure hs
  · refine (addJoinPhi_yields framed hb hs).bind fun added m _ hm => ?_
    split <;> exact .pure hm

variable (hfrontiers : ∀ b : BlockId, ∀ c ∈ frontiers.getD b.index [], base.contains c = true)

include hfrontiers

theorem placeJoinsTo_yields (hs : Ready (Admits o) base v scope reals s.value) (limit : Nat)
    (pending : Pending) :
    Yields (placeJoinsTo frontiers limit pending) s fun _ s' =>
      Ready (Admits o) base v scope reals s'.value := by
  induction limit generalizing pending s with
  | zero => exact .pure hs
  | succ limit ih =>
    unfold placeJoinsTo
    cases pending.blocks with
    | nil => exact .pure hs
    | cons b rest =>
      refine .bind (Yields.foldlM (fun _ _ (m : Recorded (Bench Roster)) =>
        Ready (Admits o) base v scope reals m.value) hs ?_)
        fun next m _ hm => ih hm next
      intro before c after pending' m hsplit hm
      exact placeOnFrontier_yields framed hm pending' (hfrontiers b c (hsplit ▸ by simp))

theorem placeJoinPhis_yields (hs : Ready (Admits o) base v scope reals s.value) :
    Yields (placeJoinPhis frontiers) s fun _ s' =>
      Ready (Admits o) base v scope reals s'.value := by
  refine .of_get ?_
  exact placeJoinsTo_yields framed hfrontiers hs _ _

end joins

theorem addReals_yields {nodes : List NodeId}
    (hs : Ready (Admits o) base v scope (fun _ => []) s.value)
    (hlies : Lies base v reals nodes) (framed : base.Framed) :
    Yields (nodes.forM addReal) s fun _ s' => Ready (Admits o) base v scope reals s'.value := by
  have hloop : Yields (nodes.forM addReal) s fun _ m => Ready (Admits o) base v scope
      (fun b => nodes.filter fun n => base.tree.home? n = some b) m.value := by
    refine Yields.forM (fun before (m : Recorded (Bench Roster)) => Ready (Admits o) base v scope
      (fun b => before.filter fun n => base.tree.home? n = some b) m.value) (by simpa using hs) ?_
    intro before n after m hsplit hm
    obtain ⟨b, hb, hn⟩ := hlies.exists_block (show n ∈ nodes by simp [hsplit])
    obtain ⟨r, hr⟩ := hm.prepared.withReal framed hb (hlies.var b n hn) (hlies.block b n hn)
    have hadd : Succeeds (addReal n) m := .of_ask hr (Bench.succeeds_modifyOwn _)
    exact hadd.of_ok fun _ _ hrun _ => (addReal_home hrun hm hlies framed hsplit).1
  refine hloop.mono fun _ _ h => h.congr framed fun b hb => ?_
  exact (hlies.filter_home (FlowGraph.nodup_preorder framed.closed framed.entry) hb).symm

/-- A variable can be prepared. -/
theorem prepare_succeeds {t : DominatorTree} {group : Occurrences}
    (hs : Ready (Admits o) base v scope (fun _ => []) s.value)
    (hlies : Lies base v reals group.nodes) (framed : base.Framed) (hvar : group.var = v) :
    Succeeds (prepare o t (base.graph.frontiers base.dominators) group) s := by
  have hfrontiers : ∀ b : BlockId, ∀ c ∈ (base.graph.frontiers base.dominators).getD b.index [],
      base.contains c = true := fun b c hc => (Digraph.mem_frontiers_iff.1 hc).2.1
  have hjoins (m : Recorded (Bench Roster)) (hm : Ready (Admits o) base v scope reals m.value) :
      Succeeds (placeJoinPhis (base.graph.frontiers base.dominators)) m :=
    (placeJoinPhis_yields framed hfrontiers hm).succeeds
  have hcatches (m : Recorded (Bench Roster)) (hm : Ready (Admits o) base v scope reals m.value) :
      Succeeds (do
      if o.catchPhis && group.var.isLocal then placeCatchPhis
      placeJoinPhis (base.graph.frontiers base.dominators)) m := by
    rw [hvar]
    dsimp only
    split
    · next hoption =>
      obtain ⟨hcatch, hlocal⟩ := Bool.and_eq_true_iff.1 hoption
      exact (placeCatchPhis_yields hlies framed hm hcatch hlocal).bind fun _ m' _ hm' =>
        hjoins m' hm'
    · exact hjoins m hm
  have hreturns (m : Recorded (Bench Roster)) (hm : Ready (Admits o) base v scope reals m.value) :
      Succeeds (do
      if o.returnPhis then placeReturnPhis
      if o.catchPhis && group.var.isLocal then placeCatchPhis
      placeJoinPhis (base.graph.frontiers base.dominators)) m := by
    dsimp only
    split
    · next hoption =>
      exact (placeReturnPhis_yields hlies framed hm hoption).bind fun _ m' _ hm' => hcatches m' hm'
    · exact hcatches m hm
  refine (addReals_yields hs hlies framed).bind fun _ m _ hm => ?_
  obtain ⟨count, hcount⟩ := exists_unreachableReals hlies hm.prepared t fun _ => id
  refine .of_ask hcount ?_
  dsimp only
  split
  · refine (Succeeds.report _ _).bind fun _ m' hm' _ => ?_
    rw [← Bench.report_ok hm'] at hm
    exact hreturns m' hm
  · exact hreturns m hm

end RosterEdit

end MethodFlow
