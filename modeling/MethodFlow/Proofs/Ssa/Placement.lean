import MethodFlow.Proofs.Graph.Frontier
import MethodFlow.Proofs.Ssa.Entries

/-!
Where a variable has phis once they are placed: behind subroutines, at handlers, and on the iterated
dominance frontier of the blocks that define the variable, those with a phi among them.
-/

namespace MethodFlow

namespace FlowGraph

variable (f : FlowGraph) (o : SsaOptions) (v : Var) (reals : BlockId → List NodeId)

/-- Control can get from `b` to a block with an occurrence. -/
def ReachesReal (b : BlockId) : Prop := ∃ c, f.graph.Path b c ∧ ∃ n, n ∈ reals c

/-- Calls of a subroutine that is left somewhere come back to `b`, and an occurrence can be reached
from one of the blocks that they come back to. -/
def ReturnPoint (b : BlockId) : Prop :=
  o.returnPhis = true ∧ ∃ sub ∈ f.subroutines, sub.exit.isSome ∧ b ∈ sub.returnBlocks ∧
    ∃ c ∈ sub.returnBlocks, f.ReachesReal reals c

/-- A handler of a local is at `b`, from which an occurrence can be reached, and no return point. -/
def CatchPoint (b : BlockId) : Prop :=
  o.catchPhis = true ∧ v.isLocal = true ∧ b ∈ f.catchBlocks ∧ f.ReachesReal reals b ∧
    ¬f.ReturnPoint o reals b

def DefinesIn (b : BlockId) : Prop := ∃ n ∈ reals b, f.tree.defines n

/-- The blocks that need a phi are the return points and the catch points, and further the frontier
of each block that holds a definition or needs a phi itself. -/
inductive NeedsPhi : BlockId → Prop
  | returning {b : BlockId} : f.ReturnPoint o reals b → NeedsPhi b
  | catching {b : BlockId} : f.CatchPoint o v reals b → NeedsPhi b
  | definition {b c : BlockId} : f.DefinesIn reals b → f.graph.InFrontier entry b c → NeedsPhi c
  | phi {b c : BlockId} : NeedsPhi b → f.graph.InFrontier entry b c → NeedsPhi c

def NeedsPhiOf (b : BlockId) (k : PhiKind) : Prop :=
  f.NeedsPhi o v reals b ∧ (k = .returning ↔ f.ReturnPoint o reals b) ∧
    (k = .catching ↔ f.CatchPoint o v reals b)

variable {f o v reals}

/-- Where phis are needed is a matter of the shape and of the definitions. -/
theorem SameShape.needsPhiOf {f' : FlowGraph} {b : BlockId} {k : PhiKind} (h : f.SameShape f')
    (hdefines : ∀ b, ∀ n ∈ reals b, f'.tree.defines n = f.tree.defines n) :
    f'.NeedsPhiOf o v reals b k ↔ f.NeedsPhiOf o v reals b k := by
  have hsuccs : f'.graph.successors = f.graph.successors := h.succs
  have hreaches : f'.ReachesReal reals = f.ReachesReal reals := by
    funext b
    simp only [ReachesReal, Digraph.path_iff_route, Digraph.Route, hsuccs]
  have hreturn : f'.ReturnPoint o reals = f.ReturnPoint o reals := by
    funext b
    simp only [ReturnPoint, h.subroutines, hreaches]
  have hcatch : f'.CatchPoint o v reals = f.CatchPoint o v reals := by
    funext b
    simp only [CatchPoint, h.catchBlocks, hreaches, hreturn]
  have hdefinesIn : f'.DefinesIn reals = f.DefinesIn reals := by
    funext b
    simp only [DefinesIn, eq_iff_iff]
    exact exists_congr fun n => and_congr_right fun hn => by rw [hdefines b n hn]
  have hfrontier : f'.graph.InFrontier entry = f.graph.InFrontier entry := by
    funext a b
    simp only [Digraph.InFrontier, Digraph.StrictlyDominates, Digraph.Dominates,
      Digraph.path_iff_route, Digraph.Route, hsuccs]
  have hneeds : f'.NeedsPhi o v reals b ↔ f.NeedsPhi o v reals b := by
    constructor
    · intro hb
      induction hb with
      | returning h => exact .returning (hreturn ▸ h)
      | catching h => exact .catching (hcatch ▸ h)
      | definition hd hb => exact .definition (hdefinesIn ▸ hd) (hfrontier ▸ hb)
      | phi _ hb ih => exact .phi ih (hfrontier ▸ hb)
    · intro hb
      induction hb with
      | returning h => exact .returning (hreturn.symm ▸ h)
      | catching h => exact .catching (hcatch.symm ▸ h)
      | definition hd hb => exact .definition (hdefinesIn.symm ▸ hd) (hfrontier.symm ▸ hb)
      | phi _ hb ih => exact .phi ih (hfrontier.symm ▸ hb)
  simp only [NeedsPhiOf, hneeds, hreturn, hcatch]

end FlowGraph

namespace RosterEdit

open Roster

variable {o : SsaOptions} {base : FlowGraph} {v : Var} {scope : NodeId → Var → Prop}
  {reals : BlockId → List NodeId} {s s' : Recorded (Bench Roster)}

section kinds

variable {f : FlowGraph} {b : BlockId}

theorem makes_join {rule : Rule} (hshape : base.SameShape f)
    (hrule : ∀ operands : List (BlockId × NodeId), operands.map Prod.fst = base.preds b →
      rule base v b (.joining b operands)) :
    Makes rule base v .joining b fun target => Tree.newJoinPhi target b (f.preds b) := by
  intro t target n t' htarget hmake
  obtain ⟨operands, hkeys, hmade⟩ := Tree.newJoinPhi_ok hmake htarget
  exact ⟨_, rfl, rfl, hmade, hrule _ (hkeys.trans (congrFun hshape.preds b))⟩

theorem makes_catch {rule : Rule} (hrule : ∀ operands, rule base v b (.catching operands)) :
    Makes rule base v .catching b Tree.newCatchPhi := by
  intro t target n t' htarget hmake
  exact ⟨_, rfl, rfl, Tree.newCatchPhi_ok hmake htarget, hrule _⟩

theorem makes_return {rule : Rule} {id : SubroutineId} {sub : Subroutine}
    (hrule : ∀ operands : List (BlockId × NodeId), operands.map Prod.fst = sub.callsReturningTo b →
      rule base v b (.returning id operands)) :
    Makes rule base v .returning b fun target =>
      Tree.newReturnPhi target id (sub.callsReturningTo b) := by
  intro t target n t' htarget hmake
  obtain ⟨operands, hkeys, hmade⟩ := Tree.newReturnPhi_ok hmake htarget
  exact ⟨_, rfl, rfl, hmade, hrule _ hkeys⟩

end kinds

def Kinds (kinds : BlockId → PhiKind → Prop) (s : Bench Roster) : Prop :=
  ∀ c k, s.own.kindAt? s.flow c = some k ↔ kinds c k

theorem Kinds.returning {returns : BlockId → Prop} {b : BlockId} {added : Bool}
    {s s' : Bench Roster}
    (hkinds : Kinds (fun c k => k = .returning ∧ returns c) s)
    (hplaces : Places .returning b added s s') :
    Kinds (fun c k => k = .returning ∧ (returns c ∨ c = b)) s' := by
  intro c k
  rw [hplaces.kinds]
  by_cases hc : c = b
  · have hover : PhiKind.over .returning (s.own.kindAt? s.flow b) = .returning := by
      cases s.own.kindAt? s.flow b with
      | none => rfl
      | some k => cases k <;> rfl
    simp [hc, hover, eq_comm]
  · rw [if_neg hc, hkinds c k]
    simp [hc]

/-- A phi at a handler gives way to one behind a subroutine. -/
theorem Kinds.catching {returns catches : BlockId → Prop} {b : BlockId} {added : Bool}
    {s s' : Bench Roster}
    (hkinds : Kinds (fun c k => k = .returning ∧ returns c ∨ k = .catching ∧ catches c ∧
      ¬returns c) s)
    (hplaces : Places .catching b added s s') :
    Kinds (fun c k => k = .returning ∧ returns c ∨
      k = .catching ∧ (catches c ∨ c = b) ∧ ¬returns c) s' := by
  intro c k
  rw [hplaces.kinds]
  by_cases hc : c = b
  · subst hc
    by_cases hreturns : returns c
    · rw [(hkinds c .returning).2 (.inl ⟨rfl, hreturns⟩)]
      simp [PhiKind.over, PhiKind.rank, hreturns, eq_comm]
    · have hover : PhiKind.over .catching (s.own.kindAt? s.flow c) = .catching := by
        cases hold : s.own.kindAt? s.flow c with
        | none => rfl
        | some k' =>
          rcases (hkinds c k').1 hold with ⟨-, hreturns'⟩ | ⟨rfl, -⟩
          · exact absurd hreturns' hreturns
          · rfl
      simp [hover, hreturns, eq_comm]
  · rw [if_neg hc, hkinds c k]
    simp [hc]

theorem Places.isSome {rule : Rule} {kind : PhiKind} {b : BlockId} {added : Bool}
    {s s' : Bench Roster} (h : Places kind b added s s') (hs : Ready rule base v scope reals s)
    (hs' : Prepared rule base v scope reals s'.own s'.flow) (c : BlockId) :
    (s'.own.phi? c).isSome ↔ c = b ∨ (s.own.phi? c).isSome := by
  rw [← hs'.isSome_kindAt?, ← hs.prepared.isSome_kindAt?, h.kinds]
  by_cases hc : c = b
  · simp [hc]
  · simp [hc]

theorem place_ready {rule : Rule} {kind : PhiKind} {b : BlockId} {make : NodeId → Edit Tree NodeId}
    {added : Bool}
    (hs : Ready rule base v scope reals s.value) (h : place kind b make s = .ok added s')
    (hmake : Makes rule base v kind b make) :
    Ready rule base v scope reals s'.value ∧ Places kind b added s.value s'.value := by
  obtain ⟨hprepared, hlisting, hplaces⟩ := place_ok h hs.prepared hs.listing hmake
  refine ⟨⟨hprepared, hlisting, hplaces.sameReals.trans hs.order, fun c hc => ?_⟩, hplaces⟩
  rw [hplaces.isSome hs hprepared]
  cases added with
  | false =>
    rw [(hplaces.refused rfl).1] at hc
    exact (hs.sourced c hc).imp_left .inr
  | true =>
    rw [hplaces.defining rfl, mem_noteDefiningBlock] at hc
    rcases hc with rfl | hc
    · exact .inl (.inl rfl)
    · exact (hs.sourced c hc).imp_left .inr

section reaching

variable {nodes : List NodeId}

theorem occursIn_ok {f : FlowGraph} {blocks : List BlockId} {ns : List NodeId} {found : Bool}
    (h : occursIn f blocks ns = .ok found) :
    found = true ↔ ∃ n ∈ ns, ∃ b ∈ blocks, f.tree.blockOf n = .ok (some b) := by
  induction ns with
  | nil => simp [← Except.pure_eq_ok.1 h]
  | cons n rest ih =>
    rw [List.exists_mem_cons_iff]
    simp only [occursIn, Except.bind_eq_ok] at h
    obtain ⟨block, hblock, h⟩ := h
    rw [hblock]
    cases block with
    | none => simpa using ih h
    | some b =>
      by_cases hb : b ∈ blocks
      · simp only [if_pos hb] at h
        simp [← Except.pure_eq_ok.1 h, hb]
      · simp only [if_neg hb] at h
        rw [ih h]
        simp [hb]

theorem reachesReal_ok {b : BlockId} {found : Bool} (h : reachesReal b s = .ok found s')
    (hs : Ready (Admits o) base v scope reals s.value) (hlies : Lies base v reals nodes)
    (framed : base.Framed) (hb : base.contains b = true) :
    s' = s ∧ (found = true ↔ base.ReachesReal reals b) := by
  obtain ⟨hfound, rfl⟩ := askRoster_ok.1 h
  refine ⟨rfl, (occursIn_ok hfound).trans ?_⟩
  rw [hs.prepared.shape.graphPreorder]
  have hblockOf {n : NodeId} {c : BlockId} (hn : n ∈ reals c) :
      s.value.flow.tree.blockOf n = .ok (some c) :=
    hs.prepared.kept.keepsPlaces.blockOf (hlies.block c n hn)
  constructor
  · rintro ⟨n, hn, c, hc, hblock⟩
    obtain ⟨d, -, hnd⟩ := (hs.prepared.all n).1 hn
    obtain rfl : d = c := by simpa [hblockOf hnd] using hblock
    exact ⟨d, (Digraph.mem_preorder_iff framed.closed hb).1 hc, n, hnd⟩
  · rintro ⟨c, hpath, n, hn⟩
    have hc := (Digraph.mem_preorder_iff framed.closed hb).2 hpath
    refine ⟨n, (hs.prepared.all n).2 ⟨c, ?_, hn⟩, c, hc, hblockOf hn⟩
    exact (FlowGraph.mem_preorder framed.closed framed.entry).2
      (Digraph.contains_of_mem_preorder framed.closed hb hc)

theorem anyReachesReal_ok {blocks : List BlockId} {found : Bool}
    (h : anyReachesReal blocks s = .ok found s') (hs : Ready (Admits o) base v scope reals s.value)
    (hlies : Lies base v reals nodes) (framed : base.Framed)
    (hblocks : ∀ b ∈ blocks, base.contains b = true) :
    s' = s ∧ (found = true ↔ ∃ b ∈ blocks, base.ReachesReal reals b) := by
  induction blocks with
  | nil =>
    obtain ⟨rfl, rfl⟩ := Edit.pure_ok.1 h
    simp
  | cons b rest ih =>
    simp only [anyReachesReal, Edit.bind_ok] at h
    obtain ⟨here, m, hhere, h⟩ := h
    obtain ⟨rfl, hreaches⟩ := reachesReal_ok hhere hs hlies framed (hblocks b (by simp))
    rw [List.exists_mem_cons_iff, ← hreaches]
    cases here with
    | true =>
      obtain ⟨rfl, rfl⟩ := Edit.pure_ok.1 h
      simp
    | false => simpa using ih h fun c hc => hblocks c (by simp [hc])

section

variable (hlies : Lies base v reals nodes) (framed : base.Framed)

include hlies framed

/-- Where calls of `sub` come back to, if an occurrence can be reached from there. -/
def ReturnsFrom (base : FlowGraph) (reals : BlockId → List NodeId) (sub : Subroutine)
    (b : BlockId) : Prop :=
  b ∈ sub.returnBlocks ∧ ∃ c ∈ sub.returnBlocks, base.ReachesReal reals c

omit hlies in
theorem addReturnPhis_ok {sub : Subroutine} {placed : List BlockId} {old : BlockId → Prop}
    (h : addReturnPhis sub.id s = .ok placed s') (hs : Ready (Admits o) base v scope reals s.value)
    (hkinds : Kinds (fun c k => k = .returning ∧ old c) s.value) (hoption : o.returnPhis = true)
    (hsub : sub ∈ base.subroutines) (hexit : sub.exit.isSome) :
    Ready (Admits o) base v scope reals s'.value ∧
      Kinds (fun c k => k = .returning ∧ (old c ∨ c ∈ sub.returnBlocks)) s'.value := by
  simp only [addReturnPhis, Edit.bind_ok, askRoster_ok] at h
  obtain ⟨found, _, ⟨hfound, rfl⟩, h⟩ := h
  have hid := framed.subroutine?_id hsub
  obtain rfl : sub = found := by
    rw [FlowGraph.subroutine, hs.prepared.shape.subroutine?, hid] at hfound
    exact Except.ok.inj hfound
  refine Edit.filterM_ok h (fun before _ m => Ready (Admits o) base v scope reals m.value ∧
    Kinds (fun c k => k = .returning ∧ (old c ∨ c ∈ before)) m.value) ⟨hs, by simpa using hkinds⟩ ?_
  rintro before b after - kept m m' hsplit ⟨hm, hkinds⟩ hplace
  have hb : b ∈ sub.returnBlocks := by simp [hsplit]
  obtain ⟨hm', hplaces⟩ := place_ready hm hplace (makes_return fun _ hkeys =>
    ⟨hoption, ⟨sub, hsub, hexit⟩, sub, hid, hb, hkeys⟩)
  refine ⟨hm', fun c k => (hkinds.returning hplaces c k).trans ?_⟩
  simp only [List.mem_append, List.mem_singleton, or_assoc]

theorem placeReturnPhis_ok {u : Unit} (h : placeReturnPhis s = .ok u s')
    (hs : Ready (Admits o) base v scope reals s.value) (hnone : ∀ b, s.value.own.phi? b = none)
    (hoption : o.returnPhis = true) :
    Ready (Admits o) base v scope reals s'.value ∧
      Kinds (fun c k => k = .returning ∧ base.ReturnPoint o reals c) s'.value := by
  simp only [placeReturnPhis, Edit.bind_ok, Edit.get_ok] at h
  obtain ⟨_, _, ⟨rfl, rfl⟩, h⟩ := h
  rw [hs.prepared.shape.subroutines] at h
  obtain ⟨hs', hkinds⟩ : Ready (Admits o) base v scope reals s'.value ∧
      Kinds (fun c k => k = .returning ∧
        ∃ sub ∈ base.subroutines.filter (·.exit.isSome), ReturnsFrom base reals sub c)
          s'.value := by
    refine Edit.forM_ok h (fun before m => Ready (Admits o) base v scope reals m.value ∧
      Kinds (fun c k => k = .returning ∧ ∃ sub ∈ before, ReturnsFrom base reals sub c) m.value)
      ⟨hs, fun c k => by simp [kindAt?, hnone c]⟩ ?_
    rintro before sub after m m' hsplit ⟨hm, hkinds⟩ hrun
    obtain ⟨hsub, hexit⟩ := List.mem_filter.1 (show sub ∈ base.subroutines.filter (·.exit.isSome) by
      simp [hsplit])
    simp only [Edit.bind_ok] at hrun
    obtain ⟨found, m₁, hfound, hrun⟩ := hrun
    obtain ⟨rfl, hreaches⟩ := anyReachesReal_ok hfound hm hlies framed fun b hb =>
      framed.contains_returnBlock hsub hb
    cases found with
    | false =>
      obtain ⟨-, rfl⟩ := Edit.pure_ok.1 hrun
      refine ⟨hm, fun c k => (hkinds c k).trans (and_congr_right fun _ => ?_)⟩
      refine exists_congr fun sub' => ?_
      rw [List.mem_append, List.mem_singleton, or_and_right, or_iff_left]
      rintro ⟨rfl, -, hreach⟩
      exact absurd (hreaches.2 hreach) (by simp)
    | true =>
      simp only [if_true, Edit.bind_ok, Edit.pure_ok] at hrun
      obtain ⟨_, m₂, hadd, -, rfl⟩ := hrun
      obtain ⟨hm', hkinds'⟩ := addReturnPhis_ok framed hadd hm hkinds hoption hsub hexit
      refine ⟨hm', fun c k => (hkinds' c k).trans (and_congr_right fun _ => ?_)⟩
      simp only [List.mem_append, List.mem_singleton, or_and_right, exists_or, exists_eq_left,
        ReturnsFrom, hreaches.1 rfl, and_true]
  refine ⟨hs', fun c k => (hkinds c k).trans (and_congr_right fun _ => ?_)⟩
  simp only [FlowGraph.ReturnPoint, hoption, true_and, List.mem_filter, ReturnsFrom, and_assoc]

/-- The kinds of phis when those behind subroutines and at handlers have been placed. -/
def Anchored (base : FlowGraph) (o : SsaOptions) (v : Var)
    (reals : BlockId → List NodeId) (b : BlockId) (k : PhiKind) : Prop :=
  k = .returning ∧ base.ReturnPoint o reals b ∨ k = .catching ∧ base.CatchPoint o v reals b

theorem placeCatchPhis_ok {u : Unit} (h : placeCatchPhis s = .ok u s')
    (hs : Ready (Admits o) base v scope reals s.value)
    (hkinds : Kinds (fun c k => k = .returning ∧ base.ReturnPoint o reals c) s.value)
    (hoption : o.catchPhis = true) (hlocal : v.isLocal = true) :
    Ready (Admits o) base v scope reals s'.value ∧ Kinds (Anchored base o v reals) s'.value := by
  simp only [placeCatchPhis, Edit.bind_ok, Edit.get_ok] at h
  obtain ⟨_, _, ⟨rfl, rfl⟩, h⟩ := h
  rw [hs.prepared.shape.catchBlocks] at h
  obtain ⟨hs', hkinds'⟩ : Ready (Admits o) base v scope reals s'.value ∧
      Kinds (fun c k => k = .returning ∧ base.ReturnPoint o reals c ∨
        k = .catching ∧ (c ∈ base.catchBlocks ∧ base.ReachesReal reals c) ∧
          ¬base.ReturnPoint o reals c) s'.value := by
    refine Edit.forM_ok h (fun before m => Ready (Admits o) base v scope reals m.value ∧
      Kinds (fun c k => k = .returning ∧ base.ReturnPoint o reals c ∨
        k = .catching ∧ (c ∈ before ∧ base.ReachesReal reals c) ∧ ¬base.ReturnPoint o reals c)
        m.value) ⟨hs, by simpa using hkinds⟩ ?_
    rintro before b after m m' hsplit ⟨hm, hkinds⟩ hrun
    have hb : b ∈ base.catchBlocks := by simp [hsplit]
    simp only [Edit.bind_ok] at hrun
    obtain ⟨found, m₁, hfound, hrun⟩ := hrun
    obtain ⟨rfl, hreaches⟩ := reachesReal_ok hfound hm hlies framed (framed.contains_catchBlock hb)
    cases found with
    | false =>
      obtain ⟨-, rfl⟩ := Edit.pure_ok.1 hrun
      refine ⟨hm, fun c k => (hkinds c k).trans (or_congr_right (and_congr_right fun _ =>
        and_congr_left fun _ => ?_))⟩
      rw [List.mem_append, List.mem_singleton]
      refine and_congr_left fun hreach => (or_iff_left ?_).symm
      rintro rfl
      exact absurd (hreaches.2 hreach) (by simp)
    | true =>
      simp only [if_true, addCatchPhi, Edit.bind_ok, Edit.get_ok, Edit.pure_ok] at hrun
      obtain ⟨added, m₂, ⟨_, _, ⟨rfl, rfl⟩, hplace⟩, -, rfl⟩ := hrun
      simp only [hm.prepared.var, hlocal, Bool.not_true, Bool.false_eq_true, if_false] at hplace
      obtain ⟨hm', hplaces⟩ := place_ready hm hplace (makes_catch fun _ => ⟨hoption, hlocal, hb⟩)
      refine ⟨hm', fun c k => (hkinds.catching hplaces c k).trans (or_congr_right (and_congr_right
        fun _ => and_congr_left fun _ => ?_))⟩
      rw [List.mem_append, List.mem_singleton, or_and_right]
      exact or_congr_right (iff_self_and.2 fun he => he ▸ hreaches.1 rfl)
  refine ⟨hs', fun c k => (hkinds' c k).trans ?_⟩
  simp only [Anchored, FlowGraph.CatchPoint, hoption, hlocal, true_and, and_assoc]

end

end reaching

section joins

variable {frontiers : List (List BlockId)} {pending pending' : Pending}

/-- The roster has a phi at every block in the frontier of `b`. -/
def Covered (frontiers : List (List BlockId)) (r : Roster) (b : BlockId) : Prop :=
  ∀ m ∈ frontiers.getD b.index [], (r.phi? m).isSome

/-- The anchored phis are in place, and all others are at joins and needed. -/
structure Grounded (base : FlowGraph) (o : SsaOptions) (v : Var) (reals : BlockId → List NodeId)
    (s : Bench Roster) : Prop where
  anchored : ∀ c k, Anchored base o v reals c k → s.own.kindAt? s.flow c = some k
  needed : ∀ c k, s.own.kindAt? s.flow c = some k →
    Anchored base o v reals c k ∨ k = .joining ∧ base.NeedsPhi o v reals c

theorem Anchored.needsPhi {b : BlockId} {k : PhiKind} (h : Anchored base o v reals b k) :
    base.NeedsPhi o v reals b := by
  rcases h with ⟨-, h⟩ | ⟨-, h⟩
  · exact .returning h
  · exact .catching h

theorem Grounded.needsPhi {s : Bench Roster} (h : Grounded base o v reals s)
    (hs : Prepared (Admits o) base v scope reals s.own s.flow) {b : BlockId}
    (hb : (s.own.phi? b).isSome) :
    base.NeedsPhi o v reals b := by
  rw [← hs.isSome_kindAt?] at hb
  obtain ⟨k, hk⟩ := Option.isSome_iff_exists.1 hb
  rcases h.needed b k hk with hanchored | ⟨-, hneeds⟩
  · exact hanchored.needsPhi
  · exact hneeds

/-- A phi at a join is placed where one is needed and there is none. -/
theorem Grounded.join {b : BlockId} {added : Bool} {s s' : Bench Roster}
    (hg : Grounded base o v reals s) (hplaces : Places .joining b added s s')
    (hnone : s.own.phi? b = none) (hneeds : base.NeedsPhi o v reals b) :
    Grounded base o v reals s' := by
  have hkind : s.own.kindAt? s.flow b = none := by simp [kindAt?, hnone]
  refine ⟨fun c k hc => ?_, fun c k hk => ?_⟩
  · have hold := hg.anchored c k hc
    have hcb : c ≠ b := by
      rintro rfl
      simp [hkind] at hold
    rw [hplaces.kinds, if_neg hcb, hold]
  · rw [hplaces.kinds, hkind] at hk
    by_cases hcb : c = b
    · subst hcb
      rw [if_pos rfl] at hk
      exact .inr ⟨(Option.some.inj hk).symm, hneeds⟩
    · rw [if_neg hcb] at hk
      exact hg.needed c k hk

/-- The blocks queued are those that define the variable, each of them once. -/
structure Queues (base : FlowGraph) (pending : Pending) (r : Roster) : Prop where
  nodup : pending.queued.Nodup
  contained : ∀ b ∈ pending.queued, base.contains b = true
  defining : ∀ b ∈ r.definingBlocks, b ∈ pending.queued

theorem Queues.length_le {r : Roster} (h : Queues base pending r) :
    pending.queued.length ≤ base.blockCount :=
  Digraph.length_le_nodeCount h.nodup h.contained

/-- A block that defines the variable as well is queued. -/
theorem Queues.cons {b : BlockId} {blocks : List BlockId} {r r' : Roster}
    (h : Queues base pending r) (hb : base.contains b = true) (hqueued : b ∉ pending.queued)
    (hdefining : ∀ c ∈ r'.definingBlocks, c = b ∨ c ∈ r.definingBlocks) :
    Queues base ⟨blocks, b :: pending.queued⟩ r' where
  nodup := List.nodup_cons.2 ⟨hqueued, h.nodup⟩
  contained := List.forall_mem_cons.2 ⟨hb, h.contained⟩
  defining c hc := List.mem_cons.2 ((hdefining c hc).imp_right (h.defining c))

/-- The blocks that are pending hold definitions or need phis. -/
def Sourced (base : FlowGraph) (o : SsaOptions) (v : Var) (reals : BlockId → List NodeId)
    (blocks : List BlockId) : Prop :=
  ∀ b ∈ blocks, base.DefinesIn reals b ∨ base.NeedsPhi o v reals b

/-- What holds between the blocks of a frontier. -/
structure Joining (base : FlowGraph) (o : SsaOptions) (v : Var) (scope : NodeId → Var → Prop)
    (reals : BlockId → List NodeId) (pending : Pending) (s : Bench Roster) : Prop where
  ready : Ready (Admits o) base v scope reals s
  queues : Queues base pending s.own
  grounded : Grounded base o v reals s
  sourced : Sourced base o v reals pending.blocks

/-- Phis stay, and so do pending blocks. What is newly queued is newly pending, one block for
one. -/
structure Grows (pending : Pending) (r : Roster) (pending' : Pending) (r' : Roster) : Prop where
  phis : ∀ c, (r.phi? c).isSome → (r'.phi? c).isSome
  blocks : ∀ c ∈ pending.blocks, c ∈ pending'.blocks
  queued : ∀ c ∈ pending'.queued, c ∈ pending.queued ∨ c ∈ pending'.blocks
  balance : pending'.blocks.length + pending.queued.length =
    pending.blocks.length + pending'.queued.length

theorem Grows.of_phis {r r' : Roster} (h : ∀ c, (r.phi? c).isSome → (r'.phi? c).isSome) :
    Grows pending r pending r' :=
  ⟨h, fun _ => id, fun _ => .inl, rfl⟩

theorem Grows.of_cons {b : BlockId} {r r' : Roster}
    (h : ∀ c, (r.phi? c).isSome → (r'.phi? c).isSome) :
    Grows pending r ⟨b :: pending.blocks, b :: pending.queued⟩ r' where
  phis := h
  blocks _ := List.mem_cons_of_mem b
  queued := List.forall_mem_cons.2 ⟨.inr List.mem_cons_self, fun _ => .inl⟩
  balance := by
    simp only [List.length_cons]
    omega

theorem Grows.trans {pending'' : Pending} {r r' r'' : Roster} (h : Grows pending r pending' r')
    (h' : Grows pending' r' pending'' r'') : Grows pending r pending'' r'' where
  phis c hc := h'.phis c (h.phis c hc)
  blocks c hc := h'.blocks c (h.blocks c hc)
  queued c hc := by
    rcases h'.queued c hc with hc | hc
    · exact (h.queued c hc).imp_right (h'.blocks c)
    · exact .inr hc
  balance := by
    have := h.balance
    have := h'.balance
    omega

theorem placeOnFrontier_ok {b : BlockId} (h : placeOnFrontier pending b s = .ok pending' s')
    (hs : Joining base o v scope reals pending s.value) (hneeds : base.NeedsPhi o v reals b) :
    Joining base o v scope reals pending' s'.value ∧ (s'.value.own.phi? b).isSome ∧
      Grows pending s.value.own pending' s'.value.own := by
  simp only [placeOnFrontier, Edit.bind_ok, askRoster_ok] at h
  obtain ⟨phi, _, ⟨hphi, rfl⟩, h⟩ := h
  obtain ⟨hb, hphi⟩ := hs.ready.prepared.phiAt_ok hphi
  cases phi with
  | some n =>
    obtain ⟨rfl, rfl⟩ := Edit.pure_ok.1 h
    exact ⟨hs, by simp [hphi], .of_phis fun _ => id⟩
  | none =>
    simp only [Option.isSome_none, Bool.false_eq_true, if_false, Edit.bind_ok, addJoinPhi,
      Edit.get_ok] at h
    obtain ⟨added, m, ⟨_, _, ⟨rfl, rfl⟩, hplace⟩, h⟩ := h
    obtain ⟨hm, hplaces⟩ := place_ready hs.ready hplace
      (makes_join hs.ready.prepared.shape fun _ => id)
    have hground := hs.grounded.join hplaces hphi hneeds
    have hisSome := hplaces.isSome hs.ready hm.prepared
    have hphis (c : BlockId) (hc : (s.value.own.phi? c).isSome) : (m.value.own.phi? c).isSome :=
      (hisSome c).2 (.inr hc)
    cases added with
    | false => exact absurd (hplaces.refused rfl).2 (by simp [hphi])
    | true =>
      have hdefining : ∀ c ∈ m.value.own.definingBlocks, c = b ∨
          c ∈ s.value.own.definingBlocks := by
        intro c hc
        rwa [hplaces.defining rfl, mem_noteDefiningBlock] at hc
      by_cases hqueued : b ∈ pending.queued
      · simp only [hqueued, not_true, decide_false, Bool.and_false, Bool.false_eq_true,
          if_false] at h
        obtain ⟨rfl, rfl⟩ := Edit.pure_ok.1 h
        refine ⟨⟨hm, ⟨hs.queues.nodup, hs.queues.contained, fun c hc => ?_⟩, hground, hs.sourced⟩,
          (hisSome b).2 (.inl rfl), .of_phis hphis⟩
        rcases hdefining c hc with rfl | hc
        · exact hqueued
        · exact hs.queues.defining c hc
      · simp only [hqueued, not_false_eq_true, decide_true, Bool.and_true, if_true] at h
        obtain ⟨rfl, rfl⟩ := Edit.pure_ok.1 h
        exact ⟨⟨hm, hs.queues.cons hb hqueued hdefining, hground,
          List.forall_mem_cons.2 ⟨.inr hneeds, hs.sourced⟩⟩, (hisSome b).2 (.inl rfl),
          .of_cons hphis⟩

/-- Going through a frontier leaves no block of it without a phi. -/
theorem placeOnFrontiers_ok {blocks : List BlockId}
    (h : blocks.foldlM placeOnFrontier pending s = .ok pending' s')
    (hs : Joining base o v scope reals pending s.value)
    (hneeds : ∀ b ∈ blocks, base.NeedsPhi o v reals b) :
    Joining base o v scope reals pending' s'.value ∧ (∀ b ∈ blocks, (s'.value.own.phi? b).isSome) ∧
      Grows pending s.value.own pending' s'.value.own := by
  refine Edit.foldlM_ok h (fun before p m => Joining base o v scope reals p m.value ∧
    (∀ b ∈ before, (m.value.own.phi? b).isSome) ∧ Grows pending s.value.own p m.value.own)
    ⟨hs, by simp, .of_phis fun _ => id⟩ ?_
  rintro before b after p p' m m' hsplit ⟨hm, hall, hgrows⟩ hstep
  obtain ⟨hm', hsome, hgrows'⟩ := placeOnFrontier_ok hstep hm (hneeds b (by simp [hsplit]))
  refine ⟨hm', fun c hc => ?_, hgrows.trans hgrows'⟩
  rcases List.mem_append.1 hc with hc | hc
  · exact hgrows'.phis c (hall c hc)
  · rwa [List.mem_singleton.1 hc]

/-- Every block that was queued and is no longer pending has its frontier covered. -/
structure Spreads (base : FlowGraph) (frontiers : List (List BlockId)) (pending : Pending)
    (r : Roster) : Prop extends Queues base pending r where
  covered : ∀ b ∈ pending.queued, b ∈ pending.blocks ∨ Covered frontiers r b

/-- The frontier of a block that holds a definition or needs a phi needs phis. -/
theorem Sourced.needsPhi {b c : BlockId} {blocks : List BlockId}
    (h : Sourced base o v reals blocks) (hb : b ∈ blocks)
    (hfrontier : base.graph.InFrontier FlowGraph.entry b c) : base.NeedsPhi o v reals c := by
  rcases h b hb with hdefines | hneeds
  · exact .definition hdefines hfrontier
  · exact .phi hneeds hfrontier

variable (hfrontiers : ∀ b, ∀ c ∈ frontiers.getD b.index [],
  base.graph.InFrontier FlowGraph.entry b c)

include hfrontiers

omit hfrontiers in
/-- The frontier of the block that was looked at is covered from then on. -/
theorem Spreads.step {b : BlockId} {rest : List BlockId} {r r' : Roster}
    (h : Spreads base frontiers pending r) (hblocks : pending.blocks = b :: rest)
    (hq : Queues base pending' r') (hall : ∀ c ∈ frontiers.getD b.index [], (r'.phi? c).isSome)
    (hgrows : Grows ⟨rest, pending.queued⟩ r pending' r') : Spreads base frontiers pending' r' := by
  refine ⟨hq, fun c hc => ?_⟩
  rcases hgrows.queued c hc with hold | hnew
  · rcases h.covered c hold with hpending | hcovered
    · rw [hblocks] at hpending
      rcases List.mem_cons.1 hpending with rfl | hpending
      · exact .inr hall
      · exact .inl (hgrows.blocks c hpending)
    · exact .inr fun d hd => hgrows.phis d (hcovered d hd)
  · exact .inl hnew

theorem placeJoinsTo_ok {limit : Nat} {u : Unit}
    (h : placeJoinsTo frontiers limit pending s = .ok u s')
    (hs : Ready (Admits o) base v scope reals s.value)
    (hspreads : Spreads base frontiers pending s.value.own) (hg : Grounded base o v reals s.value)
    (hsourced : Sourced base o v reals pending.blocks)
    (hlimit : pending.blocks.length + base.blockCount < limit + pending.queued.length) :
    Ready (Admits o) base v scope reals s'.value ∧ Grounded base o v reals s'.value ∧
      ∀ b ∈ s'.value.own.definingBlocks, Covered frontiers s'.value.own b := by
  induction limit generalizing pending s with
  | zero =>
    have := hspreads.toQueues.length_le
    omega
  | succ limit ih =>
    unfold placeJoinsTo at h
    cases hblocks : pending.blocks with
    | nil =>
      rw [hblocks] at h
      obtain ⟨-, rfl⟩ := Edit.pure_ok.1 h
      refine ⟨hs, hg, fun b hb => ?_⟩
      rcases hspreads.covered b (hspreads.defining b hb) with hb | hb
      · simp [hblocks] at hb
      · exact hb
    | cons b rest =>
      simp only [hblocks, Edit.bind_ok] at h
      obtain ⟨next, m, hround, hrest⟩ := h
      have hb : b ∈ pending.blocks := by simp [hblocks]
      have hstart : Joining base o v scope reals ⟨rest, pending.queued⟩ s.value :=
        ⟨hs, ⟨hspreads.nodup, hspreads.contained, hspreads.defining⟩, hg,
          fun c hc => hsourced c (by simp [hblocks, hc])⟩
      obtain ⟨hm, hall, hgrows⟩ := placeOnFrontiers_ok hround hstart fun c hc =>
        hsourced.needsPhi hb (hfrontiers b c hc)
      refine ih hrest hm.ready
        (hspreads.step hblocks hm.queues hall hgrows) hm.grounded hm.sourced ?_
      have hbalance := hgrows.balance
      rw [hblocks, List.length_cons] at hlimit
      dsimp only at hbalance
      omega

theorem placeJoinPhis_ok {u : Unit} (h : placeJoinPhis frontiers s = .ok u s')
    (hs : Ready (Admits o) base v scope reals s.value)
    (hkinds : Kinds (Anchored base o v reals) s.value) :
    Ready (Admits o) base v scope reals s'.value ∧ Grounded base o v reals s'.value ∧
      ∀ b ∈ s'.value.own.definingBlocks, Covered frontiers s'.value.own b := by
  simp only [placeJoinPhis, Edit.bind_ok, Edit.get_ok] at h
  obtain ⟨_, _, ⟨rfl, rfl⟩, h⟩ := h
  have hsize : s.value.flow.blockCount = base.blockCount := hs.prepared.shape.size
  have hground : Grounded base o v reals s.value :=
    ⟨fun c k => (hkinds c k).2, fun c k hk => .inl ((hkinds c k).1 hk)⟩
  refine placeJoinsTo_ok hfrontiers h hs ⟨⟨List.nodup_reverse.2 hs.prepared.nodup, fun b hb => ?_,
    fun b hb => ?_⟩, fun b hb => .inl hb⟩ hground (fun b hb => ?_) (by dsimp only; omega)
  · exact hs.prepared.contained b (List.mem_reverse.1 hb)
  · exact List.mem_reverse.2 hb
  · rcases hs.sourced b (List.mem_reverse.1 hb) with hsome | hdefines
    · exact .inr (hground.needsPhi hs.prepared hsome)
    · exact .inl hdefines

/-- The phis of a variable are where they are needed, and of the kinds that are needed there. -/
def Placed (o : SsaOptions) (base : FlowGraph) (v : Var)
    (reals : BlockId → List NodeId) (r : Roster) (f : FlowGraph) : Prop :=
  ∀ b k, r.kindAt? f b = some k ↔ base.NeedsPhiOf o v reals b k

omit hfrontiers in
theorem Grounded.isSome_of_anchored {s : Bench Roster} (hg : Grounded base o v reals s)
    (hs : Ready (Admits o) base v scope reals s) {b : BlockId} {k : PhiKind}
    (hb : Anchored base o v reals b k) : (s.own.phi? b).isSome := by
  rw [← hs.prepared.isSome_kindAt?, hg.anchored b k hb]
  rfl

omit hfrontiers in
/-- Once the frontiers are covered, a phi is wherever one is needed. -/
theorem Grounded.isSome_of_needsPhi {s : Bench Roster} (hg : Grounded base o v reals s)
    (hs : Ready (Admits o) base v scope reals s) (framed : base.Framed)
    (hcovered : ∀ b ∈ s.own.definingBlocks, Covered (base.graph.frontiers base.dominators) s.own b)
    {b : BlockId} (hb : base.NeedsPhi o v reals b) : (s.own.phi? b).isSome := by
  have hcover {b c : BlockId} (hdefines : (s.own.phi? b).isSome ∨ base.DefinesIn reals b)
      (hfrontier : base.graph.InFrontier FlowGraph.entry b c) : (s.own.phi? c).isSome := by
    have hb : b ∈ base.preorder := by
      obtain ⟨p, -, hdom, -⟩ := hfrontier
      exact List.mem_append_left _
        ((Digraph.mem_preorder_iff framed.closed framed.entry).2 hdom.path)
    exact hcovered b (hs.prepared.defining b hb hdefines) c
      ((Digraph.mem_frontiers_iff_inFrontier framed.closed framed.entry).2 hfrontier)
  induction hb with
  | returning h => exact hg.isSome_of_anchored hs (.inl ⟨rfl, h⟩)
  | catching h => exact hg.isSome_of_anchored hs (.inr ⟨rfl, h⟩)
  | definition hdefines hfrontier => exact hcover (.inr hdefines) hfrontier
  | phi _ hfrontier ih => exact hcover (.inl ih) hfrontier

omit hfrontiers in
theorem Grounded.placed {s : Bench Roster} (hg : Grounded base o v reals s)
    (hs : Ready (Admits o) base v scope reals s) (framed : base.Framed)
    (hcovered : ∀ b ∈ s.own.definingBlocks,
      Covered (base.graph.frontiers base.dominators) s.own b) :
    Placed o base v reals s.own s.flow := by
  intro b k
  constructor
  · intro hk
    have hneeds : base.NeedsPhi o v reals b := hg.needsPhi hs.prepared (by
      rw [← hs.prepared.isSome_kindAt?, hk]
      rfl)
    have hanchored {k' : PhiKind} (h : Anchored base o v reals b k') : k = k' :=
      Option.some.inj (hk.symm.trans (hg.anchored b k' h))
    refine ⟨hneeds, ⟨?_, fun h => hanchored (.inl ⟨rfl, h⟩)⟩,
      ⟨?_, fun h => hanchored (.inr ⟨rfl, h⟩)⟩⟩
    · rintro rfl
      rcases hg.needed b _ hk with (⟨-, h⟩ | ⟨h, -⟩) | ⟨h, -⟩
      · exact h
      · simp at h
      · simp at h
    · rintro rfl
      rcases hg.needed b _ hk with (⟨h, -⟩ | ⟨-, h⟩) | ⟨h, -⟩
      · simp at h
      · exact h
      · simp at h
  · rintro ⟨hneeds, hreturn, hcatch⟩
    have hsome := hg.isSome_of_needsPhi hs framed hcovered hneeds
    rw [← hs.prepared.isSome_kindAt?] at hsome
    obtain ⟨k', hk'⟩ := Option.isSome_iff_exists.1 hsome
    have hanchored {k : PhiKind} (h : Anchored base o v reals b k) : k' = k :=
      Option.some.inj (hk'.symm.trans (hg.anchored b k h))
    rw [hk']
    rcases hg.needed b k' hk' with (⟨rfl, h⟩ | ⟨rfl, h⟩) | ⟨rfl, -⟩
    · rw [hreturn.2 h]
    · rw [hcatch.2 h]
    · cases k with
      | joining => rfl
      | catching => rw [hanchored (.inr ⟨rfl, hcatch.1 rfl⟩)]
      | returning => rw [hanchored (.inl ⟨rfl, hreturn.1 rfl⟩)]

end joins

/-- The whole preparation of a variable. -/
theorem prepare_ok {t : DominatorTree} {group : Occurrences} {u : Unit}
    (h : prepare o t (base.graph.frontiers base.dominators) group s = .ok u s')
    (hs : Ready (Admits o) base v scope (fun _ => []) s.value)
    (hnone : ∀ b, s.value.own.phi? b = none)
    (hlies : Lies base v reals group.nodes) (framed : base.Framed) (hvar : group.var = v) :
    Ready (Admits o) base v scope reals s'.value ∧
      Placed o base v reals s'.value.own s'.value.flow ∧ ∀ b ∈ s'.value.own.definingBlocks,
        Covered (base.graph.frontiers base.dominators) s'.value.own b := by
  subst hvar
  simp only [prepare, Edit.bind_ok, Edit.when_ok, askRoster_ok] at h
  obtain ⟨_, m, hadd, unreachable, _, ⟨-, rfl⟩, m₁, hreport, m₂, hreturns, m₃, hcatches, h⟩ := h
  obtain ⟨hm, hphi⟩ := addReals_ok hadd hs hlies framed
  have hvalue : m₁.value = m.value := by
    split at hreport
    · exact Bench.report_ok hreport
    · rw [hreport]
  have hready₁ : Ready (Admits o) base group.var scope reals m₁.value := hvalue ▸ hm
  have hnone₁ (b : BlockId) : m₁.value.own.phi? b = none := by rw [hvalue, hphi, hnone]
  obtain ⟨hready₂, hkinds₂⟩ : Ready (Admits o) base group.var scope reals m₂.value ∧
      Kinds (fun c k => k = .returning ∧ base.ReturnPoint o reals c) m₂.value := by
    split at hreturns
    · next hoption => exact placeReturnPhis_ok hlies framed hreturns hready₁ hnone₁ hoption
    · next hoption =>
      subst hreturns
      exact ⟨hready₁, fun c k => by simp [kindAt?, hnone₁ c, FlowGraph.ReturnPoint, hoption]⟩
  obtain ⟨hready₃, hkinds₃⟩ : Ready (Admits o) base group.var scope reals m₃.value ∧
      Kinds (Anchored base o group.var reals) m₃.value := by
    split at hcatches
    · next hoption =>
      obtain ⟨hoption, hlocal⟩ := Bool.and_eq_true_iff.1 hoption
      exact placeCatchPhis_ok hlies framed hcatches hready₂ hkinds₂ hoption hlocal
    · next hoption =>
      subst hcatches
      refine ⟨hready₂, fun c k => (hkinds₂ c k).trans (or_iff_left ?_).symm⟩
      rintro ⟨-, hcatch, hlocal, -⟩
      exact hoption (by rw [hcatch, hlocal]; rfl)
  obtain ⟨hready, hground, hcovered⟩ := placeJoinPhis_ok
    (fun b c => (Digraph.mem_frontiers_iff_inFrontier framed.closed framed.entry).1) h
      hready₃ hkinds₃
  exact ⟨hready, hground.placed hready framed hcovered, hcovered⟩

end RosterEdit

end MethodFlow
