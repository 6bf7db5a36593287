import MethodFlow.Proofs.Ssa.PhiSites
import MethodFlow.Proofs.Success.Placing

/-!
Phis placed and removed by request. Whatever is asked of a roster, and in whatever order, the phis
that it lists are those that the blocks list, each of the highest kind asked for, and a phi that has
to go takes along what it owned.
-/

namespace MethodFlow

open Edit

/-- No phi is due if no kind was asked for, and otherwise one of the highest kind. -/
def PhiKind.Highest (kinds : List PhiKind) : Option PhiKind → Prop
  | none => kinds = []
  | some k => k ∈ kinds ∧ ∀ k' ∈ kinds, k'.rank ≤ k.rank

/-- A phi of the kind that prevails over the highest one so far is of the highest kind. -/
theorem PhiKind.Highest.over {kinds : List PhiKind} {old : Option PhiKind} (h : Highest kinds old)
    (new : PhiKind) : Highest (kinds ++ [new]) (some (new.over old)) := by
  cases old with
  | none =>
    obtain rfl : kinds = [] := h
    simp [Highest, PhiKind.over]
  | some k =>
    obtain ⟨hk, hmax⟩ := h
    rw [PhiKind.over]
    split
    · next hle =>
      refine ⟨List.mem_append_left _ hk, fun k' hk' => ?_⟩
      rcases List.mem_append.1 hk' with hk' | hk'
      · exact hmax k' hk'
      · rwa [List.mem_singleton.1 hk']
    · next hlt =>
      refine ⟨by simp, fun k' hk' => ?_⟩
      rcases List.mem_append.1 hk' with hk' | hk'
      · exact Nat.le_of_lt (Nat.lt_of_le_of_lt (hmax k' hk') (Nat.lt_of_not_le hlt))
      · rw [List.mem_singleton.1 hk']

namespace RosterRequest

def runs (rs : List RosterRequest) (s : Recorded (Bench Roster)) : Recorded (Bench Roster) :=
  rs.foldl (fun s r => r.run.after s) s

/-- The kinds of phis that have been asked for at `b` since a phi was last to be removed there,
after one more request. Handlers get phis of locals only. -/
def ask (f : FlowGraph) (v : Var) (b : BlockId) (kinds : List PhiKind) : RosterRequest →
    List PhiKind
  | addJoinPhi c => if c = b then kinds ++ [.joining] else kinds
  | addCatchPhi c => if c = b ∧ v.isLocal then kinds ++ [.catching] else kinds
  | addReturnPhis s =>
    if b ∈ (f.subroutine? s).elim [] Subroutine.returnBlocks then kinds ++ [.returning] else kinds
  | removePhi c => if c = b then [] else kinds
  | addReal _ | addDefiningBlock _ => kinds

/-- The kinds of phis that are due at `b` after requests. -/
def asked (f : FlowGraph) (v : Var) (b : BlockId) (rs : List RosterRequest) : List PhiKind :=
  rs.foldl (ask f v b) []

end RosterRequest

namespace Roster

/-- The inputs that a phi of `v` at `b` has when it has been asked for in the graph `base`: one for
each predecessor, and one for each call of the subroutine that comes back. -/
def Requested (base : FlowGraph) (v : Var) (b : BlockId) : PhiInputs → Prop
  | .joining block operands => block = b ∧ operands.map Prod.fst = base.preds b
  | .catching _ => v.isLocal
  | .returning s operands => ∃ sub, base.subroutine? s = some sub ∧ b ∈ sub.returnBlocks ∧
      operands.map Prod.fst = sub.callsReturningTo b

variable {rule : Rule} {base f : FlowGraph} {v : Var} {scope : NodeId → Var → Prop}
  {reals : BlockId → List NodeId} {r r' : Roster} {b : BlockId} {n : NodeId}

theorem Requested.of_shape {inputs : PhiInputs} (h : Requested base v b inputs)
    (hshape : base.SameShape f) : Requested f v b inputs := by
  cases inputs with
  | joining _ operands => exact ⟨h.1, h.2.trans (congrFun hshape.preds b).symm⟩
  | catching operands => exact h
  | returning s operands =>
    obtain ⟨sub, hsub, hrest⟩ := h
    exact ⟨sub, hshape.subroutine? ▸ hsub, hrest⟩

theorem recordAt_error (r : Roster) (hb : f.contains b = false) :
    ∃ e, r.recordAt f b = .error e := by
  cases hrecord : r.recordAt f b with
  | error e => exact ⟨e, rfl⟩
  | ok record => simp [(recordAt_ok.1 hrecord).2.1] at hb

/-- A roster that takes up an occurrence lists it with its block and keeps its phis. -/
theorem Prepared.of_withReal (h : Prepared rule base v scope reals r f) (framed : base.Framed)
    (hr : r.withReal f n = .ok r') :
    (∃ reals', Prepared rule base v scope reals' r' f) ∧ r'.phi? = r.phi? := by
  obtain ⟨b, record, -, hcontains, -, rfl⟩ := withReal_ok hr
  rw [h.shape.contains] at hcontains
  have hb := (FlowGraph.mem_preorder framed.closed framed.entry).2 hcontains
  split
  · exact ⟨⟨reals, h⟩, rfl⟩
  · exact ⟨⟨_, (h.noteDefinition hcontains).noteReal hb fun hd =>
      mem_noteDefinition.2 (.inl ⟨rfl, h.defines hd⟩)⟩, funext fun c => by simp⟩

/-- What the blocks list of a variable's phis are the phis on its roster, as long as the graph had
none of the variable. -/
theorem Listing.phisOf_eq (hl : Listing base r f) (h : Prepared rule base v scope reals r f)
    (hbase : ∀ n ∈ base.statements b, f.tree.phiVar n ≠ .ok v) :
    f.phisOf v b = (r.phi? b).toList := by
  have hnil {ns : List NodeId} (hns : ns ⊆ base.statements b) :
      ns.filter (fun n => f.tree.phiVar n = .ok v) = [] :=
    List.filter_eq_nil_iff.2 fun n hn => by simpa using hbase n (hns hn)
  rw [FlowGraph.phisOf, hl.lists, List.filter_append, List.filter_append,
    hnil (List.take_subset _ _), hnil (List.drop_subset _ _), List.nil_append, List.append_nil,
    List.filter_eq_self]
  intro n hn
  obtain ⟨p, hp⟩ := h.phi b n (Option.mem_toList.1 hn)
  simpa using hp.holds.phiVar

/-- A roster with one record for each block finds each of them. -/
theorem record?_of_mem {record : BlockRecord} (nodup : (r.records.map BlockRecord.block).Nodup)
    (hmem : record ∈ r.records) : r.record? record.block = some record := by
  obtain ⟨found, hfound⟩ : ∃ found, r.record? record.block = some found :=
    Option.isSome_iff_exists.1 (List.find?_isSome.2 ⟨record, hmem, by simp⟩)
  obtain rfl := List.inj_on_of_nodup_map nodup (mem_of_record? hfound) hmem
    (block_of_record? hfound)
  exact hfound

theorem phis_eq_of_nodup (nodup : (r.records.map BlockRecord.block).Nodup) :
    r.phis = (r.records.map BlockRecord.block).filterMap r.phi? := by
  rw [phis, List.filterMap_map]
  refine List.filterMap_congr fun record hmem => ?_
  rw [Function.comp_apply, phi?, record?_of_mem nodup hmem, Option.bind_some]

/-- The phis of a roster are listed by the preorder of their blocks. -/
theorem Prepared.phis_eq (h : Prepared rule base v scope reals r f) (nodup : base.preorder.Nodup) :
    r.phis = base.preorder.flatMap fun b => (r.phi? b).toList := by
  rw [← h.blocks] at nodup ⊢
  rw [phis_eq_of_nodup nodup, List.filterMap_eq_flatMap_toList]

end Roster

namespace RosterEdit

open Roster

variable {base : FlowGraph} {v : Var} {asked : BlockId → List PhiKind} {b : BlockId}
  {s s' : Recorded (Bench Roster)}

/-- A roster and its graph after requests of which `asked` is what is due. -/
structure Serves (base : FlowGraph) (v : Var) (asked : BlockId → List PhiKind) (s : Bench Roster) :
    Prop where
  prepared : ∃ reals, Prepared Requested base v (fun _ _ => False) reals s.own s.flow
  listing : Listing base s.own s.flow
  kinds : ∀ b, base.contains b = true → PhiKind.Highest (asked b) (s.own.kindAt? s.flow b)

/-- Where work on a roster leads to that serves what is asked for from now on. -/
abbrev Leaves (base : FlowGraph) (v : Var) (asked : BlockId → List PhiKind)
    (s s' : Recorded (Bench Roster)) : Prop :=
  Serves base v asked s'.value ∧ Advances s.value s'.value

theorem Serves.leaves_self (h : Serves base v asked s.value) {asked' : BlockId → List PhiKind}
    (hsame : ∀ b, base.contains b = true → asked' b = asked b) : Leaves base v asked' s s :=
  ⟨⟨h.prepared, h.listing, fun b hb => hsame b hb ▸ h.kinds b hb⟩, .of_eq rfl rfl⟩

theorem Serves.leaves_of_eq (h : Serves base v asked s.value)
    (hprepared : ∃ reals, Prepared Requested base v
      (fun _ _ => False) reals s'.value.own s.value.flow)
    (hflow : s'.value.flow = s.value.flow) (hphi : s'.value.own.phi? = s.value.own.phi?) :
    Leaves base v asked s s' := by
  refine ⟨⟨hflow ▸ hprepared, h.listing.congr hphi (by rw [hflow]), fun b hb => ?_⟩,
    .of_eq hflow hphi⟩
  rw [kindAt?, hphi, hflow]
  exact h.kinds b hb

theorem after_askRoster_of_error {α β : Type} {f : Roster → FlowGraph → Except Fault α}
    {g : α → RosterEdit β} {e : Fault} (h : f s.value.own s.value.flow = .error e) :
    (askRoster f >>= g).after s = s :=
  after_of_error (bind_error.2 (.inl (ask_error.2 ⟨h, rfl⟩)))

section place

variable {kind : PhiKind} {make : NodeId → Edit Tree NodeId}

/-- A phi is not placed outside the graph. -/
theorem after_place_outside (hb : s.value.flow.contains b = false) :
    (place kind b make).after s = s := by
  obtain ⟨e, he⟩ := recordAt_error s.value.own hb
  have hphi : s.value.own.phiAt s.value.flow b = .error e := by simp [phiAt, he, bind, Except.bind]
  exact after_of_error (bind_error.2 (.inl (bind_error.2 (.inl (ask_error.2 ⟨hphi, rfl⟩)))))

theorem place_leaves (framed : base.Framed) (hb : base.contains b = true)
    (h : Serves base v asked s.value) (hmake : Makes Requested base v kind b make)
    (hmakes : ∀ t target, t.Loose v target → Succeeds (make target) t) :
    Yields (place kind b make) s fun _ s' =>
      Leaves base v (fun c => if c = b then asked c ++ [kind] else asked c) s s' := by
  obtain ⟨reals, hprepared⟩ := h.prepared
  refine (place_succeeds framed hb hprepared h.listing hmake hmakes).of_ok
    fun added s' hplace _ => ?_
  obtain ⟨hprepared', hlisting, hplaces⟩ := place_ok hplace hprepared h.listing hmake
  refine ⟨⟨⟨reals, hprepared'⟩, hlisting, fun c hc => ?_⟩, hplaces.advances⟩
  rw [hplaces.kinds]
  by_cases hcb : c = b
  · rw [if_pos hcb, if_pos hcb, hcb]
    exact (h.kinds b hb).over kind
  · rw [if_neg hcb, if_neg hcb]
    exact h.kinds c hc

end place

section requests

variable (framed : base.Framed) (h : Serves base v asked s.value)

include framed h

theorem addReal_leaves (n : NodeId) : Leaves base v asked s ((addReal n).after s) := by
  obtain ⟨reals, hprepared⟩ := h.prepared
  cases hr : s.value.own.withReal s.value.flow n with
  | error e =>
    rw [show (addReal n).after s = s from after_askRoster_of_error hr]
    exact h.leaves_self fun _ _ => rfl
  | ok r =>
    obtain ⟨hprepared', hphi⟩ := hprepared.of_withReal framed hr
    rw [show (addReal n).after s = (Bench.modifyOwn fun _ => r).after s from
      after_bind_of_ok (askRoster_ok.2 ⟨hr, rfl⟩)]
    exact h.leaves_of_eq hprepared' rfl hphi

omit framed in
theorem addDefiningBlock_leaves (b : BlockId) :
    Leaves base v asked s ((addDefiningBlock b).after s) := by
  obtain ⟨reals, hprepared⟩ := h.prepared
  cases hr : s.value.own.withDefiningBlock s.value.flow b with
  | error e =>
    rw [show (addDefiningBlock b).after s = s from after_askRoster_of_error hr]
    exact h.leaves_self fun _ _ => rfl
  | ok r =>
    rw [show (addDefiningBlock b).after s = (Bench.modifyOwn fun _ => r).after s from
      after_bind_of_ok (askRoster_ok.2 ⟨hr, rfl⟩)]
    simp only [withDefiningBlock, Except.bind_eq_ok] at hr
    obtain ⟨record, hrecord, hr⟩ := hr
    obtain rfl := Except.pure_eq_ok.1 hr
    obtain ⟨-, hcontains, -⟩ := recordAt_ok.1 hrecord
    rw [hprepared.shape.contains] at hcontains
    exact h.leaves_of_eq ⟨reals, hprepared.note hcontains⟩ rfl
      (funext fun _ => phi?_noteDefiningBlock)

theorem addJoinPhi_leaves (b : BlockId) : Leaves base v
    (fun c => if b = c then asked c ++ [.joining] else asked c) s ((addJoinPhi b).after s) := by
  obtain ⟨reals, hprepared⟩ := h.prepared
  rw [show (addJoinPhi b).after s = (place .joining b fun target =>
    Tree.newJoinPhi target b (s.value.flow.preds b)).after s from rfl]
  cases hb : base.contains b with
  | false =>
    rw [after_place_outside (by rwa [hprepared.shape.contains])]
    exact h.leaves_self fun c hc => if_neg fun he => by simp [← he, hb] at hc
  | true =>
    obtain ⟨_, s', hrun, hleaves⟩ := place_leaves framed hb h
      (makes_join hprepared.shape fun _ hkeys => ⟨rfl, hkeys⟩) fun _ _ hloose =>
        Tree.newJoinPhi_succeeds hloose b _
    rw [after_of_ok hrun]
    simpa only [eq_comm] using hleaves

theorem addCatchPhi_leaves (b : BlockId) : Leaves base v
    (fun c => if b = c ∧ v.isLocal then asked c ++ [.catching] else asked c) s
    ((addCatchPhi b).after s) := by
  obtain ⟨reals, hprepared⟩ := h.prepared
  rw [show (addCatchPhi b).after s = (if !s.value.own.var.isLocal then pure false
    else place .catching b Tree.newCatchPhi : RosterEdit Bool).after s from rfl, hprepared.var]
  cases hlocal : v.isLocal with
  | false => exact h.leaves_self fun c _ => if_neg (by simp)
  | true =>
    simp only [Bool.not_true, Bool.false_eq_true, if_false, and_true]
    cases hb : base.contains b with
    | false =>
      rw [after_place_outside (by rwa [hprepared.shape.contains])]
      exact h.leaves_self fun c hc => if_neg fun he => by simp [← he, hb] at hc
    | true =>
      obtain ⟨_, s', hrun, hleaves⟩ := place_leaves framed hb h (makes_catch fun _ => hlocal)
        fun _ _ hloose => Tree.newCatchPhi_succeeds hloose
      rw [after_of_ok hrun]
      simpa only [eq_comm] using hleaves

theorem addReturnPhis_leaves (id : SubroutineId) : Leaves base v
    (fun c => if c ∈ (base.subroutine? id).elim [] Subroutine.returnBlocks then
      asked c ++ [.returning] else asked c) s ((addReturnPhis id).after s) := by
  obtain ⟨reals, hprepared⟩ := h.prepared
  cases hsub : base.subroutine? id with
  | none =>
    have hask : s.value.flow.subroutine id = .error (.violation (.unknownSubroutine id)) := by
      rw [FlowGraph.subroutine, hprepared.shape.subroutine?, hsub]
    rw [show (addReturnPhis id).after s = s from after_askRoster_of_error hask]
    exact h.leaves_self fun c _ => if_neg (by simp)
  | some sub =>
    obtain ⟨_, s', hrun, hleaves⟩ : Yields (sub.returnBlocks.filterM fun b =>
        place .returning b fun target => Tree.newReturnPhi target id (sub.callsReturningTo b)) s
        fun _ s' => Leaves base v
          (fun c => if c ∈ sub.returnBlocks then asked c ++ [.returning] else asked c) s s' := by
      refine Yields.filterM (fun before m => Leaves base v
        (fun c => if c ∈ before then asked c ++ [.returning] else asked c) s m)
        (h.leaves_self fun c _ => by simp) ?_
      rintro before b after m hsplit ⟨hm, hadvances⟩
      have hb : b ∈ sub.returnBlocks := by simp [hsplit]
      have hfirst : b ∉ before := by
        have hnodup := nodup_firstOccurrences (sub.paths.map Prod.snd)
        rw [show firstOccurrences _ = before ++ b :: after from hsplit, List.nodup_middle] at hnodup
        exact fun hmem => (List.nodup_cons.1 hnodup).1 (List.mem_append_left _ hmem)
      refine (place_leaves framed
        (framed.contains_returnBlock (List.mem_of_getElem? hsub) hb) hm
        (makes_return fun _ hkeys => ⟨sub, hsub, hb, hkeys⟩) fun _ _ hloose =>
          Tree.newReturnPhi_succeeds hloose _ _).mono fun _ m' hm' => ⟨?_, hadvances.trans hm'.2⟩
      refine ⟨hm'.1.prepared, hm'.1.listing, fun c hc => ?_⟩
      have hkinds := hm'.1.kinds c hc
      by_cases hcb : c = b
      · simpa [hcb, hfirst] using hkinds
      · simpa [hcb] using hkinds
    have hask : s.value.flow.subroutine id = .ok sub := by
      rw [FlowGraph.subroutine, hprepared.shape.subroutine?, hsub]
    rw [show (addReturnPhis id).after s = _ from
      (after_bind_of_ok (askRoster_ok.2 ⟨hask, rfl⟩)).trans (after_of_ok hrun)]
    exact hleaves

theorem removePhi_leaves (b : BlockId) : Leaves base v
    (fun c => if b = c then [] else asked c) s ((removePhi b).after s) := by
  obtain ⟨reals, hprepared⟩ := h.prepared
  cases hb : base.contains b with
  | false =>
    obtain ⟨e, he⟩ := recordAt_error s.value.own (b := b) (f := s.value.flow)
      (by rwa [hprepared.shape.contains])
    rw [show (removePhi b).after s = s from after_askRoster_of_error he]
    exact h.leaves_self fun c hc => if_neg fun he => by simp [← he, hb] at hc
  | true =>
    obtain ⟨_, s', hrun, -⟩ := removePhi_succeeds framed hb hprepared
    obtain ⟨hprepared', hnone, hworks, hsheds⟩ := removePhi_ok hrun hprepared
    rw [after_of_ok hrun]
    refine ⟨⟨⟨reals, hprepared'⟩, h.listing.sheds hprepared hsheds, fun c hc => ?_⟩,
      hworks.advances⟩
    by_cases hcb : b = c
    · rw [if_pos hcb, ← hcb, kindAt?, hnone]
      rfl
    · rw [if_neg hcb, hworks.kinds c (Ne.symm hcb)]
      exact h.kinds c hc

theorem leaves_run (r : RosterRequest) :
    Leaves base v (fun b => r.ask base v b (asked b)) s (r.run.after s) := by
  cases r with
  | addReal n => exact addReal_leaves framed h n
  | addDefiningBlock b => exact addDefiningBlock_leaves h b
  | addJoinPhi b =>
    rw [RosterRequest.run, after_bind_pure]
    exact addJoinPhi_leaves framed h b
  | addCatchPhi b =>
    rw [RosterRequest.run, after_bind_pure]
    exact addCatchPhi_leaves framed h b
  | addReturnPhis id =>
    rw [RosterRequest.run, after_bind_pure]
    exact addReturnPhis_leaves framed h id
  | removePhi b =>
    rw [RosterRequest.run, after_bind_pure]
    exact removePhi_leaves framed h b

end requests

/-- Requests are served one after another. -/
theorem leaves_runs (framed : base.Framed) (rs : List RosterRequest)
    (h : Serves base v asked s.value) :
    Leaves base v (fun b => rs.foldl (RosterRequest.ask base v b) (asked b)) s
      (RosterRequest.runs rs s) := by
  induction rs generalizing asked s with
  | nil => exact h.leaves_self fun _ _ => rfl
  | cons r rest ih =>
    obtain ⟨hserves, hadvances⟩ := leaves_run framed h r
    obtain ⟨hserves', hadvances'⟩ := ih hserves
    exact ⟨hserves', hadvances.trans hadvances'⟩

/-- What the blocks list of the variable's phis are those on the roster. -/
theorem Serves.phisOf_eq {s : Bench Roster} (h : Serves base v asked s) (coherent : base.Coherent)
    (hnone : ∀ b, base.phisOf v b = []) (b : BlockId) :
    s.flow.phisOf v b = (s.own.phi? b).toList := by
  obtain ⟨reals, hprepared⟩ := h.prepared
  refine h.listing.phisOf_eq hprepared fun n hn hvar => ?_
  have hnode {m : NodeId} (hm : m.index < base.tree.size) :
      s.flow.tree.node? m = base.tree.node? m := by
    rw [Tree.node?, hprepared.kept.slot?_eq hm, Tree.node?]
  rw [Tree.phiVar_congr (hnode (coherent.inside b n hn)) fun p hp => hnode ?_] at hvar
  · exact List.filter_eq_nil_iff.1 (hnone b) n hn (by simpa using hvar)
  · obtain ⟨slot, hs, hslot⟩ := Tree.node?_eq_some.1 hp
    exact coherent.tree.inside n slot hs p.target (by simp [hslot, Node.children, Node.writes])

end RosterEdit

namespace Roster

open RosterEdit

/-- Whatever phis are asked for and removed on a roster of a variable that had none in its graph: a
block lists one phi of the variable at most, which is the one on the roster and of the highest kind
that was asked for there since the last removal. It has the operands that it needs. A phi that was
there before is there still, or it is gone with its target and its operands. -/
theorem phis_of_requests {input f : FlowGraph} {occurrence : NodeId} {r : Roster}
    (made : input.Made)
    (hstart : start occurrence input = .ok r f) (hnone : ∀ b, input.phisOf r.var b = [])
    (events : List Event) (rs : List RosterRequest) :
    let s := (RosterRequest.runs rs ⟨⟨f, r⟩, events⟩).value
    (∀ b, s.flow.contains b = true → ∃ phi, s.own.phiAt s.flow b = .ok phi ∧
      s.flow.phisOf r.var b = phi.toList ∧
      PhiKind.Highest (RosterRequest.asked input r.var b rs) (phi.bind s.flow.tree.phiKind?) ∧
      ∀ n ∈ phi, ∃ p, s.flow.tree.HoldsPhi r.var n p (some b) ∧
        Requested s.flow r.var b p.inputs) ∧
    s.own.phiCount = (s.flow.preorder.flatMap (s.flow.phisOf r.var)).length ∧
    ∀ before after, rs = before ++ after →
      let old := (RosterRequest.runs before ⟨⟨f, r⟩, events⟩).value
      ∀ b, ∀ n ∈ old.flow.phisOf r.var b, ∀ p, old.flow.tree.node? n = some (.phi p) →
        n ∈ s.flow.phisOf r.var b ∨
          ∀ q ∈ Tree.HoldsPhi.nodes n p, s.flow.tree.isLive q = false := by
  intro s
  have coherent := made.coherent
  have framed := coherent.toFramed
  have hserves : Serves input r.var (fun _ => []) ⟨f, r⟩ := by
    obtain ⟨hready, hphi⟩ := start_ok hstart (varOf_of_start hstart) coherent.inside
    refine ⟨⟨_, hready.prepared⟩, hready.listing, fun b _ => ?_⟩
    rw [kindAt?, hphi]
    rfl
  have hruns (rs : List RosterRequest) := leaves_runs (s := ⟨⟨f, r⟩, events⟩) framed rs hserves
  obtain ⟨hs, -⟩ := hruns rs
  obtain ⟨reals, hprepared⟩ := hs.prepared
  have hphis := hs.phisOf_eq coherent hnone
  refine ⟨fun b hb => ⟨s.own.phi? b, ?_, hphis b, ?_, fun n hn => ?_⟩, ?_, ?_⟩
  · rw [hprepared.shape.contains] at hb
    exact hprepared.phiAt framed hb
  · rw [hprepared.shape.contains] at hb
    exact hs.kinds b hb
  · obtain ⟨p, hp⟩ := hprepared.phi b n hn
    exact ⟨p, hp.holds, hp.admitted.of_shape hprepared.shape⟩
  · rw [phiCount, hprepared.phis_eq (FlowGraph.nodup_preorder framed.closed framed.entry),
      hprepared.shape.preorder, show s.flow.phisOf r.var = _ from funext hphis]
  · rintro before after rfl old b n hn p hp
    obtain ⟨hold, -⟩ := hruns before
    obtain ⟨reals', hprepared'⟩ := hold.prepared
    rw [hold.phisOf_eq coherent hnone, Option.mem_toList] at hn
    obtain ⟨-, hadvances⟩ := leaves_runs framed after hold
    have hlast : RosterRequest.runs (before ++ after) ⟨⟨f, r⟩, events⟩ =
        RosterRequest.runs after (RosterRequest.runs before ⟨⟨f, r⟩, events⟩) := List.foldl_append
    rw [← hlast] at hadvances
    rcases hadvances.phi hn (hprepared'.newPhi hn hp).holds with ⟨hn', -⟩ | hgone
    · rw [hphis]
      exact .inl (Option.mem_toList.2 hn')
    · exact .inr fun q hq => by simp [Tree.isLive, s, hgone q hq]

/-- A phi behind a subroutine takes the place of one at a join, which goes with all that it
owned. -/
theorem callOnce_phis_of_requests : FlowGraph.callOnce.Made ∧
    Yields (start ⟨0⟩) FlowGraph.callOnce fun r f =>
      (∀ b, FlowGraph.callOnce.phisOf r.var b = []) ∧
        let old := (RosterRequest.runs [.addJoinPhi ⟨1⟩] ⟨⟨f, r⟩, []⟩).value
        let s := (RosterRequest.runs [.addJoinPhi ⟨1⟩, .addReturnPhis ⟨0⟩] ⟨⟨f, r⟩, []⟩).value
        old.flow.phisOf r.var ⟨1⟩ = [⟨8⟩] ∧ s.flow.phisOf r.var ⟨1⟩ = [⟨11⟩] ∧
          s.own.phiAt s.flow ⟨1⟩ = .ok (some ⟨11⟩) ∧
          ∀ p, old.flow.tree.node? ⟨8⟩ = some (.phi p) →
            ∀ q ∈ Tree.HoldsPhi.nodes ⟨8⟩ p, s.flow.tree.isLive q = false := by
  have made : FlowGraph.callOnce.Made := ⟨0, _, rfl⟩
  have hempty : FlowGraph.callOnce.placedPhis = 0 := by decide +kernel
  obtain ⟨r, f, hstart, hold, hnew, hblock⟩ : Yields (start ⟨0⟩) FlowGraph.callOnce fun r f =>
      let old := (RosterRequest.runs [.addJoinPhi ⟨1⟩] ⟨⟨f, r⟩, []⟩).value
      let s := (RosterRequest.runs [.addJoinPhi ⟨1⟩, .addReturnPhis ⟨0⟩] ⟨⟨f, r⟩, []⟩).value
      old.flow.phisOf r.var ⟨1⟩ = [⟨8⟩] ∧ s.flow.phisOf r.var ⟨1⟩ = [⟨11⟩] ∧
        s.flow.contains ⟨1⟩ = true := by
    decide +kernel
  have hnone := FlowGraph.phisOf_eq_nil made.coherent hempty r.var
  obtain ⟨hphis, -, hgone⟩ :=
    phis_of_requests made hstart hnone [] [.addJoinPhi ⟨1⟩, .addReturnPhis ⟨0⟩]
  refine ⟨made, r, f, hstart, hnone, hold, hnew, ?_, fun p hp => ?_⟩
  · obtain ⟨phi, hphi, hlist, -⟩ := hphis ⟨1⟩ hblock
    rw [hnew] at hlist
    rw [hphi, show phi = some ⟨11⟩ from Option.mem_toList.1 (by simp [← hlist])]
  · refine (hgone [.addJoinPhi ⟨1⟩] [.addReturnPhis ⟨0⟩] rfl ⟨1⟩ ⟨8⟩ ?_ p hp).resolve_left ?_
    · simp [hold]
    · simp [hnew]

end Roster

end MethodFlow
