import MethodFlow.Proofs.Flow.Evolution
import MethodFlow.Proofs.Ssa.Roster
import MethodFlow.Ssa.Conversion

/-!
What the steps of a conversion make of the graph, whether they succeed or not. They are made of
operations on the graph, so the graph stays in order.
-/

namespace MethodFlow

open Edit

namespace Bench

variable {τ υ α : Type} {R : FlowGraph → FlowGraph → Prop} {T : Tree → Tree → Prop}

/-- The graph is led along `R`, whatever is kept about it. -/
def Along (R : FlowGraph → FlowGraph → Prop) (b b' : Bench τ) : Prop := R b.flow b'.flow

instance [IsPreorder FlowGraph R] : IsPreorder (Bench τ) (Bench.Along R) where
  refl b := Std.Refl.refl (r := R) b.flow
  trans b b' b'' := IsTrans.trans (r := R) b.flow b'.flow b''.flow

theorem moves_liftFlow {x : Edit FlowGraph α} (hx : Moves R x) :
    Moves (Recorded.Along (Bench.Along R)) (liftM x : Edit (Recorded (Bench τ)) α) := by
  have hflow : Moves (Bench.Along R) (liftM x : Edit (Bench τ) α) := hx.within fun _ _ h => h
  exact hflow.quietly

theorem moves_modifyOwn [IsPreorder FlowGraph R] (f : τ → τ) :
    Moves (Recorded.Along (Bench.Along R)) (modifyOwn f) := fun r =>
  Std.Refl.refl (r := R) r.value.flow

theorem moves_onGraph {x : Edit (Recorded FlowGraph) α} (hx : Moves (Recorded.Along R) x) :
    Moves (Recorded.Along (Bench.Along R)) (onGraph x : Edit (Recorded (Bench τ)) α) :=
  hx.within fun _ _ h => h

theorem moves_onTree {x : Edit (Recorded Tree) α} (hx : Moves (Recorded.Along T) x)
    (hT : ∀ (f : FlowGraph) (tree : Tree), T f.tree tree → R f { f with tree }) :
    Moves (Recorded.Along (Bench.Along R)) (onTree x : Edit (Recorded (Bench τ)) α) :=
  hx.within fun r s h => hT r.value.flow s.value h

theorem moves_beside {start : υ} {x : Edit (Recorded (Bench υ)) α}
    (hx : Moves (Recorded.Along (Bench.Along R)) x) :
    Moves (Recorded.Along R) (beside start x) := by
  intro r
  have hrun := hx ⟨⟨r.value, start⟩, r.events⟩
  rw [Edit.after, beside]
  rw [Edit.after] at hrun
  cases hx : x ⟨⟨r.value, start⟩, r.events⟩ <;> rw [hx] at hrun <;> exact hrun

theorem moves_onPart [IsPreorder FlowGraph R] {part : τ → Option υ} {restore : τ → υ → τ}
    {absent : α} {x : Edit (Recorded (Bench υ)) α} (hx : Moves (Recorded.Along (Bench.Along R)) x) :
    Moves (Recorded.Along (Bench.Along R)) (onPart part restore absent x) := by
  intro r
  rw [Edit.after, onPart]
  cases part r.value.own with
  | none => exact Std.Refl.refl (r := R) r.value.flow
  | some u =>
    have hpart : Moves (Recorded.Along (Bench.Along R)) (Edit.within
        (fun r : Recorded (Bench τ) => ⟨⟨r.value.flow, u⟩, r.events⟩)
        (fun r s => ⟨⟨s.value.flow, restore r.value.own s.value.own⟩, s.events⟩) x) :=
      hx.within fun _ _ h => h
    exact hpart r

end Bench

open FlowGraph (Evolves)

section rosters

/-- What is done to the graph leads along `R`, whatever is kept about it. -/
abbrev Leads (R : FlowGraph → FlowGraph → Prop) {τ α : Type}
    (x : Edit (Recorded (Bench τ)) α) : Prop :=
  Moves (Recorded.Along (Bench.Along R)) x

section placing

/-- What is done to a graph while a variable gets its phis leads along `R`, and what is done to its
tree alone along `T`. -/
structure Placing (T : Tree → Tree → Prop) (R : FlowGraph → FlowGraph → Prop) : Prop where
  withTree : ∀ (f : FlowGraph) (tree : Tree), T f.tree tree → R f { f with tree }
  useLike : ∀ n, Moves T (Tree.useLike n)
  newJoinPhi : ∀ target b preds, Moves T (Tree.newJoinPhi target b preds)
  newCatchPhi : ∀ target, Moves T (Tree.newCatchPhi target)
  newReturnPhi : ∀ target s calls, Moves T (Tree.newReturnPhi target s calls)
  prependStatement : ∀ b n, Moves R (FlowGraph.prependStatement b n)
  cleanupNode : ∀ n, Moves R (FlowGraph.cleanupNode n)

theorem Placing.evolves : Placing Tree.Evolves Evolves where
  withTree _ _ := FlowGraph.evolves_withTree
  useLike n := Tree.Grows.moves_evolves (Tree.moves_useLike n)
  newJoinPhi target b preds :=
    Tree.Grows.moves_evolves (Tree.Builds.making.moves_newJoinPhi target b preds)
  newCatchPhi target := Tree.Grows.moves_evolves (Tree.Builds.making.moves_newCatchPhi target)
  newReturnPhi target s calls :=
    Tree.Grows.moves_evolves (Tree.Builds.making.moves_newReturnPhi target s calls)
  prependStatement := FlowGraph.moves_prependStatement
  cleanupNode := FlowGraph.moves_cleanupNode

variable {T : Tree → Tree → Prop} {R : FlowGraph → FlowGraph → Prop} [IsPreorder FlowGraph R]
  (hp : Placing T R)

theorem RosterEdit.moves_askRoster {α : Type} (f : Roster → FlowGraph → Except Fault α) :
    Leads R (askRoster f) := .ask _

include hp

theorem Roster.moves_start (n : NodeId) : Moves R (Roster.start n) :=
  (Moves.ask _).bind fun _ => ((hp.useLike n).within hp.withTree).bind fun _ =>
    Moves.get.bind fun _ => .pure _

omit [IsPreorder FlowGraph R] in
theorem Placing.liftTree {τ α : Type} {x : Edit Tree α} (hx : Moves T x) :
    Leads R (liftM x : Edit (Recorded (Bench τ)) α) :=
  Bench.moves_liftFlow (x := (liftM x : Edit FlowGraph α)) (hx.within hp.withTree)

namespace RosterEdit

omit hp in
theorem moves_removePhi (hclean : ∀ n, Moves R (FlowGraph.cleanupNode n)) (b : BlockId) :
    Leads R (removePhi b) := by
  refine (moves_askRoster _).bind fun record => ?_
  cases record.phi with
  | none => exact .pure _
  | some phi =>
    refine (Bench.moves_modifyOwn _).bind fun _ => Moves.get.bind fun s => Moves.ite (.pure _) ?_
    exact (Moves.report _).bind fun _ =>
      (Bench.moves_liftFlow (hclean phi)).bind fun _ => .pure _

theorem moves_makeRoom (kind : PhiKind) (b : BlockId) : Leads R (makeRoom kind b) := by
  refine (moves_askRoster _).bind fun found => ?_
  cases found with
  | none => exact .pure _
  | some existing =>
    refine Moves.get.bind fun s => ?_
    cases s.value.flow.tree.phiKind? existing with
    | none => exact .throw _
    | some occupant =>
      exact Moves.ite (.pure _) ((Moves.report _).bind fun _ =>
        (moves_removePhi hp.cleanupNode b).bind fun _ => .pure _)

theorem moves_place (kind : PhiKind) (b : BlockId) {make : NodeId → Edit Tree NodeId}
    (hmake : ∀ target, Moves T (make target)) : Leads R (place kind b make) := by
  refine (moves_makeRoom hp kind b).bind fun room => Moves.ite (.pure _) ?_
  refine Moves.get.bind fun s => (hp.liftTree (hp.useLike _)).bind fun target =>
    (hp.liftTree (hmake target)).bind fun phi => ?_
  refine (Bench.moves_liftFlow (hp.prependStatement b phi)).bind fun _ => ?_
  exact (moves_askRoster _).bind fun _ => (Bench.moves_modifyOwn _).bind fun _ =>
    (Moves.report _).bind fun _ => .pure _

theorem moves_addJoinPhi (b : BlockId) : Leads R (addJoinPhi b) :=
  Moves.get.bind fun _ => moves_place hp _ b fun target => hp.newJoinPhi target b _

theorem moves_addCatchPhi (b : BlockId) : Leads R (addCatchPhi b) :=
  Moves.get.bind fun _ => Moves.ite (.pure _) (moves_place hp _ b hp.newCatchPhi)

theorem moves_addReturnPhis (s : SubroutineId) : Leads R (addReturnPhis s) :=
  (moves_askRoster _).bind fun _ => .filterM (fun b => moves_place hp _ b fun target =>
    hp.newReturnPhi target s _) _

omit hp in
theorem moves_addReal (n : NodeId) : Leads R (addReal n) :=
  (moves_askRoster _).bind fun _ => Bench.moves_modifyOwn _

omit hp in
theorem moves_anyReachesReal (blocks : List BlockId) : Leads R (anyReachesReal blocks) := by
  induction blocks with
  | nil => exact .pure _
  | cons b rest ih => exact (moves_askRoster _).bind fun found => Moves.ite (.pure _) ih

theorem moves_placeReturnPhis : Leads R placeReturnPhis :=
  Moves.get.bind fun _ => .forM (fun _ => (moves_anyReachesReal _).bind fun _ =>
    Moves.ite ((moves_addReturnPhis hp _).bind fun _ => .pure _) (.pure _)) _

theorem moves_placeCatchPhis : Leads R placeCatchPhis :=
  Moves.get.bind fun _ => .forM (fun b => (moves_askRoster _).bind fun _ =>
    Moves.ite ((moves_addCatchPhi hp b).bind fun _ => .pure _) (.pure _)) _

theorem moves_placeOnFrontier (pending : Pending) (b : BlockId) :
    Leads R (placeOnFrontier pending b) :=
  (moves_askRoster _).bind fun _ => Moves.ite (.pure _)
    ((moves_addJoinPhi hp b).bind fun _ => Moves.ite (.pure _) (.pure _))

theorem moves_placeJoinsTo (frontiers : List (List BlockId)) (limit : Nat) (pending : Pending) :
    Leads R (placeJoinsTo frontiers limit pending) := by
  induction limit generalizing pending with
  | zero => exact .pure _
  | succ limit ih =>
    unfold placeJoinsTo
    cases pending.blocks with
    | nil => exact .pure _
    | cons b rest => exact (Moves.foldlM (moves_placeOnFrontier hp) _ _).bind ih

theorem moves_prepare (o : SsaOptions) (t : DominatorTree) (frontiers : List (List BlockId))
    (group : Occurrences) : Leads R (prepare o t frontiers group) := by
  have hjoins : Leads R (placeJoinPhis frontiers) :=
    Moves.get.bind fun _ => moves_placeJoinsTo hp frontiers _ _
  have hcatches : Leads R (if o.catchPhis && group.var.isLocal then do
      placeCatchPhis
      placeJoinPhis frontiers
      else placeJoinPhis frontiers) :=
    Moves.ite ((moves_placeCatchPhis hp).bind fun _ => hjoins) hjoins
  have hreturns := Moves.ite (c := o.returnPhis)
    ((moves_placeReturnPhis hp).bind fun _ => hcatches) hcatches
  refine (Moves.forM moves_addReal _).bind fun _ => (moves_askRoster _).bind fun _ => ?_
  exact Moves.ite ((Moves.report _).bind fun _ => hreturns) hreturns

end RosterEdit

end placing

section collapsing

/-- What is done to a graph while phis are removed from it leads along `R`, and what is done to its
tree alone along `T`. -/
structure Collapsing (T : Tree → Tree → Prop) (R : FlowGraph → FlowGraph → Prop) : Prop where
  withTree : ∀ (f : FlowGraph) (tree : Tree), T f.tree tree → R f { f with tree }
  readCatchOperands : ∀ n, Moves (Recorded.Along T) (Tree.readCatchOperands n)
  setLink : ∀ n d, Moves T (Tree.setLink n d)
  cleanupNode : ∀ n, Moves R (FlowGraph.cleanupNode n)

theorem Collapsing.evolves : Collapsing Tree.Evolves Evolves where
  withTree _ _ := FlowGraph.evolves_withTree
  readCatchOperands := Tree.moves_readCatchOperands
  setLink n d := Tree.Grows.moves_evolves (Tree.moves_setLink n d)
  cleanupNode := FlowGraph.moves_cleanupNode

variable {T : Tree → Tree → Prop} {R : FlowGraph → FlowGraph → Prop} [IsPreorder FlowGraph R]
  (hc : Collapsing T R)

namespace RosterEdit

include hc

theorem moves_readOperands (phi : NodeId) : Leads R (readOperands phi) :=
  Moves.get.bind fun _ => Moves.ite
    (Bench.moves_onTree (hc.readCatchOperands phi) hc.withTree) (.ask _)

theorem moves_redirect (target replacement n : NodeId) :
    Leads R (redirect target replacement n) := by
  have hlink : Leads R (liftM (Tree.setLink n (some replacement)) : RosterEdit Unit) :=
    Bench.moves_liftFlow (x := (liftM (Tree.setLink n (some replacement)) : Edit FlowGraph Unit))
      ((hc.setLink n _).within hc.withTree)
  refine Moves.get.bind fun s => Moves.ite ?_ (.pure _)
  refine (Moves.ask _).bind fun _ => Moves.ite ?_ (.pure _)
  exact (Moves.ask _).bind fun _ => Moves.ite hlink (.pure _)

theorem moves_collapsePhi (phi : NodeId) : Leads R (collapsePhi phi) := by
  refine Moves.get.bind fun s => Moves.ite (.pure _) ?_
  refine Moves.bind ?_ fun found => ?_
  · exact (Moves.ask _).bind fun _ => (moves_readOperands hc phi).bind fun _ => .ask _
  cases found with
  | none => exact .pure _
  | some replacement =>
    refine (Moves.ask _).bind fun target => (moves_askRoster _).bind fun found =>
      (Moves.forM (moves_redirect hc target replacement) _).bind fun _ =>
        (Moves.ask _).bind fun b => ?_
    cases b with
    | none => exact .pure _
    | some b =>
      exact (moves_removePhi hc.cleanupNode b).bind fun removed =>
        Moves.ite ((Moves.report _).bind fun _ => .pure _) (.pure _)

theorem moves_collapseOnce : Leads R collapseOnce :=
  Moves.get.bind fun _ => (Moves.filterM (moves_collapsePhi hc) _).bind fun _ => .pure _

end RosterEdit

namespace FormEdit

theorem moves_onRoster {α : Type} (v : Var) (absent : α) {x : RosterEdit α} (hx : Leads R x) :
    Leads R (onRoster v absent x) := Bench.moves_onPart hx

theorem moves_removePhi (hclean : ∀ n, Moves R (FlowGraph.cleanupNode n)) (v : Var) (b : BlockId) :
    Leads R (removePhi v b) := moves_onRoster v false (RosterEdit.moves_removePhi hclean b)

include hc

theorem moves_collapseRound : Leads R collapseRound :=
  Moves.get.bind fun _ => (Moves.mapM (fun v =>
    moves_onRoster v 0 (RosterEdit.moves_collapseOnce hc)) _).bind fun _ => .pure _

theorem moves_collapseTo (limit : Nat) : Leads R (collapseTo limit) := by
  induction limit with
  | zero => exact .pure _
  | succ limit ih =>
    exact (moves_collapseRound hc).bind fun removed =>
      Moves.ite (.pure _) (ih.bind fun _ => .pure _)

theorem moves_collapse : Leads R collapse := Moves.get.bind fun _ => moves_collapseTo hc _

end FormEdit

end collapsing

end rosters

section numbers

/-- What is done to link the uses and the operands of a variable leads along `Q`. -/
structure Filling (Q : Bench Numbering → Bench Numbering → Prop) : Prop where
  useLike : ∀ n, Moves (Recorded.Along Q) (liftM (Tree.useLike n) : Renaming NodeId)
  setLink : ∀ n d, Moves (Recorded.Along Q) (liftM (Tree.setLink n d) : Renaming Unit)
  addCatchOperand : ∀ n operand,
    Moves (Recorded.Along Q) (liftM (Tree.addCatchOperand n operand) : Renaming Unit)

namespace Renaming

section filling

variable {Q : Bench Numbering → Bench Numbering → Prop} [IsPreorder (Bench Numbering) Q]

theorem moves_askFlow {α : Type} (f : FlowGraph → Except Fault α) :
    Moves (Recorded.Along Q) (askFlow f) := .ask _

variable (hq : Filling Q)

include hq

theorem moves_addLive (r : Roster) (phi d : NodeId) :
    Moves (Recorded.Along Q) (addLive r phi d) := by
  refine (moves_askFlow _).bind fun _ => Moves.ite ?_ (.pure _)
  exact (hq.useLike _).bind fun operand =>
    (hq.setLink operand _).bind fun _ => hq.addCatchOperand phi operand

theorem moves_fillCatch (r : Roster) (live : List NodeId) (entry : BlockId) :
    Moves (Recorded.Along Q) (fillCatch r live entry) := by
  refine (moves_askFlow _).bind fun found => ?_
  cases found with
  | none => exact .pure _
  | some phi =>
    exact Moves.get.bind fun _ => Moves.ite (.forM (moves_addLive hq r phi) _) (.pure _)

theorem moves_fillCatches (r : Roster) (b : BlockId) (live : List NodeId) :
    Moves (Recorded.Along Q) (fillCatches r b live) :=
  Moves.ite (.pure _) (Moves.get.bind fun _ => .forM (fun _ => moves_fillCatch hq r live _) _)

theorem moves_fillSuccessor (r : Roster) (b : BlockId) (current : Option NodeId) (succ : BlockId) :
    Moves (Recorded.Along Q) (fillSuccessor r b current succ) := by
  refine (moves_askFlow _).bind fun found => ?_
  cases found with
  | none => exact .pure _
  | some phi =>
    exact (moves_askFlow _).bind fun _ => .forM (fun operand => hq.setLink operand current) _

end filling

end Renaming

/-- What is done to the tree of a graph while a variable is renamed leads along `T`, and the graph
is led along `R`. -/
structure Relinking (T : Tree → Tree → Prop) (R : FlowGraph → FlowGraph → Prop) : Prop where
  withTree : ∀ (f : FlowGraph) (tree : Tree), T f.tree tree → R f { f with tree }
  useLike : ∀ n, Moves T (Tree.useLike n)
  setVersion : ∀ n version, Moves T (Tree.setVersion n version)
  setLink : ∀ n d, Moves T (Tree.setLink n d)
  addCatchOperand : ∀ n operand, Moves T (Tree.addCatchOperand n operand)

theorem Relinking.of_grows {R : FlowGraph → FlowGraph → Prop}
    (hR : ∀ (f : FlowGraph) (tree : Tree), f.tree.Grows tree → R f { f with tree }) :
    Relinking Tree.Grows R :=
  ⟨hR, Tree.moves_useLike, Tree.moves_setVersion, Tree.moves_setLink, Tree.moves_addCatchOperand⟩

theorem Relinking.evolves : Relinking Tree.Evolves Evolves where
  withTree _ _ := FlowGraph.evolves_withTree
  useLike n := Tree.Grows.moves_evolves (Tree.moves_useLike n)
  setVersion n version := Tree.Grows.moves_evolves (Tree.moves_setVersion n version)
  setLink n d := Tree.Grows.moves_evolves (Tree.moves_setLink n d)
  addCatchOperand n operand := Tree.Grows.moves_evolves (Tree.moves_addCatchOperand n operand)

variable {T : Tree → Tree → Prop} {R : FlowGraph → FlowGraph → Prop} (hr : Relinking T R)

namespace Renaming

include hr

theorem moves_liftTree {τ α : Type} {x : Edit Tree α} (hx : Moves T x) :
    Leads R (liftM x : Edit (Recorded (Bench τ)) α) :=
  Bench.moves_liftFlow (x := (liftM x : Edit FlowGraph α)) (hx.within hr.withTree)

theorem filling : Filling (Bench.Along R) :=
  ⟨fun n => moves_liftTree hr (hr.useLike n), fun n d => moves_liftTree hr (hr.setLink n d),
    fun n operand => moves_liftTree hr (hr.addCatchOperand n operand)⟩

variable [IsPreorder FlowGraph R]

theorem moves_number (v : Var) (d : NodeId) :
    Leads R (number v d) :=
  Moves.get.bind fun _ => (Bench.moves_modifyOwn _).bind fun _ =>
    (moves_liftTree hr (hr.setVersion d _)).bind fun _ => .report _

theorem moves_passReal (v : Var) (b : BlockId) (here : Reached) (n : NodeId) :
    Leads R (passReal v b here n) :=
  (moves_askFlow _).bind fun _ => Moves.ite ((moves_number hr v n).bind fun _ => .pure _)
    ((moves_liftTree hr (hr.setLink n _)).bind fun _ => (Moves.report _).bind fun _ => .pure _)

theorem moves_passPhi (r : Roster) (b : BlockId) (incoming : Option NodeId) :
    Leads R (passPhi r b incoming) := by
  refine (moves_askFlow _).bind fun found => ?_
  cases found with
  | none => exact .pure _
  | some phi =>
    exact (moves_askFlow _).bind fun target => (moves_number hr _ target).bind fun _ => .pure _

theorem moves_renameTo (r : Roster) (t : DominatorTree) (limit : Nat) (incoming : Option NodeId)
    (b : BlockId) : Leads R (renameTo r t limit incoming b) := by
  induction limit generalizing incoming b with
  | zero => exact .pure _
  | succ limit ih =>
    refine (moves_passPhi hr r b incoming).bind fun start => (moves_askFlow _).bind fun reals =>
      (Moves.foldlM (moves_passReal hr r.var b) _ _).bind fun reached => ?_
    refine (moves_fillCatches (filling hr) r b _).bind fun _ => Moves.get.bind fun _ => ?_
    exact (Moves.forM (moves_fillSuccessor (filling hr) r b _) _).bind fun _ => .forM (ih _) _

theorem moves_rename (r : Roster) (t : DominatorTree) :
    Leads R (rename r t) := moves_renameTo hr r t _ _ _

omit hr in
/-- Renaming moves no statements. -/
theorem graph_rename {r : Roster} {t : DominatorTree} {u : Unit} {s s' : Recorded (Bench Numbering)}
    (h : rename r t s = .ok u s') : s'.value.flow.graph = s.value.flow.graph := by
  have : IsPreorder FlowGraph fun f f' => f'.graph = f.graph :=
    { refl := fun _ => rfl, trans := fun _ _ _ h h' => h'.trans h }
  have hgraph : Relinking Tree.Grows fun f f' => f'.graph = f.graph := .of_grows fun _ _ _ => rfl
  exact (moves_rename hgraph r t).of_ok h

end Renaming

end numbers

namespace FlowGraph

variable {T T' : Tree → Tree → Prop} {R : FlowGraph → FlowGraph → Prop} [IsPreorder FlowGraph R]

theorem moves_convertVariable (hp : Placing T R) (hr : Relinking T' R) (o : SsaOptions)
    (t : DominatorTree) (frontiers : List (List BlockId)) (group : Occurrences) :
    Leads R (convertVariable o t frontiers group) := by
  unfold convertVariable
  cases group.nodes with
  | nil => exact .throw _
  | cons first rest =>
    refine (Bench.moves_liftFlow (Roster.moves_start hp first)).bind fun start =>
      (Bench.moves_onGraph (Bench.moves_beside
        (RosterEdit.moves_prepare hp o t frontiers group))).bind fun prepared => ?_
    exact (Renaming.moves_rename hr _ t).bind fun _ => .pure _

theorem moves_collect (o : SsaOptions) : Moves (Recorded.Along R) (collect o) := by
  refine Moves.get.bind fun r => (Moves.guard _ _).bind fun _ => ?_
  exact (Moves.forM (fun group => (Moves.forM (fun _ => .ask _) _).bind fun _ => .report _) _).bind
    fun _ => .pure _

theorem moves_toSsa (hp : Placing T R) (hr : Relinking T' R) {T'' : Tree → Tree → Prop}
    (hc : Collapsing T'' R) (o : SsaOptions) : Moves (Recorded.Along R) (toSsa o) := by
  refine (moves_collect o).bind fun groups => Moves.get.bind fun r =>
    (Bench.moves_beside (.mapM (moves_convertVariable hp hr o _ _) _)).bind fun converted => ?_
  exact Moves.ite ((Bench.moves_beside (FormEdit.moves_collapse hc)).bind fun _ => .pure _)
    (.pure _)

end FlowGraph

end MethodFlow
