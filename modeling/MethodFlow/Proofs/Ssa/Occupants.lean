import MethodFlow.Proofs.Ssa.PhiRequests

/-!
The places of a roster and the phis in them. A phi on the roster may be removed from its graph
without the roster being told. Its block has no phi then, but the roster goes on listing and
counting it, until another phi is placed at the block or the place is cleared.
-/

namespace MethodFlow

open Edit

namespace Tree

variable {t t' : Tree} {n m : NodeId} {lost : NodeId → Prop}

/-- A statement that is in use and owned by nothing. -/
def Stands (t : Tree) (n : NodeId) : Prop :=
  ∃ s, t.slot? n = some s ∧ s.node.isStatement = true ∧ s.parent = none

theorem Stands.isLive (h : t.Stands n) : t.isLive n = true := by
  obtain ⟨s, hs, -⟩ := h
  simp [Tree.isLive, hs]

theorem Stands.index_lt (h : t.Stands n) : n.index < t.size := by
  obtain ⟨s, hs, -⟩ := h
  exact index_lt_size hs

theorem Detached.not_stands (h : t.Detached n) : ¬t.Stands n := by
  rintro ⟨s, hs, hstatement, -⟩
  obtain ⟨s', hs', hexpression, -⟩ := h
  obtain rfl : s = s' := Option.some.inj (hs.symm.trans hs')
  simp [hstatement] at hexpression

/-- No statement that stood has fallen, those in `lost` aside. -/
structure Upholds (lost : NodeId → Prop) (t t' : Tree) : Prop where
  size : t.size ≤ t'.size
  stands : ∀ n, t.Stands n → lost n ∨ t'.Stands n

instance : IsPreorder Tree (Upholds lost) where
  refl _ := ⟨Nat.le_refl _, fun _ => .inr⟩
  trans _ _ _ h h' := ⟨h.size.trans h'.size, fun n hn => (h.stands n hn).elim .inl (h'.stands n)⟩

theorem upholds_put {s s' : Slot} (hs : t.slot? n = some s)
    (hkind : s'.node.isStatement = s.node.isStatement) (hparent : s'.parent = s.parent) :
    t.Upholds lost (t.put n s') := by
  refine ⟨(size_put s').ge, fun m ⟨sm, hsm, hstatement, hfree⟩ => .inr ?_⟩
  rw [Stands, slot?_put_of_slot hs]
  by_cases hm : m = n
  · obtain rfl : sm = s := Option.some.inj (hsm.symm.trans (hm ▸ hs))
    exact ⟨s', if_pos hm, hkind.trans hstatement, hparent.trans hfree⟩
  · exact ⟨sm, (if_neg hm).trans hsm, hstatement, hfree⟩

theorem upholds_push (t : Tree) (s : Slot) : t.Upholds lost (t.push s) := by
  refine ⟨by simp, fun m ⟨sm, hsm, hrest⟩ => .inr ⟨sm, ?_, hrest⟩⟩
  rw [slot?_push, if_neg (ne_next (index_lt_size hsm)), hsm]

/-- What is made takes over expressions only. -/
theorem upholds_making : Making (Upholds lost) where
  useLike _ := (Moves.ask _).bind fun _ t => upholds_push t _
  allocOwning node _ _ t := by
    rcases allocOwning_cases node t with ⟨e, he⟩ | ⟨t', hrun, -, hdetached, hsize, hslots⟩
    · rw [after_of_error he]
      exact Std.Refl.refl t
    · rw [after_of_ok hrun]
      have hpush : t.Upholds lost (t.push { node }) := upholds_push t _
      refine ⟨hpush.size.trans hsize.ge,
        fun m hm => (hpush.stands m hm).imp_right fun ⟨s, hs, hrest⟩ => ?_⟩
      have hchild : m ∉ node.children := fun hc => (hdetached m hc).not_stands hm
      exact ⟨s, by rw [hslots, if_neg hchild, hs], hrest⟩
  define _ := moves_modifyOccurrence_of_put fun _ _ _ hs ho =>
    upholds_put hs (by simp [ho, Node.isStatement]) rfl

theorem upholds_setBlock (n : NodeId) (block : Option BlockId) :
    Moves (Upholds lost) (setBlock n block) :=
  moves_modifySlot_of_put fun _ _ hs => upholds_put hs rfl rfl

/-- Whoever goes without its parent is the node that is removed. -/
theorem upholds_cleanup (n : NodeId) : Moves (Upholds (· = n)) (cleanup n) := by
  intro t
  have hclears := clears_cleanup t n
  refine ⟨hclears.prunes.1.ge, fun m ⟨s, hs, hstatement, hfree⟩ => ?_⟩
  rcases hclears.prunes.2 m with hsame | hgone
  · exact .inr ⟨s, hsame.trans hs, hstatement, hfree⟩
  · refine .inl ((hclears.up m s hs hgone).resolve_right ?_)
    rintro ⟨p, hp, -⟩
    simp [hfree] at hp

end Tree

namespace FlowGraph

theorem upholds_cleanupNode (n : NodeId) :
    Moves (OnTree (Tree.Upholds (· = n))) (cleanupNode n) := by
  have hclean := OnTree.moves_liftTree (Tree.upholds_cleanup n)
  have hremove : Moves (OnTree (Tree.Upholds (· = n))) (removeStatement n) :=
    OnTree.moves_removeStatement Tree.upholds_setBlock n
  exact Moves.get.bind fun _ => Moves.ite ((Moves.ask _).bind fun _ =>
    Moves.ite (hremove.bind fun _ => hclean) hclean) hclean

end FlowGraph

namespace Bench

variable {τ : Type} {T : Tree → Tree → Prop}

/-- Work on the graph that leaves the own data alone. -/
def Aside (T : Tree → Tree → Prop) (s s' : Bench τ) : Prop :=
  s'.own = s.own ∧ T s.flow.tree s'.flow.tree

instance [IsPreorder Tree T] : IsPreorder (Bench τ) (Aside T) where
  refl s := ⟨rfl, Std.Refl.refl s.flow.tree⟩
  trans _ _ _ h h' := ⟨h'.1.trans h.1, IsTrans.trans _ _ _ h.2 h'.2⟩

theorem aside_liftFlow {α : Type} {x : Edit FlowGraph α} (hx : Moves (FlowGraph.OnTree T) x) :
    Moves (Recorded.Along (Aside T)) (liftM x : Edit (Recorded (Bench τ)) α) := by
  have hflow : Moves (Aside T) (liftM x : Edit (Bench τ) α) := hx.within fun _ _ h => ⟨rfl, h⟩
  exact hflow.quietly

theorem aside_liftTree {α : Type} {x : Edit Tree α} (hx : Moves T x) :
    Moves (Recorded.Along (Aside T)) (liftM x : Edit (Recorded (Bench τ)) α) :=
  aside_liftFlow (x := (liftM x : Edit FlowGraph α)) (FlowGraph.OnTree.moves_liftTree hx)

end Bench

theorem Roster.blocks_setPhi (r : Roster) (b : BlockId) (phi : Option NodeId) :
    (r.setPhi b phi).records.map BlockRecord.block = r.records.map BlockRecord.block :=
  blocks_modifyRecord (g := fun record => { record with phi }) fun _ => rfl

namespace RosterEdit

open Roster

variable {start : Roster} {lost lost' : NodeId → Prop} {s s' : Bench Roster}
  {b : BlockId} {n : NodeId}

/-- A roster that was opened as `start`, with its graph. The phis in its places are in use, those in
`lost` aside. -/
structure Occupied (start : Roster) (lost : NodeId → Prop) (s : Bench Roster) : Prop where
  stamp : s.own.stamp = start.stamp
  blocks : s.own.records.map BlockRecord.block = start.records.map BlockRecord.block
  inside : ∀ b n, s.own.phi? b = some n → n.index < s.flow.tree.size
  once : ∀ b c n, s.own.phi? b = some n → s.own.phi? c = some n → b = c
  stands : ∀ b n, s.own.phi? b = some n → lost n ∨ s.flow.tree.Stands n

namespace Occupied

variable (h : Occupied start lost s)

include h

/-- Work on the graph may only fell statements that are not on the roster, or that are lost
anyway. -/
theorem aside (hs : Bench.Aside (Tree.Upholds lost') s s')
    (hlost : ∀ b n, s.own.phi? b = some n → lost' n → lost n) : Occupied start lost s' := by
  obtain ⟨hown, hupholds⟩ := hs
  refine ⟨hown ▸ h.stamp, hown ▸ h.blocks, fun b n hn => ?_, hown ▸ h.once, fun b n hn => ?_⟩
  · exact (h.inside b n (hown ▸ hn)).trans_le hupholds.size
  · rw [hown] at hn
    rcases h.stands b n hn with hgone | hstands
    · exact .inl hgone
    · exact (hupholds.stands n hstands).imp_left (hlost b n hn)

theorem mono (hlost : ∀ n, lost n → lost' n) : Occupied start lost' s :=
  { h with stands := fun b n hn => (h.stands b n hn).imp_left (hlost n) }

/-- What is noted about occurrences and definitions leaves the places alone. -/
theorem of_phi? {r : Roster} (hstamp : r.stamp = s.own.stamp)
    (hblocks : r.records.map BlockRecord.block = s.own.records.map BlockRecord.block)
    (hphi : ∀ b n, r.phi? b = some n → s.own.phi? b = some n) :
    Occupied start lost { s with own := r } where
  stamp := hstamp.trans h.stamp
  blocks := hblocks.trans h.blocks
  inside b n hn := h.inside b n (hphi b n hn)
  once b c n hb hc := h.once b c n (hphi b n hb) (hphi c n hc)
  stands b n hn := h.stands b n (hphi b n hn)

theorem note (b : BlockId) : Occupied start lost { s with own := s.own.noteDefiningBlock b } :=
  h.of_phi? (by rw [noteDefiningBlock_eq]) (by rw [noteDefiningBlock_eq]) fun c n hn => by
    simpa using hn

theorem noteReal (b : BlockId) (real : NodeId) :
    Occupied start lost { s with own := s.own.noteReal b real } :=
  h.of_phi? rfl (blocks_modifyRecord fun _ => rfl) fun c n hn => by simpa using hn

theorem clear (b : BlockId) : Occupied start lost { s with own := s.own.setPhi b none } := by
  refine h.of_phi? rfl (blocks_setPhi _ b none) fun c n hn => ?_
  by_cases hc : c = b
  · simp [hc] at hn
  · rwa [phi?_setPhi_of_ne hc] at hn

theorem enter (hn : s.flow.tree.Stands n) (hfresh : ∀ c, s.own.phi? c ≠ some n) :
    Occupied start lost { s with own := s.own.setPhi b (some n) } := by
  have hcases (c : BlockId) (m : NodeId) (hm : (s.own.setPhi b (some n)).phi? c = some m) :
      c = b ∧ m = n ∨ s.own.phi? c = some m := by
    by_cases hc : c = b
    · rw [phi?_setPhi, if_pos hc, Option.bind_eq_some_iff] at hm
      obtain ⟨_, -, hm⟩ := hm
      exact .inl ⟨hc, (Option.some.inj hm).symm⟩
    · exact .inr (phi?_setPhi_of_ne hc ▸ hm)
  refine ⟨h.stamp, (blocks_setPhi _ b (some n)).trans h.blocks, fun c m hm => ?_,
    fun c d m hc hd => ?_, fun c m hm => ?_⟩
  · rcases hcases c m hm with ⟨-, rfl⟩ | hm
    · exact hn.index_lt
    · exact h.inside c m hm
  · rcases hcases c m hc with ⟨rfl, rfl⟩ | hc <;> rcases hcases d m hd with ⟨hdb, hmn⟩ | hd
    · exact hdb.symm
    · exact absurd hd (hfresh d)
    · exact absurd (hmn ▸ hc) (hfresh c)
    · exact h.once c d m hc hd
  · rcases hcases c m hm with ⟨-, rfl⟩ | hm
    · exact .inr hn
    · exact h.stands c m hm

end Occupied

/-- Work that fells no phi on the roster. -/
def Respects (start : Roster) (lost : NodeId → Prop) (s s' : Bench Roster) : Prop :=
  Occupied start lost s → Occupied start lost s'

instance : IsPreorder (Bench Roster) (Respects start lost) where
  refl _ := id
  trans _ _ _ h h' := h' ∘ h

theorem respects_aside {α : Type} {x : RosterEdit α}
    (hx : Moves (Recorded.Along (Bench.Aside (Tree.Upholds fun _ => False))) x) :
    Moves (Recorded.Along (Respects start lost)) x :=
  fun s h => h.aside (hx s) fun _ _ _ => False.elim

/-- The place is cleared before the phi is removed. -/
theorem respects_removePhi (b : BlockId) :
    Moves (Recorded.Along (Respects start lost)) (removePhi b) := by
  intro s
  refine Moves.of_ask fun record hrecord => ?_
  obtain ⟨-, -, hr⟩ := recordAt_ok.1 hrecord
  cases hphi : record.phi with
  | none => exact Std.Refl.refl (r := Respects start lost) s.value
  | some phi =>
    intro h
    have hlisted : s.value.own.phi? b = some phi := phi?_eq_some.2 ⟨record, hr, hphi⟩
    let cleared : Recorded (Bench Roster) := ⟨⟨s.value.flow, s.value.own.setPhi b none⟩, s.events⟩
    refine (h.clear b).aside
      (Moves.get.bind (fun m => Moves.ite (.pure _) ((Moves.report _).bind fun _ =>
      (Bench.aside_liftFlow (FlowGraph.upholds_cleanupNode phi)).bind fun _ => .pure _)) cleared) ?_
    · rintro c n hn rfl
      by_cases hc : c = b
      · simp [hc] at hn
      · rw [phi?_setPhi_of_ne hc] at hn
        exact absurd (h.once c b n hn hlisted) hc

theorem respects_makeRoom (kind : PhiKind) (b : BlockId) :
    Moves (Recorded.Along (Respects start lost)) (makeRoom kind b) := by
  refine (Moves.ask _).bind fun found => ?_
  cases found with
  | none => exact .pure _
  | some existing =>
    refine Moves.get.bind fun s => ?_
    cases s.value.flow.tree.phiKind? existing with
    | none => exact .throw _
    | some occupant =>
      exact Moves.ite (.pure _)
        ((Moves.report _).bind fun _ => (respects_removePhi b).bind fun _ => .pure _)

section place

variable {kind : PhiKind} {make : NodeId → Edit Tree NodeId}

/-- A phi that is made stands, and it is newer than what is on the roster. -/
theorem respects_place (base : FlowGraph)
    (hmake : ∀ v, Makes (fun _ _ _ _ => True) base v kind b make)
    (hupholds : ∀ target, Moves (Tree.Upholds fun _ => False) (make target)) :
    Moves (Recorded.Along (Respects start lost)) (place kind b make) := by
  refine (respects_makeRoom kind b).bind fun room => Moves.ite (.pure _) fun s h => ?_
  have huse : Moves (Recorded.Along (Bench.Aside (Tree.Upholds fun _ => False)))
      (liftM (Tree.useLike s.value.own.prototype) : RosterEdit NodeId) :=
    Bench.aside_liftTree (Tree.upholds_making.useLike _)
  refine (Moves.of_first (R := Recorded.Along (Respects start lost)) (respects_aside huse s)
    fun target m₁ hrun₁ hm₁ => ?_) h
  have h₁ := hm₁ h
  obtain ⟨huse₁, -, -⟩ := Bench.liftTree_ok hrun₁
  obtain ⟨o, ho, -⟩ := Tree.useLike_ok.1 huse₁
  obtain ⟨-, hloose, -⟩ := Tree.useLike_loose huse₁ (Tree.varOf_ok.2 ⟨o, ho, rfl⟩)
  refine Moves.of_first (respects_aside (Bench.aside_liftTree (hupholds target)) m₁)
    fun phi m₂ hrun₂ hm₂ => ?_
  have h₂ := hm₂ h₁
  obtain ⟨hmake₂, -, hown₂⟩ := Bench.liftTree_ok hrun₂
  obtain ⟨p, -, -, hmade, -⟩ := hmake _ _ _ _ _ hloose hmake₂
  have hstands : m₂.value.flow.tree.Stands phi := ⟨_, hmade.holds.slot, rfl, rfl⟩
  have hfresh (c : BlockId) : m₂.value.own.phi? c ≠ some phi := fun hc =>
    absurd (h₁.inside c phi (hown₂ ▸ hc)) (Nat.not_lt.2 hmade.fresh)
  have hprepend : Moves (Recorded.Along (Bench.Aside (Tree.Upholds fun _ => False)))
      (liftM (FlowGraph.prependStatement b phi) : RosterEdit Unit) :=
    Bench.aside_liftFlow (FlowGraph.moves_prepend_of_insert
      (FlowGraph.OnTree.moves_insertStatement Tree.upholds_setBlock) b phi)
  refine Moves.of_first (respects_aside hprepend m₂) fun _ m₃ hrun₃ _ => ?_
  obtain ⟨hown₃, hupholds₃⟩ := hprepend.of_ok hrun₃
  refine Moves.of_ask fun _ _ h₃ => ?_
  exact (h₃.enter ((hupholds₃.stands phi hstands).resolve_left id) fun c => hown₃ ▸ hfresh c).note b

end place

theorem respects_addReal (real : NodeId) :
    Moves (Recorded.Along (Respects start lost)) (addReal real) := by
  intro s
  refine Moves.of_ask fun r hr h => ?_
  obtain ⟨b, record, -, -, -, rfl⟩ := withReal_ok hr
  split
  · exact h
  · unfold noteDefinition
    split
    · exact (h.note b).noteReal b real
    · exact h.noteReal b real

theorem respects_addDefiningBlock (b : BlockId) :
    Moves (Recorded.Along (Respects start lost)) (addDefiningBlock b) := by
  intro s
  refine Moves.of_ask fun r hr h => ?_
  simp only [withDefiningBlock, Except.bind_eq_ok] at hr
  obtain ⟨record, -, hr⟩ := hr
  obtain rfl := Except.pure_eq_ok.1 hr
  exact h.note b

/-- Whatever is asked of the roster, it fells no phi that stays on it. -/
theorem respects_run (r : RosterRequest) : Moves (Recorded.Along (Respects start lost)) r.run := by
  have hmaking : Tree.Making (Tree.Upholds fun _ => False) := Tree.upholds_making
  cases r with
  | addReal real => exact respects_addReal real
  | addDefiningBlock b => exact respects_addDefiningBlock b
  | addJoinPhi b =>
    refine Moves.bind (Moves.get.bind fun s => ?_) fun _ => .pure _
    exact respects_place s.value.flow (fun v => makes_join (.refl _) fun _ _ => trivial)
      fun target => hmaking.moves_newJoinPhi target b _
  | addCatchPhi b =>
    refine Moves.bind (Moves.get.bind fun s => Moves.ite (.pure _) ?_) fun _ => .pure _
    exact respects_place s.value.flow (fun v => makes_catch fun _ => trivial)
      hmaking.moves_newCatchPhi
  | addReturnPhis id =>
    refine Moves.bind (fun s => Moves.of_ask fun sub _ => Moves.filterM (fun b => ?_) _ s)
      fun _ => .pure _
    exact respects_place s.value.flow (fun v => makes_return fun _ _ => trivial)
      fun target => hmaking.moves_newReturnPhi target id _
  | removePhi b => exact (respects_removePhi b).bind fun _ => .pure _

end RosterEdit

/-- Work on a roster, and removals of nodes that the roster is not told of. -/
inductive Upkeep where
  | request (r : RosterRequest)
  | cleanup (n : NodeId)

namespace Upkeep

open Roster RosterEdit

variable {start : Roster} {lost : NodeId → Prop} {s : Recorded (Bench Roster)} {n : NodeId}

def run : Upkeep → RosterEdit Unit
  | request r => r.run
  | cleanup n => FlowGraph.cleanupNode n

def runs (ws : List Upkeep) (s : Recorded (Bench Roster)) : Recorded (Bench Roster) :=
  ws.foldl (fun s w => w.run.after s) s

/-- The roster is not told that a phi is removed that it lists. -/
def Lost (ws : List Upkeep) (s : Recorded (Bench Roster)) (n : NodeId) : Prop :=
  ∃ before after, ws = before ++ cleanup n :: after ∧ n ∈ (runs before s).value.own.phis

theorem sameShape_run (w : Upkeep) : Leads FlowGraph.SameShape w.run := by
  cases w with
  | request r => exact r.moves_run Asking.sameShape.placing
  | cleanup n => exact Bench.moves_liftFlow (Asking.sameShape.placing.cleanupNode n)

theorem sameShape_runs (ws : List Upkeep) (s : Recorded (Bench Roster)) :
    s.value.flow.SameShape (runs ws s).value.flow := by
  induction ws generalizing s with
  | nil => exact .refl _
  | cons w rest ih => exact (w.sameShape_run s).trans (ih _)

theorem mem_phis_of_phi? {r : Roster} {b : BlockId} (h : r.phi? b = some n) : n ∈ r.phis := by
  obtain ⟨record, hr, hn⟩ := phi?_eq_some.1 h
  exact List.mem_filterMap.2 ⟨record, mem_of_record? hr, hn⟩

/-- One step loses a phi at most. -/
theorem occupied_run (h : Occupied start lost s.value) (w : Upkeep) :
    Occupied start (fun n => lost n ∨ w = cleanup n ∧ n ∈ s.value.own.phis)
      (w.run.after s).value := by
  cases w with
  | request r => exact respects_run r s (h.mono fun _ => .inl)
  | cleanup n =>
    refine (h.mono fun _ => .inl).aside
      (Bench.aside_liftFlow (FlowGraph.upholds_cleanupNode n) s) ?_
    rintro b m hm rfl
    exact .inr ⟨rfl, mem_phis_of_phi? hm⟩

theorem occupied_runs (ws : List Upkeep) (h : Occupied start lost s.value) :
    Occupied start (fun n => lost n ∨ Lost ws s n) (runs ws s).value := by
  induction ws generalizing lost s with
  | nil => exact h.mono fun _ => .inl
  | cons w rest ih =>
    refine (ih (occupied_run h w)).mono fun n hn => ?_
    rcases hn with (hn | ⟨rfl, hlisted⟩) | ⟨before, after, rfl, hlisted⟩
    · exact .inl hn
    · exact .inr ⟨[], rest, rfl, hlisted⟩
    · exact .inr ⟨w :: before, after, rfl, hlisted⟩

end Upkeep

namespace Roster

open RosterEdit

section occupants

variable {r : Roster} {f : FlowGraph} {b : BlockId}

/-- The phi in the place of a block, if it is in use. -/
def occupant? (r : Roster) (f : FlowGraph) (b : BlockId) : Option NodeId :=
  (r.phi? b).filter f.tree.isLive

theorem phiAt_of_stamp (hstamp : f.stamp = r.stamp) (hb : f.contains b = true)
    (hlisted : b ∈ r.records.map BlockRecord.block) : r.phiAt f b = .ok (r.occupant? f b) := by
  obtain ⟨found, hmem, hblock⟩ := List.mem_map.1 hlisted
  obtain ⟨record, hrecord⟩ : ∃ record, r.record? b = some record :=
    Option.isSome_iff_exists.1 (List.find?_isSome.2 ⟨found, hmem, by simpa using hblock⟩)
  refine phiAt_ok.2 ⟨record, recordAt_ok.2 ⟨hstamp, hb, hrecord⟩, ?_⟩
  rw [occupant?, phi?, hrecord, Option.bind_some]

variable (hphis : r.phis = f.preorder.filterMap r.phi?)

include hphis

theorem filter_phis : r.phis.filter f.tree.isLive = f.preorder.filterMap (r.occupant? f) := by
  rw [hphis, List.filter_filterMap]
  rfl

theorem phiCount_eq : r.phiCount = f.preorder.countP (fun b => (r.occupant? f b).isSome) +
    r.phis.countP fun n => !f.tree.isLive n := by
  have hlive : r.phis.countP f.tree.isLive =
      f.preorder.countP fun b => (r.occupant? f b).isSome := by
    rw [List.countP_eq_length_filter, filter_phis hphis, List.length_filterMap_eq_countP]
  rw [phiCount, ← hlive, List.length_eq_countP_add_countP f.tree.isLive]
  simp

end occupants

/-- Whatever is asked of a roster, and whatever nodes are removed in between: each block of the
graph is said to have the phi that the roster lists for it, if that is in use. The roster lists
these phis by the preorder of their blocks, and besides them it lists and counts only phis that were
removed while it listed them, without being told. -/
theorem phis_of_upkeep {input f : FlowGraph} {occurrence : NodeId} {r : Roster} (made : input.Made)
    (hstart : start occurrence input = .ok r f) (events : List Event) (ws : List Upkeep) :
    let s := (Upkeep.runs ws ⟨⟨f, r⟩, events⟩).value
    ∃ found : BlockId → Option NodeId,
      (∀ b, s.flow.contains b = true → s.own.phiAt s.flow b = .ok (found b)) ∧
      s.own.phis.filter s.flow.tree.isLive = s.flow.preorder.filterMap found ∧
      s.own.phiCount = s.flow.preorder.countP (fun b => (found b).isSome) +
        s.own.phis.countP (fun n => !s.flow.tree.isLive n) ∧
      (∀ n ∈ s.own.phis, Upkeep.Lost ws ⟨⟨f, r⟩, events⟩ n ∨ s.flow.tree.isLive n = true) ∧
      ((∀ n, ¬Upkeep.Lost ws ⟨⟨f, r⟩, events⟩ n) →
        s.own.phiCount = s.flow.preorder.countP (fun b => (found b).isSome) ∧
          s.own.phis = s.flow.preorder.filterMap found ∧
          ∀ n ∈ s.own.phis, s.flow.tree.isLive n = true) := by
  intro s
  have coherent := made.coherent
  obtain ⟨hready, hnone⟩ : Ready (fun _ _ _ _ => True) input r.var (fun _ _ => False)
      (fun _ => []) ⟨f, r⟩ ∧
      ∀ b, r.phi? b = none := start_ok hstart (varOf_of_start hstart) coherent.inside
  have hopened : Occupied r (fun _ => False) ⟨f, r⟩ :=
    ⟨rfl, rfl, by simp [hnone], by simp [hnone], by simp [hnone]⟩
  have hs : Occupied r (Upkeep.Lost ws ⟨⟨f, r⟩, events⟩) s :=
    (Upkeep.occupied_runs ws (s := ⟨⟨f, r⟩, events⟩) hopened).mono fun _ hn => hn.resolve_left id
  have hshape : input.SameShape s.flow :=
    hready.prepared.shape.trans (Upkeep.sameShape_runs ws ⟨⟨f, r⟩, events⟩)
  have hblocks : s.own.records.map BlockRecord.block = s.flow.preorder := by
    rw [hs.blocks, hready.prepared.blocks, hshape.preorder]
  have hstamp : s.flow.stamp = s.own.stamp := by
    rw [hs.stamp, hready.prepared.stamp, hshape.stamp]
  have hphis : s.own.phis = s.flow.preorder.filterMap s.own.phi? := by
    rw [← hblocks]
    refine phis_eq_of_nodup ?_
    rw [hblocks, hshape.preorder]
    exact FlowGraph.nodup_preorder coherent.closed coherent.entry
  have hlost : ∀ n ∈ s.own.phis, Upkeep.Lost ws ⟨⟨f, r⟩, events⟩ n ∨
      s.flow.tree.isLive n = true := by
    intro n hn
    rw [hphis] at hn
    obtain ⟨b, -, hb⟩ := List.mem_filterMap.1 hn
    exact (hs.stands b n hb).imp_right Tree.Stands.isLive
  refine ⟨s.own.occupant? s.flow, fun b hb => ?_, filter_phis hphis, phiCount_eq hphis, hlost,
    fun htold => ?_⟩
  · refine phiAt_of_stamp hstamp hb ?_
    rw [hblocks, hshape.preorder, FlowGraph.mem_preorder coherent.closed coherent.entry]
    rwa [hshape.contains] at hb
  · have hall (n : NodeId) (hn : n ∈ s.own.phis) : s.flow.tree.isLive n = true :=
      (hlost n hn).resolve_left (htold n)
    have hgone : s.own.phis.countP (fun n => !s.flow.tree.isLive n) = 0 :=
      List.countP_eq_zero.2 fun n hn => by simp [hall n hn]
    refine ⟨?_, ?_, hall⟩
    · rw [phiCount_eq hphis, hgone, Nat.add_zero]
    · rw [← filter_phis hphis, List.filter_eq_self.2 hall]

def pair : FlowGraph := (FlowGraph.ofLabel 0).requests
  [.addBlock 1, .addEdge ⟨0⟩ ⟨1⟩ .normal, .tree (.newVariable (.ofLocal 0) .int)]

/-- The phi of the second block is removed behind the back of the roster, which lists and counts it
still. -/
theorem pair_phis_of_upkeep : pair.Made ∧ Yields (start ⟨0⟩) pair fun r f =>
    let s := (Upkeep.runs [.request (.addJoinPhi ⟨1⟩), .cleanup ⟨4⟩] ⟨⟨f, r⟩, []⟩).value
    ∃ found : BlockId → Option NodeId, s.own.phiAt s.flow ⟨1⟩ = .ok (found ⟨1⟩) ∧
      s.own.phiCount = s.flow.preorder.countP (fun b => (found b).isSome) + 1 ∧
      s.own.phis = [⟨4⟩] ∧
      Upkeep.Lost [.request (.addJoinPhi ⟨1⟩), .cleanup ⟨4⟩] ⟨⟨f, r⟩, []⟩ ⟨4⟩ := by
  have made : pair.Made := ⟨0, _, rfl⟩
  obtain ⟨r, f, hstart, hb, hphis, hgone⟩ : Yields (start ⟨0⟩) pair fun r f =>
      let s := (Upkeep.runs [.request (.addJoinPhi ⟨1⟩), .cleanup ⟨4⟩] ⟨⟨f, r⟩, []⟩).value
      s.flow.contains ⟨1⟩ = true ∧ s.own.phis = [⟨4⟩] ∧ s.flow.tree.isLive ⟨4⟩ = false := by
    decide +kernel
  obtain ⟨found, hfound, -, hcount, hlost, -⟩ :=
    phis_of_upkeep made hstart [] [.request (.addJoinPhi ⟨1⟩), .cleanup ⟨4⟩]
  refine ⟨made, r, f, hstart, found, hfound ⟨1⟩ hb, ?_, hphis, ?_⟩
  · rw [hphis, List.countP_singleton, hgone] at hcount
    exact hcount
  · exact (hlost ⟨4⟩ (by simp [hphis])).resolve_right (by simp [hgone])

/-- So no block is said to have a phi, and the roster counts one. -/
theorem pair_miscounted : pair.Made ∧ Yields (start ⟨0⟩) pair fun r f =>
    let s := (Upkeep.runs [.request (.addJoinPhi ⟨1⟩), .cleanup ⟨4⟩] ⟨⟨f, r⟩, []⟩).value
    (∀ b ∈ s.flow.preorder, s.own.phiAt s.flow b = .ok none) ∧ s.flow.preorder = [⟨0⟩, ⟨1⟩] ∧
      s.own.phiCount = 1 ∧ s.own.phis = [⟨4⟩] ∧ s.flow.tree.isLive ⟨4⟩ = false :=
  ⟨⟨0, _, rfl⟩, by decide +kernel⟩

end Roster

end MethodFlow
