import MethodFlow.Proofs.Tree.Forest

/-!
Trees that were built and edited by requests. Ownership is always in order, and no parents go in a
circle unless a node was replaced by one that it stands below.
-/

namespace MethodFlow

open Edit MethodFlow.Tree

namespace TreeRequest

/-- Every request but a replacement is made of steps, and only a removal takes nodes away by
itself. -/
theorem builds_run {removes : Prop} (r : TreeRequest) (t : Tree)
    (hreplace : ∀ old new, r ≠ .replace old new) (hcleanup : ∀ n, r = .cleanup n → removes) :
    t.Builds removes (r.run.after t) := by
  have hplain (node : Node) (hchildren : node.children = [])
      (hlinked : ∀ size, LinksBelow size node) :
      Moves (Builds removes) (do let _ ← alloc node : Edit Tree Unit) :=
    (moves_alloc hchildren hlinked).bind fun _ => .pure _
  have howning (node : Node) (hlinked : ∀ size, LinksBelow size node) :
      Moves (Builds removes) (do let _ ← allocOwning node : Edit Tree Unit) :=
    (moves_allocOwning hlinked).bind fun _ => .pure _
  cases r with
  | newVariable var type => exact hplain _ rfl (linksBelow_of_link rfl) t
  | newLiteral value => exact hplain (.literal value) rfl (by simp [LinksBelow]) t
  | newReturnAddress => exact hplain (.returnAddress) rfl (by simp [LinksBelow]) t
  | newBinary op left right type =>
    exact howning (.binary op left right type) (by simp [LinksBelow]) t
  | newEval value => exact howning (.eval value) (by simp [LinksBelow]) t
  | newStore target value =>
    exact (Builds.making.moves_newStore target value).bind (fun _ => .pure _) t
  | newShuffle kind targets sources =>
    exact (Builds.making.moves_newShuffle kind targets sources).bind (fun _ => .pure _) t
  | newReturnValue value => exact howning (.returnValue value) (by simp [LinksBelow]) t
  | newReturnVoid => exact hplain (.returnVoid) rfl (by simp [LinksBelow]) t
  | newSaveAddress sub => exact hplain (.saveAddress sub) rfl (by simp [LinksBelow]) t
  | newJoinPhi target block preds =>
    exact (Builds.making.moves_newJoinPhi target block preds).bind (fun _ => .pure _) t
  | newCatchPhi target => exact (Builds.making.moves_newCatchPhi target).bind (fun _ => .pure _) t
  | newReturnPhi target sub calls =>
    exact (Builds.making.moves_newReturnPhi target sub calls).bind (fun _ => .pure _) t
  | replace old new => exact absurd rfl (hreplace old new)
  | cleanup n => exact Step.builds (.remove n (hcleanup n rfl))
  | cloneSubtree n => exact (moves_cloneSubtree n).bind (fun _ => .pure _) t
  | setLink n definition => exact moves_setLink n definition t
  | setJoinOperand n pred operand => exact (takesOperand_setJoinOperand n pred operand t).builds
  | setReturnOperand n call operand => exact (takesOperand_setReturnOperand n call operand t).builds
  | addCatchOperand n operand => exact (takesOperand_addCatchOperand n operand t).builds
  | setCatchOperand n index operand => exact (takesOperand_setCatchOperand n index operand t).builds

theorem grows_run (r : TreeRequest) (t : Tree) (h : ∀ old new, r ≠ .replace old new) :
    t.Grows (r.run.after t) := r.builds_run t h fun _ _ => trivial

theorem moves_run (r : TreeRequest) : Moves Evolves r.run := fun t => by
  by_cases h : ∃ old new, r = .replace old new
  · obtain ⟨old, new, rfl⟩ := h
    exact moves_replace old new t
  · exact (r.grows_run t fun old new he => h ⟨old, new, he⟩).evolves

/-- No node is replaced by one that it stands below. -/
def Sound (t : Tree) : TreeRequest → Prop
  | replace old new => ¬t.LeadsTo new old
  | _ => True

/-- A request keeps a forest. -/
theorem forest_run {t : Tree} {r : TreeRequest} (h : t.Forest) (hr : r.Sound t) :
    (t.request r).Forest := by
  by_cases hreplace : ∃ old new, r = .replace old new
  · obtain ⟨old, new, rfl⟩ := hreplace
    exact h.replace hr
  · exact h.grows (r.grows_run t fun old new he => hreplace ⟨old, new, he⟩)

end TreeRequest

namespace Tree

/-- Each request of a run finds the tree such that it replaces no node by one that this stands
below. -/
def SoundRun (t : Tree) : List TreeRequest → Prop
  | [] => True
  | r :: rest => r.Sound t ∧ (t.request r).SoundRun rest

theorem forest_requests {t : Tree} {rs : List TreeRequest} (h : t.Forest) (hrs : t.SoundRun rs) :
    (t.requests rs).Forest := by
  induction rs generalizing t with
  | nil => exact h
  | cons r rest ih => exact ih (TreeRequest.forest_run h hrs.1) hrs.2

/-- Following the parents of a node in use always ends, at a node without a parent, so the root, the
statement and the block of a node can be found, and no node stands below itself. -/
theorem root_of_requests {rs : List TreeRequest} (hrs : Tree.empty.SoundRun rs) (n : NodeId)
    (hn : (Tree.empty.requests rs).isLive n = true) :
    ∃ top statement block, (Tree.empty.requests rs).root n = .ok top ∧
      (Tree.empty.requests rs).parent top = .ok none ∧
      (Tree.empty.requests rs).statementOf n = .ok statement ∧
      (Tree.empty.requests rs).blockOf n = .ok block ∧
      ∀ p, (Tree.empty.requests rs).parent n = .ok (some p) →
        ¬(Tree.empty.requests rs).LeadsTo n p := by
  have hforest := forest_requests forest_empty hrs
  obtain ⟨s, hs⟩ := Option.isSome_iff_exists.1 hn
  obtain ⟨top, stop, hroot, htop, hnone⟩ := hforest.exists_root hs
  refine ⟨top, _, stop.block, hroot, parent_ok.2 ⟨stop, htop, hnone⟩,
    by simp [statementOf, hroot]; rfl, blockOf_ok.2 ⟨top, hroot, stop, htop, rfl⟩, fun p hp => ?_⟩
  obtain ⟨s', hs', hparent⟩ := parent_ok.1 hp
  obtain rfl : s = s' := by simpa [hs] using hs'
  exact (hforest.rooted n s hs).not_leadsTo_parent hs hparent

/-- An operand that is replaced by a node from elsewhere. -/
def exchangeOperand : List TreeRequest :=
  [.newVariable (.ofLocal 0) .int, .newVariable (.ofLocal 1) .int, .newBinary .add ⟨0⟩ ⟨1⟩ .int,
    .newVariable (.ofLocal 2) .int, .replace ⟨0⟩ ⟨3⟩]

theorem root_of_exchangeOperand :
    Tree.empty.SoundRun exchangeOperand ∧ (Tree.empty.requests exchangeOperand).isLive ⟨3⟩ = true ∧
      ∃ top statement block, (Tree.empty.requests exchangeOperand).root ⟨3⟩ = .ok top ∧
        (Tree.empty.requests exchangeOperand).parent top = .ok none ∧
        (Tree.empty.requests exchangeOperand).statementOf ⟨3⟩ = .ok statement ∧
        (Tree.empty.requests exchangeOperand).blockOf ⟨3⟩ = .ok block ∧
        ∀ p, (Tree.empty.requests exchangeOperand).parent ⟨3⟩ = .ok (some p) →
          ¬(Tree.empty.requests exchangeOperand).LeadsTo ⟨3⟩ p := by
  have hroot : (Tree.empty.requests (exchangeOperand.take 4)).root ⟨0⟩ = .ok ⟨2⟩ := by
    decide +kernel
  have hfree : (Tree.empty.requests (exchangeOperand.take 4)).parent ⟨3⟩ = .ok none := by
    decide +kernel
  have hsound : Tree.empty.SoundRun exchangeOperand :=
    ⟨trivial, trivial, trivial, trivial,
      fun h => absurd (h.climb_eq hfree hroot) (by decide), trivial⟩
  have hlive : (Tree.empty.requests exchangeOperand).isLive ⟨3⟩ = true := by decide +kernel
  exact ⟨hsound, hlive, root_of_requests hsound ⟨3⟩ hlive⟩

/-- An operand that is replaced by the expression that it belongs to. -/
def encloseOperand : List TreeRequest :=
  [.newVariable (.ofLocal 0) .int, .newVariable (.ofLocal 1) .int, .newBinary .add ⟨0⟩ ⟨1⟩ .int,
    .replace ⟨0⟩ ⟨2⟩]

/-- Nothing keeps a node from being replaced by one that it stands below, which becomes its own
parent then. -/
theorem parent_encloseOperand :
    (Tree.empty.requests encloseOperand).isLive ⟨2⟩ = true ∧
      (Tree.empty.requests encloseOperand).parent ⟨2⟩ = .ok (some ⟨2⟩) ∧
      ¬(Tree.empty.requests encloseOperand).Rooted ⟨2⟩ := by
  have hparent : (Tree.empty.requests encloseOperand).parent ⟨2⟩ = .ok (some ⟨2⟩) := by
    decide +kernel
  refine ⟨by decide +kernel, hparent, fun h => ?_⟩
  obtain ⟨s, hs, hp⟩ := parent_ok.1 hparent
  exact h.not_leadsTo_parent hs hp .self

end Tree

end MethodFlow
