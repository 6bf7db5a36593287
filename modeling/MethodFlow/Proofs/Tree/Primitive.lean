import MethodFlow.Proofs.Tree.Exchange
import MethodFlow.Tree.Request

/-!
The few operations that all work on trees is made of. A relation that each of these leads along is
one that every request leads along, whether it fails or not.
-/

namespace MethodFlow

/-- What a node is when it is made: an occurrence neither defines nor links anything yet. -/
def Node.IsNew (node : Node) : Prop := ∀ o, node = .occurrence o → o.defines = false ∧ o.link = none

theorem Node.isNew_of_ne {node : Node} (h : ∀ o, node ≠ .occurrence o) : node.IsNew :=
  fun o ho => absurd ho (h o)

/-- What a stored node becomes when an occurrence is made a definition or numbered, or when a phi is
given other inputs. -/
inductive Node.Alters : Node → Node → Prop where
  | same (node : Node) : Alters node node
  | define (o : Occurrence) : Alters (.occurrence o)
    (.occurrence { o with defines := true, link := none })
  | number (o : Occurrence) (i : Nat) :
    Alters (.occurrence o) (.occurrence { o with version := some i })
  | inputs (p : Phi) (inputs : PhiInputs) : Alters (.phi p) (.phi { p with inputs })

namespace Tree

open Edit

/-- Giving nodes away and removing them leads along `R`. -/
structure Releasing (R : Tree → Tree → Prop) : Prop where
  setParent : ∀ n parent, Moves R (setParent n parent)
  cleanup : ∀ n, Moves R (cleanup n)

/-- The operations that removing nodes is made of lead along `R`. -/
structure Pruning (R : Tree → Tree → Prop) : Prop extends Releasing R where
  setInputs : ∀ (t : Tree) n p inputs, t.node? n = some (.phi p) →
    R t ((setInputs n p inputs).after t)

/-- The operations that the work on trees is made of lead along `R`. -/
structure Primitive (R : Tree → Tree → Prop) : Prop extends Pruning R where
  alloc : ∀ node : Node, node.IsNew → Moves R (alloc node)
  copy : ∀ limit n, Moves R (copy limit n)
  define : ∀ n, Moves R (define n)
  setVersion : ∀ n version, Moves R (setVersion n version)

section writes

variable {R : Tree → Tree → Prop} [IsPreorder Tree R] {n : NodeId}

/-- What a write to the slot leads along, the operation that writes does, which may also find no
slot. -/
theorem moves_modifySlot_of_put {f : Slot → Slot}
    (hput : ∀ (t : Tree) s, t.slot? n = some s → R t (t.put n (f s))) :
    Moves R (modifySlot n f) := by
  intro t
  rcases after_modifySlot n f t with hsame | ⟨s, hs, hafter⟩
  · rw [hsame]
    exact Std.Refl.refl t
  · rw [hafter]
    exact hput t s hs

theorem moves_modifyOccurrence_of_put {f : Occurrence → Occurrence}
    (hput : ∀ (t : Tree) s o, t.slot? n = some s → s.node = .occurrence o →
      R t (t.put n { s with node := .occurrence (f o) })) : Moves R (modifyOccurrence n f) := by
  intro t
  rcases after_modifyOccurrence n f t with hsame | ⟨s, o, hs, hnode, hafter⟩
  · rw [hsame]
    exact Std.Refl.refl t
  · rw [hafter]
    exact hput t s o hs hnode

end writes

theorem moves_copy {R : Tree → Tree → Prop} [IsPreorder Tree R]
    (halloc : ∀ node, Moves R (alloc node))
    (hparent : ∀ n parent, Moves R (setParent n parent)) (limit : Nat) (n : NodeId) :
    Moves R (copy limit n) := by
  induction limit generalizing n with
  | zero => exact .throw _
  | succ limit ih =>
    exact (Moves.ask _).bind fun _ => (Moves.mapM ih _).bind fun _ => (halloc _).bind fun top =>
      (Moves.forM (fun c => hparent c (some top)) _).bind fun _ => .pure _

/-- A relation that holds of every change to a slot and of every removal holds of the operations
that removing is made of. -/
theorem Pruning.of_writes {R : Tree → Tree → Prop} [IsPreorder Tree R]
    (put : ∀ (t : Tree) n s s', t.slot? n = some s → s'.block = s.block → s.node.Alters s'.node →
      R t (t.put n s'))
    (prunes : ∀ t t', Prunes t t' → R t t') : Pruning R where
  setParent n _ := moves_modifySlot_of_put fun t s hs => put t n s _ hs rfl (.same _)
  setInputs t n p inputs hn := by
    obtain ⟨s, hs, hnode⟩ := node?_eq_some.1 hn
    have hset : Tree.setInputs n p inputs t = .ok ⟨⟩ _ := setNode_ok.2 ⟨s, hs, rfl⟩
    rw [after_of_ok hset]
    exact put t n s _ hs rfl (hnode ▸ .inputs p inputs)
  cleanup n t := Moves.of_ask fun _ _ => prunes t _ (prunes_sweep t.size t n)

/-- A relation that also holds of every new node holds of all the operations. -/
theorem Primitive.of_writes {R : Tree → Tree → Prop} [IsPreorder Tree R]
    (push : ∀ (t : Tree) node, R t (t.push { node }))
    (put : ∀ (t : Tree) n s s', t.slot? n = some s → s'.block = s.block → s.node.Alters s'.node →
      R t (t.put n s'))
    (prunes : ∀ t t', Prunes t t' → R t t') : Primitive R := by
  have pruning : Pruning R := .of_writes put prunes
  have halter (n : NodeId) (f : Occurrence → Occurrence)
      (hf : ∀ o, Node.Alters (.occurrence o) (.occurrence (f o))) :
      Moves R (modifyOccurrence n f) :=
    moves_modifyOccurrence_of_put fun t s o hs hnode => put t n s _ hs rfl (hnode ▸ hf o)
  exact
    { pruning with
      alloc := fun node _ t => push t node
      copy := moves_copy (fun node t => push t node) pruning.setParent
      define := fun n => halter n _ .define
      setVersion := fun n i => halter n _ fun o => .number o i }

namespace Releasing

variable {R : Tree → Tree → Prop} (h : Releasing R)

include h

theorem mono {R' : Tree → Tree → Prop} (hR : ∀ t t', R t t' → R' t t') : Releasing R' where
  setParent n parent t := hR _ _ (h.setParent n parent t)
  cleanup n t := hR _ _ (h.cleanup n t)

variable [IsPreorder Tree R]

theorem moves_discard (n : NodeId) : Moves R (discard n) :=
  (h.setParent n none).bind fun _ => h.cleanup n

theorem moves_adopt (n operand : NodeId) (old : Option NodeId) : Moves R (adopt n operand old) := by
  refine (h.setParent operand (some n)).bind fun _ => ?_
  cases old with
  | none => exact .pure _
  | some o => exact h.moves_discard o

theorem moves_dropOperands (event : NodeId → Event) (dropped : List NodeId) :
    Moves (Recorded.Along R) (dropOperands event dropped) :=
  .forM (fun q => (Moves.report _).bind fun _ => (h.moves_discard q).quietly) dropped

theorem takesOperand {t t' : Tree} {n operand : NodeId} (ht : t.TakesOperand n operand t')
    (hset : ∀ p inputs old, t.checkOperand n operand = .ok ⟨⟩ → t.node? n = some (.phi p) →
      Exchanges operand old p.operands (Phi.mk p.target inputs).operands →
        R t ((setInputs n p inputs).after t)) : R t t' := by
  cases ht with
  | nothing => exact Std.Refl.refl t
  | taken hcheck hn hexchange =>
    exact Moves.of_first (hset _ _ _ hcheck hn hexchange) fun _ m _ _ => h.moves_adopt _ _ _ m

theorem drops {r r' : Recorded Tree} (hr : Drops r r')
    (hset : ∀ n p inputs dropped, r.value.node? n = some (.phi p) →
      ((Phi.mk p.target inputs).operands ++ dropped).Perm p.operands →
        R r.value ((setInputs n p inputs).after r.value)) : Recorded.Along R r r' := by
  cases hr with
  | nothing => exact Std.Refl.refl (r := Recorded.Along R) r
  | @dropping n p inputs event kept dropped hn hperm =>
    have hstored : Recorded.Along R r
        ((liftM (Tree.setInputs n p inputs) : Edit (Recorded Tree) Unit).after r) := by
      have hafter :
          ((liftM (Tree.setInputs n p inputs) : Edit (Recorded Tree) Unit).after r).value =
          (Tree.setInputs n p inputs).after r.value :=
            congrArg Recorded.value (after_within _ _ _ _)
      show R r.value _
      rw [hafter]
      exact hset n p inputs dropped hn hperm
    exact Moves.of_first hstored fun _ m _ _ =>
      (h.moves_dropOperands event dropped).bind (fun _ => .pure _) m

theorem exchangeChild {t : Tree} {p old new : NodeId}
    (hstore : R t
      ((modifySlot p fun s => { s with node := s.node.replaceChild old new }).after t)) :
    R t ((Tree.exchangeChild p old new).after t) :=
  Moves.of_first hstore fun _ m _ _ =>
    (h.setParent new (some p)).bind (fun _ => h.moves_discard old) m

end Releasing

namespace Pruning

variable {R : Tree → Tree → Prop} (h : Pruning R)

include h

theorem mono {R' : Tree → Tree → Prop} (hR : ∀ t t', R t t' → R' t t') : Pruning R' where
  toReleasing := h.toReleasing.mono hR
  setInputs t n p inputs hn := hR _ _ (h.setInputs t n p inputs hn)

variable [IsPreorder Tree R]

theorem moves_takesOperand {t t' : Tree} {n operand : NodeId} (ht : t.TakesOperand n operand t') :
    R t t' :=
  h.takesOperand ht fun p inputs _ _ hn _ => h.setInputs t n p inputs hn

theorem moves_drops {r r' : Recorded Tree} (hr : Drops r r') : Recorded.Along R r r' :=
  h.drops hr fun n p inputs _ hn _ => h.setInputs r.value n p inputs hn

/-- A replacement marks the new node, if the old one was a definition, and stores it in the
parent. -/
theorem replace {t : Tree} {old new : NodeId} (hmark : ∀ p, t.parent old = .ok (some p) →
      t.checkDetached new = .ok ⟨⟩ → t.defines old = true →
        R t ((modifyOccurrence new fun o => { o with defines := true }).after t))
    (hchild : ∀ p, Moves R (modifySlot p fun s => { s with node := s.node.replaceChild old new })) :
    R t ((Tree.replace old new).after t) := by
  have hreplaces := replaces_replace old new t
  generalize (Tree.replace old new).after t = t' at hreplaces
  cases hreplaces with
  | nothing => exact Std.Refl.refl t
  | @exchanged p t₁ hparent hnew hprepares =>
    have hprepared : R t t₁ := by
      unfold Prepares at hprepares
      split at hprepares
      · next hold => exact after_of_ok hprepares ▸ hmark p hparent hnew hold
      · rw [hprepares]
        exact Std.Refl.refl t
    exact IsTrans.trans _ _ _ hprepared (h.exchangeChild (hchild p t₁))

theorem moves_replace
    (hmark : ∀ n, Moves R (modifyOccurrence n fun o => { o with defines := true }))
    (hchild : ∀ p old new, Moves R
      (modifySlot p fun s => { s with node := s.node.replaceChild old new }))
    (old new : NodeId) : Moves R (Tree.replace old new) := fun t =>
  h.replace (fun _ _ _ _ => hmark new t) fun p => hchild p old new

end Pruning

namespace Primitive

variable {R : Tree → Tree → Prop} (h : Primitive R)

include h

variable [IsPreorder Tree R]

theorem making : Making R where
  useLike _ := (Moves.ask _).bind fun _ => h.alloc _ (by rintro _ ⟨⟩; exact ⟨rfl, rfl⟩)
  allocOwning _ hnode _ := (Moves.ask _).bind fun _ =>
    (h.alloc _ (Node.isNew_of_ne hnode)).bind fun n =>
    (Moves.forM (fun c => (Moves.ask _).bind fun _ => h.setParent c (some n)) _).bind
      fun _ => .pure _
  define := h.define

/-- Every request leads along the relation if its links and its replacements do. -/
theorem moves_run (r : TreeRequest) (hlink : ∀ n d, r = .setLink n d → Moves R (setLink n d))
    (hreplace : ∀ old new, r = .replace old new → Moves R (replace old new)) : Moves R r.run := by
  cases r with
  | newVariable var type =>
    exact (h.alloc _ (by rintro _ ⟨⟩; exact ⟨rfl, rfl⟩)).bind fun _ => .pure _
  | newLiteral value => exact (h.alloc _ (Node.isNew_of_ne (by simp))).bind fun _ => .pure _
  | newReturnAddress => exact (h.alloc _ (Node.isNew_of_ne (by simp))).bind fun _ => .pure _
  | newBinary op left right type =>
    exact (h.making.allocOwning _ (by simp) (by simp)).bind fun _ => .pure _
  | newEval value => exact (h.making.allocOwning _ (by simp) (by simp)).bind fun _ => .pure _
  | newStore target value => exact (h.making.moves_newStore target value).bind fun _ => .pure _
  | newShuffle kind targets sources =>
    exact (h.making.moves_newShuffle kind targets sources).bind fun _ => .pure _
  | newReturnValue value => exact (h.making.allocOwning _ (by simp) (by simp)).bind fun _ => .pure _
  | newReturnVoid => exact (h.alloc _ (Node.isNew_of_ne (by simp))).bind fun _ => .pure _
  | newSaveAddress sub => exact (h.alloc _ (Node.isNew_of_ne (by simp))).bind fun _ => .pure _
  | newJoinPhi target block preds =>
    exact (h.making.moves_newJoinPhi target block preds).bind fun _ => .pure _
  | newCatchPhi target => exact (h.making.moves_newCatchPhi target).bind fun _ => .pure _
  | newReturnPhi target sub calls =>
    exact (h.making.moves_newReturnPhi target sub calls).bind fun _ => .pure _
  | replace old new => exact hreplace old new rfl
  | cleanup n => exact h.cleanup n
  | cloneSubtree n => exact (Moves.get.bind fun t => h.copy (t.size + 1) n).bind fun _ => .pure _
  | setLink n d => exact hlink n d rfl
  | setJoinOperand n pred operand =>
    exact fun t => h.moves_takesOperand (takesOperand_setJoinOperand n pred operand t)
  | setReturnOperand n call operand =>
    exact fun t => h.moves_takesOperand (takesOperand_setReturnOperand n call operand t)
  | addCatchOperand n operand =>
    exact fun t => h.moves_takesOperand (takesOperand_addCatchOperand n operand t)
  | setCatchOperand n index operand =>
    exact fun t => h.moves_takesOperand (takesOperand_setCatchOperand n index operand t)

omit h in
theorem moves_setLink (hlink : ∀ n d, Moves R (modifyOccurrence n fun o => { o with link := d }))
    (n : NodeId) (d : Option NodeId) : Moves R (setLink n d) := by
  intro t
  rcases after_setLink n d t with hsame | ⟨-, -, hafter⟩
  · rw [hsame]
    exact Std.Refl.refl t
  · rw [hafter]
    exact hlink n d t

end Primitive

end Tree

end MethodFlow
