import MethodFlow.Proofs.Tree.Evolution
import Mathlib.Logic.Relation

/-!
The steps that trees are built and edited in. What holds of a tree as long as each step keeps it
holds after every operation that is made of steps.
-/

namespace MethodFlow

/-- Putting an operand under a key adds it at the end or exchanges it for the one that was there. -/
theorem PhiInputs.assign_cases (key : BlockId) (operand : NodeId)
    (operands : List (BlockId × NodeId)) :
    (PhiInputs.find? operands key = none ∧
      (PhiInputs.assign key operand operands).map Prod.snd = operands.map Prod.snd ++ [operand]) ∨
    ∃ old before after, PhiInputs.find? operands key = some old ∧
      operands.map Prod.snd = before ++ old :: after ∧
      (PhiInputs.assign key operand operands).map Prod.snd = before ++ operand :: after := by
  induction operands with
  | nil => exact .inl ⟨rfl, rfl⟩
  | cons first rest ih =>
    obtain ⟨k, q⟩ := first
    by_cases hk : k = key
    · exact .inr ⟨q, [], rest.map Prod.snd, by simp [PhiInputs.find?, hk],
        rfl, by simp [PhiInputs.assign, hk]⟩
    · have hfind : PhiInputs.find? ((k, q) :: rest) key = PhiInputs.find? rest key := by
        simp [PhiInputs.find?, hk]
      have hassign : PhiInputs.assign key operand ((k, q) :: rest) =
          (k, q) :: PhiInputs.assign key operand rest := by
        simp [PhiInputs.assign, hk]
      rw [hfind, hassign]
      rcases ih with ⟨hnone, hmap⟩ | ⟨old, before, after, hsome, hsplit, hmap⟩
      · exact .inl ⟨hnone, by simp [hmap]⟩
      · exact .inr ⟨old, q :: before, after, hsome, by simp [hsplit], by simp [hmap]⟩

namespace Tree

open Edit

variable {t t' t'' : Tree} {n c m : NodeId} {s s' : Slot}

section exchanging

/-- Operands of a phi after it took one over and gave up another at most. -/
def Exchanges (new : NodeId) (old : Option NodeId) (operands operands' : List NodeId) : Prop :=
  (old = none ∧ operands' = operands ++ [new]) ∨
    ∃ o before after, old = some o ∧ operands = before ++ o :: after ∧
      operands' = before ++ new :: after

namespace Exchanges

variable {new target : NodeId} {old : Option NodeId} {operands operands' : List NodeId}

theorem mem (h : Exchanges new old operands operands') {x : NodeId} (hx : x ∈ operands') :
    x = new ∨ x ∈ operands := by
  rcases h with ⟨-, rfl⟩ | ⟨o, before, after, -, rfl, rfl⟩
  · simpa [or_comm] using hx
  · simp only [List.mem_append, List.mem_cons] at hx ⊢
    tauto

theorem nodup (h : Exchanges new old operands operands') (hout : new ∉ target :: operands)
    (hnodup : (target :: operands).Nodup) : (target :: operands').Nodup := by
  rcases h with ⟨-, rfl⟩ | ⟨o, before, after, -, rfl, rfl⟩
  · rw [← List.cons_append, ← List.concat_eq_append]
    exact hnodup.concat hout
  · simp only [← List.cons_append] at hnodup hout ⊢
    rw [List.nodup_middle, List.nodup_cons] at hnodup ⊢
    exact ⟨fun hmem => hout (by simp only [List.mem_append, List.mem_cons] at hmem ⊢; tauto),
      hnodup.2⟩

theorem new_mem (h : Exchanges new old operands operands') : new ∈ operands' := by
  rcases h with ⟨-, rfl⟩ | ⟨o, before, after, -, -, rfl⟩ <;> simp

theorem kept (h : Exchanges new old operands operands') {x : NodeId} (hx : x ∈ operands)
    (hne : old ≠ some x) : x ∈ operands' := by
  rcases h with ⟨-, rfl⟩ | ⟨o, before, after, rfl, rfl, rfl⟩
  · simp [hx]
  · have hxo : x ≠ o := fun he => hne (by rw [he])
    simp only [List.mem_append, List.mem_cons, hxo, false_or] at hx ⊢
    tauto

/-- What a phi gave up it does not list any more. -/
theorem not_mem_of_old (h : Exchanges new old operands operands') (hout : new ∉ target :: operands)
    (hnodup : (target :: operands).Nodup) {o : NodeId} (ho : old = some o) :
    o ∈ target :: operands ∧ o ∉ target :: operands' := by
  rcases h with ⟨hnone, -⟩ | ⟨o', before, after, hsome, rfl, rfl⟩
  · simp [hnone] at ho
  · obtain rfl : o' = o := Option.some.inj (hsome.symm.trans ho)
    have hne : o' ≠ new := fun he => hout (by simp [he])
    simp only [← List.cons_append] at hnodup ⊢
    rw [List.nodup_middle, List.nodup_cons] at hnodup
    refine ⟨by simp, fun hmem => hnodup.1 ?_⟩
    simp only [List.mem_append, List.mem_cons, hne, false_or] at hmem ⊢
    exact hmem

end Exchanges

theorem takes_of_exchange (h : t.Coherent) {p : Phi} {inputs : PhiInputs} {old : Option NodeId}
    (hs : t.slot? n = some s) (hnode : s.node = .phi p) (hdetached : t.Detached c)
    (hexchange : Exchanges c old p.operands (Phi.mk p.target inputs).operands) :
    t.Takes n s c (.phi { p with inputs }) old := by
  have hlist : s.node.children = p.target :: p.operands := by rw [hnode]; rfl
  obtain ⟨sc, hsc, -, hnone⟩ := id hdetached
  have hout : c ∉ p.target :: p.operands := hlist ▸ h.not_mem_children hsc hnone hs
  have hnodup : (p.target :: p.operands).Nodup := hlist ▸ h.nodup n s hs
  refine ⟨hs, hdetached, by rw [hnode]; rfl, hexchange.nodup hout hnodup,
    by simp [LinksBelow], ?_, ?_⟩
  · intro x hx
    rw [hlist]
    rcases List.mem_cons.1 hx with rfl | hx
    · exact .inr (by simp)
    · exact (hexchange.mem hx).imp_right (List.mem_cons_of_mem _)
  · intro o ho
    obtain ⟨hin, hgone⟩ := hexchange.not_mem_of_old hout hnodup ho
    exact ⟨fun he => hout (he ▸ hin), hgone, h.owned n s hs o (hlist ▸ hin)⟩

end exchanging

/-- One step. Nodes are removed in steps of their own only if `removes` says so. -/
inductive Step (removes : Prop) (t : Tree) : Tree → Prop
  /-- A new node takes its children over. -/
  | make {node : Node} {t' : Tree} : node.children.Nodup → (∀ c ∈ node.children, t.Detached c) →
      LinksBelow t.size node → Adopts t.next node.children (t.push { node }) t' → Step removes t t'
  /-- An occurrence becomes another one. -/
  | rewrite {n : NodeId} {s : Slot} {o o' : Occurrence} : t.slot? n = some s →
      s.node = .occurrence o → (∀ d, o'.link = some d → o.link = some d ∨ d.index < t.size) →
      Step removes t (t.put n { s with node := .occurrence o' })
  /-- A phi takes an operand over and gives one up at most. -/
  | exchange {n c : NodeId} {p : Phi} {inputs : PhiInputs} {old : Option NodeId} :
      t.node? n = some (.phi p) → t.Detached c →
      Exchanges c old p.operands (Phi.mk p.target inputs).operands →
      Step removes t ((setInputs n p inputs >>= fun _ => adopt n c old).after t)
  /-- A node goes, and what is below it. -/
  | remove (n : NodeId) : removes → Step removes t ((cleanup n).after t)

/-- A tree in order is built on in steps. -/
def Builds (removes : Prop) (t t' : Tree) : Prop :=
  t.Coherent → Relation.ReflTransGen (Step removes) t t'

/-- A tree in order is built on in steps, some of which may be removals. -/
abbrev Grows : Tree → Tree → Prop := Builds True

variable {removes : Prop}

namespace Step

theorem evolves (h : Step removes t t') : t.Evolves t' := by
  intro hc
  cases h with
  | make nodup hdetached hlinked hadopts =>
    exact ⟨hc.adopts nodup hdetached hlinked hadopts,
      IsTrans.trans _ _ _ (steady_push t _) hadopts.steady⟩
  | rewrite hs ho hlinked =>
    exact ⟨hc.put_occurrence hs ho hlinked, steady_put hs (by rw [ho]; rfl) rfl⟩
  | exchange hn hdetached hexchange =>
    obtain ⟨s, hs, hnode⟩ := node?_eq_some.1 hn
    exact Takes.evolves (fun hc => takes_of_exchange hc hs hnode hdetached hexchange) hc
  | remove n _ => exact evolves_cleanup n t hc

theorem builds (h : Step removes t t') : t.Builds removes t' := fun _ => .single h

end Step

theorem Builds.evolves (h : t.Builds removes t') : t.Evolves t' := by
  intro hc
  have hsteps := h hc
  clear h
  induction hsteps with
  | refl => exact ⟨hc, Std.Refl.refl t⟩
  | tail _ hstep ih =>
    obtain ⟨hc', hsteady⟩ := hstep.evolves ih.1
    exact ⟨hc', IsTrans.trans _ _ _ ih.2 hsteady⟩

theorem Grows.moves_evolves {α : Type} {x : Edit Tree α} (hx : Moves Grows x) : Moves Evolves x :=
  fun t => (hx t).evolves

instance : IsPreorder Tree (Builds removes) where
  refl _ _ := .refl
  trans _ _ _ h h' hc := (h hc).trans (h' (h.evolves hc).1)

section making

/-- The operations that statements and phis are made of lead along `R`. A phi at a handler is made
without operands. -/
structure Making (R : Tree → Tree → Prop) : Prop where
  useLike : ∀ n, Moves R (useLike n)
  allocOwning : ∀ node : Node, (∀ o, node ≠ .occurrence o) →
    (∀ p, node = .phi p → p.kind = .catching → p.operands = []) → Moves R (allocOwning node)
  define : ∀ n, Moves R (define n)

namespace Making

variable {R : Tree → Tree → Prop} [IsPreorder Tree R] (h : Making R)

include h

theorem moves_newStore (target value : NodeId) : Moves R (newStore target value) :=
  (Moves.ask _).bind fun _ => (h.allocOwning _ (by simp) (by simp)).bind fun _ =>
    (h.define target).bind fun _ => .pure _

theorem moves_newShuffle (kind : Shuffle) (targets sources : List NodeId) :
    Moves R (newShuffle kind targets sources) :=
  (Moves.guard _ _).bind fun _ => (Moves.forM (fun _ => .ask _) _).bind fun _ =>
    (h.allocOwning _ (by simp) (by simp)).bind fun _ =>
      (Moves.forM h.define _).bind fun _ => .pure _

theorem moves_newPhi (target : NodeId) (inputs : PhiInputs)
    (hinputs : Phi.kind ⟨target, inputs⟩ = .catching → Phi.operands ⟨target, inputs⟩ = []) :
    Moves R (newPhi target inputs) :=
  (h.allocOwning _ (by simp) (by rintro _ ⟨⟩; exact hinputs)).bind fun _ =>
    (h.define target).bind fun _ => .pure _

theorem moves_newOperands (target : NodeId) (keys : List BlockId) :
    Moves R (newOperands target keys) :=
  .mapM (fun _ => (h.useLike target).bind fun _ => .pure _) keys

theorem moves_newJoinPhi (target : NodeId) (block : BlockId) (preds : List BlockId) :
    Moves R (newJoinPhi target block preds) :=
  (Moves.ask _).bind fun _ => (h.moves_newOperands target preds).bind fun _ =>
    h.moves_newPhi target _ (by simp [Phi.kind])

theorem moves_newCatchPhi (target : NodeId) : Moves R (newCatchPhi target) :=
  (Moves.ask _).bind fun _ => h.moves_newPhi target _ fun _ => rfl

theorem moves_newReturnPhi (target : NodeId) (sub : SubroutineId) (calls : List BlockId) :
    Moves R (newReturnPhi target sub calls) :=
  (Moves.ask _).bind fun _ => (h.moves_newOperands target calls).bind fun _ =>
    h.moves_newPhi target _ (by simp [Phi.kind])

end Making

theorem linksBelow_of_link {o : Occurrence} (h : o.link = none) (size : Nat) :
    LinksBelow size (.occurrence o) := by
  rintro _ d ⟨⟩ hd
  simp [h] at hd

theorem moves_alloc {node : Node} (h : node.children = [])
    (hlinked : ∀ size, LinksBelow size node) : Moves (Builds removes) (alloc node) := fun t =>
  Step.builds (.make (by simp [h]) (by simp [h]) (hlinked t.size)
    ⟨rfl, fun m => by rw [h, if_neg List.not_mem_nil]; rfl⟩)

theorem moves_allocOwning {node : Node} (hlinked : ∀ size, LinksBelow size node) :
    Moves (Builds removes) (allocOwning node) := fun t => by
  rcases allocOwning_cases node t with ⟨e, he⟩ | ⟨t', hrun, nodup, hdetached, hadopts⟩
  · rw [after_of_error he]
    exact Std.Refl.refl t
  · rw [after_of_ok hrun]
    exact Step.builds (.make nodup hdetached (hlinked t.size) hadopts)

theorem builds_modifyOccurrence {f : Occurrence → Occurrence}
    (hf : ∀ o d, (f o).link = some d → o.link = some d ∨ d.index < t.size) :
    t.Builds removes ((modifyOccurrence n f).after t) := by
  refine Moves.of_ask fun node hnode => ?_
  cases node with
  | occurrence o =>
    obtain ⟨s, hs, ho⟩ := node?_eq_some.1 (node_ok.1 hnode)
    have hset : setNode n (.occurrence (f o)) t =
        .ok ⟨⟩ (t.put n { s with node := .occurrence (f o) }) :=
      setNode_ok.2 ⟨s, hs, rfl⟩
    rw [after_of_ok hset]
    exact Step.builds (.rewrite hs ho (hf o))
  | _ => exact Std.Refl.refl t

theorem moves_define (n : NodeId) : Moves (Builds removes) (define n) := fun _ =>
  builds_modifyOccurrence (by simp)

theorem moves_setVersion (n : NodeId) (version : Nat) :
    Moves (Builds removes) (setVersion n version) := fun _ =>
  builds_modifyOccurrence fun _ _ hd => .inl hd

theorem moves_setLink (n : NodeId) (d : Option NodeId) : Moves (Builds removes) (setLink n d) := by
  intro t
  rcases after_setLink n d t with hsame | ⟨-, hleads, hafter⟩
  · rw [hsame]
    exact Std.Refl.refl t
  · rw [hafter]
    refine builds_modifyOccurrence fun _ x hx => ?_
    obtain ⟨-, o, -, ho, -⟩ := hleads x hx
    obtain ⟨s, hs, -⟩ := node?_eq_some.1 ho
    exact .inr (index_lt_size hs)

theorem moves_useLike (n : NodeId) : Moves (Builds removes) (useLike n) :=
  (Moves.ask _).bind fun _ => moves_alloc rfl (linksBelow_of_link rfl)

theorem Builds.making : Making (Builds removes) where
  useLike := moves_useLike
  allocOwning _ hnode _ := moves_allocOwning fun _ o _ ho => absurd ho (hnode o)
  define := moves_define

end making

section operands

theorem checkOperand_ok {operand : NodeId} {u : Unit} (h : t.checkOperand n operand = .ok u) :
    t.Detached operand ∧ ∃ p v, t.node? n = some (.phi p) ∧ t.varOf p.target = .ok v ∧
      t.varOf operand = .ok v ∧ t.isDefinition operand = .ok false := by
  simp only [checkOperand, Except.bind_eq_ok, checkDetached_ok, phiTarget_ok] at h
  obtain ⟨_, ⟨p, hp, rfl⟩, _, hdetached, defines, hdefines, h⟩ := h
  cases defines with
  | true => simp at h
  | false =>
    simp only [Bool.false_eq_true, if_false, Except.bind_eq_ok] at h
    obtain ⟨v, hv, w, hw, h⟩ := h
    by_cases he : v = w
    · exact ⟨hdetached, p, w, hp, hw, he ▸ hv, hdefines⟩
    · simp [he] at h

/-- Nothing has been done, or the phi `n` has taken an operand over that it accepts, and has given
up another one at most. -/
inductive TakesOperand (t : Tree) (n operand : NodeId) : Tree → Prop
  | nothing : TakesOperand t n operand t
  | taken {p : Phi} {inputs : PhiInputs} {old : Option NodeId} :
      t.checkOperand n operand = .ok ⟨⟩ → t.node? n = some (.phi p) →
      Exchanges operand old p.operands (Phi.mk p.target inputs).operands →
      TakesOperand t n operand ((setInputs n p inputs >>= fun _ => adopt n operand old).after t)

theorem TakesOperand.builds {operand : NodeId} (h : t.TakesOperand n operand t') :
    t.Builds removes t' := by
  cases h with
  | nothing => exact Std.Refl.refl t
  | taken hcheck hn hexchange =>
    exact Step.builds (.exchange hn (checkOperand_ok hcheck).1 hexchange)

theorem takesOperand_setJoinOperand (n : NodeId) (pred : BlockId) (operand : NodeId) (t : Tree) :
    t.TakesOperand n operand ((setJoinOperand n pred operand).after t) := by
  refine after_ask_bind .nothing fun _ hcheck => after_ask_bind .nothing fun p hp => ?_
  obtain ⟨target, inputs⟩ := p
  cases inputs with
  | joining block operands =>
    refine .taken hcheck (phi_ok.1 hp) ?_
    rcases PhiInputs.assign_cases pred operand operands with h | ⟨o, before, after, h⟩
    · exact .inl h
    · exact .inr ⟨o, before, after, h⟩
  | _ => exact .nothing

theorem takesOperand_setReturnOperand (n : NodeId) (call : BlockId) (operand : NodeId) (t : Tree) :
    t.TakesOperand n operand ((setReturnOperand n call operand).after t) := by
  refine after_ask_bind .nothing fun _ hcheck => after_ask_bind .nothing fun p hp => ?_
  obtain ⟨target, inputs⟩ := p
  cases inputs with
  | returning s operands =>
    refine .taken hcheck (phi_ok.1 hp) ?_
    rcases PhiInputs.assign_cases call operand operands with h | ⟨o, before, after, h⟩
    · exact .inl h
    · exact .inr ⟨o, before, after, h⟩
  | _ => exact .nothing

theorem takesOperand_addCatchOperand (n operand : NodeId) (t : Tree) :
    t.TakesOperand n operand ((addCatchOperand n operand).after t) := by
  refine after_ask_bind .nothing fun _ hcheck => after_ask_bind .nothing fun d _ =>
    after_ask_bind .nothing fun has _ => ?_
  cases has with
  | true => exact .nothing
  | false => exact after_ask_bind .nothing fun p hp => .taken hcheck (phi_ok.1 hp) (.inl ⟨rfl, rfl⟩)

theorem takesOperand_setCatchOperand (n : NodeId) (index : Nat) (operand : NodeId) (t : Tree) :
    t.TakesOperand n operand ((setCatchOperand n index operand).after t) := by
  refine after_ask_bind .nothing fun _ hcheck => after_ask_bind .nothing fun p hp =>
    after_ask_bind .nothing fun operands hoperands => ?_
  cases hold : operands[index]? with
  | none => exact .nothing
  | some old =>
    obtain ⟨p', hp', hinputs⟩ := catchOperands_ok.1 hoperands
    obtain rfl : p = p' := by simpa [phi_ok.1 hp] using hp'
    refine .taken hcheck (phi_ok.1 hp) (.inr ?_)
    obtain ⟨hlt, hget⟩ := List.getElem?_eq_some_iff.1 hold
    refine ⟨old, operands.take index, operands.drop (index + 1), rfl, ?_,
      List.set_eq_take_append_cons_drop.trans (if_pos hlt)⟩
    simp [Phi.operands, hinputs, ← hget]

theorem moves_addCatchOperand (n operand : NodeId) :
    Moves (Builds removes) (addCatchOperand n operand) :=
  fun t => (takesOperand_addCatchOperand n operand t).builds

end operands

end Tree

end MethodFlow
