import MethodFlow.Proofs.Tree.Primitive
import MethodFlow.Proofs.Tree.Rewiring

/-!
Where links come from. New occurrences are not linked and copies are linked as what they are copied
from, so a link is traced back to one that was there before, unless it is set. Nodes that were there
stay what they are as long as they are in use.
-/

namespace MethodFlow

open Edit

namespace Node

theorem withChildren_eq_occurrence {node : Node} {cs : List NodeId} {o : Occurrence}
    (h : node.withChildren cs = .occurrence o) : node = .occurrence o := by
  unfold withChildren at h
  split at h
  · exact h
  · split at h <;> first | exact h | exact absurd h (by simp)

theorem Alters.defines {o : Occurrence} {node : Node} (h : Alters (.occurrence o) node)
    (ho : o.defines = true) :
    ∃ o', node = .occurrence o' ∧ o'.var = o.var ∧ o'.defines = true := by
  cases h with
  | same => exact ⟨o, rfl, rfl, ho⟩
  | define => exact ⟨_, rfl, rfl, rfl⟩
  | number _ i => exact ⟨_, rfl, rfl, ho⟩

end Node

namespace Occurrence

/-- An occurrence of `v` that links to `d`. -/
def Wires (v : Var) (d : NodeId) (o : Occurrence) : Prop := o.var = v ∧ o.link = some d

/-- A definition that links to another. -/
def IsLinkedDefinition (o : Occurrence) : Prop := o.defines = true ∧ o.link ≠ none

/-- A property of linked occurrences, whatever their numbers. -/
structure OfLinks (P : Occurrence → Prop) : Prop where
  linked : ∀ o, P o → o.link ≠ none
  numbered : ∀ o i, P { o with version := some i } → P o

theorem ofLinks_wires (v : Var) (d : NodeId) : OfLinks (Wires v d) :=
  ⟨fun _ h => by simp [h.2], fun _ _ => id⟩

theorem ofLinks_isLinkedDefinition : OfLinks IsLinkedDefinition := ⟨fun _ h => h.2, fun _ _ => id⟩

end Occurrence

namespace Tree

variable {t t' : Tree} {n : NodeId} {v : Var} {d : NodeId} {P : Occurrence → Prop}

/-- Some occurrence in use has the property. -/
def Holds (t : Tree) (P : Occurrence → Prop) : Prop := ∃ n o, t.node? n = some (.occurrence o) ∧ P o

/-- Only nodes that are no occurrences are new or changed. -/
def LosesOccurrences (t t' : Tree) : Prop :=
  ∀ m o, t'.node? m = some (.occurrence o) → t.node? m = some (.occurrence o)

namespace LosesOccurrences

instance : IsPreorder Tree LosesOccurrences where
  refl _ _ _ := id
  trans _ _ _ h h' m o := h m o ∘ h' m o

theorem moves_modifySlot (n : NodeId) {f : Slot → Slot}
    (hf : ∀ s o, (f s).node = .occurrence o → s.node = .occurrence o) :
    Moves LosesOccurrences (modifySlot n f) := fun t m o ho => by
  rcases after_modifySlot n f t with hsame | ⟨s, hs, hput⟩
  · rwa [hsame] at ho
  · rw [hput, node?_put hs] at ho
    split at ho
    · next he => exact node?_eq_some.2 ⟨s, he ▸ hs, hf s o (Option.some.inj ho)⟩
    · exact ho

theorem moves_replaceChild (p old new : NodeId) :
    Moves LosesOccurrences (modifySlot p fun s => { s with node := s.node.replaceChild old new }) :=
  moves_modifySlot p fun _ _ => Node.withChildren_eq_occurrence

/-- Removing nodes makes and changes no occurrence. -/
theorem pruning : Pruning LosesOccurrences where
  setParent n _ := moves_modifySlot n fun _ _ => id
  setInputs t n _ _ _ := moves_modifySlot n (fun _ _ h => absurd h (by simp)) t
  cleanup n t := Moves.of_ask fun _ _ m o ho => by
    obtain ⟨s, hs, hnode⟩ := node?_eq_some.1 ho
    rcases (prunes_sweep t.size t n).2 m with hkept | hgone
    · exact node?_eq_some.2 ⟨s, hkept ▸ hs, hnode⟩
    · simp [hgone] at hs

end LosesOccurrences

/-- Some occurrence has had the property before if one has it. -/
def Traces (P : Occurrence → Prop) (t t' : Tree) : Prop := t'.Holds P → t.Holds P

theorem LosesOccurrences.traces (h : t.LosesOccurrences t') : Traces P t t' :=
  fun ⟨m, o, ho, hP⟩ => ⟨m, o, h m o ho, hP⟩

namespace Traces

instance : IsPreorder Tree (Traces P) where
  refl _ := id
  trans _ _ _ h h' := h ∘ h'

theorem of_push {node : Node} (h : ∀ o, node = .occurrence o → P o → t.Holds P) :
    Traces P t (t.push { node }) := fun ⟨m, o, ho, hP⟩ => by
  rw [node?_push] at ho
  split at ho
  · exact h o (Option.some.inj ho) hP
  · exact ⟨m, o, ho, hP⟩

theorem of_modifyOccurrence {f : Occurrence → Occurrence}
    (hf : ∀ o, t.node? n = some (.occurrence o) → P (f o) → t.Holds P) :
    Traces P t ((modifyOccurrence n f).after t) := fun ⟨m, o, ho, hP⟩ => by
  rcases node?_modifyOccurrence n f t with hsame | ⟨oc, hoc, hnodes⟩
  · exact ⟨m, o, hsame ▸ ho, hP⟩
  · rw [hnodes] at ho
    split at ho
    · obtain rfl := Node.occurrence.inj (Option.some.inj ho)
      exact hf oc hoc hP
    · exact ⟨m, o, ho, hP⟩

theorem moves_modifyOccurrence {f : Occurrence → Occurrence} (hf : ∀ o, P (f o) → P o)
    (n : NodeId) :
    Moves (Traces P) (modifyOccurrence n f) := fun _ =>
  of_modifyOccurrence fun o ho hP => ⟨n, o, ho, hf o hP⟩

theorem moves_copy (limit : Nat) (n : NodeId) : Moves (Traces P) (copy limit n) := by
  induction limit generalizing n with
  | zero => exact .throw _
  | succ limit ih =>
    refine fun t => Moves.of_ask fun node hnode => ?_
    rcases after_bind_cases (x := node.children.mapM (copy limit)) (f := fun copies => do
      let top ← alloc (node.withChildren copies)
      copies.forM fun c => setParent c (some top)
      return top) t with hstop | ⟨copies, -, hrest⟩
    · exact hstop ▸ Moves.mapM ih _ t
    · have hchildren : Traces P t ((node.children.mapM (copy limit)).after t) := Moves.mapM ih _ t
      generalize (node.children.mapM (copy limit)).after t = m at hchildren hrest
      rw [hrest, after_bind_of_ok (alloc_ok.2 ⟨rfl, rfl⟩)]
      -- The node was read before its children were copied, and the copy is made after that.
      have hpush : Traces P t (m.push { node := node.withChildren copies }) := by
        rintro ⟨k, o, ho, hP⟩
        rw [node?_push] at ho
        split at ho
        · have ho := Node.withChildren_eq_occurrence (Option.some.inj ho)
          exact ⟨n, o, ho ▸ node_ok.1 hnode, hP⟩
        · exact hchildren ⟨k, o, ho, hP⟩
      have hparent (c : NodeId) : Moves (Traces P) (setParent c (some m.next)) := fun t =>
        (LosesOccurrences.pruning.setParent c _ t).traces
      exact IsTrans.trans _ _ _ hpush ((Moves.forM hparent copies).bind (fun _ => .pure _) _)

/-- Links are not made but by linking. -/
theorem primitive (h : Occurrence.OfLinks P) : Primitive (Traces P) where
  toPruning := LosesOccurrences.pruning.mono fun _ _ => LosesOccurrences.traces
  alloc _ hnode _ := of_push fun o ho hP => absurd (hnode o ho).2 (h.linked o hP)
  copy := moves_copy
  define n := moves_modifyOccurrence (fun _ hP => absurd rfl (h.linked _ hP)) n
  setVersion n i := moves_modifyOccurrence (fun o => h.numbered o i) n

theorem moves_setBlock (n : NodeId) (block : Option BlockId) :
    Moves (Traces P) (setBlock n block) :=
  fun t =>
    (LosesOccurrences.moves_modifySlot n (f := fun s => { s with block }) (fun _ _ => id) t).traces

theorem moves_replace_wires (old new : NodeId) :
    Moves (Traces (Occurrence.Wires v d)) (replace old new) :=
  (primitive (Occurrence.ofLinks_wires v d)).moves_replace (moves_modifyOccurrence fun _ => id)
    (fun p old new t => (LosesOccurrences.moves_replaceChild p old new t).traces) old new

/-- Only uses are linked. -/
theorem moves_setLink_isLinkedDefinition (n : NodeId) (d : Option NodeId) :
    Moves (Traces Occurrence.IsLinkedDefinition) (setLink n d) := by
  intro t
  rcases after_setLink n d t with hsame | ⟨hdefines, -, hafter⟩
  · rw [hsame]
    exact Std.Refl.refl t
  · rw [hafter]
    refine of_modifyOccurrence fun o' ho' hP => ?_
    obtain ⟨o, ho, huse⟩ := isDefinition_ok.1 hdefines
    obtain rfl : o = o' := by simpa [ho] using ho'
    exact absurd hP.1 (by simp [huse])

/-- In the place of a definition, an occurrence that is not linked makes no linked definition. -/
theorem replace_isLinkedDefinition {old new : NodeId}
    (h : ∀ p, t.parent old = .ok (some p) → t.isDefinition old = .ok true →
      t.checkDetached new = .ok ⟨⟩ → t.isDefinition new = .ok false → t.linkOf new = .ok none) :
    Traces Occurrence.IsLinkedDefinition t ((replace old new).after t) := by
  refine (primitive Occurrence.ofLinks_isLinkedDefinition).replace
    (fun p hp hnew hold => ?_) fun p t =>
    (LosesOccurrences.moves_replaceChild p old new t).traces
  refine of_modifyOccurrence fun o ho hP => ?_
  cases hdefines : o.defines with
  | true => exact ⟨new, o, ho, hdefines, hP.2⟩
  | false =>
    obtain ⟨o', ho', hlink⟩ := linkOf_ok.1 (h p hp (isDefinition_iff_defines.2 hold) hnew
      (isDefinition_ok.2 ⟨o, ho, hdefines⟩))
    obtain rfl : o = o' := by simpa [ho] using ho'
    exact absurd hlink hP.2

end Traces

/-- No definition is new, and a link that is new leads to one. -/
structure Recedes (t t' : Tree) : Prop where
  definitions : ∀ v d, t'.Occurs v true d → t.Occurs v true d
  wires : ∀ v d, t'.Holds (Occurrence.Wires v d) → t.Holds (Occurrence.Wires v d) ∨
    t.Occurs v true d

theorem LosesOccurrences.recedes (h : t.LosesOccurrences t') : t.Recedes t' where
  definitions _ d := fun ⟨o, ho, hd⟩ => ⟨o, h d o ho, hd⟩
  wires _ _ := .inl ∘ h.traces

namespace Recedes

instance : IsPreorder Tree Recedes where
  refl _ := ⟨fun _ _ => id, fun _ _ => .inl⟩
  trans _ _ _ h h' := by
    refine ⟨fun v d => h.definitions v d ∘ h'.definitions v d, fun v d hd => ?_⟩
    rcases h'.wires v d hd with hd | hd
    · exact h.wires v d hd
    · exact .inr (h.definitions v d hd)

theorem pruning : Pruning Recedes :=
  LosesOccurrences.pruning.mono fun _ _ => LosesOccurrences.recedes

theorem of_link {link : Option NodeId}
    (h : ∀ o, t.node? n = some (.occurrence o) → ∀ d, link = some d → t.Occurs o.var true d) :
    t.Recedes ((modifyOccurrence n fun o => { o with link }).after t) := by
  rcases node?_modifyOccurrence n (fun o => { o with link }) t with hsame | ⟨o, ho, hnodes⟩
  · rw [hsame]
    exact Std.Refl.refl t
  · refine ⟨fun v d => ?_, fun v d => ?_⟩
    · rintro ⟨o', ho', hv, hd⟩
      rw [hnodes] at ho'
      split at ho'
      · next he =>
        obtain rfl := Node.occurrence.inj (Option.some.inj ho')
        exact ⟨o, he ▸ ho, hv, hd⟩
      · exact ⟨o', ho', hv, hd⟩
    · rintro ⟨m, o', ho', hv, hd⟩
      rw [hnodes] at ho'
      split at ho'
      · obtain rfl := Node.occurrence.inj (Option.some.inj ho')
        exact .inr (hv ▸ h o ho d hd)
      · exact .inl ⟨m, o', ho', hv, hd⟩

theorem moves_setLink (n : NodeId) (d : Option NodeId) : Moves Recedes (setLink n d) := by
  intro t
  rcases after_setLink n d t with hsame | ⟨-, hleads, hafter⟩
  · rw [hsame]
    exact Std.Refl.refl t
  · rw [hafter]
    refine of_link fun o₁ ho₁ x hx => ?_
    obtain ⟨o, o', ho, ho', hdefines, hvar⟩ := hleads x hx
    obtain rfl : o = o₁ := by simpa [ho] using ho₁
    exact ⟨o', ho', hvar, hdefines⟩

end Recedes

/-- Nodes that are removed stay removed, and definitions stay definitions of their variables as long
as they are in use. -/
structure Persists (t t' : Tree) : Prop where
  size : t.size ≤ t'.size
  old : ∀ n, n.index < t.size → t'.isLive n = true → t.isLive n = true
  definitions : ∀ v d, t.Occurs v true d → t'.isLive d = true → t'.Occurs v true d

namespace Persists

instance : IsPreorder Tree Persists where
  refl _ := ⟨Nat.le_refl _, fun _ _ => id, fun _ _ h _ => h⟩
  trans _ _ _ h h' := by
    have hlive (n : NodeId) (hn : n.index < _) := h'.old n (Nat.lt_of_lt_of_le hn h.size)
    exact ⟨Nat.le_trans h.size h'.size, fun n hn => h.old n hn ∘ hlive n hn, fun v d hd hlast =>
      h'.definitions v d (h.definitions v d hd (hlive d hd.index_lt hlast)) hlast⟩

theorem of_push (t : Tree) (node : Node) : t.Persists (t.push { node }) := by
  refine ⟨by simp, fun m hm hlive => ?_, fun v d hd _ => ?_⟩
  · rwa [isLive, slot?_push, if_neg (ne_next hm)] at hlive
  · obtain ⟨o, ho, hd'⟩ := hd
    exact ⟨o, node?_push_of_some ho _, hd'⟩

theorem of_put {s s' : Slot} (hs : t.slot? n = some s) (h : ∀ o, s.node = .occurrence o →
      o.defines = true → ∃ o', s'.node = .occurrence o' ∧ o'.var = o.var ∧ o'.defines = true) :
    t.Persists (t.put n s') := by
  refine ⟨by simp, fun m _ hlive => ?_, fun v d hd _ => ?_⟩
  · rw [isLive, slot?_put_of_slot hs] at hlive
    split at hlive
    · next he => simp [isLive, he, hs]
    · exact hlive
  · obtain ⟨o, ho, hv, hdefines⟩ := hd
    by_cases he : d = n
    · subst he
      obtain ⟨_, hs', hnode⟩ := node?_eq_some.1 ho
      obtain rfl := Option.some.inj (hs.symm.trans hs')
      obtain ⟨o', ho', hv', hdefines'⟩ := h o hnode hdefines
      exact ⟨o', by rw [node?_put hs, if_pos rfl, ho'], hv'.trans hv, hdefines'⟩
    · exact ⟨o, by rw [node?_put hs, if_neg he, ho], hv, hdefines⟩

theorem of_prunes (h : t.Prunes t') : t.Persists t' := by
  refine ⟨h.1.ge, fun m _ hlive => ?_, fun v d hd hlive => ?_⟩
  · rcases h.2 m with hsame | hgone
    · rwa [isLive, hsame] at hlive
    · simp [isLive, hgone] at hlive
  · rcases h.2 d with hsame | hgone
    · exact hd.of_slot? hsame
    · simp [isLive, hgone] at hlive

theorem primitive : Primitive Persists :=
  .of_writes of_push (fun _ _ _ _ hs _ halters => of_put hs fun _ ho => (ho ▸ halters).defines)
    fun _ _ => of_prunes

theorem moves_modifySlot (n : NodeId) {f : Slot → Slot}
    (hf : ∀ s o, s.node = .occurrence o → (f s).node = .occurrence o) :
    Moves Persists (modifySlot n f) :=
  moves_modifySlot_of_put fun _ s hs => of_put hs fun o ho hdefines => ⟨o, hf s o ho, rfl, hdefines⟩

theorem moves_modifyOccurrence (n : NodeId) {f : Occurrence → Occurrence}
    (hf : ∀ o, (f o).var = o.var ∧ (o.defines = true → (f o).defines = true)) :
    Moves Persists (modifyOccurrence n f) := by
  apply moves_modifyOccurrence_of_put
  refine fun t s o hs hnode => of_put hs fun o' ho' hdefines => ?_
  obtain rfl := Node.occurrence.inj (hnode.symm.trans ho')
  exact ⟨f o, rfl, (hf o).1, (hf o).2 hdefines⟩

theorem moves_setLink (n : NodeId) (d : Option NodeId) : Moves Persists (setLink n d) :=
  Primitive.moves_setLink (fun n _ => moves_modifyOccurrence n fun _ => ⟨rfl, id⟩) n d

theorem moves_setBlock (n : NodeId) (block : Option BlockId) : Moves Persists (setBlock n block) :=
  moves_modifySlot n fun _ _ => id

theorem moves_run (r : TreeRequest) : Moves Persists r.run :=
  primitive.moves_run r (fun n d _ => moves_setLink n d) fun old new _ =>
    primitive.moves_replace (fun n => moves_modifyOccurrence n fun _ => ⟨rfl, fun _ => rfl⟩)
      (fun p _ _ => moves_modifySlot p fun s o ho => by
        simp [Node.replaceChild, Node.withChildren, Node.children, Node.writes, Node.reads, ho]) old
          new

end Persists

end Tree

end MethodFlow
