import MethodFlow.Proofs.Edit
import MethodFlow.Tree.Build
import MethodFlow.Tree.Phi

/-!
What the operations on trees read and write, slot by slot.
-/

namespace MethodFlow.Tree

variable {t t' : Tree} {n m : NodeId}

section reads

theorem index_lt_size {s : Slot} (h : t.slot? n = some s) : n.index < t.size := by
  rcases Nat.lt_or_ge n.index t.size with hin | hout
  · exact hin
  · simp [slot?, Array.getElem?_eq_none hout] at h

theorem ne_next (h : n.index < t.size) : n ≠ t.next := by
  rintro rfl
  exact Nat.lt_irrefl _ h

@[simp] theorem slot_ok {s : Slot} : t.slot n = .ok s ↔ t.slot? n = some s := by
  unfold slot
  cases t.slot? n <;> simp

theorem node?_eq_some {node : Node} :
    t.node? n = some node ↔ ∃ s, t.slot? n = some s ∧ s.node = node := by
  simp [node?]

theorem isLive_of_node? {node : Node} (h : t.node? n = some node) : t.isLive n = true := by
  obtain ⟨s, hs, -⟩ := node?_eq_some.1 h
  simp [isLive, hs]

@[simp] theorem node_ok {found : Node} : t.node n = .ok found ↔ t.node? n = some found := by
  simp [node, node?_eq_some]

@[simp] theorem parent_ok {p : Option NodeId} :
    t.parent n = .ok p ↔ ∃ s, t.slot? n = some s ∧ s.parent = p := by
  simp [parent]

@[simp] theorem children_ok {cs : List NodeId} :
    t.children n = .ok cs ↔ ∃ s, t.slot? n = some s ∧ s.node.children = cs := by
  simp only [children, Except.map_eq_ok, node_ok, node?_eq_some]
  constructor
  · rintro ⟨_, ⟨s, hs, rfl⟩, hcs⟩
    exact ⟨s, hs, hcs⟩
  · rintro ⟨s, hs, hcs⟩
    exact ⟨_, ⟨s, hs, rfl⟩, hcs⟩

@[simp] theorem expression_ok {node : Node} :
    t.expression n = .ok node ↔ t.node? n = some node ∧ node.isStatement = false := by
  simp only [expression, Except.bind_eq_ok, node_ok]
  constructor
  · rintro ⟨found, hfound, h⟩
    split at h <;> simp_all
  · rintro ⟨hnode, hkind⟩
    exact ⟨node, hnode, by simp [hkind]⟩

@[simp] theorem statement_ok {node : Node} :
    t.statement n = .ok node ↔ t.node? n = some node ∧ node.isStatement = true := by
  simp only [statement, Except.bind_eq_ok, node_ok]
  constructor
  · rintro ⟨found, hfound, h⟩
    split at h <;> simp_all
  · rintro ⟨hnode, hkind⟩
    exact ⟨node, hnode, by simp [hkind]⟩

@[simp] theorem occurrence_ok {o : Occurrence} :
    t.occurrence n = .ok o ↔ t.node? n = some (.occurrence o) := by
  simp only [occurrence, Except.bind_eq_ok, expression_ok]
  constructor
  · rintro ⟨found, ⟨hfound, -⟩, h⟩
    split at h <;> simp_all
  · intro h
    exact ⟨_, ⟨h, rfl⟩, by simp⟩

@[simp] theorem varOf_ok {v : Var} :
    t.varOf n = .ok v ↔ ∃ o, t.node? n = some (.occurrence o) ∧ o.var = v := by
  simp [varOf]

@[simp] theorem isDefinition_ok {defines : Bool} :
    t.isDefinition n = .ok defines ↔
      ∃ o, t.node? n = some (.occurrence o) ∧ o.defines = defines := by
  simp [isDefinition]

@[simp] theorem linkOf_ok {d : Option NodeId} :
    t.linkOf n = .ok d ↔ ∃ o, t.node? n = some (.occurrence o) ∧ o.link = d := by
  simp [linkOf]

@[simp] theorem definitionOf_ok {d : Option NodeId} :
    t.definitionOf n = .ok d ↔
      ∃ o, t.node? n = some (.occurrence o) ∧ o.definition n = d := by
  simp [definitionOf]

theorem linkOf_congr {t' : Tree} (h : t'.slot? n = t.slot? n) : t'.linkOf n = t.linkOf n := by
  simp [linkOf, occurrence, expression, node, slot, h]

theorem definitionOf_congr {t' : Tree} (h : t'.slot? n = t.slot? n) :
    t'.definitionOf n = t.definitionOf n := by
  simp [definitionOf, occurrence, expression, node, slot, h]

@[simp] theorem phi_ok {p : Phi} : t.phi n = .ok p ↔ t.node? n = some (.phi p) := by
  simp only [phi, Except.bind_eq_ok, statement_ok]
  constructor
  · rintro ⟨found, ⟨hfound, -⟩, h⟩
    split at h <;> simp_all
  · intro h
    exact ⟨_, ⟨h, rfl⟩, by simp⟩

theorem joinOperandAt_ok {pred : BlockId} {operand : Option NodeId} :
    t.joinOperandAt n pred = .ok operand ↔ ∃ p block operands, t.node? n = some (.phi p) ∧
      p.inputs = .joining block operands ∧ PhiInputs.find? operands pred = operand := by
  simp only [joinOperandAt, Except.bind_eq_ok, phi_ok]
  refine exists_congr fun p => ?_
  cases p.inputs <;> simp [and_assoc]

theorem exists_of_phiKind?_joining (h : t.phiKind? n = some .joining) :
    ∃ p block operands, t.node? n = some (.phi p) ∧ p.inputs = .joining block operands := by
  unfold phiKind? at h
  split at h
  · next p hp =>
    cases hinputs : p.inputs with
    | joining block operands => exact ⟨p, block, operands, hp, hinputs⟩
    | catching operands => simp [Phi.kind, hinputs] at h
    | returning s operands => simp [Phi.kind, hinputs] at h
  · simp at h

@[simp] theorem phiTarget_ok {target : NodeId} :
    t.phiTarget n = .ok target ↔ ∃ p, t.node? n = some (.phi p) ∧ p.target = target := by
  simp [phiTarget]

@[simp] theorem phiOperands_ok {operands : List NodeId} :
    t.phiOperands n = .ok operands ↔ ∃ p, t.node? n = some (.phi p) ∧ p.operands = operands := by
  simp [phiOperands]

@[simp] theorem checkDetached_ok {u : Unit} :
    t.checkDetached n = .ok u ↔
      ∃ s, t.slot? n = some s ∧ s.node.isStatement = false ∧ s.parent = none := by
  simp only [checkDetached, Except.bind_eq_ok, slot_ok]
  constructor
  · rintro ⟨s, hs, h⟩
    refine ⟨s, hs, ?_⟩
    split at h
    · simp at h
    · split at h <;> simp_all
  · rintro ⟨s, hs, hkind, hparent⟩
    exact ⟨s, hs, by simp [hkind, hparent]⟩

theorem climb_succ_ok {start top : NodeId} {limit : Nat} :
    t.climb start (limit + 1) n = .ok top ↔
      ∃ s, t.slot? n = some s ∧
        match s.parent with
        | none => n = top
        | some p => t.climb start limit p = .ok top := by
  simp only [climb, Except.bind_eq_ok, parent_ok]
  constructor
  · rintro ⟨parent, ⟨s, hs, rfl⟩, h⟩
    refine ⟨s, hs, ?_⟩
    cases hp : s.parent with
    | none =>
      rw [hp] at h
      exact Except.pure_eq_ok.1 h
    | some p => simpa [hp] using h
  · rintro ⟨s, hs, h⟩
    refine ⟨s.parent, ⟨s, hs, rfl⟩, ?_⟩
    cases hp : s.parent with
    | none =>
      rw [hp] at h
      exact Except.pure_eq_ok.2 h
    | some p => simpa [hp] using h

@[simp] theorem blockOf_ok {block : Option BlockId} :
    t.blockOf n = .ok block ↔
      ∃ top, t.root n = .ok top ∧ ∃ s, t.slot? top = some s ∧ s.block = block := by
  simp [blockOf]

theorem blockOf_root {s : Slot} (hs : t.slot? n = some s) (hp : s.parent = none) :
    t.blockOf n = .ok s.block :=
  blockOf_ok.2 ⟨n, climb_succ_ok.2 ⟨s, hs, by simp [hp]⟩, s, hs, rfl⟩

theorem slot_of_blockOf {block : Option BlockId} (h : t.blockOf n = .ok block) :
    ∃ s, t.slot? n = some s := by
  obtain ⟨top, htop, -⟩ := blockOf_ok.1 h
  obtain ⟨s, hs, -⟩ := climb_succ_ok.1 htop
  exact ⟨s, hs⟩

/-- Nodes stay below the nodes that they belong to, and these in their blocks. -/
def KeepsPlaces (t t' : Tree) : Prop :=
  t.size ≤ t'.size ∧ ∀ m s, t.slot? m = some s →
    ∃ s', t'.slot? m = some s' ∧ s'.parent = s.parent ∧ s'.block = s.block

theorem KeepsPlaces.climb (h : t.KeepsPlaces t') {start start' top : NodeId} {limit limit' : Nat}
    (hclimb : t.climb start limit n = .ok top) (hle : limit ≤ limit') :
    t'.climb start' limit' n = .ok top := by
  induction limit generalizing n limit' with
  | zero => simp [Tree.climb] at hclimb
  | succ limit ih =>
    obtain ⟨l, rfl⟩ : ∃ l, limit' = l + 1 := ⟨limit' - 1, by omega⟩
    obtain ⟨s, hs, hrest⟩ := climb_succ_ok.1 hclimb
    obtain ⟨s', hs', hparent, -⟩ := h.2 n s hs
    refine climb_succ_ok.2 ⟨s', hs', ?_⟩
    rw [hparent]
    cases hp : s.parent with
    | none => simpa [hp] using hrest
    | some p =>
      rw [hp] at hrest
      exact ih hrest (by omega)

theorem KeepsPlaces.blockOf (h : t.KeepsPlaces t') {block : Option BlockId}
    (hblock : t.blockOf n = .ok block) : t'.blockOf n = .ok block := by
  obtain ⟨top, hroot, s, hs, rfl⟩ := blockOf_ok.1 hblock
  obtain ⟨s', hs', -, hsame⟩ := h.2 top s hs
  have hsize := h.1
  exact blockOf_ok.2 ⟨top, h.climb hroot (by omega), s', hs', hsame⟩

def defines (t : Tree) (n : NodeId) : Bool :=
  (t.node? n).any fun
    | .occurrence o => o.defines
    | _ => false

theorem isDefinition_iff_defines : t.isDefinition n = .ok true ↔ t.defines n := by
  rw [isDefinition_ok, defines]
  cases t.node? n with
  | none => simp
  | some node => cases node <;> simp

theorem defines_of_isDefinition {b : Bool} (h : t.isDefinition n = .ok b) : t.defines n = b := by
  obtain ⟨o, ho, rfl⟩ := isDefinition_ok.1 h
  simp [defines, ho]

end reads

section relinking

variable {allowed : Var → Prop} {scope scope' : NodeId → Var → Prop} {t'' : Tree} {s s' : Slot}

/-- Slots of one node that differ at most in the link and the number of an occurrence of a variable
that is `allowed`. -/
def Relinked (allowed : Var → Prop) (s s' : Slot) : Prop :=
  s' = s ∨ ∃ o link version, s.node = .occurrence o ∧ allowed o.var ∧
    s' = { s with node := .occurrence { o with link, version } }

theorem Relinked.trans {s'' : Slot} (h : Relinked allowed s s') (h' : Relinked allowed s' s'') :
    Relinked allowed s s'' := by
  rcases h with rfl | ⟨o, link, version, ho, hv, rfl⟩
  · exact h'
  · refine .inr ?_
    rcases h' with rfl | ⟨o', link', version', ho', -, rfl⟩
    · exact ⟨o, link, version, ho, hv, rfl⟩
    · obtain rfl := Node.occurrence.inj ho'
      exact ⟨o, link', version', ho, hv, rfl⟩

theorem Relinked.mono {allowed' : Var → Prop} (h : Relinked allowed s s')
    (hallowed : ∀ v, allowed v → allowed' v) : Relinked allowed' s s' := by
  rcases h with rfl | ⟨o, link, version, ho, hv, rfl⟩
  · exact .inl rfl
  · exact .inr ⟨o, link, version, ho, hallowed _ hv, rfl⟩

/-- What becomes of the nodes of a tree while the occurrences in `scope` are worked on: they keep
everything but the links and the numbers of these, and those that are gone stay gone. -/
structure Retouched (scope : NodeId → Var → Prop) (t t' : Tree) : Prop where
  size : t.size ≤ t'.size
  slot : ∀ m s, t.slot? m = some s → ∃ s', t'.slot? m = some s' ∧ Relinked (scope m) s s'
  gone : ∀ m : NodeId, m.index < t.size → t.slot? m = none → t'.slot? m = none

theorem Retouched.refl (t : Tree) : Retouched scope t t :=
  ⟨Nat.le_refl _, fun _ s hs => ⟨s, hs, .inl rfl⟩, fun _ _ => id⟩

/-- Work goes on in a scope that reaches no further among the nodes that were there first. -/
theorem Retouched.trans (h : Retouched scope t t') (h' : Retouched scope' t' t'')
    (hscope : ∀ (m : NodeId) v, m.index < t.size → scope' m v → scope m v) :
    Retouched scope t t'' := by
  refine ⟨Nat.le_trans h.size h'.size, fun m s hs => ?_, fun m hm hs => ?_⟩
  · obtain ⟨s', hs', hr⟩ := h.slot m s hs
    obtain ⟨s'', hs'', hr'⟩ := h'.slot m s' hs'
    exact ⟨s'', hs'', hr.trans (hr'.mono fun v => hscope m v (index_lt_size hs))⟩
  · exact h'.gone m (Nat.lt_of_lt_of_le hm h.size) (h.gone m hm hs)

theorem Retouched.keep (h : Retouched scope t t') (hsize : t'.size ≤ t''.size)
    (hslots : ∀ m : NodeId, m.index < t.size → t''.slot? m = t'.slot? m) :
    Retouched scope t t'' := by
  refine ⟨Nat.le_trans h.size hsize, fun m s hs => ?_, fun m hm hs => ?_⟩
  · rw [hslots m (index_lt_size hs)]
    exact h.slot m s hs
  · rw [hslots m hm]
    exact h.gone m hm hs

theorem Retouched.slot?_of_not (h : Retouched scope t t') (hs : t.slot? m = some s)
    (hout : ∀ o, s.node = .occurrence o → ¬scope m o.var) : t'.slot? m = some s := by
  obtain ⟨s', hs', rfl | ⟨o, _, _, ho, hv, -⟩⟩ := h.slot m s hs
  · exact hs'
  · exact absurd hv (hout o ho)

theorem Retouched.occurrence_of_not (h : Retouched scope t t') {o : Occurrence}
    (hm : t.node? m = some (.occurrence o)) (hout : ¬scope m o.var) :
    t'.node? m = some (.occurrence o) := by
  obtain ⟨s, hs, hnode⟩ := node?_eq_some.1 hm
  refine node?_eq_some.2 ⟨s, h.slot?_of_not hs fun o' ho' => ?_, hnode⟩
  rwa [Node.occurrence.inj (ho'.symm.trans hnode)]

/-- Work with an empty scope leaves every node as it is. -/
theorem Retouched.slot?_eq (h : Retouched (fun _ _ => False) t t') (hm : m.index < t.size) :
    t'.slot? m = t.slot? m := by
  cases hs : t.slot? m with
  | none => exact h.gone m hm hs
  | some s => exact h.slot?_of_not hs fun _ _ => id

theorem Retouched.isLive (h : Retouched scope t t') (hm : m.index < t.size) :
    t'.isLive m = t.isLive m := by
  cases hs : t.slot? m with
  | none => simp [Tree.isLive, hs, h.gone m hm hs]
  | some s =>
    obtain ⟨s', hs', -⟩ := h.slot m s hs
    simp [Tree.isLive, hs, hs']

theorem Retouched.of_slots (hsize : t.size ≤ t'.size)
    (h : ∀ m : NodeId, m.index < t.size → t'.slot? m = t.slot? m) : Retouched scope t t' :=
  (Retouched.refl t).keep hsize h

theorem Retouched.keepsPlaces (h : Retouched scope t t') : t.KeepsPlaces t' := by
  refine ⟨h.size, fun m s hs => ?_⟩
  obtain ⟨s', hs', rfl | ⟨_, _, _, -, -, rfl⟩⟩ := h.slot m s hs
  · exact ⟨_, hs', rfl, rfl⟩
  · exact ⟨_, hs', rfl, rfl⟩

theorem Retouched.occurrence (h : Retouched scope t t') {o : Occurrence}
    (ho : t.node? n = some (.occurrence o)) :
    ∃ o', t'.node? n = some (.occurrence o') ∧ o'.var = o.var ∧ o'.defines = o.defines := by
  obtain ⟨s, hs, hnode⟩ := node?_eq_some.1 ho
  obtain ⟨s', hs', rfl | ⟨o₁, link, version, ho₁, -, rfl⟩⟩ := h.slot n s hs
  · exact ⟨o, node?_eq_some.2 ⟨_, hs', hnode⟩, rfl, rfl⟩
  · obtain rfl := Node.occurrence.inj (hnode.symm.trans ho₁)
    exact ⟨_, node?_eq_some.2 ⟨_, hs', rfl⟩, rfl, rfl⟩

theorem Retouched.varOf (h : Retouched scope t t') {w : Var} (hw : t.varOf n = .ok w) :
    t'.varOf n = .ok w := by
  obtain ⟨o, ho, rfl⟩ := varOf_ok.1 hw
  obtain ⟨o', ho', hv, -⟩ := h.occurrence ho
  exact varOf_ok.2 ⟨o', ho', hv⟩

theorem Retouched.defines (h : Retouched scope t t') {w : Var} (hn : t.varOf n = .ok w) :
    t'.defines n = t.defines n := by
  obtain ⟨o, ho, -⟩ := varOf_ok.1 hn
  obtain ⟨o', ho', -, hd⟩ := h.occurrence ho
  simp [Tree.defines, ho, ho', hd]

end relinking

section writes

@[simp] theorem size_push (s : Slot) : (t.push s).size = t.size + 1 := by simp [size, push]

@[simp] theorem size_put (s : Slot) : (t.put n s).size = t.size := by simp [size, put]

@[simp] theorem size_erase : (t.erase n).size = t.size := by simp [size, erase]

theorem slot?_put_of_slot {s : Slot} (h : t.slot? n = some s) (s' : Slot) (m : NodeId) :
    (t.put n s').slot? m = if m = n then some s' else t.slot? m :=
  slot?_put (by simp [isLive, h])

theorem slot?_put_cases {s s' sm : Slot} (hs : t.slot? n = some s)
    (hm : (t.put n s').slot? m = some sm) : m = n ∧ sm = s' ∨ m ≠ n ∧ t.slot? m = some sm := by
  rw [slot?_put_of_slot hs] at hm
  split at hm
  · next he => exact .inl ⟨he, (Option.some.inj hm).symm⟩
  · next he => exact .inr ⟨he, hm⟩

theorem exists_slot?_put {s sm : Slot} (hs : t.slot? n = some s) (s' : Slot)
    (hm : t.slot? m = some sm) :
    ∃ new, (t.put n s').slot? m = some new ∧ (m = n ∧ sm = s ∧ new = s' ∨ m ≠ n ∧ new = sm) := by
  by_cases he : m = n
  · subst he
    exact ⟨s', by rw [slot?_put_of_slot hs, if_pos rfl],
      .inl ⟨rfl, Option.some.inj (hm.symm.trans hs), rfl⟩⟩
  · exact ⟨sm, by rw [slot?_put_of_slot hs, if_neg he, hm], .inr ⟨he, rfl⟩⟩

theorem isLive_put {s : Slot} (hs : t.slot? n = some s) (s' : Slot) (hm : t.isLive m = true) :
    (t.put n s').isLive m = true := by
  rw [isLive, slot?_put_of_slot hs]
  split
  · rfl
  · exact hm

@[simp] theorem alloc_ok {node : Node} :
    alloc node t = .ok n t' ↔ t.next = n ∧ t.push { node } = t' := by
  simp [alloc]

@[simp] theorem modifySlot_ok {f : Slot → Slot} {u : Unit} :
    modifySlot n f t = .ok u t' ↔ ∃ s, t.slot? n = some s ∧ t.put n (f s) = t' := by
  simp only [modifySlot, Edit.bind_ok, Edit.ask_ok, slot_ok, Edit.modify_ok]
  constructor
  · rintro ⟨s, _, ⟨hs, rfl⟩, h⟩
    exact ⟨s, hs, h⟩
  · rintro ⟨s, hs, h⟩
    exact ⟨s, t, ⟨hs, rfl⟩, h⟩

@[simp] theorem setParent_ok {parent : Option NodeId} {u : Unit} :
    setParent n parent t = .ok u t' ↔ ∃ s, t.slot? n = some s ∧ t.put n { s with parent } = t' :=
  modifySlot_ok

@[simp] theorem setBlock_ok {block : Option BlockId} {u : Unit} :
    setBlock n block t = .ok u t' ↔ ∃ s, t.slot? n = some s ∧ t.put n { s with block } = t' :=
  modifySlot_ok

@[simp] theorem setNode_ok {node : Node} {u : Unit} :
    setNode n node t = .ok u t' ↔ ∃ s, t.slot? n = some s ∧ t.put n { s with node } = t' :=
  modifySlot_ok

@[simp] theorem modifyOccurrence_ok {f : Occurrence → Occurrence} {u : Unit} :
    modifyOccurrence n f t = .ok u t' ↔ ∃ s o, t.slot? n = some s ∧ s.node = .occurrence o ∧
      t.put n { s with node := .occurrence (f o) } = t' := by
  simp only [modifyOccurrence, Edit.bind_ok, Edit.ask_ok, node_ok]
  constructor
  · rintro ⟨found, _, ⟨hfound, rfl⟩, h⟩
    split at h
    · obtain ⟨s, hs, hnode⟩ := node?_eq_some.1 hfound
      obtain ⟨s', hs', rfl⟩ := setNode_ok.1 h
      rw [hs, Option.some.injEq] at hs'
      subst hs'
      exact ⟨s, _, hs, hnode, rfl⟩
    · simp at h
  · rintro ⟨s, o, hs, hnode, rfl⟩
    exact ⟨_, t, ⟨node?_eq_some.2 ⟨s, hs, hnode⟩, rfl⟩, setNode_ok.2 ⟨s, hs, rfl⟩⟩

theorem after_modifySlot (n : NodeId) (f : Slot → Slot) (t : Tree) :
    (modifySlot n f).after t = t ∨
      ∃ s, t.slot? n = some s ∧ (modifySlot n f).after t = t.put n (f s) := by
  cases hs : t.slot? n with
  | none =>
    have hslot : t.slot n = .error (.invalidNode n) := by rw [slot, hs]
    exact .inl (by rw [modifySlot, Edit.after_bind, Edit.ask, hslot])
  | some s =>
    have hrun : modifySlot n f t = .ok ⟨⟩ (t.put n (f s)) := modifySlot_ok.2 ⟨s, hs, rfl⟩
    exact .inr ⟨s, rfl, Edit.after_of_ok hrun⟩

theorem after_modifyOccurrence (n : NodeId) (f : Occurrence → Occurrence) (t : Tree) :
    (modifyOccurrence n f).after t = t ∨ ∃ s o, t.slot? n = some s ∧ s.node = .occurrence o ∧
      (modifyOccurrence n f).after t = t.put n { s with node := .occurrence (f o) } := by
  cases hnode : t.node n with
  | error e => exact .inl (by rw [modifyOccurrence, Edit.after_bind, Edit.ask, hnode])
  | ok node =>
    obtain ⟨s, hs, hn⟩ := node?_eq_some.1 (node_ok.1 hnode)
    cases node with
    | occurrence o =>
      have hrun : modifyOccurrence n f t = .ok ⟨⟩ (t.put n { s with node := .occurrence (f o) }) :=
        modifyOccurrence_ok.2 ⟨s, o, hs, hn, rfl⟩
      exact .inr ⟨s, o, hs, hn, Edit.after_of_ok hrun⟩
    | _ => exact .inl (by rw [modifyOccurrence, Edit.after_bind, Edit.ask, hnode]; rfl)

theorem refuses_modifyOccurrence (n : NodeId) (f : Occurrence → Occurrence) (t : Tree) :
    Edit.Refuses (modifyOccurrence n f) t := by
  refine .of_ask fun node hnode => ?_
  cases node with
  | occurrence o => exact .of_ask fun s _ => Edit.Succeeds.refuses (Edit.succeeds_of_ok rfl)
  | _ =>
    rintro e s' ⟨⟩
    rfl

@[simp] theorem useLike_ok :
    useLike m t = .ok n t' ↔ ∃ o, t.node? m = some (.occurrence o) ∧ t.next = n ∧
      t.push { node := .occurrence { var := o.var, type := o.type } } = t' := by
  simp only [useLike, Edit.bind_ok, Edit.ask_ok, occurrence_ok, alloc_ok]
  constructor
  · rintro ⟨o, _, ⟨ho, rfl⟩, h⟩
    exact ⟨o, ho, h⟩
  · rintro ⟨o, ho, h⟩
    exact ⟨o, t, ⟨ho, rfl⟩, h⟩

theorem checkLink_ok {d : NodeId} {u : Unit} (h : t.checkLink n d = .ok u) :
    ∃ o o', t.node? n = some (.occurrence o) ∧ t.node? d = some (.occurrence o') ∧
      o'.defines = true ∧ o'.var = o.var := by
  simp only [checkLink, Except.bind_eq_ok, isDefinition_ok] at h
  obtain ⟨defines, ⟨o', ho', hd⟩, h⟩ := h
  cases defines with
  | false => simp at h
  | true =>
    simp only [Bool.not_true, Bool.false_eq_true, if_false, varOf_ok, Except.bind_eq_ok] at h
    obtain ⟨_, ⟨o, ho, rfl⟩, _, ⟨o'', ho'', rfl⟩, h⟩ := h
    obtain rfl : o' = o'' := by simpa [ho'] using ho''
    refine ⟨o, o', ho, ho', hd, ?_⟩
    by_cases hvar : o.var = o'.var
    · exact hvar.symm
    · simp [hvar] at h

/-- A link is written into a use, and it leads to a definition of the variable that the use belongs
to. A link that is refused is not written. -/
theorem after_setLink (n : NodeId) (d : Option NodeId) (t : Tree) :
    (setLink n d).after t = t ∨ t.isDefinition n = .ok false ∧
      (∀ x, d = some x → ∃ o o', t.node? n = some (.occurrence o) ∧
        t.node? x = some (.occurrence o') ∧ o'.defines = true ∧ o'.var = o.var) ∧
      (setLink n d).after t = (modifyOccurrence n fun o => { o with link := d }).after t := by
  let P (t' : Tree) : Prop := t' = t ∨ t.isDefinition n = .ok false ∧
    (∀ x, d = some x → ∃ o o', t.node? n = some (.occurrence o) ∧
      t.node? x = some (.occurrence o') ∧ o'.defines = true ∧ o'.var = o.var) ∧
    t' = (modifyOccurrence n fun o => { o with link := d }).after t
  refine Edit.after_ask_bind (P := P) (.inl rfl) fun defines hdefines => ?_
  cases defines with
  | true => exact .inl rfl
  | false =>
    cases d with
    | none => exact .inr ⟨hdefines, by simp, rfl⟩
    | some d =>
      refine Edit.after_ask_bind (P := P) (.inl rfl) fun _ hcheck => .inr ⟨hdefines, ?_, rfl⟩
      rintro _ ⟨⟩
      exact checkLink_ok hcheck

/-- A link leads from a use, to a definition of the same variable. -/
theorem setLink_ok {d : Option NodeId} {u : Unit} (h : setLink n d t = .ok u t') :
    ∃ s o, t.slot? n = some s ∧ s.node = .occurrence o ∧ o.defines = false ∧
      (∀ target, d = some target →
        ∃ o', t.node? target = some (.occurrence o') ∧ o'.defines = true ∧ o'.var = o.var) ∧
      t.put n { s with node := .occurrence { o with link := d } } = t' := by
  simp only [setLink, Edit.bind_ok, Edit.ask_ok, isDefinition_ok] at h
  obtain ⟨defines, _, ⟨⟨o, ho, hd⟩, rfl⟩, h⟩ := h
  cases defines with
  | true => simp at h
  | false =>
    obtain ⟨s, hs, hnode⟩ := node?_eq_some.1 ho
    have hput : modifyOccurrence n (fun o => { o with link := d }) t = .ok u t' ∧
        ∀ target, d = some target → ∃ o', t.node? target = some (.occurrence o') ∧
          o'.defines = true ∧ o'.var = o.var := by
      cases d with
      | none => exact ⟨h, by simp⟩
      | some target =>
        simp only [Bool.false_eq_true, if_false, Edit.bind_ok, Edit.ask_ok] at h
        obtain ⟨_, _, ⟨hcheck, rfl⟩, h⟩ := h
        refine ⟨h, ?_⟩
        rintro _ ⟨⟩
        obtain ⟨o₁, o', ho₁, ho', hdef, hvar⟩ := checkLink_ok hcheck
        rw [ho, Option.some.injEq, Node.occurrence.injEq] at ho₁
        subst ho₁
        exact ⟨o', ho', hdef, hvar⟩
    obtain ⟨h, htarget⟩ := hput
    obtain ⟨s', o', hs', hnode', rfl⟩ := modifyOccurrence_ok.1 h
    rw [hs, Option.some.injEq] at hs'
    subst hs'
    rw [hnode, Node.occurrence.injEq] at hnode'
    subst hnode'
    exact ⟨s, o, hs, hnode, hd, htarget, rfl⟩

end writes

section replacing

/-- The parent stores `new` in the place of `old`, which is removed. -/
def exchangeChild (parent old new : NodeId) : Edit Tree Unit := do
  modifySlot parent fun s => { s with node := s.node.replaceChild old new }
  setParent new (some parent)
  discard old

/-- What becomes of a tree where `new` is to take over from `old`: it is a definition then if `old`
is. -/
def Prepares (old new : NodeId) (t t' : Tree) : Prop :=
  if t.defines old then modifyOccurrence new (fun o => { o with defines := true }) t = .ok ⟨⟩ t'
  else t' = t

/-- Nothing has been done, or a parent has exchanged `old` for `new`, which was prepared before. -/
inductive Replaces (t : Tree) (old new : NodeId) : Tree → Prop
  | nothing : Replaces t old new t
  | exchanged {p : NodeId} {t' : Tree} : t.parent old = .ok (some p) →
    t.checkDetached new = .ok ⟨⟩ →
      Prepares old new t t' → Replaces t old new ((exchangeChild p old new).after t')

theorem replaces_replace (old new : NodeId) (t : Tree) :
    t.Replaces old new ((replace old new).after t) := by
  refine Edit.after_ask_bind .nothing fun parent hparent => ?_
  cases parent with
  | none => exact .nothing
  | some p =>
    refine Edit.after_ask_bind .nothing fun _ hnew => ?_
    show t.Replaces old new (Edit.after (if t.defines old = true then _ else _) t)
    by_cases hold : t.defines old = true
    · rw [if_pos hold]
      cases hmark : modifyOccurrence new (fun o => { o with defines := true }) t with
      | ok u t' =>
        rw [Edit.after_bind_of_ok hmark]
        exact .exchanged hparent hnew (by rw [Prepares, if_pos hold, hmark])
      | error e s =>
        obtain rfl := refuses_modifyOccurrence new _ t e s hmark
        rw [Edit.after_bind, hmark]
        exact .nothing
    · rw [if_neg hold]
      exact .exchanged hparent hnew (by rw [Prepares, if_neg hold])

end replacing

section owning

/-- A node of a tree that a parent may take over. -/
def Detached (t : Tree) (n : NodeId) : Prop :=
  ∃ s, t.slot? n = some s ∧ s.node.isStatement = false ∧ s.parent = none

theorem Detached.ne_of_parent (h : t.Detached n) {s : Slot} {p : NodeId} (hs : t.slot? m = some s)
    (hp : s.parent = some p) : m ≠ n := by
  rintro rfl
  obtain ⟨s', hs', -, hnone⟩ := h
  obtain rfl : s = s' := by simpa [hs] using hs'
  simp [hp] at hnone

/-- The slots of a tree after a parent took nodes over. -/
def Adopts (parent : NodeId) (cs : List NodeId) (t t' : Tree) : Prop :=
  t'.size = t.size ∧ ∀ m, t'.slot? m =
    if m ∈ cs then (t.slot? m).map fun s => { s with parent := some parent } else t.slot? m

theorem checkChildren_ok {seen cs : List NodeId} {u : Unit} :
    t.checkChildren seen cs = .ok u ↔
      cs.Nodup ∧ (∀ c ∈ cs, c ∉ seen) ∧ ∀ c ∈ cs, t.Detached c := by
  induction cs generalizing seen with
  | nil => simp [checkChildren]
  | cons c rest ih =>
    have hstep : t.checkChildren seen (c :: rest) = .ok u ↔
        t.Detached c ∧ c ∉ seen ∧ t.checkChildren (c :: seen) rest = .ok u := by
      simp only [checkChildren, Except.bind_eq_ok, checkDetached_ok, exists_const, Detached]
      by_cases hseen : c ∈ seen <;> simp [hseen]
    rw [hstep, ih, List.nodup_cons]
    simp only [List.mem_cons, not_or, forall_eq_or_imp]
    constructor
    · rintro ⟨hc, hseen, hn, hs, hd⟩
      exact ⟨⟨fun hmem => (hs c hmem).1 rfl, hn⟩, ⟨hseen, fun x hx => (hs x hx).2⟩, hc, hd⟩
    · rintro ⟨⟨hout, hn⟩, ⟨hseen, hs⟩, hc, hd⟩
      exact ⟨hc, hseen, hn, fun x hx => ⟨fun he => hout (he ▸ hx), hs x hx⟩, hd⟩

theorem exists_adopts {cs : List NodeId} (parent : NodeId) (nodup : cs.Nodup)
    (detached : ∀ c ∈ cs, t.Detached c) :
    ∃ t', cs.forM (attach parent) t = .ok ⟨⟩ t' ∧ Adopts parent cs t t' := by
  induction cs generalizing t with
  | nil => exact ⟨t, rfl, rfl, by simp⟩
  | cons c rest ih =>
    obtain ⟨hc, hrest⟩ := List.nodup_cons.1 nodup
    obtain ⟨s, hs, hkind, hparent⟩ := detached c (by simp)
    let first := t.put c { s with parent := some parent }
    have hfirst : attach parent c t = .ok ⟨⟩ first := by
      simp only [attach, Edit.bind_ok, Edit.ask_ok, checkDetached_ok, setParent_ok]
      exact ⟨⟨⟩, t, ⟨⟨s, hs, hkind, hparent⟩, rfl⟩, s, hs, rfl⟩
    have hslot (m : NodeId) := slot?_put_of_slot hs { s with parent := some parent } m
    have hdet : ∀ x ∈ rest, first.Detached x := by
      intro x hx
      obtain ⟨sx, hsx, hx'⟩ := detached x (by simp [hx])
      have hne : x ≠ c := fun he => hc (he ▸ hx)
      exact ⟨sx, by rw [hslot, if_neg hne, hsx], hx'⟩
    obtain ⟨t', hrun, hsize, hslots⟩ := ih hrest hdet
    refine ⟨t', ?_, by simp [hsize, first], fun m => ?_⟩
    · rw [List.forM, Edit.bind_ok]
      exact ⟨⟨⟩, first, hfirst, hrun⟩
    · rw [hslots, hslot]
      by_cases hm : m = c
      · subst hm
        simp [hc, hs]
      · simp [hm]

theorem exists_allocOwning {node : Node} (nodup : node.children.Nodup)
    (detached : ∀ c ∈ node.children, t.Detached c) :
    ∃ t', allocOwning node t = .ok t.next t' ∧
      Adopts t.next node.children (t.push { node }) t' := by
  have hpushed : ∀ c ∈ node.children, (t.push { node }).Detached c := by
    intro c hc
    obtain ⟨s, hs, h⟩ := detached c hc
    exact ⟨s, by rw [slot?_push, if_neg (ne_next (index_lt_size hs)), hs], h⟩
  obtain ⟨t', hrun, hadopts⟩ := exists_adopts t.next nodup hpushed
  refine ⟨t', ?_, hadopts⟩
  simp only [allocOwning, Edit.bind_ok, Edit.ask_ok, alloc_ok, Edit.pure_ok]
  exact ⟨⟨⟩, t, ⟨checkChildren_ok.2 ⟨nodup, by simp, detached⟩, rfl⟩, _, _, ⟨rfl, rfl⟩, _, _, hrun,
    rfl, rfl⟩

theorem allocOwning_cases (node : Node) (t : Tree) :
    (∃ e, allocOwning node t = .error e t) ∨
      ∃ t', allocOwning node t = .ok t.next t' ∧ node.children.Nodup ∧
        (∀ c ∈ node.children, t.Detached c) ∧ Adopts t.next node.children (t.push { node }) t' := by
  cases hcheck : t.checkChildren [] node.children with
  | error e => exact .inl ⟨e, by simp [allocOwning, bind, EStateM.bind, Edit.ask, hcheck]⟩
  | ok u =>
    obtain ⟨hn, -, hd⟩ := checkChildren_ok.1 hcheck
    obtain ⟨t', hrun, hadopts⟩ := exists_allocOwning hn hd
    exact .inr ⟨t', hrun, hn, hd, hadopts⟩

theorem allocOwning_ok {node : Node} (h : allocOwning node t = .ok n t') :
    n = t.next ∧ node.children.Nodup ∧ (∀ c ∈ node.children, t.Detached c) ∧
      Adopts n node.children (t.push { node }) t' := by
  rcases allocOwning_cases node t with ⟨e, he⟩ | ⟨t'', hrun, hrest⟩
  · simp [he] at h
  · rw [hrun, EStateM.Result.ok.injEq] at h
    obtain ⟨rfl, rfl⟩ := h
    exact ⟨rfl, hrest⟩

end owning

end MethodFlow.Tree
