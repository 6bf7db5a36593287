import MethodFlow.Proofs.Success.Tree
import MethodFlow.Proofs.Tree.Steps

/-!
What operations do to the links and the numbers of occurrences. Links and numbers are given one by
one, and work on phis and statements gives none.
-/

namespace MethodFlow.Tree

open Edit

variable {t t' : Tree} {n m : NodeId} {s : Slot}

theorem node?_push (t : Tree) (s : Slot) (m : NodeId) :
    (t.push s).node? m = if m = t.next then some s.node else t.node? m := by
  rw [node?, slot?_push]
  split <;> rfl

theorem node?_push_of_some {node : Node} (h : t.node? m = some node) (s : Slot) :
    (t.push s).node? m = some node := by
  obtain ⟨sm, hs, -⟩ := node?_eq_some.1 h
  rw [node?_push, if_neg (ne_next (index_lt_size hs)), h]

theorem node?_put (hs : t.slot? n = some s) (s' : Slot) (m : NodeId) :
    (t.put n s').node? m = if m = n then some s'.node else t.node? m := by
  rw [node?, slot?_put_of_slot hs]
  split <;> rfl

theorem node?_put_of_node (hs : t.slot? n = some s) {s' : Slot} (hnode : s'.node = s.node)
    (m : NodeId) :
    (t.put n s').node? m = t.node? m := by
  rw [node?_put hs]
  split
  · next h => rw [h, hnode, node?, hs, Option.map_some]
  · rfl

theorem Adopts.node? {parent : NodeId} {cs : List NodeId} (h : Adopts parent cs t t') (m : NodeId) :
    t'.node? m = t.node? m := by
  rw [Tree.node?, Tree.node?, h.2]
  split
  · cases t.slot? m <;> rfl
  · rfl

theorem node?_modifySlot (n : NodeId) {f : Slot → Slot} (hf : ∀ s, (f s).node = s.node)
    (m : NodeId) :
    ((modifySlot n f).after t).node? m = t.node? m := by
  rcases after_modifySlot n f t with hsame | ⟨s, hs, hput⟩
  · rw [hsame]
  · rw [hput, node?_put_of_node hs (hf s)]

theorem node?_modifyOccurrence (n : NodeId) (f : Occurrence → Occurrence) (t : Tree) :
    (modifyOccurrence n f).after t = t ∨
      ∃ o, t.node? n = some (.occurrence o) ∧ ∀ m, ((modifyOccurrence n f).after t).node? m =
        if m = n then some (.occurrence (f o)) else t.node? m := by
  refine (after_modifyOccurrence n f t).imp_right ?_
  rintro ⟨s, o, hs, hnode, hput⟩
  exact ⟨o, node?_eq_some.2 ⟨s, hs, hnode⟩, fun m => hput ▸ node?_put hs _ m⟩

theorem node?_of_allocOwning {node found : Node}
    (h : ((allocOwning node).after t).node? m = some found) :
    found = node ∨ t.node? m = some found := by
  rcases allocOwning_cases node t with ⟨e, he⟩ | ⟨t', hrun, -, -, hadopts⟩
  · rw [after_of_error he] at h
    exact .inr h
  · rw [after_of_ok hrun, hadopts.node?, node?_push] at h
    split at h
    · exact .inl (Option.some.inj h).symm
    · exact .inr h

theorem node?_of_cleanup {found : Node} (h : ((cleanup n).after t).node? m = some found) :
    t.node? m = some found := by
  revert h
  refine after_ask_bind (P := fun t' : Tree => t'.node? m = some found → t.node? m = some found) id
    fun _ _ h => ?_
  obtain ⟨s, hs, hnode⟩ := node?_eq_some.1 h
  rcases (prunes_sweep t.size t n).2 m with hkept | hgone
  · exact node?_eq_some.2 ⟨s, hkept ▸ hs, hnode⟩
  · exact absurd (hgone.symm.trans hs) (by simp)

def SameOccurrences (t t' : Tree) : Prop :=
  ∀ m o, t'.node? m = some (.occurrence o) ↔ t.node? m = some (.occurrence o)

instance : IsPreorder Tree SameOccurrences where
  refl _ _ _ := .rfl
  trans _ _ _ h h' m o := (h' m o).trans (h m o)

theorem SameOccurrences.moves_addCatchOperand (n operand : NodeId) :
    Moves SameOccurrences (addCatchOperand n operand) := by
  refine fun t => Moves.of_ask fun _ _ => Moves.of_ask fun d _ => Moves.of_ask fun has _ => ?_
  cases has with
  | true => exact Std.Refl.refl t
  | false =>
    refine Moves.of_ask fun p hp => ?_
    obtain ⟨s, hs, hnode⟩ := node?_eq_some.1 (phi_ok.1 hp)
    have hset : setInputs n p (.catching (p.operands ++ [operand])) t = .ok ⟨⟩ _ :=
      setNode_ok.2 ⟨s, hs, rfl⟩
    rw [after_bind_of_ok hset]
    intro m o
    rw [adopt, after_bind_pure, setParent,
      node?_modifySlot operand (f := fun s => { s with parent := some n }) fun _ => rfl,
      node?_put hs]
    split
    · next he => simp [he, node?_eq_some, hs, hnode]
    · rfl

section inheriting

variable {α : Type} {field : Occurrence → Option α}

/-- Whatever an occurrence has under `field` it has had before. -/
def Inherits (field : Occurrence → Option α) (t t' : Tree) : Prop :=
  ∀ n o', t'.node? n = some (.occurrence o') → ∀ x, field o' = some x →
    ∃ o, t.node? n = some (.occurrence o) ∧ field o = some x

instance : IsPreorder Tree (Inherits field) where
  refl _ _ o h _ hx := ⟨o, h, hx⟩
  trans _ _ _ h h' n _ ho'' x hx := by
    obtain ⟨o', ho', hx⟩ := h' n _ ho'' x hx
    exact h n o' ho' x hx

/-- A field that nothing is under in a new occurrence, and that is not filled when an occurrence
becomes a definition. -/
structure Spared (field : Occurrence → Option α) : Prop where
  fresh : ∀ var type, field { var, type } = none
  define : ∀ o x, field { o with defines := true, link := none } = some x → field o = some x

theorem spared_link : Spared Occurrence.link := ⟨fun _ _ => rfl, by simp⟩

theorem spared_version : Spared Occurrence.version := ⟨fun _ _ => rfl, fun _ _ => id⟩

theorem inherits_of_nodes (h : ∀ m o, t'.node? m = some (.occurrence o) →
    field o = none ∨ t.node? m = some (.occurrence o)) : Inherits field t t' :=
  fun m o ho x hx => by
  rcases h m o ho with hnone | hold
  · simp [hnone] at hx
  · exact ⟨o, hold, hx⟩

theorem inherits_push {node : Node} (hnode : ∀ o, node = .occurrence o → field o = none) :
    Inherits field t (t.push { node }) := inherits_of_nodes fun m o ho => by
  rw [node?_push] at ho
  split at ho
  · exact .inl (hnode o (Option.some.inj ho))
  · exact .inr ho

theorem Inherits.moves_allocOwning {node : Node} (hnode : ∀ o, node ≠ .occurrence o) :
    Moves (Inherits field) (allocOwning node) := fun _ => inherits_of_nodes fun _ o ho =>
  (node?_of_allocOwning ho).imp_left fun he => absurd he.symm (hnode o)

theorem Inherits.moves_define (hf : Spared field) (n : NodeId) :
    Moves (Inherits field) (define n) := fun t => by
  rcases node?_modifyOccurrence n (fun o => { o with defines := true, link := none }) t with
    hsame | ⟨o, ho, hnodes⟩
  · rw [define, hsame]
    exact Std.Refl.refl t
  · intro m o' ho' x hx
    rw [define, hnodes] at ho'
    split at ho'
    · next hm =>
      obtain rfl := Node.occurrence.inj (Option.some.inj ho')
      exact ⟨o, hm ▸ ho, hf.define o x hx⟩
    · exact ⟨o', ho', hx⟩

theorem Inherits.making (hf : Spared field) : Making (Inherits field) where
  useLike _ := (Moves.ask _).bind fun _ _ => inherits_push (by rintro _ ⟨⟩; exact hf.fresh _ _)
  allocOwning _ hnode _ := Inherits.moves_allocOwning hnode
  define := Inherits.moves_define hf

theorem Inherits.moves_modifySlot (n : NodeId) {f : Slot → Slot} (hf : ∀ s, (f s).node = s.node) :
    Moves (Inherits field) (modifySlot n f) := fun _ => inherits_of_nodes fun m o ho => .inr (by
  rwa [node?_modifySlot n hf] at ho)

theorem Inherits.moves_cleanup (n : NodeId) : Moves (Inherits field) (cleanup n) := fun _ =>
  inherits_of_nodes fun _ _ ho => .inr (node?_of_cleanup ho)

end inheriting

section catching

/-- A phi at a handler that has operands has been there before. -/
def NoneCaught (t t' : Tree) : Prop :=
  ∀ n p, t'.node? n = some (.phi p) → p.kind = .catching → p.operands = [] ∨
    t.node? n = some (.phi p)

instance : IsPreorder Tree NoneCaught where
  refl _ _ _ h _ := .inr h
  trans _ _ _ h h' n p hp hkind := (h' n p hp hkind).elim .inl fun hp => h n p hp hkind

theorem NoneCaught.making : Making NoneCaught where
  useLike _ := (Moves.ask _).bind fun _ t n p hp _ => .inr (by
    rw [show (alloc _).after t = t.push _ from rfl, node?_push] at hp
    split at hp
    · simp at hp
    · exact hp)
  allocOwning _ _ hnode _ _ p hp hkind :=
    (node?_of_allocOwning hp).imp_left fun he => hnode p he.symm hkind
  define n t := by
    rcases node?_modifyOccurrence n (fun o => { o with defines := true, link := none }) t with
      hsame | ⟨o, -, hnodes⟩
    · rw [define, hsame]
      exact Std.Refl.refl t
    · intro m p hp _
      rw [define, hnodes] at hp
      split at hp
      · simp at hp
      · exact .inr hp

theorem NoneCaught.moves_modifySlot (n : NodeId) {f : Slot → Slot} (hf : ∀ s, (f s).node = s.node) :
    Moves NoneCaught (modifySlot n f) :=
  fun _ _ _ hp _ => .inr (by rwa [node?_modifySlot n hf] at hp)

theorem NoneCaught.moves_cleanup (n : NodeId) : Moves NoneCaught (cleanup n) := fun _ _ _ hp _ =>
  .inr (node?_of_cleanup hp)

end catching

section rewiring

/-- Occurrences stay what they are, and a link that was not there before leads to a definition of
the same variable. -/
structure Rewires (t t' : Tree) : Prop where
  occurs : ∀ v defines m, t.Occurs v defines m → t'.Occurs v defines m
  linked : ∀ m d, t'.linkOf m = .ok (some d) →
    t.linkOf m = .ok (some d) ∨ ∃ v, t'.varOf m = .ok v ∧ t'.Occurs v true d

instance : IsPreorder Tree Rewires where
  refl _ := ⟨fun _ _ _ => id, fun _ _ => .inl⟩
  trans _ _ _ h h' := by
    refine ⟨fun v defines m => h'.occurs v defines m ∘ h.occurs v defines m, fun m d hd => ?_⟩
    rcases h'.linked m d hd with hd | hright
    · refine (h.linked m d hd).imp_right ?_
      rintro ⟨v, hm, hocc⟩
      obtain ⟨defines, hm⟩ := occurs_of_varOf hm
      exact ⟨v, (h'.occurs v defines m hm).varOf, h'.occurs v true d hocc⟩
    · exact .inr hright

theorem rewires_of_nodes (hkept : ∀ m o, t.node? m = some (.occurrence o) →
      ∃ o', t'.node? m = some (.occurrence o') ∧ o'.var = o.var ∧ o'.defines = o.defines)
    (hlinked : ∀ m o', t'.node? m = some (.occurrence o') → ∀ d, o'.link = some d →
      t.linkOf m = .ok (some d) ∨ t.Occurs o'.var true d) : t.Rewires t' := by
  have hoccurs (v : Var) (defines : Bool) (m : NodeId) (hm : t.Occurs v defines m) :
      t'.Occurs v defines m := by
    obtain ⟨o, ho, hv, hd⟩ := hm
    obtain ⟨o', ho', hv', hd'⟩ := hkept m o ho
    exact ⟨o', ho', hv'.trans hv, hd'.trans hd⟩
  refine ⟨hoccurs, fun m d hd => ?_⟩
  obtain ⟨o', ho', hlink⟩ := linkOf_ok.1 hd
  exact (hlinked m o' ho' d hlink).imp_right fun hd =>
    ⟨o'.var, varOf_ok.2 ⟨o', ho', rfl⟩, hoccurs _ _ _ hd⟩

theorem rewires_of_occurrences (h : t.SameOccurrences t') : t.Rewires t' :=
  rewires_of_nodes (fun m o ho => ⟨o, (h m o).2 ho, rfl, rfl⟩)
    fun m o ho _ hd => .inl (linkOf_ok.2 ⟨o, (h m o).1 ho, hd⟩)

theorem Rewires.moves_useLike (n : NodeId) : Moves Rewires (useLike n) := by
  refine (Moves.ask _).bind fun o t => rewires_of_nodes (fun m o' ho' => ?_)
    fun m o' ho' _ hd => ?_
  · exact ⟨o', node?_push_of_some ho' _, rfl, rfl⟩
  · have hpush :=
      (node?_push t ⟨.occurrence { var := o.var, type := o.type }, none, none⟩ m).symm.trans ho'
    split at hpush
    · obtain rfl := Node.occurrence.inj (Option.some.inj hpush)
      simp at hd
    · exact .inl (linkOf_ok.2 ⟨o', hpush, hd⟩)

theorem rewires_modifyOccurrence {f : Occurrence → Occurrence}
    (hf : ∀ o, (f o).var = o.var ∧ (f o).defines = o.defines)
    (hlink : ∀ o, t.node? n = some (.occurrence o) → ∀ d, (f o).link = some d →
      o.link = some d ∨ t.Occurs o.var true d) : t.Rewires ((modifyOccurrence n f).after t) := by
  rcases node?_modifyOccurrence n f t with hsame | ⟨o, ho, hnodes⟩
  · rw [hsame]
    exact Std.Refl.refl t
  · refine rewires_of_nodes (fun m o' ho' => ?_) fun m o' ho' d hd => ?_
    · rw [hnodes]
      split
      · next he =>
        obtain rfl : o = o' := by simpa [he, ho] using ho'
        exact ⟨f o, rfl, hf o⟩
      · exact ⟨o', ho', rfl, rfl⟩
    · rw [hnodes] at ho'
      split at ho'
      · next he =>
        obtain rfl := Node.occurrence.inj (Option.some.inj ho')
        rw [he, (hf o).1]
        exact (hlink o ho d hd).imp_left fun hd => linkOf_ok.2 ⟨o, ho, hd⟩
      · exact .inl (linkOf_ok.2 ⟨o', ho', hd⟩)

theorem Rewires.moves_setVersion (n : NodeId) (version : Nat) :
    Moves Rewires (setVersion n version) :=
  fun _ => rewires_modifyOccurrence (fun _ => ⟨rfl, rfl⟩) fun _ _ _ => .inl

theorem Rewires.moves_setLink (n : NodeId) (d : Option NodeId) : Moves Rewires (setLink n d) := by
  intro t
  rcases after_setLink n d t with hsame | ⟨-, hleads, hafter⟩
  · rw [hsame]
    exact Std.Refl.refl t
  · rw [hafter]
    refine rewires_modifyOccurrence (fun _ => ⟨rfl, rfl⟩) fun o₁ ho₁ x hx => ?_
    obtain ⟨o, o', ho, ho', hdefines, hvar⟩ := hleads x hx
    obtain rfl : o = o₁ := by simpa [ho] using ho₁
    exact .inr ⟨o', ho', hvar, hdefines⟩

theorem Rewires.moves_addCatchOperand (n operand : NodeId) :
    Moves Rewires (addCatchOperand n operand) := fun t =>
  rewires_of_occurrences (SameOccurrences.moves_addCatchOperand n operand t)

end rewiring

section numbers

def number? (t : Tree) (n : NodeId) : Option Nat :=
  match t.node? n with
  | some (.occurrence o) => o.version
  | _ => none

theorem number?_eq_some {i : Nat} :
    t.number? n = some i ↔ ∃ o, t.node? n = some (.occurrence o) ∧ o.version = some i := by
  unfold number?
  split <;> simp_all

theorem number?_of_node? {o : Occurrence} (h : t.node? n = some (.occurrence o)) :
    t.number? n = o.version := by
  rw [number?, h]

theorem number?_eq_of_node? (h : t'.node? n = t.node? n) : t'.number? n = t.number? n := by
  rw [number?, h, number?]

theorem Retouched.number?_eq {scope : NodeId → Var → Prop} {v : Var} (h : Retouched scope t t')
    (hvar : t.varOf n = .ok v) (hout : ¬scope n v) : t'.number? n = t.number? n := by
  obtain ⟨o, ho, hv⟩ := varOf_ok.1 hvar
  obtain ⟨s, hs, hnode⟩ := node?_eq_some.1 ho
  refine number?_eq_of_node? ?_
  rw [node?, h.slot?_of_not hs fun o' ho' => ?_, node?, hs]
  obtain rfl := Node.occurrence.inj (hnode.symm.trans ho')
  exact hv ▸ hout

/-- The version of a definition is its own number. -/
theorem versionOf_of_occurs {v : Var} (h : t.Occurs v true n) :
    t.versionOf n = .ok (t.number? n) := by
  obtain ⟨o, ho, -, hd⟩ := h
  obtain ⟨s, hs, -⟩ := node?_eq_some.1 ho
  have hocc : t.occurrence n = .ok o := occurrence_ok.2 ho
  have hlive : t.isLive n = true := by simp [isLive, hs]
  rw [number?_of_node? ho]
  simp [versionOf, definitionOf, Occurrence.definition, hocc, hd, hlive, bind, Except.bind,
    Functor.map, Except.map]

def SameNumbers (t t' : Tree) : Prop := t'.number? = t.number?

instance : IsPreorder Tree SameNumbers where
  refl _ := rfl
  trans _ _ _ h h' := Eq.trans h' h

theorem SameNumbers.moves_modifyOccurrence (n : NodeId) {f : Occurrence → Occurrence}
    (hf : ∀ o, (f o).version = o.version) : Moves SameNumbers (modifyOccurrence n f) := fun t => by
  rcases node?_modifyOccurrence n f t with hsame | ⟨o, ho, hnodes⟩
  · rw [hsame]
    exact Std.Refl.refl t
  · funext m
    by_cases hm : m = n
    · rw [number?_of_node? ((hnodes m).trans (if_pos hm)), hf, hm, number?_of_node? ho]
    · exact number?_eq_of_node? ((hnodes m).trans (if_neg hm))

theorem SameNumbers.moves_useLike (n : NodeId) : Moves SameNumbers (useLike n) :=
  (Moves.ask _).bind fun o t => by
    show (t.push { node := .occurrence { var := o.var, type := o.type } }).number? = t.number?
    funext m
    by_cases hm : m = t.next
    · have hnone : t.node? m = none := by
        cases hs : t.slot? m with
        | none => rw [node?, hs, Option.map_none]
        | some s => exact absurd (index_lt_size hs) (hm ▸ Nat.lt_irrefl t.size)
      rw [number?_of_node? ((node?_push t _ m).trans (if_pos hm)), number?, hnone]
    · exact number?_eq_of_node? ((node?_push t _ m).trans (if_neg hm))

theorem SameNumbers.moves_setLink (n : NodeId) (d : Option NodeId) :
    Moves SameNumbers (setLink n d) := by
  intro t
  rcases after_setLink n d t with hsame | ⟨-, -, hafter⟩
  · rw [hsame]
    exact Std.Refl.refl t
  · rw [hafter]
    exact moves_modifyOccurrence n (f := fun o => { o with link := d }) (fun _ => rfl) t

theorem SameNumbers.moves_addCatchOperand (n operand : NodeId) :
    Moves SameNumbers (addCatchOperand n operand) := fun t => by
  have hsame := SameOccurrences.moves_addCatchOperand n operand t
  funext m
  refine Option.ext fun i => ?_
  rw [number?_eq_some, number?_eq_some]
  exact exists_congr fun o => and_congr_left fun _ => hsame m o

theorem number?_of_setVersion {version : Nat} {u : Unit} (h : setVersion n version t = .ok u t') :
    t'.number? n = some version ∧ ∀ m, m ≠ n → t'.number? m = t.number? m := by
  obtain ⟨s, o, hs, ho, rfl⟩ := modifyOccurrence_ok.1 h
  have hnodes := node?_put hs { s with node := .occurrence { o with version := some version } }
  exact ⟨number?_of_node? ((hnodes n).trans (if_pos rfl)),
    fun m hm => number?_eq_of_node? ((hnodes m).trans (if_neg hm))⟩

end numbers

end MethodFlow.Tree
