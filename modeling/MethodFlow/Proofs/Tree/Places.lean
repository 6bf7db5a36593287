import MethodFlow.Proofs.Tree.Primitive
import MethodFlow.Proofs.Tree.Rewiring
import Mathlib.Data.List.Forall2

/-!
What nodes ask of their children. A statement that writes asks for definitions, a shuffle for
variables on the stack, and a phi for occurrences of one variable. Whatever becomes of a tree, a
node is content as long as its children stay what they are, and a node that is new or changed is
looked at by itself.
-/

namespace MethodFlow

namespace Node

/-- The children that a node writes, or those that it reads. -/
def role (node : Node) (written : Bool) : List NodeId := if written then node.writes else node.reads

/-- If the first node is an occurrence, the second is one of the same variable in the same role. -/
def ActsAs (a b : Node) : Prop :=
  ∀ o, a = .occurrence o → ∃ o', b = .occurrence o' ∧ o'.var = o.var ∧ o'.defines = o.defines

/-- What a node asks of a child that it writes or reads. What a replacement can break is asked only
if everything `fits`. -/
def Accepts (node : Node) (fits : Prop) (v : Var) (written : Bool) (child : Node) : Prop :=
  match node with
  | store _ _ => written = true → ∃ o, child = .occurrence o ∧ o.defines = true
  | shuffle _ _ _ => (written = true → ∃ o, child = .occurrence o ∧ o.defines = true) ∧
      (fits → ∃ o, child = .occurrence o ∧ o.var.isLocal = false)
  | phi _ => fits → ∃ o, child = .occurrence o ∧ o.var = v ∧ o.defines = written
  | _ => True

/-- A shuffle has the slots that its kind asks for. -/
def Fills : Node → Prop
  | shuffle kind targets sources =>
    targets.length = kind.targetCount ∧ sources.length = kind.sourceCount
  | _ => True

variable {node child child' : Node} {new : List NodeId} {fits : Prop} {v : Var}
  {written : Bool} {c : NodeId}

theorem ActsAs.refl (node : Node) : node.ActsAs node := fun o ho => ⟨o, ho, rfl, rfl⟩

theorem mem_children_of_role (h : c ∈ node.role written) : c ∈ node.children := by
  cases written with
  | true => exact List.mem_append_left _ h
  | false => exact List.mem_append_right _ h

theorem Accepts.actsAs (h : node.Accepts fits v written child) (hchild : child.ActsAs child') :
    node.Accepts fits v written child' := by
  cases node with
  | store target value =>
    intro hw
    obtain ⟨o, ho, hd⟩ := h hw
    obtain ⟨o', ho', -, hd'⟩ := hchild o ho
    exact ⟨o', ho', hd'.trans hd⟩
  | shuffle kind targets sources =>
    refine ⟨fun hw => ?_, fun hfits => ?_⟩
    · obtain ⟨o, ho, hd⟩ := h.1 hw
      obtain ⟨o', ho', -, hd'⟩ := hchild o ho
      exact ⟨o', ho', hd'.trans hd⟩
    · obtain ⟨o, ho, hv⟩ := h.2 hfits
      obtain ⟨o', ho', hv', -⟩ := hchild o ho
      exact ⟨o', ho', hv' ▸ hv⟩
  | phi p =>
    intro hfits
    obtain ⟨o, ho, hv, hd⟩ := h hfits
    obtain ⟨o', ho', hv', hd'⟩ := hchild o ho
    exact ⟨o', ho', hv'.trans hv, hd'.trans hd⟩
  | _ => trivial

section withChildren

theorem accepts_withChildren (node : Node) (new : List NodeId) :
    (node.withChildren new).Accepts fits v written child ↔ node.Accepts fits v written child := by
  unfold withChildren
  split
  · exact Iff.rfl
  · split <;> exact Iff.rfl

theorem actsAs_withChildren (node : Node) (new : List NodeId) :
    node.ActsAs (node.withChildren new) := by
  rintro o rfl
  refine ⟨o, ?_, rfl, rfl⟩
  unfold withChildren
  split <;> rfl

theorem length_writes_withChildren (h : new.length = node.children.length) :
    (node.withChildren new).writes.length = node.writes.length := by
  unfold withChildren
  rw [if_neg (not_not.2 h)]
  split
  case h_4 kind targets sources =>
    simp only [children, writes, reads, List.length_append] at h
    simp [writes, h]
  all_goals rfl

theorem fills_withChildren (hnode : node.Fills) (h : new.length = node.children.length) :
    (node.withChildren new).Fills := by
  unfold withChildren
  rw [if_neg (not_not.2 h)]
  split
  case h_4 kind targets sources =>
    simp only [children, writes, reads, List.length_append] at h
    simpa [Fills, h] using hnode
  all_goals trivial

theorem exists_of_mem_role {R : NodeId → NodeId → Prop} (hnew : List.Forall₂ R node.children new)
    (hc : c ∈ (node.withChildren new).role written) : ∃ c₀ ∈ node.role written, R c₀ c := by
  have hchildren := children_withChildren hnew.length_eq.symm
  have hlength := length_writes_withChildren hnew.length_eq.symm
  have hrole : List.Forall₂ R (node.role written) ((node.withChildren new).role written) := by
    rw [← hchildren] at hnew
    cases written with
    | true => simpa [role, children, ← hlength] using List.forall₂_take node.writes.length hnew
    | false => simpa [role, children, ← hlength] using List.forall₂_drop node.writes.length hnew
  obtain ⟨i, hi, rfl⟩ := List.mem_iff_getElem.1 hc
  have hi₀ : i < (node.role written).length := hrole.length_eq ▸ hi
  exact ⟨_, List.getElem_mem hi₀, hrole.get hi₀ hi⟩

end withChildren

end Node

namespace Tree

open Edit

variable {fits : Prop} {t t' : Tree} {n : NodeId} {node : Node} {v : Var}

/-- The children in use are what the node asks for, those of a phi occurrences of `v`. -/
def Contents (t : Tree) (fits : Prop) (v : Var) (node : Node) : Prop :=
  ∀ written, ∀ c ∈ node.role written, ∀ child, t.node? c = some child →
    node.Accepts fits v written child

/-- The node has the children that it asks for. -/
def Suits (t : Tree) (fits : Prop) (node : Node) : Prop := node.Fills ∧ ∃ v, t.Contents fits v node

/-- Every node in use has the children that it asks for. -/
def Shaped (fits : Prop) (t : Tree) : Prop := ∀ n node, t.node? n = some node → t.Suits fits node

/-- The child in use is, or was before, one that acts as it does. -/
def Carries (t t' : Tree) (c c' : NodeId) : Prop :=
  ∀ child', t'.node? c' = some child' → ∃ child, t.node? c = some child ∧ child.ActsAs child'

theorem carries_of_node? {c : NodeId} (h : t'.node? c = t.node? c) : Carries t t' c c :=
  fun child hchild => ⟨child, h ▸ hchild, .refl child⟩

theorem Suits.of_children (h : t.Suits fits node)
    (hchildren : ∀ c ∈ node.children, Carries t t' c c) :
    t'.Suits fits node := by
  obtain ⟨hfills, v, hcontents⟩ := h
  refine ⟨hfills, v, fun written c hc child' hchild' => ?_⟩
  obtain ⟨child, hchild, hacts⟩ := hchildren c (Node.mem_children_of_role hc) child' hchild'
  exact (hcontents written c hc child hchild).actsAs hacts

theorem suits_withChildren {R : NodeId → NodeId → Prop} {new : List NodeId}
    (hfills : node.Fills) (v : Var)
    (hnew : List.Forall₂ R node.children new)
    (hR : ∀ written, ∀ c ∈ node.role written, ∀ c', R c c' →
      ∀ child', t.node? c' = some child' → node.Accepts fits v written child') :
    t.Suits fits (node.withChildren new) := by
  refine ⟨Node.fills_withChildren hfills hnew.length_eq.symm, v,
    fun written c' hc' child' hchild' => ?_⟩
  obtain ⟨c, hc, hcc'⟩ := Node.exists_of_mem_role hnew hc'
  exact (Node.accepts_withChildren node new).2 (hR written c hc c' hcc' child' hchild')

/-- Most nodes ask nothing of their children. -/
theorem suits_of_accepts (hfills : node.Fills)
    (h : ∀ v written child, node.Accepts fits v written child) : t.Suits fits node :=
  ⟨hfills, .ofLocal 0, fun written _ _ child _ => h _ written child⟩

theorem suits_occurrence (o : Occurrence) : t.Suits fits (.occurrence o) :=
  suits_of_accepts trivial fun _ _ _ => trivial

/-- Nodes are gone, and none is new or changed. -/
def Wanes (t t' : Tree) : Prop := ∀ m node, t'.node? m = some node → t.node? m = some node

instance : IsPreorder Tree Wanes where
  refl _ _ _ := id
  trans _ _ _ h h' m node := h m node ∘ h' m node

theorem wanes_releasing : Releasing Wanes where
  setParent n parent t m node hm := by
    rwa [setParent, node?_modifySlot n (f := fun s => { s with parent }) fun _ => rfl] at hm
  cleanup n t := Moves.of_ask fun _ _ m node hm => by
    obtain ⟨s, hs, hnode⟩ := node?_eq_some.1 hm
    rcases (prunes_sweep t.size t n).2 m with hkept | hgone
    · exact node?_eq_some.2 ⟨s, hkept ▸ hs, hnode⟩
    · simp [hgone] at hs

namespace Shaped

theorem of_wanes (h : t.Shaped fits) (hwanes : t.Wanes t') : t'.Shaped fits := fun m node hm =>
  (h m node (hwanes m node hm)).of_children fun c _ child hchild =>
    ⟨child, hwanes c child hchild, .refl child⟩

theorem of_node (h : t.Shaped fits) {old : Node} (hold : t.node? n = some old)
    (hacts : old.ActsAs node) (hnodes : ∀ m, t'.node? m = if m = n then some node else t.node? m)
    (hsuits : (∀ c, Carries t t' c c) → t'.Suits fits node) : t'.Shaped fits := by
  have hcarries (c : NodeId) : Carries t t' c c := fun child hchild => by
    rw [hnodes] at hchild
    split at hchild
    · next he =>
      obtain rfl := Option.some.inj hchild
      exact ⟨old, he ▸ hold, hacts⟩
    · exact ⟨child, hchild, .refl child⟩
  intro m node' hm
  rw [hnodes] at hm
  split at hm
  · exact Option.some.inj hm ▸ hsuits hcarries
  · exact (h m node' hm).of_children fun c _ => hcarries c

theorem of_detached (h : t.Shaped fits) (hc : t.Coherent)
    (hsame : ∀ m : NodeId, m.index < t.size → ¬t.Detached m → t'.node? m = t.node? m)
    (hsuits : ∀ m node, t'.node? m = some node → t.node? m = some node ∨ t'.Suits fits node) :
    t'.Shaped fits := by
  intro m node hm
  rcases hsuits m node hm with hold | hnew
  · obtain ⟨s, hs, rfl⟩ := node?_eq_some.1 hold
    refine (h m s.node hold).of_children fun c hmem => carries_of_node? (hsame c ?_ ?_)
    · exact hc.inside m s hs c hmem
    · rintro ⟨sc, hsc, -, hnone⟩
      exact hc.not_mem_children hsc hnone hs hmem
  · exact hnew

end Shaped

/-- If every node has had the children that it asks for, every node has them. -/
def KeepsShape (fits : Prop) (t t' : Tree) : Prop := t.Shaped fits → t'.Shaped fits

instance : IsPreorder Tree (KeepsShape fits) where
  refl _ := id
  trans _ _ _ h h' := h' ∘ h

namespace KeepsShape

theorem releasing : Releasing (KeepsShape fits) :=
  wanes_releasing.mono fun _ _ hwanes h => h.of_wanes hwanes

theorem setInputs {p : Phi} {inputs : PhiInputs} (hn : t.node? n = some (.phi p))
    (hnew : ∀ v, t.Contents fits v (.phi p) → ∀ q ∈ (Phi.mk p.target inputs).operands,
      q ∈ p.operands ∨ ∀ child, t.node? q = some child → (Node.phi p).Accepts fits v false child) :
    t.KeepsShape fits ((Tree.setInputs n p inputs).after t) := fun h => by
  obtain ⟨s, hs, hnode⟩ := node?_eq_some.1 hn
  have hset : Tree.setInputs n p inputs t =
      .ok ⟨⟩ (t.put n { s with node := .phi { p with inputs } }) :=
    setNode_ok.2 ⟨s, hs, rfl⟩
  obtain ⟨-, v, hcontents⟩ := h n _ hn
  rw [after_of_ok hset]
  refine h.of_node hn (by rintro o ⟨⟩) (node?_put hs _) fun hcarries => ⟨trivial, v, ?_⟩
  intro written c hc child' hchild'
  obtain ⟨child, hchild, hacts⟩ := hcarries c child' hchild'
  have haccepts : (Node.phi p).Accepts fits v written child := by
    cases written with
    | true => exact hcontents true c hc child hchild
    | false =>
      rcases hnew v hcontents c hc with hold | hin
      · exact hcontents false c hold child hchild
      · exact hin child hchild
  show (Node.phi { p with inputs }).Accepts fits v written child'
  exact haccepts.actsAs hacts

theorem of_takesOperand {operand : NodeId} (h : t.TakesOperand n operand t') :
    t.KeepsShape fits t' := by
  refine releasing.takesOperand h fun p inputs old hcheck hn hexchange =>
    setInputs hn fun v hcontents q hq => ?_
  refine (hexchange.mem hq).symm.imp_right ?_
  rintro rfl child hchild hfits
  obtain ⟨-, p', w, hp', htarget, hw, huse⟩ := checkOperand_ok hcheck
  obtain rfl : p = p' := by simpa [hn] using hp'
  obtain ⟨ot, hot, rfl⟩ := varOf_ok.1 htarget
  obtain ⟨o, ho, hv, hd⟩ := occurs_iff.2 ⟨hw, defines_of_isDefinition huse⟩
  obtain ⟨ot', hot', hvt, -⟩ := hcontents true p.target (List.mem_singleton_self _) _ hot hfits
  obtain rfl := Node.occurrence.inj hot'
  refine ⟨o, ?_, hv.trans hvt, hd⟩
  simpa [hchild] using ho

theorem of_drops {r r' : Recorded Tree} (h : Drops r r') : Recorded.Along (KeepsShape fits) r r' :=
  releasing.drops h fun _ _ _ _ hn hperm => setInputs hn fun _ _ _ hq =>
    .inl (hperm.subset (List.mem_append_left _ hq))

theorem moves_setLink (n : NodeId) (d : Option NodeId) : Moves (KeepsShape fits) (setLink n d) := by
  have hlink (n : NodeId) (d : Option NodeId) :
      Moves (KeepsShape fits) (modifyOccurrence n fun o => { o with link := d }) := fun t h => by
    rcases node?_modifyOccurrence n (fun o => { o with link := d }) t with hsame | ⟨o, ho, hnodes⟩
    · rwa [hsame]
    · refine h.of_node ho ?_ hnodes fun _ => suits_occurrence _
      rintro _ ⟨⟩
      exact ⟨_, rfl, rfl, rfl⟩
  exact Primitive.moves_setLink hlink n d

end KeepsShape

end Tree

end MethodFlow
