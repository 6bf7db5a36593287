import MethodFlow.Proofs.Tree.Pairing
import MethodFlow.Proofs.Tree.Whole
import MethodFlow.Tree.Same

/-!
The expressions that a tree holds. Structural equality compares two nodes by the expressions that
they spell, whatever nodes these are made of, and a fingerprint is the expression itself written in
a row.
-/

namespace MethodFlow

/-- An expression apart from the nodes that it is made of. Only definitions are known by their
nodes. -/
inductive Expression where
  | occurrence (var : Var) (type : Descriptor) (definition : Option NodeId)
  | literal (value : Literal)
  | binary (op : BinaryOp) (type : Descriptor) (left right : Expression)
  | returnAddress
deriving DecidableEq

def Expression.marks : Expression → List Mark
  | occurrence var type definition => [.variable var type definition]
  | literal value => [.literal value]
  | binary op type left right => .binary op type :: left.marks ++ right.marks
  | returnAddress => [.returnAddress]

namespace Tree

variable {t : Tree} {a b n : NodeId} {e e' : Expression} {limit : Nat}

/-- The expression that stands at a node. Only what is in use spells anything. -/
inductive Spells (t : Tree) : NodeId → Expression → Prop
  | occurrence {n : NodeId} {o : Occurrence} : t.node? n = some (.occurrence o) →
      Spells t n (.occurrence o.var o.type (o.definition n))
  | literal {n : NodeId} {value : Literal} : t.node? n = some (.literal value) →
      Spells t n (.literal value)
  | binary {n : NodeId} {op : BinaryOp} {left right : NodeId} {type : Descriptor}
    {e e' : Expression} :
      t.node? n = some (.binary op left right type) → Spells t left e → Spells t right e' →
        Spells t n (.binary op type e e')
  | returnAddress {n : NodeId} : t.node? n = some .returnAddress → Spells t n .returnAddress

/-- An expression in use that has nothing but nodes in use below it. -/
structure WholeExpression (t : Tree) (n : NodeId) : Prop where
  whole : t.Whole n
  expression : ∃ node, t.expression n = .ok node

theorem Within.operands {op : BinaryOp} {left right : NodeId} {type : Descriptor}
    (h : t.Within limit n) (hn : t.node? n = some (.binary op left right type)) :
    ∃ rest, limit = rest + 1 ∧ t.Within rest left ∧ t.Within rest right := by
  obtain ⟨s, hs, hnode⟩ := node?_eq_some.1 hn
  obtain ⟨rest, hlimit, hchildren⟩ := h.exists_limit hs
  simp only [hnode, Node.children, Node.writes, Node.reads, List.nil_append] at hchildren
  exact ⟨rest, hlimit, hchildren left (by simp), hchildren right (by simp)⟩

theorem Within.exists_rest {node : Node} (h : t.Within limit n) (hn : t.node? n = some node) :
    ∃ rest, limit = rest + 1 := by
  obtain ⟨s, hs, -⟩ := node?_eq_some.1 hn
  obtain ⟨rest, hlimit, -⟩ := h.exists_limit hs
  exact ⟨rest, hlimit⟩

namespace Spells

theorem exists_node (h : t.Spells n e) : ∃ node, t.expression n = .ok node := by
  cases h with
  | occurrence hn | literal hn | binary hn _ _ | returnAddress hn =>
    exact ⟨_, expression_ok.2 ⟨hn, rfl⟩⟩

theorem whole (h : t.Spells n e) : t.Whole n := by
  induction h with
  | occurrence hn | literal hn | returnAddress hn =>
    obtain ⟨s, hs, hnode⟩ := node?_eq_some.1 hn
    apply Whole.node hs
    simp [hnode, Node.children, Node.writes, Node.reads]
  | binary hn _ _ ihl ihr =>
    obtain ⟨s, hs, hnode⟩ := node?_eq_some.1 hn
    apply Whole.node hs
    simp [hnode, Node.children, Node.writes, Node.reads, ihl, ihr]

theorem wholeExpression (h : t.Spells n e) : t.WholeExpression n := ⟨h.whole, h.exists_node⟩

/-- A node spells one expression only. -/
theorem unique (h : t.Spells n e) (h' : t.Spells n e') : e = e' := by
  induction h generalizing e' with
  | occurrence hn | literal hn | returnAddress hn => cases h' <;> simp_all
  | binary hn _ _ ihl ihr =>
    cases h' with
    | binary hn' hl hr =>
      rw [hn, Option.some.injEq, Node.binary.injEq] at hn'
      obtain ⟨rfl, rfl, rfl, rfl⟩ := hn'
      rw [ihl hl, ihr hr]
    | occurrence hn' | literal hn' | returnAddress hn' => simp [hn] at hn'

theorem of_keepsNodes {t' : Tree} (h : t.Spells n e) (hkeeps : t.KeepsNodes t') :
    t'.Spells n e := by
  induction h with
  | occurrence hn => exact .occurrence (hkeeps.node? hn)
  | literal hn => exact .literal (hkeeps.node? hn)
  | returnAddress hn => exact .returnAddress (hkeeps.node? hn)
  | binary hn _ _ ihl ihr => exact .binary (hkeeps.node? hn) ihl ihr

/-- Nodes that spell the same expression are found equal as far down as the search goes. -/
theorem sameTo (ha : t.Spells a e) (hb : t.Spells b e) (hwithin : t.Within limit a) :
    t.sameTo limit a b = true := by
  induction ha generalizing b limit with
  | occurrence hn =>
    obtain ⟨rest, rfl⟩ := hwithin.exists_rest hn
    generalize he : Expression.occurrence _ _ _ = e at hb
    cases hb <;> simp_all [Tree.sameTo]
  | literal hn =>
    obtain ⟨rest, rfl⟩ := hwithin.exists_rest hn
    cases hb with
    | literal hn' => simp [Tree.sameTo, hn, hn']
  | returnAddress hn =>
    obtain ⟨rest, rfl⟩ := hwithin.exists_rest hn
    cases hb with
    | returnAddress hn' => simp [Tree.sameTo, hn, hn']
  | binary hn _ _ ihl ihr =>
    obtain ⟨rest, rfl, hleft, hright⟩ := hwithin.operands hn
    cases hb with
    | binary hn' hl hr => simp [Tree.sameTo, hn, hn', ihl hl hleft, ihr hr hright]

theorem marksTo (h : t.Spells n e) (hwithin : t.Within limit n) : t.marksTo limit n = e.marks := by
  induction h generalizing limit with
  | occurrence hn | literal hn | returnAddress hn =>
    obtain ⟨rest, rfl⟩ := hwithin.exists_rest hn
    simp [Tree.marksTo, hn, Expression.marks]
  | binary hn _ _ ihl ihr =>
    obtain ⟨rest, rfl, hleft, hright⟩ := hwithin.operands hn
    simp [Tree.marksTo, hn, Expression.marks, ihl hleft, ihr hright]

theorem fingerprint (h : t.Spells n e) : t.fingerprint n = e.marks :=
  h.marksTo h.whole.ends.within_size

end Spells

theorem exists_spells_of_sameTo (h : t.sameTo limit a b = true) :
    ∃ e, t.Spells a e ∧ t.Spells b e := by
  induction limit generalizing a b with
  | zero => simp [Tree.sameTo] at h
  | succ limit ih =>
    unfold Tree.sameTo at h
    split at h
    · next x y hx hy =>
      simp only [Bool.and_eq_true, decide_eq_true_eq] at h
      obtain ⟨⟨hvar, htype⟩, hdefinition⟩ := h
      have hb := Spells.occurrence hy
      rw [← hvar, ← htype, ← hdefinition] at hb
      exact ⟨_, .occurrence hx, hb⟩
    · next x y hx hy =>
      obtain rfl : x = y := by simpa using h
      exact ⟨_, .literal hx, .literal hy⟩
    · next op left right type op' left' right' type' hx hy =>
      simp only [Bool.and_eq_true, decide_eq_true_eq] at h
      obtain ⟨⟨⟨rfl, rfl⟩, hleft⟩, hright⟩ := h
      obtain ⟨l, hl, hl'⟩ := ih hleft
      obtain ⟨r, hr, hr'⟩ := ih hright
      exact ⟨_, .binary hx hl hr, .binary hy hl' hr'⟩
    · next hx hy => exact ⟨_, .returnAddress hx, .returnAddress hy⟩
    · simp at h

/-- Structural equality is equality of what is spelled. -/
theorem same_iff : t.same a b = true ↔ ∃ e, t.Spells a e ∧ t.Spells b e := by
  constructor
  · exact exists_spells_of_sameTo
  · rintro ⟨e, ha, hb⟩
    exact ha.sameTo hb ha.whole.ends.within_size

/-- A whole expression spells something, for its operands are expressions. -/
theorem WholeExpression.exists_spells (coherent : t.Coherent) (h : t.WholeExpression n) :
    ∃ e, t.Spells n e := by
  obtain ⟨hwhole, node, hnode⟩ := h
  induction hwhole generalizing node with
  | @node n s hs hchildren ih =>
    obtain ⟨hn, hkind⟩ := expression_ok.1 hnode
    have hnodes := hn
    rw [node?, hs, Option.map_some, Option.some.injEq] at hnodes
    subst hnodes
    have hspells : ∀ c ∈ s.node.children, ∃ e, t.Spells c e := by
      intro c hc
      obtain ⟨sc, hsc⟩ := (hchildren c hc).exists_slot
      apply ih c hc sc.node
      exact expression_ok.2 ⟨node?_eq_some.2 ⟨sc, hsc, rfl⟩,
        coherent.isStatement_of_mem_children hs hc hsc⟩
    cases hform : s.node with
    | occurrence o => exact ⟨_, .occurrence (hform ▸ hn)⟩
    | literal value => exact ⟨_, .literal (hform ▸ hn)⟩
    | returnAddress => exact ⟨_, .returnAddress (hform ▸ hn)⟩
    | binary op left right type =>
      simp only [hform, Node.children, Node.writes, Node.reads, List.nil_append] at hspells
      obtain ⟨l, hl⟩ := hspells left (by simp)
      obtain ⟨r, hr⟩ := hspells right (by simp)
      exact ⟨_, .binary (hform ▸ hn) hl hr⟩
    | _ => simp [hform, Node.isStatement] at hkind

theorem not_spells (h : t.isLive n = false ∨ t.isStatement n = true) : ¬t.Spells n e := by
  intro hspells
  obtain ⟨node, hnode⟩ := hspells.exists_node
  obtain ⟨hn, hkind⟩ := expression_ok.1 hnode
  rcases h with hdead | hstatement
  · simp [isLive_of_node? hn] at hdead
  · simp [isStatement, hn, hkind] at hstatement

/-- Structural equality is an equivalence of the whole expressions of a tree. It relates those that
agree from top to bottom and nothing else, and what it relates has one fingerprint. -/
theorem Coherent.same_whole (coherent : t.Coherent) :
    (Equivalence fun a b : {n // t.WholeExpression n} => t.same a b = true) ∧
    (∀ n, t.WholeExpression n ↔ ∃ e, t.Spells n e) ∧
    (∀ a b, t.same a b = true ↔ ∃ e, t.Spells a e ∧ t.Spells b e) ∧
    (∀ a b, t.isLive a = false ∨ t.isStatement a = true ∨ t.isLive b = false ∨
      t.isStatement b = true → t.same a b = false) ∧
    ∀ a b, t.same a b = true → t.fingerprint a = t.fingerprint b := by
  refine ⟨⟨?refl, ?symm, ?trans⟩, fun n => ?spelled, fun a b => same_iff, ?unlike, ?fingerprints⟩
  case refl =>
    intro a
    obtain ⟨e, he⟩ := a.2.exists_spells coherent
    exact same_iff.2 ⟨e, he, he⟩
  case symm =>
    intro a b h
    obtain ⟨e, ha, hb⟩ := same_iff.1 h
    exact same_iff.2 ⟨e, hb, ha⟩
  case trans =>
    intro a b c hab hbc
    obtain ⟨e, ha, hb⟩ := same_iff.1 hab
    obtain ⟨e', hb', hc⟩ := same_iff.1 hbc
    rw [← hb.unique hb'] at hc
    exact same_iff.2 ⟨e, ha, hc⟩
  case spelled =>
    constructor
    · exact fun h => h.exists_spells coherent
    · rintro ⟨e, h⟩
      exact h.wholeExpression
  case unlike =>
    intro a b h
    apply Bool.eq_false_iff.2
    intro hsame
    obtain ⟨e, ha, hb⟩ := same_iff.1 hsame
    rcases h with h | h | h | h
    · exact not_spells (.inl h) ha
    · exact not_spells (.inr h) ha
    · exact not_spells (.inl h) hb
    · exact not_spells (.inr h) hb
  case fingerprints =>
    intro a b h
    obtain ⟨e, ha, hb⟩ := same_iff.1 h
    rw [ha.fingerprint, hb.fingerprint]

/-- A difference is made twice, from nodes of its own each time, and stored once. -/
def repeatDifference : List TreeEdit :=
  [.request (.newVariable (.ofLocal 1) .int), .request (.newLiteral (.int 2)),
    .request (.newBinary .sub ⟨0⟩ ⟨1⟩ .int), .request (.newVariable (.ofLocal 1) .int),
    .request (.newLiteral (.int 2)), .request (.newBinary .sub ⟨3⟩ ⟨4⟩ .int),
    .request (.newVariable (.ofLocal 0) .int), .request (.newStore ⟨6⟩ ⟨5⟩)]

theorem same_whole_of_repeatDifference :
    (Tree.empty.edits repeatDifference).WholeExpression ⟨2⟩ ∧
    (Tree.empty.edits repeatDifference).same ⟨2⟩ ⟨5⟩ = true ∧
    (Tree.empty.edits repeatDifference).fingerprint ⟨2⟩ =
      (Tree.empty.edits repeatDifference).fingerprint ⟨5⟩ ∧
    (Tree.empty.edits repeatDifference).same ⟨2⟩ ⟨4⟩ = false ∧
    (Tree.empty.edits repeatDifference).same ⟨7⟩ ⟨7⟩ = false := by
  obtain ⟨-, hwhole, hsame, hunlike, hfingerprint⟩ :=
    Coherent.same_whole (coherent_edits repeatDifference)
  have hequal : (Tree.empty.edits repeatDifference).same ⟨2⟩ ⟨5⟩ = true := by decide +kernel
  have hstatement : (Tree.empty.edits repeatDifference).isStatement ⟨7⟩ = true := by decide +kernel
  obtain ⟨e, he, -⟩ := (hsame ⟨2⟩ ⟨5⟩).1 hequal
  refine ⟨(hwhole ⟨2⟩).2 ⟨e, he⟩, hequal, hfingerprint ⟨2⟩ ⟨5⟩ hequal, by decide +kernel, ?_⟩
  exact hunlike ⟨7⟩ ⟨7⟩ (.inr (.inl hstatement))

end Tree

end MethodFlow
