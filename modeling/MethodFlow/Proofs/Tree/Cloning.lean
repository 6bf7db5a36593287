import MethodFlow.Proofs.Tree.Expressions

/-!
Copies of whole subtrees. Copying one succeeds, and the copy has the form of the original from top
to bottom.
-/

namespace MethodFlow

/-- Nodes that differ in nothing but which children they list. -/
inductive Node.Resembles : Node → Node → Prop
  | occurrence (o : Occurrence) : Resembles (.occurrence o) (.occurrence o)
  | literal (value : Literal) : Resembles (.literal value) (.literal value)
  | binary (op : BinaryOp) (left right left' right' : NodeId) (type : Descriptor) :
      Resembles (.binary op left right type) (.binary op left' right' type)
  | returnAddress : Resembles .returnAddress .returnAddress
  | eval (value value' : NodeId) : Resembles (.eval value) (.eval value')
  | store (target value target' value' : NodeId) :
    Resembles (.store target value) (.store target' value')
  | shuffle (kind : Shuffle) {targets sources targets' sources' : List NodeId} :
      targets'.length = targets.length → sources'.length = sources.length →
        Resembles (.shuffle kind targets sources) (.shuffle kind targets' sources')
  | returnValue (value value' : NodeId) : Resembles (.returnValue value) (.returnValue value')
  | returnVoid : Resembles .returnVoid .returnVoid
  | saveAddress (sub : SubroutineId) : Resembles (.saveAddress sub) (.saveAddress sub)
  | joining (block : BlockId) (target target' : NodeId)
    {operands operands' : List (BlockId × NodeId)} :
      operands'.map Prod.fst = operands.map Prod.fst →
        Resembles (.phi ⟨target, .joining block operands⟩)
          (.phi ⟨target', .joining block operands'⟩)
  | catching (target target' : NodeId) {operands operands' : List NodeId} :
      operands'.length = operands.length →
        Resembles (.phi ⟨target, .catching operands⟩) (.phi ⟨target', .catching operands'⟩)
  | returning (sub : SubroutineId) (target target' : NodeId)
    {operands operands' : List (BlockId × NodeId)} :
      operands'.map Prod.fst = operands.map Prod.fst →
        Resembles (.phi ⟨target, .returning sub operands⟩)
          (.phi ⟨target', .returning sub operands'⟩)

namespace Node

variable {node : Node} {new : List NodeId}

theorem map_fst_rekey {operands : List (BlockId × NodeId)} (h : new.length = operands.length) :
    (rekey operands new).map Prod.fst = operands.map Prod.fst :=
  List.map_fst_zip (by simp [h])

theorem resembles_withChildren (h : new.length = node.children.length) :
    node.Resembles (node.withChildren new) := by
  unfold withChildren
  rw [if_neg (not_not.2 h)]
  cases node with
  | occurrence o => exact .occurrence o
  | literal value => exact .literal value
  | returnAddress => exact .returnAddress
  | returnVoid => exact .returnVoid
  | saveAddress sub => exact .saveAddress sub
  | binary op left right type =>
    obtain ⟨a, b, rfl⟩ := List.length_eq_two.1 h
    exact .binary op left right a b type
  | eval value =>
    obtain ⟨a, rfl⟩ := List.length_eq_one_iff.1 h
    exact .eval value a
  | returnValue value =>
    obtain ⟨a, rfl⟩ := List.length_eq_one_iff.1 h
    exact .returnValue value a
  | store target value =>
    obtain ⟨a, b, rfl⟩ := List.length_eq_two.1 h
    exact .store target value a b
  | shuffle kind targets sources =>
    have hlength : new.length = targets.length + sources.length := by
      simpa [children, writes, reads] using h
    apply Resembles.shuffle kind
    · rw [List.length_take]
      omega
    · rw [List.length_drop]
      omega
  | phi p =>
    obtain ⟨target, rest, rfl⟩ := List.exists_cons_of_length_eq_add_one h
    have hlength : rest.length = p.operands.length := by
      simpa [children, writes, reads] using h
    obtain ⟨target', inputs⟩ := p
    cases inputs with
    | joining block operands =>
      exact .joining block target' target (map_fst_rekey (by simpa [Phi.operands] using hlength))
    | catching operands => exact .catching target' target hlength
    | returning sub operands =>
      exact .returning sub target' target (map_fst_rekey (by simpa [Phi.operands] using hlength))

end Node

theorem Node.Resembles.length_children {a b : Node} (h : a.Resembles b) :
    b.children.length = a.children.length := by
  cases h with
  | shuffle kind htargets hsources =>
    simp [Node.children, Node.writes, Node.reads, htargets, hsources]
  | joining block target target' hkeys | returning sub target target' hkeys =>
    have hlength := congrArg List.length hkeys
    simpa [Node.children, Node.writes, Node.reads, Phi.operands] using hlength
  | catching target target' hlength =>
    simpa [Node.children, Node.writes, Node.reads, Phi.operands] using hlength
  | _ => rfl

namespace Tree

open Edit

variable {t t' : Tree} {n m c q : NodeId} {j limit : Nat} {e : Expression}

/-- What stands at `m` has the form of what stands at `n`, node by node in the same places. -/
inductive Mirrors (t : Tree) : NodeId → NodeId → Prop
  | node {n m : NodeId} {a b : Node} : t.node? n = some a → t.node? m = some b → a.Resembles b →
      (∀ p ∈ a.children.zip b.children, Mirrors t p.1 p.2) → Mirrors t n m

namespace Mirrors

theorem of_keepsNodes (h : t.Mirrors n m) (hkeeps : t.KeepsNodes t') : t'.Mirrors n m := by
  induction h with
  | node hn hm hab _ ih => exact .node (hkeeps.node? hn) (hkeeps.node? hm) hab ih

theorem whole (h : t.Mirrors n m) : t.Whole m := by
  induction h with
  | @node n m a b hn hm hab _ ih =>
    obtain ⟨s, hs, rfl⟩ := node?_eq_some.1 hm
    apply Whole.node hs
    intro c hc
    obtain ⟨i, hi, rfl⟩ := List.mem_iff_getElem.1 hc
    have hi' : i < a.children.length := hab.length_children ▸ hi
    have hmem : (a.children[i], s.node.children[i]) ∈ a.children.zip s.node.children := by
      apply List.mem_iff_getElem.2
      exact ⟨i, by simp [hi, hi'], List.getElem_zip⟩
    exact ih _ hmem

/-- An expression without definitions is spelled by its mirror images as well. -/
theorem spells (h : t.Mirrors n m) (hspells : t.Spells n e)
    (huses : ∀ j k, t.Under n j k → t.defines k = false) : t.Spells m e := by
  induction hspells generalizing m with
  | @occurrence n o hn =>
    cases h with
    | node hn' hm hab _ =>
      obtain rfl := Option.some.inj (hn.symm.trans hn')
      cases hab
      obtain ⟨s, hs, -⟩ := node?_eq_some.1 hn
      have huse : o.defines = false := by simpa [defines, hn] using huses 0 n (.self hs)
      have hdefinition : o.definition n = o.definition m := by simp [Occurrence.definition, huse]
      rw [hdefinition]
      exact .occurrence hm
  | literal hn =>
    cases h with
    | node hn' hm hab _ =>
      obtain rfl := Option.some.inj (hn.symm.trans hn')
      cases hab
      exact .literal hm
  | returnAddress hn =>
    cases h with
    | node hn' hm hab _ =>
      obtain rfl := Option.some.inj (hn.symm.trans hn')
      cases hab
      exact .returnAddress hm
  | @binary n op left right type e e' hn _ _ ihl ihr =>
    cases h with
    | node hn' hm hab hchildren =>
      obtain rfl := Option.some.inj (hn.symm.trans hn')
      cases hab with
      | binary _ _ _ left' right' _ =>
        obtain ⟨s, hs, hnode⟩ := node?_eq_some.1 hn
        have hbelow {c : NodeId} (hc : c ∈ [left, right]) (j : Nat) (k : NodeId)
            (hk : t.Under c j k) :
            t.defines k = false := by
          apply huses (j + 1) k
          exact .of_child hs (by rw [hnode]; exact hc) hk
        have hleft : t.Mirrors left left' := hchildren (left, left') (by
          simp [Node.children, Node.writes, Node.reads])
        have hright : t.Mirrors right right' := hchildren (right, right') (by
          simp [Node.children, Node.writes, Node.reads])
        exact .binary hm (ihl hleft (hbelow (by simp))) (ihr hright (hbelow (by simp)))

end Mirrors

/-- The node `m` has been made for a copy of `n`, with everything below it. -/
structure Duplicates (t t' : Tree) (n m : NodeId) : Prop where
  mirrors : t'.Mirrors n m
  fresh : ∀ j c, t'.Under m j c → t.size ≤ c.index
  free : ∃ s, t'.slot? m = some s ∧ s.parent = none ∧ s.block = none

/-- Copies of the first children of a node, each with everything below it. -/
structure DuplicatesAll (t t' : Tree) (originals copies : List NodeId) : Prop
    extends CopiesAll False t t' originals copies where
  mirrors : List.Forall₂ t'.Mirrors originals copies
  whole : ∀ q ∈ copies, t'.Whole q
  young : ∀ q ∈ copies, ∀ j c, t'.Under q j c → t.size ≤ c.index

theorem DuplicatesAll.nil (coherent : t.Coherent) : DuplicatesAll t t [] [] where
  steps := .refl
  size_le := Nat.le_refl _
  coherent := coherent
  length := rfl
  nodup := List.nodup_nil
  fresh := by simp
  detached := by simp
  kept := fun _ _ => rfl
  mirrors := .nil
  whole := by simp
  young := by simp

theorem DuplicatesAll.concat {originals copies : List NodeId} {t'' : Tree}
    (hall : DuplicatesAll t t' originals copies)
    (hcopies : CopiesAll False t t'' (originals ++ [n]) (copies ++ [q]))
    (hcopy : Copies t' t'' n q) (hdup : Duplicates t' t'' n q) :
    DuplicatesAll t t'' (originals ++ [n]) (copies ++ [q]) := by
  have hkeeps : t'.KeepsNodes t'' := .of_kept hcopy.kept
  refine ⟨hcopies, ?mirrors, fun x hx => ?whole, fun x hx j c hunder => ?young⟩
  case mirrors =>
    apply List.rel_append
    · exact hall.mirrors.imp fun _ _ h => h.of_keepsNodes hkeeps
    · exact .cons hdup.mirrors .nil
  case whole =>
    rcases List.mem_append.1 hx with hx | hx
    · exact (hall.whole x hx).of_keepsNodes hkeeps
    · exact List.mem_singleton.1 hx ▸ hdup.mirrors.whole
  case young =>
    rcases List.mem_append.1 hx with hx | hx
    · exact hall.young x hx j c ((hall.whole x hx).under_of_keepsNodes hkeeps hunder)
    · rw [List.mem_singleton.1 hx] at hunder
      exact Nat.le_trans hall.size_le (hdup.fresh j c hunder)

/-- The copies of a node's children get a copy of the node above them, which is a copy of the
whole. -/
theorem DuplicatesAll.top {t'' : Tree} {s : Slot} {copies : List NodeId}
    (hall : DuplicatesAll t t' s.node.children copies) (hs : t.slot? n = some s)
    (hcopy : Copies t t'' n t'.next)
    (hadopts : Adopts t'.next copies (t'.push { node := s.node.withChildren copies }) t'') :
    Duplicates t t'' n t'.next := by
  have hnext : t'.next ∉ copies := by
    intro hmem
    obtain ⟨sq, hsq, -⟩ := hall.detached _ hmem
    exact ne_next (index_lt_size hsq) rfl
  have htop : t''.slot? t'.next = some { node := s.node.withChildren copies } := by
    rw [hadopts.2, if_neg hnext, slot?_push, if_pos rfl]
  have hkeeps : t'.KeepsNodes t'' := by
    intro k sk hk
    rw [hadopts.2, slot?_push, if_neg (ne_next (index_lt_size hk)), hk]
    split <;> exact ⟨_, rfl, rfl⟩
  have hchildren : (s.node.withChildren copies).children = copies :=
    Node.children_withChildren hall.length
  refine ⟨?mirrors, fun j c hunder => ?fresh, _, htop, rfl, rfl⟩
  case mirrors =>
    have hn : t''.slot? n = some s := (hcopy.kept n (index_lt_size hs)).trans hs
    apply Mirrors.node (node?_eq_some.2 ⟨s, hn, rfl⟩) (node?_eq_some.2 ⟨_, htop, rfl⟩)
      (Node.resembles_withChildren hall.length)
    rw [hchildren]
    intro p hp
    exact ((List.forall₂_iff_zip.1 hall.mirrors).2 hp).of_keepsNodes hkeeps
  case fresh =>
    cases j with
    | zero =>
      cases hunder
      exact hcopy.fresh
    | succ j =>
      obtain ⟨s', d, hs', hd, hdown⟩ := hunder.exists_child
      obtain rfl := Option.some.inj (htop.symm.trans hs')
      rw [hchildren] at hd
      exact hall.young d hd j c ((hall.whole d hd).under_of_keepsNodes hkeeps hdown)

theorem copy_duplicates (coherent : t.Coherent) (whole : t.Whole n) (hwithin : t.Within limit n) :
    Yields (copy limit n) t fun m t' => Duplicates t t' n m := by
  induction limit generalizing n t with
  | zero =>
    obtain ⟨s, hs⟩ := whole.exists_slot
    exact absurd (hwithin 0 n (.self hs)) (Nat.not_lt_zero 0)
  | succ limit ih =>
    obtain ⟨s, hs⟩ := whole.exists_slot
    obtain ⟨rest, hrest, hbelow⟩ := hwithin.exists_limit hs
    obtain rfl : limit = rest := Nat.succ.inj hrest
    have hloop : Yields (s.node.children.mapM (copy limit)) t fun copies m =>
        DuplicatesAll t m s.node.children copies := by
      apply Yields.mapM (fun before done m => DuplicatesAll t m before done) (.nil coherent)
      intro before c after done m hsplit hall
      have hmem : c ∈ s.node.children := by simp [hsplit]
      have hkeeps : t.KeepsNodes m := .of_kept hall.kept
      have hwhole : t.Whole c := whole.of_mem_children hs hmem
      apply (ih hall.coherent (hwhole.of_keepsNodes hkeeps)
        (hwhole.within_of_keepsNodes hkeeps (hbelow c hmem))).of_ok
      intro q m' hrun hdup
      have hcopy := copies_copy hrun hall.coherent
      have hgrows : m.Builds False ((copy limit c).after m) := (copy_spec limit c m).1
      rw [after_of_ok hrun] at hgrows
      have hcopies := hall.toCopiesAll.concat (hgrows hall.coherent)
        (hgrows.evolves hall.coherent).1 hcopy fun sc hsc => by
          rw [hall.kept c (coherent.inside n s hs c hmem)] at hsc
          exact coherent.isStatement_of_mem_children hs hmem hsc
      exact hall.concat hcopies hcopy hdup
    have hnode : t.node? n = some s.node := node?_eq_some.2 ⟨s, hs, rfl⟩
    unfold copy
    refine Yields.of_ask (node_ok.2 hnode) (hloop.bind fun copies m _ hall => ?_)
    obtain ⟨t'', hrun, -, hcopy, hadopts⟩ := exists_top hall.toCopiesAll (index_lt_size hs) hnode
    exact ⟨_, t'', hrun, hall.top hs hcopy hadopts⟩

/-- A whole subtree can be copied. -/
theorem cloneSubtree_duplicates (coherent : t.Coherent) (whole : t.Whole n) :
    Yields (cloneSubtree n) t fun m t' => Duplicates t t' n m ∧ Copies t t' n m ∧ t'.Coherent := by
  have hwithin : t.Within (t.size + 1) n := fun j m hunder =>
    Nat.lt_succ_of_lt (whole.ends.within_size j m hunder)
  have hcopy := copy_duplicates coherent whole hwithin
  apply Yields.of_get
  apply hcopy.of_ok
  intro m t' hrun hdup
  have hevolves := evolves_copy (t.size + 1) n t coherent
  rw [after_of_ok hrun] at hevolves
  exact ⟨hdup, copies_copy hrun coherent, hevolves.1⟩

/-- The copy of a whole expression without definitions is the same as the original. -/
theorem Duplicates.same (hdup : Duplicates t t' n m) (hcopy : Copies t t' n m)
    (coherent : t.Coherent)
    (whole : t.WholeExpression n) (huses : ∀ j k, t.Under n j k → t.defines k = false) :
    t'.same m n = true ∧ t'.fingerprint m = t'.fingerprint n := by
  have hkeeps : t.KeepsNodes t' := .of_kept hcopy.kept
  obtain ⟨e, he⟩ := whole.exists_spells coherent
  have hn : t'.Spells n e := he.of_keepsNodes hkeeps
  have hm : t'.Spells m e := by
    apply hdup.mirrors.spells hn
    intro j k hunder
    have hbelow := whole.whole.under_of_keepsNodes hkeeps hunder
    obtain ⟨s, hs⟩ := (whole.whole.of_under hbelow).exists_slot
    have hsame : t'.defines k = t.defines k := by
      simp only [defines, node?, hcopy.kept k (index_lt_size hs)]
    rw [hsame]
    exact huses j k hbelow
  exact ⟨same_iff.2 ⟨e, hm, hn⟩, by rw [hm.fingerprint, hn.fingerprint]⟩

end Tree

end MethodFlow
