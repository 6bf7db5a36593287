import MethodFlow.Proofs.Tree.Exchange

/-!
Copies of subtrees. A copy is new from top to bottom, so the tree that it was taken from stays as it
was.
-/

namespace MethodFlow.Tree

open Edit

variable {t t' : Tree} {n m parent : NodeId} {limit : Nat} {removes : Prop}

/-- The node `m` is a copy of `n`, and every node that was there before is as it was. -/
structure Copies (t t' : Tree) (n m : NodeId) : Prop where
  fresh : t.size ≤ m.index
  detached : ∃ s s', t.slot? n = some s ∧ t'.slot? m = some s' ∧
    s'.node.isStatement = s.node.isStatement ∧ s'.parent = none
  size_le : t.size ≤ t'.size
  kept : ∀ k : NodeId, k.index < t.size → t'.slot? k = t.slot? k

structure CopiesAll (removes : Prop) (t t' : Tree) (originals copies : List NodeId) : Prop where
  steps : Relation.ReflTransGen (Step removes) t t'
  size_le : t.size ≤ t'.size
  coherent : t'.Coherent
  length : copies.length = originals.length
  nodup : copies.Nodup
  fresh : ∀ q ∈ copies, t.size ≤ q.index
  detached : ∀ q ∈ copies, t'.Detached q
  kept : ∀ k : NodeId, k.index < t.size → t'.slot? k = t.slot? k

theorem forM_setParent_of_attach {cs : List NodeId} {u : PUnit}
    (h : cs.forM (attach parent) t = .ok u t') :
    cs.forM (fun c => setParent c (some parent)) t = .ok u t' := by
  induction cs generalizing t with
  | nil => exact h
  | cons c rest ih =>
    simp only [List.forM, bind_ok, attach, ask_ok] at h ⊢
    obtain ⟨_, m, ⟨_, _, ⟨-, rfl⟩, hset⟩, hrest⟩ := h
    exact ⟨_, m, hset, ih hrest⟩

theorem exists_top {node : Node} {copies : List NodeId}
    (hall : CopiesAll removes t t' node.children copies)
    (hin : n.index < t.size) (hnode : t.node? n = some node) :
    ∃ t'', (do
      let top ← alloc (node.withChildren copies)
      copies.forM fun c => setParent c (some top)
      return top : Edit Tree NodeId) t' = .ok t'.next t'' ∧ Step removes t' t'' ∧
        Copies t t'' n t'.next ∧
        Adopts t'.next copies (t'.push { node := node.withChildren copies }) t'' := by
  have hlt {q : NodeId} (hq : q ∈ copies) : q ≠ t'.next := by
    obtain ⟨s, hs, -⟩ := hall.detached q hq
    exact ne_next (index_lt_size hs)
  have hpushed : ∀ q ∈ copies, (t'.push { node := node.withChildren copies }).Detached q := by
    intro q hq
    obtain ⟨s, hs, hrest⟩ := hall.detached q hq
    exact ⟨s, by rw [slot?_push, if_neg (hlt hq), hs], hrest⟩
  obtain ⟨t'', hrun, hadopts⟩ := exists_adopts t'.next hall.nodup hpushed
  have hchildren : (node.withChildren copies).children = copies :=
    Node.children_withChildren hall.length
  obtain ⟨s, hs, rfl⟩ := node?_eq_some.1 hnode
  have hlinked : LinksBelow t'.size (s.node.withChildren copies) :=
    Node.linksBelow_withChildren (hall.coherent.linked n s ((hall.kept n hin).trans hs))
  have hstep : Step removes t' t'' := by
    refine @Step.make removes t' (s.node.withChildren copies) t'' ?_ ?_ hlinked ?_ <;>
      rw [hchildren]
    · exact hall.nodup
    · exact hall.detached
    · exact hadopts
  have hsize : t''.size = t'.size + 1 := hadopts.1.trans (size_push _)
  have hle := hall.size_le
  refine ⟨t'', ?_, hstep, ⟨hle, ⟨s, { node := s.node.withChildren copies }, hs, ?_, ?_, rfl⟩,
    by omega, fun k hk => ?_⟩, hadopts⟩
  · simp only [bind_ok, alloc_ok, pure_ok]
    exact ⟨_, _, ⟨rfl, rfl⟩, _, _, forM_setParent_of_attach hrun, rfl, rfl⟩
  · rw [hadopts.2, if_neg fun hmem => hlt hmem rfl, slot?_push, if_pos rfl]
  · exact Node.isStatement_withChildren _ _
  · have hkn : k ≠ t'.next := by
      rintro rfl
      exact absurd hk (Nat.not_lt.2 hle)
    rw [hadopts.2, if_neg fun hmem => absurd (hall.fresh k hmem) (Nat.not_le.2 hk), slot?_push,
      if_neg hkn, hall.kept k hk]

theorem CopiesAll.concat {originals copies : List NodeId} {t'' : Tree} {q : NodeId}
    (hall : CopiesAll removes t t' originals copies)
    (hsteps : Relation.ReflTransGen (Step removes) t' t'')
    (hcoherent : t''.Coherent) (hcopy : Copies t' t'' n q)
    (hexpr : ∀ s, t'.slot? n = some s → s.node.isStatement = false) :
    CopiesAll removes t t'' (originals ++ [n]) (copies ++ [q]) := by
  obtain ⟨s, sq, hs, hsq, hkind, hnone⟩ := hcopy.detached
  have hold : ∀ x ∈ copies, x.index < t'.size := fun x hx => by
    obtain ⟨sx, hsx, -⟩ := hall.detached x hx
    exact index_lt_size hsx
  have hle := hall.size_le
  refine ⟨hall.steps.trans hsteps, Nat.le_trans hle hcopy.size_le, hcoherent, by simp [hall.length],
    ?_, ?_, ?_, fun k hk => ?_⟩
  · rw [← List.concat_eq_append]
    exact hall.nodup.concat fun hq => absurd (hold q hq) (Nat.not_lt.2 hcopy.fresh)
  · intro x hx
    rcases List.mem_append.1 hx with hx | hx
    · exact hall.fresh x hx
    · rw [List.mem_singleton.1 hx]
      exact Nat.le_trans hle hcopy.fresh
  · intro x hx
    rcases List.mem_append.1 hx with hx | hx
    · obtain ⟨sx, hsx, hrest⟩ := hall.detached x hx
      exact ⟨sx, (hcopy.kept x (hold x hx)).trans hsx, hrest⟩
    · rw [List.mem_singleton.1 hx]
      exact ⟨sq, hsq, hkind.trans (hexpr s hs), hnone⟩
  · rw [hcopy.kept k (by omega), hall.kept k hk]

theorem copy_spec (limit : Nat) (n : NodeId) (t : Tree) :
    t.Builds removes ((copy limit n).after t) ∧
      ∀ m t', copy limit n t = .ok m t' → t.Coherent → Copies t t' n m := by
  induction limit generalizing n t with
  | zero => exact ⟨Std.Refl.refl t, fun m t' h => (throw_ok.1 h).elim⟩
  | succ limit ih =>
    -- The induction is on the depth; the copies of the children are gathered one by one.
    have hchildren {s : Slot} (hc : t.Coherent) (hs : t.slot? n = some s) {copies : List NodeId}
        {t' : Tree} (h : s.node.children.mapM (copy limit) t = .ok copies t') :
        CopiesAll removes t t' s.node.children copies := by
      refine mapM_ok h (fun before done m => CopiesAll removes t m before done)
        ⟨.refl, Nat.le_refl _, hc, rfl, List.nodup_nil, by simp, by simp, fun _ _ => rfl⟩ ?_
      intro before c after done q m m' hsplit hall hrun
      have hmem : c ∈ s.node.children := by simp [hsplit]
      have hgrows := (ih c m).1
      rw [after_of_ok hrun] at hgrows
      refine hall.concat (hgrows hall.coherent) (hgrows.evolves hall.coherent).1
        ((ih c m).2 q m' hrun hall.coherent) fun sc hsc => ?_
      rw [hall.kept c (hc.inside n s hs c hmem)] at hsc
      exact hc.isStatement_of_mem_children hs hmem hsc
    refine ⟨fun hc => ?_, fun m t' h hc => ?_⟩
    · refine Moves.of_ask (R := Builds removes) (fun node hnode => ?_) hc
      obtain ⟨s, hs, rfl⟩ := node?_eq_some.1 (node_ok.1 hnode)
      intro hc
      rcases after_bind_cases (x := s.node.children.mapM (copy limit)) (f := fun copies => do
        let top ← alloc (s.node.withChildren copies)
        copies.forM fun c => setParent c (some top)
        return top) t with hstop | ⟨copies, hrun, hrest⟩
      · exact hstop ▸ Moves.mapM (fun c t => (ih c t).1) s.node.children t hc
      · have hall := hchildren hc hs hrun
        obtain ⟨t'', htop, hstep, -⟩ := exists_top hall (index_lt_size hs) (node_ok.1 hnode)
        rw [hrest, after_of_ok htop]
        exact hall.steps.tail hstep
    · rw [copy, bind_ok] at h
      obtain ⟨node, _, hask, h⟩ := h
      obtain ⟨hnode, rfl⟩ := ask_ok.1 hask
      obtain ⟨s, hs, rfl⟩ := node?_eq_some.1 (node_ok.1 hnode)
      obtain ⟨copies, t₁, hrun, h⟩ := bind_ok.1 h
      obtain ⟨t'', htop, -, hcopies, -⟩ :=
        exists_top (hchildren hc hs hrun) (index_lt_size hs) (node_ok.1 hnode)
      rw [htop, EStateM.Result.ok.injEq] at h
      obtain ⟨rfl, rfl⟩ := h
      exact hcopies

theorem evolves_copy (limit : Nat) (n : NodeId) (t : Tree) : t.Evolves ((copy limit n).after t) :=
  Builds.evolves (show t.Builds False _ from (copy_spec limit n t).1)

theorem copies_copy (h : copy limit n t = .ok m t') (hc : t.Coherent) : Copies t t' n m :=
  (@copy_spec False limit n t).2 m t' h hc

theorem moves_cloneSubtree (n : NodeId) : Moves (Builds removes) (cloneSubtree n) :=
  fun t => (copy_spec (t.size + 1) n t).1

end MethodFlow.Tree
