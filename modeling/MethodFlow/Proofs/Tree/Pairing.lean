import MethodFlow.Proofs.Tree.Requests

/-!
Children and parents match in every tree that is edited without removing a node from below another
one, even if the parents of some nodes go in a circle.
-/

namespace MethodFlow

open Edit MethodFlow.Tree

namespace Tree

variable {t t' : Tree} {n c p : NodeId} {s : Slot}

/-- The parent of a node lists it, and what a node lists is in use and has that node for its
parent. -/
structure Paired (t : Tree) : Prop where
  coherent : t.Coherent
  listed : t.Listed []
  present : t.Present

theorem paired_empty : Tree.empty.Paired := by
  have hnone (n : NodeId) : Tree.empty.slot? n = none := by simp [slot?, empty]
  refine ⟨forest_empty.coherent, fun n s p hs => ?_, fun n s hs => ?_⟩ <;> simp [hnone] at hs

namespace Paired

/-- A node without a parent goes with everything below it. -/
theorem remove (h : t.Paired) (hn : ∀ s, t.slot? n = some s → s.parent = none) :
    ((cleanup n).after t).Paired := by
  have hclears := clears_cleanup t n
  exact ⟨h.coherent.of_prunes hclears.prunes, h.listed.clears hclears,
    h.present.clears h.coherent hclears hn⟩

theorem store (h : t.Paired) {sp : Slot} {node : Node} {old : Option NodeId}
    (htakes : t.Takes p sp c node old) (hentered : c ∈ node.children)
    (hkept : ∀ x ∈ sp.node.children, old ≠ some x → x ∈ node.children) :
    ((setNode p node >>= fun _ => adopt p c old).after t).Paired := by
  obtain ⟨t₁, ho, hafter⟩ := htakes.handsOver h.coherent
  have h₁ : t₁.Paired := ⟨ho.coherent, h.listed.handsOver ho htakes.slot hentered hkept,
    h.present.handsOver ho htakes⟩
  rcases hafter with hafter | ⟨o, hold, hafter⟩
  · rwa [hafter]
  · rw [hafter]
    refine h₁.remove fun s' hs' => ?_
    obtain ⟨s, -, hparent⟩ := ho.back o s' hs'
    rwa [if_pos hold] at hparent

theorem step (h : t.Paired) (hstep : Step False t t') : t'.Paired := by
  have hcoherent := (hstep.evolves h.coherent).1
  cases hstep with
  | make nodup hdetached hlinked hadopts =>
    exact ⟨hcoherent, h.listed.make hdetached hadopts, h.present.make hdetached hadopts⟩
  | @rewrite n s o o' hs ho hlinked =>
    -- Before and after, an occurrence has no children.
    have hnone (o : Occurrence) : (Node.occurrence o).children = [] := rfl
    exact ⟨hcoherent, h.listed.put hs (fun _ => id) (by simp [ho, hnone]) (by simp),
      h.present.put hs (by simp [hnone])⟩
  | @exchange n c p inputs old hn hdetached hexchange =>
    obtain ⟨s, hs, hnode⟩ := node?_eq_some.1 hn
    refine h.store (takes_of_exchange h.coherent hs hnode hdetached hexchange)
      (List.mem_cons_of_mem _ hexchange.new_mem) fun x hx hne => ?_
    rw [hnode] at hx
    rcases List.mem_cons.1 hx with rfl | hx
    · exact List.mem_cons_self
    · exact List.mem_cons_of_mem _ (hexchange.kept hx hne)
  | remove n hout => exact hout.elim

theorem builds (h : t.Paired) (hbuilds : t.Builds False t') : t'.Paired := by
  have hsteps := hbuilds h.coherent
  clear hbuilds
  induction hsteps with
  | refl => exact h
  | tail _ hstep ih => exact ih.step hstep

/-- Whatever is put in the place of a node, even if the node stands below it. -/
theorem replace (h : t.Paired) (old new : NodeId) : ((Tree.replace old new).after t).Paired := by
  rcases replace_cases old new t with hmarks | ⟨t₁, s, p, sp, hmarks, hs, hp, hsp, hdetached, hrun⟩
  · exact h.builds (hmarks.builds False)
  · have h₁ := h.builds (hmarks.builds False)
    obtain ⟨htakes, hchildren⟩ := takes_of_replace h₁.coherent hs hp hsp hdetached
    rw [hrun]
    refine h₁.store htakes ?_ fun x hx hne => hchildren.kept x hx fun he => hne (by rw [he])
    obtain ⟨sp', hsp', hmem⟩ := h₁.listed old s p hs hp (by simp)
    obtain rfl : sp = sp' := by simpa [hsp] using hsp'
    exact hchildren.entered hmem

end Paired

section dropping

/-- The operands are discarded one after another, with what holds of those that are still to go. -/
theorem dropOperands_yields_of {P : List NodeId → Tree → Prop} (event : NodeId → Event)
    (hdiscard : ∀ q rest t, P (q :: rest) t → Yields (discard q) t fun _ t' => P rest t')
    {dropped : List NodeId} {r : Recorded Tree} (h : P dropped r.value) :
    Yields (dropOperands event dropped) r fun _ r' => P [] r'.value := by
  refine (Yields.forM (fun passed (m : Recorded Tree) => ∃ rest, dropped = passed ++ rest ∧
    P rest m.value) ⟨dropped, rfl, h⟩ ?_).mono ?_
  · rintro passed q after m hsplit ⟨rest, hrest, hm⟩
    obtain rfl : rest = q :: after := List.append_cancel_left (hrest.symm.trans hsplit)
    refine .of_first (a := ()) (report_ok.2 rfl) ?_
    exact Yields.within (hdiscard q after _ hm) fun _ t' ht' => ⟨after, by simp [hsplit], ht'⟩
  · rintro - m ⟨rest, hrest, hm⟩
    obtain rfl : rest = [] := by simpa using hrest
    exact hm

/-- A node without a parent, and others in use that have it for their parent. -/
structure Loosened (t : Tree) (n : NodeId) (loose : List NodeId) : Prop where
  nodup : loose.Nodup
  top : t.parent n = .ok none
  held : ∀ q ∈ loose, t.parent q = .ok (some n)

theorem Loosened.discard {q : NodeId} {rest : List NodeId} (h : t.Loosened n (q :: rest)) :
    Yields (discard q) t fun _ t' => t'.Loosened n rest := by
  obtain ⟨sn, hn, hroot⟩ := parent_ok.1 h.top
  obtain ⟨sq, hq, hparent⟩ := parent_ok.1 (h.held q List.mem_cons_self)
  obtain ⟨hout, hnodup⟩ := List.nodup_cons.1 h.nodup
  refine (discard_succeeds hq).of_ok fun _ t' hrun _ => ?_
  rw [← after_of_ok hrun]
  have hnq : n ≠ q := by
    rintro rfl
    obtain rfl : sn = sq := by simpa [hn] using hq
    simp [hroot] at hparent
  have htop := slot?_discard hq hn hnq fun p hp => by simp [hroot] at hp
  refine ⟨hnodup, parent_ok.2 ⟨sn, htop, hroot⟩, fun x hx => ?_⟩
  obtain ⟨sx, hsx, hp⟩ := parent_ok.1 (h.held x (List.mem_cons_of_mem _ hx))
  refine parent_ok.2 ⟨sx, slot?_discard hq hsx (fun he => hout (he ▸ hx)) fun p hp' => ?_, hp⟩
  obtain rfl : n = p := by simpa [hp] using hp'
  simp [htop]

theorem Loosened.dropOperands_succeeds (event : NodeId → Event) {dropped : List NodeId}
    {r : Recorded Tree}
    (h : r.value.Loosened n dropped) : Succeeds (dropOperands event dropped) r :=
  (dropOperands_yields_of (P := fun rest t => t.Loosened n rest) event
    (fun _ _ _ => Loosened.discard)
    h).succeeds

/-- A tree where `n` has stopped listing the nodes in `loose`, which have it for their parent
still. -/
structure Dropping (t : Tree) (n : NodeId) (loose : List NodeId) : Prop where
  coherent : t.Coherent
  listed : t.Listed loose
  present : t.Present
  nodup : loose.Nodup
  top : ∃ s, t.slot? n = some s ∧ s.parent = none
  stray : ∀ q ∈ loose, t.Stray q
  held : ∀ q ∈ loose, ∃ s, t.slot? q = some s ∧ s.parent = some n

theorem Dropping.loosened {loose : List NodeId} (h : t.Dropping n loose) : t.Loosened n loose := by
  obtain ⟨s, hs, hroot⟩ := h.top
  refine ⟨h.nodup, parent_ok.2 ⟨s, hs, hroot⟩, fun q hq => ?_⟩
  obtain ⟨sq, hsq, hp⟩ := h.held q hq
  exact parent_ok.2 ⟨sq, hsq, hp⟩

theorem Dropping.discard {q : NodeId} {rest : List NodeId} (h : t.Dropping n (q :: rest)) :
    Yields (discard q) t fun _ t' => t'.Dropping n rest := by
  obtain ⟨sq, hq, -⟩ := h.held q (by simp)
  refine h.loosened.discard.of_ok fun _ t' hrun hloosened => ?_
  have hthins := thins_discard t q
  have hafter := after_discard hq
  rw [after_of_ok hrun] at hthins hafter
  have hcoherent := h.coherent.leave hq (h.stray q (by simp))
  have hlisted : (t.put q { sq with parent := none }).Listed rest :=
    h.listed.put hq (by simp) (fun _ hc _ => hc) fun x hx hout =>
      ⟨(List.mem_cons.1 hx).resolve_right hout, rfl⟩
  have hpresent : (t.put q { sq with parent := none }).Present := h.present.put hq fun _ => id
  have hclears := clears_cleanup (t.put q { sq with parent := none }) q
  rw [← hafter] at hclears
  refine ⟨hcoherent.of_prunes hclears.prunes, hlisted.clears hclears,
    hpresent.clears hcoherent hclears fun s hs => ?_, hloosened.nodup, parent_ok.1 hloosened.top,
    fun x hx => (h.stray x (by simp [hx])).of_thins hthins,
    fun x hx => parent_ok.1 (hloosened.held x hx)⟩
  rcases slot?_put_cases hq hs with ⟨-, rfl⟩ | ⟨hne, -⟩
  · rfl
  · exact absurd rfl hne

/-- All operands that a phi has stopped listing can be removed. -/
theorem Dropping.dropOperands (event : NodeId → Event) {dropped : List NodeId} {r : Recorded Tree}
    (h : r.value.Dropping n dropped) :
    Yields (dropOperands event dropped) r fun _ r' => r'.value.Paired :=
  (dropOperands_yields_of (P := fun rest t => t.Dropping n rest) event
    (fun _ _ _ => Dropping.discard)
    h).mono fun _ _ hm => ⟨hm.coherent, hm.listed, hm.present⟩

theorem Paired.drops {r r' : Recorded Tree} (h : r.value.Paired) (hdrops : Drops r r') :
    r'.value.Paired := by
  cases hdrops with
  | nothing => exact h
  | @dropping n p inputs event kept dropped hn hperm =>
    obtain ⟨s, hs, hnode⟩ := node?_eq_some.1 hn
    obtain ⟨hcoherent, hnodup, hgone⟩ := h.coherent.release hs hnode hperm
    have hput := slot?_put_of_slot hs { s with node := .phi { p with inputs } }
    have hroot : s.parent = none := h.coherent.root n s hs (by rw [hnode]; rfl)
    have hlist : s.node.children = p.target :: p.operands := by rw [hnode]; rfl
    have hexpr {x : NodeId} {sx : Slot} (hx : x ∈ s.node.children)
        (hsx : r.value.slot? x = some sx) :
        x ≠ n := by
      rintro rfl
      have := h.coherent.owned _ s hs _ hx sx hsx
      obtain rfl : s = sx := by simpa [hs] using hsx
      simp [hroot] at this
    have hchildren : (p.target :: ((Phi.mk p.target inputs).operands ++ dropped)).Perm
        s.node.children :=
      hlist ▸ hperm.cons p.target
    have hlisted : (r.value.put n { s with node := .phi { p with inputs } }).Listed dropped := by
      refine h.listed.put hs (fun _ => id) (fun c hc hout => ?_) (by simp)
      have hall := hchildren.symm.subset hc
      rw [← List.cons_append, List.mem_append] at hall
      exact hall.resolve_right hout
    have hpresent : (r.value.put n { s with node := .phi { p with inputs } }).Present := by
      refine h.present.put hs fun c hc => hchildren.subset ?_
      rw [← List.cons_append]
      exact List.mem_append_left _ hc
    have hdropping : (r.value.put n { s with node := .phi { p with inputs } }).Dropping
        n dropped := by
      refine ⟨hcoherent, hlisted, hpresent, hnodup, ⟨_, (hput n).trans (if_pos rfl), hroot⟩,
        fun q hq => (hgone q hq).2, fun q hq => ?_⟩
      obtain ⟨sq, hsq⟩ := h.present n s hs q (hgone q hq).1
      exact ⟨sq, by rw [hput, if_neg (hexpr (hgone q hq).1 hsq), hsq],
        h.coherent.owned n s hs q (hgone q hq).1 sq hsq⟩
    rw [after_dropping hs]
    obtain ⟨_, r', hrun, hpaired⟩ := Dropping.dropOperands
      (r := ⟨r.value.put n { s with node := .phi { p with inputs } }, r.events⟩) event hdropping
    rwa [after_of_ok hrun]

end dropping

end Tree

namespace TreeEdit

variable {t : Tree} {e : TreeEdit}

/-- The edit does not remove a node from below another one. -/
def Spares (t : Tree) : TreeEdit → Prop
  | request (.cleanup n) => ∀ p, t.parent n ≠ .ok (some p)
  | _ => True

theorem evolves_edit (t : Tree) (e : TreeEdit) : t.Evolves (t.edit e) := by
  cases e with
  | request r => exact (TreeRequest.moves_run r).quietly ⟨t, []⟩
  | retainJoinOperands n preds =>
    exact ((moves_retainJoinOperands n preds).bind fun _ => .pure _) ⟨t, []⟩
  | readCatchOperands n => exact ((moves_readCatchOperands n).bind fun _ => .pure _) ⟨t, []⟩

theorem paired_edit (h : t.Paired) (he : e.Spares t) : (t.edit e).Paired := by
  cases e with
  | request r =>
    have hrun : t.edit (.request r) = r.run.after t :=
      congrArg Recorded.value (after_within _ _ _ _)
    rw [hrun]
    cases r with
    | replace old new => exact h.replace old new
    | cleanup n =>
      refine h.remove fun s hs => Option.eq_none_iff_forall_ne_some.2 fun p hp => ?_
      exact he p (parent_ok.2 ⟨s, hs, hp⟩)
    | _ => exact h.builds (TreeRequest.builds_run _ t (by simp) (by simp))
  | retainJoinOperands n preds =>
    rw [Tree.edit, run, after_bind_pure]
    exact h.drops (drops_retainJoinOperands n preds ⟨t, []⟩)
  | readCatchOperands n =>
    rw [Tree.edit, run, after_bind_pure]
    exact h.drops (drops_readCatchOperands n ⟨t, []⟩)

end TreeEdit

namespace Tree

variable {t : Tree} {es : List TreeEdit}

/-- No edit of a run removes a node from below another one. -/
def SparingRun (t : Tree) : List TreeEdit → Prop
  | [] => True
  | e :: rest => e.Spares t ∧ (t.edit e).SparingRun rest

theorem Paired.edits (h : t.Paired) (hes : t.SparingRun es) : (t.edits es).Paired := by
  induction es generalizing t with
  | nil => exact h
  | cons e rest ih => exact ih (TreeEdit.paired_edit h hes.1) hes.2

theorem evolves_edits (t : Tree) (es : List TreeEdit) : t.Evolves (t.edits es) := by
  induction es generalizing t with
  | nil => exact Std.Refl.refl t
  | cons e rest ih => exact IsTrans.trans _ _ _ (TreeEdit.evolves_edit t e) (ih (t.edit e))

/-- Every tree that edits make is coherent. -/
theorem coherent_edits (es : List TreeEdit) : (Tree.empty.edits es).Coherent :=
  (evolves_edits Tree.empty es paired_empty.coherent).1

/-- As long as no node is removed from below another one, what a node lists are expressions in use
that have the node for their parent, and every parent is in use and lists its child once. Statements
have no parent. What has been removed has neither a parent nor a block, and no edit brings it
back. -/
theorem ownership_of_edits {t : Tree}
    (hrun : ∃ es, Tree.empty.SparingRun es ∧ Tree.empty.edits es = t) :
    (∀ n cs, t.children n = .ok cs → ∀ c ∈ cs, (∃ node, t.expression c = .ok node) ∧
      t.parent c = .ok (some n)) ∧
    (∀ n p, t.parent n = .ok (some p) → ∃ cs, t.children p = .ok cs ∧ cs.count n = 1) ∧
    (∀ n node, t.statement n = .ok node → t.parent n = .ok none) ∧
    ∀ n, t.isLive n = false → t.parent n = .error (.invalidNode n) ∧
      t.blockOf n = .error (.invalidNode n) ∧
        (n.index < t.size → ∀ more, (t.edits more).isLive n = false) := by
  obtain ⟨es, hes, rfl⟩ := hrun
  have hpaired := paired_empty.edits hes
  generalize Tree.empty.edits es = t at hpaired
  have coherent := hpaired.coherent
  refine ⟨fun n cs hcs c hc => ?_, fun n p hp => ?_, fun n node hn => ?_, fun n hn => ?_⟩
  · obtain ⟨s, hs, rfl⟩ := children_ok.1 hcs
    obtain ⟨sc, hsc⟩ := hpaired.present n s hs c hc
    refine ⟨⟨sc.node, expression_ok.2 ⟨node?_eq_some.2 ⟨sc, hsc, rfl⟩, ?_⟩⟩,
      parent_ok.2 ⟨sc, hsc, coherent.owned n s hs c hc sc hsc⟩⟩
    exact coherent.isStatement_of_mem_children hs hc hsc
  · obtain ⟨s, hs, hparent⟩ := parent_ok.1 hp
    obtain ⟨sp, hsp, hmem⟩ := hpaired.listed n s p hs hparent (by simp)
    exact ⟨_, children_ok.2 ⟨sp, hsp, rfl⟩, List.count_eq_one_of_mem (coherent.nodup p sp hsp) hmem⟩
  · obtain ⟨hnode, hkind⟩ := statement_ok.1 hn
    obtain ⟨s, hs, rfl⟩ := node?_eq_some.1 hnode
    exact parent_ok.2 ⟨s, hs, coherent.root n s hs hkind⟩
  · have hnone : t.slot? n = none := by simpa [isLive] using hn
    have hparent : t.parent n = .error (.invalidNode n) := by simp [parent, slot, hnone]
    refine ⟨hparent, ?_, fun hlt more => ?_⟩
    · simp [blockOf, root, climb, hparent, bind, Except.bind]
    · by_contra hlive
      obtain ⟨s', hs'⟩ := Option.isSome_iff_exists.1 (Bool.not_eq_false _ ▸ hlive)
      obtain ⟨s, hs, -⟩ := (evolves_edits t more coherent).2.old n s' hlt hs'
      simp [hnone] at hs

/-- The value of a store is replaced, and the store is removed after it has been copied. -/
def copyStore : List TreeEdit :=
  [.request (.newVariable (.ofLocal 0) .int), .request (.newLiteral (.int 1)),
    .request (.newStore ⟨0⟩ ⟨1⟩), .request (.newEval ⟨0⟩), .request (.newLiteral (.int 2)),
    .request (.replace ⟨1⟩ ⟨3⟩), .request (.cloneSubtree ⟨2⟩), .request (.cleanup ⟨2⟩)]

theorem ownership_of_copyStore : Tree.empty.SparingRun copyStore ∧
    (∃ node, (Tree.empty.edits copyStore).expression ⟨5⟩ = .ok node) ∧
      (Tree.empty.edits copyStore).parent ⟨5⟩ = .ok (some ⟨6⟩) ∧
        ∀ more, ((Tree.empty.edits copyStore).edits more).isLive ⟨3⟩ = false := by
  have hroot : (Tree.empty.edits (copyStore.take 7)).parent ⟨2⟩ = .ok none := by decide +kernel
  have hrun : Tree.empty.SparingRun copyStore := by
    refine ⟨trivial, trivial, trivial, trivial, trivial, trivial, trivial, fun p hp => ?_, trivial⟩
    exact absurd (hroot.symm.trans hp) (by simp)
  have hcopy : (Tree.empty.edits copyStore).children ⟨6⟩ = .ok [⟨4⟩, ⟨5⟩] := by decide +kernel
  have hgone : (Tree.empty.edits copyStore).isLive ⟨3⟩ = false := by decide +kernel
  obtain ⟨hlisted, -, -, hdead⟩ := ownership_of_edits ⟨copyStore, hrun, rfl⟩
  obtain ⟨hexpression, hparent⟩ := hlisted ⟨6⟩ _ hcopy ⟨5⟩ (by simp)
  exact ⟨hrun, hexpression, hparent, (hdead ⟨3⟩ hgone).2.2 (by decide +kernel)⟩

end Tree

end MethodFlow
