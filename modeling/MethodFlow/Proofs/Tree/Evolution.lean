import MethodFlow.Proofs.Tree.Coherence

/-!
What operations make of a tree. They keep its ownership in order, and whatever happens to a node, it
does not change between an expression and a statement, or its block.
-/

namespace MethodFlow.Tree

variable {t t' t'' : Tree} {n c m : NodeId} {s s' : Slot}

/-- Nodes that were there before are of the same kind and in the same block, or they are gone. -/
structure Steady (t t' : Tree) : Prop where
  size : t.size ≤ t'.size
  old : ∀ n s', n.index < t.size → t'.slot? n = some s' →
    ∃ s, t.slot? n = some s ∧ s'.node.isStatement = s.node.isStatement ∧ s'.block = s.block

instance : IsPreorder Tree Steady where
  refl _ := ⟨Nat.le_refl _, fun _ s' _ hs' => ⟨s', hs', rfl, rfl⟩⟩
  trans _ _ _ h h' := by
    refine ⟨Nat.le_trans h.size h'.size, fun n s'' hn hs'' => ?_⟩
    obtain ⟨s', hs', hkind', hblock'⟩ := h'.old n s'' (Nat.lt_of_lt_of_le hn h.size) hs''
    obtain ⟨s, hs, hkind, hblock⟩ := h.old n s' hn hs'
    exact ⟨s, hs, hkind'.trans hkind, hblock'.trans hblock⟩

theorem steady_push (t : Tree) (s : Slot) : t.Steady (t.push s) := by
  refine ⟨by simp, fun n s' hn hs' => ⟨s', ?_, rfl, rfl⟩⟩
  rwa [slot?_push, if_neg (ne_next hn)] at hs'

theorem steady_put (hs : t.slot? n = some s) (hkind : s'.node.isStatement = s.node.isStatement)
    (hblock : s'.block = s.block) : t.Steady (t.put n s') := by
  refine ⟨by simp, fun m sm _ hm => ?_⟩
  rcases slot?_put_cases hs hm with ⟨rfl, rfl⟩ | ⟨-, hm⟩
  · exact ⟨s, hs, hkind, hblock⟩
  · exact ⟨sm, hm, rfl, rfl⟩

theorem Prunes.steady (h : t.Prunes t') : t.Steady t' := by
  refine ⟨Nat.le_of_eq h.1.symm, fun n s' _ hs' => ⟨s', ?_, rfl, rfl⟩⟩
  rcases h.2 n with hsame | hgone
  · rwa [← hsame]
  · simp [hgone] at hs'

theorem Adopts.steady {parent : NodeId} {cs : List NodeId} (h : Adopts parent cs t t') :
    t.Steady t' := by
  refine ⟨Nat.le_of_eq h.1.symm, fun n s' _ hs' => ?_⟩
  rw [h.2] at hs'
  split at hs'
  · obtain ⟨s, hs, rfl⟩ := Option.map_eq_some_iff.1 hs'
    exact ⟨s, hs, rfl, rfl⟩
  · exact ⟨s', hs', rfl, rfl⟩

/-- A tree in order stays in order. -/
def Evolves (t t' : Tree) : Prop := t.Coherent → t'.Coherent ∧ t.Steady t'

instance : IsPreorder Tree Evolves where
  refl t h := ⟨h, Std.Refl.refl t⟩
  trans _ _ _ h h' hc := by
    obtain ⟨hc', hsteady⟩ := h hc
    obtain ⟨hc'', hsteady'⟩ := h' hc'
    exact ⟨hc'', IsTrans.trans _ _ _ hsteady hsteady'⟩

theorem Prunes.evolves (h : t.Prunes t') : t.Evolves t' := fun hc => ⟨hc.of_prunes h, h.steady⟩

theorem evolves_cleanup (n : NodeId) (t : Tree) : t.Evolves ((cleanup n).after t) :=
  Edit.Moves.of_ask fun _ _ => (prunes_sweep t.size t n).evolves

section storing

/-- Nodes go, and others lose their parent. -/
def Thins (t t' : Tree) : Prop :=
  ∀ m s', t'.slot? m = some s' → ∃ s, t.slot? m = some s ∧ s'.node = s.node ∧
    (s'.parent = s.parent ∨ s'.parent = none)

theorem Stray.of_thins (h : t.Stray n) (ht : t.Thins t') : t'.Stray n := by
  intro s' p sp' hs' hp hsp' hmem
  obtain ⟨s, hs, -, hparent⟩ := ht n s' hs'
  obtain ⟨sp, hsp, hnode, -⟩ := ht p sp' hsp'
  rcases hparent with hsame | hnone
  · exact h s p sp hs (hsame ▸ hp) hsp (hnode ▸ hmem)
  · simp [hnone] at hp

theorem setParent_error {parent : Option NodeId} (h : t.slot? n = none) :
    setParent n parent t = .error (.invalidNode n) t := by
  simp [setParent, modifySlot, bind, EStateM.bind, Edit.ask, slot, h]

theorem after_discard (hs : t.slot? n = some s) :
    (discard n).after t = (cleanup n).after (t.put n { s with parent := none }) := by
  have hset : setParent n none t = .ok ⟨⟩ (t.put n { s with parent := none }) :=
    setParent_ok.2 ⟨s, hs, rfl⟩
  rw [discard, Edit.after_bind, hset]

theorem slot?_discard (hs : t.slot? n = some s) {x : NodeId} {sx : Slot} (hx : t.slot? x = some sx)
    (hne : x ≠ n) (hparent : ∀ p, sx.parent = some p → ((discard n).after t).slot? p ≠ none) :
    ((discard n).after t).slot? x = some sx := by
  rw [after_discard hs] at hparent ⊢
  have hput : (t.put n { s with parent := none }).slot? x = some sx := by
    rw [slot?_put_of_slot hs, if_neg hne, hx]
  have hclears := clears_cleanup (t.put n { s with parent := none }) n
  rcases hclears.prunes.2 x with hsame | hgone
  · exact hsame.trans hput
  · rcases hclears.up x sx hput hgone with he | ⟨p, hp, hout⟩
    · exact absurd he hne
    · exact absurd hout (hparent p hp)

theorem after_discard_none (hs : t.slot? n = none) : (discard n).after t = t := by
  rw [discard, Edit.after_bind, setParent_error hs]

theorem evolves_discard (hstray : t.Coherent → t.Stray n) : t.Evolves ((discard n).after t) := by
  intro h
  cases hs : t.slot? n with
  | none =>
    rw [after_discard_none hs]
    exact ⟨h, Std.Refl.refl t⟩
  | some s =>
    rw [after_discard hs]
    have hput : t.Evolves (t.put n { s with parent := none }) := fun h =>
      ⟨h.leave hs (hstray h), steady_put hs rfl rfl⟩
    exact IsTrans.trans _ _ _ hput (evolves_cleanup n _) h

theorem thins_discard (t : Tree) (n : NodeId) : t.Thins ((discard n).after t) := by
  cases hs : t.slot? n with
  | none =>
    rw [after_discard_none hs]
    exact fun m s' hs' => ⟨s', hs', rfl, .inl rfl⟩
  | some s =>
    rw [after_discard hs]
    have hclean : (t.put n { s with parent := none }).Prunes
        ((cleanup n).after (t.put n { s with parent := none })) := by
      have hlive := slot?_put_of_slot hs { s with parent := none } n
      rw [if_pos rfl] at hlive
      rw [cleanup, Edit.after_bind, Edit.ask, slot_ok.2 hlive]
      exact prunes_sweep _ _ _
    intro m s' hs'
    rcases hclean.2 m with hsame | hgone
    · rcases slot?_put_cases hs (hsame ▸ hs') with ⟨rfl, rfl⟩ | ⟨-, hold⟩
      · exact ⟨s, hs, rfl, .inr rfl⟩
      · exact ⟨s', hold, rfl, .inl rfl⟩
    · simp [hgone] at hs'

theorem put_put (t : Tree) (n : NodeId) (s s' : Slot) : (t.put n s).put n s' = t.put n s' := by
  simp [put]

/-- Writing what is there changes nothing. -/
theorem put_self (hs : t.slot? n = some s) : t.put n s = t := by
  have hget : t.slots[n.index]? = some (some s) := Option.join_eq_some_iff.1 hs
  obtain ⟨hlt, he⟩ := Array.getElem?_eq_some_iff.1 hget
  rw [put, ← he, Array.setIfInBounds_def, dif_pos hlt, Array.set_getElem_self]

theorem put_comm (h : n ≠ m) : (t.put n s).put m s' = (t.put m s').put n s := by
  have hne : n.index ≠ m.index := fun he => h (by cases n; cases m; exact congrArg NodeId.mk he)
  simp only [put]
  rw [Array.setIfInBounds_comm _ _ hne]

/-- Storing a new node at `p` and handing a child over to it may be done the other way round. -/
theorem after_store {sp sc : Slot} {p : NodeId} (hp : t.slot? p = some sp)
    (hc : t.slot? c = some sc) (node : Node) (old : Option NodeId) :
    ∃ sp', (t.put c { sc with parent := some p }).slot? p = some sp' ∧ sp'.node = sp.node ∧
      (p ≠ c → sp'.parent = sp.parent) ∧
      (setNode p node >>= fun _ => adopt p c old).after t =
        (old.elim (pure ()) discard).after
          ((t.put c { sc with parent := some p }).put p { sp' with node }) := by
  have hset : Tree.setNode p node t = .ok ⟨⟩ (t.put p { sp with node }) :=
    setNode_ok.2 ⟨sp, hp, rfl⟩
  have hput := slot?_put_of_slot hp { sp with node } c
  by_cases he : p = c
  · subst he
    obtain rfl : sp = sc := by simpa [hp] using hc
    rw [if_pos rfl] at hput
    have hgive : Tree.setParent p (some p) (t.put p { sp with node }) =
        .ok ⟨⟩ ((t.put p { sp with node }).put p { sp with node, parent := some p }) :=
      setParent_ok.2 ⟨_, hput, rfl⟩
    refine ⟨{ sp with parent := some p }, ?_, rfl, fun hne => absurd rfl hne, ?_⟩
    · rw [slot?_put_of_slot hp, if_pos rfl]
    · rw [Edit.after_bind_of_ok hset]
      simp only [adopt]
      rw [Edit.after_bind_of_ok hgive, put_put, put_put]
      cases old <;> rfl
  · rw [if_neg fun h => he h.symm, hc] at hput
    have hgive : Tree.setParent c (some p) (t.put p { sp with node }) =
        .ok ⟨⟩ ((t.put p { sp with node }).put c { sc with parent := some p }) :=
      setParent_ok.2 ⟨_, hput, rfl⟩
    refine ⟨sp, ?_, rfl, fun _ => rfl, ?_⟩
    · rw [slot?_put_of_slot hc, if_neg he, hp]
    · rw [Edit.after_bind_of_ok hset]
      simp only [adopt]
      rw [Edit.after_bind_of_ok hgive, put_comm he]
      cases old <;> rfl

/-- The node `p` may be stored with a detached child `c` that it takes over and without a child
`old` of its own. -/
structure Takes (t : Tree) (p : NodeId) (sp : Slot) (c : NodeId) (node : Node)
    (old : Option NodeId) : Prop where
  slot : t.slot? p = some sp
  detached : t.Detached c
  kind : node.isStatement = sp.node.isStatement
  nodup : node.children.Nodup
  linked : LinksBelow t.size node
  mem : ∀ x ∈ node.children, x = c ∨ x ∈ sp.node.children
  given : ∀ o, old = some o → o ≠ c ∧ o ∉ node.children ∧
    ∀ so, t.slot? o = some so → so.parent = some p

/-- What a node lists no longer after it took a child over is still there until it is removed. -/
theorem Coherent.stored {sp sc : Slot} {p : NodeId} {node : Node} {old : Option NodeId}
    (h : t.Coherent) (htakes : t.Takes p sp c node old) (hc : t.slot? c = some sc) :
    ∃ t', (setNode p node >>= fun _ => adopt p c old).after t =
        (old.elim (pure ()) discard).after t' ∧
      t'.Coherent ∧ t.Steady t' ∧ (∀ o, old = some o → t'.Stray o) ∧
      (∀ x s', t'.slot? x = some s' → ∃ s, t.slot? x = some s ∧
        s'.parent = if x = c then some p else s.parent) ∧
      ∀ x s, t.slot? x = some s → ∃ s', t'.slot? x = some s' ∧
        s'.node = if x = p then node else s.node := by
  obtain ⟨sc', hc', hexpr, hnone⟩ := htakes.detached
  obtain rfl : sc = sc' := by simpa [hc] using hc'
  have hp := htakes.slot
  have hkind := htakes.kind
  obtain ⟨sp', hp', hnode, hparent, hafter⟩ := after_store hp hc node old
  have hgive := slot?_put_of_slot hc { sc with parent := some p }
  have h₁ : (t.put c { sc with parent := some p }).Coherent :=
    h.give hc (fun m sm hm => h.not_mem_children hc hnone hm) (by simp [hexpr])
  rw [← hnode] at hkind
  have hput := slot?_put_of_slot hp' { sp' with node }
  refine ⟨_, hafter, ?_, ?_, ?_, fun x s' hx => ?_, fun x s hx => ?_⟩
  · refine h₁.relist hp' hkind htakes.nodup (fun x hx => ?_) ?_
    on_goal 2 =>
      rw [size_put]
      exact htakes.linked
    rcases htakes.mem x hx with rfl | hx
    · exact .inr ⟨_, (hgive x).trans (if_pos rfl), rfl⟩
    · exact .inl (hnode ▸ hx)
  · have hgiven : t.Steady (t.put c { sc with parent := some p }) := steady_put hc rfl rfl
    exact IsTrans.trans _ _ _ hgiven (steady_put hp' hkind rfl)
  · intro o ho so q sq hso hq hsq
    obtain ⟨hne, hout, howned⟩ := htakes.given o ho
    have hq' : so.parent = some p := by
      rcases slot?_put_cases hp' hso with ⟨rfl, rfl⟩ | ⟨-, hso⟩
      · exact (hparent hne).trans (howned sp hp)
      · rw [hgive, if_neg hne] at hso
        exact howned so hso
    obtain rfl : q = p := by simpa [hq] using hq'
    rw [hput, if_pos rfl, Option.some.injEq] at hsq
    rwa [← hsq]
  · rcases slot?_put_cases hp' hx with ⟨rfl, rfl⟩ | ⟨-, hx⟩
    · refine ⟨sp, hp, ?_⟩
      rcases slot?_put_cases hc hp' with ⟨rfl, rfl⟩ | ⟨hxc, -⟩
      · exact (if_pos rfl).symm
      · rw [if_neg hxc]
        exact hparent hxc
    · rcases slot?_put_cases hc hx with ⟨rfl, rfl⟩ | ⟨hxc, hx⟩
      · exact ⟨sc, hc, (if_pos rfl).symm⟩
      · exact ⟨s', hx, by rw [if_neg hxc]⟩
  · obtain ⟨given, hgiven, hcase⟩ := exists_slot?_put hc { sc with parent := some p } hx
    obtain ⟨s', hs', ⟨rfl, -, rfl⟩ | ⟨hxp, rfl⟩⟩ := exists_slot?_put hp' { sp' with node } hgiven
    · exact ⟨_, hs', (if_pos rfl).symm⟩
    · refine ⟨s', hs', ?_⟩
      rw [if_neg hxp]
      rcases hcase with ⟨-, rfl, rfl⟩ | ⟨-, rfl⟩ <;> rfl

/-- The node `p`, which is `node` now, has taken `c` over from nowhere and has given `old` up. -/
structure HandsOver (t t' : Tree) (p c : NodeId) (node : Node) (old : Option NodeId) : Prop where
  coherent : t'.Coherent
  back : ∀ x s', t'.slot? x = some s' → ∃ s, t.slot? x = some s ∧
    s'.parent = if old = some x then none else if x = c then some p else s.parent
  forth : ∀ x s, t.slot? x = some s → ∃ s', t'.slot? x = some s' ∧
    s'.node = if x = p then node else s.node

/-- A node that takes a child over gives up the old one first, which is removed then if it is still
in use. -/
theorem Takes.handsOver {sp : Slot} {p : NodeId} {node : Node} {old : Option NodeId}
    (htakes : t.Takes p sp c node old) (h : t.Coherent) :
    ∃ t', HandsOver t t' p c node old ∧
      ((setNode p node >>= fun _ => adopt p c old).after t = t' ∨
        ∃ o, old = some o ∧
          (setNode p node >>= fun _ => adopt p c old).after t = (cleanup o).after t') := by
  obtain ⟨sc, hc, -⟩ := htakes.detached
  obtain ⟨t₁, hafter, hcoherent, -, hstray, hback, hforth⟩ := h.stored htakes hc
  rw [hafter]
  cases old with
  | none => exact ⟨t₁, ⟨hcoherent, fun x s' hx => by simpa using hback x s' hx, hforth⟩, .inl rfl⟩
  | some o =>
    cases ho : t₁.slot? o with
    | none =>
      refine ⟨t₁, ⟨hcoherent, fun x s' hx => ?_, hforth⟩, .inl (after_discard_none ho)⟩
      have hne : some o ≠ some x := by
        rintro ⟨⟩
        simp [ho] at hx
      obtain ⟨s, hs, he⟩ := hback x s' hx
      exact ⟨s, hs, by rw [if_neg hne, he]⟩
    | some so =>
      refine ⟨_, ⟨hcoherent.leave ho (hstray o rfl), fun x s' hx => ?_, fun x s hx => ?_⟩,
        .inr ⟨o, rfl, after_discard ho⟩⟩
      · rcases slot?_put_cases ho hx with ⟨rfl, rfl⟩ | ⟨hxo, hx⟩
        · obtain ⟨s, hs, -⟩ := hback x so ho
          exact ⟨s, hs, (if_pos rfl).symm⟩
        · obtain ⟨s, hs, he⟩ := hback x s' hx
          exact ⟨s, hs, by rw [if_neg (by simpa using Ne.symm hxo), he]⟩
      · obtain ⟨s', hs', hnode⟩ := hforth x s hx
        obtain ⟨s'', hs'', ⟨-, rfl, rfl⟩ | ⟨-, rfl⟩⟩ :=
          exists_slot?_put ho { so with parent := none } hs'
        · exact ⟨_, hs'', hnode⟩
        · exact ⟨_, hs'', hnode⟩

/-- A node may take a detached child over and give up one of its own. -/
theorem Takes.evolves {sp : Slot} {p : NodeId} {node : Node} {old : Option NodeId}
    (h : t.Coherent → t.Takes p sp c node old) :
    t.Evolves ((setNode p node >>= fun _ => adopt p c old).after t) := by
  intro hc
  obtain ⟨sc, hsc, -⟩ := (h hc).detached
  obtain ⟨t', hafter, hcoherent, hsteady, hstray, -⟩ := hc.stored (h hc) hsc
  rw [hafter]
  cases old with
  | none => exact ⟨hcoherent, hsteady⟩
  | some o =>
    obtain ⟨hdone, hrest⟩ := evolves_discard (fun _ => hstray o rfl) hcoherent
    exact ⟨hdone, IsTrans.trans _ _ _ hsteady hrest⟩

end storing

end MethodFlow.Tree
