import MethodFlow.Proofs.Tree.Steps
import MethodFlow.Proofs.Tree.Repeats

/-!
Operations that change what a node lists: a phi drops the operands that it no longer stores, and a
child is replaced by another node.
-/

namespace MethodFlow

theorem Node.isStatement_withChildren (node : Node) (new : List NodeId) :
    (node.withChildren new).isStatement = node.isStatement := by
  unfold Node.withChildren
  split
  · rfl
  · split <;> rfl

theorem Node.linksBelow_withChildren {size : Nat} {node : Node} {new : List NodeId}
    (h : Tree.LinksBelow size node) : Tree.LinksBelow size (node.withChildren new) := by
  unfold Node.withChildren
  split
  · exact h
  · split <;> first | exact h | simp [Tree.LinksBelow]

theorem Node.children_withChildren {node : Node} {new : List NodeId}
    (h : new.length = node.children.length) : (node.withChildren new).children = new := by
  unfold Node.withChildren
  rw [if_neg (not_not.2 h)]
  cases node with
  | binary op left right type =>
    obtain ⟨a, b, rfl⟩ := List.length_eq_two.1 h
    rfl
  | eval value | returnValue value =>
    obtain ⟨a, rfl⟩ := List.length_eq_one_iff.1 h
    rfl
  | store target value =>
    obtain ⟨a, b, rfl⟩ := List.length_eq_two.1 h
    rfl
  | shuffle kind targets sources => exact List.take_append_drop _ _
  | phi p =>
    obtain ⟨target, rest, rfl⟩ := List.exists_cons_of_length_eq_add_one h
    have hlength : rest.length = p.operands.length := by
      simpa [Node.children, Node.writes, Node.reads] using h
    obtain ⟨t, inputs⟩ := p
    cases inputs with
    | joining block operands | returning s operands =>
      have hkeys : rest.length ≤ (operands.map Prod.fst).length := by
        simp [hlength, Phi.operands]
      simpa [Node.children, Node.writes, Node.reads, Node.phiWith, Phi.operands, Node.rekey]
        using List.map_snd_zip hkeys
    | catching operands => rfl
  | _ =>
    obtain rfl := List.length_eq_zero_iff.1 h
    rfl

namespace Tree

variable {t t' : Tree} {n c m : NodeId} {s s' : Slot}

section dropping

open Edit

theorem after_dropOperand (event : Event) (q : NodeId) (r : Recorded Tree) :
    ((report event >>= fun _ => (liftM (discard q) : Edit (Recorded Tree) Unit)).after r).value =
      (discard q).after r.value := by
  have hreport : report event r = .ok () ⟨r.value, r.events ++ [event]⟩ := report_ok.2 rfl
  rw [after_bind_of_ok hreport]
  exact congrArg Recorded.value (after_within _ _ _ _)

theorem evolves_dropOperands (event : NodeId → Event) {dropped : List NodeId} {r : Recorded Tree}
    (hstray : ∀ q ∈ dropped, r.value.Stray q) :
    r.value.Evolves ((dropOperands event dropped).after r).value := by
  induction dropped generalizing r with
  | nil => exact Std.Refl.refl r.value
  | cons q rest ih =>
    have hfirst : r.value.Evolves ((discard q).after r.value) :=
      evolves_discard fun _ => hstray q (by simp)
    have hafter := after_dropOperand (event q) q r
    rw [dropOperands, List.forM]
    rcases after_bind_cases (x := report (event q) >>= fun _ => liftM (discard q))
      (f := fun _ => dropOperands event rest) r with hstop | ⟨_, -, hrest⟩
    · exact (congrArg Recorded.value hstop).trans hafter ▸ hfirst
    · refine IsTrans.trans _ _ _ hfirst ?_
      have hlater := @ih ((report (event q) >>= fun _ => liftM (discard q)).after r)
        fun q' hq' => by
        rw [hafter]
        exact (hstray q' (by simp [hq'])).of_thins (thins_discard r.value q)
      rw [hafter, ← hrest] at hlater
      exact hlater

theorem Coherent.release (h : t.Coherent) {p : Phi} {inputs : PhiInputs} {dropped : List NodeId}
    (hs : t.slot? n = some s) (hnode : s.node = .phi p)
    (hperm : ((Phi.mk p.target inputs).operands ++ dropped).Perm p.operands) :
    (t.put n { s with node := .phi { p with inputs } }).Coherent ∧ dropped.Nodup ∧
      ∀ q ∈ dropped, q ∈ s.node.children ∧
        (t.put n { s with node := .phi { p with inputs } }).Stray q := by
  have hlist : s.node.children = p.target :: p.operands := by rw [hnode]; rfl
  have hall : (p.target :: ((Phi.mk p.target inputs).operands ++ dropped)).Perm s.node.children :=
    hlist ▸ hperm.cons p.target
  have hnodup := hall.nodup_iff.2 (h.nodup n s hs)
  rw [← List.cons_append, List.nodup_append] at hnodup
  have hkind : (Node.phi { p with inputs }).isStatement = s.node.isStatement := by rw [hnode]; rfl
  refine ⟨h.relist hs hkind hnodup.1 (fun c hc => .inl (hall.subset (List.mem_append_left _ hc)))
    (by simp [LinksBelow]), hnodup.2.1, fun q hq => ?_⟩
  have hin : q ∈ s.node.children := hall.subset (by simp [hq])
  refine ⟨hin, fun sq m sm hsq hm hsm hmem => ?_⟩
  have hparent : sq.parent = some n := by
    rcases slot?_put_cases hs hsq with ⟨rfl, rfl⟩ | ⟨-, hsq⟩
    · exact h.owned q s hs q hin s hs
    · exact h.owned n s hs q hin sq hsq
  obtain rfl : m = n := by simpa [hm] using hparent
  rw [slot?_put_of_slot hs, if_pos rfl, Option.some.injEq] at hsm
  subst hsm
  exact hnodup.2.2 q hmem q hq rfl

theorem after_dropping {p : Phi} {inputs : PhiInputs} {event : NodeId → Event}
    {kept dropped : List NodeId} {r : Recorded Tree} (hs : r.value.slot? n = some s) :
    (do
      setInputs n p inputs
      dropOperands event dropped
      return kept : Edit (Recorded Tree) (List NodeId)).after r =
    (dropOperands event dropped).after
      ⟨r.value.put n { s with node := .phi { p with inputs } }, r.events⟩ := by
  have hset : (liftM (setInputs n p inputs) : Edit (Recorded Tree) Unit) r =
      .ok () ⟨r.value.put n { s with node := .phi { p with inputs } }, r.events⟩ :=
    quietly_ok.2 ⟨_, setNode_ok.2 ⟨s, hs, rfl⟩, rfl⟩
  rw [after_bind_of_ok hset, after_bind_pure]

/-- Nothing has been done, or a phi has stopped listing some of its operands, which were removed. -/
inductive Drops (r : Recorded Tree) : Recorded Tree → Prop
  | nothing : Drops r r
  | dropping {n : NodeId} {p : Phi} {inputs : PhiInputs} {event : NodeId → Event}
      {kept dropped : List NodeId} : r.value.node? n = some (.phi p) →
      ((Phi.mk p.target inputs).operands ++ dropped).Perm p.operands →
      Drops r ((do
        setInputs n p inputs
        dropOperands event dropped
        return kept : Edit (Recorded Tree) (List NodeId)).after r)

/-- Operands at a join are kept or dropped by their keys. -/
theorem perm_operands_of_keys (preds : List BlockId) (operands : List (BlockId × NodeId)) :
    ((operands.filter fun q => q.1 ∈ preds).map Prod.snd ++
      (operands.filter fun q => q.1 ∉ preds).map Prod.snd).Perm (operands.map Prod.snd) := by
  have hsplit : (operands.filter (fun q => q.1 ∈ preds) ++
      operands.filter (fun q => q.1 ∉ preds)).Perm operands := by
    simpa using List.filter_append_perm (fun q : BlockId × NodeId => decide (q.1 ∈ preds)) operands
  simpa using hsplit.map Prod.snd

theorem drops_retainJoinOperands (n : NodeId) (preds : List BlockId) (r : Recorded Tree) :
    Drops r ((retainJoinOperands n preds).after r) := by
  refine after_ask_bind .nothing fun node hnode => ?_
  cases node with
  | phi p =>
    obtain ⟨target, inputs⟩ := p
    cases inputs with
    | joining block operands =>
      exact .dropping (node_ok.1 hnode) (perm_operands_of_keys preds operands)
    | _ => exact .nothing
  | _ => exact .nothing

theorem drops_readCatchOperands (n : NodeId) (r : Recorded Tree) :
    Drops r ((readCatchOperands n).after r) := by
  refine after_ask_bind .nothing fun operands hoperands =>
    after_ask_bind .nothing fun parts hsplit => ?_
  obtain ⟨kept, dropped⟩ := parts
  by_cases hempty : dropped.isEmpty
  · simp only [hempty, Bool.not_true, Bool.false_eq_true, if_false]
    exact .nothing
  · simp only [hempty, Bool.not_false, if_true]
    refine after_ask_bind .nothing fun p hp => ?_
    obtain ⟨p', hp', hinputs⟩ := catchOperands_ok.1 hoperands
    obtain rfl : p = p' := by simpa [phi_ok.1 hp] using hp'
    refine .dropping hp' ?_
    simpa [Phi.operands, hinputs] using (splitRepeated_ok hsplit).2.1

/-- A phi may drop operands, which are removed. -/
theorem Drops.evolves {r r' : Recorded Tree} (h : Drops r r') : Recorded.Along Evolves r r' := by
  cases h with
  | nothing => exact Std.Refl.refl (r := Evolves) r.value
  | @dropping n p inputs event kept dropped hn hperm =>
    intro hc
    obtain ⟨s, hs, hnode⟩ := node?_eq_some.1 hn
    obtain ⟨hput, -, hgone⟩ := hc.release hs hnode hperm
    rw [after_dropping hs]
    obtain ⟨hdone, hsteady⟩ := evolves_dropOperands event
      (r := ⟨r.value.put n { s with node := .phi { p with inputs } }, r.events⟩)
      (fun q hq => (hgone q hq).2) hput
    have hstored : r.value.Steady (r.value.put n { s with node := .phi { p with inputs } }) :=
      steady_put hs (by rw [hnode]; rfl) rfl
    exact ⟨hdone, IsTrans.trans _ _ _ hstored hsteady⟩

theorem moves_retainJoinOperands (n : NodeId) (preds : List BlockId) :
    Moves (Recorded.Along Evolves) (retainJoinOperands n preds) := fun r =>
  (drops_retainJoinOperands n preds r).evolves

theorem moves_readCatchOperands (n : NodeId) :
    Moves (Recorded.Along Evolves) (readCatchOperands n) := fun r =>
  (drops_readCatchOperands n r).evolves

end dropping

section replacing

open Edit

theorem children_replaceChild (node : Node) (old new : NodeId) :
    (node.replaceChild old new).children =
      node.children.map fun c => if c = old then new else c :=
  Node.children_withChildren (List.length_map _)

/-- The node at `n` may have become a definition, and nothing else has changed. -/
structure Marks (n : NodeId) (t t' : Tree) : Prop where
  builds : ∀ removes, t.Builds removes t'
  other : ∀ m, m ≠ n → t'.slot? m = t.slot? m
  parent : (t'.slot? n).map Slot.parent = (t.slot? n).map Slot.parent
  detached : t.Detached n → t'.Detached n

theorem Marks.refl (n : NodeId) (t : Tree) : Marks n t t :=
  ⟨fun _ => Std.Refl.refl t, fun _ _ => rfl, rfl, id⟩

theorem marks_modifyOccurrence (n : NodeId) (t : Tree) :
    Marks n t ((modifyOccurrence n fun o => { o with defines := true }).after t) := by
  rcases after_modifyOccurrence n (fun o => { o with defines := true }) t with
    hsame | ⟨s, o, hs, ho, hafter⟩
  · rw [hsame]
    exact .refl n t
  · rw [hafter]
    have hput := slot?_put_of_slot hs { s with node := .occurrence { o with defines := true } }
    refine ⟨fun _ => Step.builds (.rewrite hs ho fun d hd => .inl hd),
      fun m hm => by rw [hput, if_neg hm], by rw [hput, if_pos rfl, hs]; rfl, ?_⟩
    rintro ⟨s', hs', -, hnone⟩
    obtain rfl : s = s' := by simpa [hs] using hs'
    exact ⟨_, (hput n).trans (if_pos rfl), rfl, hnone⟩

theorem after_exchangeChild (p old new : NodeId) (t : Tree) :
    (exchangeChild p old new).after t = t ∨ ∃ sp, t.slot? p = some sp ∧
      (exchangeChild p old new).after t =
        (setNode p (sp.node.replaceChild old new) >>= fun _ => adopt p new (some old)).after t := by
  cases hparent : t.slot? p with
  | none =>
    have hfail : modifySlot p (fun s => { s with node := s.node.replaceChild old new }) t =
        .error (.invalidNode p) t := by
      simp [modifySlot, bind, EStateM.bind, Edit.ask, slot, hparent]
    exact .inl (by rw [exchangeChild, after_bind, hfail])
  | some sp =>
    have hstored : modifySlot p (fun s => { s with node := s.node.replaceChild old new }) t =
        .ok () (t.put p { sp with node := sp.node.replaceChild old new }) :=
      modifySlot_ok.2 ⟨sp, hparent, rfl⟩
    have hset : setNode p (sp.node.replaceChild old new) t =
        .ok () (t.put p { sp with node := sp.node.replaceChild old new }) :=
      setNode_ok.2 ⟨sp, hparent, rfl⟩
    refine .inr ⟨sp, rfl, ?_⟩
    rw [after_bind_of_ok hset]
    exact after_bind_of_ok hstored

theorem Prepares.marks {old new : NodeId} (h : Prepares old new t t') : Marks new t t' := by
  unfold Prepares at h
  split at h
  · have hmarks := marks_modifyOccurrence new t
    rwa [after_of_ok h] at hmarks
  · exact h ▸ .refl new t

/-- A replacement stores the new node in the parent, which takes it over and gives the old one up.
It stops before that if a handle is dead or the new node does not fit. -/
theorem replace_cases (old new : NodeId) (t : Tree) :
    Marks new t ((replace old new).after t) ∨
      ∃ t₁ s p sp, Marks new t t₁ ∧ t₁.slot? old = some s ∧ s.parent = some p ∧
        t₁.slot? p = some sp ∧ t₁.Detached new ∧ (replace old new).after t =
          (setNode p (sp.node.replaceChild old new) >>= fun _ => adopt p new (some old)).after
            t₁ := by
  have hreplaces := replaces_replace old new t
  generalize (replace old new).after t = t' at hreplaces
  cases hreplaces with
  | nothing => exact .inl (.refl new t)
  | @exchanged p t₁ hparent hnew hprepares =>
    obtain ⟨s, hs, hp⟩ := parent_ok.1 hparent
    have hdetached : t.Detached new := checkDetached_ok.1 hnew
    have hne : old ≠ new := hdetached.ne_of_parent hs hp
    have hmarks := hprepares.marks
    rcases after_exchangeChild p old new t₁ with hstop | ⟨sp, hsp, hrun⟩
    · exact .inl (by rwa [hstop])
    · exact .inr ⟨t₁, s, p, sp, hmarks, (hmarks.other old hne).trans hs, hp, hsp,
        hmarks.detached hdetached, hrun⟩

/-- What a node lists after a replacement. -/
structure Substitutes (old new : NodeId) (before after : List NodeId) : Prop where
  nodup : after.Nodup
  mem : ∀ x ∈ after, x = new ∨ x ∈ before
  gone : old ∉ after
  kept : ∀ x ∈ before, x ≠ old → x ∈ after
  entered : old ∈ before → new ∈ after

theorem substitutes_replaceChild {node : Node} {old new : NodeId} (hnodup : node.children.Nodup)
    (hout : new ∉ node.children) (hne : old ≠ new) :
    Substitutes old new node.children (node.replaceChild old new).children := by
  rw [children_replaceChild]
  refine ⟨hnodup.map_on fun a ha b hb hab => ?_, fun x hx => ?_, fun hx => ?_, fun x hx hxo => ?_,
    fun hx => ?_⟩
  · by_cases ha' : a = old
    · by_cases hb' : b = old
      · rw [ha', hb']
      · rw [if_pos ha', if_neg hb'] at hab
        exact absurd (hab ▸ hb) hout
    · by_cases hb' : b = old
      · rw [if_neg ha', if_pos hb'] at hab
        exact absurd (hab ▸ ha) hout
      · rwa [if_neg ha', if_neg hb'] at hab
  · obtain ⟨c, hc, rfl⟩ := List.mem_map.1 hx
    by_cases he : c = old
    · exact .inl (if_pos he)
    · exact .inr (by rwa [if_neg he])
  · obtain ⟨c, -, he⟩ := List.mem_map.1 hx
    by_cases hc : c = old
    · rw [if_pos hc] at he
      exact hne he.symm
    · rw [if_neg hc] at he
      exact hc he
  · exact List.mem_map.2 ⟨x, hx, if_neg hxo⟩
  · exact List.mem_map.2 ⟨old, hx, if_pos rfl⟩

/-- The parent of a node takes the one over that is put in its place. -/
theorem takes_of_replace (h : t.Coherent) {old new p : NodeId} {sp : Slot}
    (hs : t.slot? old = some s)
    (hp : s.parent = some p) (hsp : t.slot? p = some sp) (hdetached : t.Detached new) :
    t.Takes p sp new (sp.node.replaceChild old new) (some old) ∧
      Substitutes old new sp.node.children (sp.node.replaceChild old new).children := by
  obtain ⟨sn, hn, -, hnone⟩ := id hdetached
  have hne : old ≠ new := hdetached.ne_of_parent hs hp
  have hchildren := substitutes_replaceChild (h.nodup p sp hsp)
    (h.not_mem_children hn hnone hsp) hne
  refine ⟨⟨hsp, hdetached, Node.isStatement_withChildren _ _, hchildren.nodup,
    Node.linksBelow_withChildren (h.linked p sp hsp), hchildren.mem, ?_⟩, hchildren⟩
  rintro _ ⟨⟩
  refine ⟨hne, hchildren.gone, fun so hso => ?_⟩
  obtain rfl : s = so := by simpa [hs] using hso
  exact hp

theorem moves_replace (old new : NodeId) : Moves Evolves (replace old new) := by
  intro t
  rcases replace_cases old new t with hmarks | ⟨t₁, s, p, sp, hmarks, hs, hp, hsp, hdetached, hrun⟩
  · exact (hmarks.builds False).evolves
  · rw [hrun]
    exact IsTrans.trans _ _ _ (hmarks.builds False).evolves
      (Takes.evolves fun h => (takes_of_replace h hs hp hsp hdetached).1)

end replacing

end Tree

end MethodFlow
