import MethodFlow.Proofs.Success.Tree

/-!
Reading the operands of a phi at a handler. Repetitions go, and every definition that an operand
stood for still has one.
-/

namespace MethodFlow.Tree

open Edit

variable {t t' : Tree} {n target : NodeId}

section splitting

variable {seen : List (Option NodeId)} {operands kept dropped : List NodeId}

theorem exists_splitRepeated (h : ∀ q ∈ operands, ∃ d, t.definitionOf q = .ok d)
    (seen : List (Option NodeId)) :
    ∃ kept dropped, t.splitRepeated seen operands = .ok (kept, dropped) := by
  induction operands generalizing seen with
  | nil => exact ⟨[], [], rfl⟩
  | cons q rest ih =>
    obtain ⟨d, hq⟩ := h q (by simp)
    have ih := ih fun q' hq' => h q' (by simp [hq'])
    by_cases hseen : d ∈ seen
    · obtain ⟨kept, dropped, hrest⟩ := ih seen
      exact ⟨kept, q :: dropped, by
        simp [splitRepeated, hq, hseen, hrest, bind, Except.bind, pure, Except.pure]⟩
    · obtain ⟨kept, dropped, hrest⟩ := ih (d :: seen)
      exact ⟨q :: kept, dropped, by
        simp [splitRepeated, hq, hseen, hrest, bind, Except.bind, pure, Except.pure]⟩

/-- The first of the operands is dropped if it stands for a definition that was seen, and kept
otherwise. -/
theorem splitRepeated_cons {q : NodeId}
    (h : t.splitRepeated seen (q :: operands) = .ok (kept, dropped)) :
    ∃ d, t.definitionOf q = .ok d ∧
      ((d ∈ seen ∧ ∃ rest, t.splitRepeated seen operands = .ok (kept, rest) ∧ dropped = q :: rest) ∨
        (d ∉ seen ∧ ∃ rest,
          t.splitRepeated (d :: seen) operands = .ok (rest, dropped) ∧ kept = q :: rest)) := by
  simp only [splitRepeated, Except.bind_eq_ok] at h
  obtain ⟨d, hd, h⟩ := h
  refine ⟨d, hd, ?_⟩
  by_cases hseen : d ∈ seen
  · simp only [if_pos hseen, Except.bind_eq_ok] at h
    obtain ⟨⟨kept', rest⟩, hrun, h⟩ := h
    obtain ⟨rfl, rfl⟩ := Prod.mk.inj (Except.pure_eq_ok.1 h)
    exact .inl ⟨hseen, rest, hrun, rfl⟩
  · simp only [if_neg hseen, Except.bind_eq_ok] at h
    obtain ⟨⟨rest, dropped'⟩, hrun, h⟩ := h
    obtain ⟨rfl, rfl⟩ := Prod.mk.inj (Except.pure_eq_ok.1 h)
    exact .inr ⟨hseen, rest, hrun, rfl⟩

theorem splitRepeated_ok (h : t.splitRepeated seen operands = .ok (kept, dropped)) :
    kept.Sublist operands ∧ (kept ++ dropped).Perm operands ∧
      ∀ q ∈ operands, ∃ d, t.definitionOf q = .ok d ∧
        (d ∈ seen ∨ ∃ q' ∈ kept, t.definitionOf q' = .ok d) := by
  induction operands generalizing seen kept dropped with
  | nil =>
    obtain ⟨rfl, rfl⟩ := Prod.mk.inj (Except.pure_eq_ok.1 h)
    simp
  | cons q rest ih =>
    obtain ⟨d, hd, ⟨hseen, dropped', hrest, rfl⟩ | ⟨-, kept', hrest, rfl⟩⟩ := splitRepeated_cons h
    · obtain ⟨hsub, hperm, hkept⟩ := ih hrest
      refine ⟨hsub.cons q, List.perm_middle.trans (hperm.cons q), fun q' hq' => ?_⟩
      rcases List.mem_cons.1 hq' with rfl | hq'
      · exact ⟨d, hd, .inl hseen⟩
      · exact hkept q' hq'
    · obtain ⟨hsub, hperm, hkept⟩ := ih hrest
      refine ⟨hsub.cons_cons q, hperm.cons q, fun q' hq' => ?_⟩
      rcases List.mem_cons.1 hq' with rfl | hq'
      · exact ⟨d, hd, .inr ⟨q', by simp, hd⟩⟩
      · obtain ⟨d', hd', hin | ⟨q'', hq'', hsame⟩⟩ := hkept q' hq'
        · rcases List.mem_cons.1 hin with rfl | hin
          · exact ⟨d', hd', .inr ⟨q, by simp, hd⟩⟩
          · exact ⟨d', hd', .inl hin⟩
        · exact ⟨d', hd', .inr ⟨q'', by simp [hq''], hsame⟩⟩

/-- What is dropped is what is not kept. -/
theorem mem_dropped_of_splitRepeated (h : t.splitRepeated seen operands = .ok (kept, dropped))
    (nodup : operands.Nodup) {q : NodeId} : q ∈ dropped ↔ q ∈ operands ∧ q ∉ kept := by
  obtain ⟨-, hperm, -⟩ := splitRepeated_ok h
  have hdisjoint := (List.nodup_append.1 (hperm.nodup_iff.2 nodup)).2.2
  rw [← hperm.mem_iff, List.mem_append]
  exact ⟨fun hd => ⟨.inr hd, fun hk => hdisjoint q hk q hd rfl⟩, fun hq => hq.1.resolve_left hq.2⟩

theorem distinct_of_splitRepeated (h : t.splitRepeated seen operands = .ok (kept, dropped)) :
    t.Distinct kept ∧ ∀ q ∈ kept, ∀ d ∈ seen, t.definitionOf q ≠ .ok d := by
  induction operands generalizing seen kept dropped with
  | nil =>
    obtain ⟨rfl, rfl⟩ := Prod.mk.inj (Except.pure_eq_ok.1 h)
    exact ⟨.nil, by simp⟩
  | cons q rest ih =>
    obtain ⟨d, hd, ⟨-, dropped', hrest, rfl⟩ | ⟨hseen, kept', hrest, rfl⟩⟩ := splitRepeated_cons h
    · exact ih hrest
    · obtain ⟨hdistinct, hout⟩ := ih hrest
      refine ⟨List.pairwise_cons.2 ⟨fun q' hq' => ?_, hdistinct⟩, fun q' hq' x hx => ?_⟩
      · rw [hd]
        exact (hout q' hq' d (by simp)).symm
      · rcases List.mem_cons.1 hq' with rfl | hq'
        · rw [hd]
          exact fun he => hseen (Except.ok.inj he ▸ hx)
        · exact hout q' hq' x (by simp [hx])

/-- An operand stays if it stands neither for a definition seen before nor for that of an earlier
operand. -/
theorem mem_kept_of_splitRepeated (h : t.splitRepeated seen operands = .ok (kept, dropped))
    (nodup : operands.Nodup) {before after : List NodeId} {q : NodeId}
    (hsplit : operands = before ++ q :: after) :
    q ∈ kept ↔ (∀ d ∈ seen, t.definitionOf q ≠ .ok d) ∧
      ∀ p ∈ before, t.definitionOf p ≠ t.definitionOf q := by
  induction operands generalizing seen kept dropped before with
  | nil => simp at hsplit
  | cons first rest ih =>
    obtain ⟨hfirst, hrest⟩ := List.nodup_cons.1 nodup
    obtain ⟨d, hd, hcases⟩ := splitRepeated_cons h
    cases before with
    | nil =>
      obtain ⟨rfl, rfl⟩ := List.cons.inj hsplit
      rcases hcases with ⟨hseen, dropped', hrun, rfl⟩ | ⟨hseen, kept', hrun, rfl⟩
      · refine iff_of_false (fun hmem => hfirst ?_) fun hout => hout.1 d hseen hd
        exact (splitRepeated_ok hrun).1.subset hmem
      · refine iff_of_true List.mem_cons_self ⟨fun x hx hq => hseen ?_, by simp⟩
        obtain rfl : d = x := Except.ok.inj (hd.symm.trans hq)
        exact hx
    | cons p before =>
      obtain ⟨rfl, hlater⟩ := List.cons.inj hsplit
      have hne : q ≠ first := by
        rintro rfl
        exact hfirst (by simp [hlater])
      rcases hcases with ⟨hseen, dropped', hrun, rfl⟩ | ⟨hseen, kept', hrun, rfl⟩
      · rw [ih hrun hrest hlater, List.forall_mem_cons, hd]
        exact and_congr_right fun hout => (and_iff_right (hout d hseen).symm).symm
      · rw [List.mem_cons, or_iff_right hne, ih hrun hrest hlater, List.forall_mem_cons,
          List.forall_mem_cons, hd, ne_comm]
        tauto

theorem splitRepeated_of_distinct (hread : ∀ q ∈ operands, ∃ d, t.definitionOf q = .ok d)
    (h : t.Distinct operands) (hseen : ∀ q ∈ operands, ∀ d ∈ seen, t.definitionOf q ≠ .ok d) :
    t.splitRepeated seen operands = .ok (operands, []) := by
  induction operands generalizing seen with
  | nil => rfl
  | cons q rest ih =>
    obtain ⟨d, hq⟩ := hread q (by simp)
    obtain ⟨hout, hrest⟩ := List.pairwise_cons.1 h
    have hnew : d ∉ seen := fun hmem => hseen q (by simp) _ hmem hq
    have hkept : t.splitRepeated (d :: seen) rest = .ok (rest, []) := by
      refine ih (fun q' hq' => hread q' (by simp [hq'])) hrest fun q' hq' d' hd => ?_
      rcases List.mem_cons.1 hd with rfl | hd
      · exact hq ▸ (hout q' hq').symm
      · exact hseen q' (by simp [hq']) d' hd
    simp [splitRepeated, hq, hnew, hkept, bind, Except.bind, pure, Except.pure]

end splitting

/-- Only the nodes in `gone` are removed. -/
def Loses (gone : List NodeId) (t t' : Tree) : Prop :=
  t'.size = t.size ∧ ∀ m, t'.slot? m = if m ∈ gone then none else t.slot? m

theorem Loses.trans {t₁ t₂ : Tree} {gone gone' : List NodeId} (h : t.Loses gone t₁)
    (h' : t₁.Loses gone' t₂) : t.Loses (gone ++ gone') t₂ := by
  refine ⟨h'.1.trans h.1, fun m => ?_⟩
  rw [h'.2, h.2]
  by_cases hm : m ∈ gone' <;> simp [hm]

theorem Loses.slot?_of_nodup {passed rest : List NodeId} (h : t.Loses passed t')
    (nodup : (passed ++ n :: rest).Nodup) : t'.slot? n = t.slot? n := by
  rw [List.nodup_middle, List.nodup_cons] at nodup
  rw [h.2, if_neg fun hmem => nodup.1 (List.mem_append_left _ hmem)]

theorem discard_ok {o : Occurrence} {parent : Option NodeId} {block : Option BlockId} {u : Unit}
    (h : discard n t = .ok u t') (hn : t.slot? n = some ⟨.occurrence o, parent, block⟩) :
    t.Loses [n] t' := by
  simp only [discard, cleanup, Edit.bind_ok, setParent_ok, Edit.ask_ok, slot_ok,
    Edit.modify_ok] at h
  obtain ⟨_, m, ⟨s, hs, rfl⟩, _, _, ⟨-, rfl⟩, rfl⟩ := h
  obtain rfl : s = _ := Option.some.inj (hs.symm.trans hn)
  have hput := slot?_put_of_slot hs ⟨.occurrence o, none, block⟩
  have hself := hput n
  rw [if_pos rfl] at hself
  refine ⟨(prunes_sweep _ _ _).1.trans (size_put _), fun m => ?_⟩
  by_cases hm : m = n
  · subst hm
    obtain ⟨limit, hlimit⟩ := Nat.exists_eq_add_of_lt (Nat.zero_lt_of_lt (index_lt_size hself))
    rw [hlimit, slot?_sweep_self, if_pos (by simp)]
  · rw [slot?_sweep_leaf hself rfl hm, hput, if_neg hm, if_neg (by simpa using hm)]

theorem dropOperands_yields {event : NodeId → Event} {dropped : List NodeId} {s : Recorded Tree}
    (nodup : dropped.Nodup) (hleaf : ∀ q ∈ dropped, ∃ o parent block,
      s.value.slot? q = some ⟨.occurrence o, parent, block⟩) :
    Yields (dropOperands event dropped) s fun _ s' => s.value.Loses dropped s'.value := by
  refine Yields.forM (fun passed (m : Recorded Tree) => s.value.Loses passed m.value) ⟨rfl, by simp⟩
    fun passed q rest m hsplit hpassed => ?_
  obtain ⟨o, parent, block, hslot⟩ := hleaf q (by simp [hsplit])
  have hq := (hpassed.slot?_of_nodup (hsplit ▸ nodup)).trans hslot
  refine (Succeeds.report _ _).bind fun _ m₁ hreport _ => ?_
  obtain rfl := report_ok.1 hreport
  have hdiscard : Succeeds (quietly (discard q)) ⟨m.value, m.events ++ [event q]⟩ :=
    Succeeds.within (discard_succeeds hq)
  refine hdiscard.of_ok fun _ m' hrun _ => ?_
  obtain ⟨tree, htree, rfl⟩ := quietly_ok.1 hrun
  exact hpassed.trans (discard_ok htree hq)

/-- Operands that are occurrences can be read. Those that repeat go, and the phi stores the
others. -/
theorem readCatchOperands_yields {s : Slot} {operands : List NodeId} (hs : t.slot? n = some s)
    (hnode : s.node = .phi ⟨target, .catching operands⟩) (nodup : operands.Nodup)
    (hleaf : ∀ q ∈ operands, ∃ o parent block, t.slot? q = some ⟨.occurrence o, parent, block⟩)
    (events : List Event) :
    Yields (readCatchOperands n) ⟨t, events⟩ fun kept r' =>
      ∃ dropped, t.splitRepeated [] operands = .ok (kept, dropped) ∧ r'.value.size = t.size ∧
        ∀ m, r'.value.slot? m = if m ∈ dropped then none
          else if m = n then some { s with node := .phi ⟨target, .catching kept⟩ }
            else t.slot? m := by
  have hn : t.node? n = some (.phi ⟨target, .catching operands⟩) := node?_eq_some.2 ⟨s, hs, hnode⟩
  have hread : ∀ q ∈ operands, ∃ d, t.definitionOf q = .ok d := fun q hq => by
    obtain ⟨o, parent, block, hslot⟩ := hleaf q hq
    exact ⟨_, definitionOf_ok.2 ⟨o, node?_eq_some.2 ⟨_, hslot, rfl⟩, rfl⟩⟩
  obtain ⟨kept, dropped, hsplit⟩ := exists_splitRepeated hread []
  obtain ⟨hsub, hperm, -⟩ := splitRepeated_ok hsplit
  refine .of_ask (catchOperands_ok.2 ⟨_, hn, rfl⟩) (.of_ask hsplit ?_)
  dsimp only
  split
  · have hput := slot?_put_of_slot hs { s with node := .phi ⟨target, .catching kept⟩ }
    refine .of_ask (phi_ok.2 hn)
      (.of_first (a := ()) (quietly_ok.2 ⟨_, setNode_ok.2 ⟨s, hs, rfl⟩, rfl⟩) ?_)
    refine (dropOperands_yields
      (List.nodup_append.1 (hperm.nodup_iff.2 nodup)).2.1 fun q hq => ?_).bind
      fun _ m _ hloses => .pure ⟨dropped, hsplit, hloses.1.trans (size_put _), fun x => ?_⟩
    · obtain ⟨o, parent, block, hslot⟩ := hleaf q (hperm.subset (List.mem_append_right _ hq))
      have hne : q ≠ n := by
        rintro rfl
        obtain rfl := Option.some.inj (hs.symm.trans hslot)
        simp at hnode
      exact ⟨o, parent, block, by rw [hput, if_neg hne, hslot]⟩
    · rw [hloses.2, hput]
  · next hempty =>
    obtain rfl : dropped = [] := by simpa using hempty
    obtain rfl : kept = operands := hsub.eq_of_length (by simpa using hperm.length_eq)
    refine .pure ⟨[], hsplit, rfl, fun x => ?_⟩
    rw [if_neg List.not_mem_nil, ← hnode]
    split
    · next hx => rw [hx, hs]
    · rfl

/-- A phi at a handler is left with some of its operands, which stand for the same definitions. -/
structure Reads (t t' : Tree) (v : Var) (n : NodeId) (p : Phi) (block : Option BlockId)
    (kept : List NodeId) : Prop where
  size : t'.size = t.size
  subset : kept ⊆ p.operands
  holds : t'.HoldsPhi v n { p with inputs := .catching kept } block
  other : ∀ m, m ≠ n → m ∉ p.operands → t'.slot? m = t.slot? m
  same : ∀ q ∈ kept, t'.slot? q = t.slot? q
  gone : ∀ q ∈ p.operands, q ∉ kept → t'.slot? q = none
  stands : ∀ q ∈ p.operands, ∃ d, t.definitionOf q = .ok d ∧ ∃ q' ∈ kept, t.definitionOf q' = .ok d

/-- What does not belong to the phi is left alone. -/
theorem Reads.slot?_eq {v : Var} {p : Phi} {block : Option BlockId} {kept : List NodeId}
    (h : t.Reads t' v n p block kept) (m : NodeId) (hm : m ≠ n)
    (hout : m ∉ p.target :: p.operands) :
    t'.slot? m = t.slot? m :=
  h.other m hm fun hin => hout (List.mem_cons_of_mem _ hin)

theorem Reads.exists_operand {v : Var} {p : Phi} {block : Option BlockId} {kept : List NodeId}
    (h : t.Reads t' v n p block kept) {q : NodeId} (hq : q ∈ p.operands) {x : Option NodeId}
    (hx : t.definitionOf q = .ok x) : ∃ q' ∈ kept, t'.definitionOf q' = .ok x := by
  obtain ⟨y, hy, q', hq', hsame⟩ := h.stands q hq
  obtain rfl : x = y := Except.ok.inj (hx.symm.trans hy)
  refine ⟨q', hq', ?_⟩
  rw [definitionOf_ok, node?, h.same q' hq']
  exact definitionOf_ok.1 hsame

theorem HoldsPhi.readCatchOperands_yields {v : Var} {p : Phi} {block : Option BlockId}
    {r : Recorded Tree}
    (hp : r.value.HoldsPhi v n p block) (hinputs : p.inputs = .catching p.operands) :
    Yields (readCatchOperands n) r fun kept r' =>
      r.value.Reads r'.value v n p block kept ∧ r'.value.Distinct kept := by
  have hleaf : ∀ q ∈ p.operands, ∃ o parent block,
      r.value.slot? q = some ⟨.occurrence o, parent, block⟩ := by
    intro q hq
    obtain ⟨o, hslot, -⟩ := hp.operand q hq
    exact ⟨o, some n, none, hslot⟩
  have hnode : Node.phi p = .phi ⟨p.target, .catching p.operands⟩ := by rw [← hinputs]
  refine (Tree.readCatchOperands_yields hp.slot hnode hp.nodup hleaf r.events).mono ?_
  rintro kept r' ⟨dropped, hsplit, hsize, hslots⟩
  obtain ⟨hsub, -, hstands⟩ := splitRepeated_ok hsplit
  have hdropped (q : NodeId) : q ∈ dropped ↔ q ∈ p.operands ∧ q ∉ kept :=
    mem_dropped_of_splitRepeated hsplit hp.nodup
  have hother {q : NodeId} (hqn : q ≠ n) (hq : q ∉ dropped) : r'.value.slot? q =
      r.value.slot? q := by
    rw [hslots, if_neg hq, if_neg hqn]
  have hkept {q : NodeId} (hq : q ∈ kept) : r'.value.slot? q = r.value.slot? q :=
    hother (hp.ne_self (List.mem_cons_of_mem _ (hsub.subset hq))) fun hd =>
      ((hdropped q).1 hd).2 hq
  have hdistinct : r'.value.Distinct kept :=
    (distinct_of_splitRepeated hsplit).1.congr fun q hq => definitionOf_congr (hkept hq)
  refine ⟨⟨hsize, hsub.subset, ⟨?_, ?_, ?_, hp.nodup.sublist hsub⟩, ?_, fun _ => hkept, ?_, ?_⟩,
    hdistinct⟩
  · have hout : n ∉ dropped :=
      fun hd => hp.ne_self (List.mem_cons_of_mem _ ((hdropped n).1 hd).1) rfl
    rw [hslots, if_neg hout, if_pos rfl]
  · obtain ⟨o, ho, hv, hd⟩ := hp.target
    refine ⟨o, ?_, hv, hd⟩
    rw [hother (hp.ne_self List.mem_cons_self), ho]
    intro htarget
    obtain ⟨o', ho', -, hd'⟩ := hp.operand p.target ((hdropped p.target).1 htarget).1
    rw [ho, Option.some.injEq, Slot.mk.injEq, Node.occurrence.injEq] at ho'
    simp [← ho'.1, hd] at hd'
  · intro q hq
    obtain ⟨o, ho, hv, hd⟩ := hp.operand q (hsub.subset hq)
    exact ⟨o, (hkept hq).trans ho, hv, hd⟩
  · exact fun q hqn hq => hother hqn fun hd => hq ((hdropped q).1 hd).1
  · intro q hq hout
    rw [hslots, if_pos ((hdropped q).2 ⟨hq, hout⟩)]
  · simpa using hstands

theorem inputs_of_readCatchOperands {v : Var} {p : Phi} {block : Option BlockId}
    {kept : List NodeId}
    {s s' : Recorded Tree} (h : readCatchOperands n s = .ok kept s')
    (hp : s.value.HoldsPhi v n p block) :
    p.inputs = .catching p.operands := by
  obtain ⟨operands, _, hread, -⟩ := bind_ok.1 h
  obtain ⟨p', hp', hinputs⟩ := catchOperands_ok.1 (ask_ok.1 hread).1
  obtain rfl : p = p' := by simpa [hp.node?] using hp'
  rw [hinputs, Phi.operands, hinputs]

theorem readCatchOperands_ok {v : Var} {p : Phi} {block : Option BlockId} {kept : List NodeId}
    {s s' : Recorded Tree} (h : readCatchOperands n s = .ok kept s')
    (hp : s.value.HoldsPhi v n p block) : s.value.Reads s'.value v n p block kept :=
  ((yields_of_ok h).1 (hp.readCatchOperands_yields (inputs_of_readCatchOperands h hp))).1

/-- Operands that are left after a reading stand for different definitions. -/
theorem distinct_of_readCatchOperands {v : Var} {p : Phi} {block : Option BlockId}
    {kept : List NodeId} {s s' : Recorded Tree} (h : readCatchOperands n s = .ok kept s')
    (hp : s.value.HoldsPhi v n p block) : s'.value.Distinct kept :=
  ((yields_of_ok h).1 (hp.readCatchOperands_yields (inputs_of_readCatchOperands h hp))).2

end MethodFlow.Tree
