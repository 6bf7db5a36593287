import MethodFlow.Proofs.Tree.Pairing
import MethodFlow.Proofs.Tree.Rewiring

/-!
Reading the operands of a phi at a handler after operands were added, exchanged and linked in any
order. Links may make operands repeat; reading leaves the first one for each definition.
-/

namespace MethodFlow

open Edit

/-- A request that adds or exchanges an operand of the phi `n`, or links an occurrence. -/
def TreeRequest.Supplies (n : NodeId) : TreeRequest → Prop
  | addCatchOperand m _ => m = n
  | setCatchOperand m _ _ => m = n
  | setLink _ _ => True
  | _ => False

namespace Tree

variable {t t' : Tree} {n q : NodeId} {operands operands' kept : List NodeId}

/-- After a link was set, nodes are the same but for an occurrence that has the link, if that. -/
theorem node?_setLink (n : NodeId) (d : Option NodeId) (t : Tree) :
    (setLink n d).after t = t ∨
      ∃ o, t.node? n = some (.occurrence o) ∧ ∀ m, ((setLink n d).after t).node? m =
        if m = n then some (.occurrence { o with link := d }) else t.node? m := by
  rcases after_setLink n d t with hsame | ⟨-, -, hafter⟩
  · exact .inl hsame
  · rw [hafter]
    exact node?_modifyOccurrence n _ t

theorem Exchanges.old_mem {new o : NodeId} (h : Exchanges new (some o) operands operands') :
    o ∈ operands := by
  rcases h with ⟨hnone, -⟩ | ⟨o', before, after, hsome, hbefore, -⟩
  · simp at hnone
  · simp [hbefore, Option.some.inj hsome]

/-- What was in use before a child was taken over is in use until the old child is removed. -/
theorem Takes.exists_stored {p c : NodeId} {sp : Slot} {node : Node} {old : Option NodeId}
    (htakes : t.Takes p sp c node old) (h : t.Coherent) :
    ∃ t', (setNode p node >>= fun _ => adopt p c old).after t =
      (old.elim (pure ()) discard).after t' ∧ t'.Coherent ∧ (∀ o, old = some o → t'.Stray o) ∧
      ∀ m found, t.node? m = some found → t'.node? m = some (if m = p then node else found) := by
  obtain ⟨sc, hsc, -⟩ := htakes.detached
  obtain ⟨t', hafter, hcoherent, -, hstray, -, hforth⟩ := h.stored htakes hsc
  refine ⟨t', hafter, hcoherent, hstray, fun m found hm => ?_⟩
  obtain ⟨sm, hsm, rfl⟩ := node?_eq_some.1 hm
  obtain ⟨sm', hsm', hnode⟩ := hforth m sm hsm
  exact node?_eq_some.2 ⟨sm', hsm', hnode⟩

/-- The phi at a handler stores operands that are variables. -/
structure Gathers (t : Tree) (n : NodeId) (operands : List NodeId) : Prop where
  coherent : t.Coherent
  phi : ∃ target, t.node? n = some (.phi ⟨target, .catching operands⟩)
  vars : ∀ q ∈ operands, ∃ v, t.varOf q = .ok v

namespace Gathers

theorem catchOperands (h : t.Gathers n operands) : t.catchOperands n = .ok operands := by
  obtain ⟨target, hn⟩ := h.phi
  exact catchOperands_ok.2 ⟨_, hn, rfl⟩

theorem exists_slot (h : t.Gathers n operands) (hq : q ∈ operands) :
    ∃ o parent block, t.slot? q = some ⟨.occurrence o, parent, block⟩ := by
  obtain ⟨v, hv⟩ := h.vars q hq
  obtain ⟨o, ho, -⟩ := varOf_ok.1 hv
  obtain ⟨⟨_, parent, block⟩, hs, rfl⟩ := node?_eq_some.1 ho
  exact ⟨o, parent, block, hs⟩

theorem exists_definitionOf (h : t.Gathers n operands) (hq : q ∈ operands) :
    ∃ d, t.definitionOf q = .ok d := by
  obtain ⟨o, parent, block, hs⟩ := h.exists_slot hq
  exact ⟨_, definitionOf_ok.2 ⟨o, node?_eq_some.2 ⟨_, hs, rfl⟩, rfl⟩⟩

theorem not_mem (h : t.Gathers n operands) : n ∉ operands := by
  intro hmem
  obtain ⟨target, hn⟩ := h.phi
  obtain ⟨o, parent, block, hs⟩ := h.exists_slot hmem
  simp [Tree.node?, hs] at hn

theorem nodup (h : t.Gathers n operands) : operands.Nodup := by
  obtain ⟨target, hn⟩ := h.phi
  obtain ⟨s, hs, hnode⟩ := node?_eq_some.1 hn
  have hnodup := h.coherent.nodup n s hs
  rw [hnode] at hnodup
  exact (List.nodup_cons.1 hnodup).2

theorem setLink (h : t.Gathers n operands) (m : NodeId) (d : Option NodeId) :
    ((Tree.setLink m d).after t).Gathers n operands := by
  rcases node?_setLink m d t with hsame | ⟨o, ho, hnodes⟩
  · rwa [hsame]
  have hevolves : t.Evolves ((Tree.setLink m d).after t) := (TreeRequest.setLink m d).moves_run t
  obtain ⟨target, hn⟩ := h.phi
  refine ⟨(hevolves h.coherent).1, ⟨target, ?_⟩, fun q hq => ?_⟩
  · have hne : n ≠ m := by
      rintro rfl
      simp [ho] at hn
    rw [hnodes, if_neg hne, hn]
  · obtain ⟨v, hv⟩ := h.vars q hq
    obtain ⟨oq, hoq, rfl⟩ := varOf_ok.1 hv
    by_cases hqm : q = m
    · exact ⟨o.var, varOf_ok.2 ⟨_, (hnodes q).trans (if_pos hqm), rfl⟩⟩
    · exact ⟨oq.var, varOf_ok.2 ⟨oq, ((hnodes q).trans (if_neg hqm)).trans hoq, rfl⟩⟩

theorem discard (h : t.Gathers n operands) {v : Var} (hv : t.varOf q = .ok v)
    (hq : q ∉ n :: operands)
    (hstray : t.Stray q) : ((Tree.discard q).after t).Gathers n operands := by
  obtain ⟨o, ho, -⟩ := varOf_ok.1 hv
  obtain ⟨⟨_, parent, block⟩, hs, rfl⟩ := node?_eq_some.1 ho
  obtain ⟨_, t', hrun, -⟩ := discard_succeeds hs
  have hloses := discard_ok hrun hs
  have hevolves := evolves_discard (fun _ => hstray) h.coherent
  rw [after_of_ok hrun] at hevolves ⊢
  have hsame (m : NodeId) (hm : m ∈ n :: operands) : t'.node? m = t.node? m := by
    have hne : m ∉ [q] := fun hmem => hq (List.mem_singleton.1 hmem ▸ hm)
    rw [Tree.node?, hloses.2, if_neg hne, Tree.node?]
  obtain ⟨target, hn⟩ := h.phi
  refine ⟨hevolves.1, ⟨target, (hsame n List.mem_cons_self).trans hn⟩, fun q hq => ?_⟩
  obtain ⟨w, hw⟩ := h.vars q hq
  exact ⟨w, by rw [varOf_ok, hsame q (List.mem_cons_of_mem n hq)]; exact varOf_ok.1 hw⟩

/-- The phi takes an operand over that it accepts, and gives another one up at most. -/
theorem store (h : t.Gathers n operands) {p : Phi} {operand : NodeId} {old : Option NodeId}
    (hcheck : t.checkOperand n operand = .ok ⟨⟩) (hp : t.phi n = .ok p)
    (hexchange : Exchanges operand old operands operands') :
    ((setInputs n p (.catching operands') >>= fun _ => adopt n operand old).after t).Gathers n
      operands' := by
  obtain ⟨target, hn⟩ := h.phi
  obtain rfl : ⟨target, .catching operands⟩ = p := by simpa [hn] using hp
  obtain ⟨s, hs, hnode⟩ := node?_eq_some.1 hn
  obtain ⟨hdetached, -, v, -, -, hv, -⟩ := checkOperand_ok hcheck
  have htakes : t.Takes n s operand (.phi ⟨target, .catching operands'⟩) old :=
    takes_of_exchange h.coherent hs hnode hdetached hexchange
  obtain ⟨t₁, hafter, hcoherent, hstray, hnodes⟩ := htakes.exists_stored h.coherent
  have hvar (m : NodeId) (w : Var) (hm : t.varOf m = .ok w) : t₁.varOf m = .ok w := by
    obtain ⟨o, ho, hw⟩ := varOf_ok.1 hm
    have hne : m ≠ n := by
      rintro rfl
      simp [hn] at ho
    exact varOf_ok.2 ⟨o, (hnodes m _ ho).trans (by rw [if_neg hne]), hw⟩
  have hstored : t₁.Gathers n operands' := by
    refine ⟨hcoherent, ⟨target, (hnodes n _ hn).trans (by rw [if_pos rfl])⟩, fun q hq => ?_⟩
    rcases hexchange.mem hq with rfl | hq
    · exact ⟨v, hvar q v hv⟩
    · obtain ⟨w, hw⟩ := h.vars q hq
      exact ⟨w, hvar q w hw⟩
  rw [setInputs, hafter]
  cases old with
  | none => exact hstored
  | some o =>
    have hout : o ∉ operands' := fun hmem => (htakes.given o rfl).2.1 (List.mem_cons_of_mem _ hmem)
    have ho : o ∈ operands := hexchange.old_mem
    obtain ⟨w, hw⟩ := h.vars o ho
    refine hstored.discard (hvar o w hw) (fun hmem => ?_) (hstray o rfl)
    rcases List.mem_cons.1 hmem with rfl | hmem
    · exact h.not_mem ho
    · exact hout hmem

theorem addCatchOperand (h : t.Gathers n operands) (operand : NodeId) :
    ∃ operands', ((Tree.addCatchOperand n operand).after t).Gathers n operands' := by
  let P (t' : Tree) : Prop := ∃ operands', t'.Gathers n operands'
  have hsame : P t := ⟨operands, h⟩
  refine after_ask_bind (P := P) hsame fun _ hcheck => after_ask_bind (P := P) hsame fun _ _ =>
    after_ask_bind (P := P) hsame fun has _ => ?_
  cases has with
  | true => exact hsame
  | false =>
    refine after_ask_bind (P := P) hsame fun p hp => ?_
    obtain ⟨target, hn⟩ := h.phi
    obtain rfl : ⟨target, .catching operands⟩ = p := by simpa [hn] using hp
    exact ⟨operands ++ [operand], h.store hcheck hp (.inl ⟨rfl, rfl⟩)⟩

theorem setCatchOperand (h : t.Gathers n operands) (index : Nat) (operand : NodeId) :
    ∃ operands', ((Tree.setCatchOperand n index operand).after t).Gathers n operands' := by
  let P (t' : Tree) : Prop := ∃ operands', t'.Gathers n operands'
  have hsame : P t := ⟨operands, h⟩
  refine after_ask_bind (P := P) hsame fun _ hcheck => after_ask_bind (P := P) hsame fun p hp =>
    after_ask_bind (P := P) hsame fun stored hstored => ?_
  obtain rfl : operands = stored := Except.ok.inj (h.catchOperands.symm.trans hstored)
  cases hold : operands[index]? with
  | none => exact hsame
  | some old =>
    obtain ⟨hlt, rfl⟩ := List.getElem?_eq_some_iff.1 hold
    refine ⟨operands.set index operand, h.store hcheck hp (.inr ?_)⟩
    exact ⟨operands[index], operands.take index, operands.drop (index + 1), rfl, by simp,
      List.set_eq_take_append_cons_drop.trans (if_pos hlt)⟩

theorem request (h : t.Gathers n operands) {r : TreeRequest} (hr : r.Supplies n) :
    ∃ operands', (t.request r).Gathers n operands' := by
  cases r with
  | addCatchOperand m operand =>
    obtain rfl : m = n := hr
    exact h.addCatchOperand operand
  | setCatchOperand m index operand =>
    obtain rfl : m = n := hr
    exact h.setCatchOperand index operand
  | setLink m d => exact ⟨operands, h.setLink m d⟩
  | _ => exact hr.elim

theorem requests (h : t.Gathers n operands) {rs : List TreeRequest} (hrs : ∀ r ∈ rs, r.Supplies n) :
    ∃ operands', (t.requests rs).Gathers n operands' := by
  induction rs generalizing t operands with
  | nil => exact ⟨operands, h⟩
  | cons r rest ih =>
    obtain ⟨operands', h'⟩ := h.request (hrs r List.mem_cons_self)
    exact ih h' fun r' hr' => hrs r' (List.mem_cons_of_mem r hr')

end Gathers

/-- The first operand for each definition is left in the phi, and the others are gone. -/
structure ReadsFirst (t t' : Tree) (n : NodeId) (operands kept : List NodeId) : Prop where
  readable : ∀ q ∈ operands, ∃ d, t.definitionOf q = .ok d
  sublist : kept.Sublist operands
  first : ∀ before q after, operands = before ++ q :: after →
    (q ∈ kept ↔ ∀ p ∈ before, t.definitionOf p ≠ t.definitionOf q)
  distinct : t'.Distinct kept
  covers : ∀ d, (∃ q ∈ operands, t.definitionOf q = .ok d) ↔ ∃ q ∈ kept, t'.definitionOf q = .ok d
  stored : ∃ s target, t.slot? n = some s ∧ s.node = .phi ⟨target, .catching operands⟩ ∧
    t'.slot? n = some { s with node := .phi ⟨target, .catching kept⟩ }
  size : t'.size = t.size
  slots : ∀ m ≠ n, t'.slot? m = if m ∈ operands ∧ m ∉ kept then none else t.slot? m

/-- Operands that stand for different definitions are read without a change. -/
theorem readCatchOperands_of_distinct {r : Recorded Tree}
    (hread : r.value.catchOperands n = .ok kept)
    (readable : ∀ q ∈ kept, ∃ d, r.value.definitionOf q = .ok d)
    (distinct : r.value.Distinct kept) :
    readCatchOperands n r = .ok kept r := by
  have hsplit : r.value.splitRepeated [] kept = .ok (kept, []) :=
    splitRepeated_of_distinct readable distinct (by simp)
  refine bind_ok.2 ⟨kept, r, ask_ok.2 ⟨hread, rfl⟩,
    bind_ok.2 ⟨(kept, []), r, ask_ok.2 ⟨hsplit, rfl⟩, ?_⟩⟩
  rfl

namespace Gathers

/-- Reading leaves the first operand for each definition, and nothing is left to do for a second
reading. -/
theorem reads (h : t.Gathers n operands) (events : List Event) :
    Yields (readCatchOperands n) ⟨t, events⟩ fun kept r' =>
      ReadsFirst t r'.value n operands kept ∧ readCatchOperands n r' = .ok kept r' := by
  obtain ⟨target, hn⟩ := h.phi
  obtain ⟨s, hs, hnode⟩ := node?_eq_some.1 hn
  refine (readCatchOperands_yields hs hnode h.nodup (fun q hq => h.exists_slot hq) events).mono ?_
  rintro kept r' ⟨dropped, hsplit, hsize, hslots⟩
  obtain ⟨hsub, -, hstands⟩ := splitRepeated_ok hsplit
  have hdropped (q : NodeId) : q ∈ dropped ↔ q ∈ operands ∧ q ∉ kept :=
    mem_dropped_of_splitRepeated hsplit h.nodup
  have hslot (m : NodeId) (hm : m ≠ n) :
      r'.value.slot? m = if m ∈ operands ∧ m ∉ kept then none else t.slot? m := by
    rw [hslots, if_neg hm]
    simp only [hdropped]
  have hstored : r'.value.slot? n = some { s with node := .phi ⟨target, .catching kept⟩ } := by
    rw [hslots, if_neg fun hd => h.not_mem ((hdropped n).1 hd).1, if_pos rfl]
  have hdefinition (q : NodeId) (hq : q ∈ kept) : r'.value.definitionOf q = t.definitionOf q := by
    have hne : q ≠ n := by
      rintro rfl
      exact h.not_mem (hsub.subset hq)
    exact definitionOf_congr (by rw [hslot q hne, if_neg fun hout => hout.2 hq])
  have hdistinct : r'.value.Distinct kept := (distinct_of_splitRepeated hsplit).1.congr hdefinition
  refine ⟨⟨fun q hq => h.exists_definitionOf hq, hsub, fun before q after hwhere => ?_,
    hdistinct, fun d => ?_, ⟨s, target, hs, hnode, hstored⟩, hsize, hslot⟩, ?_⟩
  · rw [mem_kept_of_splitRepeated hsplit h.nodup hwhere]
    simp
  · constructor
    · rintro ⟨q, hq, hd⟩
      obtain ⟨d', hd', hseen | ⟨q', hq', hsame⟩⟩ := hstands q hq
      · simp at hseen
      · obtain rfl : d = d' := Except.ok.inj (hd.symm.trans hd')
        exact ⟨q', hq', (hdefinition q' hq').trans hsame⟩
    · rintro ⟨q, hq, hd⟩
      exact ⟨q, hsub.subset hq, (hdefinition q hq).symm.trans hd⟩
  · have hread : r'.value.catchOperands n = .ok kept :=
      catchOperands_ok.2 ⟨_, node?_eq_some.2 ⟨_, hstored, rfl⟩, rfl⟩
    refine readCatchOperands_of_distinct hread (fun q hq => ?_) hdistinct
    rw [hdefinition q hq]
    exact h.exists_definitionOf (hsub.subset hq)

/-- What is read after requests that concern the operands is the first operand for each definition,
and it is read again without a change. -/
theorem reads_after_requests (h : t.Gathers n operands) {rs : List TreeRequest}
    (hrs : ∀ r ∈ rs, r.Supplies n) (events : List Event) :
    ∃ stored, (t.requests rs).catchOperands n = .ok stored ∧
      Yields (readCatchOperands n) ⟨t.requests rs, events⟩ fun kept r' =>
        ReadsFirst (t.requests rs) r'.value n stored kept ∧
        readCatchOperands n r' = .ok kept r' := by
  obtain ⟨stored, hstored⟩ := h.requests hrs
  exact ⟨stored, hstored.catchOperands, hstored.reads events⟩

end Gathers

/-- A phi at a handler, and three uses of its variable. -/
def catchThree : List TreeEdit :=
  [.request (.newVariable (.ofLocal 0) .int), .request (.newCatchPhi ⟨0⟩),
    .request (.newVariable (.ofLocal 0) .int), .request (.newVariable (.ofLocal 0) .int),
    .request (.newVariable (.ofLocal 0) .int)]

/-- The second operand is linked to what the first one stands for after it was added. -/
def linkAlike : List TreeRequest :=
  [.setLink ⟨2⟩ (some ⟨0⟩), .addCatchOperand ⟨1⟩ ⟨2⟩, .addCatchOperand ⟨1⟩ ⟨3⟩,
    .setLink ⟨3⟩ (some ⟨0⟩), .addCatchOperand ⟨1⟩ ⟨4⟩]

theorem reads_first_of_linkAlike :
    ((Tree.empty.edits catchThree).requests linkAlike).catchOperands ⟨1⟩ = .ok [⟨2⟩, ⟨3⟩, ⟨4⟩] ∧
    Yields (readCatchOperands ⟨1⟩) ⟨(Tree.empty.edits catchThree).requests linkAlike, []⟩
      fun kept r' =>
      (⟨2⟩ ∈ kept ∧ ⟨3⟩ ∉ kept ∧ ⟨4⟩ ∈ kept) ∧ r'.value.slot? ⟨3⟩ = none ∧
        r'.value.catchOperands ⟨1⟩ = .ok kept ∧ readCatchOperands ⟨1⟩ r' = .ok kept r' := by
  have hn : (Tree.empty.edits catchThree).node? ⟨1⟩ = some (.phi ⟨⟨0⟩, .catching []⟩) := by
    decide +kernel
  have hgathers : (Tree.empty.edits catchThree).Gathers ⟨1⟩ [] :=
    ⟨coherent_edits catchThree, ⟨⟨0⟩, hn⟩, by simp⟩
  have hsupplies : ∀ r ∈ linkAlike, r.Supplies ⟨1⟩ := by simp [linkAlike, TreeRequest.Supplies]
  have hstored :
      ((Tree.empty.edits catchThree).requests linkAlike).catchOperands ⟨1⟩ =
        .ok [⟨2⟩, ⟨3⟩, ⟨4⟩] := by
    decide +kernel
  obtain ⟨hd₂, hd₃, hd₄⟩ :
      ((Tree.empty.edits catchThree).requests linkAlike).definitionOf ⟨2⟩ = .ok (some ⟨0⟩) ∧
      ((Tree.empty.edits catchThree).requests linkAlike).definitionOf ⟨3⟩ = .ok (some ⟨0⟩) ∧
      ((Tree.empty.edits catchThree).requests linkAlike).definitionOf ⟨4⟩ = .ok none := by
    decide +kernel
  obtain ⟨stored, hread, hyields⟩ := Gathers.reads_after_requests hgathers hsupplies []
  obtain rfl : [⟨2⟩, ⟨3⟩, ⟨4⟩] = stored := Except.ok.inj (hstored.symm.trans hread)
  refine ⟨hstored, hyields.mono ?_⟩
  rintro kept r' ⟨hreads, hagain⟩
  obtain ⟨s, target, -, -, hphi⟩ := hreads.stored
  have htwo : ⟨2⟩ ∈ kept := (hreads.first [] ⟨2⟩ [⟨3⟩, ⟨4⟩] rfl).2 (by simp)
  have hthree : ⟨3⟩ ∉ kept := fun hmem =>
    (hreads.first [⟨2⟩] ⟨3⟩ [⟨4⟩] rfl).1 hmem ⟨2⟩ (by simp) (by rw [hd₂, hd₃])
  have hfour : ⟨4⟩ ∈ kept := by
    apply (hreads.first [⟨2⟩, ⟨3⟩] ⟨4⟩ [] rfl).2
    have hlinked : ∀ p ∈ [⟨2⟩, ⟨3⟩],
        ((Tree.empty.edits catchThree).requests linkAlike).definitionOf p = .ok (some ⟨0⟩) :=
      List.forall_mem_cons.2 ⟨hd₂, List.forall_mem_singleton.2 hd₃⟩
    intro p hp
    rw [hlinked p hp, hd₄]
    simp
  refine ⟨⟨htwo, hthree, hfour⟩, ?_,
    catchOperands_ok.2 ⟨_, node?_eq_some.2 ⟨_, hphi, rfl⟩, rfl⟩, hagain⟩
  rw [hreads.slots ⟨3⟩ (by decide), if_pos ⟨by simp, hthree⟩]

/-- An operand of a phi at a handler is replaced by a sum. -/
def catchSum : List TreeEdit :=
  [.request (.newVariable (.ofLocal 0) .int), .request (.newCatchPhi ⟨0⟩),
    .request (.newVariable (.ofLocal 0) .int), .request (.addCatchOperand ⟨1⟩ ⟨2⟩),
    .request (.newVariable (.ofLocal 1) .int), .request (.newVariable (.ofLocal 2) .int),
    .request (.newBinary .add ⟨3⟩ ⟨4⟩ .int), .request (.replace ⟨2⟩ ⟨5⟩)]

/-- A replacement can make an expression the operand of a phi, and then the operands cannot be
read. -/
theorem refuses_of_catchSum :
    (Tree.empty.edits catchSum).node ⟨1⟩ = .ok (.phi ⟨⟨0⟩, .catching [⟨5⟩]⟩) ∧
    (Tree.empty.edits catchSum).isLive ⟨5⟩ = true ∧
    (readCatchOperands ⟨1⟩).outcome ⟨Tree.empty.edits catchSum, []⟩ =
      .error (.violation (.notVariable ⟨5⟩)) := by
  decide +kernel

end Tree

end MethodFlow
