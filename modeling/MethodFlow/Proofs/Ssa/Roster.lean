import MethodFlow.Proofs.Flow.Shape
import MethodFlow.Ssa.Placement

/-!
Rosters against their graphs. While phis are placed, every phi on the roster is in use, at its block
and with the occurrences that it owns, and nothing that was there before is touched.
-/

namespace MethodFlow

namespace Bench

variable {τ υ α : Type} {s s' : Recorded (Bench τ)} {a : α}

theorem liftFlow_ok {x : Edit FlowGraph α}
    (h : (liftM x : Edit (Recorded (Bench τ)) α) s = .ok a s') :
    x s.value.flow = .ok a s'.value.flow ∧ s'.value.own = s.value.own := by
  obtain ⟨_, hb, rfl⟩ := Edit.quietly_ok.1 h
  obtain ⟨flow, hflow, rfl⟩ := Edit.within_ok.1 hb
  exact ⟨hflow, rfl⟩

theorem liftTree_ok {x : Edit Tree α} (h : (liftM x : Edit (Recorded (Bench τ)) α) s = .ok a s') :
    x s.value.flow.tree = .ok a s'.value.flow.tree ∧ s.value.flow.SameShape s'.value.flow ∧
      s'.value.own = s.value.own := by
  obtain ⟨hflow, hown⟩ := liftFlow_ok (x := (liftM x : Edit FlowGraph α)) h
  obtain ⟨tree, htree, he⟩ := FlowGraph.liftTree_ok.1 hflow
  rw [← he]
  exact ⟨htree, .withTree _ _, hown⟩

theorem graph_liftTree {x : Edit Tree α}
    (h : (liftM x : Edit (Recorded (Bench τ)) α) s = .ok a s') :
    s'.value.flow.graph = s.value.flow.graph := by
  obtain ⟨hflow, -⟩ := liftFlow_ok (x := (liftM x : Edit FlowGraph α)) h
  obtain ⟨tree, -, he⟩ := FlowGraph.liftTree_ok.1 hflow
  rw [← he]

theorem modifyOwn_ok {f : τ → τ} {u : Unit} (h : modifyOwn f s = .ok u s') :
    s'.value.flow = s.value.flow ∧ s'.value.own = f s.value.own := by
  rw [← Edit.modify_ok.1 h]
  exact ⟨rfl, rfl⟩

theorem report_ok {e : Event} {u : Unit} (h : Edit.report e s = .ok u s') : s'.value = s.value := by
  rw [← Edit.report_ok.1 h]

theorem beside_ok {start : υ} {x : Edit (Recorded (Bench υ)) α} {r r' : Recorded FlowGraph}
    {p : α × υ} :
    beside start x r = .ok p r' ↔
      x ⟨⟨r.value, start⟩, r.events⟩ = .ok p.1 ⟨⟨r'.value, p.2⟩, r'.events⟩ := by
  unfold beside
  cases x ⟨⟨r.value, start⟩, r.events⟩ with
  | error e m => simp
  | ok c m =>
    obtain ⟨⟨flow, own⟩, events⟩ := m
    obtain ⟨a, b⟩ := p
    obtain ⟨value, events'⟩ := r'
    simp only [EStateM.Result.ok.injEq, Prod.mk.injEq, Recorded.mk.injEq, Bench.mk.injEq]
    tauto

end Bench

@[simp] theorem RosterEdit.askRoster_ok {α : Type} {f : Roster → FlowGraph → Except Fault α} {a : α}
    {s s' : Recorded (Bench Roster)} :
    askRoster f s = .ok a s' ↔ f s.value.own s.value.flow = .ok a ∧ s = s' := Edit.ask_ok

namespace Roster

variable {r : Roster} {f : FlowGraph} {b c : BlockId}

def record? (r : Roster) (b : BlockId) : Option BlockRecord :=
  r.records.find? fun record => record.block = b

theorem block_of_record? {record : BlockRecord} (h : r.record? b = some record) :
    record.block = b := by
  simpa using List.find?_some h

theorem mem_of_record? {record : BlockRecord} (h : r.record? b = some record) :
    record ∈ r.records := List.mem_of_find?_eq_some h

@[simp] theorem recordAt_ok {record : BlockRecord} :
    r.recordAt f b = .ok record ↔
      f.stamp = r.stamp ∧ f.contains b = true ∧ r.record? b = some record := by
  simp only [recordAt, Except.bind_eq_ok, FlowGraph.checkStamp_ok, FlowGraph.checkBlock_ok]
  constructor
  · rintro ⟨_, hstamp, _, hblock, h⟩
    refine ⟨hstamp, hblock, ?_⟩
    split at h
    · next found hfound =>
      rw [record?, hfound, Except.pure_eq_ok.1 h]
    · simp at h
  · rintro ⟨hstamp, hblock, h⟩
    refine ⟨⟨⟩, hstamp, ⟨⟩, hblock, ?_⟩
    rw [record?] at h
    simp [h]

@[simp] theorem phiAt_ok {phi : Option NodeId} :
    r.phiAt f b = .ok phi ↔
      ∃ record, r.recordAt f b = .ok record ∧ record.phi.filter f.tree.isLive = phi := by
  simp [phiAt]

theorem record?_modifyRecord {g : BlockRecord → BlockRecord}
    (hg : ∀ record, (g record).block = record.block) :
    (r.modifyRecord b g).record? c =
      if c = b then (r.record? c).map g else r.record? c := by
  have hblock : ((fun record : BlockRecord => decide (record.block = c)) ∘ fun record =>
      if record.block = b then g record else record) =
      fun record : BlockRecord => decide (record.block = c) := by
    funext record
    by_cases h : record.block = b <;> simp [h, hg]
  simp only [record?, modifyRecord, List.find?_map, hblock]
  cases hfound : r.records.find? fun record => record.block = c with
  | none => simp
  | some record =>
    obtain rfl : record.block = c := by simpa using List.find?_some hfound
    by_cases h : record.block = b <;> simp [h]

theorem blocks_modifyRecord {g : BlockRecord → BlockRecord}
    (hg : ∀ record, (g record).block = record.block) :
    (r.modifyRecord b g).records.map BlockRecord.block = r.records.map BlockRecord.block := by
  simp only [modifyRecord, List.map_map]
  refine List.map_congr_left fun record _ => ?_
  by_cases h : record.block = b <;> simp [h, hg]

theorem record?_setPhi {phi : Option NodeId} :
    (r.setPhi b phi).record? c =
      if c = b then (r.record? c).map fun record => { record with phi } else r.record? c :=
  record?_modifyRecord fun _ => rfl

def phi? (r : Roster) (b : BlockId) : Option NodeId := (r.record? b).bind BlockRecord.phi

theorem phi?_eq_some {n : NodeId} :
    r.phi? b = some n ↔ ∃ record, r.record? b = some record ∧ record.phi = some n := by
  simp [phi?, Option.bind_eq_some_iff]

theorem phi?_setPhi {phi : Option NodeId} :
    (r.setPhi b phi).phi? c = if c = b then (r.record? c).bind fun _ => phi else r.phi? c := by
  rw [phi?, record?_setPhi]
  split
  · cases r.record? c <;> rfl
  · rfl

@[simp] theorem phi?_setPhi_none : (r.setPhi b none).phi? b = none := by
  rw [phi?_setPhi, if_pos rfl]
  cases r.record? b <;> rfl

theorem phi?_setPhi_of_ne {phi : Option NodeId} (h : c ≠ b) :
    (r.setPhi b phi).phi? c = r.phi? c := by
  rw [phi?_setPhi, if_neg h]

def kindAt? (r : Roster) (f : FlowGraph) (b : BlockId) : Option PhiKind :=
  (r.phi? b).bind f.tree.phiKind?

theorem noteDefiningBlock_eq (r : Roster) (b : BlockId) :
    r.noteDefiningBlock b =
      { r with definingBlocks :=
        if b ∈ r.definingBlocks then r.definingBlocks else r.definingBlocks ++ [b] } := by
  unfold noteDefiningBlock
  split <;> rfl

@[simp] theorem record?_noteDefiningBlock : (r.noteDefiningBlock b).record? c = r.record? c := by
  rw [noteDefiningBlock_eq]
  rfl

@[simp] theorem phi?_noteDefiningBlock : (r.noteDefiningBlock b).phi? c = r.phi? c := by
  rw [phi?, record?_noteDefiningBlock, phi?]

theorem noteDefiningBlock_setPhi (r : Roster) (b : BlockId) (phi : Option NodeId) :
    (r.setPhi b phi).noteDefiningBlock b = (r.noteDefiningBlock b).setPhi b phi := by
  rw [noteDefiningBlock_eq, noteDefiningBlock_eq]
  rfl

theorem nodup_noteDefiningBlock (h : r.definingBlocks.Nodup) :
    (r.noteDefiningBlock b).definingBlocks.Nodup := by
  unfold noteDefiningBlock
  split
  · exact h
  · next hb => simpa [List.concat_eq_append] using h.concat hb

@[simp] theorem mem_noteDefiningBlock :
    c ∈ (r.noteDefiningBlock b).definingBlocks ↔ c = b ∨ c ∈ r.definingBlocks := by
  unfold noteDefiningBlock
  split
  · next h =>
    constructor
    · exact .inr
    · rintro (rfl | hc)
      · exact h
      · exact hc
  · simp [or_comm]

end Roster

/-- The kind of the phi at a block where there was one of kind `old`, if any, once one of kind `new`
is to be placed there. -/
def PhiKind.over (new : PhiKind) : Option PhiKind → PhiKind
  | none => new
  | some old => if new.rank ≤ old.rank then old else new

namespace Roster

/-- A rule says which inputs a phi of a variable may have at a block of a graph. -/
abbrev Rule := FlowGraph → Var → BlockId → PhiInputs → Prop

/-- The inputs that a phi of `v` at `b` may have after a conversion of the graph `base`. -/
def Admits (o : SsaOptions) (base : FlowGraph) (v : Var) (b : BlockId) : PhiInputs → Prop
  | .joining _ operands => operands.map Prod.fst = base.preds b
  | .catching _ => o.catchPhis ∧ v.isLocal ∧ b ∈ base.catchBlocks
  | .returning s operands =>
    o.returnPhis ∧ (∃ sub ∈ base.subroutines, sub.exit.isSome) ∧
      ∃ sub, base.subroutine? s = some sub ∧ b ∈ sub.returnBlocks ∧
        operands.map Prod.fst = sub.callsReturningTo b

/-- A phi at `b` that is newer than the graph `base` and has inputs by the rule. -/
structure NewPhi (rule : Rule) (base f : FlowGraph) (v : Var) (b : BlockId) (n : NodeId)
    (p : Phi) : Prop where
  holds : f.tree.HoldsPhi v n p (some b)
  fresh : ∀ q ∈ Tree.HoldsPhi.nodes n p, base.tree.size ≤ q.index
  admitted : rule base v b p.inputs

/-- A roster that work on the graph `base` has got to, with the graph `f` that it has made of
`base`. The occurrences in each block are `reals`. -/
structure Prepared (rule : Rule) (base : FlowGraph) (v : Var) (scope : NodeId → Var → Prop)
    (reals : BlockId → List NodeId) (r : Roster) (f : FlowGraph) : Prop where
  var : r.var = v
  all : ∀ n, n ∈ r.reals ↔ ∃ b ∈ base.preorder, n ∈ reals b
  shape : base.SameShape f
  kept : base.tree.Retouched scope f.tree
  stamp : r.stamp = base.stamp
  blocks : r.records.map BlockRecord.block = base.preorder
  listed : ∀ b record, r.record? b = some record → record.reals = reals b
  prototype : base.tree.size ≤ r.prototype.index ∧ f.tree.Loose v r.prototype
  phi : ∀ b n, r.phi? b = some n → ∃ p, NewPhi rule base f v b n p
  defining : ∀ b ∈ base.preorder, (r.phi? b).isSome ∨ (∃ n ∈ reals b, base.tree.defines n) →
    b ∈ r.definingBlocks
  nodup : r.definingBlocks.Nodup
  contained : ∀ b ∈ r.definingBlocks, base.contains b = true

namespace Prepared

variable {rule : Rule} {base f f' : FlowGraph} {v : Var} {scope : NodeId → Var → Prop}
  {reals : BlockId → List NodeId} {r : Roster} {b : BlockId}

theorem phi_live (h : Prepared rule base v scope reals r f) {n : NodeId} (hn : r.phi? b = some n) :
    f.tree.isLive n = true := by
  obtain ⟨p, hp⟩ := h.phi b n hn
  simp [Tree.isLive, hp.holds.slot]

theorem phi?_injective (h : Prepared rule base v scope reals r f) {c : BlockId} {n : NodeId}
    (hb : r.phi? b = some n) (hc : r.phi? c = some n) : b = c := by
  obtain ⟨p, hp⟩ := h.phi b n hb
  obtain ⟨q, hq⟩ := h.phi c n hc
  have hsame := hp.holds.slot.symm.trans hq.holds.slot
  simp only [Option.some.injEq, Slot.mk.injEq] at hsame
  exact hsame.2.2

theorem newPhi (h : Prepared rule base v scope reals r f) {phi : NodeId} {p : Phi}
    (hphi : r.phi? b = some phi) (hp : f.tree.node? phi = some (.phi p)) :
    NewPhi rule base f v b phi p := by
  obtain ⟨p', hnew⟩ := h.phi b phi hphi
  obtain rfl : p = p' := by simpa [hp] using hnew.holds.node?
  exact hnew

theorem exists_record (h : Prepared rule base v scope reals r f) (hb : b ∈ base.preorder) :
    ∃ record, r.record? b = some record := by
  rw [← h.blocks] at hb
  obtain ⟨record, hmem, rfl⟩ := List.mem_map.1 hb
  exact Option.isSome_iff_exists.1 (List.find?_isSome.2 ⟨record, hmem, by simp⟩)

theorem mem_preorder (h : Prepared rule base v scope reals r f) {n : NodeId}
    (hn : r.phi? b = some n) :
    b ∈ base.preorder := by
  obtain ⟨record, hr, -⟩ := phi?_eq_some.1 hn
  rw [← h.blocks, ← block_of_record? hr]
  exact List.mem_map_of_mem (mem_of_record? hr)

theorem mem_phis (h : Prepared rule base v scope reals r f) (nodup : base.preorder.Nodup)
    {n : NodeId} :
    n ∈ r.phis ↔ ∃ b, r.phi? b = some n := by
  simp only [phis, List.mem_filterMap, phi?_eq_some]
  constructor
  · rintro ⟨record, hmem, hn⟩
    rw [← h.blocks] at nodup
    obtain ⟨found, hfound⟩ := h.exists_record (b := record.block) (by
      rw [← h.blocks]
      exact List.mem_map_of_mem hmem)
    obtain rfl : found = record := List.inj_on_of_nodup_map nodup (mem_of_record? hfound) hmem
      (block_of_record? hfound)
    exact ⟨found.block, found, hfound, hn⟩
  · rintro ⟨b, record, hr, hn⟩
    exact ⟨record, mem_of_record? hr, hn⟩

theorem phiAt_ok (h : Prepared rule base v scope reals r f) {phi : Option NodeId} :
    r.phiAt f b = .ok phi → base.contains b = true ∧ r.phi? b = phi := by
  intro hphi
  obtain ⟨record, hrecord, rfl⟩ := Roster.phiAt_ok.1 hphi
  obtain ⟨-, hb, hr⟩ := recordAt_ok.1 hrecord
  rw [h.shape.contains] at hb
  refine ⟨hb, ?_⟩
  rw [phi?, hr, Option.bind_some]
  cases hphi : record.phi with
  | none => rfl
  | some n =>
    have hlive := h.phi_live (phi?_eq_some.2 ⟨record, hr, hphi⟩)
    rw [Option.filter_some, if_pos hlive]

theorem phiAt_of_phi? (h : Prepared rule base v scope reals r f)
    (hb : base.contains b = true) {n : NodeId}
    (hn : r.phi? b = some n) : r.phiAt f b = .ok (some n) := by
  obtain ⟨record, hr, hphi⟩ := phi?_eq_some.1 hn
  rw [← h.shape.contains] at hb
  refine Roster.phiAt_ok.2 ⟨record, recordAt_ok.2 ⟨?_, hb, hr⟩, ?_⟩
  · rw [h.shape.stamp, h.stamp]
  · rw [hphi, Option.filter_some, if_pos (h.phi_live hn)]

theorem realsAt_eq (h : Prepared rule base v scope reals r f) (hlisted : b ∈ base.preorder)
    (hb : f.contains b = true) : r.realsAt f b = .ok (reals b) := by
  obtain ⟨record, hrecord⟩ := h.exists_record hlisted
  have hat : r.recordAt f b = .ok record :=
    recordAt_ok.2 ⟨h.shape.stamp.trans h.stamp.symm, hb, hrecord⟩
  exact Except.map_eq_ok.2 ⟨record, hat, h.listed b record hrecord⟩

/-- The nodes that a roster relies on: those of the base, its prototype, and what its phis own. -/
def Relies (base f : FlowGraph) (v : Var) (r : Roster) (m : NodeId) : Prop :=
  m.index < base.tree.size ∨ m = r.prototype ∨
    ∃ b n p, r.phi? b = some n ∧ f.tree.HoldsPhi v n p (some b) ∧ m ∈ Tree.HoldsPhi.nodes n p

theorem index_lt (h : Prepared rule base v scope reals r f) {m : NodeId}
    (hm : Relies base f v r m) :
    m.index < f.tree.size := by
  rcases hm with hlt | rfl | ⟨c, n, p, -, hp, hmem⟩
  · exact Nat.lt_of_lt_of_le hlt h.kept.size
  · exact h.prototype.2.index_lt
  · exact hp.index_lt hmem

theorem isSome_kindAt? (h : Prepared rule base v scope reals r f) (b : BlockId) :
    (r.kindAt? f b).isSome = (r.phi? b).isSome := by
  rw [kindAt?]
  cases hn : r.phi? b with
  | none => rfl
  | some n =>
    obtain ⟨p, hp⟩ := h.phi b n hn
    simp [hp.holds.phiKind?]

theorem kindAt?_of_slots (h : Prepared rule base v scope reals r f)
    (hslots : ∀ m, Relies base f v r m → f'.tree.slot? m = f.tree.slot? m) (b : BlockId) :
    r.kindAt? f' b = r.kindAt? f b := by
  rw [kindAt?, kindAt?]
  cases hn : r.phi? b with
  | none => rfl
  | some n =>
    obtain ⟨p, hp⟩ := h.phi b n hn
    have hslot := hslots n (.inr (.inr ⟨b, n, p, hn, hp.holds, by simp [Tree.HoldsPhi.nodes]⟩))
    simp [Tree.phiKind?, Tree.node?, hslot]

/-- Work that spares the nodes that a roster relies on. -/
theorem frame (h : Prepared rule base v scope reals r f) (hshape : f.SameShape f')
    (hsize : f.tree.size ≤ f'.tree.size)
    (hslots : ∀ m, Relies base f v r m → f'.tree.slot? m = f.tree.slot? m) :
    Prepared rule base v scope reals r f' where
  var := h.var
  all := h.all
  shape := h.shape.trans hshape
  kept := h.kept.keep hsize fun m hm => hslots m (.inl hm)
  stamp := h.stamp
  blocks := h.blocks
  listed := h.listed
  prototype := by
    obtain ⟨hle, o', hs, ho⟩ := h.prototype
    exact ⟨hle, o', (hslots _ (.inr (.inl rfl))).trans hs, ho⟩
  phi b n hn := by
    obtain ⟨p, hp⟩ := h.phi b n hn
    exact ⟨p, hp.holds.of_slots fun q hq => hslots q (.inr (.inr ⟨b, n, p, hn, hp.holds, hq⟩)),
      hp.fresh, hp.admitted⟩
  defining := h.defining
  nodup := h.nodup
  contained := h.contained

/-- Other links and other numbers change nothing. -/
theorem retouch (h : Prepared rule base v scope reals r f) {scope' : NodeId → Var → Prop}
    (hshape : f.SameShape f') (hkept : f.tree.Retouched scope' f'.tree)
    (hscope : ∀ (m : NodeId) w, m.index < base.tree.size → scope' m w → scope m w) :
    Prepared rule base v scope reals r f' :=
  { h with
    shape := h.shape.trans hshape
    kept := h.kept.trans hkept hscope
    prototype := ⟨h.prototype.1, hkept.loose h.prototype.2⟩
    phi := fun b n hn => by
      obtain ⟨p, hp⟩ := h.phi b n hn
      exact ⟨p, hkept.holdsPhi hp.holds, hp.fresh, hp.admitted⟩ }

/-- What a roster relies on when it has forgotten a phi does not belong to that phi. -/
theorem not_mem_nodes (h : Prepared rule base v scope reals r f) {n m : NodeId} {p : Phi}
    (hn : r.phi? b = some n) (hp : NewPhi rule base f v b n p)
    (hm : Relies base f v (r.setPhi b none) m) : m ∉ Tree.HoldsPhi.nodes n p := by
  intro hmem
  rcases hm with hlt | rfl | ⟨c, n', p', hn', hp', hm'⟩
  · exact absurd (hp.fresh m hmem) (Nat.not_le.2 hlt)
  · obtain ⟨-, o', hs, -⟩ := h.prototype
    rcases List.mem_cons.1 hmem with he | hmem
    · have hs' := hp.holds.slot
      rw [← he] at hs'
      exact absurd (hs.symm.trans hs') (by simp)
    · obtain ⟨_, hs', -⟩ := hp.holds.owned hmem
      exact absurd (hs.symm.trans hs') (by simp)
  · have hcb : c ≠ b := by
      rintro rfl
      simp at hn'
    refine hp.holds.disjoint hp' ?_ hm' hmem
    rintro rfl
    have := hp.holds.slot.symm.trans hp'.slot
    simp only [Option.some.injEq, Slot.mk.injEq, Node.phi.injEq, true_and] at this
    exact hcb this.2.symm

theorem slot?_of_relies (h : Prepared rule base v scope reals r f) {n m : NodeId} {p : Phi}
    (hn : r.phi? b = some n) (hp : NewPhi rule base f v b n p)
    (hother : ∀ m, m ≠ n → m ∉ p.target :: p.operands → f'.tree.slot? m = f.tree.slot? m)
    (hm : Relies base f v (r.setPhi b none) m) : f'.tree.slot? m = f.tree.slot? m := by
  have hout := h.not_mem_nodes hn hp hm
  exact hother m (fun he => hout (by simp [he, Tree.HoldsPhi.nodes]))
    fun hmem => hout (List.mem_cons_of_mem _ hmem)

theorem slot?_of_phi (h : Prepared rule base v scope reals r f) {n m : NodeId} {p q : Phi}
    (hn : r.phi? b = some n) (hp : NewPhi rule base f v b n p)
    (hother : ∀ m, m ≠ n → m ∉ p.target :: p.operands → f'.tree.slot? m = f.tree.slot? m)
    {c : BlockId} (hc : c ≠ b) {n' : NodeId} (hn' : r.phi? c = some n')
    (hq : f.tree.HoldsPhi v n' q (some c)) (hm : m ∈ Tree.HoldsPhi.nodes n' q) :
    f'.tree.slot? m = f.tree.slot? m :=
  h.slot?_of_relies hn hp hother
    (.inr (.inr ⟨c, n', q, by rw [phi?_setPhi_of_ne hc, hn'], hq, hm⟩))

/-- A roster may forget a phi, and it may take one up at a block that is known to define the
variable. -/
theorem setPhi (h : Prepared rule base v scope reals r f) {phi : Option NodeId}
    (hphi : ∀ n, phi = some n → ∃ p, NewPhi rule base f v b n p)
    (hb : phi.isSome → b ∈ r.definingBlocks) :
    Prepared rule base v scope reals (r.setPhi b phi) f where
  var := h.var
  all := h.all
  shape := h.shape
  kept := h.kept
  stamp := h.stamp
  blocks :=
    (blocks_modifyRecord (g := fun record => { record with phi }) fun _ => rfl).trans h.blocks
  listed c record hr := by
    rw [record?_setPhi] at hr
    split at hr
    · obtain ⟨old, hold, rfl⟩ := Option.map_eq_some_iff.1 hr
      exact h.listed c old hold
    · exact h.listed c record hr
  prototype := h.prototype
  phi c n hn := by
    rw [phi?_setPhi] at hn
    split at hn
    · next he =>
      obtain ⟨_, -, hn⟩ := Option.bind_eq_some_iff.1 hn
      exact he ▸ hphi n hn
    · exact h.phi c n hn
  defining c hc hd := by
    rw [phi?_setPhi] at hd
    split at hd
    · next he =>
      rcases hd with hsome | hd
      · obtain ⟨n, hn⟩ := Option.isSome_iff_exists.1 hsome
        obtain ⟨_, -, hn⟩ := Option.bind_eq_some_iff.1 hn
        exact he ▸ hb (by simp [hn])
      · exact h.defining c hc (.inr hd)
    · exact h.defining c hc hd
  nodup := h.nodup
  contained := h.contained

theorem forget (h : Prepared rule base v scope reals r f) :
    Prepared rule base v scope reals (r.setPhi b none) f :=
  h.setPhi (by simp) (by simp)

theorem note (h : Prepared rule base v scope reals r f) (hb : base.contains b = true) :
    Prepared rule base v scope reals (r.noteDefiningBlock b) f where
  var := by rw [noteDefiningBlock_eq, h.var]
  all := by
    rw [noteDefiningBlock_eq]
    exact h.all
  shape := h.shape
  kept := h.kept
  stamp := by rw [noteDefiningBlock_eq, h.stamp]
  blocks := by rw [noteDefiningBlock_eq, h.blocks]
  listed := by simpa using h.listed
  prototype := by
    rw [noteDefiningBlock_eq]
    exact h.prototype
  phi := by
    rw [noteDefiningBlock_eq]
    exact h.phi
  defining c hc hd := by
    rw [mem_noteDefiningBlock]
    refine .inr (h.defining c hc ?_)
    rwa [noteDefiningBlock_eq] at hd
  nodup := nodup_noteDefiningBlock h.nodup
  contained c hc := by
    rcases mem_noteDefiningBlock.1 hc with rfl | hc
    · exact hb
    · exact h.contained c hc

theorem enter (h : Prepared rule base v scope reals r f) {n : NodeId} {p : Phi}
    (hp : NewPhi rule base f v b n p) (hb : b ∈ r.definingBlocks) :
    Prepared rule base v scope reals (r.setPhi b (some n)) f :=
  h.setPhi (by rintro _ ⟨⟩; exact ⟨p, hp⟩) fun _ => hb

end Prepared

/-- A roster has lost phis, and their blocks no longer list them. -/
structure Sheds (s s' : Bench Roster) : Prop where
  phis : ∀ b n, s'.own.phi? b = some n → s.own.phi? b = some n
  lists : ∀ b, s'.flow.statements b = (s.flow.statements b).filter fun n =>
    decide (s.own.phi? b = some n → s'.own.phi? b = some n)

namespace Sheds

variable {s s' s'' : Bench Roster}

theorem of_eq (hphi : s'.own.phi? = s.own.phi?) (hlists : s'.flow.statements = s.flow.statements) :
    Sheds s s' :=
  ⟨fun b n hn => by rwa [← hphi], fun b => by simp [hphi, hlists]⟩

theorem refl (s : Bench Roster) : Sheds s s := of_eq rfl rfl

theorem trans (h : Sheds s s') (h' : Sheds s' s'') : Sheds s s'' := by
  refine ⟨fun b n hn => h.phis b n (h'.phis b n hn), fun b => ?_⟩
  rw [h'.lists, h.lists, List.filter_filter]
  refine List.filter_congr fun n _ => ?_
  rw [Bool.and_eq_decide, decide_eq_decide, decide_eq_true_eq, decide_eq_true_eq]
  have hfirst := h.phis b n
  have hsecond := h'.phis b n
  tauto

end Sheds

/-- Every block lists what it listed in `base`, with the phi of the roster behind the phis that were
there already. -/
structure Listing (base : FlowGraph) (r : Roster) (f : FlowGraph) : Prop where
  inside : ∀ b, ∀ n ∈ base.statements b, n.index < base.tree.size
  lists : ∀ b, f.statements b = (base.statements b).take (base.leadingPhis b) ++
    (r.phi? b).toList ++ (base.statements b).drop (base.leadingPhis b)

namespace Listing

variable {rule : Rule} {base f f' : FlowGraph} {v : Var} {scope : NodeId → Var → Prop}
  {reals : BlockId → List NodeId} {r r' : Roster} {b : BlockId} {n : NodeId}

theorem congr (h : Listing base r f) (hphi : r'.phi? = r.phi?)
    (hlists : f'.statements = f.statements) : Listing base r' f' :=
  ⟨h.inside, fun b => by rw [hlists, hphi, h.lists]⟩

theorem not_mem_base (h : Listing base r f) {p : Phi} (hp : NewPhi rule base f v b n p)
    (c : BlockId) :
    n ∉ base.statements c := fun hn =>
  Nat.not_le.2 (h.inside c n hn) (hp.fresh n (by simp [Tree.HoldsPhi.nodes]))

theorem sheds {s s' : Bench Roster} (h : Listing base s.own s.flow)
    (hs : Prepared rule base v scope reals s.own s.flow) (hsheds : Sheds s s') :
    Listing base s'.own s'.flow := by
  refine ⟨h.inside, fun c => ?_⟩
  rw [hsheds.lists, h.lists, List.filter_append, List.filter_append]
  have hkept (l : List NodeId) (hl : l ⊆ base.statements c) :
      l.filter (fun n => decide (s.own.phi? c = some n → s'.own.phi? c = some n)) = l := by
    rw [List.filter_eq_self]
    intro n hn
    refine decide_eq_true fun hphi => ?_
    obtain ⟨p, hp⟩ := hs.phi c n hphi
    exact absurd (hl hn) (h.not_mem_base hp c)
  rw [hkept _ (List.take_subset _ _), hkept _ (List.drop_subset _ _)]
  cases hphi' : s'.own.phi? c with
  | some n => simp [hsheds.phis c n hphi']
  | none => cases hphi : s.own.phi? c <;> simp

theorem statements_of_none (h : Listing base r f) (hn : r.phi? b = none) :
    f.statements b = base.statements b := by
  rw [h.lists, hn]
  simp

/-- The phis at the head of a block are those of the base until the roster has one there. -/
theorem leadingPhis (h : Listing base r f) (hn : r.phi? b = none)
    (hkept : base.tree.Retouched scope f.tree) : f.leadingPhis b = base.leadingPhis b := by
  exact FlowGraph.leadingPhis_congr (h.statements_of_none hn) fun m hm =>
    hkept.phiKind? (h.inside b m hm)

theorem leadingPhis_le (f : FlowGraph) (b : BlockId) : f.leadingPhis b ≤ (f.statements b).length :=
  (List.takeWhile_sublist _).length_le

/-- A phi that its block lists behind the phis there goes on the roster. -/
theorem place (h : Listing base r f) (hnone : r.phi? b = none) (hphi : r'.phi? b = some n)
    (hother : ∀ c, c ≠ b → r'.phi? c = r.phi? c)
    (hlists : ∀ c, f'.statements c =
      if c = b then (f.statements c).insertIdx (base.leadingPhis b) n else f.statements c) :
    Listing base r' f' := by
  refine ⟨h.inside, fun c => ?_⟩
  rw [hlists]
  by_cases hc : c = b
  · subst hc
    rw [if_pos rfl, h.lists, hnone, hphi]
    simp [insertIdx_eq_take_append (leadingPhis_le base c)]
  · rw [if_neg hc, h.lists, hother c hc]

end Listing

end Roster

namespace RosterEdit

open Roster

variable {rule : Rule} {base : FlowGraph} {v : Var} {scope : NodeId → Var → Prop}
  {reals : BlockId → List NodeId} {b : BlockId} {s s' : Recorded (Bench Roster)}

/-- What the nodes of a phi on a roster were they still are, or they are all gone. -/
structure Advances (s s' : Bench Roster) : Prop where
  ages : s.flow.tree.Ages s'.flow.tree
  phi : ∀ {v b n p}, s.own.phi? b = some n → s.flow.tree.HoldsPhi v n p (some b) →
    (s'.own.phi? b = some n ∧ s'.flow.tree.HoldsPhi v n p (some b)) ∨
      ∀ q ∈ Tree.HoldsPhi.nodes n p, s'.flow.tree.slot? q = none

namespace Advances

variable {s s' s'' : Bench Roster}

theorem of_eq (hflow : s'.flow = s.flow) (hphi : s'.own.phi? = s.own.phi?) : Advances s s' := by
  refine ⟨hflow ▸ .refl _, fun hn hp => .inl ?_⟩
  rw [hflow, hphi]
  exact ⟨hn, hp⟩

theorem trans (h : Advances s s') (h' : Advances s' s'') : Advances s s'' := by
  refine ⟨h.ages.trans h'.ages, fun hn hp => ?_⟩
  rcases h.phi hn hp with ⟨hn', hp'⟩ | hgone
  · exact h'.phi hn' hp'
  · refine .inr fun q hq => h'.ages.gone ?_ (hgone q hq)
    exact Nat.lt_of_lt_of_le (hp.index_lt hq) h.ages.size

end Advances

/-- Work at one block of a roster. -/
structure Works (b : BlockId) (s s' : Bench Roster) : Prop where
  kinds : ∀ c, c ≠ b → s'.own.kindAt? s'.flow c = s.own.kindAt? s.flow c
  phis : ∀ c, c ≠ b → s'.own.phi? c = s.own.phi? c
  defining : s'.own.definingBlocks = s.own.definingBlocks
  sameReals : s'.own.reals = s.own.reals
  advances : Advances s s'

theorem Works.refl (b : BlockId) (s : Bench Roster) : Works b s s :=
  ⟨fun _ _ => rfl, fun _ _ => rfl, rfl, rfl, .of_eq rfl rfl⟩

theorem removePhi_of_none {removed : Bool} (h : removePhi b s = .ok removed s')
    (hphi : s.value.own.phi? b = none) : removed = false ∧ s' = s := by
  simp only [removePhi, Edit.bind_ok, askRoster_ok] at h
  obtain ⟨record, _, ⟨hrecord, rfl⟩, h⟩ := h
  obtain ⟨-, -, hr⟩ := recordAt_ok.1 hrecord
  have hnone : record.phi = none := by simpa [phi?, hr] using hphi
  rw [hnone] at h
  obtain ⟨rfl, rfl⟩ := Edit.pure_ok.1 h
  exact ⟨rfl, rfl⟩

theorem removePhi_of_phi? {removed : Bool} {n : NodeId} {p : Phi}
    (h : removePhi b s = .ok removed s') (hphi : s.value.own.phi? b = some n)
    (hp : s.value.flow.tree.HoldsPhi v n p (some b)) :
    removed = true ∧ s'.value.own = s.value.own.setPhi b none ∧
      s.value.flow.SameShape s'.value.flow ∧ s.value.flow.tree.Removes s'.value.flow.tree n p ∧
      Sheds s.value s'.value := by
  simp only [removePhi, Edit.bind_ok, askRoster_ok] at h
  obtain ⟨record, _, ⟨hrecord, rfl⟩, h⟩ := h
  obtain ⟨-, -, hr⟩ := recordAt_ok.1 hrecord
  obtain ⟨record', hr', hn⟩ := phi?_eq_some.1 hphi
  obtain rfl : record = record' := Option.some.inj (hr.symm.trans hr')
  simp only [hn, Edit.bind_ok, Edit.get_ok] at h
  obtain ⟨_, m₁, hown, _, _, ⟨rfl, rfl⟩, h⟩ := h
  obtain ⟨hflow₁, hown₁⟩ := Bench.modifyOwn_ok hown
  rw [← hflow₁] at hp ⊢
  have hlive : m₁.value.flow.tree.isLive n = true := by simp [Tree.isLive, hp.slot]
  simp only [hlive, Bool.not_true, Bool.false_eq_true, if_false, Edit.bind_ok, Edit.pure_ok] at h
  obtain ⟨_, m₂, hreport, _, _, hclean, hremoved, rfl⟩ := h
  obtain ⟨hflow, hown₂⟩ := Bench.liftFlow_ok hclean
  rw [Bench.report_ok hreport] at hflow hown₂
  obtain ⟨hshape, hremoves, hlists⟩ := FlowGraph.cleanupNode_phi hflow hp
  have hown := hown₂.trans hown₁
  refine ⟨hremoved.symm, hown, hshape, hremoves, fun c m hm => ?_, fun c => ?_⟩
  · rw [hown, phi?_setPhi] at hm
    split at hm
    · simp at hm
    · exact hm
  · rw [hlists, hflow₁, hown]
    by_cases hc : c = b
    · rw [if_pos hc, hc, hphi, phi?_setPhi_none]
      exact List.filter_congr fun m _ => by simp [eq_comm]
    · rw [if_neg hc, phi?_setPhi_of_ne hc]
      simp

theorem removePhi_ok {removed : Bool} (h : removePhi b s = .ok removed s')
    (hs : Prepared rule base v scope reals s.value.own s.value.flow) :
    Prepared rule base v scope reals s'.value.own s'.value.flow ∧ s'.value.own.phi? b = none ∧
      Works b s.value s'.value ∧ Sheds s.value s'.value := by
  cases hphi : s.value.own.phi? b with
  | none =>
    obtain ⟨-, rfl⟩ := removePhi_of_none h hphi
    exact ⟨hs, hphi, .refl b _, .refl _⟩
  | some n =>
    obtain ⟨p, hp⟩ := hs.phi b n hphi
    obtain ⟨-, hown, hshape, hremoves, hsheds⟩ := removePhi_of_phi? h hphi hp.holds
    have hslots := fun m => hs.slot?_of_relies (m := m) hphi hp hremoves.other
    rw [hown]
    refine ⟨hs.forget.frame hshape (Nat.le_of_eq hremoves.size.symm) hslots, phi?_setPhi_none, ?_,
      hsheds⟩
    have hphis (c : BlockId) (hc : c ≠ b) : s'.value.own.phi? c = s.value.own.phi? c := by
      rw [hown, phi?_setPhi_of_ne hc]
    refine ⟨fun c hc => ?_, hphis, by rw [hown]; rfl, by rw [hown]; rfl, hremoves.ages,
      fun {w c m q} hm hq => ?_⟩
    · rw [hown, hs.forget.kindAt?_of_slots hslots, kindAt?, phi?_setPhi_of_ne hc, kindAt?]
    · by_cases hc : c = b
      · subst hc
        obtain rfl : n = m := Option.some.inj (hphi.symm.trans hm)
        obtain rfl : p = q := by simpa using hp.holds.slot.symm.trans hq.slot
        exact .inr hremoves.gone
      · obtain ⟨q', hq'⟩ := hs.phi c m hm
        obtain rfl : q = q' := by simpa using hq.slot.symm.trans hq'.holds.slot
        exact .inl ⟨(hphis c hc).trans hm, hq.of_slots fun k hk =>
          hs.slot?_of_phi hphi hp hremoves.other hc hm hq'.holds hk⟩

/-- Only a phi of a lower kind makes room. -/
theorem makeRoom_ok {kind : PhiKind} {room : Bool} (h : makeRoom kind b s = .ok room s')
    (hs : Prepared rule base v scope reals s.value.own s.value.flow)
    (hl : Listing base s.value.own s.value.flow) :
    Prepared rule base v scope reals s'.value.own s'.value.flow ∧
      Listing base s'.value.own s'.value.flow ∧ Works b s.value s'.value ∧
      (room = true → s'.value.own.phi? b = none ∧
        kind.over (s.value.own.kindAt? s.value.flow b) = kind) ∧
      (room = false → s' = s ∧ s.value.own.kindAt? s.value.flow b =
        some (kind.over (s.value.own.kindAt? s.value.flow b))) := by
  simp only [makeRoom, Edit.bind_ok, askRoster_ok] at h
  obtain ⟨phi, _, ⟨hphi, rfl⟩, h⟩ := h
  obtain ⟨-, hphi⟩ := hs.phiAt_ok hphi
  rw [kindAt?, hphi]
  cases phi with
  | none =>
    obtain ⟨rfl, rfl⟩ := Edit.pure_ok.1 h
    exact ⟨hs, hl, .refl b _, fun _ => ⟨hphi, rfl⟩, by simp⟩
  | some existing =>
    simp only [Edit.bind_ok, Edit.get_ok] at h
    obtain ⟨_, _, ⟨rfl, rfl⟩, h⟩ := h
    cases hkind : s.value.flow.tree.phiKind? existing with
    | none => simp [hkind] at h
    | some occupant =>
      simp only [hkind] at h
      rw [Option.bind_some, hkind, PhiKind.over]
      by_cases hrank : kind.rank ≤ occupant.rank
      · rw [if_pos hrank] at h ⊢
        obtain ⟨rfl, rfl⟩ := Edit.pure_ok.1 h
        exact ⟨hs, hl, .refl b _, by simp, fun _ => ⟨rfl, rfl⟩⟩
      · simp only [if_neg hrank, Edit.bind_ok, Edit.pure_ok] at h
        obtain ⟨_, m, hreport, _, _, hremove, rfl, rfl⟩ := h
        rw [← Bench.report_ok hreport] at hs hl ⊢
        obtain ⟨hs', hnone, hworks, hsheds⟩ := removePhi_ok hremove hs
        exact ⟨hs', hl.sheds hs hsheds, hworks, fun _ => ⟨hnone, if_neg hrank⟩, by simp⟩

/-- An operation that makes a phi of `v` for `b` from its target. -/
def Makes (rule : Rule) (base : FlowGraph) (v : Var) (kind : PhiKind) (b : BlockId)
    (make : NodeId → Edit Tree NodeId) : Prop :=
  ∀ t target n t', t.Loose v target → make target t = .ok n t' →
    ∃ p, p.target = target ∧ p.kind = kind ∧ t.MadePhi t' v n p ∧ rule base v b p.inputs

/-- The graph `f'` has a phi that `f` has not. It is not placed yet. -/
structure Gains (f f' : FlowGraph) (v : Var) (n : NodeId) (p : Phi) : Prop where
  shape : f.SameShape f'
  statements : f'.statements = f.statements
  holds : f'.tree.HoldsPhi v n p none
  fresh : ∀ q ∈ Tree.HoldsPhi.nodes n p, f.tree.size ≤ q.index
  size : f.tree.size ≤ f'.tree.size
  kept : ∀ k : NodeId, k.index < f.tree.size → f'.tree.slot? k = f.tree.slot? k

theorem gains_of_make {kind : PhiKind} {make : NodeId → Edit Tree NodeId} {target n : NodeId}
    {m₁ m₂ : Recorded (Bench Roster)}
    (hs : Prepared rule base v scope reals s.value.own s.value.flow)
    (htarget : (liftM (Tree.useLike s.value.own.prototype) : RosterEdit NodeId) s = .ok target m₁)
    (hphi : (liftM (make target) : RosterEdit NodeId) m₁ = .ok n m₂)
    (hmake : Makes rule base v kind b make) :
    m₂.value.own = s.value.own ∧ ∃ p, p.kind = kind ∧ rule base v b p.inputs ∧
      Gains s.value.flow m₂.value.flow v n p := by
  obtain ⟨_, hproto⟩ := hs.prototype
  have hvar : s.value.flow.tree.varOf s.value.own.prototype = .ok v := by
    obtain ⟨o', hs, hv, -⟩ := hproto
    exact Tree.varOf_ok.2 ⟨o', Tree.node?_eq_some.2 ⟨_, hs, rfl⟩, hv⟩
  obtain ⟨huse, hshape₁, hown₁⟩ := Bench.liftTree_ok htarget
  obtain ⟨hnew, hshape₂, hown₂⟩ := Bench.liftTree_ok hphi
  obtain ⟨rfl, hloose, hsize₁, hkept₁⟩ := Tree.useLike_loose huse hvar
  obtain ⟨p, hpt, hkind, hmade, hadmits⟩ := hmake _ _ n _ hloose hnew
  have hsize₂ := hmade.size_le
  have hgraph := (Bench.graph_liftTree hphi).trans (Bench.graph_liftTree htarget)
  refine ⟨hown₂.trans hown₁, p, hkind, hadmits, hshape₁.trans hshape₂, ?_, hmade.holds,
    fun q hq => ?_, by omega, fun k hk => ?_⟩
  · funext c
    rw [FlowGraph.statements, FlowGraph.block?, hgraph]
    rfl
  · rcases List.mem_cons.1 hq with rfl | hq
    · have := hmade.fresh
      omega
    · rcases List.mem_cons.1 hq with rfl | hq
      · rw [hpt]
        exact Nat.le_refl _
      · have := hmade.fresh_operand q hq
        omega
  · have hkt : k ≠ p.target := by
      rintro rfl
      rw [hpt] at hk
      exact Nat.lt_irrefl _ hk
    rw [hmade.other k (by omega) hkt, hkept₁ k hk]

theorem Gains.placed {f f₁ f₂ : FlowGraph} {n : NodeId} {p : Phi} {slot : Slot}
    {change : List NodeId → List NodeId} (hgains : Gains f f₁ v n p)
    (hslot : f₁.tree.slot? n = some slot)
    (hplace : f₂ = f₁.withMove b change n { slot with block := some b }) :
    f.SameShape f₂ ∧ f.tree.size ≤ f₂.tree.size ∧
      (∀ k : NodeId, k.index < f.tree.size → f₂.tree.slot? k = f.tree.slot? k) ∧
      f₂.tree.HoldsPhi v n p (some b) := by
  obtain rfl : slot = ⟨.phi p, none, none⟩ := Option.some.inj (hslot.symm.trans hgains.holds.slot)
  have htree : f₂.tree = f₁.tree.put n ⟨.phi p, none, some b⟩ := by
    rw [hplace]
    rfl
  refine ⟨hgains.shape.trans ?_, ?_, fun k hlt => ?_, htree ▸ hgains.holds.put (some b)⟩
  · rw [hplace]
    exact FlowGraph.sameShape_withMove _ _ _ _ _
  · rw [htree, Tree.size_put]
    exact hgains.size
  · rw [htree, Tree.slot?_put_of_slot hslot, if_neg, hgains.kept k hlt]
    rintro rfl
    exact absurd (hgains.fresh k (by simp [Tree.HoldsPhi.nodes])) (Nat.not_le.2 hlt)

/-- A block without a phi of the variable begins with the phis that the base has there. -/
theorem Gains.leadingPhis {r : Roster} {f f₁ : FlowGraph} {n : NodeId} {p : Phi}
    (hgains : Gains f f₁ v n p) (h : Prepared rule base v scope reals r f) (hl : Listing base r f)
    (hnone : r.phi? b = none) : f₁.leadingPhis b = base.leadingPhis b := by
  rw [← hl.leadingPhis hnone h.kept]
  refine FlowGraph.leadingPhis_congr (congrFun hgains.statements b) fun m hm => ?_
  rw [hl.statements_of_none hnone] at hm
  rw [Tree.phiKind?, Tree.node?, hgains.kept m (Nat.lt_of_lt_of_le (hl.inside b m hm) h.kept.size),
    Tree.phiKind?, Tree.node?]

/-- A new phi is placed at a block that has none and goes on the roster. -/
theorem Gains.enter {r : Roster} {f f₁ f₂ : FlowGraph} {n : NodeId} {p : Phi} {slot : Slot}
    {record : BlockRecord} (hgains : Gains f f₁ v n p) (h : Prepared rule base v scope reals r f)
    (hl : Listing base r f) (hnone : r.phi? b = none) (hrecord : r.record? b = some record)
    (hadmits : rule base v b p.inputs) (hb : f₁.contains b = true)
    (hslot : f₁.tree.slot? n = some slot) (hplace : f₂ =
      f₁.withMove b (·.insertIdx (f₁.leadingPhis b) n) n { slot with block := some b }) :
    Prepared rule base v scope reals ((r.noteDefiningBlock b).setPhi b (some n)) f₂ ∧
      Listing base ((r.noteDefiningBlock b).setPhi b (some n)) f₂ ∧
      (∀ c, ((r.noteDefiningBlock b).setPhi b (some n)).kindAt? f₂ c =
        if c = b then some p.kind else r.kindAt? f c) ∧
      Advances ⟨f, r⟩ ⟨f₂, (r.noteDefiningBlock b).setPhi b (some n)⟩ := by
  obtain ⟨hshape, hsize, hold, hholds⟩ := hgains.placed hslot hplace
  have hspared (k : NodeId) (hk : Prepared.Relies base f v r k) := hold k (h.index_lt hk)
  have hframe : Prepared rule base v scope reals r f₂ := h.frame hshape hsize hspared
  have hnew : NewPhi rule base f₂ v b n p :=
    ⟨hholds, fun q hq => Nat.le_trans h.kept.size (hgains.fresh q hq), hadmits⟩
  have hphi : ((r.noteDefiningBlock b).setPhi b (some n)).phi? b = some n := by
    simp [phi?_setPhi, hrecord]
  have hother (c : BlockId) (hc : c ≠ b) :
      ((r.noteDefiningBlock b).setPhi b (some n)).phi? c = r.phi? c := by
    rw [phi?_setPhi_of_ne hc, phi?_noteDefiningBlock]
  have hcontains : base.contains b = true := by
    rwa [← h.shape.contains, ← hgains.shape.contains]
  refine ⟨(hframe.note hcontains).enter hnew (by simp), hl.place hnone hphi hother fun c => ?_,
    fun c => ?_, ⟨hsize, fun k hk => .inl (hold k hk)⟩, fun {w c m q} hm hq => .inl ⟨?_, ?_⟩⟩
  · rw [hplace, FlowGraph.statements_withMove, hgains.leadingPhis h hl hnone, hgains.statements]
    simp only [hb, and_true]
  · by_cases hc : c = b
    · rw [if_pos hc, hc, kindAt?, hphi, Option.bind_some, hnew.holds.phiKind?]
    · rw [if_neg hc, ← h.kindAt?_of_slots hspared c, kindAt?, hother c hc, kindAt?]
  · refine (hother c ?_).trans hm
    rintro rfl
    exact absurd (hm.symm.trans hnone) (by simp)
  · exact hq.of_slots fun k hk => hold k (hq.index_lt hk)

/-- What placing a phi does to a roster. -/
structure Places (kind : PhiKind) (b : BlockId) (added : Bool) (s s' : Bench Roster) : Prop where
  kinds : ∀ c, s'.own.kindAt? s'.flow c =
    if c = b then some (kind.over (s.own.kindAt? s.flow b)) else s.own.kindAt? s.flow c
  defining : added = true →
    s'.own.definingBlocks = (s.own.noteDefiningBlock b).definingBlocks
  refused : added = false → s' = s ∧ (s.own.phi? b).isSome
  sameReals : s'.own.reals = s.own.reals
  advances : Advances s s'

theorem place_ok {kind : PhiKind} {make : NodeId → Edit Tree NodeId} {added : Bool}
    (h : place kind b make s = .ok added s')
    (hs : Prepared rule base v scope reals s.value.own s.value.flow)
    (hl : Listing base s.value.own s.value.flow) (hmake : Makes rule base v kind b make) :
    Prepared rule base v scope reals s'.value.own s'.value.flow ∧
      Listing base s'.value.own s'.value.flow ∧ Places kind b added s.value s'.value := by
  simp only [place, Edit.bind_ok] at h
  obtain ⟨room, m, hroom, h⟩ := h
  obtain ⟨hm, hlm, hworks, hmade, hrefused⟩ := makeRoom_ok hroom hs hl
  cases room with
  | false =>
    obtain ⟨rfl, rfl⟩ := Edit.pure_ok.1 h
    obtain ⟨rfl, hkind⟩ := hrefused rfl
    refine ⟨hm, hlm, fun c => ?_, by simp, fun _ => ⟨rfl, ?_⟩, rfl, hworks.advances⟩
    · by_cases hc : c = b
      · rw [if_pos hc, hc, ← hkind]
      · rw [if_neg hc]
    · rw [← hm.isSome_kindAt?, hkind]
      rfl
  | true =>
    obtain ⟨hnone, hover⟩ := hmade rfl
    simp only [Bool.not_true, Bool.false_eq_true, if_false, Edit.bind_ok, Edit.get_ok,
      askRoster_ok, Edit.pure_ok] at h
    obtain ⟨_, _, ⟨rfl, rfl⟩, target, m₁, htarget, n, m₂, hphi, _, m₃, hplace, record, _,
      ⟨hrecord, rfl⟩, _, m₄, henter, _, m₅, hreport, rfl, rfl⟩ := h
    obtain ⟨hown₂, p, hkind, hadmits, hgains⟩ := gains_of_make hm htarget hphi hmake
    obtain ⟨hplace, hown₃⟩ := Bench.liftFlow_ok hplace
    obtain ⟨hflow₄, hown₄⟩ := Bench.modifyOwn_ok henter
    obtain ⟨hb, slot, hslot, hmove⟩ := FlowGraph.prependStatement_ok hplace
    obtain ⟨-, -, hr⟩ := recordAt_ok.1 hrecord
    rw [hown₃, hown₂] at hr
    obtain ⟨hready, hlisting, hkinds, hadvances⟩ :=
      hgains.enter hm hlm hnone hr hadmits hb hslot hmove
    have hfinal :
        m₅.value = ⟨m₃.value.flow, (m.value.own.noteDefiningBlock b).setPhi b (some n)⟩ := by
      rw [Bench.report_ok hreport, ← noteDefiningBlock_setPhi, ← hown₂, ← hown₃, ← hown₄, ← hflow₄]
    rw [hfinal]
    refine ⟨hready, hlisting, fun c => ?_, fun _ => ?_, by simp, ?_,
      hworks.advances.trans hadvances⟩
    · rw [hkinds, hover, hkind]
      by_cases hc : c = b
      · rw [if_pos hc, if_pos hc]
      · rw [if_neg hc, if_neg hc, hworks.kinds c hc]
    · show (m.value.own.noteDefiningBlock b).definingBlocks = _
      rw [noteDefiningBlock_eq, noteDefiningBlock_eq, hworks.defining]
    · show (m.value.own.noteDefiningBlock b).reals = _
      rw [noteDefiningBlock_eq, hworks.sameReals]

end RosterEdit

end MethodFlow
