import MethodFlow.Proofs.Flow.Coherence
import MethodFlow.Proofs.Ssa.Roster
import MethodFlow.Ssa.Conversion

/-!
The occurrences of a variable on its roster. They are entered one after another, each under the
block that it is in.
-/

namespace MethodFlow

def Tree.home? (t : Tree) (n : NodeId) : Option BlockId :=
  match t.blockOf n with
  | .ok block => block
  | .error _ => none

/-- The occurrences of one variable in the blocks that can be reached. -/
def FlowGraph.Reached (f : FlowGraph) (v : Var) (reals : BlockId → List NodeId) (n : NodeId)
    (w : Var) : Prop :=
  w = v ∧ ∃ b ∈ f.graph.reversePostorder entry, n ∈ reals b

/-- Occurrences of one variable, sorted by the blocks that they are in. -/
structure Lies (base : FlowGraph) (v : Var) (reals : BlockId → List NodeId) (nodes : List NodeId) :
    Prop where
  nodes : nodes = base.preorder.flatMap reals
  nodup : ∀ b, (reals b).Nodup
  var : ∀ b, ∀ n ∈ reals b, base.tree.varOf n = .ok v
  block : ∀ b, ∀ n ∈ reals b, base.tree.blockOf n = .ok (some b)

namespace Lies

variable {base : FlowGraph} {v : Var} {reals : BlockId → List NodeId} {nodes : List NodeId}

theorem home (h : Lies base v reals nodes) {b : BlockId} {n : NodeId} (hn : n ∈ reals b) :
    base.tree.home? n = some b := by
  rw [Tree.home?, h.block b n hn]

theorem index_lt (h : Lies base v reals nodes) {b : BlockId} {n : NodeId} (hn : n ∈ reals b) :
    n.index < base.tree.size := by
  obtain ⟨o, ho, -⟩ := Tree.varOf_ok.1 (h.var b n hn)
  obtain ⟨s, hs, -⟩ := Tree.node?_eq_some.1 ho
  exact Tree.index_lt_size hs

theorem exists_block (h : Lies base v reals nodes) {n : NodeId} (hn : n ∈ nodes) :
    ∃ b ∈ base.preorder, n ∈ reals b := List.mem_flatMap.1 (h.nodes ▸ hn)

theorem varOf (h : Lies base v reals nodes) {n : NodeId} (hn : n ∈ nodes) :
    base.tree.varOf n = .ok v := by
  obtain ⟨b, -, hb⟩ := h.exists_block hn
  exact h.var b n hb

theorem nodup_nodes (h : Lies base v reals nodes) (hblocks : base.preorder.Nodup) :
    nodes.Nodup := by
  rw [h.nodes, List.nodup_flatMap]
  refine ⟨fun b _ => h.nodup b, hblocks.imp fun hne => ?_⟩
  intro n hn hn'
  exact hne (Option.some.inj ((h.home hn).symm.trans (h.home hn')))

theorem filter_home (h : Lies base v reals nodes) (hblocks : base.preorder.Nodup) {b : BlockId}
    (hb : b ∈ base.preorder) : nodes.filter (fun n => base.tree.home? n = some b) = reals b := by
  obtain ⟨before, after, hsplit⟩ := List.append_of_mem hb
  have hother (cs : List BlockId) (hcs : ∀ c ∈ cs, c ≠ b) :
      (cs.flatMap reals).filter (fun n => base.tree.home? n = some b) = [] := by
    rw [List.filter_eq_nil_iff]
    intro n hn
    obtain ⟨c, hc, hnc⟩ := List.mem_flatMap.1 hn
    simp [h.home hnc, hcs c hc]
  have hself : (reals b).filter (fun n => base.tree.home? n = some b) = reals b := by
    rw [List.filter_eq_self]
    intro n hn
    simp [h.home hn]
  rw [hsplit] at hblocks
  have hne : ∀ c ∈ before ++ after, c ≠ b := by
    rintro c hc rfl
    rw [List.nodup_middle] at hblocks
    exact (List.nodup_cons.1 hblocks).1 hc
  rw [h.nodes, hsplit, List.flatMap_append, List.flatMap_cons, List.filter_append,
    List.filter_append, hself, hother before fun c hc => hne c (by simp [hc]),
    hother after fun c hc => hne c (by simp [hc])]
  simp

/-- Occurrences met in the order of the blocks stay in their order as they are sorted by block. -/
theorem flatMap_home (h : Lies base v reals nodes) {blocks : List BlockId} (hblocks : blocks.Nodup)
    {before after : List NodeId} (hsplit : blocks.flatMap reals = before ++ after) :
    (blocks.flatMap fun b => before.filter fun n => base.tree.home? n = some b) = before := by
  induction blocks generalizing before with
  | nil => exact (List.append_eq_nil_iff.1 hsplit.symm).1.symm
  | cons c rest ih =>
    obtain ⟨hc, hrest⟩ := List.nodup_cons.1 hblocks
    have helsewhere {xs : List NodeId} {b b' : BlockId} (hxs : xs ⊆ reals b) (hne : b ≠ b') :
        xs.filter (fun n => base.tree.home? n = some b') = [] := by
      rw [List.filter_eq_nil_iff]
      intro n hn
      simp [h.home (hxs hn), hne]
    have hhere {xs : List NodeId} {b : BlockId} (hxs : xs ⊆ reals b) :
        xs.filter (fun n => base.tree.home? n = some b) = xs := by
      rw [List.filter_eq_self]
      intro n hn
      simp [h.home (hxs hn)]
    rw [List.flatMap_cons] at hsplit ⊢
    rcases List.append_eq_append_iff.1 hsplit with ⟨more, rfl, hmore⟩ | ⟨left, hleft, -⟩
    · have hmoved : more.filter (fun n => base.tree.home? n = some c) = [] := by
        rw [List.filter_eq_nil_iff]
        intro n hn
        obtain ⟨b, hb, hnb⟩ := List.mem_flatMap.1 (hmore ▸ List.mem_append_left _ hn)
        have hne : b ≠ c := fun he => hc (he ▸ hb)
        simp [h.home hnb, hne]
      rw [List.filter_append, hhere (List.Subset.refl _), hmoved, List.append_nil]
      congr 1
      refine (List.flatMap_congr fun b hb => ?_).trans (ih hrest hmore)
      have hne : c ≠ b := fun he => hc (he ▸ hb)
      rw [List.filter_append, helsewhere (List.Subset.refl _) hne, List.nil_append]
    · have hsub : before ⊆ reals c := by simp [hleft]
      rw [hhere hsub, List.flatMap_eq_nil_iff.2 fun b hb => ?_, List.append_nil]
      exact helsewhere hsub fun he => hc (he ▸ hb)

end Lies

namespace Roster

variable {rule : Rule} {base f f' : FlowGraph} {v : Var} {scope : NodeId → Var → Prop}
  {reals : BlockId → List NodeId} {r : Roster}

/-- A roster and a graph that work on `base` has led to. The occurrences are on the roster in the
order of the blocks. A block counts as defining the variable for its phi or for one of its
occurrences. -/
structure Ready (rule : Rule) (base : FlowGraph) (v : Var) (scope : NodeId → Var → Prop)
    (reals : BlockId → List NodeId) (s : Bench Roster) : Prop where
  prepared : Prepared rule base v scope reals s.own s.flow
  listing : Listing base s.own s.flow
  order : s.own.reals = base.preorder.flatMap reals
  sourced : ∀ b ∈ s.own.definingBlocks,
    (s.own.phi? b).isSome ∨ ∃ n ∈ reals b, base.tree.defines n

theorem phi?_eq_none {b : BlockId} (h : ∀ record ∈ r.records, record.phi = none) :
    r.phi? b = none := by
  cases hphi : r.phi? b with
  | none => rfl
  | some n =>
    obtain ⟨record, hr, hn⟩ := phi?_eq_some.1 hphi
    simp [h record (mem_of_record? hr)] at hn

theorem varOf_of_start {first : NodeId} (h : start first f = .ok r f') :
    f.tree.varOf first = .ok r.var := by
  simp only [start, Edit.bind_ok, Edit.ask_ok, Edit.get_ok, Edit.pure_ok] at h
  obtain ⟨v, _, ⟨hv, rfl⟩, prototype, m, -, _, _, ⟨rfl, rfl⟩, rfl, rfl⟩ := h
  exact hv

/-- A new roster lists the blocks and nothing else. -/
theorem start_ok {first : NodeId} (h : start first f = .ok r f') (hvar : f.tree.varOf first = .ok v)
    (inside : ∀ b, ∀ n ∈ f.statements b, n.index < f.tree.size) :
    Ready rule f v scope (fun _ => []) ⟨f', r⟩ ∧ ∀ b, r.phi? b = none := by
  simp only [start, Edit.bind_ok, Edit.ask_ok, Edit.get_ok, Edit.pure_ok] at h
  obtain ⟨v', _, ⟨hv', rfl⟩, prototype, m, huse, _, _, ⟨rfl, rfl⟩, rfl, rfl⟩ := h
  obtain rfl : v = v' := by simpa [hvar] using hv'
  obtain ⟨tree, hnew, rfl⟩ := FlowGraph.liftTree_ok.1 huse
  obtain ⟨rfl, hloose, hsize, hkept⟩ := Tree.useLike_loose hnew hvar
  have hshape := FlowGraph.SameShape.withTree f tree
  have hrecords : ∀ record ∈ f.preorder.map fun block => ({ block } : BlockRecord),
      record.phi = none ∧ record.reals = [] := by
    intro record hr
    obtain ⟨c, -, rfl⟩ := List.mem_map.1 hr
    exact ⟨rfl, rfl⟩
  have hnone {record : BlockRecord}
      (hr : record ∈ { f with tree }.preorder.map fun block => ({ block } : BlockRecord)) :
      record.phi = none := (hrecords record (hshape.preorder ▸ hr)).1
  refine ⟨⟨?_, ⟨inside, fun b => ?_⟩, by simp, by simp⟩,
    fun b => phi?_eq_none fun _ hr => hnone hr⟩
  · exact {
      var := rfl
      all := by simp
      shape := hshape
      kept := .of_slots (by simp [hsize]) hkept
      stamp := hshape.stamp
      blocks := by
        rw [hshape.preorder, List.map_map]
        exact List.map_id _
      listed := fun b record hr => (hrecords record (hshape.preorder ▸ mem_of_record? hr)).2
      prototype := ⟨Nat.le_refl _, hloose⟩
      phi := fun b n hn => by
        rw [phi?_eq_none fun _ hr => hnone hr] at hn
        simp at hn
      defining := by
        rintro b - (hsome | ⟨n, hn, -⟩)
        · rw [phi?_eq_none fun _ hr => hnone hr] at hsome
          simp at hsome
        · simp at hn
      nodup := List.nodup_nil
      contained := by simp }
  · rw [phi?_eq_none fun _ hr => hnone hr]
    simp [FlowGraph.statements, FlowGraph.block?]

theorem blockOfReal_ok {n : NodeId} {b : BlockId} (h : r.blockOfReal f n = .ok b) :
    f.tree.blockOf n = .ok (some b) := by
  simp only [blockOfReal, Except.bind_eq_ok] at h
  obtain ⟨found, -, h⟩ := h
  by_cases hvar : found = r.var
  · simp only [hvar, ne_eq, not_true, if_false, Except.bind_eq_ok] at h
    obtain ⟨block, hblock, h⟩ := h
    cases block with
    | none => simp at h
    | some c => rw [hblock, Except.pure_eq_ok.1 h]
  · simp [hvar] at h

theorem noteDefiningBlock_noteReal (r : Roster) (b : BlockId) (n : NodeId) :
    (r.noteReal b n).noteDefiningBlock b = (r.noteDefiningBlock b).noteReal b n := by
  rw [noteDefiningBlock_eq, noteDefiningBlock_eq]
  rfl

theorem record?_noteReal (r : Roster) (b c : BlockId) (n : NodeId) :
    (r.noteReal b n).record? c = if c = b then
      (r.record? c).map (fun record => { record with reals := record.reals ++ [n] })
      else r.record? c :=
  record?_modifyRecord (g := fun record => { record with reals := record.reals ++ [n] })
    fun _ => rfl

@[simp] theorem phi?_noteReal (r : Roster) (b c : BlockId) (n : NodeId) :
    (r.noteReal b n).phi? c = r.phi? c := by
  rw [phi?, record?_noteReal, phi?]
  split
  · cases r.record? c <;> rfl
  · rfl

theorem Prepared.noteReal (h : Prepared rule base v scope reals r f) {b : BlockId}
    (hb : b ∈ base.preorder) {n : NodeId} (hdefines : base.tree.defines n → b ∈ r.definingBlocks) :
    Prepared rule base v scope (fun c => if c = b then reals c ++ [n] else reals c)
      (r.noteReal b n) f := by
  exact { h with
    all := fun m => by
      show m ∈ r.reals ++ [n] ↔ _
      rw [List.mem_append, h.all, List.mem_singleton]
      constructor
      · rintro (⟨c, hc, hm⟩ | rfl)
        · exact ⟨c, hc, by split <;> simp [hm]⟩
        · exact ⟨b, hb, by simp⟩
      · rintro ⟨c, hc, hm⟩
        split at hm
        · rcases List.mem_append.1 hm with hm | hm
          · exact .inl ⟨c, hc, hm⟩
          · exact .inr (List.mem_singleton.1 hm)
        · exact .inl ⟨c, hc, hm⟩
    blocks := (blocks_modifyRecord (g := fun record =>
      { record with reals := record.reals ++ [n] }) fun _ => rfl).trans h.blocks
    listed := fun c record hr => by
      rw [record?_noteReal] at hr
      split at hr
      · next hc =>
        obtain ⟨old, hold, rfl⟩ := Option.map_eq_some_iff.1 hr
        simp [hc, h.listed c old hold]
      · next hc => simp [hc, h.listed c record hr]
    phi := fun c m hm => h.phi c m (phi?_noteReal r b c n ▸ hm)
    defining := fun c hc hd => by
      rw [phi?_noteReal] at hd
      rcases hd with hsome | ⟨m, hm, hd⟩
      · exact h.defining c hc (.inl hsome)
      · split at hm
        · next hcb =>
          rcases List.mem_append.1 hm with hm | hm
          · exact h.defining c hc (.inr ⟨m, hm, hd⟩)
          · rw [List.mem_singleton.1 hm] at hd
            exact hcb ▸ hdefines hd
        · exact h.defining c hc (.inr ⟨m, hm, hd⟩) }

def noteDefinition (r : Roster) (f : FlowGraph) (b : BlockId) (n : NodeId) : Roster :=
  if f.tree.defines n then r.noteDefiningBlock b else r

section

variable {b c : BlockId} {n : NodeId}

@[simp] theorem phi?_noteDefinition : (r.noteDefinition f b n).phi? c = r.phi? c := by
  unfold noteDefinition
  split <;> simp

@[simp] theorem reals_noteDefinition : (r.noteDefinition f b n).reals = r.reals := by
  unfold noteDefinition
  split
  · rw [noteDefiningBlock_eq]
  · rfl

@[simp] theorem mem_noteDefinition : c ∈ (r.noteDefinition f b n).definingBlocks ↔
    c = b ∧ f.tree.defines n ∨ c ∈ r.definingBlocks := by
  unfold noteDefinition
  split
  · next hd => simp [hd]
  · next hd => simp [hd]

theorem Prepared.noteDefinition (h : Prepared rule base v scope reals r f)
    (hb : base.contains b = true) :
    Prepared rule base v scope reals (r.noteDefinition f b n) f := by
  unfold Roster.noteDefinition
  split
  · exact h.note hb
  · exact h

theorem Prepared.defines (h : Prepared rule base v scope reals r f) (hd : base.tree.defines n) :
    f.tree.defines n := by
  obtain ⟨o, ho, -⟩ := Tree.isDefinition_ok.1 (Tree.isDefinition_iff_defines.2 hd)
  rw [h.kept.defines (Tree.varOf_ok.2 ⟨o, ho, rfl⟩), hd]

/-- Taking up an occurrence. One that is on the roster already changes nothing. -/
theorem withReal_ok (h : r.withReal f n = .ok r') :
    ∃ b record, f.tree.blockOf n = .ok (some b) ∧ f.contains b = true ∧ r.record? b = some record ∧
      r' = if n ∈ record.reals then r else (r.noteDefinition f b n).noteReal b n := by
  simp only [withReal, Except.bind_eq_ok] at h
  obtain ⟨b, hb, record, hrecord, h⟩ := h
  obtain ⟨-, hcontains, hrecord⟩ := recordAt_ok.1 hrecord
  refine ⟨b, record, blockOfReal_ok hb, hcontains, hrecord, ?_⟩
  split at h
  · next hin => rw [if_pos hin, Except.pure_eq_ok.1 h]
  · next hin =>
    simp only [Except.bind_eq_ok] at h
    obtain ⟨defines, hdefines, h⟩ := h
    have hsame : f.tree.defines n = defines := Tree.defines_of_isDefinition hdefines
    rw [if_neg hin, Roster.noteDefinition, hsame]
    cases defines with
    | true => exact (Except.pure_eq_ok.1 h).symm.trans (noteDefiningBlock_noteReal r b n)
    | false => exact (Except.pure_eq_ok.1 h).symm

end

theorem Prepared.congr (h : Prepared rule base v scope reals r f) {reals' : BlockId → List NodeId}
    (hreals : ∀ b ∈ base.preorder, reals' b = reals b) : Prepared rule base v scope reals' r f :=
  { h with
    all := fun n => by
      rw [h.all]
      refine exists_congr fun b => and_congr_right fun hb => ?_
      rw [hreals b hb]
    listed := fun b record hr => by
      have hb : b ∈ base.preorder := by
        rw [← h.blocks, ← block_of_record? hr]
        exact List.mem_map_of_mem (mem_of_record? hr)
      rw [hreals b hb, h.listed b record hr]
    defining := fun b hb hd => h.defining b hb (by rwa [hreals b hb] at hd) }

theorem Ready.congr {s : Bench Roster} (h : Ready rule base v scope reals s) (framed : base.Framed)
    {reals' : BlockId → List NodeId} (hreals : ∀ b ∈ base.preorder, reals' b = reals b) :
    Ready rule base v scope reals' s where
  prepared := h.prepared.congr hreals
  listing := h.listing
  order := by rw [h.order, List.flatMap_congr hreals]
  sourced b hb := by
    have hmem := (FlowGraph.mem_preorder framed.closed framed.entry).2 (h.prepared.contained b hb)
    rw [hreals b hmem]
    exact h.sourced b hb

end Roster

namespace RosterEdit

open Roster

variable {rule : Rule} {base : FlowGraph} {v : Var} {scope : NodeId → Var → Prop}
  {reals : BlockId → List NodeId}
  {s s' : Recorded (Bench Roster)}

/-- An occurrence that is not on the roster yet is entered in the block that it is in, which is the
last to have any so far. -/
theorem addReal_ok {b : BlockId} {n : NodeId} {u : Unit} (h : addReal n s = .ok u s')
    (hs : Ready rule base v scope reals s.value) (hb : b ∈ base.preorder)
    (hvar : base.tree.varOf n = .ok v) (hblock : base.tree.blockOf n = .ok (some b))
    (hnew : n ∉ reals b)
    (hlast : (base.preorder.flatMap fun c => if c = b then reals c ++ [n] else reals c) =
      base.preorder.flatMap reals ++ [n]) :
    Ready rule base v scope (fun c => if c = b then reals c ++ [n] else reals c) s'.value ∧
      s'.value.own.phi? = s.value.own.phi? := by
  obtain ⟨hprepared, hlisting, horder, hsourced⟩ := hs
  rw [← horder] at hlast
  simp only [addReal, Edit.bind_ok, askRoster_ok] at h
  obtain ⟨r, _, ⟨hr, rfl⟩, hmodify⟩ := h
  obtain ⟨hflow, hown⟩ := Bench.modifyOwn_ok hmodify
  obtain ⟨b', record, hblock', hcontains, hrecord, rfl⟩ := withReal_ok hr
  obtain rfl : b = b' := by
    rw [hprepared.kept.keepsPlaces.blockOf hblock, Except.ok.injEq, Option.some.injEq] at hblock'
    exact hblock'
  rw [hprepared.shape.contains] at hcontains
  rw [hprepared.listed b record hrecord, if_neg hnew] at hown
  have hphi : s'.value.own.phi? = s.value.own.phi? := by
    funext c
    rw [hown, phi?_noteReal, phi?_noteDefinition]
  have hreals : s'.value.own.reals = s.value.own.reals ++ [n] := by
    rw [hown]
    exact congrArg (· ++ [n]) reals_noteDefinition
  refine ⟨⟨?_, hlisting.congr hphi (by rw [hflow]), hreals.trans hlast.symm, fun c hc => ?_⟩, hphi⟩
  · rw [hflow, hown]
    exact (hprepared.noteDefinition hcontains).noteReal hb fun hd =>
      mem_noteDefinition.2 (.inl ⟨rfl, hprepared.defines hd⟩)
  · rw [hown] at hc
    rw [hphi]
    rcases mem_noteDefinition.1 hc with ⟨rfl, hd⟩ | hc
    · rw [hprepared.kept.defines hvar] at hd
      exact .inr ⟨n, by simp, hd⟩
    · refine (hsourced c hc).imp_right ?_
      rintro ⟨m, hm, hd⟩
      exact ⟨m, by split <;> simp [hm], hd⟩

/-- The occurrences entered so far are sorted by block, and so they are with one more. -/
theorem addReal_home {nodes before after : List NodeId} {n : NodeId} {u : Unit}
    (h : addReal n s = .ok u s')
    (hs : Ready rule base v scope
      (fun b => before.filter fun n => base.tree.home? n = some b) s.value)
    (hlies : Lies base v reals nodes) (framed : base.Framed)
    (hsplit : nodes = before ++ n :: after) :
    Ready rule base v scope (fun b => (before ++ [n]).filter fun n => base.tree.home? n = some b)
      s'.value ∧ s'.value.own.phi? = s.value.own.phi? := by
  obtain ⟨b, hb, hn⟩ := hlies.exists_block (show n ∈ nodes by simp [hsplit])
  have hblocks := FlowGraph.nodup_preorder framed.closed framed.entry
  have hnew : n ∉ before.filter fun n => base.tree.home? n = some b := by
    have hnodup := hlies.nodup_nodes hblocks
    rw [hsplit, List.nodup_middle] at hnodup
    intro hmem
    exact (List.nodup_cons.1 hnodup).1 (List.mem_append_left _ (List.mem_filter.1 hmem).1)
  have hmore (c : BlockId) : ((before ++ [n]).filter fun n => base.tree.home? n = some c) =
      if c = b then (before.filter fun n => base.tree.home? n = some c) ++ [n]
      else before.filter fun n => base.tree.home? n = some c := by
    have hhome := hlies.home hn
    by_cases hcb : c = b
    · simp [hcb, hhome]
    · simp [hcb, hhome, Ne.symm hcb]
  have hsplit' : base.preorder.flatMap reals = (before ++ [n]) ++ after := by
    rw [← hlies.nodes, hsplit, List.append_cons]
  have hlast := hlies.flatMap_home hblocks hsplit'
  rw [List.flatMap_congr fun c _ => hmore c] at hlast
  obtain ⟨hs', hphi⟩ := addReal_ok h hs hb (hlies.var b n hn) (hlies.block b n hn) hnew
    (by rw [hlast, hlies.flatMap_home hblocks (hlies.nodes.symm.trans hsplit)])
  exact ⟨hs'.congr framed fun c _ => hmore c, hphi⟩

/-- Entering all occurrences of a variable sorts them by block. -/
theorem addReals_ok {nodes : List NodeId} {u : Unit} (h : nodes.forM addReal s = .ok u s')
    (hs : Ready rule base v scope (fun _ => []) s.value) (hlies : Lies base v reals nodes)
    (framed : base.Framed) :
    Ready rule base v scope reals s'.value ∧ s'.value.own.phi? = s.value.own.phi? := by
  have hblocks := FlowGraph.nodup_preorder framed.closed framed.entry
  have hrun := Edit.forM_ok h (fun before m => Ready rule base v scope
    (fun b => before.filter fun n => base.tree.home? n = some b) m.value ∧
    m.value.own.phi? = s.value.own.phi?) ⟨by simpa using hs, rfl⟩ ?_
  · exact ⟨hrun.1.congr framed fun b hb => (hlies.filter_home hblocks hb).symm, hrun.2⟩
  · rintro before n after m m' hsplit ⟨hm, hphi⟩ hadd
    obtain ⟨hm', hphi'⟩ := addReal_home hadd hm hlies framed hsplit
    exact ⟨hm', hphi'.trans hphi⟩

end RosterEdit

end MethodFlow
