import MethodFlow.Proofs.Ssa.Placement
import MethodFlow.Proofs.Ssa.Reaching

/-!
Renaming writes to each use and to each operand that an edge feeds the definition that reaches it.
There is one right link for each of them, so what is linked rightly stays so.
-/

namespace MethodFlow

/-- The operands that an edge from `b` to `m` feeds in a phi at `m`. -/
def Phi.fed (p : Phi) (subroutine? : SubroutineId → Option Subroutine) (b m : BlockId) :
    List NodeId :=
  match p.inputs with
  | .joining _ operands => (PhiInputs.find? operands b).toList
  | .catching _ => []
  | .returning s operands =>
    match subroutine? s with
    | none => []
    | some sub =>
      if sub.exit = some b then (sub.callsReturningTo m).filterMap (PhiInputs.find? operands)
      else []

theorem PhiInputs.mem_of_find? {operands : List (BlockId × NodeId)} {key : BlockId} {q : NodeId}
    (h : PhiInputs.find? operands key = some q) : (key, q) ∈ operands := by
  obtain ⟨⟨key', q'⟩, hfind, rfl⟩ := Option.map_eq_some_iff.1 h
  obtain rfl : key' = key := by simpa using List.find?_some hfind
  exact List.mem_of_find?_eq_some hfind

theorem Phi.mem_operands_of_fed {p : Phi} {subroutine? : SubroutineId → Option Subroutine}
    {b m : BlockId} {q : NodeId} (h : q ∈ p.fed subroutine? b m) : q ∈ p.operands := by
  unfold Phi.fed at h
  unfold Phi.operands
  split at h
  · next hp =>
    simp only [hp]
    exact List.mem_map_of_mem (PhiInputs.mem_of_find? (Option.mem_toList.1 h))
  · simp at h
  · next hp =>
    simp only [hp]
    split at h
    · simp at h
    · split at h
      · obtain ⟨call, -, hfind⟩ := List.mem_filterMap.1 h
        exact List.mem_map_of_mem (PhiInputs.mem_of_find? hfind)
      · simp at h

/-- An operand is fed from one block only. -/
theorem Phi.source_of_fed {p : Phi} {subroutine? : SubroutineId → Option Subroutine}
    {b b' m : BlockId} {q : NodeId} (nodup : p.operands.Nodup) (h : q ∈ p.fed subroutine? b m)
    (h' : q ∈ p.fed subroutine? b' m) : b = b' := by
  unfold Phi.fed at h h'
  unfold Phi.operands at nodup
  split at h
  · next hp =>
    simp only [hp] at h' nodup
    have hb := PhiInputs.mem_of_find? (Option.mem_toList.1 h)
    have hb' := PhiInputs.mem_of_find? (Option.mem_toList.1 h')
    exact congrArg Prod.fst (List.inj_on_of_nodup_map nodup hb hb' rfl)
  · simp at h
  · next hp =>
    simp only [hp] at h'
    split at h
    · simp at h
    · next hsub =>
      simp only [hsub] at h'
      split at h
      · next hb =>
        split at h'
        · next hb' => exact Option.some.inj (hb.symm.trans hb')
        · simp at h'
      · simp at h

theorem Renaming.fedOperands_ok {f : FlowGraph} {phi : NodeId} {b m : BlockId} {qs : List NodeId}
    (h : fedOperands f phi b m = .ok qs) :
    ∃ p, f.tree.node? phi = some (.phi p) ∧ qs = p.fed f.subroutine? b m := by
  simp only [fedOperands, Except.bind_eq_ok, Tree.phi_ok] at h
  obtain ⟨p, hp, h⟩ := h
  refine ⟨p, hp, ?_⟩
  unfold Phi.fed
  cases hinputs : p.inputs with
  | joining block operands =>
    simp only [hinputs, Except.bind_eq_ok, Tree.joinOperandAt_ok] at h
    obtain ⟨_, ⟨p', block', operands', hp', hinputs', rfl⟩, h⟩ := h
    obtain rfl : p = p' := by simpa [hp] using hp'
    obtain rfl : operands = operands' := by
      rw [hinputs, PhiInputs.joining.injEq] at hinputs'
      exact hinputs'.2
    exact (Except.pure_eq_ok.1 h).symm
  | catching operands =>
    simp only [hinputs] at h
    exact (Except.pure_eq_ok.1 h).symm
  | returning s operands =>
    simp only [hinputs] at h ⊢
    cases hsub : f.subroutine? s with
    | none =>
      rw [hsub] at h
      exact (Except.pure_eq_ok.1 h).symm
    | some sub =>
      simp only [hsub] at h
      by_cases hexit : sub.exit = some b
      · simp only [hexit, ne_eq, not_true, if_false, Except.bind_eq_ok] at h ⊢
        obtain ⟨found, hfound, h⟩ := h
        have hmap := Except.mapM_ok hfound (g := PhiInputs.find? operands) ?_
        · rw [← Except.pure_eq_ok.1 h, hmap, List.filterMap_map]
          rfl
        · intro call _ y hy
          simp only [Tree.returnOperandAt, Except.bind_eq_ok, Tree.phi_ok, hp] at hy
          obtain ⟨p', hp', hy⟩ := hy
          obtain rfl := Node.phi.inj (Option.some.inj hp')
          simp only [hinputs] at hy
          exact (Except.pure_eq_ok.1 hy).symm
      · simp only [hexit, ne_eq, not_false_eq_true, if_true] at h
        simp [← Except.pure_eq_ok.1 h, hexit]

/-- A conversion of one variable, as it stands when its phis are placed: the graph `base` that it
began with, the occurrences `reals` in each block, the roster, and the graph `graph` with the
phis. -/
structure Plan where
  options : SsaOptions
  base : FlowGraph
  var : Var
  reals : BlockId → List NodeId
  roster : Roster
  graph : FlowGraph

namespace Plan

variable (k : Plan)

def scope : NodeId → Var → Prop := k.base.Reached k.var k.reals

/-- The graph still holds what the plan relies on, and its phis are those of the plan. Phis at
handlers may have other operands. -/
structure Fits (f : FlowGraph) : Prop where
  prepared : Roster.Prepared (Roster.Admits k.options) k.base k.var k.scope k.reals k.roster f
  phi : ∀ b n p, k.roster.phi? b = some n → k.graph.tree.node? n = some (.phi p) →
    ∃ p', f.tree.node? n = some (.phi p') ∧ p'.target = p.target ∧
      (p'.inputs = p.inputs ∨
        (∃ operands, p.inputs = .catching operands) ∧ ∃ operands, p'.inputs = .catching operands)

def start (b : BlockId) : Option NodeId := k.roster.atHead k.graph k.reals b

def leaving (b : BlockId) : Option NodeId := k.roster.leaving k.graph k.reals b

def live (b : BlockId) : List NodeId := k.roster.live k.graph k.reals b

/-- The right link `d` of a node that is linked when the block `b` is renamed. -/
inductive Due : BlockId → NodeId → Option NodeId → Prop
  | use {b : BlockId} {before after : List NodeId} {n : NodeId}
      (split : k.reals b = before ++ n :: after) (use : k.graph.tree.defines n = false) :
      Due b n ((k.graph.tree.lastDefinition before).or (k.start b))
  | fed {b m : BlockId} {phi q : NodeId} {p : Phi} (edge : m ∈ k.base.succs b)
      (phi_at : k.roster.phi? m = some phi) (inputs : k.graph.tree.node? phi = some (.phi p))
      (operand : q ∈ p.fed k.base.subroutine? b m) : Due b q (k.leaving b)

def Catches (f : FlowGraph) (phi d : NodeId) : Prop :=
  ∃ p q, f.tree.node? phi = some (.phi p) ∧ q ∈ p.operands ∧ f.tree.definitionOf q = .ok (some d)

/-- The definition is live in a block that can be reached, from which a handler may be entered at
`b`. -/
def Thrown (b : BlockId) (d : NodeId) : Prop :=
  ∃ c ∈ k.base.graph.reversePostorder FlowGraph.entry,
    (∃ h ∈ k.base.handlersProtecting c, h.entry = b) ∧ d ∈ k.live c

/-- The operands stand for different definitions that handlers at `b` may be entered with. -/
structure Collects (f : FlowGraph) (b : BlockId) (operands : List NodeId) : Prop where
  distinct : f.tree.Distinct operands
  thrown : ∀ q ∈ operands, ∃ d, f.tree.definitionOf q = .ok (some d) ∧ k.Thrown b d

/-- The phis at handlers have operands for definitions that the handlers may be entered with, one
for each at most. -/
def Gathered (f : FlowGraph) : Prop :=
  ∀ b phi p, k.roster.phi? b = some phi → f.tree.node? phi = some (.phi p) → p.kind = .catching →
    k.Collects f b p.operands

/-- What a block has to do with is done. -/
structure Passed (f : FlowGraph) (b : BlockId) : Prop where
  linked : ∀ n d, k.Due b n d → f.tree.linkOf n = .ok d
  caught : ∀ h ∈ k.base.handlersProtecting b, ∀ phi, k.roster.phi? h.entry = some phi →
    k.graph.tree.phiKind? phi = some .catching → ∀ d ∈ k.live b, Catches f phi d

/-- Work that leaves right links right, and what no block links as it is. -/
structure Advances (f f' : FlowGraph) : Prop where
  fits : k.Fits f'
  linked : ∀ b n d, k.Due b n d → f.tree.linkOf n = .ok d → f'.tree.linkOf n = .ok d
  still : ∀ n d, (∀ b ∈ k.base.graph.reversePostorder FlowGraph.entry, ∀ d', ¬k.Due b n d') →
    f.tree.linkOf n = .ok d → f'.tree.linkOf n = .ok d
  caught : ∀ b phi d, k.roster.phi? b = some phi → k.graph.tree.phiKind? phi = some .catching →
    Catches f phi d → Catches f' phi d
  gathered : k.Gathered f → k.Gathered f'

variable {k : Plan} {f f' f'' : FlowGraph}

namespace Collects

variable {b : BlockId} {operands : List NodeId} {q d : NodeId}

theorem nil (f : FlowGraph) (b : BlockId) : k.Collects f b [] := ⟨.nil, by simp⟩

/-- Operands go on standing for what they stood for. -/
theorem keep (h : k.Collects f b operands)
    (hdefs : ∀ q ∈ operands, ∀ d, f.tree.definitionOf q = .ok d → f'.tree.definitionOf q = .ok d) :
    k.Collects f' b operands := by
  refine ⟨h.distinct.congr fun q hq => ?_, fun q hq => ?_⟩
  · obtain ⟨d, hd, -⟩ := h.thrown q hq
    rw [hd, hdefs q hq _ hd]
  · obtain ⟨d, hd, hthrown⟩ := h.thrown q hq
    exact ⟨d, hdefs q hq _ hd, hthrown⟩

theorem concat (h : k.Collects f b operands) (hq : f.tree.definitionOf q = .ok (some d))
    (hnew : ∀ q' ∈ operands, f.tree.definitionOf q' ≠ .ok (some d)) (hd : k.Thrown b d) :
    k.Collects f b (operands ++ [q]) := by
  refine ⟨List.pairwise_append.2 ⟨h.distinct, List.pairwise_singleton _ _, fun q' hq' x hx => ?_⟩,
    fun q' hq' => ?_⟩
  · rw [List.mem_singleton.1 hx, hq]
    exact hnew q' hq'
  · rcases List.mem_append.1 hq' with hq' | hq'
    · exact h.thrown q' hq'
    · rw [List.mem_singleton.1 hq']
      exact ⟨d, hq, hd⟩

end Collects

theorem Advances.refl (h : k.Fits f) : k.Advances f f :=
  ⟨h, fun _ _ _ _ hl => hl, fun _ _ _ hl => hl, fun _ _ _ _ _ hc => hc, id⟩

theorem Advances.trans (h : k.Advances f f') (h' : k.Advances f' f'') : k.Advances f f'' :=
  ⟨h'.fits, fun b n d hd hl => h'.linked b n d hd (h.linked b n d hd hl),
    fun n d hnone hl => h'.still n d hnone (h.still n d hnone hl),
    fun b phi d hphi hk hc => h'.caught b phi d hphi hk (h.caught b phi d hphi hk hc),
    fun hg => h'.gathered (h.gathered hg)⟩

theorem Passed.advances {b : BlockId} (h : k.Passed f b) (h' : k.Advances f f') : k.Passed f' b :=
  ⟨fun n d hd => h'.linked b n d hd (h.linked n d hd),
    fun hd hmem phi hphi hk d hlive =>
      h'.caught _ phi d hphi hk (h.caught hd hmem phi hphi hk d hlive)⟩

/-- An occurrence that is renamed or was made for the plan may be given another link or number. This
changes no phi. -/
theorem Fits.relink {n : NodeId} {o : Occurrence} (h : k.Fits f) (hshape : f.SameShape f')
    (hr : f.tree.Relinks n o f'.tree) (hv : o.var = k.var)
    (hn : n.index < k.base.tree.size → k.scope n k.var) : k.Fits f' where
  prepared := h.prepared.retouch hshape hr.retouched fun m w hm hw => by
    obtain ⟨rfl, rfl⟩ := hw
    exact hv ▸ hn hm
  phi b m p hm hp := by
    have hkept := hr.retouched
    obtain ⟨p', hp', hrest⟩ := h.phi b m p hm hp
    obtain ⟨s, hs, hnode⟩ := Tree.node?_eq_some.1 hp'
    exact ⟨p', Tree.node?_eq_some.2 ⟨s, hkept.slot?_of_not hs (by simp [hnode]), hnode⟩, hrest⟩

/-- The plan is as its preparation leaves it. -/
structure Sound (k : Plan) (nodes : List NodeId) : Prop where
  fits : k.Fits k.graph
  lies : Lies k.base k.var k.reals nodes

variable {nodes : List NodeId} {b c : BlockId} {n q phi : NodeId} {p : Phi}

theorem Sound.newPhi (h : k.Sound nodes) (hphi : k.roster.phi? b = some phi)
    (hp : k.graph.tree.node? phi = some (.phi p)) :
    Roster.NewPhi (Roster.Admits k.options) k.base k.graph k.var b phi p :=
  h.fits.prepared.newPhi hphi hp

theorem before_eq_takeWhile {α : Type} [DecidableEq α] {l before after : List α} {x : α}
    (nodup : l.Nodup) (split : l = before ++ x :: after) : before = l.takeWhile (· ≠ x) := by
  rw [split, List.nodup_middle] at nodup
  have hout : ∀ y ∈ before, decide (y ≠ x) = true := by
    intro y hy
    refine decide_eq_true ?_
    rintro rfl
    exact (List.nodup_cons.1 nodup).1 (List.mem_append_left _ hy)
  rw [split, List.takeWhile_append_of_pos hout, List.takeWhile_cons_of_neg (by simp),
    List.append_nil]

theorem Due.of_operand (h : k.Sound nodes) (hphi : k.roster.phi? b = some phi)
    (hp : k.graph.tree.node? phi = some (.phi p)) (hq : q ∈ p.operands) {d : Option NodeId}
    (hd : k.Due c q d) :
    b ∈ k.base.succs c ∧ q ∈ p.fed k.base.subroutine? c b ∧ d = k.leaving c := by
  have hnew := h.newPhi hphi hp
  cases hd with
  | use hsplit _ =>
    have hold := h.lies.index_lt (b := c) (n := q) (by simp [hsplit])
    have hfresh := hnew.fresh q (by simp [Tree.HoldsPhi.nodes, hq])
    exact absurd hold (Nat.not_lt.2 hfresh)
  | fed hedge hphi' hp' hq' =>
    have hnew' := h.newPhi hphi' hp'
    obtain ⟨o, hs, -⟩ := hnew.holds.operand q hq
    obtain ⟨o', hs', -⟩ := hnew'.holds.operand q (Phi.mem_operands_of_fed hq')
    rw [hs, Option.some.injEq, Slot.mk.injEq] at hs'
    obtain rfl := Option.some.inj hs'.2.1
    rw [hp, Option.some.injEq, Node.phi.injEq] at hp'
    subst hp'
    obtain rfl := h.fits.prepared.phi?_injective hphi hphi'
    exact ⟨hedge, hq', rfl⟩

/-- There is one right link at most. -/
theorem Due.unique (h : k.Sound nodes) {d d' : Option NodeId} (hd : k.Due b n d)
    (hd' : k.Due c n d') : d = d' := by
  have hfed {b c m : BlockId} {phi : NodeId} {p : Phi} {d' : Option NodeId}
      (hphi : k.roster.phi? m = some phi) (hp : k.graph.tree.node? phi = some (.phi p))
      (hq : n ∈ p.fed k.base.subroutine? b m) (hd' : k.Due c n d') : k.leaving b = d' := by
    obtain ⟨-, hq', rfl⟩ := hd'.of_operand h hphi hp (Phi.mem_operands_of_fed hq)
    rw [Phi.source_of_fed (h.newPhi hphi hp).holds.nodup hq hq']
  cases hd with
  | use hsplit huse =>
    cases hd' with
    | use hsplit' _ =>
      have hn : n ∈ k.reals b := by simp [hsplit]
      have hn' : n ∈ k.reals c := by simp [hsplit']
      obtain rfl : b = c :=
        Option.some.inj ((h.lies.home hn).symm.trans (h.lies.home hn'))
      have hnodup := h.lies.nodup b
      rw [before_eq_takeWhile hnodup hsplit, before_eq_takeWhile hnodup hsplit']
    | fed _ hphi hp hq => exact (hfed hphi hp hq (.use hsplit huse)).symm
  | fed _ hphi hp hq => exact hfed hphi hp hq hd'

/-- The phis of a graph that fits own what they do in the plan, and stay what they are. -/
theorem Fits.newPhi (h : k.Fits f) (hphi : k.roster.phi? b = some phi)
    (hp : f.tree.node? phi = some (.phi p)) :
    Roster.NewPhi (Roster.Admits k.options) k.base f k.var b phi p := h.prepared.newPhi hphi hp

theorem Fits.ne_phi (h : k.Fits f) {o : Occurrence} (hphi : k.roster.phi? b = some phi)
    (ho : f.tree.node? n = some (.occurrence o)) : phi ≠ n := by
  rintro rfl
  obtain ⟨p, hnew⟩ := h.prepared.phi b phi hphi
  simp [Tree.node?, hnew.holds.slot] at ho

theorem Sound.exists_phi (hk : k.Sound nodes) (hphi : k.roster.phi? b = some phi) :
    ∃ p, k.graph.tree.node? phi = some (.phi p) := by
  obtain ⟨p, hp⟩ := hk.fits.prepared.phi b phi hphi
  exact ⟨p, hp.holds.node?⟩

theorem Fits.phiKind? (h : k.Fits f) (hphi : k.roster.phi? b = some phi)
    (hp : k.graph.tree.node? phi = some (.phi p)) :
    f.tree.phiKind? phi = k.graph.tree.phiKind? phi := by
  obtain ⟨p', hp', -, hinputs⟩ := h.phi b phi p hphi hp
  simp only [Tree.phiKind?, hp, hp', Option.some.injEq, Phi.kind]
  rcases hinputs with hsame | ⟨⟨_, hcat⟩, _, hcat'⟩
  · rw [hsame]
  · rw [hcat, hcat']

theorem Due.occurrence (h : k.Fits f) (hk : k.Sound nodes) {d : Option NodeId} (hd : k.Due b n d) :
    f.tree.varOf n = .ok k.var ∧
      ∀ c phi p, k.roster.phi? c = some phi → k.graph.tree.phiKind? phi = some .catching →
        f.tree.node? phi = some (.phi p) → n ∉ p.operands := by
  cases hd with
  | use hsplit _ =>
    have hvar := hk.lies.var b n (by simp [hsplit])
    refine ⟨h.prepared.kept.varOf hvar, fun c phi p hphi _ hp hmem => ?_⟩
    obtain ⟨o, ho, -⟩ := Tree.varOf_ok.1 hvar
    obtain ⟨s, hs, -⟩ := Tree.node?_eq_some.1 ho
    have := (h.newPhi hphi hp).fresh n (by simp [Tree.HoldsPhi.nodes, hmem])
    exact absurd (Tree.index_lt_size hs) (Nat.not_lt.2 this)
  | @fed m phi' _ p' _ hphi' hp' hq =>
    obtain ⟨p'', hp'', -, hinputs⟩ := h.phi m phi' p' hphi' hp'
    have hsame : p''.inputs = p'.inputs := by
      rcases hinputs with hsame | ⟨⟨operands, hcatch⟩, -⟩
      · exact hsame
      · simp [Phi.fed, hcatch] at hq
    have hmem : n ∈ p''.operands := by
      have := Phi.mem_operands_of_fed hq
      unfold Phi.operands at this ⊢
      rwa [hsame]
    obtain ⟨o, hs, hv, -⟩ := (h.newPhi hphi' hp'').holds.operand n hmem
    refine ⟨Tree.varOf_ok.2 ⟨o, Tree.node?_eq_some.2 ⟨_, hs, rfl⟩, hv⟩, ?_⟩
    intro c phi p hphi hkind hp hmem'
    obtain ⟨o', hs', -⟩ := (h.newPhi hphi hp).holds.operand n hmem'
    rw [hs, Option.some.injEq, Slot.mk.injEq] at hs'
    obtain rfl := Option.some.inj hs'.2.1
    simp only [Tree.phiKind?, hp', Option.some.injEq] at hkind
    unfold Phi.kind at hkind
    unfold Phi.fed at hq
    split at hkind <;> simp_all

theorem Due.scope (hk : k.Sound nodes) {d : Option NodeId} (hd : k.Due b n d)
    (hb : b ∈ k.base.graph.reversePostorder FlowGraph.entry) (hn : n.index < k.base.tree.size) :
    k.scope n k.var := by
  cases hd with
  | use hsplit _ => exact ⟨rfl, b, hb, by simp [hsplit]⟩
  | fed _ hphi hp hq =>
    have := (hk.newPhi hphi hp).fresh n (by simp [Tree.HoldsPhi.nodes, Phi.mem_operands_of_fed hq])
    exact absurd hn (Nat.not_lt.2 this)

theorem Fits.setLink (h : k.Fits f) (hk : k.Sound nodes) {d : Option NodeId} {u : Unit}
    (hd : k.Due b n d) (hb : b ∈ k.base.graph.reversePostorder FlowGraph.entry)
    (hshape : f.SameShape f') (hset : Tree.setLink n d f.tree = .ok u f'.tree) :
    k.Advances f f' ∧ f'.tree.linkOf n = .ok d := by
  obtain ⟨o, ho, -, hr, hlink⟩ := Tree.relinks_of_setLink hset
  obtain ⟨hvar, hout⟩ := hd.occurrence h hk
  obtain ⟨o', ho', hv⟩ := Tree.varOf_ok.1 hvar
  obtain rfl : o = o' := by simpa [ho] using ho'
  refine ⟨⟨h.relink hshape hr hv (hd.scope hk hb), ?_, ?_, ?_, ?_⟩, hlink⟩
  · intro c m d' hd' hm
    by_cases hmn : m = n
    · subst hmn
      rw [hlink, hd.unique hk hd']
    · rwa [Tree.linkOf_congr (hr.slot?_of_ne hmn)]
  · intro m d' hnone hm
    have hmn : m ≠ n := fun he => hnone b hb d (he ▸ hd)
    rwa [Tree.linkOf_congr (hr.slot?_of_ne hmn)]
  · rintro c phi d' hphi hkind ⟨p, q, hp, hq, hdef⟩
    have hqn : q ≠ n := fun he => hout c phi p hphi hkind hp (he ▸ hq)
    refine ⟨p, q, ?_, hq, ?_⟩
    · rw [Tree.node?, hr.slot?_of_ne (h.ne_phi hphi ho)]
      exact hp
    · rwa [Tree.definitionOf_congr (hr.slot?_of_ne hqn)]
  · intro hg c phi p hphi hp hkind
    rw [Tree.node?, hr.slot?_of_ne (h.ne_phi hphi ho)] at hp
    refine (hg c phi p hphi hp hkind).keep fun q hq d' hd' => ?_
    have hgraph : k.graph.tree.phiKind? phi = some .catching := by
      obtain ⟨p₀, hp₀⟩ := hk.exists_phi hphi
      rw [← h.phiKind? hphi hp₀, (h.newPhi hphi hp).holds.phiKind?, hkind]
    have hqn : q ≠ n := fun he => hout c phi p hphi hgraph hp (he ▸ hq)
    rwa [Tree.definitionOf_congr (hr.slot?_of_ne hqn)]

theorem Fits.setVersion (h : k.Fits f) {version : Nat} {u : Unit}
    (hvar : f.tree.varOf n = .ok k.var) (hn : n.index < k.base.tree.size → k.scope n k.var)
    (hshape : f.SameShape f') (hset : Tree.setVersion n version f.tree = .ok u f'.tree) :
    k.Advances f f' := by
  obtain ⟨o, ho, hr, hlinks, hdefs⟩ := Tree.relinks_of_setVersion hset
  obtain ⟨o', ho', hv⟩ := Tree.varOf_ok.1 hvar
  obtain rfl : o = o' := by simpa [ho] using ho'
  refine ⟨h.relink hshape hr hv hn, fun _ m d _ hm => hlinks m d hm,
    fun m d _ hm => hlinks m d hm, ?_, ?_⟩
  · rintro c phi d hphi - ⟨p, q, hp, hq, hdef⟩
    refine ⟨p, q, ?_, hq, hdefs q _ hdef⟩
    rw [Tree.node?, hr.slot?_of_ne (h.ne_phi hphi ho)]
    exact hp
  · intro hg c phi p hphi hp hkind
    rw [Tree.node?, hr.slot?_of_ne (h.ne_phi hphi ho)] at hp
    exact (hg c phi p hphi hp hkind).keep fun q _ => hdefs q

section catching

variable {d : NodeId} (h : k.Fits f) (hphi : k.roster.phi? b = some phi)
  (hp : f.tree.node? phi = some (.phi p))
  (hcatch : f.tree.Catching f'.tree k.var phi p (some b) d)

include h hphi hp hcatch

theorem Fits.newPhi_of_catching : Roster.NewPhi (Roster.Admits k.options) k.base f' k.var b phi
    { p with inputs := .catching (p.operands ++ [f.tree.next]) } := by
  have hnew := h.newPhi hphi hp
  refine ⟨hcatch.holds, fun q hq => ?_, ?_⟩
  · simp only [Tree.HoldsPhi.nodes, Phi.operands, ← List.cons_append] at hq
    rcases List.mem_append.1 hq with hq | hq
    · exact hnew.fresh q hq
    · rw [List.mem_singleton.1 hq]
      exact h.prepared.kept.size
  · obtain ⟨operands, hinputs⟩ := hcatch.inputs
    have hadmitted := hnew.admitted
    rw [hinputs] at hadmitted
    exact hadmitted

theorem Fits.newPhi_of_catching_ne {c : BlockId} {m : NodeId} {p' : Phi} (hne : m ≠ phi)
    (hm : Roster.NewPhi (Roster.Admits k.options) k.base f k.var c m p') :
    Roster.NewPhi (Roster.Admits k.options) k.base f' k.var c m p' := by
  have hnew := h.newPhi hphi hp
  refine ⟨hm.holds.of_slots fun q hq => hcatch.other q (hm.holds.index_lt hq) ?_,
    hm.fresh, hm.admitted⟩
  rintro rfl
  exact hnew.holds.disjoint hm.holds hne hq (by simp [Tree.HoldsPhi.nodes])

theorem Fits.of_catching (hshape : f.SameShape f') : k.Fits f' := by
  have hnew := h.newPhi hphi hp
  refine ⟨{ h.prepared with shape := ?_, kept := ?_, prototype := ?_, phi := ?_ }, ?_⟩
  · exact h.prepared.shape.trans hshape
  · refine h.prepared.kept.keep (hcatch.size ▸ Nat.le_succ _) fun m hm =>
      hcatch.other m (Nat.lt_of_lt_of_le hm h.prepared.kept.size) ?_
    rintro rfl
    exact absurd hm (Nat.not_lt.2 (hnew.fresh m (by simp [Tree.HoldsPhi.nodes])))
  · obtain ⟨hle, o, hs, ho⟩ := h.prepared.prototype
    refine ⟨hle, o, (hcatch.other _ (Tree.index_lt_size hs) ?_).trans hs, ho⟩
    intro he
    rw [he, hnew.holds.slot] at hs
    simp at hs
  · intro c m hm
    by_cases hmp : m = phi
    · subst hmp
      obtain rfl := h.prepared.phi?_injective hm hphi
      exact ⟨_, h.newPhi_of_catching hphi hp hcatch⟩
    · obtain ⟨p', hp'⟩ := h.prepared.phi c m hm
      exact ⟨p', h.newPhi_of_catching_ne hphi hp hcatch hmp hp'⟩
  · intro c m pm hm hpm
    obtain ⟨p', hp', htarget, hinputs⟩ := h.phi c m pm hm hpm
    by_cases hmp : m = phi
    · subst hmp
      obtain rfl : p = p' := by simpa [hp] using hp'
      obtain ⟨operands, hcat⟩ := hcatch.inputs
      refine ⟨_, hcatch.node?_self, htarget, .inr ⟨?_, _, rfl⟩⟩
      rcases hinputs with hsame | ⟨hgraph, -⟩
      · exact ⟨operands, hsame ▸ hcat⟩
      · exact hgraph
    · exact ⟨p', hcatch.node?_of_ne hp' hmp, htarget, hinputs⟩

/-- A phi at a handler may get an operand for one more definition that the handler may be entered
with. -/
theorem Fits.catching (hshape : f.SameShape f')
    (hnone : ∀ q ∈ p.operands, f.tree.definitionOf q ≠ .ok (some d)) (hd : k.Thrown b d) :
    k.Advances f f' ∧ Catches f' phi d := by
  have hself := hcatch.node?_self
  have hlinks {m : NodeId} {d' : Option NodeId} (hm : f.tree.linkOf m = .ok d') :
      f'.tree.linkOf m = .ok d' := by
    obtain ⟨o, ho, hl⟩ := Tree.linkOf_ok.1 hm
    exact Tree.linkOf_ok.2 ⟨o, hcatch.occurrence hp ho, hl⟩
  have hdefs {q : NodeId} {d' : Option NodeId} (hq : f.tree.definitionOf q = .ok d') :
      f'.tree.definitionOf q = .ok d' := by
    obtain ⟨o, ho, hd'⟩ := Tree.definitionOf_ok.1 hq
    exact Tree.definitionOf_ok.2 ⟨o, hcatch.occurrence hp ho, hd'⟩
  refine ⟨⟨h.of_catching hphi hp hcatch hshape, fun _ _ _ _ => hlinks, fun _ _ _ => hlinks, ?_, ?_⟩,
    _, _, hself, ?_, hcatch.definition⟩
  · rintro c m d' hm hkind ⟨pm, q, hpm, hq, hdef⟩
    by_cases hmp : m = phi
    · subst hmp
      obtain rfl : p = pm := by simpa [hp] using hpm
      exact ⟨_, q, hself, List.mem_append_left _ hq, hdefs hdef⟩
    · exact ⟨pm, q, hcatch.node?_of_ne hpm hmp, hq, hdefs hdef⟩
  · intro hg c m pm hm hpm hkind
    obtain ⟨p₀, hnew⟩ := h.prepared.phi c m hm
    have hp₀ := hnew.holds.node?
    by_cases hmp : m = phi
    · subst hmp
      obtain rfl := Node.phi.inj (Option.some.inj (hself.symm.trans hpm))
      obtain rfl := h.prepared.phi?_injective hm hphi
      obtain ⟨operands, hinputs⟩ := hcatch.inputs
      have hold : k.Collects f' c p.operands :=
        (hg c m p hm hp (by simp [Phi.kind, hinputs])).keep fun q _ d' => hdefs
      refine hold.concat hcatch.definition (fun q hq he => ?_) hd
      obtain ⟨d', hd', -⟩ := (hg c m p hm hp (by simp [Phi.kind, hinputs])).thrown q hq
      exact hnone q hq (hd'.trans ((hdefs hd').symm.trans he))
    · obtain rfl := Node.phi.inj (Option.some.inj ((hcatch.node?_of_ne hp₀ hmp).symm.trans hpm))
      exact (hg c m p₀ hm hp₀ hkind).keep fun q _ d' => hdefs
  · exact List.mem_append_right _ (by simp)

end catching

end Plan

namespace Renaming

open Plan

variable {k : Plan} {nodes : List NodeId} {b : BlockId} {s s' : Recorded (Bench Numbering)}

theorem askFlow_ok {α : Type} {f : FlowGraph → Except Fault α} {a : α} :
    askFlow f s = .ok a s' ↔ f s.value.flow = .ok a ∧ s = s' := Edit.ask_ok

theorem number_ok {n : NodeId} {v : Var} {u : Unit} (h : number v n s = .ok u s')
    (hs : k.Fits s.value.flow) (hvar : s.value.flow.tree.varOf n = .ok k.var)
    (hn : n.index < k.base.tree.size → k.scope n k.var) :
    k.Advances s.value.flow s'.value.flow := by
  simp only [number, Edit.bind_ok, Edit.get_ok] at h
  obtain ⟨_, _, ⟨rfl, rfl⟩, _, m₁, hown, _, m₂, hset, hreport⟩ := h
  obtain ⟨hflow, -⟩ := Bench.modifyOwn_ok hown
  obtain ⟨hset, hshape, -⟩ := Bench.liftTree_ok hset
  rw [hflow] at hset hshape
  rw [Bench.report_ok hreport]
  exact hs.setVersion hvar hn hshape hset

theorem defines_eq {f : FlowGraph} (hf : k.Fits f) (hk : k.Sound nodes) {n : NodeId}
    (hn : n ∈ k.reals b) : f.tree.defines n = k.graph.tree.defines n := by
  have hvar := hk.lies.var b n hn
  rw [hf.prepared.kept.defines hvar, hk.fits.prepared.kept.defines hvar]

/-- A definition is numbered when it is passed, and a use is linked to the definition that reaches
it. -/
theorem passReal_cases {n : NodeId} {here next : Reached}
    (h : passReal k.var b here n s = .ok next s')
    (hk : k.Sound nodes) (hs : k.Fits s.value.flow) (hn : n ∈ k.reals b) :
    (k.graph.tree.defines n = true ∧ number k.var n s = .ok () s' ∧
      next = ⟨some n, here.live ++ [n]⟩) ∨
    (k.graph.tree.defines n = false ∧ next = here ∧
      ∃ m, (Tree.setLink n here.current : Renaming Unit) s = .ok () m ∧ s'.value = m.value) := by
  simp only [passReal, Edit.bind_ok, askFlow_ok] at h
  obtain ⟨defines, _, ⟨hdefines, rfl⟩, h⟩ := h
  have hgraph : k.graph.tree.defines n = defines := by
    rw [← defines_eq hs hk hn]
    exact Tree.defines_of_isDefinition hdefines
  cases defines with
  | true =>
    simp only [if_true, Edit.bind_ok, Edit.pure_ok] at h
    obtain ⟨_, m, hnumber, rfl, rfl⟩ := h
    exact .inl ⟨hgraph, hnumber, rfl⟩
  | false =>
    simp only [Bool.false_eq_true, if_false, Edit.bind_ok, Edit.pure_ok] at h
    obtain ⟨_, m, hset, _, m', hreport, rfl, rfl⟩ := h
    exact .inr ⟨hgraph, rfl, m, hset, Bench.report_ok hreport⟩

/-- What is known behind the occurrences `before` of a block. -/
structure Knows (k : Plan) (b : BlockId) (before : List NodeId) (here : Reached) : Prop where
  current : here.current = (k.graph.tree.lastDefinition before).or (k.start b)
  live : here.live = (k.start b).toList ++ before.filter k.graph.tree.defines

theorem passReal_ok {before after : List NodeId} {n : NodeId} {here next : Reached}
    (h : passReal k.var b here n s = .ok next s')
    (hb : b ∈ k.base.graph.reversePostorder FlowGraph.entry) (hk : k.Sound nodes)
    (hs : k.Fits s.value.flow) (hsplit : k.reals b = before ++ n :: after)
    (hhere : Knows k b before here) :
    k.Advances s.value.flow s'.value.flow ∧ Knows k b (before ++ [n]) next ∧
      (k.graph.tree.defines n = false → s'.value.flow.tree.linkOf n =
        .ok ((k.graph.tree.lastDefinition before).or (k.start b))) := by
  have hn : n ∈ k.reals b := by simp [hsplit]
  rcases passReal_cases h hk hs hn with ⟨hdefines, hnumber, rfl⟩ | ⟨huse, rfl, m, hset, hm⟩
  · have hvar := hs.prepared.kept.varOf (hk.lies.var b n hn)
    refine ⟨number_ok hnumber hs hvar fun _ => ⟨rfl, b, hb, hn⟩, ⟨?_, ?_⟩, by simp [hdefines]⟩
    · rw [Tree.lastDefinition_concat_of_defines hdefines]
      rfl
    · simp [hhere.live, hdefines]
  · obtain ⟨hset, hshape, -⟩ := Bench.liftTree_ok hset
    rw [hm]
    rw [hhere.current] at hset
    obtain ⟨hadv, hlink⟩ := hs.setLink hk (Due.use hsplit huse) hb hshape hset
    refine ⟨hadv, ⟨?_, ?_⟩, fun _ => hlink⟩
    · rw [Tree.lastDefinition_concat_of_use huse, hhere.current]
    · simp [hhere.live, huse]

theorem passReals_ok {here : Reached}
    (h : (k.reals b).foldlM (passReal k.var b) ⟨k.start b, (k.start b).toList⟩ s = .ok here s')
    (hb : b ∈ k.base.graph.reversePostorder FlowGraph.entry) (hk : k.Sound nodes)
    (hs : k.Fits s.value.flow) :
    k.Advances s.value.flow s'.value.flow ∧ Knows k b (k.reals b) here ∧
      ∀ before n after, k.reals b = before ++ n :: after → k.graph.tree.defines n = false →
        s'.value.flow.tree.linkOf n =
          .ok ((k.graph.tree.lastDefinition before).or (k.start b)) := by
  have hrun := Edit.foldlM_ok h (fun passed here m => k.Advances s.value.flow m.value.flow ∧
    Knows k b passed here ∧ ∀ before n after, passed = before ++ n :: after →
      k.graph.tree.defines n = false → m.value.flow.tree.linkOf n =
        .ok ((k.graph.tree.lastDefinition before).or (k.start b)))
    ⟨.refl hs, ⟨by simp, by simp⟩, by simp⟩ ?_
  · exact hrun
  · rintro passed n rest here next m m' hsplit ⟨hadv, hhere, hlinked⟩ hstep
    obtain ⟨hadv', hnext, hlink⟩ := passReal_ok hstep hb hk hadv.fits hsplit hhere
    refine ⟨hadv.trans hadv', hnext, fun before n' after hsplit' huse => ?_⟩
    rcases List.eq_nil_or_concat after with rfl | ⟨others, last, rfl⟩
    · obtain ⟨rfl, hlast⟩ := List.append_inj' hsplit' rfl
      obtain rfl := List.singleton_inj.1 hlast
      exact hlink huse
    · have hends : passed ++ [n] = (before ++ n' :: others) ++ [last] := by
        simpa [List.concat_eq_append] using hsplit'
      have hin := (List.append_inj' hends rfl).1
      have hwhole : k.reals b = before ++ n' :: (others ++ n :: rest) := by
        rw [hsplit, hin]
        simp
      exact hadv'.linked b n' _ (.use hwhole huse) (hlinked before n' others hin huse)

theorem phiAt_ok {f : FlowGraph} {phi : Option NodeId} (hf : k.Fits f)
    (h : k.roster.phiAt f b = .ok phi) : k.roster.phi? b = phi := (hf.prepared.phiAt_ok h).2

/-- The target of the phi of a block is numbered, if there is a phi. -/
theorem passPhi_cases {incoming start : Option NodeId}
    (h : passPhi k.roster b incoming s = .ok start s')
    (hk : k.Sound nodes) (hs : k.Fits s.value.flow) :
    (k.roster.targetAt? k.graph b = none ∧ start = incoming ∧ s' = s) ∨
    ∃ phi p, k.roster.phi? b = some phi ∧ s.value.flow.tree.node? phi = some (.phi p) ∧
      k.roster.targetAt? k.graph b = some p.target ∧ start = some p.target ∧
      number k.var p.target s = .ok () s' := by
  simp only [passPhi, Edit.bind_ok, askFlow_ok] at h
  obtain ⟨phi, _, ⟨hphi, rfl⟩, h⟩ := h
  have hphi := phiAt_ok hs hphi
  cases phi with
  | none =>
    obtain ⟨rfl, rfl⟩ := Edit.pure_ok.1 h
    exact .inl ⟨Roster.targetAt?_eq_none hphi, rfl, rfl⟩
  | some n =>
    simp only [Edit.bind_ok, askFlow_ok, Tree.phiTarget_ok, Edit.pure_ok] at h
    obtain ⟨target, _, ⟨⟨p', hp', rfl⟩, rfl⟩, _, m, hnumber, rfl, rfl⟩ := h
    obtain ⟨p, hp⟩ := hk.exists_phi hphi
    obtain ⟨p'', hp'', htarget, -⟩ := hs.phi b n p hphi hp
    obtain rfl : p' = p'' := by simpa [hp'] using hp''
    rw [hs.prepared.var] at hnumber
    exact .inr ⟨n, p', hphi, hp', htarget ▸ Roster.targetAt?_of_phi? hphi hp, rfl, hnumber⟩

theorem passPhi_ok {start : Option NodeId}
    (h : passPhi k.roster b (k.roster.entering k.graph k.reals b) s = .ok start s')
    (hk : k.Sound nodes) (hs : k.Fits s.value.flow) :
    start = k.start b ∧ k.Advances s.value.flow s'.value.flow := by
  rcases passPhi_cases h hk hs with ⟨htarget, rfl, rfl⟩ | ⟨phi, p, hphi, hp, htarget, rfl, hnumber⟩
  · exact ⟨by rw [Plan.start, Roster.atHead, htarget, Option.none_or], .refl hs⟩
  · refine ⟨by rw [Plan.start, Roster.atHead, htarget, Option.some_or], ?_⟩
    have hnew := hs.newPhi hphi hp
    obtain ⟨o, ho, hv, -⟩ := hnew.holds.target
    have hvar : s.value.flow.tree.varOf p.target = .ok k.var :=
      Tree.varOf_ok.2 ⟨o, Tree.node?_eq_some.2 ⟨_, ho, rfl⟩, hv⟩
    have hfresh := hnew.fresh p.target (by simp [Tree.HoldsPhi.nodes])
    exact number_ok hnumber hs hvar fun hlt => absurd hlt (Nat.not_lt.2 hfresh)

theorem addLive_ok {phi d : NodeId} {u : Unit} (h : addLive k.roster phi d s = .ok u s')
    (hs : k.Fits s.value.flow) (hphi : k.roster.phi? b = some phi) (hd : k.Thrown b d) :
    k.Advances s.value.flow s'.value.flow ∧ Catches s'.value.flow phi d := by
  simp only [addLive, Edit.bind_ok, askFlow_ok, Tree.hasCatchDefinition, Except.bind_eq_ok,
    Tree.catchOperands_ok] at h
  obtain ⟨has, _, ⟨⟨operands, ⟨p, hp, hinputs⟩, hstands⟩, rfl⟩, h⟩ := h
  cases has with
  | true =>
    obtain ⟨-, rfl⟩ := Edit.pure_ok.1 h
    obtain ⟨q, hq, hdef⟩ := (Tree.standsFor_ok hstands).1 rfl
    exact ⟨.refl hs, p, q, hp, by simpa [Phi.operands, hinputs] using hq, hdef⟩
  | false =>
    simp only [Bool.not_false, if_true, Edit.bind_ok] at h
    obtain ⟨operand, m₁, huse, _, m₂, hset, hadd⟩ := h
    obtain ⟨huse, hshape₁, -⟩ := Bench.liftTree_ok huse
    obtain ⟨hset, hshape₂, -⟩ := Bench.liftTree_ok hset
    obtain ⟨hadd, hshape₃, -⟩ := Bench.liftTree_ok hadd
    obtain ⟨-, o, hso, hv, -⟩ := hs.prepared.prototype
    have hvar : s.value.flow.tree.varOf k.roster.prototype = .ok k.var :=
      Tree.varOf_ok.2 ⟨o, Tree.node?_eq_some.2 ⟨_, hso, rfl⟩, hv⟩
    refine hs.catching hphi hp
      (Tree.catching_of_addCatchOperand (hs.newPhi hphi hp).holds hvar huse hset hadd)
      ((hshape₁.trans hshape₂).trans hshape₃) (fun q hq hdef => ?_) hd
    rw [Phi.operands, hinputs] at hq
    exact absurd ((Tree.standsFor_ok hstands).2 ⟨q, hq, hdef⟩) (by simp)

theorem fillCatch_ok {live : List NodeId} {u : Unit} (h : fillCatch k.roster live b s = .ok u s')
    (hk : k.Sound nodes) (hs : k.Fits s.value.flow) (hlive : ∀ d ∈ live, k.Thrown b d) :
    k.Advances s.value.flow s'.value.flow ∧ ∀ phi, k.roster.phi? b = some phi →
      k.graph.tree.phiKind? phi = some .catching → ∀ d ∈ live, Catches s'.value.flow phi d := by
  simp only [fillCatch, Edit.bind_ok, askFlow_ok] at h
  obtain ⟨phi, _, ⟨hphi, rfl⟩, h⟩ := h
  have hphi := phiAt_ok hs hphi
  cases phi with
  | none =>
    obtain ⟨-, rfl⟩ := Edit.pure_ok.1 h
    exact ⟨.refl hs, by simp [hphi]⟩
  | some n =>
    simp only [Edit.bind_ok, Edit.get_ok] at h
    obtain ⟨_, _, ⟨rfl, rfl⟩, h⟩ := h
    obtain ⟨p, hp⟩ := hk.exists_phi hphi
    have hkind := hs.phiKind? hphi hp
    by_cases hcatching : k.graph.tree.phiKind? n = some .catching
    · rw [if_pos (hkind.trans hcatching)] at h
      have hrun := Edit.forM_ok h (fun passed m => k.Advances s.value.flow m.value.flow ∧
        ∀ d ∈ passed, Catches m.value.flow n d) ⟨.refl hs, by simp⟩ ?_
      · refine ⟨hrun.1, fun phi hphi' _ => ?_⟩
        obtain rfl : n = phi := by simpa [hphi] using hphi'
        exact hrun.2
      · rintro passed d rest m m' hsplit ⟨hadv, hcaught⟩ hstep
        obtain ⟨hadv', hnew⟩ := addLive_ok hstep hadv.fits hphi (hlive d (by simp [hsplit]))
        refine ⟨hadv.trans hadv', fun d' hd' => ?_⟩
        rcases List.mem_append.1 hd' with hd' | hd'
        · exact hadv'.caught b n d' hphi hcatching (hcaught d' hd')
        · rwa [List.mem_singleton.1 hd']
    · rw [if_neg (fun he => hcatching (hkind.symm.trans he))] at h
      obtain ⟨-, rfl⟩ := Edit.pure_ok.1 h
      refine ⟨.refl hs, fun phi hphi' hkind' => ?_⟩
      obtain rfl : n = phi := by simpa [hphi] using hphi'
      exact absurd hkind' hcatching

theorem fillCatches_ok {live : List NodeId} {u : Unit}
    (h : fillCatches k.roster b live s = .ok u s') (hk : k.Sound nodes) (hs : k.Fits s.value.flow)
    (hb : b ∈ k.base.graph.reversePostorder FlowGraph.entry) (hlive : live = k.live b) :
    k.Advances s.value.flow s'.value.flow ∧ ∀ handler ∈ k.base.handlersProtecting b,
      ∀ phi, k.roster.phi? handler.entry = some phi →
        k.graph.tree.phiKind? phi = some .catching → ∀ d ∈ live, Catches s'.value.flow phi d := by
  unfold fillCatches at h
  by_cases hempty : live.isEmpty
  · rw [if_pos hempty] at h
    obtain ⟨-, rfl⟩ := Edit.pure_ok.1 h
    exact ⟨.refl hs, by simp [List.isEmpty_iff.1 hempty]⟩
  · simp only [if_neg hempty, Edit.bind_ok, Edit.get_ok] at h
    obtain ⟨_, _, ⟨rfl, rfl⟩, h⟩ := h
    have hhandlers : s.value.flow.handlersProtecting b = k.base.handlersProtecting b := by
      rw [FlowGraph.handlersProtecting, hs.prepared.shape.handlers, FlowGraph.handlersProtecting]
    rw [hhandlers] at h
    refine Edit.forM_ok h (fun passed m => k.Advances s.value.flow m.value.flow ∧
      ∀ handler ∈ passed, ∀ phi, k.roster.phi? handler.entry = some phi →
        k.graph.tree.phiKind? phi = some .catching → ∀ d ∈ live, Catches m.value.flow phi d)
      ⟨.refl hs, by simp⟩ ?_
    rintro passed handler rest m m' hsplit ⟨hadv, hcaught⟩ hstep
    have hprotects : handler ∈ k.base.handlersProtecting b := by simp [hsplit]
    obtain ⟨hadv', hnew⟩ := fillCatch_ok hstep hk hadv.fits fun d hd =>
      ⟨b, hb, ⟨handler, hprotects, rfl⟩, hlive ▸ hd⟩
    refine ⟨hadv.trans hadv', fun other hother phi hphi hkind d hd => ?_⟩
    rcases List.mem_append.1 hother with hother | hother
    · exact hadv'.caught _ phi d hphi hkind (hcaught other hother phi hphi hkind d hd)
    · rw [List.mem_singleton.1 hother] at hphi
      exact hnew phi hphi hkind d hd

theorem fedOperands_eq {f : FlowGraph} {phi : NodeId} {p : Phi} {m : BlockId}
    {operands : List NodeId}
    (hf : k.Fits f) (hphi : k.roster.phi? m = some phi)
    (hp : k.graph.tree.node? phi = some (.phi p))
    (h : fedOperands f phi b m = .ok operands) : operands = p.fed k.base.subroutine? b m := by
  obtain ⟨p', hp', -, hinputs⟩ := hf.phi m phi p hphi hp
  obtain ⟨p'', hp'', rfl⟩ := fedOperands_ok h
  obtain rfl : p' = p'' := by simpa [hp'] using hp''
  rw [hf.prepared.shape.subroutine?]
  rcases hinputs with hsame | ⟨⟨_, hcat⟩, _, hcat'⟩
  · rw [Phi.fed, Phi.fed, hsame]
  · simp [Phi.fed, hcat, hcat']

theorem fillSuccessor_ok {m : BlockId} {u : Unit}
    (h : fillSuccessor k.roster b (k.leaving b) m s = .ok u s') (hk : k.Sound nodes)
    (hs : k.Fits s.value.flow) (hb : b ∈ k.base.graph.reversePostorder FlowGraph.entry)
    (hm : m ∈ k.base.succs b) :
    k.Advances s.value.flow s'.value.flow ∧ ∀ phi p, k.roster.phi? m = some phi →
      k.graph.tree.node? phi = some (.phi p) → ∀ q ∈ p.fed k.base.subroutine? b m,
        s'.value.flow.tree.linkOf q = .ok (k.leaving b) := by
  simp only [fillSuccessor, Edit.bind_ok, askFlow_ok] at h
  obtain ⟨phi, _, ⟨hphi, rfl⟩, h⟩ := h
  have hphi := phiAt_ok hs hphi
  cases phi with
  | none =>
    obtain ⟨-, rfl⟩ := Edit.pure_ok.1 h
    exact ⟨.refl hs, by simp [hphi]⟩
  | some n =>
    simp only [Edit.bind_ok, askFlow_ok] at h
    obtain ⟨operands, _, ⟨hfed, rfl⟩, h⟩ := h
    obtain ⟨p, hp⟩ := hk.exists_phi hphi
    obtain rfl := fedOperands_eq hs hphi hp hfed
    have hrun := Edit.forM_ok h (fun passed m => k.Advances s.value.flow m.value.flow ∧
      ∀ q ∈ passed, m.value.flow.tree.linkOf q = .ok (k.leaving b)) ⟨.refl hs, by simp⟩ ?_
    · refine ⟨hrun.1, fun phi p₁ hphi' hp₁ => ?_⟩
      obtain rfl : n = phi := by simpa [hphi] using hphi'
      obtain rfl : p = p₁ := by simpa [hp] using hp₁
      exact hrun.2
    · rintro passed q rest m₁ m₂ hsplit ⟨hadv, hlinked⟩ hstep
      have hdue (q : NodeId) (hq : q ∈ p.fed k.base.subroutine? b m) : k.Due b q (k.leaving b) :=
        .fed hm hphi hp hq
      obtain ⟨hset, hshape, -⟩ := Bench.liftTree_ok hstep
      obtain ⟨hadv', hlink⟩ := hadv.fits.setLink hk (hdue q (by simp [hsplit])) hb hshape hset
      refine ⟨hadv.trans hadv', fun q' hq' => ?_⟩
      rcases List.mem_append.1 hq' with hq' | hq'
      · exact hadv'.linked b q' _ (hdue q' (by simp [hsplit, hq'])) (hlinked q' hq')
      · rwa [List.mem_singleton.1 hq']

theorem fillSuccessors_ok {u : Unit}
    (h : (k.base.succs b).forM (fillSuccessor k.roster b (k.leaving b)) s = .ok u s')
    (hk : k.Sound nodes) (hs : k.Fits s.value.flow)
    (hb : b ∈ k.base.graph.reversePostorder FlowGraph.entry) :
    k.Advances s.value.flow s'.value.flow ∧ ∀ m ∈ k.base.succs b, ∀ phi p,
      k.roster.phi? m = some phi → k.graph.tree.node? phi = some (.phi p) →
        ∀ q ∈ p.fed k.base.subroutine? b m, s'.value.flow.tree.linkOf q = .ok (k.leaving b) := by
  refine Edit.forM_ok h (fun passed n => k.Advances s.value.flow n.value.flow ∧
    ∀ m ∈ passed, ∀ phi p, k.roster.phi? m = some phi → k.graph.tree.node? phi = some (.phi p) →
      ∀ q ∈ p.fed k.base.subroutine? b m, n.value.flow.tree.linkOf q = .ok (k.leaving b))
    ⟨.refl hs, by simp⟩ ?_
  rintro passed m rest n n' hsplit ⟨hadv, hfed⟩ hstep
  have hm : m ∈ k.base.succs b := by simp [hsplit]
  obtain ⟨hadv', hnew⟩ := fillSuccessor_ok hstep hk hadv.fits hb hm
  refine ⟨hadv.trans hadv', fun m' hm' phi p hphi hp q hq => ?_⟩
  rcases List.mem_append.1 hm' with hin | hin
  · have hedge : m' ∈ k.base.succs b := by simp [hsplit, hin]
    exact hadv'.linked b q _ (.fed hedge hphi hp hq) (hfed m' hin phi p hphi hp q hq)
  · rw [List.mem_singleton.1 hin] at hphi hq
    exact hnew phi p hphi hp q hq

theorem realsAt_ok {f : FlowGraph} {reals : List NodeId} (hf : k.Fits f)
    (h : k.roster.realsAt f b = .ok reals) : reals = k.reals b := by
  simp only [Roster.realsAt, Except.map_eq_ok, Roster.recordAt_ok] at h
  obtain ⟨record, ⟨-, -, hr⟩, rfl⟩ := h
  exact hf.prepared.listed b record hr

section descent

variable (closed : k.base.graph.Closed) (hentry : k.base.contains FlowGraph.entry = true)

include closed hentry

theorem Knows.current_eq_leaving {here : Reached} (h : Knows k b (k.reals b) here)
    (hk : k.Sound nodes)
    (hb : b ∈ k.base.graph.reversePostorder FlowGraph.entry) : here.current = k.leaving b := by
  rw [h.current, Plan.leaving, hk.fits.prepared.leaving_eq closed hentry hb, Plan.start]

/-- What leaves a block enters the blocks below it in the dominator tree, which can all be
reached. -/
theorem entering_child (hk : k.Sound nodes) {c : BlockId} (hc : c ∈ k.base.dominators.children b) :
    c ∈ k.base.graph.reversePostorder FlowGraph.entry ∧
      k.base.dominators.immediate? c = some b ∧
      k.leaving b = k.roster.entering k.graph k.reals c := by
  have himmediate := Digraph.mem_children_iff.1 hc
  have hdom : k.graph.dominators = k.base.dominators := hk.fits.prepared.shape.dominators
  refine ⟨((Digraph.immediate?_eq_some_iff closed hentry).1 himmediate).2.1, himmediate, ?_⟩
  rw [Plan.leaving, Roster.entering, DominatorTree.entering, hdom, himmediate]
  simp [Roster.leaving, hdom]

theorem length_chain_child {c : BlockId} (hc : c ∈ k.base.dominators.children b) :
    (k.base.dominators.chain c).length = (k.base.dominators.chain b).length + 1 := by
  have himmediate := Digraph.mem_children_iff.1 hc
  have hreached := ((Digraph.immediate?_eq_some_iff closed hentry).1 himmediate).2.1
  rw [FlowGraph.dominators] at himmediate ⊢
  rw [Digraph.chain_eq closed hentry hreached, himmediate, List.length_cons]

/-- What renaming does at a block before it goes on to the blocks below, step by step. -/
structure Visits (k : Plan) (b : BlockId) (here : Reached)
    (s m₁ m₂ m₃ s' : Recorded (Bench Numbering)) : Prop where
  phi : passPhi k.roster b (k.roster.entering k.graph k.reals b) s = .ok (k.start b) m₁
  reals : (k.reals b).foldlM (passReal k.var b) ⟨k.start b, (k.start b).toList⟩ m₁ = .ok here m₂
  catches : fillCatches k.roster b here.live m₂ = .ok ⟨⟩ m₃
  successors : (k.base.succs b).forM (fillSuccessor k.roster b (k.leaving b)) m₃ = .ok ⟨⟩ s'

/-- A block is renamed with what enters it, and the blocks below it with what leaves it. -/
theorem renameTo_succ {limit : Nat} {u : Unit} (hk : k.Sound nodes)
    (h : renameTo k.roster k.base.dominators (limit + 1) (k.roster.entering k.graph k.reals b) b s =
      .ok u s')
    (hs : k.Fits s.value.flow) (hb : b ∈ k.base.graph.reversePostorder FlowGraph.entry) :
    ∃ here m₁ m₂ m₃ m, Visits k b here s m₁ m₂ m₃ m ∧
      (k.base.dominators.children b).forM
        (renameTo k.roster k.base.dominators limit (k.leaving b)) m = .ok ⟨⟩ s' := by
  simp only [renameTo, Edit.bind_ok, askFlow_ok, Edit.get_ok] at h
  obtain ⟨start, m₁, hphi, reals, _, ⟨hreals, rfl⟩, here, m₂, hpass, _, m₃, hcatch, _,
    _, ⟨rfl, rfl⟩, _, m, hfeed, hchildren⟩ := h
  obtain ⟨rfl, hadv₁⟩ := passPhi_ok hphi hk hs
  obtain rfl := realsAt_ok hadv₁.fits hreals
  rw [hk.fits.prepared.var] at hpass
  obtain ⟨hadv₂, hknows, -⟩ := passReals_ok hpass hb hk hadv₁.fits
  obtain ⟨hadv₃, -⟩ := fillCatches_ok hcatch hk hadv₂.fits hb hknows.live
  have hcurrent := hknows.current_eq_leaving closed hentry hk hb
  rw [hcurrent, hadv₃.fits.prepared.shape.succs] at hfeed
  rw [hcurrent] at hchildren
  exact ⟨here, m₁, m₂, m₃, m, ⟨hphi, hpass, hcatch, hfeed⟩, hchildren⟩

omit closed hentry in
theorem Visits.ok {here : Reached} {m₁ m₂ m₃ : Recorded (Bench Numbering)}
    (h : Visits k b here s m₁ m₂ m₃ s') (hk : k.Sound nodes) (hs : k.Fits s.value.flow)
    (hb : b ∈ k.base.graph.reversePostorder FlowGraph.entry) :
    k.Advances s.value.flow s'.value.flow ∧ k.Passed s'.value.flow b := by
  obtain ⟨-, hadv₁⟩ := passPhi_ok h.phi hk hs
  obtain ⟨hadv₂, hknows, hlinked⟩ := passReals_ok h.reals hb hk hadv₁.fits
  obtain ⟨hadv₃, hcaught⟩ := fillCatches_ok h.catches hk hadv₂.fits hb hknows.live
  obtain ⟨hadv₄, hfed⟩ := fillSuccessors_ok h.successors hk hadv₃.fits hb
  refine ⟨((hadv₁.trans hadv₂).trans hadv₃).trans hadv₄, fun n d hd => ?_,
    fun handler hh phi hphi hkind d hd => ?_⟩
  · cases hd with
    | use hsplit huse =>
      exact (hadv₃.trans hadv₄).linked b n _ (.use hsplit huse) (hlinked _ n _ hsplit huse)
    | fed hedge hphi hp hq => exact hfed _ hedge _ _ hphi hp n hq
  · refine hadv₄.caught _ phi d hphi hkind (hcaught handler hh phi hphi hkind d ?_)
    rwa [hknows.live]

theorem renameTo_ok {limit : Nat} {u : Unit} (hk : k.Sound nodes)
    (h : renameTo k.roster k.base.dominators limit (k.roster.entering k.graph k.reals b) b s =
      .ok u s')
    (hs : k.Fits s.value.flow) (hb : b ∈ k.base.graph.reversePostorder FlowGraph.entry)
    (hlimit : k.base.dominators.nodeCount < limit + (k.base.dominators.chain b).length) :
    k.Advances s.value.flow s'.value.flow ∧
      ∀ c ∈ k.base.graph.reversePostorder FlowGraph.entry, b ∈ k.base.dominators.chain c →
        k.Passed s'.value.flow c := by
  induction limit generalizing b s s' u with
  | zero =>
    have := Digraph.length_chain_le closed hentry hb
    rw [Nat.zero_add] at hlimit
    exact absurd hlimit (Nat.not_lt.2 this)
  | succ limit ih =>
    obtain ⟨here, m₁, m₂, m₃, m, hvisits, hchildren⟩ := renameTo_succ closed hentry hk h hs hb
    have hbelow := Edit.forM_ok hchildren (fun passed m => k.Advances s.value.flow m.value.flow ∧
      k.Passed m.value.flow b ∧ ∀ d ∈ passed, ∀ c ∈ k.base.graph.reversePostorder FlowGraph.entry,
        d ∈ k.base.dominators.chain c → k.Passed m.value.flow c)
      ⟨(hvisits.ok hk hs hb).1, (hvisits.ok hk hs hb).2, by simp⟩ ?_
    · refine ⟨hbelow.1, fun c hc hmem => ?_⟩
      rcases Digraph.exists_child_of_mem_chain closed hentry _ c hc rfl hmem with rfl | ⟨d, hd, hdc⟩
      · exact hbelow.2.1
      · exact hbelow.2.2 d (Digraph.mem_children_iff.2 hd) c hc hdc
    · rintro passed d rest m m' hsplit ⟨hadv, hpassed, hdone⟩ hstep
      have hd : d ∈ k.base.dominators.children b := by simp [hsplit]
      obtain ⟨hreached, -, henters⟩ := entering_child closed hentry hk hd
      have hlength := length_chain_child closed hentry hd
      rw [henters] at hstep
      obtain ⟨hadv', hnew⟩ := ih hstep hadv.fits hreached (by omega)
      refine ⟨hadv.trans hadv', hpassed.advances hadv', fun d' hd' c hc hmem => ?_⟩
      rcases List.mem_append.1 hd' with hd' | hd'
      · exact (hdone d' hd' c hc hmem).advances hadv'
      · rw [List.mem_singleton.1 hd'] at hmem
        exact hnew c hc hmem

/-- Renaming passes every block that can be reached. -/
theorem rename_ok {u : Unit} (h : rename k.roster k.base.dominators s = .ok u s')
    (hk : k.Sound nodes) (hs : k.Fits s.value.flow) :
    k.Advances s.value.flow s'.value.flow ∧ ∀ b ∈ k.base.graph.reversePostorder FlowGraph.entry,
      k.Passed s'.value.flow b := by
  obtain ⟨rest, hcons⟩ := Digraph.reversePostorder_eq_cons closed hentry
  have hin : FlowGraph.entry ∈ k.base.graph.reversePostorder FlowGraph.entry := by simp [hcons]
  have hnone : k.roster.entering k.graph k.reals FlowGraph.entry = none :=
    Digraph.entering_entry _
  rw [rename, ← hnone] at h
  have hlength : 0 < (k.base.dominators.chain FlowGraph.entry).length := by
    rw [FlowGraph.dominators, Digraph.chain_eq closed hentry hin]
    exact Nat.succ_pos _
  obtain ⟨hadv, hpassed⟩ := renameTo_ok closed hentry hk h hs hin (by omega)
  refine ⟨hadv, fun b hb => hpassed b hb ?_⟩
  rw [FlowGraph.dominators, Digraph.mem_chain_iff closed hentry hb]
  exact fun path hpath => hpath.start_mem

end descent

end Renaming

end MethodFlow
