import MethodFlow.Proofs.Graph.Frontier
import MethodFlow.Proofs.Ssa.Roster

/-!
The definitions that reach the start and the end of a block, read off a graph with its phis in
place.
-/

namespace MethodFlow

def Tree.lastDefinition (t : Tree) (ns : List NodeId) : Option NodeId := ns.reverse.find? t.defines

namespace Tree

variable {t : Tree} {xs ys : List NodeId} {d n : NodeId}

@[simp] theorem lastDefinition_nil : t.lastDefinition [] = none := rfl

theorem lastDefinition_append :
    t.lastDefinition (xs ++ ys) = (t.lastDefinition ys).or (t.lastDefinition xs) := by
  simp [lastDefinition, List.find?_append]

theorem lastDefinition_concat_of_defines (h : t.defines n = true) :
    t.lastDefinition (xs ++ [n]) = some n := by
  simp [lastDefinition, h]

theorem lastDefinition_concat_of_use (h : t.defines n = false) :
    t.lastDefinition (xs ++ [n]) = t.lastDefinition xs := by
  simp [lastDefinition, h]

theorem mem_of_lastDefinition (h : t.lastDefinition xs = some d) : d ∈ xs ∧ t.defines d = true :=
  ⟨List.mem_reverse.1 (List.mem_of_find?_eq_some h), List.find?_some h⟩

theorem lastDefinition_isSome (hn : n ∈ xs) (hd : t.defines n = true) :
    (t.lastDefinition xs).isSome :=
  List.find?_isSome.2 ⟨n, List.mem_reverse.2 hn, hd⟩

theorem lastDefinition_congr {t' : Tree} (h : ∀ n ∈ xs, t'.defines n = t.defines n) :
    t'.lastDefinition xs = t.lastDefinition xs := by
  rw [lastDefinition, lastDefinition, ← List.head?_filter, ← List.head?_filter]
  rw [List.filter_congr fun n hn => h n (List.mem_reverse.1 hn)]

end Tree

namespace Roster

def targetAt? (r : Roster) (f : FlowGraph) (b : BlockId) : Option NodeId :=
  (r.phi? b).bind fun phi => (f.tree.phiTarget phi).toOption

theorem targetAt?_eq_none {r : Roster} {f : FlowGraph} {b : BlockId} (h : r.phi? b = none) :
    r.targetAt? f b = none := by
  rw [targetAt?, h, Option.bind_none]

theorem targetAt?_of_phi? {r : Roster} {f : FlowGraph} {b : BlockId} {phi : NodeId} {p : Phi}
    (h : r.phi? b = some phi) (hp : f.tree.node? phi = some (.phi p)) :
    r.targetAt? f b = some p.target := by
  have htarget : f.tree.phiTarget phi = .ok p.target := Tree.phiTarget_ok.2 ⟨p, hp, rfl⟩
  rw [targetAt?, h, Option.bind_some, htarget]
  rfl

/-- What is met in a block: the target of its phi, and behind it the occurrences `reals b`. -/
def met (r : Roster) (f : FlowGraph) (reals : BlockId → List NodeId) (b : BlockId) : List NodeId :=
  (r.targetAt? f b).toList ++ reals b

def lastIn (r : Roster) (f : FlowGraph) (reals : BlockId → List NodeId) (b : BlockId) :
    Option NodeId := f.tree.lastDefinition (r.met f reals b)

/-- The definition that reaches the end of a block. -/
def leaving (r : Roster) (f : FlowGraph) (reals : BlockId → List NodeId) (b : BlockId) :
    Option NodeId := f.dominators.leaving (r.lastIn f reals) b

/-- The definition that reaches a block from its immediate dominator. -/
def entering (r : Roster) (f : FlowGraph) (reals : BlockId → List NodeId) (b : BlockId) :
    Option NodeId := f.dominators.entering (r.lastIn f reals) b

def atHead (r : Roster) (f : FlowGraph) (reals : BlockId → List NodeId) (b : BlockId) :
    Option NodeId := (r.targetAt? f b).or (r.entering f reals b)

def live (r : Roster) (f : FlowGraph) (reals : BlockId → List NodeId) (b : BlockId) : List NodeId :=
  (r.atHead f reals b).toList ++ (reals b).filter f.tree.defines

/-- Two graphs that the same definitions of a roster reach the same blocks of. -/
structure Alike (r : Roster) (reals : BlockId → List NodeId) (f f' : FlowGraph) : Prop where
  dominators : f'.dominators = f.dominators
  target : ∀ b, r.targetAt? f' b = r.targetAt? f b
  defines : ∀ b, ∀ n ∈ r.met f reals b, f'.tree.defines n = f.tree.defines n

namespace Alike

variable {r : Roster} {reals : BlockId → List NodeId} {f f' : FlowGraph} {b : BlockId}
  {ns : List NodeId}

theorem met (h : r.Alike reals f f') : r.met f' reals = r.met f reals := by
  funext b
  rw [Roster.met, Roster.met, h.target]

theorem lastDefinition (h : r.Alike reals f f') (hns : ∀ n ∈ ns, ∃ b, n ∈ r.met f reals b) :
    f'.tree.lastDefinition ns = f.tree.lastDefinition ns := by
  refine Tree.lastDefinition_congr fun n hn => ?_
  obtain ⟨b, hb⟩ := hns n hn
  exact h.defines b n hb

theorem lastIn (h : r.Alike reals f f') : r.lastIn f' reals = r.lastIn f reals := by
  funext b
  rw [Roster.lastIn, h.met, h.lastDefinition fun n hn => ⟨b, hn⟩, Roster.lastIn]

theorem leaving (h : r.Alike reals f f') : r.leaving f' reals = r.leaving f reals := by
  funext b
  rw [Roster.leaving, h.dominators, h.lastIn, Roster.leaving]

theorem atHead (h : r.Alike reals f f') : r.atHead f' reals = r.atHead f reals := by
  funext b
  rw [Roster.atHead, h.target, Roster.entering, h.dominators, h.lastIn, Roster.atHead,
    Roster.entering]

theorem live (h : r.Alike reals f f') : r.live f' reals = r.live f reals := by
  funext b
  have hfilter : (reals b).filter f'.tree.defines = (reals b).filter f.tree.defines :=
    List.filter_congr fun n hn => h.defines b n (List.mem_append_right _ hn)
  rw [Roster.live, h.atHead, hfilter, Roster.live]

end Alike

namespace Prepared

variable {o : SsaOptions} {base f : FlowGraph} {v : Var} {scope : NodeId → Var → Prop}
  {reals : BlockId → List NodeId} {r : Roster} {b : BlockId} {target : NodeId}

theorem targetAt?_eq_some (h : Prepared (Admits o) base v scope reals r f) :
    r.targetAt? f b = some target ↔
      ∃ phi p, r.phi? b = some phi ∧ f.tree.node? phi = some (.phi p) ∧ p.target = target := by
  constructor
  · intro htarget
    obtain ⟨phi, hphi, -⟩ := Option.bind_eq_some_iff.1 htarget
    obtain ⟨p, hp⟩ := h.phi b phi hphi
    have hnode : f.tree.node? phi = some (.phi p) := hp.holds.node?
    rw [targetAt?_of_phi? hphi hnode, Option.some.injEq] at htarget
    exact ⟨phi, p, hphi, hnode, htarget⟩
  · rintro ⟨phi, p, hphi, hp, rfl⟩
    exact targetAt?_of_phi? hphi hp

/-- The target of a phi defines the variable, and it lies where the phi does. -/
theorem target_occurrence (h : Prepared (Admits o) base v scope reals r f)
    (htarget : r.targetAt? f b = some target) :
    ∃ phi o, f.tree.slot? target = some ⟨.occurrence o, some phi, none⟩ ∧ o.var = v ∧
      o.defines = true ∧ f.tree.blockOf target = .ok (some b) := by
  obtain ⟨phi, p, hphi, hnode, rfl⟩ := h.targetAt?_eq_some.1 htarget
  obtain ⟨p', hp⟩ := h.phi b phi hphi
  obtain rfl : p = p' := by
    simpa [hnode] using hp.holds.node?
  obtain ⟨o, hs, hv, hd⟩ := hp.holds.target
  refine ⟨phi, o, hs, hv, hd, Tree.blockOf_ok.2 ⟨phi, ?_, _, hp.holds.slot, rfl⟩⟩
  have hsize : 0 < f.tree.size := Nat.zero_lt_of_lt (Tree.index_lt_size hs)
  obtain ⟨limit, hlimit⟩ := Nat.exists_eq_add_of_lt hsize
  rw [Tree.root, hlimit]
  exact Tree.climb_succ_ok.2 ⟨_, hs, Tree.climb_succ_ok.2 ⟨_, hp.holds.slot, rfl⟩⟩

theorem defines_target (h : Prepared (Admits o) base v scope reals r f)
    (htarget : r.targetAt? f b = some target) : f.tree.defines target = true := by
  obtain ⟨_, o, hs, -, hd, -⟩ := h.target_occurrence htarget
  simp [Tree.defines, Tree.node?, hs, hd]

theorem phi?_eq_none (h : Prepared (Admits o) base v scope reals r f)
    (htarget : r.targetAt? f b = none) :
    r.phi? b = none := by
  cases hphi : r.phi? b with
  | none => rfl
  | some phi =>
    obtain ⟨p, hp⟩ := h.phi b phi hphi
    rw [targetAt?_of_phi? hphi hp.holds.node?] at htarget
    simp at htarget

/-- The definition that leaves a block is the last one there behind its phi, or the one that
reaches this point. -/
theorem leaving_eq (h : Prepared (Admits o) base v scope reals r f) (closed : base.graph.Closed)
    (hentry : base.contains FlowGraph.entry = true)
    (hb : b ∈ base.graph.reversePostorder FlowGraph.entry) :
    r.leaving f reals b = (f.tree.lastDefinition (reals b)).or (r.atHead f reals b) := by
  have hlast : f.tree.lastDefinition (r.targetAt? f b).toList = r.targetAt? f b := by
    cases htarget : r.targetAt? f b with
    | none => rfl
    | some target =>
      have hone : f.tree.lastDefinition ([] ++ [target]) = some target :=
        Tree.lastDefinition_concat_of_defines (h.defines_target htarget)
      exact hone
  rw [leaving, h.shape.dominators, FlowGraph.dominators, Digraph.leaving_eq closed hentry hb,
    lastIn, met, Tree.lastDefinition_append, hlast, atHead, entering, h.shape.dominators,
    Option.or_assoc, FlowGraph.dominators]

end Prepared

end Roster

end MethodFlow
