import MethodFlow.Proofs.Flow.Growth
import MethodFlow.Proofs.Flow.Operands
import MethodFlow.Proofs.Tree.Uprooting

/-!
Operands at a join whose edges have gone. A phi keeps the operands whose keys are still asked for,
in the order in which it stores them, and answers in the order in which it is asked. What it drops
goes with everything below it.
-/

namespace MethodFlow

open Edit

theorem PhiInputs.find?_filter {operands : List (BlockId × NodeId)} {preds : List BlockId}
    {key : BlockId}
    (hkey : key ∈ preds) : find? (operands.filter fun q => q.1 ∈ preds) key =
      find? operands key := by
  rw [find?, find?, List.find?_filter]
  congr 2
  funext q
  by_cases hq : q.1 = key <;> simp [hq, hkey]

theorem PhiInputs.filterMap_find?_filter (operands : List (BlockId × NodeId))
    (preds : List BlockId) :
    preds.filterMap (find? (operands.filter fun q => q.1 ∈ preds)) =
      preds.filterMap (find? operands) :=
  List.filterMap_congr fun _ hkey => find?_filter hkey

/-- A phi that stores those operands only that `preds` key. -/
def Slot.retaining (s : Slot) (target : NodeId) (block : BlockId)
    (operands : List (BlockId × NodeId)) (preds : List BlockId) : Slot :=
  { s with node := .phi ⟨target, .joining block (operands.filter fun q => q.1 ∈ preds)⟩ }

namespace Tree

variable {t t' : Tree} {n m q : NodeId} {s : Slot}

/-- Operands that their phi has stopped listing go with everything below them. -/
theorem uprootsAll_dropOperands {event : NodeId → Event} {dropped : List NodeId} {u : Unit}
    {r r' : Recorded Tree} (h : dropOperands event dropped r = .ok u r')
    (coherent : r.value.Coherent)
    (hstray : ∀ q ∈ dropped, r.value.Stray q) : UprootsAll r.value r'.value dropped := by
  induction dropped generalizing r with
  | nil =>
    obtain ⟨-, rfl⟩ := pure_ok.1 h
    exact ⟨by simp, fun _ _ => rfl⟩
  | cons q rest ih =>
    obtain ⟨_, m, hstep, hrest⟩ := bind_ok.1 h
    obtain ⟨_, m₁, hreport, hdiscard⟩ := bind_ok.1 hstep
    obtain rfl := report_ok.1 hreport
    obtain ⟨tree, htree, rfl⟩ := quietly_ok.1 hdiscard
    change discard q r.value = .ok () tree at htree
    have hq : r.value.Stray q := hstray q List.mem_cons_self
    have hevolves := evolves_discard (n := q) (fun _ => hq) coherent
    have hthins := thins_discard r.value q
    rw [after_of_ok htree] at hevolves hthins
    obtain ⟨_, t₁, hparent, -⟩ := bind_ok.1 htree
    obtain ⟨sq, hsq, -⟩ := setParent_ok.1 hparent
    have huproots := uproots_discard coherent hsq hq
    rw [yields_of_ok htree] at huproots
    apply UprootsAll.cons huproots
    apply ih hrest hevolves.1
    exact fun x hx => (hstray x (List.mem_cons_of_mem q hx)).of_thins hthins

section retaining

variable {target : NodeId} {block : BlockId} {operands : List (BlockId × NodeId)}
  {preds : List BlockId}

/-- A phi with nothing to drop is read without a change. -/
theorem retainJoinOperands_of_kept {r : Recorded Tree}
    (hn : r.value.node? n = some (.phi ⟨target, .joining block operands⟩))
    (hkept : ∀ q ∈ operands, q.1 ∈ preds) :
    retainJoinOperands n preds r = .ok (preds.filterMap (PhiInputs.find? operands)) r := by
  obtain ⟨s, hs, hnode⟩ := node?_eq_some.1 hn
  have hall : (operands.filter fun q => q.1 ∈ preds) = operands :=
    List.filter_eq_self.2 fun q hq => decide_eq_true (hkept q hq)
  have hnone : (operands.filter fun q => q.1 ∉ preds) = [] :=
    List.filter_eq_nil_iff.2 fun q hq => by simp [hkept q hq]
  have hsame : r.value.put n { s with node := .phi ⟨target, .joining block operands⟩ } =
      r.value := by
    rw [← hnode]
    exact put_self hs
  refine bind_ok.2 ⟨_, r, ask_ok.2 ⟨node_ok.2 hn, rfl⟩, ?_⟩
  simp only [hall, hnone, List.map_nil]
  refine bind_ok.2 ⟨(), r, quietly_ok.2 ⟨r.value, setNode_ok.2 ⟨s, hs, hsame⟩, rfl⟩, ?_⟩
  rfl

/-- A phi at a join stores what it keeps, and what it drops goes from the tree in which it has been
stored. -/
theorem yields_retainJoinOperands (coherent : t.Coherent) (hs : t.slot? n = some s)
    (hnode : s.node = .phi ⟨target, .joining block operands⟩)
    (hlive : ∀ q ∈ operands, t.isLive q.2 = true) (events : List Event) :
    Yields (retainJoinOperands n preds) ⟨t, events⟩ fun kept r' =>
      kept = preds.filterMap (PhiInputs.find? operands) ∧
      UprootsAll (t.put n (s.retaining target block operands preds)) r'.value
        ((operands.filter fun q => q.1 ∉ preds).map Prod.snd) := by
  have hn : t.node? n = some (.phi ⟨target, .joining block operands⟩) :=
    node?_eq_some.2 ⟨s, hs, hnode⟩
  have hperm : ((Phi.mk target (.joining block (operands.filter fun q => q.1 ∈ preds))).operands ++
      (operands.filter fun q => q.1 ∉ preds).map Prod.snd).Perm
        (Phi.mk target (.joining block operands)).operands := perm_operands_of_keys preds operands
  obtain ⟨hput, -, hstray⟩ := coherent.release hs hnode hperm
  have hused : ∀ q ∈ (operands.filter fun q => q.1 ∉ preds).map Prod.snd, t.isLive q = true := by
    intro q hq
    obtain ⟨o, ho, rfl⟩ := List.mem_map.1 hq
    exact hlive o (List.mem_of_mem_filter ho)
  have hread : ask (fun r : Recorded Tree => r.value.node n) ⟨t, events⟩ =
      .ok (.phi ⟨target, .joining block operands⟩) ⟨t, events⟩ := ask_ok.2 ⟨node_ok.2 hn, rfl⟩
  apply Yields.of_first hread
  apply (dropping_succeeds coherent hn hperm hused (Event.edgeOperandDropped · n) events).of_ok
  intro kept r' hrun _
  obtain ⟨_, r₁, hstore, hrest⟩ := bind_ok.1 hrun
  obtain ⟨t₁, hset, rfl⟩ := quietly_ok.1 hstore
  obtain ⟨s', hs', rfl⟩ := setNode_ok.1 hset
  obtain rfl := Option.some.inj (hs.symm.trans hs')
  obtain ⟨_, r₂, hdrop, hreturn⟩ := bind_ok.1 hrest
  obtain ⟨rfl, rfl⟩ := pure_ok.1 hreturn
  exact ⟨PhiInputs.filterMap_find?_filter operands preds,
    uprootsAll_dropOperands hdrop hput fun q hq => (hstray q hq).2⟩

/-- The phi stores the operands that `preds` key, and the others are gone with everything below
them. -/
structure Retains (t t' : Tree) (n : NodeId) (s : Slot) (target : NodeId) (block : BlockId)
    (operands : List (BlockId × NodeId)) (preds : List BlockId) : Prop where
  stored : t'.slot? n = some (s.retaining target block operands preds)
  gone : ∀ q ∈ operands, q.1 ∉ preds → ∀ m ∈ t.subtree q.2, t'.slot? m = none
  kept : ∀ m ≠ n, (∀ q ∈ operands, q.1 ∉ preds → m ∉ t.subtree q.2) → t'.slot? m = t.slot? m

theorem UprootsAll.retains (coherent : t.Coherent) (hs : t.slot? n = some s)
    (hnode : s.node = .phi ⟨target, .joining block operands⟩)
    (h : UprootsAll (t.put n (s.retaining target block operands preds)) t'
      ((operands.filter fun q => q.1 ∉ preds).map Prod.snd)) :
    Retains t t' n s target block operands preds := by
  have hroot : s.parent = none := coherent.root n s hs (by rw [hnode]; rfl)
  have hout : ∀ q ∈ operands, ∀ j, ¬t.Under q.2 j n := by
    intro q hq j hunder
    obtain rfl := hunder.eq_of_root coherent hs hroot
    apply coherent.not_mem_children hs hroot hs
    rw [hnode]
    exact List.mem_cons_of_mem _ (List.mem_map_of_mem hq)
  -- What stands below the operands is the same before and after the phi stores another list.
  have hsame : ∀ q ∈ operands, ∀ m s', m ∈ (t.put n s').subtree q.2 ↔
      m ∈ t.subtree q.2 := fun q hq m s' =>
    exists_congr fun j => under_put_of_not hs s' (hout q hq)
  have hkept : ∀ m, (∀ q ∈ operands, q.1 ∉ preds → m ∉ t.subtree q.2) → t'.slot? m =
      if m = n then some (s.retaining target block operands preds) else t.slot? m := by
    intro m hm
    rw [← slot?_put_of_slot hs]
    apply h.kept m
    intro x hx
    obtain ⟨q, hq, rfl⟩ := List.mem_map.1 hx
    obtain ⟨hin, hkey⟩ := List.mem_filter.1 hq
    rw [hsame q hin]
    exact hm q hin (of_decide_eq_true hkey)
  constructor
  · rw [hkept n fun q hq _ ⟨j, hunder⟩ => hout q hq j hunder, if_pos rfl]
  · intro q hq hkey m hm
    have hdropped : q ∈ operands.filter fun q => q.1 ∉ preds :=
      List.mem_filter.2 ⟨hq, decide_eq_true hkey⟩
    exact h.gone q.2 (List.mem_map_of_mem hdropped) m ((hsame q hq m _).2 hm)
  · intro m hm hbelow
    rw [hkept m hbelow, if_neg hm]

namespace Retains

theorem node? (h : Retains t t' n s target block operands preds) : t'.node? n =
    some (.phi ⟨target, .joining block (operands.filter fun q => q.1 ∈ preds)⟩) :=
  node?_eq_some.2 ⟨_, h.stored, rfl⟩

/-- Of operands that are variables, exactly those that are dropped go. -/
theorem slot?_of_vars (h : Retains t t' n s target block operands preds)
    (hlive : ∀ q ∈ operands, t.isLive q.2 = true)
    (hvars : ∀ q ∈ operands, q.1 ∉ preds → ∃ v, t.varOf q.2 = .ok v) (hm : m ≠ n) :
    t'.slot? m = if ∃ q ∈ operands, q.1 ∉ preds ∧ q.2 = m then none else t.slot? m := by
  split
  · next hdropped =>
    obtain ⟨q, hq, hkey, rfl⟩ := hdropped
    obtain ⟨sq, hsq⟩ := Option.isSome_iff_exists.1 (hlive q hq)
    exact h.gone q hq hkey q.2 ⟨0, .self hsq⟩
  · next hdropped =>
    apply h.kept m hm
    rintro q hq hkey ⟨j, hunder⟩
    obtain ⟨v, hv⟩ := hvars q hq hkey
    exact hdropped ⟨q, hq, hkey, (hunder.eq_of_varOf hv).symm⟩

/-- With the predecessors of its block, a phi stores operands for edges only. -/
theorem hasEdge {f : FlowGraph} {p : Phi} {stored : List (BlockId × NodeId)} {key : BlockId}
    (h : Retains t t' n s target block operands (f.preds block)) (hp : t'.phi n = .ok p)
    (hinputs : p.inputs = .joining block stored) (hq : (key, q) ∈ stored) :
    f.graph.hasEdge key block = true := by
  obtain rfl : ⟨target, .joining block (operands.filter fun q => q.1 ∈ f.preds block)⟩ = p := by
    simpa [h.node?] using phi_ok.1 hp
  obtain ⟨-, rfl⟩ := PhiInputs.joining.inj hinputs
  have hkey : key ∈ f.preds block := of_decide_eq_true (List.mem_filter.1 hq).2
  exact FlowGraph.hasEdge_iff.2 (Digraph.mem_predecessors_iff.1 hkey)

end Retains

/-- Join operands are retained by their keys, and asking once more changes nothing. A dropped
operand goes with everything below it, which is the operand alone if it is a variable. -/
theorem Coherent.retains_by_key (coherent : t.Coherent) (hs : t.slot? n = some s)
    (hnode : s.node = .phi ⟨target, .joining block operands⟩)
    (hlive : ∀ q ∈ operands, t.isLive q.2 = true) (events : List Event) :
    Yields (retainJoinOperands n preds) ⟨t, events⟩ fun kept r' =>
      kept = preds.filterMap (PhiInputs.find? operands) ∧
      Retains t r'.value n s target block operands preds ∧
      ((∀ q ∈ operands, q.1 ∉ preds → ∃ v, t.varOf q.2 = .ok v) → ∀ m ≠ n, r'.value.slot? m =
        if ∃ q ∈ operands, q.1 ∉ preds ∧ q.2 = m then none else t.slot? m) ∧
      (∀ (f : FlowGraph) (p : Phi), preds = f.preds block → r'.value.phi n = .ok p →
        ∀ stored, p.inputs = .joining block stored →
          ∀ q ∈ stored, f.graph.hasEdge q.1 block = true) ∧
      retainJoinOperands n preds r' = .ok kept r' := by
  apply (yields_retainJoinOperands coherent hs hnode hlive events).mono
  rintro kept r' ⟨rfl, huproots⟩
  have hretains := huproots.retains coherent hs hnode
  have hkeys : ∀ q ∈ operands.filter fun q => q.1 ∈ preds, q.1 ∈ preds := fun q hq =>
    of_decide_eq_true (List.mem_filter.1 hq).2
  refine ⟨rfl, hretains, fun hvars m hm => hretains.slot?_of_vars hlive hvars hm, ?_, ?_⟩
  · rintro f p rfl hp stored hinputs q hq
    exact hretains.hasEdge hp hinputs hq
  · rw [retainJoinOperands_of_kept hretains.node? hkeys, PhiInputs.filterMap_find?_filter]

def mergeTwo : List TreeEdit :=
  [.request (.newVariable (.ofLocal 0) .int), .request (.newJoinPhi ⟨0⟩ ⟨3⟩ [⟨1⟩, ⟨2⟩])]

theorem retains_of_mergeTwo :
    Yields (retainJoinOperands ⟨3⟩ [⟨4⟩, ⟨2⟩, ⟨2⟩]) ⟨Tree.empty.edits mergeTwo, []⟩ fun kept r' =>
      kept = [⟨2⟩, ⟨2⟩] ∧ r'.value.slot? ⟨1⟩ = none ∧
        r'.value.slot? ⟨2⟩ = (Tree.empty.edits mergeTwo).slot? ⟨2⟩ ∧
          retainJoinOperands ⟨3⟩ [⟨4⟩, ⟨2⟩, ⟨2⟩] r' = .ok kept r' := by
  have hphi : (Tree.empty.edits mergeTwo).slot? ⟨3⟩ =
      some { node := .phi ⟨⟨0⟩, .joining ⟨3⟩ [(⟨1⟩, ⟨1⟩), (⟨2⟩, ⟨2⟩)]⟩ } := by decide +kernel
  have hlive : (Tree.empty.edits mergeTwo).isLive ⟨1⟩ = true ∧
      (Tree.empty.edits mergeTwo).isLive ⟨2⟩ = true := by decide +kernel
  have hvar : (Tree.empty.edits mergeTwo).node? ⟨1⟩ =
      some (.occurrence { var := .ofLocal 0, type := .int }) := by
    decide +kernel
  apply (Coherent.retains_by_key (coherent_edits mergeTwo) hphi rfl (by simpa using hlive) []).mono
  rintro kept r' ⟨hkept, -, hvars, -, hagain⟩
  have hslots := hvars (by simpa using ⟨_, hvar⟩)
  exact ⟨hkept.trans (by decide), (hslots ⟨1⟩ (by decide)).trans (by decide +kernel),
    (hslots ⟨2⟩ (by decide)).trans (by decide +kernel), hagain⟩

/-- An operand of a phi is replaced by a sum. -/
def mergeSum : List TreeEdit :=
  [.request (.newVariable (.ofLocal 0) .int), .request (.newJoinPhi ⟨0⟩ ⟨0⟩ [⟨0⟩]),
    .request (.newVariable (.ofLocal 1) .int), .request (.newVariable (.ofLocal 2) .int),
    .request (.newBinary .add ⟨3⟩ ⟨4⟩ .int), .request (.replace ⟨1⟩ ⟨5⟩)]

/-- A replacement can make an expression the operand of a phi, and then what is below it goes
too. -/
theorem drops_below_mergeSum :
    (Tree.empty.edits mergeSum).node ⟨2⟩ = .ok (.phi ⟨⟨0⟩, .joining ⟨0⟩ [(⟨0⟩, ⟨5⟩)]⟩) ∧
    (Tree.empty.edits mergeSum).isLive ⟨5⟩ = true ∧
    (Tree.empty.edits mergeSum).isLive ⟨3⟩ = true ∧
    (retainJoinOperands ⟨2⟩ []).outcome ⟨Tree.empty.edits mergeSum, []⟩ = .ok [] ∧
    ((retainJoinOperands ⟨2⟩ []).after ⟨Tree.empty.edits mergeSum, []⟩).value.isLive ⟨3⟩ =
      false := by
  decide +kernel

end retaining

end Tree

end MethodFlow
