import MethodFlow.Proofs.Ssa.Conversion

/-!
A converted variable along the paths of a graph. Whatever path leads to a block, the definition met
last on it is the one that the renaming has carried there.
-/

namespace MethodFlow

namespace Converted

variable {o : SsaOptions} {base f : FlowGraph} {scope : NodeId → Var → Prop}
  {reals : BlockId → List NodeId}
  {r : Roster} {b c : BlockId}

section

variable (h : Converted o base scope reals r f) (closed : base.graph.Closed)
  (hentry : base.contains FlowGraph.entry = true)

include h closed hentry

/-- A block with a definition has phis on all of its frontier. -/
theorem lastIn_eq_none_of_runner (hphi : r.phi? c = none)
    (hc : c ∈ base.graph.reversePostorder FlowGraph.entry)
    (hrun : b ∈ base.graph.runners base.dominators c) : r.lastIn f reals b = none := by
  have hcontains {m : BlockId} (hm : m ∈ base.graph.reversePostorder FlowGraph.entry) :
      base.contains m = true :=
    Digraph.contains_of_mem_preorder closed hentry
      ((Digraph.mem_reversePostorder closed hentry).1 hm)
  have hb : b ∈ base.graph.reversePostorder FlowGraph.entry := by
    have hreachable : base.dominators.isReachable c = true :=
      (Digraph.isReachable_iff closed hentry).2 hc
    rw [Digraph.runners, if_pos hreachable] at hrun
    obtain ⟨p, hp, hwalk⟩ := List.mem_flatMap.1 hrun
    exact Digraph.mem_reversePostorder_of_mem_chain closed hentry
      ((Digraph.isReachable_iff closed hentry).1 (List.mem_filter.1 hp).2)
      (List.takeWhile_subset _ hwalk)
  by_contra hsome
  obtain ⟨d, hd⟩ := Option.ne_none_iff_exists'.1 hsome
  obtain ⟨hmet, hdefines⟩ := Tree.mem_of_lastDefinition hd
  have hdefining : b ∈ r.definingBlocks := by
    refine h.prepared.defining b ((FlowGraph.mem_preorder closed hentry).2 (hcontains hb)) ?_
    rcases List.mem_append.1 hmet with hmet | hmet
    · obtain ⟨phi, _, hphi, -⟩ := h.prepared.targetAt?_eq_some.1 (Option.mem_toList.1 hmet)
      exact .inl (by simp [hphi])
    · refine .inr ⟨d, hmet, ?_⟩
      rwa [← h.prepared.kept.defines (h.var b d hmet)]
  have hin := h.covered b hdefining c
    (Digraph.mem_frontiers_iff.2 ⟨hcontains hb, hcontains hc, hrun⟩)
  simp [hphi] at hin

/-- A block without a phi is reached by the same definition along each of its edges. -/
theorem leaving_eq_entering (hphi : r.phi? c = none)
    (hb : b ∈ base.graph.reversePostorder FlowGraph.entry) (hc : c ∈ base.graph.successors b) :
    r.leaving f reals b = r.entering f reals c := by
  have hcr : c ∈ base.graph.reversePostorder FlowGraph.entry :=
    (Digraph.mem_reversePostorder closed hentry).2
      (Digraph.successor_mem_preorder closed hentry
        ((Digraph.mem_reversePostorder closed hentry).1 hb) hc)
  rw [Roster.leaving, Roster.entering, h.prepared.shape.dominators]
  exact Digraph.leaving_eq_entering closed hentry hb hc fun d hd =>
    h.lastIn_eq_none_of_runner closed hentry hphi hcr hd

/-- What is met in a block behind `before`, where `before` ends with the definition that reaches the
block if that has no phi. -/
theorem lastDefinition_append_met {before : List NodeId}
    (hb : b ∈ base.graph.reversePostorder FlowGraph.entry)
    (hbefore : r.phi? b = none → f.tree.lastDefinition before = r.entering f reals b) :
    f.tree.lastDefinition (before ++ r.met f reals b) = r.leaving f reals b := by
  rw [Tree.lastDefinition_append, Roster.leaving, h.prepared.shape.dominators,
    FlowGraph.dominators, Digraph.leaving_eq closed hentry hb]
  show (r.lastIn f reals b).or _ = (r.lastIn f reals b).or _
  cases hlast : r.lastIn f reals b with
  | some d => rfl
  | none =>
    have hnone : r.targetAt? f b = none := by
      by_contra hsome
      obtain ⟨target, htarget⟩ := Option.ne_none_iff_exists'.1 hsome
      have hin : target ∈ r.met f reals b := by simp [Roster.met, htarget]
      have := Tree.lastDefinition_isSome hin (h.prepared.defines_target htarget)
      rw [Roster.lastIn] at hlast
      simp [hlast] at this
    have hnone := h.prepared.phi?_eq_none hnone
    rw [Option.none_or, Option.none_or, hbefore hnone, Roster.entering,
      h.prepared.shape.dominators, FlowGraph.dominators]

omit closed hentry in
/-- A use in a block links to the definition met last. -/
theorem linkOf_of_met {before xs ys : List NodeId} {n : NodeId}
    (hb : b ∈ base.graph.reversePostorder FlowGraph.entry)
    (hbefore : r.phi? b = none → f.tree.lastDefinition before = r.entering f reals b)
    (hsplit : r.met f reals b = xs ++ n :: ys) (huse : f.tree.defines n = false) :
    f.tree.linkOf n = .ok (f.tree.lastDefinition (before ++ xs)) := by
  rw [Roster.met] at hsplit
  cases htarget : r.targetAt? f b with
  | none =>
    have hnone := h.prepared.phi?_eq_none htarget
    rw [htarget] at hsplit
    rw [h.use b hb xs n ys hsplit huse, Tree.lastDefinition_append, Roster.atHead, htarget,
      Option.none_or, hbefore hnone]
  | some target =>
    have hdefines := h.prepared.defines_target htarget
    rw [htarget] at hsplit
    cases xs with
    | nil =>
      obtain rfl : target = n := (List.cons.inj hsplit).1
      simp [hdefines] at huse
    | cons first rest =>
      obtain ⟨rfl, hreals⟩ := List.cons.inj hsplit
      rw [h.use b hb rest n ys hreals huse, Roster.atHead, htarget, Option.some_or,
        ← List.concat_append, Tree.lastDefinition_append, List.concat_eq_append,
        Tree.lastDefinition_concat_of_defines hdefines]

/-- Along a path from the entry, every use links to the definition met last before it, and the
definition met last on the path is the one that leaves its end. -/
theorem links_along {path : List BlockId} (route : base.graph.Route FlowGraph.entry path b) :
    (∀ xs n ys, path.flatMap (r.met f reals) = xs ++ n :: ys → f.tree.defines n = false →
      f.tree.linkOf n = .ok (f.tree.lastDefinition xs)) ∧
    f.tree.lastDefinition (path.flatMap (r.met f reals)) = r.leaving f reals b := by
  induction route with
  | start =>
    obtain ⟨rest, hcons⟩ := Digraph.reversePostorder_eq_cons closed hentry
    have hin : FlowGraph.entry ∈ base.graph.reversePostorder FlowGraph.entry := by simp [hcons]
    have hbefore : f.tree.lastDefinition [] = r.entering f reals FlowGraph.entry := by
      rw [Roster.entering, h.prepared.shape.dominators, FlowGraph.dominators,
        Digraph.entering_entry, Tree.lastDefinition_nil]
    rw [List.flatMap_singleton]
    refine ⟨fun xs n ys hsplit huse => ?_, ?_⟩
    · exact h.linkOf_of_met hin (fun _ => hbefore) hsplit huse
    · exact h.lastDefinition_append_met closed hentry hin fun _ => hbefore
  | @extend path b c hpath hc ih =>
    have hb : b ∈ base.graph.reversePostorder FlowGraph.entry :=
      (Digraph.path_iff_mem closed hentry).1 (Digraph.path_iff_route.2 ⟨path, hpath⟩)
    have hcr : c ∈ base.graph.reversePostorder FlowGraph.entry :=
      (Digraph.path_iff_mem closed hentry).1 (Digraph.path_iff_route.2 ⟨_, .extend hpath hc⟩)
    have hbefore (hphi : r.phi? c = none) :
        f.tree.lastDefinition (path.flatMap (r.met f reals)) = r.entering f reals c := by
      rw [ih.2, h.leaving_eq_entering closed hentry hphi hb hc]
    rw [List.flatMap_append, List.flatMap_singleton]
    refine ⟨fun xs n ys hsplit huse => ?_, ?_⟩
    · rcases List.append_eq_append_iff.1 hsplit with ⟨inner, rfl, hin⟩ | ⟨inner, hin, hout⟩
      · exact h.linkOf_of_met hcr hbefore hin huse
      · cases inner with
        | nil =>
          have hwhole : r.met f reals c = [] ++ n :: ys := by simpa using hout.symm
          have hlink := h.linkOf_of_met hcr hbefore hwhole huse
          rw [hin] at hlink
          simpa using hlink
        | cons first rest =>
          obtain ⟨rfl, -⟩ := List.cons.inj hout
          exact ih.1 xs n rest hin huse
    · exact h.lastDefinition_append_met closed hentry hcr hbefore

end

end Converted

end MethodFlow
