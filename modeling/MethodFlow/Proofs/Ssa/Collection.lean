import MethodFlow.Proofs.Ssa.Provenance

/-!
What a conversion works on. Every variable that is converted and occurs in a statement of some block
has a roster, and the roster has the occurrences of the variable in the order in which a walk
through the graph meets them.
-/

namespace MethodFlow.FlowGraph

open Edit

variable {o : SsaOptions} {f input : FlowGraph} {v : Var} {b : BlockId} {m n : NodeId}
  {events events' : List Event} {form : SsaForm}

/-- The node is in use in a statement that the block lists. -/
def Lists (f : FlowGraph) (b : BlockId) (statement n : NodeId) : Prop :=
  statement ∈ f.statements b ∧ ∃ j, f.tree.Under statement j n

/-- One node is met before another: its block comes first in preorder, or its statement comes first
in the block of both, or it is evaluated first in the statement of both. -/
def MetBefore (f : FlowGraph) (m n : NodeId) : Prop :=
  ∃ b c x y, f.Lists b x m ∧ f.Lists c y n ∧ ([b, c].Sublist f.preorder ∨
    b = c ∧ ([x, y].Sublist (f.statements b) ∨ x = y ∧ f.tree.EvaluatedBefore m n))

/-- A node stands in one statement of one block. -/
theorem Lists.unique (coherent : f.Coherent) {c : BlockId} {x y : NodeId} (h : f.Lists b x n)
    (h' : f.Lists c y n) : b = c ∧ x = y := by
  obtain ⟨hx, i, hi⟩ := h
  obtain ⟨hy, j, hj⟩ := h'
  obtain ⟨sx, hsx⟩ := hi.exists_slot
  obtain ⟨sy, hsy⟩ := hj.exists_slot
  obtain ⟨-, hle⟩ := hi.nested_top coherent.tree hsx (coherent.root hx hsx) hj
  obtain ⟨-, hge⟩ := hj.nested_top coherent.tree hsy (coherent.root hy hsy) hi
  obtain rfl : i = j := Nat.le_antisymm hge hle
  obtain rfl : x = y := hi.unique coherent.tree.ownsChildren hj
  have hblock := (coherent.placed b x hx sx hsx).2
  rw [(coherent.placed c x hy sx hsx).2, Option.some.injEq] at hblock
  exact ⟨hblock.symm, rfl⟩

theorem MetBefore.asymm (coherent : f.Coherent) (h : f.MetBefore m n) : ¬f.MetBefore n m := by
  obtain ⟨b, c, x, y, hm, hn, hbefore⟩ := h
  rintro ⟨c', b', y', x', hn', hm', hbefore'⟩
  obtain ⟨rfl, rfl⟩ := hm.unique coherent hm'
  obtain ⟨rfl, rfl⟩ := hn.unique coherent hn'
  have hpreorder := nodup_preorder coherent.closed coherent.entry
  rcases hbefore with hblocks | ⟨rfl, hbefore⟩
  · rcases hbefore' with hblocks' | ⟨rfl, -⟩
    · exact not_sublist_swap hpreorder hblocks hblocks'
    · exact not_sublist_swap hpreorder hblocks hblocks
  rcases hbefore' with hblocks' | ⟨-, hbefore'⟩
  · exact not_sublist_swap hpreorder hblocks' hblocks'
  have hstatements := coherent.nodup b
  rcases hbefore with hfirst | ⟨rfl, hfirst⟩
  · rcases hbefore' with hfirst' | ⟨rfl, -⟩
    · exact not_sublist_swap hstatements hfirst hfirst'
    · exact not_sublist_swap hstatements hfirst hfirst
  rcases hbefore' with hfirst' | ⟨-, hfirst'⟩
  · exact not_sublist_swap hstatements hfirst' hfirst'
  obtain ⟨hx, j, hj⟩ := hm
  obtain ⟨sx, hsx⟩ := hj.exists_slot
  exact hfirst.asymm coherent.tree hsx (coherent.root hx hsx) hj hfirst'

/-- The occurrences of a variable in a statement stand in the order of evaluation. -/
theorem pairwise_occurrencesBelow (f : FlowGraph) (v : Var) (x : NodeId) :
    ((f.occurrencesBelow x).filter fun n => f.variableAt? n = some v).Pairwise
      f.tree.EvaluatedBefore := by
  have hwalk : (f.occurrencesBelow x).Pairwise fun m n =>
      (∃ j, f.tree.Under m (j + 1) n) ∨ f.tree.EvaluatedBefore m n :=
    List.pairwise_map.2 ((Tree.pairwise_walkTo rfl).filter _)
  refine (hwalk.filter _).imp_of_mem fun {m n} hm _ hmn => hmn.resolve_left ?_
  rintro ⟨j, hunder⟩
  have hvar := variableAt?_eq_some.1 (of_decide_eq_true (List.mem_filter.1 hm).2)
  exact Tree.Under.not_below_of_varOf hvar hunder

theorem lists_of_mem_occurrencesBelow {x : NodeId} (hx : x ∈ f.statements b)
    (hn : n ∈ (f.occurrencesBelow x).filter fun n => f.variableAt? n = some v) : f.Lists b x n := by
  obtain ⟨j, -, hj⟩ := Tree.under_of_mem_walkTo
    ((List.filter_sublist.map Prod.snd).subset (List.mem_filter.1 hn).1)
  exact ⟨hx, j, hj⟩

theorem realsIn_eq (f : FlowGraph) (v : Var) (b : BlockId) : f.realsIn v b =
    (f.statements b).flatMap fun x =>
      (f.occurrencesBelow x).filter fun n => f.variableAt? n = some v := List.filter_flatMap

/-- The occurrences of a variable in a block stand in the order of its statements, and in each
statement in the order of evaluation. -/
theorem pairwise_realsIn (f : FlowGraph) (v : Var) (b : BlockId) :
    (f.realsIn v b).Pairwise f.MetBefore := by
  rw [realsIn_eq, List.pairwise_flatMap]
  refine ⟨fun x hx => ?_, List.pairwise_iff_forall_sublist.2 fun {x y} hxy m hm n hn => ?_⟩
  · exact (f.pairwise_occurrencesBelow v x).imp_of_mem fun hm hn hmn =>
      ⟨b, b, x, x, lists_of_mem_occurrencesBelow hx hm, lists_of_mem_occurrencesBelow hx hn,
        .inr ⟨rfl, .inr ⟨rfl, hmn⟩⟩⟩
  · exact ⟨b, b, x, y, lists_of_mem_occurrencesBelow (hxy.subset (by simp)) hm,
      lists_of_mem_occurrencesBelow (hxy.subset (by simp)) hn, .inr ⟨rfl, .inl hxy⟩⟩

theorem exists_lists_of_mem_realsIn (hn : n ∈ f.realsIn v b) : ∃ x, f.Lists b x n := by
  rw [realsIn_eq] at hn
  obtain ⟨x, hx, hmem⟩ := List.mem_flatMap.1 hn
  exact ⟨x, lists_of_mem_occurrencesBelow hx hmem⟩

/-- The occurrences of a variable in a graph stand in the order of the blocks first. -/
theorem pairwise_flatMap_realsIn (f : FlowGraph) (v : Var) :
    (f.preorder.flatMap (f.realsIn v)).Pairwise f.MetBefore := by
  rw [List.pairwise_flatMap]
  refine ⟨fun b _ => f.pairwise_realsIn v b,
    List.pairwise_iff_forall_sublist.2 fun {b c} hbc m hm n hn => ?_⟩
  obtain ⟨x, hx⟩ := exists_lists_of_mem_realsIn hm
  obtain ⟨y, hy⟩ := exists_lists_of_mem_realsIn hn
  exact ⟨b, c, x, y, hx, hy, .inl hbc⟩

theorem vars_of_toSsa (coherent : input.Coherent)
    (h : toSsa o ⟨input, events⟩ = .ok form ⟨f, events'⟩) :
    form.vars = (input.occurrences o).map Occurrences.var := by
  cases hcollapse : o.collapse with
  | false => exact (toSsa_ok h coherent hcollapse).1
  | true =>
    obtain ⟨plain, m, hplain, count, hrun⟩ := toSsa_collapse h hcollapse
    have hs := toSsa_sturdy coherent hplain
    exact (FormEdit.Tidy.collapse
      (s := ⟨⟨m.value, plain⟩, m.events⟩) hs.toTidy coherent hrun).2.vars.trans
      (toSsa_ok hplain coherent rfl).1

/-- The occurrences that are collected are those in statements that the blocks list. -/
theorem mem_flatMap_realsIn (h : f.Coherent) (hphis : f.placedPhis = 0) :
    n ∈ f.preorder.flatMap (f.realsIn v) ↔ ∃ b x, f.Lists b x n ∧ f.tree.varOf n = .ok v := by
  simp only [List.mem_flatMap, mem_realsIn h hphis]
  constructor
  · rintro ⟨b, -, hvar, x, hx, hunder⟩
    exact ⟨b, x, ⟨hx, hunder⟩, hvar⟩
  · rintro ⟨b, x, ⟨hx, hunder⟩, hvar⟩
    have hb := (mem_preorder h.closed h.entry).2 (contains_of_mem_statements hx)
    exact ⟨b, hb, hvar, x, hx, hunder⟩

/-- A variable has a roster if it is converted and occurs somewhere. The roster has every occurrence
once, in the order in which they are met, whether its block can be reached or not, and it lists at a
block those of them that are in the block. -/
theorem toSsa_collects (made : input.Made) (h : toSsa o ⟨input, events⟩ = .ok form ⟨f, events'⟩) :
    form.vars.Nodup ∧
    (∀ v, v ∈ form.vars ↔
      o.converts v = true ∧ ∃ b x n, input.Lists b x n ∧ input.tree.varOf n = .ok v) ∧
    ∀ r ∈ form.rosters, r.reals.Nodup ∧
      (∀ n, n ∈ r.reals ↔ ∃ b x, input.Lists b x n ∧ input.tree.varOf n = .ok r.var) ∧
      (r.reals.Pairwise fun m n => input.MetBefore m n ∧ ¬input.MetBefore n m) ∧
      ∀ b, f.contains b = true →
        r.realsAt f b = .ok (r.reals.filter fun n => f.tree.home? n = some b) := by
  have coherent := made.coherent
  have hphis := placedPhis_of_toSsa h
  have hs := toSsa_sturdy coherent h
  refine ⟨hs.nodup, fun v => ?_, fun r hr => ?_⟩
  · rw [vars_of_toSsa coherent h, List.mem_map]
    constructor
    · rintro ⟨group, hgroup, rfl⟩
      obtain ⟨hconverts, hnodes⟩ := nodes_of_mem_occurrences hgroup
      obtain ⟨n, hn⟩ := List.exists_mem_of_ne_nil _ (nodes_ne_nil hgroup)
      obtain ⟨b, x, hlists⟩ := (mem_flatMap_realsIn coherent hphis).1 (hnodes ▸ hn)
      exact ⟨hconverts, b, x, n, hlists⟩
    · rintro ⟨hconverts, b, x, n, hlists⟩
      obtain ⟨c, -, hn⟩ := List.mem_flatMap.1
        ((mem_flatMap_realsIn coherent hphis).2 ⟨b, x, hlists⟩)
      exact exists_occurrences coherent hconverts hn
  · have hlies := lies_realsIn coherent (v := r.var) rfl
    have hnodup := hlies.nodup_nodes (nodup_preorder coherent.closed coherent.entry)
    rw [← hs.order r hr] at hnodup
    refine ⟨hnodup, fun n => ?_, ?_, fun b hb => ?_⟩
    · rw [hs.order r hr, mem_flatMap_realsIn coherent hphis]
    · rw [hs.order r hr]
      exact (input.pairwise_flatMap_realsIn r.var).imp fun hmn => ⟨hmn, hmn.asymm coherent⟩
    · have hprepared := hs.prepared r hr
      have hlisted : b ∈ input.preorder :=
        (mem_preorder coherent.closed coherent.entry).2 (hs.shape.contains ▸ hb)
      rw [hprepared.realsAt_eq hlisted hb,
        ← hlies.filter_home (nodup_preorder coherent.closed coherent.entry) hlisted, hs.order r hr]
      refine congrArg _ (List.filter_congr fun n hn => ?_)
      obtain ⟨c, -, hc⟩ := hlies.exists_block hn
      have hhome := hs.kept.keepsPlaces.blockOf (hlies.block c n hc)
      rw [hlies.home hc, Tree.home?, hhome]

/-- A stack slot is read and stored to by one statement, shuffled in the next block, and read in a
block that cannot be reached. -/
def scattered : FlowGraph := (ofLabel 0).requests
  [.addBlock 1, .addBlock 2, .addEdge ⟨0⟩ ⟨2⟩ .normal,
    .tree (.newVariable (.ofStack 0) .int), .tree (.newVariable (.ofStack 0) .int),
    .tree (.newVariable (.ofStack 1) .int), .tree (.newBinary .add ⟨1⟩ ⟨2⟩ .int),
    .tree (.newStore ⟨0⟩ ⟨3⟩), .appendStatement ⟨0⟩ ⟨4⟩,
    .tree (.newVariable (.ofStack 0) .int), .tree (.newEval ⟨5⟩), .appendStatement ⟨1⟩ ⟨6⟩,
    .tree (.newVariable (.ofStack 0) .int), .tree (.newVariable (.ofStack 1) .int),
    .tree (.newVariable (.ofStack 1) .int), .tree (.newVariable (.ofStack 0) .int),
    .tree (.newShuffle .swap [⟨7⟩, ⟨8⟩] [⟨9⟩, ⟨10⟩]), .appendStatement ⟨2⟩ ⟨11⟩]

/-- The slot is read before it is stored to, and the block that cannot be reached comes last. -/
theorem scattered_collects : scattered.Made ∧ Yields (toSsa {}) ⟨scattered, []⟩ fun form m =>
    ∃ r ∈ form.rosters, r.reals = [⟨1⟩, ⟨0⟩, ⟨10⟩, ⟨7⟩, ⟨5⟩] ∧
      (r.reals.Pairwise fun m n => scattered.MetBefore m n ∧ ¬scattered.MetBefore n m) ∧
      r.realsAt m.value ⟨1⟩ = .ok [⟨5⟩] := by
  have made : scattered.Made := ⟨0, _, rfl⟩
  obtain ⟨form, m, hrun, r, hr, hreals, hcontains, hhome⟩ :
      Yields (toSsa {}) ⟨scattered, []⟩ fun form m =>
        ∃ r ∈ form.rosters, r.reals = [⟨1⟩, ⟨0⟩, ⟨10⟩, ⟨7⟩, ⟨5⟩] ∧ m.value.contains ⟨1⟩ = true ∧
          (r.reals.filter fun n => m.value.tree.home? n = some ⟨1⟩) = [⟨5⟩] := by decide +kernel
  obtain ⟨-, -, hrosters⟩ := toSsa_collects made hrun
  obtain ⟨-, -, hordered, hat⟩ := hrosters r hr
  exact ⟨made, form, m, hrun, r, hr, hreals, hordered, by rw [hat ⟨1⟩ hcontains, hhome]⟩

end MethodFlow.FlowGraph
