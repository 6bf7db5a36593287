import MethodFlow.Proofs.Ssa.Soundness

/-!
What a conversion leaves of the graph that it is given. Without the phis, which stand at the heads
of the blocks, the graph is what it was, but for the links and the numbers of the occurrences that
were renamed.
-/

namespace MethodFlow

open Edit

namespace FlowGraph

variable {o : SsaOptions} {input f : FlowGraph} {events events' : List Event} {form : SsaForm}

/-- What a conversion ends with, whether it removes phis or not. -/
theorem toSsa_tidy (coherent : input.Coherent)
    (h : toSsa o ⟨input, events⟩ = .ok form ⟨f, events'⟩) :
    FormEdit.Tidy { o with collapse := false } input (fun _ => False) ⟨f, form⟩ := by
  have hplain {m : FlowGraph} {events' : List Event} {plain : SsaForm}
      (hrun : toSsa { o with collapse := false } ⟨input, events⟩ = .ok plain ⟨m, events'⟩) :
      FormEdit.Tidy { o with collapse := false } input (fun _ => False) ⟨m, plain⟩ := by
    obtain ⟨hvars, hpartly⟩ := toSsa_ok hrun coherent rfl
    exact (hpartly.tidy (s := ⟨m, plain⟩) (hvars ▸ nodup_vars input _) coherent).mono
      fun _ => False.elim
  cases hcollapse : o.collapse with
  | false =>
    have hsame : { o with collapse := false } = o := by rw [← hcollapse]
    exact hplain (hsame ▸ h)
  | true =>
    obtain ⟨plain, m, hrun, count, hremoved⟩ := toSsa_collapse h hcollapse
    exact ((hplain hrun).collapse coherent hremoved).1

/-- Phis are put in front of what each block listed. Edges, handlers and subroutines stay as they
are, and so does every node that was there, but for the link and the number of an occurrence of a
converted variable in a block that can be reached. -/
theorem toSsa_keeps (made : input.Made) (h : toSsa o ⟨input, events⟩ = .ok form ⟨f, events'⟩) :
    input.SameShape f ∧ f.stamp = input.stamp ∧ input.tree.Retouched (input.Renames o) f.tree ∧
      ∀ b, ∃ phis, f.statements b = phis ++ input.statements b ∧
        (∀ n ∈ phis, (f.tree.phiKind? n).isSome) ∧
          ∀ n ∈ input.statements b, f.tree.phiKind? n = none := by
  have coherent := made.coherent
  have htidy := toSsa_tidy coherent h
  refine ⟨htidy.shape, htidy.shape.stamp, htidy.kept, fun b => ⟨_, htidy.lists b, ?_, ?_⟩⟩
  · intro n hn
    obtain ⟨r, hr, hphi⟩ := List.mem_filterMap.1 hn
    obtain ⟨p, hp⟩ := (htidy.prepared r hr).phi b n hphi
    simp [hp.holds.phiKind?]
  · intro n hn
    rw [htidy.kept.phiKind? (coherent.inside b n hn),
      (placedPhis_eq_zero coherent).1 (placedPhis_of_toSsa h) b n hn]

/-- The phi of the diamond stands in front of the return, which is still the parent of the local. -/
theorem diamond_keeps : diamond.Made ∧ Yields (toSsa {}) ⟨diamond, []⟩ fun _ m =>
    m.value.stamp = diamond.stamp ∧ m.value.statements ⟨3⟩ = [⟨12⟩, ⟨7⟩] ∧
      (m.value.tree.phiKind? ⟨12⟩).isSome ∧ m.value.tree.phiKind? ⟨7⟩ = none ∧
      m.value.tree.slot? ⟨7⟩ = diamond.tree.slot? ⟨7⟩ := by
  have made : diamond.Made := ⟨0, _, rfl⟩
  obtain ⟨form, m, hrun, hlist⟩ : Yields (toSsa {}) ⟨diamond, []⟩ fun _ m =>
      m.value.statements ⟨3⟩ = [⟨12⟩] ++ [⟨7⟩] := by decide +kernel
  have hbefore : diamond.statements ⟨3⟩ = [⟨7⟩] := by decide +kernel
  have hreturn : diamond.tree.slot? ⟨7⟩ = some ⟨.returnValue ⟨6⟩, none, some ⟨3⟩⟩ := by
    decide +kernel
  obtain ⟨-, hstamp, hkept, hlists⟩ := toSsa_keeps made hrun
  obtain ⟨phis, hphis, hkinds, hrest⟩ := hlists ⟨3⟩
  rw [hbefore] at hphis hrest
  obtain rfl : [⟨12⟩] = phis := List.append_cancel_right (hlist.symm.trans hphis)
  obtain ⟨s, hs, rfl | ⟨_, _, _, hnode, -⟩⟩ := hkept.slot ⟨7⟩ _ hreturn
  · exact ⟨made, form, m, hrun, hstamp, hlist, hkinds _ (by simp), hrest _ (by simp),
      hs.trans hreturn.symm⟩
  · simp at hnode

end FlowGraph

end MethodFlow
