import MethodFlow.Proofs.Success.Conversion
import MethodFlow.Proofs.Tree.Tracing

/-!
What links lead to. A link leads to what is a definition of the same variable, or was one in a graph
that the requests led through. Definitions are not linked themselves, as long as no linked use is
put in the place of one.
-/

namespace MethodFlow

open Edit

open Occurrence (Wires IsLinkedDefinition)

def FlowRequest.Relinks : FlowRequest → Prop
  | tree (.setLink _ _) | convert _ | onForm _ .collapse => True
  | _ => False

namespace Tree

variable {t t' : Tree} {n d : NodeId} {v : Var} {o : Occurrence}

theorem Rewires.wires (h : t.Rewires t') (hd : t'.Holds (Wires v d)) :
    t.Holds (Wires v d) ∨ t'.Occurs v true d := by
  obtain ⟨n, o', ho', rfl, hlink⟩ := hd
  rcases h.linked n d (linkOf_ok.2 ⟨o', ho', hlink⟩) with hold | ⟨w, hw, hocc⟩
  · obtain ⟨o, ho, hlink⟩ := linkOf_ok.1 hold
    obtain ⟨o₁, ho₁, hv, -⟩ := h.occurs o.var o.defines n ⟨o, ho, rfl, rfl⟩
    obtain rfl : o' = o₁ := by simpa [ho'] using ho₁
    exact .inl ⟨n, o, ho, hv.symm, hlink⟩
  · obtain ⟨o₁, ho₁, rfl⟩ := varOf_ok.1 hw
    obtain rfl : o' = o₁ := by simpa [ho'] using ho₁
    exact .inr hocc

/-- An occurrence whose link leads to a definition, while that is in use, has a version. There is
none once the definition is gone. -/
theorem exists_versionOf (ho : t.node? n = some (.occurrence o))
    (h : ∀ d, o.link = some d → t.isLive d = true → t.Occurs o.var true d) :
    ∃ i, t.versionOf n = .ok i ∧
      (o.defines = false → ∀ d, o.link = some d → t.isLive d = false → i = none) := by
  have hdefinition : t.definitionOf n = .ok (o.definition n) := definitionOf_ok.2 ⟨o, ho, rfl⟩
  cases hdefines : o.defines with
  | true =>
    exact ⟨_, versionOf_of_occurs ⟨o, ho, rfl, hdefines⟩, fun hfalse => absurd hfalse (by simp)⟩
  | false =>
    have hlink : o.definition n = o.link := by simp [Occurrence.definition, hdefines]
    rw [hlink] at hdefinition
    cases hd : o.link with
    | none =>
      exact ⟨none, by simp [versionOf, hdefinition, hd, bind, Except.bind, pure, Except.pure],
        by simp⟩
    | some d =>
      cases hlive : t.isLive d with
      | false =>
        exact ⟨none,
          by simp [versionOf, hdefinition, hd, hlive, bind, Except.bind, pure, Except.pure],
          fun _ _ _ _ => rfl⟩
      | true =>
        obtain ⟨o', ho', -⟩ := h d hd hlive
        refine ⟨o'.version, ?_, ?_⟩
        · simp [versionOf, hdefinition, hd, hlive, occurrence_ok.2 ho', bind,
            Except.bind, Functor.map, Except.map]
        · rintro - _ ⟨⟩ hdead
          simp [hlive] at hdead

end Tree

namespace FlowGraph

variable {f g : FlowGraph} {o : SsaOptions} {rs : List FlowRequest} {v : Var} {d : NodeId}

/-- A conversion that removes phis goes through a graph in which they all are. -/
def midway (f : FlowGraph) : FlowRequest → List FlowGraph
  | .convert o => [f.request (.convert { o with collapse := false })]
  | _ => []

/-- The graphs that requests lead through, the first and the last included. -/
def visited : FlowGraph → List FlowRequest → List FlowGraph
  | f, [] => [f]
  | f, r :: rest => f :: (f.midway r ++ (f.request r).visited rest)

section converting

theorem toSsa_eq (hon : o.collapse = true) : toSsa o = (do
    let plain ← toSsa { o with collapse := false }
    let (_, form) ← Bench.beside plain FormEdit.collapse
    return form) := by
  unfold toSsa
  simp only [hon, if_true, Bool.false_eq_true, if_false, bind_assoc, pure_bind]
  rfl

theorem request_convert (f : FlowGraph) (o : SsaOptions) :
    f.request (.convert o) = ((toSsa o).after ⟨f, []⟩).value := by
  rw [request, FlowRequest.run, after_bind_pure]

theorem along_midway {T : Tree → Tree → Prop} {R : FlowGraph → FlowGraph → Prop}
    [IsPreorder FlowGraph R] (hc : Collapsing T R) (f : FlowGraph) (o : SsaOptions) :
    R (f.request (.convert { o with collapse := false })) (f.request (.convert o)) := by
  cases hcollapse : o.collapse with
  | false =>
    have hsame : { o with collapse := false } = o := by rw [← hcollapse]
    rw [hsame]
    exact Std.Refl.refl _
  | true =>
    have hremove (plain : SsaForm) : Moves (Recorded.Along R) (do
        let (_, form) ← Bench.beside plain FormEdit.collapse
        return form) :=
      (Bench.moves_beside (FormEdit.moves_collapse hc)).bind fun _ => .pure _
    rw [request_convert, request_convert, toSsa_eq hcollapse]
    rcases after_bind_cases (x := toSsa { o with collapse := false }) (f := fun plain => do
      let (_, form) ← Bench.beside plain FormEdit.collapse
      return form) ⟨f, []⟩ with hstop | ⟨plain, -, hrest⟩
    · rw [hstop]
      exact Std.Refl.refl _
    · rw [hrest]
      exact hremove plain _

/-- As long as phis stay, a conversion links to definitions in use. -/
theorem rewires_midway (h : f.Coherent) (o : SsaOptions) :
    f.tree.Rewires (f.request (.convert { o with collapse := false })).tree := by
  rw [request_convert]
  by_cases hrefused : f.Refused { o with collapse := false }
  · obtain ⟨hnot, -⟩ | ⟨-, cause, s', hcollect, hsame⟩ :=
      collect_outcome { o with collapse := false } ⟨f, []⟩ h
    · exact absurd hrefused hnot
    · have hrun : toSsa { o with collapse := false } ⟨f, []⟩ = .error (.graph cause) s' :=
        bind_error.2 (.inl hcollect)
      rw [after_of_error hrun, hsame]
      exact Std.Refl.refl f.tree
  · obtain ⟨form, m, hrun, -, hlinks⟩ : Yields (toSsa { o with collapse := false }) ⟨f, []⟩ _ :=
      toSsa_yields h hrefused
    rw [after_of_ok hrun]
    exact hlinks rfl

end converting

section linking

theorem asking_wires (v : Var) (d : NodeId) :
    Asking (fun r => ¬r.Relinks) (Tree.Traces (Wires v d)) (OnTree (Tree.Traces (Wires v d))) := by
  have primitive := Tree.Traces.primitive (Occurrence.ofLinks_wires v d)
  refine .onTree primitive Tree.Traces.moves_setBlock (fun r hr => ?_) fun h => ?_
  · exact primitive.moves_run r (fun n e he => absurd (he ▸ trivial) hr) fun old new _ =>
      Tree.Traces.moves_replace_wires old new
  · rcases h with ⟨o, hr⟩ | ⟨form, hr⟩ <;> exact absurd trivial hr

theorem collapsing_recedes : Collapsing Tree.Recedes (OnTree Tree.Recedes) :=
  .of_pruning Tree.Recedes.pruning Tree.Recedes.moves_setLink (fun _ _ => id)
    (OnTree.moves_removeStatement fun n block t =>
      (Tree.LosesOccurrences.moves_modifySlot n (f := fun s => { s with block })
        (fun _ _ => id) t).recedes)

/-- A link is an old one, or it leads to a definition in a graph that the request led through. -/
theorem wires_of_request (h : f.Coherent) (r : FlowRequest)
    (hd : (f.request r).tree.Holds (Wires v d)) :
    f.tree.Holds (Wires v d) ∨ ∃ g ∈ f :: f.midway r, g.tree.Occurs v true d := by
  by_cases hr : r.Relinks
  · cases r with
    | tree r =>
      cases r with
      | setLink n e =>
        rw [tree_request] at hd
        exact ((Tree.Recedes.moves_setLink n e f.tree).wires v d hd).imp_right fun hd =>
          ⟨f, by simp, hd⟩
      | _ => exact hr.elim
    | convert o =>
      have hnow (hd : (f.request (.convert { o with collapse := false })).tree.Occurs v true d) :
          ∃ g ∈ f :: f.midway (.convert o), g.tree.Occurs v true d := ⟨_, by simp [midway], hd⟩
      have hremoved : OnTree Tree.Recedes _ _ := along_midway collapsing_recedes f o
      rcases hremoved.wires v d hd with hd | hd
      · exact ((rewires_midway h o).wires hd).imp_right hnow
      · exact .inr (hnow hd)
    | onForm form request =>
      cases request with
      | collapse =>
        have hremoved : OnTree Tree.Recedes f (f.request (.onForm form .collapse)) :=
          ((Bench.moves_beside
            ((FormEdit.moves_collapse collapsing_recedes).bind fun _ => .pure _)).bind
            fun _ => .pure _ : Moves (Recorded.Along (OnTree Tree.Recedes)) _) ⟨f, []⟩
        exact (hremoved.wires v d hd).imp_right fun hd => ⟨f, by simp, hd⟩
      | _ => exact hr.elim
    | _ => exact hr.elim
  · exact .inl ((asking_wires v d).request_along f hr hd)

theorem wires_of_requests (h : f.Coherent) (hd : (f.requests rs).tree.Holds (Wires v d)) :
    f.tree.Holds (Wires v d) ∨ ∃ g ∈ f.visited rs, g.tree.Occurs v true d := by
  induction rs generalizing f with
  | nil => exact .inl hd
  | cons r rest ih =>
    rcases ih (h.requests [r]) hd with hd | ⟨g, hg, hd⟩
    · refine (wires_of_request h r hd).imp_right fun ⟨g, hg, hd⟩ => ⟨g, ?_, hd⟩
      rw [visited]
      rcases List.mem_cons.1 hg with rfl | hg
      · simp
      · simp [hg]
    · exact .inr ⟨g, List.mem_cons_of_mem _ (List.mem_append_right _ hg), hd⟩

end linking

section persisting

theorem asking_persists : Asking (fun _ => True) Tree.Persists (OnTree Tree.Persists) :=
  .onTree Tree.Persists.primitive Tree.Persists.moves_setBlock
    (fun r _ => Tree.Persists.moves_run r)
    fun _ => Tree.Persists.moves_setLink

/-- What is a definition in a graph that the requests led through is one as long as it is in use. -/
theorem persists_of_visited (hg : g ∈ f.visited rs) : OnTree Tree.Persists g (f.requests rs) := by
  induction rs generalizing f with
  | nil =>
    obtain rfl := List.mem_singleton.1 hg
    exact Std.Refl.refl g
  | cons r rest ih =>
    have hrest : OnTree Tree.Persists (f.request r) (f.requests (r :: rest)) :=
      asking_persists.requests_along _ fun _ _ => trivial
    rw [visited, List.mem_cons, List.mem_append] at hg
    rcases hg with rfl | hg | hg
    · exact asking_persists.requests_along _ fun _ _ => trivial
    · cases r with
      | convert o =>
        obtain rfl := List.mem_singleton.1 hg
        exact IsTrans.trans _ _ _ (along_midway (asking_persists.converting o trivial).2 f o) hrest
      | _ => exact absurd hg List.not_mem_nil
    · exact ih hg

end persisting

section plain

/-- What is asked for does not put a linked use in the place of a definition. -/
def SparesDefinitions (f : FlowGraph) : FlowRequest → Prop
  | .tree (.replace old new) => ∀ p, f.tree.parent old = .ok (some p) →
      f.tree.isDefinition old = .ok true → f.tree.checkDetached new = .ok ⟨⟩ →
      f.tree.isDefinition new = .ok false → f.tree.linkOf new = .ok none
  | _ => True

/-- No request puts a linked use in the place of a definition. -/
def SparingRun : FlowGraph → List FlowRequest → Prop
  | _, [] => True
  | f, r :: rest => f.SparesDefinitions r ∧ (f.request r).SparingRun rest

theorem asking_isLinkedDefinition : Asking (fun r => ∀ old new, r ≠ .tree (.replace old new))
    (Tree.Traces IsLinkedDefinition) (OnTree (Tree.Traces IsLinkedDefinition)) := by
  have primitive := Tree.Traces.primitive Occurrence.ofLinks_isLinkedDefinition
  exact .onTree primitive Tree.Traces.moves_setBlock (fun r hr => primitive.moves_run r
    (fun n d _ => Tree.Traces.moves_setLink_isLinkedDefinition n d) fun old new he =>
      absurd (congrArg _ he) (hr old new)) fun _ => Tree.Traces.moves_setLink_isLinkedDefinition

theorem traces_of_request {r : FlowRequest} (h : f.SparesDefinitions r) :
    OnTree (Tree.Traces IsLinkedDefinition) f (f.request r) := by
  by_cases hr : ∃ old new, r = .tree (.replace old new)
  · obtain ⟨old, new, rfl⟩ := hr
    show Tree.Traces IsLinkedDefinition f.tree _
    rw [tree_request]
    exact Tree.Traces.replace_isLinkedDefinition h
  · exact asking_isLinkedDefinition.request_along f fun old new he => hr ⟨old, new, he⟩

theorem traces_of_requests (h : f.SparingRun rs) :
    OnTree (Tree.Traces IsLinkedDefinition) f (f.requests rs) := by
  induction rs generalizing f with
  | nil => exact Std.Refl.refl f
  | cons r rest ih => exact IsTrans.trans _ _ _ (traces_of_request h.1) (ih h.2)

end plain

/-- The link of a use leads to what is or was a definition of the same variable. An occurrence in
use has a version, unless its link leads to a definition that is gone. Definitions are not linked if
no linked use has been put in the place of one. -/
theorem links_of_requests (label : UInt32) (rs : List FlowRequest) :
    let f := (ofLabel label).requests rs
    ((ofLabel label).SparingRun rs → ∀ v d, f.tree.Occurs v true d → f.tree.linkOf d = .ok none) ∧
    (∀ v n d, f.tree.Occurs v false n → f.tree.linkOf n = .ok (some d) →
      (∃ g ∈ (ofLabel label).visited rs, g.tree.Occurs v true d) ∧
        (f.tree.isLive d = true → f.tree.Occurs v true d)) ∧
    ∀ v n, f.tree.varOf n = .ok v → ∃ i, f.tree.versionOf n = .ok i ∧
      (f.tree.Occurs v false n → ∀ d, f.tree.linkOf n = .ok (some d) → f.tree.isLive d = false →
        i = none) := by
  intro f
  have hnone (P : Occurrence → Prop) : ¬(ofLabel label).tree.Holds P := by
    rintro ⟨n, o, ho, -⟩
    simp [ofLabel, Tree.empty, Tree.node?, Tree.slot?] at ho
  have hlinked {v : Var} {d : NodeId} (hd : f.tree.Holds (Wires v d)) :
      (∃ g ∈ (ofLabel label).visited rs, g.tree.Occurs v true d) ∧
        (f.tree.isLive d = true → f.tree.Occurs v true d) := by
    obtain ⟨g, hg, hd⟩ := (wires_of_requests (coherent_ofLabel label) hd).resolve_left (hnone _)
    exact ⟨⟨g, hg, hd⟩, (persists_of_visited hg).definitions v d hd⟩
  refine ⟨fun hplain v d hd => ?_, fun v n d hn hlink => ?_, fun v n hn => ?_⟩
  · obtain ⟨o, ho, -, hdefines⟩ := hd
    refine Tree.linkOf_ok.2 ⟨o, ho, ?_⟩
    by_contra hlink
    exact hnone _ (traces_of_requests hplain ⟨d, o, ho, hdefines, hlink⟩)
  · obtain ⟨o, ho, rfl, -⟩ := hn
    obtain ⟨o', ho', hlink⟩ := Tree.linkOf_ok.1 hlink
    obtain rfl : o = o' := by simpa [ho] using ho'
    exact hlinked ⟨n, o, ho, rfl, hlink⟩
  · obtain ⟨o, ho, rfl⟩ := Tree.varOf_ok.1 hn
    obtain ⟨i, hi, hdead⟩ := Tree.exists_versionOf ho fun d hd => (hlinked ⟨n, o, ho, rfl, hd⟩).2
    refine ⟨i, hi, ?_⟩
    rintro ⟨o', ho', -, huse⟩ d hd
    obtain rfl : o = o' := by simpa [ho] using ho'
    obtain ⟨o₁, ho₁, hd⟩ := Tree.linkOf_ok.1 hd
    obtain rfl : o = o₁ := by simpa [ho] using ho₁
    exact hdead huse d hd

/-- A use is linked to the target of a store, and an unlinked use is put in the place of that. -/
def replaceTarget : List FlowRequest :=
  [.tree (.newVariable (.ofLocal 0) .int), .tree (.newLiteral (.int 1)), .tree (.newStore ⟨0⟩ ⟨1⟩),
    .tree (.newVariable (.ofLocal 0) .int), .tree (.setLink ⟨3⟩ (some ⟨0⟩)),
    .tree (.newVariable (.ofLocal 0) .int), .tree (.replace ⟨0⟩ ⟨4⟩)]

theorem links_of_replaceTarget : let f := (ofLabel 0).requests replaceTarget
    (ofLabel 0).SparingRun replaceTarget ∧ f.tree.Occurs (.ofLocal 0) true ⟨4⟩ ∧
      f.tree.linkOf ⟨4⟩ = .ok none ∧ f.tree.linkOf ⟨3⟩ = .ok (some ⟨0⟩) ∧
      f.tree.isLive ⟨0⟩ = false ∧
      (∃ g ∈ (ofLabel 0).visited replaceTarget, g.tree.Occurs (.ofLocal 0) true ⟨0⟩) ∧
      f.tree.versionOf ⟨3⟩ = .ok none := by
  intro f
  have hsparing : (ofLabel 0).SparingRun replaceTarget := by
    refine ⟨trivial, trivial, trivial, trivial, trivial, trivial, fun _ _ _ _ _ => ?_, trivial⟩
    decide +kernel
  have htarget : f.tree.Occurs (.ofLocal 0) true ⟨4⟩ :=
    ⟨⟨.ofLocal 0, .int, true, none, none⟩, by decide +kernel, rfl, rfl⟩
  have huse : f.tree.Occurs (.ofLocal 0) false ⟨3⟩ :=
    ⟨⟨.ofLocal 0, .int, false, some ⟨0⟩, none⟩, by decide +kernel, rfl, rfl⟩
  have hlink : f.tree.linkOf ⟨3⟩ = .ok (some ⟨0⟩) := by decide +kernel
  have hgone : f.tree.isLive ⟨0⟩ = false := by decide +kernel
  obtain ⟨hdefinitions, hlinks, hversions⟩ := links_of_requests 0 replaceTarget
  obtain ⟨i, hi, hnone⟩ := hversions _ ⟨3⟩ huse.varOf
  exact ⟨hsparing, htarget, hdefinitions hsparing _ _ htarget, hlink, hgone,
    (hlinks _ _ _ huse hlink).1, by rw [hi, hnone huse _ hlink hgone]⟩

/-- The linked use is put in the place of the target that it is linked to. -/
def replaceByUse : List FlowRequest :=
  [.tree (.newVariable (.ofLocal 0) .int), .tree (.newLiteral (.int 1)), .tree (.newStore ⟨0⟩ ⟨1⟩),
    .tree (.newVariable (.ofLocal 0) .int), .tree (.setLink ⟨3⟩ (some ⟨0⟩)),
    .tree (.replace ⟨0⟩ ⟨3⟩)]

/-- The use becomes a definition and stays linked to what it has taken the place of. -/
theorem linkOf_replaceByUse : let f := (ofLabel 0).requests replaceByUse
    f.tree.Occurs (.ofLocal 0) true ⟨3⟩ ∧ f.tree.linkOf ⟨3⟩ = .ok (some ⟨0⟩) ∧
      ¬∀ v d, f.tree.Occurs v true d → f.tree.linkOf d = .ok none := by
  intro f
  have hdefines : f.tree.Occurs (.ofLocal 0) true ⟨3⟩ :=
    ⟨⟨.ofLocal 0, .int, true, some ⟨0⟩, none⟩, by decide +kernel, rfl, rfl⟩
  have hlink : f.tree.linkOf ⟨3⟩ = .ok (some ⟨0⟩) := by decide +kernel
  refine ⟨hdefines, hlink, fun h => ?_⟩
  simp [h _ _ hdefines] at hlink

end FlowGraph

end MethodFlow
