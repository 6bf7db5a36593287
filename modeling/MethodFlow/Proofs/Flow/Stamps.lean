import MethodFlow.Proofs.Flow.Subroutines

/-!
Stamps and what is kept of computations. The stamp of a graph stands still exactly as long as its
blocks and its edges do. Whatever has been asked before, what is recalled of a shape is what
computing it anew gives.
-/

namespace MethodFlow

open Edit

namespace FlowGraph

variable {f f' : FlowGraph} {s t : BlockId}

/-- No request of a run adds a block, or adds or removes an edge. -/
def StandsStill : FlowGraph → List FlowRequest → Prop
  | _, [] => True
  | f, r :: rest => f.SameOutline (f.request r) ∧ (f.request r).StandsStill rest

theorem not_sameOutline_removeEdge (ht : t ∈ f.succs s) :
    ¬f.SameOutline { f with graph := f.graph.removeEdge s t : FlowGraph }.invalidate := by
  obtain ⟨e, he, hjoins⟩ := Digraph.mem_successors.1 ht
  rintro ⟨-, hedges⟩
  have hlength := List.length_eraseP_of_mem (p := fun e => Digraph.Joins s t e) he
    (by simpa using hjoins)
  have hpos := List.length_pos_of_mem he
  have hsame : (f.graph.edges.eraseP fun e => Digraph.Joins s t e).length = f.graph.edges.length :=
    congrArg List.length hedges
  omega

/-- A request never takes the version back, and it leaves it exactly if it leaves blocks and
edges. -/
theorem Made.version_request (h : f.Made) (r : FlowRequest) :
    f.version ≤ (f.request r).version ∧
      ((f.request r).version = f.version ↔ f.SameOutline (f.request r)) := by
  by_cases hremoval : ∃ s t, r = .removeEdge s t
  · obtain ⟨s, t, rfl⟩ := hremoval
    rw [request_removeEdge]
    split
    · next ht =>
      have hnot := not_sameOutline_removeEdge ht
      exact ⟨Nat.le_succ _, fun hv => absurd hv (Nat.succ_ne_self _), fun hs => absurd hs hnot⟩
    · exact ⟨Nat.le_refl _, iff_of_true rfl ⟨rfl, rfl⟩⟩
  · obtain ⟨hrouted, hfaithful⟩ := h.routed
    have hgrows := (registers_request h.coherent.toFramed hrouted hfaithful fun s t he =>
      hremoval ⟨s, t, he⟩).grows
    exact ⟨hgrows.version_le, hgrows.version_eq_iff⟩

/-- The version only goes up along a run. -/
theorem Made.version_requests (h : f.Made) (rs : List FlowRequest) :
    f.version ≤ (f.requests rs).version :=
  requests_induction (P := fun g => f.version ≤ g.version) h (Nat.le_refl _)
    (fun _ r hg _ hle => hle.trans (hg.version_request r).1) fun _ _ => trivial

theorem Made.stamp_requests_iff (h : f.Made) (rs : List FlowRequest) :
    (f.requests rs).stamp = f.stamp ↔ f.StandsStill rs := by
  induction rs generalizing f with
  | nil => simp [requests, StandsStill]
  | cons r rest ih =>
    obtain ⟨hle, hsame⟩ := h.version_request r
    have hrest := (h.request r).version_requests rest
    have hrun : f.requests (r :: rest) = (f.request r).requests rest := rfl
    rw [hrun, StandsStill, ← ih (h.request r)]
    constructor
    · intro hstamp
      have hversion : ((f.request r).requests rest).version = f.version :=
        congrArg Stamp.version hstamp
      have hfirst := hsame.1 (by omega)
      refine ⟨hfirst, hstamp.trans ?_⟩
      rw [stamp, stamp, hsame.2 hfirst, hfirst.1]
    · rintro ⟨hfirst, hstamp⟩
      rw [hstamp, stamp, stamp, hsame.2 hfirst, hfirst.1]

/-- A request that is not about the frame leaves blocks and edges, and so does one that is
refused. -/
theorem Made.sameOutline (h : f.Made) (r : FlowRequest)
    (hr : ¬r.IsFrame ∨ ∃ e m, r.run ⟨f, []⟩ = .error e m) : f.SameOutline (f.request r) := by
  by_cases hframe : r.IsFrame
  · obtain ⟨e, m, hrun⟩ := hr.resolve_left (not_not.2 hframe)
    have hsame : f.request r = m.value := by rw [FlowGraph.request, after_of_error hrun]
    have hrefuses : Refuses r.run ⟨f, []⟩ := by
      by_cases hremoval : ∃ s t, r = .removeEdge s t
      · obtain ⟨s, t, rfl⟩ := hremoval
        have hquiet : Succeeds (quietly (removeEdge s t)) ⟨f, []⟩ :=
          Succeeds.within ⟨_, _, rfl, trivial⟩
        exact Succeeds.refuses (hquiet.bind fun _ _ _ _ => .pure trivial)
      · obtain ⟨hrouted, hfaithful⟩ := h.routed
        exact (settles_run h.coherent.toFramed hrouted hfaithful hframe fun s t he =>
          hremoval ⟨s, t, he⟩).refuses
    rw [hsame, hrefuses e m hrun]
    exact ⟨rfl, rfl⟩
  · exact (Asking.sameShape.request_along f hframe).sameOutline

theorem sameOutline_addEdge (hf : f.Framed) (ht : t ∈ f.succs s) (kind : EdgeKind) :
    f.SameOutline (f.request (.addEdge s t kind)) := by
  obtain ⟨e, he, rfl, rfl⟩ := Digraph.mem_successors.1 ht
  obtain ⟨hsource, htarget⟩ := hf.closed e he
  rw [request, FlowRequest.run, after_bind_pure, after_liftM,
    after_of_ok (addEdge_ok hsource htarget kind), withEdge, if_pos (hasEdge_iff.2 ht)]
  exact ⟨rfl, rfl⟩

/-- Between any two moments of a run, the stamp stays the same exactly if no request in between
added a block, or added or removed an edge. Requests other than removals only add to blocks and
edges. Adding an edge that is there, removing one that is not, requests about the tree and the
statements, and requests that are refused leave both. At every moment, what is recalled is what
computing it anew gives. -/
theorem stamps_and_recalls (label : UInt32) (earlier : List FlowRequest) :
    let f := (ofLabel label).requests earlier
    (∀ later, (f.requests later).stamp = f.stamp ↔ f.StandsStill later) ∧
      (∀ r, (∀ s t, r ≠ .removeEdge s t) →
        f.blockCount ≤ (f.request r).blockCount ∧ f.graph.edges <+: (f.request r).graph.edges) ∧
      (∀ s t kind, t ∈ f.succs s → f.SameOutline (f.request (.addEdge s t kind))) ∧
      (∀ s t, t ∉ f.succs s → f.SameOutline (f.request (.removeEdge s t))) ∧
      (∀ r : FlowRequest, ¬r.IsFrame ∨ (∃ e m, r.run ⟨f, []⟩ = .error e m) →
        f.SameOutline (f.request r)) ∧
      recallPreorder.outcome f = .ok f.preorder ∧ recallDominators.outcome f = .ok f.dominators ∧
      recallFrontiers.outcome f = .ok f.frontiers := by
  intro f
  have hmade : f.Made := ⟨label, earlier, rfl⟩
  have hframed := hmade.coherent.toFramed
  obtain ⟨hrouted, hfaithful⟩ := hmade.routed
  refine ⟨hmade.stamp_requests_iff, fun r hr => ?_,
    fun s t kind ht => sameOutline_addEdge hframed ht kind, fun s t ht => ?_,
    hmade.sameOutline, ?_, ?_, ?_⟩
  · have hgrows := (registers_request hframed hrouted hfaithful hr).grows
    exact ⟨hgrows.blocks, hgrows.edges⟩
  · rw [request_removeEdge, if_neg ht]
    exact ⟨rfl, rfl⟩
  · obtain ⟨_, f', hrun, rfl, -⟩ := recallPreorder_yields hfaithful
    exact outcome_ok.2 ⟨f', hrun⟩
  · obtain ⟨_, f', hrun, rfl, -⟩ := recallDominators_yields hfaithful
    exact outcome_ok.2 ⟨f', hrun⟩
  · obtain ⟨_, f', hrun, rfl, -⟩ := recallFrontiers_yields hfaithful
    exact outcome_ok.2 ⟨f', hrun⟩

/-- An edge that is removed and added again makes another shape. -/
example :
    let f := (ofLabel 0).requests [.addEdge ⟨0⟩ ⟨0⟩ .normal]
    let g := f.requests [.removeEdge ⟨0⟩ ⟨0⟩, .addEdge ⟨0⟩ ⟨0⟩ .normal]
    g.graph.edges = f.graph.edges ∧ g.stamp ≠ f.stamp := by decide

end FlowGraph

end MethodFlow
