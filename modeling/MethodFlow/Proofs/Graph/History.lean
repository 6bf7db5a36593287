import MethodFlow.Proofs.Graph.Adjacency

/-!
Graphs that are built by requests. Whatever is asked of an empty graph, in any order and of nodes
that are there or not, the lists of successors, the lists of predecessors and the number of edges
tell of the same edges, and every list has its edges in the order in which they were last added.
-/

namespace MethodFlow

open Edit

section dates

variable {N E : Type} {rs : List (GraphRequest N E)} {r : GraphRequest N E}
  {s t s' t' : BlockId} {i : Nat}

def GraphRequest.Adds (r : GraphRequest N E) (a : Adjacency N E) (s t : BlockId) : Prop :=
  ∃ label, r = .addEdge s t label ∧ r.run.outcome a = .ok (.added true)

def AddedAt (rs : List (GraphRequest N E)) (i : Nat) (s t : BlockId) : Prop :=
  ∃ r, rs[i]? = some r ∧ r.Adds (Adjacency.empty.requests (rs.take i)) s t

/-- Request number `i` is the last that adds that edge. -/
def LastAddedAt (rs : List (GraphRequest N E)) (i : Nat) (s t : BlockId) : Prop :=
  AddedAt rs i s t ∧ ∀ j, AddedAt rs j s t → j ≤ i

/-- The edge from `s` to `t` was last added before the one from `s'` to `t'` was. -/
def AddedBefore (rs : List (GraphRequest N E)) (s t s' t' : BlockId) : Prop :=
  ∃ i j, LastAddedAt rs i s t ∧ LastAddedAt rs j s' t' ∧ i < j

theorem AddedAt.lt_length (h : AddedAt rs i s t) : i < rs.length := by
  obtain ⟨r, hr, -⟩ := h
  exact (List.getElem?_eq_some_iff.1 hr).1

theorem addedAt_append : AddedAt (rs ++ [r]) i s t ↔
    AddedAt rs i s t ∨ i = rs.length ∧ r.Adds (Adjacency.empty.requests rs) s t := by
  rcases Nat.lt_trichotomy i rs.length with hlt | rfl | hgt
  · have hne : i ≠ rs.length := by omega
    simp [AddedAt, List.getElem?_append_left hlt, List.take_append_of_le_length hlt.le, hne]
  · simp [AddedAt]
  · have hnone : (rs ++ [r])[i]? = none := List.getElem?_eq_none (by simp; omega)
    have hold : rs[i]? = none := List.getElem?_eq_none hgt.le
    have hne : i ≠ rs.length := by omega
    simp [AddedAt, hnone, hold, hne]

theorem LastAddedAt.append (h : LastAddedAt rs i s t)
    (hr : ¬r.Adds (Adjacency.empty.requests rs) s t) :
    LastAddedAt (rs ++ [r]) i s t := by
  refine ⟨addedAt_append.2 (.inl h.1), fun j hj => ?_⟩
  rcases addedAt_append.1 hj with hold | ⟨-, hadds⟩
  · exact h.2 j hold
  · exact absurd hadds hr

theorem LastAddedAt.of_adds (hr : r.Adds (Adjacency.empty.requests rs) s t) :
    LastAddedAt (rs ++ [r]) rs.length s t := by
  refine ⟨addedAt_append.2 (.inr ⟨rfl, hr⟩), fun j hj => ?_⟩
  have := hj.lt_length
  rw [List.length_append, List.length_singleton] at this
  omega

/-- Every edge has a date, and the edges stand in the order of their dates. -/
structure Dated (rs : List (GraphRequest N E)) (edges : List (Edge E)) : Prop where
  date : ∀ e ∈ edges, ∃ i, LastAddedAt rs i e.source e.target
  ordered : edges.Pairwise fun e e' => AddedBefore rs e.source e.target e'.source e'.target

namespace Dated

variable {edges kept : List (Edge E)} {e : Edge E}

theorem append (h : Dated rs edges) (hkept : kept.Sublist edges)
    (hr : ∀ e ∈ kept, ¬r.Adds (Adjacency.empty.requests rs) e.source e.target) :
    Dated (rs ++ [r]) kept where
  date e he := by
    obtain ⟨i, hi⟩ := h.date e (hkept.subset he)
    exact ⟨i, hi.append (hr e he)⟩
  ordered := by
    refine (h.ordered.sublist hkept).imp_of_mem fun {e e'} he he' hbefore => ?_
    obtain ⟨i, j, hi, hj, hlt⟩ := hbefore
    exact ⟨i, j, hi.append (hr e he), hj.append (hr e' he'), hlt⟩

theorem concat (h : Dated rs edges) (he : r.Adds (Adjacency.empty.requests rs) e.source e.target)
    (hr : ∀ e' ∈ edges, ¬r.Adds (Adjacency.empty.requests rs) e'.source e'.target) :
    Dated (rs ++ [r]) (edges ++ [e]) where
  date e' he' := by
    rcases List.mem_append.1 he' with hold | hnew
    · exact (h.append (.refl edges) hr).date e' hold
    · exact ⟨rs.length, List.mem_singleton.1 hnew ▸ .of_adds he⟩
  ordered := by
    refine List.pairwise_append.2
      ⟨(h.append (.refl edges) hr).ordered, List.pairwise_singleton _ e, ?_⟩
    intro e' he' e'' hnew
    obtain rfl := List.mem_singleton.1 hnew
    obtain ⟨i, hi⟩ := h.date e' he'
    exact ⟨i, rs.length, hi.append (hr e' he'), .of_adds he, hi.1.lt_length⟩

end Dated

end dates

namespace Digraph

variable {N E : Type} {g : Digraph N E} {rs : List (GraphRequest N E)} {r : GraphRequest N E}
  {s t u v : BlockId} {label : E}

theorem closed_empty : (empty : Digraph N E).Closed := fun _ he => absurd he List.not_mem_nil

theorem simple_empty : (empty : Digraph N E).Simple := List.Pairwise.nil

theorem edge?_eq_none_iff : g.edge? s t = none ↔ ∀ e ∈ g.edges, ¬Joins s t e := by
  simp [edge?]

/-- A request adds an edge that is missing so far, or it leaves some of the edges, in their
order. -/
theorem request_cases (g : Digraph N E) (r : GraphRequest N E) :
    (∃ s t label, r = .addEdge s t label ∧ g.contains s = true ∧ g.contains t = true ∧
      g.edge? s t = none ∧ r.runOnEdges.outcome g = .ok (.added true) ∧
      g.request r = { g with edges := g.edges ++ [⟨s, t, label⟩] }) ∨
    r.runOnEdges.outcome g ≠ .ok (.added true) ∧ (g.request r).edges.Sublist g.edges ∧
      g.nodes.size ≤ (g.request r).nodes.size := by
  cases r with
  | addNode payload =>
    have hafter : g.request (.addNode payload) = g.addNode payload := rfl
    exact .inr ⟨by rintro ⟨⟩, .refl _, by simp [hafter, addNode]⟩
  | addEdge s t label =>
    have hrun : (GraphRequest.addEdge (N := N) s t label).runOnEdges g =
        EStateM.map GraphAnswer.added (addEdge s t label) g := rfl
    rw [request, Edit.outcome, Edit.after, hrun, EStateM.map, addEdge_run]
    cases hs : g.contains s
    · exact .inr ⟨by rintro ⟨⟩, .refl _, Nat.le_refl _⟩
    cases ht : g.contains t
    · exact .inr ⟨by rintro ⟨⟩, .refl _, Nat.le_refl _⟩
    cases hedge : g.edge? s t with
    | some old =>
      rw [hasEdge, hedge]
      exact .inr ⟨by rintro ⟨⟩, .refl _, Nat.le_refl _⟩
    | none =>
      rw [hasEdge, hedge]
      exact .inl ⟨s, t, label, rfl, hs, ht, hedge, rfl, rfl⟩
  | removeEdge s t => exact .inr ⟨by rintro ⟨⟩, List.eraseP_sublist, Nat.le_refl _⟩

theorem Closed.append {e : Edge E} (closed : g.Closed) (hs : g.contains e.source = true)
    (ht : g.contains e.target = true) :
    ({ g with edges := g.edges ++ [e] } : Digraph N E).Closed := by
  intro e' he
  rcases List.mem_append.1 he with hold | hnew
  · exact closed e' hold
  · rw [List.mem_singleton.1 hnew]
    exact ⟨hs, ht⟩

/-- Edges join nodes of the graph after every request. -/
theorem Closed.request (closed : g.Closed) (r : GraphRequest N E) : (g.request r).Closed := by
  rcases request_cases g r with ⟨s, t, label, -, hs, ht, -, -, hafter⟩ | ⟨-, hsub, hsize⟩
  · rw [hafter]
    exact closed.append hs ht
  · have hkept {b : BlockId} (hb : g.contains b = true) : (g.request r).contains b = true :=
      decide_eq_true (Nat.lt_of_lt_of_le (of_decide_eq_true hb) hsize)
    exact fun e he => (closed e (hsub.subset he)).imp hkept hkept

/-- No request makes a second edge between two nodes. -/
theorem Simple.request (simple : g.Simple) (r : GraphRequest N E) : (g.request r).Simple := by
  rcases request_cases g r with ⟨s, t, label, -, -, -, hedge, -, hafter⟩ | ⟨-, hsub, -⟩
  · rw [hafter]
    refine List.pairwise_append.2
      ⟨simple, List.pairwise_singleton _ _, fun e he e' hnew hjoins => ?_⟩
    obtain rfl := List.mem_singleton.1 hnew
    exact edge?_eq_none_iff.1 hedge e he ⟨hjoins.1.symm, hjoins.2.symm⟩
  · exact List.Pairwise.sublist hsub simple

theorem closed_requests (closed : g.Closed) (rs : List (GraphRequest N E)) :
    (g.requests rs).Closed := by
  induction rs generalizing g with
  | nil => exact closed
  | cons r rest ih => exact ih (closed.request r)

theorem simple_requests (simple : g.Simple) (rs : List (GraphRequest N E)) :
    (g.requests rs).Simple := by
  induction rs generalizing g with
  | nil => exact simple
  | cons r rest ih => exact ih (simple.request r)

theorem request_lists (closed : g.Closed) (r : GraphRequest N E) :
    g.lists.request r = (g.request r).lists := by
  rw [Adjacency.request, request, Edit.after, Edit.after, GraphRequest.run_lists closed]
  cases r.runOnEdges g <;> rfl

theorem outcome_lists (closed : g.Closed) (r : GraphRequest N E) :
    r.run.outcome g.lists = r.runOnEdges.outcome g := by
  rw [Edit.outcome, Edit.outcome, GraphRequest.run_lists closed]
  cases r.runOnEdges g <;> rfl

/-- The lists that a run of requests leaves are those of the graph that the run leaves. -/
theorem requests_lists (closed : g.Closed) (rs : List (GraphRequest N E)) :
    g.lists.requests rs = (g.requests rs).lists := by
  induction rs generalizing g with
  | nil => rfl
  | cons r rest ih =>
    have hstep : g.lists.requests (r :: rest) = (g.lists.request r).requests rest := rfl
    rw [hstep, request_lists closed, ih (closed.request r)]
    rfl

def built (rs : List (GraphRequest N E)) : Digraph N E := empty.requests rs

theorem built_append (rs : List (GraphRequest N E)) (r : GraphRequest N E) :
    built (rs ++ [r]) = (built rs).request r := List.foldl_append

theorem requests_empty (rs : List (GraphRequest N E)) :
    Adjacency.empty.requests rs = (built rs).lists :=
  requests_lists closed_empty rs

/-- The edges of a run stand in the order of their dates. -/
theorem dated_built (rs : List (GraphRequest N E)) : Dated rs (built rs).edges := by
  induction rs using List.reverseRecOn with
  | nil => exact ⟨fun _ he => absurd he List.not_mem_nil, List.Pairwise.nil⟩
  | append_singleton rs r ih =>
    have closed : (built rs).Closed := closed_requests closed_empty rs
    have hadds {u v : BlockId} : r.Adds (Adjacency.empty.requests rs) u v ↔
        ∃ label, r = .addEdge u v label ∧ r.runOnEdges.outcome (built rs) = .ok (.added true) := by
      rw [GraphRequest.Adds, requests_empty, outcome_lists closed]
    rw [built_append]
    rcases request_cases (built rs) r with ⟨s, t, label, rfl, -, -, hedge, hnew, hafter⟩ |
      ⟨hnot, hsub, -⟩
    · rw [hafter]
      refine ih.concat (e := ⟨s, t, label⟩) (hadds.2 ⟨label, rfl, hnew⟩) fun e he hagain => ?_
      obtain ⟨_, hsame, -⟩ := hadds.1 hagain
      injection hsame with hs ht
      exact edge?_eq_none_iff.1 hedge e he ⟨hs.symm, ht.symm⟩
    · refine ih.append hsub fun e _ hagain => ?_
      obtain ⟨_, -, hagain⟩ := hadds.1 hagain
      exact hnot hagain

theorem edge?_removeEdge (simple : g.Simple) (s t u v : BlockId) :
    (g.removeEdge s t).edge? u v = if u = s ∧ v = t then none else g.edge? u v := by
  split
  · next hsame =>
    obtain ⟨rfl, rfl⟩ := hsame
    refine edge?_eq_none_iff.2 fun e he hjoins => ?_
    rcases List.exists_or_eq_self_of_eraseP (fun e => decide (Joins u v e)) g.edges with
      hnone | ⟨first, before, after, hbefore, hfirst, hedges, herase⟩
    · rw [removeEdge, hnone] at he
      exact List.eraseP_eq_self_iff.1 hnone e he (decide_eq_true hjoins)
    · rw [removeEdge, herase] at he
      rcases List.mem_append.1 he with he | he
      · exact hbefore e he (decide_eq_true hjoins)
      · rw [Simple, hedges] at simple
        have hlater := (List.pairwise_cons.1 (List.pairwise_append.1 simple).2.1).1 e he
        obtain ⟨hs, ht⟩ := of_decide_eq_true hfirst
        exact hlater ⟨hjoins.1.trans hs.symm, hjoins.2.trans ht.symm⟩
  · next hother =>
    have hnot : ∀ e : Edge E, decide (Joins s t e) = true →
        decide (Joins u v e) = false := fun e he =>
      decide_eq_false fun hjoins => hother
        ⟨hjoins.1.symm.trans (of_decide_eq_true he).1, hjoins.2.symm.trans (of_decide_eq_true he).2⟩
    rw [edge?, edge?, ← List.head?_filter, ← List.head?_filter, removeEdge,
      filter_eraseP_of_not hnot]

theorem edge?_addEdge (hedge : g.edge? s t = none) (label : E) (u v : BlockId) :
    ({ g with edges := g.edges ++ [⟨s, t, label⟩] } : Digraph N E).edge? u v =
      if u = s ∧ v = t then some label else g.edge? u v := by
  rw [edge?, List.find?_append, Option.map_or]
  split
  · next hsame =>
    obtain ⟨rfl, rfl⟩ := hsame
    rw [← edge?, hedge]
    simp [Joins]
  · next hother =>
    have hnot : ¬Joins u v (⟨s, t, label⟩ : Edge E) :=
      fun hjoins => hother ⟨hjoins.1.symm, hjoins.2.symm⟩
    simp [edge?, hnot]

/-- What holds between edges holds between those that are read off for one node. -/
theorem pairwise_grouped {R : Edge E → Edge E → Prop} {Q : BlockId → BlockId → Prop}
    {key value : Edge E → BlockId} {b : BlockId} (h : g.edges.Pairwise R)
    (hQ : ∀ e e', key e = b → key e' = b → R e e' → Q (value e) (value e')) :
    ((g.edges.filter fun e => key e = b).map value).Pairwise Q := by
  refine List.pairwise_map.2
    ((h.sublist List.filter_sublist).imp_of_mem fun {e e'} he he' hrel => ?_)
  rw [List.mem_filter, decide_eq_true_eq] at he he'
  exact hQ e e' he.2 he'.2 hrel

theorem Simple.nodup_successors (simple : g.Simple) (s : BlockId) : (g.successors s).Nodup :=
  pairwise_grouped simple fun _ _ he he' hne hsame => hne ⟨he'.trans he.symm, hsame.symm⟩

theorem Simple.nodup_predecessors (simple : g.Simple) (t : BlockId) : (g.predecessors t).Nodup :=
  pairwise_grouped simple fun _ _ he he' hne hsame => hne ⟨hsame.symm, he'.trans he.symm⟩

theorem successors_removeEdge (g : Digraph N E) (s t b : BlockId) :
    (g.removeEdge s t).successors b =
    if b = s then (g.successors b).erase t else g.successors b := by
  have hread (g : Digraph N E) : g.successors b = (g.edgesFrom b).map Prod.fst := by
    rw [edgesFrom, List.map_map]
    rfl
  rw [hread, hread, edgesFrom_removeEdge]
  by_cases hb : s = b
  · rw [if_pos hb, if_pos hb.symm, List.erase_eq_eraseP', List.eraseP_map]
    congr
  · rw [if_neg hb, if_neg (Ne.symm hb)]

theorem successors_addEdge (g : Digraph N E) (e : Edge E) (b : BlockId) :
    ({ g with edges := g.edges ++ [e] } : Digraph N E).successors b =
      if b = e.source then g.successors b ++ [e.target] else g.successors b := by
  by_cases he : b = e.source
  · subst he
    simp [successors, outgoing, List.filter_append]
  · simp [successors, outgoing, List.filter_append, he, Ne.symm he]

end Digraph

section records

variable {N E : Type}

namespace Adjacency

/-- The lists of successors, the lists of predecessors and the number of edges tell of the same
edges. -/
structure Consistent (a : Adjacency N E) : Prop where
  mem_successors : ∀ s t, t ∈ a.successors s ↔ (a.edge? s t).isSome = true
  mem_predecessors : ∀ s t, s ∈ a.predecessors t ↔ (a.edge? s t).isSome = true
  nodup_successors : ∀ s, (a.successors s).Nodup
  nodup_predecessors : ∀ t, (a.predecessors t).Nodup
  sum_outDegree : (a.nodeIds.map a.outDegree).sum = a.edgeCount
  sum_inDegree : (a.nodeIds.map a.inDegree).sum = a.edgeCount

/-- The lists have the edges in the order in which a run of requests last added them. -/
structure InOrder (a : Adjacency N E) (rs : List (GraphRequest N E)) : Prop where
  successors : ∀ s, (a.successors s).Pairwise fun t t' => AddedBefore rs s t s t'
  predecessors : ∀ t, (a.predecessors t).Pairwise fun s s' => AddedBefore rs s t s' t

/-- An edge from `s` to `t` is the last of its lists after the step, and nothing else has
changed. -/
structure Gains (s t : BlockId) (label : E) (a a' : Adjacency N E) : Prop where
  edge : ∀ u v, a'.edge? u v = if u = s ∧ v = t then some label else a.edge? u v
  successors : ∀ u, a'.successors u = if u = s then a.successors u ++ [t] else a.successors u
  predecessors : ∀ v, a'.predecessors v =
    if v = t then a.predecessors v ++ [s] else a.predecessors v
  edgeCount : a'.edgeCount = a.edgeCount + 1
  nodes : a'.nodes = a.nodes

/-- The edge from `s` to `t` has been taken out of its lists, and nothing else has changed. -/
structure Loses (s t : BlockId) (a a' : Adjacency N E) : Prop where
  edge : ∀ u v, a'.edge? u v = if u = s ∧ v = t then none else a.edge? u v
  successors : ∀ u, a'.successors u = if u = s then (a.successors u).erase t else a.successors u
  predecessors : ∀ v, a'.predecessors v =
    if v = t then (a.predecessors v).erase s else a.predecessors v
  edgeCount : a'.edgeCount + 1 = a.edgeCount
  nodes : a'.nodes = a.nodes

/-- What adding and removing an edge make of the lists. -/
structure Responds (a : Adjacency N E) : Prop where
  adds : ∀ s t label, a.contains s = true → a.contains t = true → a.edge? s t = none →
    ∃ a', addEdge s t label a = .ok true a' ∧ a.Gains s t label a'
  repeats : ∀ s t label, (a.edge? s t).isSome = true → addEdge s t label a = .ok false a
  fails : ∀ s t label, ¬(a.contains s = true ∧ a.contains t = true) →
    ∃ e, addEdge s t label a = .error e a
  removes : ∀ s t label, a.edge? s t = some label →
    ∃ a', removeEdge s t a = .ok (some label) a' ∧ a.Loses s t a'
  misses : ∀ s t, a.edge? s t = none → removeEdge s t a = .ok none a

theorem consistent_lists {g : Digraph N E} (closed : g.Closed) (simple : g.Simple) :
    g.lists.Consistent where
  mem_successors s t := by
    rw [Digraph.successors_lists closed, Digraph.edge?_lists closed, Digraph.mem_successors,
      Digraph.isSome_edge?_iff]
  mem_predecessors s t := by
    rw [Digraph.predecessors_lists closed, Digraph.edge?_lists closed, Digraph.mem_predecessors,
      Digraph.isSome_edge?_iff]
  nodup_successors s := Digraph.successors_lists closed s ▸ simple.nodup_successors s
  nodup_predecessors t := Digraph.predecessors_lists closed t ▸ simple.nodup_predecessors t
  sum_outDegree := by
    rw [funext (Digraph.outDegree_lists closed)]
    exact Digraph.sum_grouped g fun e he => (closed e he).1
  sum_inDegree := by
    rw [funext (Digraph.inDegree_lists closed)]
    exact Digraph.sum_grouped g fun e he => (closed e he).2

theorem inOrder_lists {g : Digraph N E} {rs : List (GraphRequest N E)} (closed : g.Closed)
    (dated : Dated rs g.edges) : g.lists.InOrder rs where
  successors s := by
    rw [Digraph.successors_lists closed]
    refine Digraph.pairwise_grouped dated.ordered fun e e' he he' hbefore => ?_
    rwa [he, he'] at hbefore
  predecessors t := by
    rw [Digraph.predecessors_lists closed]
    refine Digraph.pairwise_grouped dated.ordered fun e e' he he' hbefore => ?_
    rwa [he, he'] at hbefore

theorem gains_lists {g : Digraph N E} {s t : BlockId} (closed : g.Closed) (hs : g.contains s = true)
    (ht : g.contains t = true) (hedge : g.edge? s t = none) (label : E) :
    g.lists.Gains s t label
      ({ g with edges := g.edges ++ [⟨s, t, label⟩] } : Digraph N E).lists := by
  have closed' := closed.append (e := ⟨s, t, label⟩) hs ht
  exact
    { edge := fun u v => by
        rw [Digraph.edge?_lists closed', Digraph.edge?_lists closed, Digraph.edge?_addEdge hedge]
      successors := fun u => by
        rw [Digraph.successors_lists closed', Digraph.successors_lists closed,
          Digraph.successors_addEdge]
      predecessors := fun v => by
        rw [Digraph.predecessors_lists closed', Digraph.predecessors_lists closed,
          Digraph.predecessors_addEdge]
        simp only [eq_comm]
      edgeCount := List.length_append
      nodes := rfl }

theorem loses_lists {g : Digraph N E} {s t : BlockId} (closed : g.Closed) (simple : g.Simple)
    (hedge : (g.edge? s t).isSome = true) : g.lists.Loses s t (g.removeEdge s t).lists := by
  have closed' : (g.removeEdge s t).Closed := closed.request (.removeEdge s t)
  obtain ⟨e, he, hjoins⟩ := Digraph.isSome_edge?_iff.1 hedge
  exact
    { edge := fun u v => by
        rw [Digraph.edge?_lists closed', Digraph.edge?_lists closed,
          Digraph.edge?_removeEdge simple]
      successors := fun u => by
        rw [Digraph.successors_lists closed', Digraph.successors_lists closed,
          Digraph.successors_removeEdge]
      predecessors := fun v => by
        rw [Digraph.predecessors_lists closed', Digraph.predecessors_lists closed,
          Digraph.predecessors_removeEdge, List.erase_eq_eraseP']
        simp only [eq_comm, beq_eq_decide]
      edgeCount := by
        have hlength := List.length_eraseP_of_mem (p := fun e => decide (Digraph.Joins s t e)) he
          (decide_eq_true hjoins)
        have hpos := List.length_pos_of_mem he
        show (g.edges.eraseP _).length + 1 = g.edges.length
        omega
      nodes := rfl }

theorem responds_lists {g : Digraph N E} (closed : g.Closed) (simple : g.Simple) :
    g.lists.Responds where
  adds s t label hs ht hedge := by
    rw [Digraph.edge?_lists closed] at hedge
    have hnew : (g.lists.edge? s t).isSome = false := by rw [Digraph.edge?_lists closed, hedge]; rfl
    have hs' : g.lists.contains s = true := hs
    have ht' : g.lists.contains t = true := ht
    refine ⟨_, ?_, gains_lists closed hs ht hedge label⟩
    rw [addEdge_run, hs', ht', hnew, Digraph.storeEdge_lists]
    rfl
  repeats s t label hedge := by
    have hfound := hedge
    rw [Digraph.edge?_lists closed, Digraph.isSome_edge?_iff] at hfound
    obtain ⟨e, he, rfl, rfl⟩ := hfound
    have hs : g.lists.contains e.source = true := (closed e he).1
    have ht : g.lists.contains e.target = true := (closed e he).2
    rw [addEdge_run, hs, ht, hedge]
    rfl
  fails s t label hnot := by
    rw [addEdge_run]
    cases hs : g.lists.contains s
    · exact ⟨_, rfl⟩
    cases ht : g.lists.contains t
    · exact ⟨_, rfl⟩
    exact absurd ⟨hs, ht⟩ hnot
  removes s t label hedge := by
    have hfound := hedge
    rw [Digraph.edge?_lists closed] at hfound
    have hsome : (g.edge? s t).isSome = true := by rw [hfound]; rfl
    refine ⟨_, modifyGet_ok.2 ?_, loses_lists closed simple hsome⟩
    rw [hedge, Digraph.dropEdge_lists hsome]
  misses s t hedge := modifyGet_ok.2 (by rw [hedge])

/-- Whatever is asked of an empty graph, its records tell of the same edges, in the order in which
these were last added, and a request that is refused or finds nothing to do changes nothing. -/
theorem requests_consistent (rs : List (GraphRequest N E)) :
    (empty.requests rs : Adjacency N E).Consistent ∧
    (empty.requests rs).InOrder rs ∧ (empty.requests rs).Responds := by
  have closed : (Digraph.built rs).Closed := Digraph.closed_requests Digraph.closed_empty rs
  have simple : (Digraph.built rs).Simple := Digraph.simple_requests Digraph.simple_empty rs
  rw [Digraph.requests_empty]
  exact ⟨consistent_lists closed simple, inOrder_lists closed (Digraph.dated_built rs),
    responds_lists closed simple⟩

end Adjacency

end records

end MethodFlow
