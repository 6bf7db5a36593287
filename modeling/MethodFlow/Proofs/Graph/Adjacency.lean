import MethodFlow.Graph.Adjacency
import MethodFlow.Proofs.Edit
import MethodFlow.Proofs.Graph.Search
import Mathlib.Algebra.BigOperators.Group.List.Basic

/-!
Adjacency lists against one list of edges. The lists that a run of requests leaves are read off the
edges in the order in which they were added, so the list of a node's successors, the list of its
predecessors and the number of edges always tell of the same edges.
-/

namespace MethodFlow

open Edit

theorem Adjacency.withoutFirst_eq_eraseP {α : Type} (p : α → Bool) (xs : List α) :
    withoutFirst p xs = xs.eraseP p := by
  rw [withoutFirst, List.eraseP_eq_eraseIdx]
  cases xs.findIdx? p <;> rfl

theorem filter_eraseP_of_not {α : Type} {p q : α → Bool} (h : ∀ x, p x = true → q x = false)
    (xs : List α) : (xs.eraseP p).filter q = xs.filter q := by
  rcases List.exists_or_eq_self_of_eraseP p xs with hsame | ⟨x, before, after, -, hx, rfl, herase⟩
  · rw [hsame]
  · rw [herase, List.filter_append, List.filter_append, List.filter_cons, if_neg (by simp [h x hx])]

namespace Digraph

variable {N E : Type} {g g' : Digraph N E} {s t u v b : BlockId}

def edgesFrom (g : Digraph N E) (b : BlockId) : List (BlockId × E) :=
  (g.outgoing b).map fun e => (e.target, e.label)

/-- The adjacency lists that tell of the edges of a graph. -/
def lists (g : Digraph N E) : Adjacency N E where
  nodes := g.nodes
  outgoing := (g.nodeIds.map g.edgesFrom).toArray
  incoming := (g.nodeIds.map g.predecessors).toArray
  edgeCount := g.edgeCount

/-- No two edges run from one node to another. -/
def Simple (g : Digraph N E) : Prop := g.edges.Pairwise fun e e' => ¬Joins e.source e.target e'

theorem decide_joins (s t : BlockId) (e : Edge E) :
    decide (Joins s t e) = (decide (e.source = s) && decide (e.target = t)) := Bool.decide_and _ _

section reading

theorem getElem?_map_nodeIds {α : Type} (g : Digraph N E) (f : BlockId → α) (i : Nat) :
    (g.nodeIds.map f).toArray[i]? = if i < g.nodes.size then some (f ⟨i⟩) else none := by
  rw [List.getElem?_toArray, nodeIds, List.getElem?_map, List.getElem?_map]
  split
  · next hi => simp [List.getElem?_range hi]
  · next hi =>
      simp [List.getElem?_eq_none (List.length_range (n := g.nodes.size) ▸ Nat.le_of_not_lt hi)]

theorem getElem?_outgoing_lists (g : Digraph N E) (i : Nat) :
    g.lists.outgoing[i]? = if i < g.nodes.size then some (g.edgesFrom ⟨i⟩) else none :=
  getElem?_map_nodeIds g _ i

theorem getElem?_incoming_lists (g : Digraph N E) (i : Nat) :
    g.lists.incoming[i]? = if i < g.nodes.size then some (g.predecessors ⟨i⟩) else none :=
  getElem?_map_nodeIds g _ i

variable (closed : g.Closed)

include closed

theorem outgoing_eq_nil (hb : ¬b.index < g.nodes.size) : g.outgoing b = [] := by
  refine List.filter_eq_nil_iff.2 fun e he hsource => hb ?_
  have := (closed e he).1
  rwa [of_decide_eq_true hsource, contains, decide_eq_true_eq] at this

theorem incoming_eq_nil (hb : ¬b.index < g.nodes.size) : g.incoming b = [] := by
  refine List.filter_eq_nil_iff.2 fun e he htarget => hb ?_
  have := (closed e he).2
  rwa [of_decide_eq_true htarget, contains, decide_eq_true_eq] at this

theorem edgesFrom_lists (b : BlockId) : g.lists.edgesFrom b = g.edgesFrom b := by
  rw [Adjacency.edgesFrom, getElem?_outgoing_lists]
  split
  · rfl
  · next hb => rw [edgesFrom, outgoing_eq_nil closed hb]; rfl

theorem successors_lists (b : BlockId) : g.lists.successors b = g.successors b := by
  rw [Adjacency.successors, edgesFrom_lists closed, edgesFrom, List.map_map]
  rfl

theorem predecessors_lists (b : BlockId) : g.lists.predecessors b = g.predecessors b := by
  rw [Adjacency.predecessors, getElem?_incoming_lists]
  split
  · rfl
  · next hb => rw [predecessors, incoming_eq_nil closed hb]; rfl

theorem outDegree_lists (b : BlockId) : g.lists.outDegree b = (g.outgoing b).length := by
  rw [Adjacency.outDegree, getElem?_outgoing_lists]
  split
  · simp [edgesFrom]
  · next hb => rw [outgoing_eq_nil closed hb]; rfl

theorem inDegree_lists (b : BlockId) : g.lists.inDegree b = (g.incoming b).length := by
  rw [Adjacency.inDegree, getElem?_incoming_lists]
  split
  · simp [predecessors]
  · next hb => rw [incoming_eq_nil closed hb]; rfl

theorem edge?_lists (s t : BlockId) : g.lists.edge? s t = g.edge? s t := by
  have hedge : g.edge? s t = ((g.outgoing s).find? fun e => e.target = t).map Edge.label := by
    rw [edge?, outgoing, List.find?_filter]
    simp [decide_joins, Bool.decide_and]
  have hread : g.lists.edge? s t =
      (g.lists.outgoing[s.index]?).bind fun out => (out.find? fun p => p.1 = t).map Prod.snd := rfl
  rw [hread, getElem?_outgoing_lists, hedge]
  split
  · simp [edgesFrom, List.find?_map, Function.comp_def]
  · next hs => rw [outgoing_eq_nil closed hs]; rfl

end reading

section writing

theorem edgesFrom_addEdge (g : Digraph N E) (e : Edge E) (b : BlockId) :
    ({ g with edges := g.edges ++ [e] } : Digraph N E).edgesFrom b =
      if e.source = b then g.edgesFrom b ++ [(e.target, e.label)] else g.edgesFrom b := by
  by_cases he : e.source = b <;> simp [edgesFrom, outgoing, List.filter_append, he]

theorem predecessors_addEdge (g : Digraph N E) (e : Edge E) (b : BlockId) :
    ({ g with edges := g.edges ++ [e] } : Digraph N E).predecessors b =
      if e.target = b then g.predecessors b ++ [e.source] else g.predecessors b := by
  by_cases he : e.target = b <;> simp [predecessors, incoming, List.filter_append, he]

theorem edgesFrom_removeEdge (g : Digraph N E) (s t b : BlockId) : (g.removeEdge s t).edgesFrom b =
    if s = b then (g.edgesFrom b).eraseP fun p => p.1 = t else g.edgesFrom b := by
  split
  · next hb =>
    subst hb
    simp only [edgesFrom, outgoing, removeEdge, List.eraseP_map, List.eraseP_filter,
      Function.comp_def, decide_joins, Bool.and_comm]
  · next hb =>
    refine congrArg (List.map _) (filter_eraseP_of_not (fun e he => ?_) g.edges)
    rw [(of_decide_eq_true he).1]
    exact decide_eq_false hb

theorem predecessors_removeEdge (g : Digraph N E) (s t b : BlockId) :
    (g.removeEdge s t).predecessors b =
    if t = b then (g.predecessors b).eraseP fun p => p = s else g.predecessors b := by
  split
  · next hb =>
    subst hb
    simp only [predecessors, incoming, removeEdge, List.eraseP_map, List.eraseP_filter,
      Function.comp_def, decide_joins]
  · next hb =>
    refine congrArg (List.map _) (filter_eraseP_of_not (fun e he => ?_) g.edges)
    rw [(of_decide_eq_true he).2]
    exact decide_eq_false hb

theorem getElem?_modify_of_nodes {α : Type} {xs : Array α} {count : Nat} {f : BlockId → α}
    (hxs : ∀ i : Nat, xs[i]? = if i < count then some (f ⟨i⟩) else none) (b : BlockId)
    (change : α → α) (i : Nat) : (xs.modify b.index change)[i]? =
      if i < count then some (if b = ⟨i⟩ then change (f ⟨i⟩) else f ⟨i⟩) else none := by
  rw [Array.getElem?_modify, hxs]
  by_cases hb : b = ⟨i⟩
  · subst hb
    by_cases hi : i < count <;> simp [hi]
  · have hne : b.index ≠ i := fun he => hb (congrArg BlockId.mk he)
    simp [hb, hne]

theorem eq_lists {a : Adjacency N E} (hnodes : a.nodes = g.nodes)
    (hcount : a.edgeCount = g.edgeCount)
    (hout : ∀ i : Nat, a.outgoing[i]? = if i < g.nodes.size then some (g.edgesFrom ⟨i⟩) else none)
    (hin : ∀ i : Nat, a.incoming[i]? =
      if i < g.nodes.size then some (g.predecessors ⟨i⟩) else none) :
    a = g.lists := by
  obtain ⟨nodes, outgoing, incoming, edgeCount⟩ := a
  obtain rfl : outgoing = g.lists.outgoing :=
    Array.ext_getElem? fun i => (hout i).trans (getElem?_outgoing_lists g i).symm
  obtain rfl : incoming = g.lists.incoming :=
    Array.ext_getElem? fun i => (hin i).trans (getElem?_incoming_lists g i).symm
  obtain rfl : nodes = g.nodes := hnodes
  obtain rfl : edgeCount = g.edgeCount := hcount
  rfl

theorem storeEdge_lists (g : Digraph N E) (s t : BlockId) (label : E) :
    g.lists.storeEdge s t label =
      ({ g with edges := g.edges ++ [⟨s, t, label⟩] } : Digraph N E).lists := by
  refine eq_lists rfl (by simp [Adjacency.storeEdge, lists, edgeCount]) (fun i => ?_) fun i => ?_
  · rw [edgesFrom_addEdge]
    exact getElem?_modify_of_nodes (getElem?_outgoing_lists g) s _ i
  · rw [predecessors_addEdge]
    exact getElem?_modify_of_nodes (getElem?_incoming_lists g) t _ i

theorem isSome_edge?_iff : (g.edge? s t).isSome = true ↔ ∃ e ∈ g.edges, Joins s t e := by
  simp [edge?]

theorem removeEdge_of_none (hedge : g.edge? s t = none) : g.removeEdge s t = g := by
  have hnone : ¬(g.edge? s t).isSome = true := by simp [hedge]
  rw [isSome_edge?_iff] at hnone
  have hsame : (g.edges.eraseP fun e => Joins s t e) = g.edges :=
    List.eraseP_of_forall_not fun e he hjoins => hnone ⟨e, he, of_decide_eq_true hjoins⟩
  rw [removeEdge, hsame]

theorem dropEdge_lists (hedge : (g.edge? s t).isSome = true) :
    g.lists.dropEdge s t = (g.removeEdge s t).lists := by
  obtain ⟨e, he, hjoins⟩ := isSome_edge?_iff.1 hedge
  refine eq_lists rfl ?_ (fun i => ?_) fun i => ?_
  · exact (List.length_eraseP_of_mem he (decide_eq_true hjoins)).symm
  · rw [edgesFrom_removeEdge, ← Adjacency.withoutFirst_eq_eraseP]
    exact getElem?_modify_of_nodes (getElem?_outgoing_lists g) s _ i
  · rw [predecessors_removeEdge, ← Adjacency.withoutFirst_eq_eraseP]
    exact getElem?_modify_of_nodes (getElem?_incoming_lists g) t _ i

theorem storeNode_lists (closed : g.Closed) (payload : N) :
    g.lists.storeNode payload = (g.addNode payload).lists := by
  have hout : g.edgesFrom g.nextNode = [] := by
    rw [edgesFrom, outgoing_eq_nil closed (b := g.nextNode) (Nat.lt_irrefl _), List.map_nil]
  have hin : g.predecessors g.nextNode = [] := by
    rw [predecessors, incoming_eq_nil closed (b := g.nextNode) (Nat.lt_irrefl _), List.map_nil]
  have hpush {α : Type} (f : BlockId → α) : ((g.addNode payload).nodeIds.map f).toArray =
      (g.nodeIds.map f).toArray.push (f g.nextNode) := by
    simp [nodeIds, addNode, nextNode, List.range_succ]
  have hsame : (g.addNode payload).edgesFrom = g.edgesFrom ∧
      (g.addNode payload).predecessors = g.predecessors := ⟨rfl, rfl⟩
  simp only [lists, Adjacency.storeNode, hpush, hsame, hout, hin]
  rfl

end writing

section running

def listed {α : Type} : EStateM.Result Fault (Digraph N E) α →
    EStateM.Result Fault (Adjacency N E) α
  | .ok a g => .ok a g.lists
  | .error e g => .error e g.lists

theorem addEdge_run (g : Digraph N E) (s t : BlockId) (label : E) : addEdge s t label g =
    if g.contains s = false then .error (.graph (.missingSource s g.nodeCount)) g
    else if g.contains t = false then .error (.graph (.missingTarget t g.nodeCount)) g
    else if g.hasEdge s t = true then .ok false g
    else .ok true { g with edges := g.edges ++ [⟨s, t, label⟩] } := by
  show ((guard (g.contains s) _ >>= fun _ => guard (g.contains t) _ >>= fun _ =>
    if g.hasEdge s t = true then pure false else set _ >>= fun _ => pure true) : Edit _ Bool) g = _
  cases g.contains s <;> cases g.contains t <;> cases g.hasEdge s t <;> rfl

end running

end Digraph

section running

variable {N E : Type} {g : Digraph N E}

theorem Adjacency.addEdge_run (a : Adjacency N E) (s t : BlockId) (label : E) :
    addEdge s t label a =
    if a.contains s = false then .error (.graph (.missingSource s a.nodeCount)) a
    else if a.contains t = false then .error (.graph (.missingTarget t a.nodeCount)) a
    else if (a.edge? s t).isSome = true then .ok false a
    else .ok true (a.storeEdge s t label) := by
  show ((guard (a.contains s) _ >>= fun _ => guard (a.contains t) _ >>= fun _ =>
    if (a.edge? s t).isSome = true then pure false else set _ >>= fun _ => pure true) : Edit _ Bool)
      a = _
  cases a.contains s <;> cases a.contains t <;> cases (a.edge? s t).isSome <;> rfl

/-- Whatever is asked of the lists is done and answered as if it had been asked of the graph. -/
theorem GraphRequest.run_lists (closed : g.Closed) (r : GraphRequest N E) :
    r.run g.lists = Digraph.listed (r.runOnEdges g) := by
  cases r with
  | addNode payload =>
    show EStateM.Result.ok _ (g.lists.storeNode payload) = _
    rw [Digraph.storeNode_lists closed]
    rfl
  | addEdge s t label =>
    have hrun : Adjacency.addEdge s t label g.lists =
        Digraph.listed (Digraph.addEdge s t label g) := by
      rw [Adjacency.addEdge_run, Digraph.addEdge_run, Digraph.edge?_lists closed,
        Digraph.storeEdge_lists, Digraph.hasEdge]
      change (if g.contains s = false then _ else if g.contains t = false then _ else _) = _
      cases g.contains s <;> cases g.contains t <;> cases (g.edge? s t).isSome <;> rfl
    show EStateM.map GraphAnswer.added (Adjacency.addEdge s t label) g.lists =
      Digraph.listed (EStateM.map GraphAnswer.added (Digraph.addEdge s t label) g)
    rw [EStateM.map, hrun, EStateM.map]
    cases Digraph.addEdge s t label g <;> rfl
  | removeEdge s t =>
    have hrun : Adjacency.removeEdge s t g.lists = .ok (g.edge? s t) (g.removeEdge s t).lists := by
      refine modifyGet_ok.2 ?_
      rw [Digraph.edge?_lists closed]
      cases hedge : g.edge? s t with
      | some label => rw [Digraph.dropEdge_lists (by simp [hedge])]
      | none => rw [Digraph.removeEdge_of_none hedge]
    show EStateM.map GraphAnswer.removed (Adjacency.removeEdge s t) g.lists = _
    rw [EStateM.map, hrun]
    rfl

end running

end MethodFlow
