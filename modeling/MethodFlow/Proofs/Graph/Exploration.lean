import MethodFlow.Graph.Search
import Mathlib.Algebra.BigOperators.Group.Finset.Basic
import Mathlib.Algebra.GroupWithZero.Nat
import Mathlib.Data.List.Nodup

/-!
Depth-first search by recursion. A node is discovered when the search first comes to it and finished
when all its successors have been explored, in the order of the edges. The recursion is also stated
as a relation on the lists of events, without a depth.
-/

namespace MethodFlow

def Precedes {α : Type} (x y : α) (l : List α) : Prop :=
  ∃ front back, l = front ++ back ∧ x ∈ front ∧ y ∈ back

namespace Precedes

variable {α : Type} {x y : α} {l : List α}

theorem append_left (h : Precedes x y l) (m : List α) : Precedes x y (m ++ l) := by
  obtain ⟨front, back, rfl, hx, hy⟩ := h
  exact ⟨m ++ front, back, by simp, by simp [hx], hy⟩

theorem append_right (h : Precedes x y l) (m : List α) : Precedes x y (l ++ m) := by
  obtain ⟨front, back, rfl, hx, hy⟩ := h
  exact ⟨front, back ++ m, by simp, hx, by simp [hy]⟩

theorem reverse (h : Precedes x y l) : Precedes y x l.reverse := by
  obtain ⟨front, back, rfl, hx, hy⟩ := h
  exact ⟨back.reverse, front.reverse, by simp, by simpa using hy, by simpa using hx⟩

theorem idxOf_lt [DecidableEq α] (h : Precedes x y l) (nodup : l.Nodup) :
    l.idxOf x < l.idxOf y := by
  obtain ⟨front, back, rfl, hx, hy⟩ := h
  have hfar : y ∉ front := fun hf => (List.nodup_append.1 nodup).2.2 y hf y hy rfl
  rw [List.idxOf_append_of_mem hx, List.idxOf_append_of_notMem hfar]
  have := List.idxOf_lt_length_of_mem hx
  omega

end Precedes

namespace Search

/-- Explores `b` and what lies behind it, unless it was discovered before. -/
def explore (successors : BlockId → List BlockId) : Nat → Search → BlockId → Search
  | 0, s, _ => s
  | depth + 1, s, b =>
    if b ∈ s.discovered then s
    else ((successors b).foldl (explore successors depth) (s.discover b)).finish b

end Search

/-- The recursive search from a node. It goes no deeper than there are nodes, since all nodes on the
way down differ, and it finds nothing where there is no such node. -/
def Digraph.search {N E : Type} (g : Digraph N E) (start : BlockId) : Search :=
  if g.contains start then Search.explore g.successors g.nodeCount {} start else {}

/-- The search passes the nodes of a list one after another and goes from `s` to `s'`. -/
inductive Explores (successors : BlockId → List BlockId) : Search → List BlockId → Search → Prop
  | done (s : Search) : Explores successors s [] s
  | old {s s' : Search} {b : BlockId} {rest : List BlockId} :
    b ∈ s.discovered → Explores successors s rest s' → Explores successors s (b :: rest) s'
  | new {s inner s' : Search} {b : BlockId} {rest : List BlockId} :
    b ∉ s.discovered → Explores successors (s.discover b) (successors b) inner →
      Explores successors (inner.finish b) rest s' → Explores successors s (b :: rest) s'

namespace Explores

variable {successors : BlockId → List BlockId} {s s' : Search} {bs : List BlockId}

/-- What the search adds: it discovers and finishes the same nodes, none of them for a second
time. -/
theorem grows (h : Explores successors s bs s') :
    ∃ new fin, s'.discovered = s.discovered ++ new ∧ s'.finished = s.finished ++ fin ∧
      new.Perm fin ∧ (s.discovered.Nodup → s'.discovered.Nodup) := by
  induction h with
  | done => exact ⟨[], [], by simp⟩
  | old _ _ ih => exact ih
  | @new s inner s' b rest fresh _ _ ihInner ihRest =>
    obtain ⟨new₁, fin₁, hd₁, hf₁, hp₁, hn₁⟩ := ihInner
    obtain ⟨new₂, fin₂, hd₂, hf₂, hp₂, hn₂⟩ := ihRest
    refine ⟨b :: new₁ ++ new₂, fin₁ ++ b :: fin₂, ?_, ?_, ?_, ?_⟩
    · simpa [Search.finish, hd₁, Search.discover] using hd₂
    · simpa [Search.finish, hf₁, Search.discover] using hf₂
    · have : (b :: (new₁ ++ new₂)).Perm (b :: (fin₁ ++ fin₂)) := (hp₁.append hp₂).cons b
      exact this.trans List.perm_middle.symm
    · intro hs
      apply hn₂
      apply hn₁
      exact List.nodup_append.2 ⟨hs, by simp, by
        rintro x hx y hy rfl
        exact fresh (by simp_all)⟩

theorem mem_discovered (h : Explores successors s bs s') {b : BlockId} (hb : b ∈ s.discovered) :
    b ∈ s'.discovered := by
  obtain ⟨new, _, hd, _⟩ := h.grows
  simp [hd, hb]

/-- What holds of the nodes of the list and of all successors holds of the nodes found. -/
theorem forall_discovered {P : BlockId → Prop} (h : Explores successors s bs s')
    (hsuccessors : ∀ b, ∀ c ∈ successors b, P c) (hbs : ∀ b ∈ bs, P b)
    (hs : ∀ b ∈ s.discovered, P b) :
    ∀ b ∈ s'.discovered, P b := by
  induction h with
  | done => exact hs
  | old _ _ ih => exact ih (fun c hc => hbs c (List.mem_cons_of_mem _ hc)) hs
  | @new s inner s' b rest _ _ _ ihInner ihRest =>
    refine ihRest (fun c hc => hbs c (List.mem_cons_of_mem _ hc))
      (ihInner (hsuccessors b) fun c hc => ?_)
    rcases List.mem_append.1 hc with hold | hnew
    · exact hs c hold
    · exact List.mem_singleton.1 hnew ▸ hbs b (by simp)

theorem subset_discovered (h : Explores successors s bs s') : ∀ b ∈ bs, b ∈ s'.discovered := by
  induction h with
  | done => simp
  | old known hrest ih =>
    intro c hc
    rcases List.mem_cons.1 hc with rfl | hc
    · exact hrest.mem_discovered known
    · exact ih c hc
  | new _ hinner hrest _ ih =>
    intro c hc
    rcases List.mem_cons.1 hc with rfl | hc
    · exact hrest.mem_discovered (hinner.mem_discovered (by simp [Search.discover]))
    · exact ih c hc

/-- Each node finished on the way stands in the list or before one of its predecessors, and all its
successors are discovered. -/
theorem finishes (h : Explores successors s bs s') :
    ∃ fin, s'.finished = s.finished ++ fin ∧
      (∀ x ∈ fin, x ∈ bs ∨ ∃ y, x ∈ successors y ∧ Precedes x y fin) ∧
      ∀ x ∈ fin, ∀ y ∈ successors x, y ∈ s'.discovered := by
  induction h with
  | done => exact ⟨[], by simp⟩
  | old _ _ ih =>
    obtain ⟨fin, hf, hback, hclosed⟩ := ih
    refine ⟨fin, hf, fun x hx => ?_, hclosed⟩
    exact (hback x hx).imp_left (List.mem_cons_of_mem _)
  | @new s inner s' b rest _ hinner hrest ihInner ihRest =>
    obtain ⟨fin₁, hf₁, hback₁, hclosed₁⟩ := ihInner
    obtain ⟨fin₂, hf₂, hback₂, hclosed₂⟩ := ihRest
    have hlate {x : BlockId} (hx : x ∈ inner.discovered) : x ∈ s'.discovered :=
      hrest.mem_discovered hx
    refine ⟨fin₁ ++ b :: fin₂, ?_, ?_, ?_⟩
    · simpa [Search.finish, hf₁, Search.discover] using hf₂
    · intro x hx
      rcases List.mem_append.1 hx with hx | hx
      · rcases hback₁ x hx with hsucc | ⟨y, hy, hp⟩
        · exact .inr ⟨b, hsucc, fin₁, b :: fin₂, rfl, hx, by simp⟩
        · exact .inr ⟨y, hy, hp.append_right _⟩
      rcases List.mem_cons.1 hx with rfl | hx
      · exact .inl (by simp)
      · rcases hback₂ x hx with hmem | ⟨y, hy, hp⟩
        · exact .inl (List.mem_cons_of_mem _ hmem)
        · exact .inr ⟨y, hy, by simpa using hp.append_left (fin₁ ++ [b])⟩
    · intro x hx y hy
      rcases List.mem_append.1 hx with hx | hx
      · exact hlate (hclosed₁ x hx y hy)
      rcases List.mem_cons.1 hx with rfl | hx
      · exact hlate (hinner.subset_discovered y hy)
      · exact hclosed₂ x hx y hy

end Explores

namespace Search

/-- Number of nodes among `nodes` that the search has not discovered. -/
def room (nodes : List BlockId) (s : Search) : Nat := nodes.countP (· ∉ s.discovered)

theorem room_mono {nodes : List BlockId} {s s' : Search}
    (h : ∀ b ∈ s.discovered, b ∈ s'.discovered) : s'.room nodes ≤ s.room nodes := by
  apply List.countP_mono_left
  intro b _ hb
  simp only [decide_eq_true_eq] at hb ⊢
  exact fun hd => hb (h b hd)

theorem room_discover_lt {nodes : List BlockId} {s : Search} {b : BlockId} (hb : b ∈ nodes)
    (fresh : b ∉ s.discovered) : (s.discover b).room nodes < s.room nodes := by
  unfold room
  induction nodes with
  | nil => simp at hb
  | cons c rest ih =>
    have hmono : rest.countP (· ∉ (s.discover b).discovered) ≤ rest.countP (· ∉ s.discovered) :=
      room_mono (by simp +contextual [discover])
    simp only [List.countP_cons, decide_eq_true_eq]
    by_cases hcb : c = b
    · subst hcb
      have hnow : c ∈ (s.discover c).discovered := by simp [discover]
      simp only [hnow, fresh, not_true_eq_false, not_false_eq_true, ↓reduceIte]
      omega
    · have hlt := ih ((List.mem_cons.1 hb).resolve_left (Ne.symm hcb))
      have hsame : c ∈ (s.discover b).discovered ↔ c ∈ s.discovered := by simp [discover, hcb]
      simp only [hsame]
      omega

variable {successors : BlockId → List BlockId} {nodes : List BlockId}

theorem explores_foldl (closed : ∀ b, ∀ c ∈ successors b, c ∈ nodes) (depth : Nat) :
    ∀ (bs : List BlockId) (s : Search), (∀ b ∈ bs, b ∈ nodes) → s.room nodes ≤ depth →
      Explores successors s bs (bs.foldl (explore successors depth) s) := by
  induction depth with
  | zero =>
    intro bs
    induction bs with
    | nil => exact fun s _ _ => .done s
    | cons b rest ih =>
      intro s hbs hroom
      have hb := hbs b (by simp)
      have known : b ∈ s.discovered := by
        by_contra fresh
        have := room_discover_lt hb fresh
        omega
      exact .old known (ih s (fun c hc => hbs c (List.mem_cons_of_mem _ hc)) hroom)
  | succ depth ihDepth =>
    intro bs
    induction bs with
    | nil => exact fun s _ _ => .done s
    | cons b rest ih =>
      intro s hbs hroom
      have hrest : ∀ c ∈ rest, c ∈ nodes := fun c hc => hbs c (List.mem_cons_of_mem _ hc)
      simp only [List.foldl_cons, explore]
      split
      case isTrue known => exact .old known (ih s hrest hroom)
      case isFalse fresh =>
        have hlt := room_discover_lt (hbs b (by simp)) fresh
        have hinner := ihDepth (successors b) (s.discover b) (closed b) (by omega)
        refine .new fresh hinner (ih _ hrest (Nat.le_trans (room_mono ?_) hroom))
        intro c hc
        exact hinner.mem_discovered (by simp [discover, hc])

end Search

namespace Digraph

variable {N E : Type} {g : Digraph N E}

def Closed (g : Digraph N E) : Prop := ∀ e ∈ g.edges, g.contains e.source ∧ g.contains e.target

theorem mem_nodeIds {b : BlockId} : b ∈ g.nodeIds ↔ g.contains b := by
  obtain ⟨i⟩ := b
  simp [nodeIds, contains]

theorem pairwise_nodeIds (g : Digraph N E) : g.nodeIds.Pairwise fun b c => b.index < c.index :=
  List.pairwise_map.2 List.pairwise_lt_range

theorem nodup_nodeIds (g : Digraph N E) : g.nodeIds.Nodup :=
  g.pairwise_nodeIds.imp fun hlt he => Nat.ne_of_lt hlt (congrArg BlockId.index he)

/-- There are no more different nodes than the graph has. -/
theorem length_le_nodeCount {bs : List BlockId} (nodup : bs.Nodup)
    (hcontains : ∀ b ∈ bs, g.contains b) : bs.length ≤ g.nodeCount := by
  have hsub : bs.Subperm g.nodeIds := nodup.subperm fun b hb => mem_nodeIds.2 (hcontains b hb)
  simpa [nodeIds, nodeCount] using hsub.length_le

theorem sum_grouped (g : Digraph N E) {key : Edge E → BlockId}
    (hkey : ∀ e ∈ g.edges, g.contains (key e) = true) :
    (g.nodeIds.map fun b => (g.edges.filter fun e => key e = b).length).sum = g.edgeCount := by
  have hcount (b : BlockId) :
      (g.edges.filter fun e => key e = b).length =
        (g.edges.map key : Multiset BlockId).count b := by
    rw [Multiset.coe_count, List.count, List.countP_map, List.countP_eq_length_filter]
    rfl
  simp only [hcount]
  rw [← List.sum_toFinset _ (nodup_nodeIds g), Multiset.sum_count_eq_card]
  · exact List.length_map key
  · intro b hb
    obtain ⟨e, he, rfl⟩ := List.mem_map.1 (Multiset.mem_coe.1 hb)
    exact List.mem_toFinset.2 (mem_nodeIds.2 (hkey e he))

theorem Closed.contains_successor (closed : g.Closed) {b c : BlockId} (h : c ∈ g.successors b) :
    g.contains c := by
  obtain ⟨e, he, _, rfl⟩ := mem_successors.1 h
  exact (closed e he).2

theorem mem_predecessors_iff {b c : BlockId} : b ∈ g.predecessors c ↔ c ∈ g.successors b :=
  mem_predecessors.trans mem_successors.symm

theorem explores_start (closed : g.Closed) {start : BlockId} (h : g.contains start) :
    Explores g.successors {} [start] (g.search start) := by
  have hroom : Search.room g.nodeIds {} ≤ g.nodeCount := by
    unfold Search.room
    refine Nat.le_trans List.countP_le_length ?_
    simp [nodeIds, nodeCount]
  have hinside : ∀ b, ∀ c ∈ g.successors b, c ∈ g.nodeIds := fun b c hc =>
    mem_nodeIds.2 (closed.contains_successor hc)
  have hrun := Search.explores_foldl hinside g.nodeCount [start] {}
    (by simpa [mem_nodeIds] using h) hroom
  have hsearch : g.search start = Search.explore g.successors g.nodeCount {} start := if_pos h
  rwa [List.foldl_cons, List.foldl_nil, ← hsearch] at hrun

/-- A search from a node of the graph discovers it first and finishes it last. -/
theorem explores_search (closed : g.Closed) {start : BlockId} (h : g.contains start) :
    ∃ inner, Explores g.successors (Search.discover {} start) (g.successors start) inner ∧
      g.search start = inner.finish start := by
  have hrun := explores_start closed h
  generalize g.search start = result at hrun
  cases hrun with
  | old known _ => simp at known
  | new _ hinner hrest =>
    cases hrest
    exact ⟨_, hinner, rfl⟩

theorem contains_of_discovered (closed : g.Closed) {start b : BlockId} (h : g.contains start)
    (hb : b ∈ (g.search start).discovered) : g.contains b :=
  (explores_start closed h).forall_discovered (fun _ _ hc => closed.contains_successor hc)
    (by simpa using h) (by simp) b hb

end Digraph

end MethodFlow
