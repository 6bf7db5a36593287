import MethodFlow.Proofs.Graph.Exploration
import Mathlib.Algebra.Order.BigOperators.Group.Finset

/-!
Depth-first orders against paths. The loops that make the orders visit the nodes as the recursive
search does, though their stacks hold nodes that are visited before they come off. From it: the
nodes found are those that a path leads to, each once, and in reverse postorder every node but the
first follows one of its predecessors.
-/

namespace MethodFlow

namespace Search

variable {α : Type} {successors : BlockId → List BlockId}

theorem push_eq (item : BlockId → α) (visited bs : List BlockId) (stack : List α) :
    push item visited bs stack = (bs.filter (· ∉ visited)).map item ++ stack := by
  induction bs with
  | nil => rfl
  | cons b rest ih =>
    rw [push, List.foldr_cons, ← push, ih]
    by_cases hb : b ∈ visited <;> simp [hb]

theorem visit_nil (rounds : Nat) (visited : List BlockId) :
    visit successors rounds visited [] = visited := by
  cases rounds <;> rfl

theorem traverse_nil (rounds : Nat) (s : Search) : traverse successors rounds s [] = s := by
  cases rounds <;> rfl

theorem visit_old {visited stack : List BlockId} {b : BlockId} (known : b ∈ visited)
    (rounds : Nat) :
    visit successors (rounds + 1) visited (b :: stack) = visit successors rounds visited stack :=
  if_pos known

theorem visit_new {visited stack : List BlockId} {b : BlockId} (fresh : b ∉ visited)
    (rounds : Nat) :
    visit successors (rounds + 1) visited (b :: stack) =
      visit successors rounds (visited ++ [b])
        ((successors b).filter (· ∉ visited ++ [b]) ++ stack) := by
  rw [visit, if_neg fresh, push_eq, List.map_id]

theorem traverse_old {s : Search} {stack : List Task} {b : BlockId} (known : b ∈ s.discovered)
    (rounds : Nat) :
    traverse successors (rounds + 1) s (.enter b :: stack) = traverse successors rounds s stack :=
  if_pos known

theorem traverse_new {s : Search} {stack : List Task} {b : BlockId} (fresh : b ∉ s.discovered)
    (rounds : Nat) : traverse successors (rounds + 1) s (.enter b :: stack) =
      traverse successors rounds (s.discover b)
        (((successors b).filter (· ∉ (s.discover b).discovered)).map .enter ++
          .leave b :: stack) := by
  rw [traverse, if_neg fresh, push_eq]

end Search

namespace Explores

variable {successors : BlockId → List BlockId} {s s' : Search} {bs : List BlockId}

/-- Once the nodes of a list are at the top of the stack, the loop comes to where the recursive
search of the list ends. Nodes that were seen when the list was put there are missing from it. A
round is needed for every node of the list and for every edge that leaves a node found. -/
theorem visit (h : Explores successors s bs s') (seen : List BlockId)
    (hseen : ∀ b ∈ seen, b ∈ s.discovered) :
    ∃ new rounds, s'.discovered = s.discovered ++ new ∧
      rounds ≤ bs.length + (new.map fun b => (successors b).length).sum ∧
      ∀ more stack, Search.visit successors (rounds + more) s.discovered
        (bs.filter (· ∉ seen) ++ stack) = Search.visit successors more s'.discovered stack := by
  induction h generalizing seen with
  | done s => exact ⟨[], 0, by simp, Nat.zero_le _, fun more stack => by simp⟩
  | @old s s' b rest known _ ih =>
    obtain ⟨new, rounds, hnew, hle, hrun⟩ := ih seen hseen
    by_cases hb : b ∈ seen
    · exact ⟨new, rounds, hnew, by simp; omega,
        fun more stack => by simpa [hb] using hrun more stack⟩
    · refine ⟨new, rounds + 1, hnew, by simp; omega, fun more stack => ?_⟩
      have hround : rounds + 1 + more = rounds + more + 1 := by omega
      rw [List.filter_cons_of_pos (by simpa using hb), List.cons_append, hround,
        Search.visit_old known, hrun]
  | @new s inner s' b rest fresh hinner hrest ihInner ihRest =>
    obtain ⟨below, rounds₁, hbelow, hle₁, hrun₁⟩ := ihInner (s.discover b).discovered fun _ hc => hc
    obtain ⟨beside, rounds₂, hbeside, hle₂, hrun₂⟩ := ihRest seen fun c hc =>
      hinner.mem_discovered (List.mem_append_left _ (hseen c hc))
    have hb : b ∉ seen := fun hb => fresh (hseen b hb)
    refine ⟨b :: below ++ beside, rounds₁ + rounds₂ + 1, ?_, ?_, fun more stack => ?_⟩
    · rw [hbeside, Search.finish, hbelow, Search.discover]
      simp
    · simp
      omega
    · have hround : rounds₁ + rounds₂ + 1 + more = rounds₁ + (rounds₂ + more) + 1 := by omega
      rw [List.filter_cons_of_pos (by simpa using hb), List.cons_append, hround,
        Search.visit_new fresh]
      exact (hrun₁ _ _).trans (hrun₂ more stack)

/-- The same for the loop that enters and leaves. Every node found needs one more round, in which it
is left. -/
theorem traverse (h : Explores successors s bs s') (seen : List BlockId)
    (hseen : ∀ b ∈ seen, b ∈ s.discovered) :
    ∃ new rounds, s'.discovered = s.discovered ++ new ∧
      rounds ≤ bs.length + new.length + (new.map fun b => (successors b).length).sum ∧
      ∀ more stack, Search.traverse successors (rounds + more) s
          ((bs.filter (· ∉ seen)).map .enter ++ stack) =
            Search.traverse successors more s' stack := by
  induction h generalizing seen with
  | done s => exact ⟨[], 0, by simp, Nat.zero_le _, fun more stack => by simp⟩
  | @old s s' b rest known _ ih =>
    obtain ⟨new, rounds, hnew, hle, hrun⟩ := ih seen hseen
    by_cases hb : b ∈ seen
    · exact ⟨new, rounds, hnew, by simp; omega,
        fun more stack => by simpa [hb] using hrun more stack⟩
    · refine ⟨new, rounds + 1, hnew, by simp; omega, fun more stack => ?_⟩
      have hround : rounds + 1 + more = rounds + more + 1 := by omega
      rw [List.filter_cons_of_pos (by simpa using hb), List.map_cons, List.cons_append, hround,
        Search.traverse_old known, hrun]
  | @new s inner s' b rest fresh hinner hrest ihInner ihRest =>
    obtain ⟨below, rounds₁, hbelow, hle₁, hrun₁⟩ := ihInner (s.discover b).discovered fun _ hc => hc
    obtain ⟨beside, rounds₂, hbeside, hle₂, hrun₂⟩ := ihRest seen fun c hc =>
      hinner.mem_discovered (List.mem_append_left _ (hseen c hc))
    have hb : b ∉ seen := fun hb => fresh (hseen b hb)
    refine ⟨b :: below ++ beside, rounds₁ + 1 + rounds₂ + 1, ?_, ?_, fun more stack => ?_⟩
    · rw [hbeside, Search.finish, hbelow, Search.discover]
      simp
    · simp
      omega
    · have hround : rounds₁ + 1 + rounds₂ + 1 + more =
          rounds₁ + (rounds₂ + more + 1) + 1 := by omega
      rw [List.filter_cons_of_pos (by simpa using hb), List.map_cons, List.cons_append, hround,
        Search.traverse_new fresh]
      exact (hrun₁ _ _).trans (hrun₂ more stack)

end Explores

namespace Digraph

variable {N E : Type} {g : Digraph N E}

theorem sum_outgoing_le (closed : g.Closed) {bs : List BlockId} (nodup : bs.Nodup)
    (hbs : ∀ b ∈ bs, g.contains b) :
    (bs.map fun b => (g.successors b).length).sum ≤ g.edgeCount := by
  have hlength : (fun b => (g.successors b).length) =
      fun b => (g.edges.filter fun e => e.source = b).length :=
        funext fun _ => List.length_map Edge.target
  rw [hlength, ← sum_grouped g fun e he => (closed e he).1, ← List.sum_toFinset _ nodup,
    ← List.sum_toFinset _ (nodup_nodeIds g)]
  refine Finset.sum_le_sum_of_subset fun b hb => ?_
  exact List.mem_toFinset.2 (mem_nodeIds.2 (hbs b (List.mem_toFinset.1 hb)))

section

variable {start : BlockId} (closed : g.Closed) (h : g.contains start)

include closed h

theorem nodup_discovered : (g.search start).discovered.Nodup := by
  obtain ⟨_, _, _, _, _, hn⟩ := (explores_start closed h).grows
  exact hn List.nodup_nil

/-- The order of the visits is the order in which the recursive search discovers the nodes. -/
theorem preorder_eq : g.preorder start = (g.search start).discovered := by
  obtain ⟨new, rounds, hnew, hle, hrun⟩ :=
    (explores_start closed h).visit [] fun _ hb => absurd hb List.not_mem_nil
  have hfound : (g.search start).discovered = new := hnew
  have hedges := sum_outgoing_le closed (hfound ▸ nodup_discovered closed h) fun b hb =>
    contains_of_discovered closed h (hfound ▸ hb)
  have hrounds : g.edgeCount + 1 = rounds + (g.edgeCount + 1 - rounds) := by
    simp only [List.length_singleton] at hle
    omega
  rw [preorder, if_pos h, hrounds]
  exact (hrun _ []).trans (Search.visit_nil _ _)

/-- The nodes are left in the order in which the recursive search finishes them. -/
theorem postorder_eq : g.postorder start = (g.search start).finished := by
  obtain ⟨new, rounds, hnew, hle, hrun⟩ :=
    (explores_start closed h).traverse [] fun _ hb => absurd hb List.not_mem_nil
  have hfound : (g.search start).discovered = new := hnew
  have nodup : new.Nodup := hfound ▸ nodup_discovered closed h
  have hcontains : ∀ b ∈ new, g.contains b :=
    fun b hb => contains_of_discovered closed h (hfound ▸ hb)
  have hedges := sum_outgoing_le closed nodup hcontains
  have hnodes : new.length ≤ g.nodeCount := length_le_nodeCount nodup hcontains
  have hrounds : g.nodeCount + g.edgeCount + 1 =
      rounds + (g.nodeCount + g.edgeCount + 1 - rounds) := by
    simp only [List.length_singleton] at hle
    omega
  rw [postorder, if_pos h, hrounds]
  exact congrArg Search.finished ((hrun _ []).trans (Search.traverse_nil _ _))

theorem nodup_preorder : (g.preorder start).Nodup :=
  preorder_eq closed h ▸ nodup_discovered closed h

/-- Both orders list the same nodes. -/
theorem preorder_perm_postorder : (g.preorder start).Perm (g.postorder start) := by
  obtain ⟨new, fin, hd, hf, hp, _⟩ := (explores_start closed h).grows
  rwa [preorder_eq closed h, postorder_eq closed h, hd, hf]

theorem nodup_reversePostorder : (g.reversePostorder start).Nodup :=
  List.nodup_reverse.2 ((preorder_perm_postorder closed h).nodup_iff.1 (nodup_preorder closed h))

theorem mem_reversePostorder {b : BlockId} :
    b ∈ g.reversePostorder start ↔ b ∈ g.preorder start := by
  rw [reversePostorder, List.mem_reverse, (preorder_perm_postorder closed h).mem_iff]

theorem reversePostorder_eq_cons : ∃ rest, g.reversePostorder start = start :: rest := by
  obtain ⟨inner, _, he⟩ := explores_search closed h
  exact ⟨inner.finished.reverse,
    by simp [reversePostorder, postorder_eq closed h, he, Search.finish]⟩

/-- Every node but the first follows one of its predecessors. -/
theorem exists_earlier_predecessor {b : BlockId} (hb : b ∈ g.reversePostorder start)
    (hne : b ≠ start) :
    ∃ p, b ∈ g.successors p ∧ Precedes p b (g.reversePostorder start) := by
  obtain ⟨inner, hrun, he⟩ := explores_search closed h
  obtain ⟨fin, hf, hback, _⟩ := hrun.finishes
  have horder : g.reversePostorder start = (fin ++ [start]).reverse := by
    simp [reversePostorder, postorder_eq closed h, he, Search.finish, hf, Search.discover]
  rw [horder] at hb ⊢
  have hfin : b ∈ fin := by simpa [hne] using hb
  rcases hback b hfin with hsucc | ⟨p, hp, hprec⟩
  · exact ⟨start, hsucc, Precedes.reverse ⟨fin, [start], rfl, hfin, by simp⟩⟩
  · exact ⟨p, hp, (hprec.append_right [start]).reverse⟩

theorem contains_of_mem_preorder {b : BlockId} (hb : b ∈ g.preorder start) : g.contains b := by
  rw [← mem_reversePostorder closed h] at hb
  by_cases hne : b = start
  · rw [hne]
    exact h
  · obtain ⟨p, hp, _⟩ := exists_earlier_predecessor closed h hb hne
    exact closed.contains_successor hp

theorem successor_mem_preorder {b c : BlockId} (hb : b ∈ g.preorder start)
    (hc : c ∈ g.successors b) : c ∈ g.preorder start := by
  obtain ⟨inner, hrun, he⟩ := explores_search closed h
  obtain ⟨fin, hf, _, hclosed⟩ := hrun.finishes
  have hpre : g.preorder start = inner.discovered := by rw [preorder_eq closed h, he, Search.finish]
  rw [← mem_reversePostorder closed h] at hb
  have hfin : b = start ∨ b ∈ fin := by
    simpa [reversePostorder, postorder_eq closed h, he, Search.finish, hf, Search.discover] using hb
  rw [hpre]
  rcases hfin with rfl | hfin
  · exact hrun.subset_discovered c hc
  · exact hclosed b hfin c hc

/-- A search finds the nodes that a path from its start leads to, and no others. -/
theorem mem_preorder_iff {b : BlockId} : b ∈ g.preorder start ↔ g.Path start b := by
  constructor
  · intro hb
    rw [← mem_reversePostorder closed h] at hb
    have hidx : ∀ n, ∀ c ∈ g.reversePostorder start,
        (g.reversePostorder start).idxOf c = n → g.Path start c := by
      intro n
      induction n using Nat.strongRecOn with
      | _ n ih =>
        intro c hc hn
        by_cases hne : c = start
        · rw [hne]
          exact .refl start
        · obtain ⟨p, hp, hprec⟩ := exists_earlier_predecessor closed h hc hne
          have hlt := hprec.idxOf_lt (nodup_reversePostorder closed h)
          have hmem : p ∈ g.reversePostorder start := by
            obtain ⟨front, back, he, hpf, _⟩ := hprec
            rw [he]
            exact List.mem_append_left back hpf
          exact .step (ih _ (hn ▸ hlt) p hmem rfl) hp
    exact hidx _ b hb rfl
  · intro hpath
    induction hpath with
    | refl =>
      rw [← mem_reversePostorder closed h]
      obtain ⟨rest, he⟩ := reversePostorder_eq_cons closed h
      simp [he]
    | step _ hc ih => exact successor_mem_preorder closed h ih hc

end

end Digraph

end MethodFlow
