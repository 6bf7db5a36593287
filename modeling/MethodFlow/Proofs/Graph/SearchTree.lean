import MethodFlow.Proofs.Graph.Search

/-!
The tree of a depth-first search. A node stands below the one whose edge the search followed when it
discovered the node. The depth-first orders are those of the tree, and an edge that does not lead on
in reverse postorder leads back to an ancestor.
-/

namespace MethodFlow

/-- Trees beside one another. -/
inductive Forest where
  | none
  | tree (root : BlockId) (below beside : Forest)
deriving DecidableEq

namespace Forest

def preorder : Forest → List BlockId
  | none => []
  | tree root below beside => root :: below.preorder ++ beside.preorder

def postorder : Forest → List BlockId
  | none => []
  | tree root below beside => below.postorder ++ root :: beside.postorder

/-- `a` stands above `b` in one of the trees. -/
def Ancestor : Forest → BlockId → BlockId → Prop
  | none, _, _ => False
  | tree root below beside, a, b =>
    a = root ∧ b ∈ below.preorder ∨ below.Ancestor a b ∨ beside.Ancestor a b

theorem preorder_perm_postorder (t : Forest) : t.preorder.Perm t.postorder := by
  induction t with
  | none => exact .nil
  | tree root below beside ihBelow ihBeside =>
    have hroot : (root :: below.preorder ++ beside.preorder).Perm
        (root :: (below.postorder ++ beside.postorder)) := (ihBelow.append ihBeside).cons root
    exact hroot.trans List.perm_middle.symm

/-- The node `v` is finished before `u`, or it is `u` or an ancestor of it. -/
def EarlierOrAbove (t : Forest) (u v : BlockId) : Prop :=
  Precedes v u t.postorder ∨ v = u ∨ t.Ancestor v u

variable {root u v : BlockId} {below beside : Forest}

theorem EarlierOrAbove.of_below (h : below.EarlierOrAbove u v) :
    (tree root below beside).EarlierOrAbove u v := by
  rcases h with hearlier | hself | habove
  · exact .inl (hearlier.append_right _)
  · exact .inr (.inl hself)
  · exact .inr (.inr (.inr (.inl habove)))

theorem EarlierOrAbove.of_beside (h : beside.EarlierOrAbove u v) :
    (tree root below beside).EarlierOrAbove u v := by
  rcases h with hearlier | hself | habove
  · exact .inl (by simpa [postorder] using hearlier.append_left (below.postorder ++ [root]))
  · exact .inr (.inl hself)
  · exact .inr (.inr (.inr (.inr habove)))

end Forest

/-- What a recursive search of the nodes of a list grows if the nodes `seen` are discovered already.
Each node that is new when the search comes to it is the root of what a search of its successors
grows. -/
inductive Grows (successors : BlockId → List BlockId) : List BlockId → List BlockId → Forest → Prop
  | done (seen : List BlockId) : Grows successors seen [] .none
  | old {seen rest : List BlockId} {b : BlockId} {t : Forest} :
    b ∈ seen → Grows successors seen rest t → Grows successors seen (b :: rest) t
  | new {seen rest : List BlockId} {b : BlockId} {below beside : Forest} :
    b ∉ seen → Grows successors (seen ++ [b]) (successors b) below →
      Grows successors (seen ++ b :: below.preorder) rest beside →
      Grows successors seen (b :: rest) (.tree b below beside)

/-- The recursive search records the orders of the forest that it grows. -/
theorem Explores.exists_grows {successors : BlockId → List BlockId} {s s' : Search}
    {bs : List BlockId} (h : Explores successors s bs s') :
    ∃ t, Grows successors s.discovered bs t ∧ s'.discovered = s.discovered ++ t.preorder ∧
      s'.finished = s.finished ++ t.postorder := by
  induction h with
  | done s => exact ⟨.none, .done _, (List.append_nil _).symm, (List.append_nil _).symm⟩
  | old known _ ih =>
    obtain ⟨t, hgrows, horders⟩ := ih
    exact ⟨t, .old known hgrows, horders⟩
  | @new s inner s' b rest fresh _ _ ihInner ihRest =>
    obtain ⟨below, hbelow, hd₁, hf₁⟩ := ihInner
    obtain ⟨beside, hbeside, hd₂, hf₂⟩ := ihRest
    have hseen : (inner.finish b).discovered = s.discovered ++ b :: below.preorder := by
      rw [Search.finish, hd₁, Search.discover, List.append_assoc, List.singleton_append]
    refine ⟨.tree b below beside, .new fresh hbelow (hseen ▸ hbeside), ?_, ?_⟩
    · rw [hd₂, hseen, Forest.preorder, List.append_assoc]
    · rw [hf₂, Search.finish, hf₁, Search.discover, Forest.postorder]
      simp

namespace Grows

variable {successors : BlockId → List BlockId} {seen bs : List BlockId} {t t' : Forest}
  {u v : BlockId}

/-- There is one search. -/
theorem unique (h : Grows successors seen bs t) (h' : Grows successors seen bs t') : t' = t := by
  induction h generalizing t' with
  | done => cases h'; rfl
  | old known _ ih =>
    cases h' with
    | old _ h' => exact ih h'
    | new fresh _ _ => exact absurd known fresh
  | new fresh _ _ ihBelow ihBeside =>
    cases h' with
    | old known _ => exact absurd known fresh
    | new _ hbelow hbeside =>
      obtain rfl := ihBelow hbelow
      obtain rfl := ihBeside hbeside
      rfl

theorem seen_or_mem (h : Grows successors seen bs t) (hv : v ∈ bs) : v ∈ seen ∨ v ∈ t.preorder := by
  induction h with
  | done => exact absurd hv List.not_mem_nil
  | old known _ ih =>
    rcases List.mem_cons.1 hv with rfl | hv
    · exact .inl known
    · exact ih hv
  | @new seen rest b below beside _ _ _ _ ihBeside =>
    rw [Forest.preorder]
    rcases List.mem_cons.1 hv with rfl | hv
    · exact .inr (by simp)
    · have := ihBeside hv
      simp only [List.mem_append, List.mem_cons] at this ⊢
      tauto

/-- An edge from a node that has been found leads to a node that was seen before, to one that is
finished earlier, to itself or to an ancestor. -/
theorem target_cases (h : Grows successors seen bs t) (hu : u ∈ t.preorder)
    (hv : v ∈ successors u) :
    v ∈ seen ∨ t.EarlierOrAbove u v := by
  induction h with
  | done => exact absurd hu List.not_mem_nil
  | old _ _ ih => exact ih hu
  | @new seen rest b below beside _ hbelow _ ihBelow ihBeside =>
    have hpost {w : BlockId} (hw : w ∈ below.preorder) : w ∈ below.postorder :=
      below.preorder_perm_postorder.mem_iff.1 hw
    -- The edge leaves the root, a node below it or a node beside it.
    rcases List.mem_append.1 hu with hu | hu
    · rcases List.mem_cons.1 hu with rfl | hu
      · rcases hbelow.seen_or_mem hv with hseen | hv
        · rcases List.mem_append.1 hseen with hseen | hself
          · exact .inl hseen
          · exact .inr (.inr (.inl (List.mem_singleton.1 hself)))
        · exact .inr (.inl ⟨below.postorder, u :: beside.postorder, rfl, hpost hv, by simp⟩)
      · rcases ihBelow hu with hseen | hbelow
        · rcases List.mem_append.1 hseen with hseen | hroot
          · exact .inl hseen
          · exact .inr (.inr (.inr (.inl ⟨List.mem_singleton.1 hroot, hu⟩)))
        · exact .inr hbelow.of_below
    · rcases ihBeside hu with hseen | hbeside
      · rcases List.mem_append.1 hseen with hseen | hfound
        · exact .inl hseen
        · have hu' : u ∈ beside.postorder := beside.preorder_perm_postorder.mem_iff.1 hu
          refine .inr
            (.inl ⟨below.postorder ++ [b], beside.postorder, by simp [Forest.postorder], ?_, hu'⟩)
          rcases List.mem_cons.1 hfound with rfl | hfound
          · simp
          · exact List.mem_append_left _ (hpost hfound)
      · exact .inr hbeside.of_beside

end Grows

namespace Digraph

variable {N E : Type} {g : Digraph N E} {start : BlockId}

/-- The depth-first orders are those of the recursive search and of its tree. -/
structure OrdersOfSearch (g : Digraph N E) (start : BlockId) (t : Forest) : Prop where
  grows : Grows g.successors [] [start] t
  unique : ∀ t', Grows g.successors [] [start] t' → t' = t
  discovered : g.preorder start = (g.search start).discovered ∧ g.preorder start = t.preorder
  finished : g.postorder start = (g.search start).finished ∧ g.postorder start = t.postorder
  nodup_preorder : (g.preorder start).Nodup
  nodup_postorder : (g.postorder start).Nodup
  mem_preorder : ∀ b, b ∈ g.preorder start ↔ g.Path start b
  mem_postorder : ∀ b, b ∈ g.postorder start ↔ g.Path start b
  first : (g.reversePostorder start).head? = some start
  back : ∀ u ∈ g.reversePostorder start, ∀ v ∈ g.reversePostorder start, v ∈ g.successors u →
    ¬Precedes u v (g.reversePostorder start) → v = u ∨ t.Ancestor v u

/-- The loops find the orders of the one recursive search, and an edge that does not lead to a later
node in reverse postorder leads back to its source or to an ancestor of it. -/
theorem exists_ordersOfSearch (closed : g.Closed) (h : g.contains start) :
    ∃ t, g.OrdersOfSearch start t := by
  obtain ⟨t, hgrows, hdiscovered, hfinished⟩ := (explores_start closed h).exists_grows
  have hpre : g.preorder start = t.preorder := (preorder_eq closed h).trans hdiscovered
  have hpost : g.postorder start = t.postorder := (postorder_eq closed h).trans hfinished
  have hperm := preorder_perm_postorder closed h
  have hback : ∀ u ∈ g.reversePostorder start, ∀ v ∈ g.successors u,
      ¬Precedes u v (g.reversePostorder start) → v = u ∨ t.Ancestor v u := by
    intro u hu v hedge hnot
    rw [mem_reversePostorder closed h, hpre] at hu
    rcases hgrows.target_cases hu hedge with hseen | hearlier | hanc
    · exact absurd hseen List.not_mem_nil
    · rw [← hpost] at hearlier
      exact absurd hearlier.reverse hnot
    · exact hanc
  obtain ⟨rest, hrest⟩ := reversePostorder_eq_cons closed h
  exact ⟨t, {
    grows := hgrows
    unique := fun t' => hgrows.unique
    discovered := ⟨preorder_eq closed h, hpre⟩
    finished := ⟨postorder_eq closed h, hpost⟩
    nodup_preorder := nodup_preorder closed h
    nodup_postorder := hperm.nodup_iff.1 (nodup_preorder closed h)
    mem_preorder := fun b => mem_preorder_iff closed h
    mem_postorder := fun b => hperm.mem_iff.symm.trans (mem_preorder_iff closed h)
    first := by rw [hrest]; rfl
    back := fun u hu v _ => hback u hu v }⟩

/-- An inner loop that is also entered from outside, a loop of one node, and a node that no path
leads to. -/
def winding : Digraph Unit Unit :=
  ⟨#[(), (), (), (), ()],
    [⟨⟨0⟩, ⟨1⟩, ()⟩, ⟨⟨0⟩, ⟨2⟩, ()⟩, ⟨⟨1⟩, ⟨3⟩, ()⟩, ⟨⟨2⟩, ⟨3⟩, ()⟩, ⟨⟨3⟩, ⟨1⟩, ()⟩,
    ⟨⟨3⟩, ⟨3⟩, ()⟩, ⟨⟨4⟩, ⟨0⟩, ()⟩]⟩

theorem winding_orders : winding.Closed ∧ winding.contains ⟨0⟩ = true ∧
    winding.preorder ⟨0⟩ = [⟨0⟩, ⟨1⟩, ⟨3⟩, ⟨2⟩] ∧ winding.postorder ⟨0⟩ = [⟨3⟩, ⟨1⟩, ⟨2⟩, ⟨0⟩] ∧
    ∃ t, winding.OrdersOfSearch ⟨0⟩ t := by
  have closed : winding.Closed := by simp [Closed, winding, contains]
  exact ⟨closed, rfl, by decide, by decide, exists_ordersOfSearch closed rfl⟩

end Digraph

end MethodFlow
