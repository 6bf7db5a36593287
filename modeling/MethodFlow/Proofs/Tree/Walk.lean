import MethodFlow.Proofs.Tree.Coherence
import MethodFlow.Tree.Walk
import Mathlib.Data.List.Perm.Subperm
import Mathlib.Data.Set.Basic

/-!
Walks below a statement. What a walk meets belongs to the statement, it meets nothing twice, and it
meets things in the order in which they are evaluated.
-/

namespace MethodFlow

/-- The child `c` of a node is evaluated before its child `d`: operands from left to right, and what
a node reads before what it writes. -/
inductive Node.Before : Node → NodeId → NodeId → Prop
  | binary {op : BinaryOp} {left right : NodeId} {type : Descriptor} :
      Before (.binary op left right type) left right
  | store {target value : NodeId} : Before (.store target value) value target
  | sources {kind : Shuffle} {targets sources : List NodeId} {c d : NodeId} :
      [c, d].Sublist sources → Before (.shuffle kind targets sources) c d
  | shuffle {kind : Shuffle} {targets sources : List NodeId} {c d : NodeId} :
      c ∈ sources → d ∈ targets → Before (.shuffle kind targets sources) c d
  | targets {kind : Shuffle} {targets sources : List NodeId} {c d : NodeId} :
      [c, d].Sublist targets → Before (.shuffle kind targets sources) c d
  | operands {p : Phi} {c d : NodeId} : [c, d].Sublist p.operands → Before (.phi p) c d
  | phi {p : Phi} {c : NodeId} : c ∈ p.operands → Before (.phi p) c p.target

theorem not_sublist_swap {α : Type} {xs : List α} {c d : α} (hnodup : xs.Nodup)
    (h : [c, d].Sublist xs) : ¬[d, c].Sublist xs := by
  induction xs with
  | nil => simp at h
  | cons x rest ih =>
    obtain ⟨hx, hrest⟩ := List.nodup_cons.1 hnodup
    intro h'
    cases h with
    | cons _ h =>
      cases h' with
      | cons _ h' => exact ih hrest h h'
      | cons_cons _ _ => exact hx (h.subset (by simp))
    | cons_cons _ h =>
      cases h' with
      | cons _ h' => exact hx (h'.subset (by simp))
      | cons_cons _ h' => exact hx (h'.subset (by simp))

theorem Node.Before.sublist {node : Node} {c d : NodeId} (h : node.Before c d) :
    [c, d].Sublist (node.visitOrder .forward) := by
  cases h with
  | binary | store => exact List.Sublist.refl _
  | sources h | operands h => exact h.trans (List.sublist_append_left _ _)
  | targets h => exact h.trans (List.sublist_append_right _ _)
  | shuffle hc hd => exact (List.singleton_sublist.2 hc).append (List.singleton_sublist.2 hd)
  | phi hc => exact (List.singleton_sublist.2 hc).append (List.Sublist.refl _)

theorem Node.pairwise_visitOrder (node : Node) :
    (node.visitOrder .forward).Pairwise node.Before := by
  cases node with
  | binary op left right type => exact List.pairwise_pair.2 .binary
  | store target value => exact List.pairwise_pair.2 .store
  | shuffle kind targets sources =>
    exact List.pairwise_append.2 ⟨List.pairwise_iff_forall_sublist.2 .sources,
      List.pairwise_iff_forall_sublist.2 .targets, fun _ hc _ hd => .shuffle hc hd⟩
  | phi p =>
    refine List.pairwise_append.2 ⟨List.pairwise_iff_forall_sublist.2 .operands,
      List.pairwise_singleton _ _, fun c hc d hd => ?_⟩
    rw [List.mem_singleton.1 hd]
    exact .phi hc
  | _ => simp [Node.visitOrder, Node.reads, Node.writes, Direction.orient]

namespace Tree

variable {t : Tree} {m m' n p : NodeId} {i j : Nat}

theorem length_le_size {nodes : List NodeId} (hnodup : nodes.Nodup)
    (hmade : ∀ x ∈ nodes, x.index < t.size) : nodes.length ≤ t.size := by
  have hindices : (nodes.map NodeId.index).Nodup :=
    hnodup.map fun a b hab => by
      cases a
      cases b
      exact congrArg NodeId.mk hab
  have hsub : nodes.map NodeId.index ⊆ List.range t.size := by
    intro i hi
    obtain ⟨x, hx, rfl⟩ := List.mem_map.1 hi
    exact List.mem_range.2 (hmade x hx)
  have hle := (List.subperm_of_subset hindices hsub).length_le
  rwa [List.length_map, List.length_range] at hle

/-- Nodes in use list no child twice, and a child in use has who lists it for its parent. -/
structure OwnsChildren (t : Tree) : Prop where
  nodup : ∀ n s, t.slot? n = some s → s.node.children.Nodup
  owned : ∀ n s, t.slot? n = some s → ∀ c ∈ s.node.children, ∀ sc, t.slot? c = some sc →
    sc.parent = some n

theorem Coherent.ownsChildren (h : t.Coherent) : t.OwnsChildren := ⟨h.nodup, h.owned⟩

/-- The node in use `n` stands `j` levels below `m`. -/
inductive Under (t : Tree) (m : NodeId) : Nat → NodeId → Prop
  | self {s : Slot} : t.slot? m = some s → Under t m 0 m
  | child {j : Nat} {p c : NodeId} {s sc : Slot} : Under t m j p → t.slot? p = some s →
      c ∈ s.node.children → t.slot? c = some sc → Under t m (j + 1) c

namespace Under

theorem trans (h : t.Under m i p) (h' : t.Under p j n) : t.Under m (i + j) n := by
  induction h' with
  | self _ => exact h
  | child _ hs hc hsc ih => exact .child ih hs hc hsc

theorem split (h : t.Under m (i + j) n) : ∃ p, t.Under m i p ∧ t.Under p j n := by
  induction j generalizing n with
  | zero =>
    refine ⟨n, h, ?_⟩
    cases h with
    | self hs => exact .self hs
    | child _ _ _ hsc => exact .self hsc
  | succ j ih =>
    cases h with
    | child h hs hc hsc =>
      obtain ⟨p, hp, hdown⟩ := ih h
      exact ⟨p, hp, .child hdown hs hc hsc⟩

theorem exists_slot (h : t.Under m j n) : ∃ s, t.slot? m = some s := by
  induction h with
  | self hs => exact ⟨_, hs⟩
  | child _ _ _ _ ih => exact ih

theorem of_child {c : NodeId} {s : Slot} (hs : t.slot? m = some s) (hc : c ∈ s.node.children)
    (h : t.Under c j n) : t.Under m (j + 1) n := by
  obtain ⟨sc, hsc⟩ := h.exists_slot
  rw [Nat.add_comm]
  exact (Under.child (.self hs) hs hc hsc).trans h

theorem exists_child (h : t.Under m (j + 1) n) :
    ∃ s c, t.slot? m = some s ∧ c ∈ s.node.children ∧ t.Under c j n := by
  induction j generalizing n with
  | zero =>
    cases h with
    | child h hs hc hsc =>
      cases h
      exact ⟨_, _, hs, hc, .self hsc⟩
  | succ j ih =>
    cases h with
    | child h hs hc hsc =>
      obtain ⟨s, c, hm, hmem, hunder⟩ := ih h
      exact ⟨s, c, hm, hmem, .child hunder hs hc hsc⟩

theorem not_below_of_varOf {w : Var} (hm : t.varOf m = .ok w) : ¬t.Under m (j + 1) n := by
  intro h
  obtain ⟨s, c, hs, hc, -⟩ := h.exists_child
  obtain ⟨o, ho, -⟩ := varOf_ok.1 hm
  obtain ⟨s', hs', hleaf⟩ := node?_eq_some.1 ho
  obtain rfl : s = s' := by simpa [hs] using hs'
  rw [hleaf] at hc
  exact absurd hc List.not_mem_nil

theorem eq_of_varOf {w : Var} (h : t.Under m j n) (hm : t.varOf m = .ok w) : n = m := by
  cases j with
  | zero =>
    cases h
    rfl
  | succ j => exact absurd h (not_below_of_varOf hm)

theorem unique (owns : t.OwnsChildren) (h : t.Under m j n) (h' : t.Under m' j n) : m = m' := by
  induction h generalizing m' with
  | self _ =>
    cases h' with
    | self _ => rfl
  | child _ hs hc hsc ih =>
    cases h' with
    | child h' hs' hc' hsc' =>
      have hparent := owns.owned _ _ hs _ hc _ hsc
      rw [owns.owned _ _ hs' _ hc' _ hsc, Option.some.injEq] at hparent
      subst hparent
      exact ih h'

/-- What has no parent stands below nothing else. -/
theorem eq_of_root (coherent : t.Coherent) (h : t.Under m j n) {s : Slot} (hs : t.slot? n = some s)
    (hroot : s.parent = none) : m = n := by
  cases h with
  | self _ => rfl
  | child _ hp hc _ => exact absurd hc (coherent.not_mem_children hs hroot hp)

theorem depth_unique (coherent : t.Coherent) {s : Slot} (hs : t.slot? m = some s)
    (hroot : s.parent = none) (h : t.Under m i n) (h' : t.Under m j n) : i = j := by
  induction h generalizing j with
  | self _ =>
    cases h' with
    | self _ => rfl
    | child _ hp hc hsc =>
      rw [hs, Option.some.injEq] at hsc
      subst hsc
      simp [coherent.owned _ _ hp _ hc _ hs] at hroot
  | child _ hp hc hsc ih =>
    cases h' with
    | self _ =>
      rw [hs, Option.some.injEq] at hsc
      subst hsc
      simp [coherent.owned _ _ hp _ hc _ hs] at hroot
    | child h' hp' hc' hsc' =>
      have hparent := coherent.owned _ _ hp _ hc _ hsc
      rw [coherent.owned _ _ hp' _ hc' _ hsc, Option.some.injEq] at hparent
      subst hparent
      rw [ih h']

theorem climb (coherent : t.Coherent) {s : Slot} (hs : t.slot? m = some s)
    (hroot : s.parent = none) (h : t.Under m j n) {start : NodeId} {limit : Nat} (hlt : j < limit) :
    t.climb start limit n = .ok m := by
  induction h generalizing limit with
  | self _ =>
    obtain ⟨l, rfl⟩ : ∃ l, limit = l + 1 := ⟨limit - 1, by omega⟩
    exact climb_succ_ok.2 ⟨s, hs, by simp [hroot]⟩
  | child _ hp hc hsc ih =>
    obtain ⟨l, rfl⟩ : ∃ l, limit = l + 1 := ⟨limit - 1, by omega⟩
    refine climb_succ_ok.2 ⟨_, hsc, ?_⟩
    rw [coherent.owned _ _ hp _ hc _ hsc]
    exact ih (by omega)

/-- Of two nodes on the way up from a node, the one that is closer stands below the other. -/
theorem nested (owns : t.OwnsChildren) (h : t.Under m' i n) (h' : t.Under m j n) (hle : i ≤ j) :
    t.Under m (j - i) m' := by
  obtain ⟨p, hp, hdown⟩ := (show t.Under m (j - i + i) n by rwa [Nat.sub_add_cancel hle]).split
  rwa [← hdown.unique owns h]

theorem nested_top (coherent : t.Coherent) {s : Slot} (hs : t.slot? m = some s)
    (hroot : s.parent = none) (h : t.Under m j n) (h' : t.Under p i n) :
    t.Under m (j - i) p ∧ i ≤ j := by
  rcases Nat.lt_or_ge j i with hlt | hle
  · obtain ⟨k, hk⟩ := Nat.exists_eq_add_of_lt hlt
    have htop := h.nested coherent.ownsChildren h' (Nat.le_of_lt hlt)
    rw [show i - j = k + 1 by omega] at htop
    cases htop with
    | child _ hp hc hsc =>
      obtain rfl : s = _ := Option.some.inj (hs.symm.trans hsc)
      simp [coherent.owned _ _ hp _ hc _ hs] at hroot
  · exact ⟨h'.nested coherent.ownsChildren h hle, hle⟩

theorem exists_path (hnever : ∀ i j k, t.Under m i k → ¬t.Under k (j + 1) k) (h : t.Under m j n) :
    ∃ path : List NodeId, path.length = j + 1 ∧ path.Nodup ∧
      ∀ x ∈ path, x.index < t.size ∧ ∃ i, t.Under x i n := by
  induction h with
  | self hs =>
    refine ⟨[m], rfl, by simp, fun x hx => ?_⟩
    rw [List.mem_singleton.1 hx]
    exact ⟨index_lt_size hs, 0, .self hs⟩
  | @child j p c sp sc hp hs hc hsc ih =>
    obtain ⟨path, hlength, hnodup, hpath⟩ := ih
    have hnew : c ∉ path := by
      intro hmem
      obtain ⟨-, i, hi⟩ := hpath c hmem
      exact hnever _ i c (.child hp hs hc hsc) (.child hi hs hc hsc)
    refine ⟨c :: path, by simp [hlength], List.nodup_cons.2 ⟨hnew, hnodup⟩, fun x hx => ?_⟩
    rcases List.mem_cons.1 hx with rfl | hx
    · exact ⟨index_lt_size hsc, 0, .self hsc⟩
    · obtain ⟨hlt, i, hi⟩ := hpath x hx
      exact ⟨hlt, i + 1, .child hi hs hc hsc⟩

/-- A way down on which no node stands below itself has fewer steps than there are nodes. -/
theorem lt_size_of_never (hnever : ∀ i j k, t.Under m i k → ¬t.Under k (j + 1) k)
    (h : t.Under m j n) :
    j < t.size := by
  obtain ⟨path, hlength, hnodup, hpath⟩ := h.exists_path hnever
  have hle := length_le_size hnodup fun x hx => (hpath x hx).1
  omega

theorem lt_size (coherent : t.Coherent) {s : Slot} (hs : t.slot? m = some s)
    (hroot : s.parent = none) (h : t.Under m j n) : j < t.size := by
  refine h.lt_size_of_never fun i j k hi hk => ?_
  have := depth_unique coherent hs hroot hi (hi.trans hk)
  omega

end Under

/-- What stands at or below a node. -/
def subtree (t : Tree) (n : NodeId) : Set NodeId := {k | ∃ j, t.Under n j k}

theorem index_lt_of_mem_subtree (h : m ∈ t.subtree n) : m.index < t.size := by
  obtain ⟨j, hunder⟩ := h
  cases hunder with
  | self hs | child _ _ _ hs => exact index_lt_size hs

@[simp] theorem mem_visitOrder {node : Node} {d : Direction} {c : NodeId} :
    c ∈ node.visitOrder d ↔ c ∈ node.children := by
  cases d <;> simp [Node.visitOrder, Node.children, Direction.orient, or_comm]

theorem nodup_visitOrder {node : Node} {d : Direction} (h : node.children.Nodup) :
    (node.visitOrder d).Nodup := by
  have hforward : (node.reads ++ node.writes).Nodup := List.nodup_append_comm.1 h
  cases d with
  | forward => exact hforward
  | reverse => exact List.nodup_reverse.2 hforward

variable {v : Visitor} {limit : Nat}

/-- A walk records the node itself, and then it goes below it or not. -/
theorem walkTo_succ {s : Slot} (hs : t.slot? m = some s) :
    t.walkTo v (limit + 1) m =
      ((v.decision s.node).map fun d => (d.1, m)).toList ++
        if v.descends (v.decision s.node) then
          (s.node.visitOrder v.direction).flatMap (t.walkTo v limit)
        else [] := by
  rw [walkTo, node?_eq_some.2 ⟨s, hs, rfl⟩]

theorem under_of_mem_walkTo (h : n ∈ (t.walkTo v limit m).map Prod.snd) :
    ∃ j, j < limit ∧ t.Under m j n := by
  induction limit generalizing m with
  | zero => simp [walkTo] at h
  | succ limit ih =>
    cases hm : t.slot? m with
    | none => simp [walkTo, node?, hm] at h
    | some s =>
      rw [walkTo_succ hm, List.map_append, List.mem_append] at h
      rcases h with h | h
      · obtain rfl : m = n := by
          cases hd : v.decision s.node <;> simp [hd] at h
          exact h.symm
        exact ⟨0, Nat.succ_pos _, .self hm⟩
      · split at h
        · rw [List.map_flatMap, List.mem_flatMap] at h
          obtain ⟨c, hc, hmem⟩ := h
          obtain ⟨j, hj, hunder⟩ := ih hmem
          exact ⟨j + 1, by omega, .of_child hm (mem_visitOrder.1 hc) hunder⟩
        · simp at h

/-- What a walk records, it records for a decision on a node that stands below the start. -/
theorem decision_of_mem_walkTo {category : Category} (h : (category, n) ∈ t.walkTo v limit m) :
    ∃ j s descent, t.Under m j n ∧ t.slot? n = some s ∧
      v.decision s.node = some (category, descent) := by
  induction limit generalizing m with
  | zero => simp [walkTo] at h
  | succ limit ih =>
    cases hm : t.slot? m with
    | none => simp [walkTo, node?, hm] at h
    | some s =>
      rw [walkTo_succ hm, List.mem_append] at h
      rcases h with h | h
      · cases hd : v.decision s.node with
        | none => simp [hd] at h
        | some d =>
          obtain ⟨category', descent⟩ := d
          obtain ⟨rfl, rfl⟩ : category = category' ∧ n = m := by simpa [hd] using h
          exact ⟨0, s, descent, .self hm, hm, hd⟩
      · split at h
        · obtain ⟨c, hc, hmem⟩ := List.mem_flatMap.1 h
          obtain ⟨j, sn, descent, hunder, hs, hd⟩ := ih hmem
          exact ⟨j + 1, sn, descent, .of_child hm (mem_visitOrder.1 hc) hunder, hs, hd⟩
        · simp at h

/-- A walk records a node that it has a say on, as long as nothing on the way down stops it. -/
theorem mem_walkTo_of_under {category : Category} {descent : Descent} (h : t.Under m j n)
    (hlimit : j < limit) {s : Slot} (hs : t.slot? n = some s)
    (hdecision : v.decision s.node = some (category, descent))
    (hopen : ∀ i k p sp, t.Under m i p → t.Under p (k + 1) n → t.slot? p = some sp →
      v.descends (v.decision sp.node) = true) : (category, n) ∈ t.walkTo v limit m := by
  induction j generalizing m limit with
  | zero =>
    obtain ⟨l, rfl⟩ : ∃ l, limit = l + 1 := ⟨limit - 1, by omega⟩
    cases h
    rw [walkTo_succ hs, hdecision]
    simp
  | succ j ih =>
    obtain ⟨l, rfl⟩ : ∃ l, limit = l + 1 := ⟨limit - 1, by omega⟩
    obtain ⟨sm, c, hm, hc, hunder⟩ := h.exists_child
    have hbelow : (category, n) ∈ t.walkTo v l c := by
      refine ih hunder (by omega) fun i k p sp hp hn hsp => ?_
      exact hopen (i + 1) k p sp (.of_child hm hc hp) hn hsp
    rw [walkTo_succ hm, if_pos (hopen 0 j m sm (.self hm) h hm)]
    exact List.mem_append_right _ (List.mem_flatMap.2 ⟨c, mem_visitOrder.2 hc, hbelow⟩)

/-- A walk below a node meets nothing twice if nothing stands at two depths there. -/
theorem nodup_walkTo (owns : t.OwnsChildren) {top : NodeId}
    (hdepth : ∀ {i j k}, t.Under top i k → t.Under top j k → i = j) (h : t.Under top i m) :
    ((t.walkTo v limit m).map Prod.snd).Nodup := by
  induction limit generalizing m i with
  | zero => simp [walkTo]
  | succ limit ih =>
    cases hm : t.slot? m with
    | none => simp [walkTo, node?, hm]
    | some s =>
      have hbelow {c n : NodeId} (hc : c ∈ s.node.visitOrder v.direction)
          (hn : n ∈ (t.walkTo v limit c).map Prod.snd) :
          ∃ j, t.Under c j n ∧ t.Under top (i + (j + 1)) n := by
        obtain ⟨j, -, hunder⟩ := under_of_mem_walkTo hn
        exact ⟨j, hunder, h.trans (.of_child hm (mem_visitOrder.1 hc) hunder)⟩
      rw [walkTo_succ hm, List.map_append, List.nodup_append]
      refine ⟨?_, ?_, ?_⟩
      · cases v.decision s.node <;> simp
      · split
        · rw [List.map_flatMap, List.nodup_flatMap]
          refine ⟨fun c hc => ?_, ?_⟩
          · cases hsc : t.slot? c with
            | none => cases limit <;> simp [walkTo, node?, hsc]
            | some sc => exact ih (.child h hm (mem_visitOrder.1 hc) hsc)
          · refine (nodup_visitOrder (owns.nodup m s hm)).imp_of_mem fun hc hc' hne => ?_
            intro n hn hn'
            obtain ⟨j, hunder, hdeep⟩ := hbelow hc hn
            obtain ⟨j', hunder', hdeep'⟩ := hbelow hc' hn'
            have := hdepth hdeep hdeep'
            obtain rfl : j = j' := by omega
            exact hne (hunder.unique owns hunder')
        · simp
      · intro n hn n' hn'
        obtain rfl : m = n := by
          cases hd : v.decision s.node <;> simp [hd] at hn
          exact hn.symm
        rintro rfl
        split at hn'
        · rw [List.map_flatMap, List.mem_flatMap] at hn'
          obtain ⟨c, hc, hmem⟩ := hn'
          obtain ⟨j, -, hdeep⟩ := hbelow hc hmem
          have := hdepth h hdeep
          omega
        · simp at hn'

/-- What stands at `m` is evaluated before what stands at `n`: some node evaluates the child that
`m` is at or below before the one that `n` is at or below. -/
def EvaluatedBefore (t : Tree) (m n : NodeId) : Prop :=
  ∃ p s c d i j, t.slot? p = some s ∧ s.node.Before c d ∧ t.Under c i m ∧ t.Under d j n

/-- Of two nodes, one only is evaluated before the other if the nodes that say so stand one below
the other. -/
theorem not_evaluatedBefore (coherent : t.Coherent) {p p' c d c' d' : NodeId} {s s' : Slot}
    {k i' j' : Nat}
    (hs : t.slot? p = some s) (hbefore : s.node.Before c d) (hm : t.Under c i m)
    (hn : t.Under d j n)
    (hs' : t.slot? p' = some s') (hn' : t.Under c' i' n) (hm' : t.Under d' j' m)
    (hp : t.Under p' k p) (hi : i' = k + j) (hj : j' = k + i) : ¬s'.node.Before c' d' := by
  intro hbefore'
  have hnodup {x : NodeId} {sx : Slot} (hx : t.slot? x = some sx) :
      (sx.node.visitOrder .forward).Nodup :=
    nodup_visitOrder (coherent.nodup x sx hx)
  have hchild {x : NodeId} (hx : x = c ∨ x = d) : x ∈ s.node.children := by
    rw [← mem_visitOrder (d := .forward)]
    exact hbefore.sublist.subset (by simpa using hx)
  cases k with
  | zero =>
    cases hp
    obtain rfl : s = s' := Option.some.inj (hs.symm.trans hs')
    obtain rfl : c = d' := hm.unique coherent.ownsChildren (by rwa [hj, Nat.zero_add] at hm')
    obtain rfl : d = c' := hn.unique coherent.ownsChildren (by rwa [hi, Nat.zero_add] at hn')
    exact not_sublist_swap (hnodup hs) hbefore.sublist hbefore'.sublist
  | succ k =>
    obtain ⟨sp, e, hsp, -, he⟩ := hp.exists_child
    have hdown {x y : NodeId} {l : Nat} (hx : x ∈ s.node.children) (hy : t.Under x l y) :
        t.Under e (k + (l + 1)) y := he.trans (.of_child hs hx hy)
    obtain rfl : e = d' := (hdown (hchild (.inl rfl)) hm).unique coherent.ownsChildren (by
      rwa [hj, Nat.add_right_comm, Nat.add_assoc] at hm')
    obtain rfl : e = c' := (hdown (hchild (.inr rfl)) hn).unique coherent.ownsChildren (by
      rwa [hi, Nat.add_right_comm, Nat.add_assoc] at hn')
    exact not_sublist_swap (hnodup hs') hbefore'.sublist hbefore'.sublist

/-- Of two nodes of a statement, one only is evaluated before the other. -/
theorem EvaluatedBefore.asymm (coherent : t.Coherent) {top : NodeId} {stop : Slot}
    (htop : t.slot? top = some stop) (hroot : stop.parent = none) {a : Nat} (hm : t.Under top a m)
    (h : t.EvaluatedBefore m n) : ¬t.EvaluatedBefore n m := by
  obtain ⟨p, s, c, d, i, j, hs, hbefore, hcm, hdn⟩ := h
  rintro ⟨p', s', c', d', i', j', hs', hbefore', hcn, hdm⟩
  have hreach {x y z : NodeId} {sx : Slot} {l : Nat} (hx : t.slot? x = some sx)
      (hy : y ∈ sx.node.visitOrder .forward) (hz : t.Under y l z) : t.Under x (l + 1) z :=
    .of_child hx (mem_visitOrder.1 hy) hz
  have hpm := hreach hs (hbefore.sublist.subset (by simp)) hcm
  have hpn := hreach hs (hbefore.sublist.subset (by simp)) hdn
  have hpn' := hreach hs' (hbefore'.sublist.subset (by simp)) hcn
  have hpm' := hreach hs' (hbefore'.sublist.subset (by simp)) hdm
  obtain ⟨hp, hi⟩ := hm.nested_top coherent htop hroot hpm
  obtain ⟨hp', hj'⟩ := hm.nested_top coherent htop hroot hpm'
  have hdepth := Under.depth_unique coherent htop hroot (hp.trans hpn) (hp'.trans hpn')
  rcases Nat.le_total i j' with hle | hle
  · have hnested := hpm.nested coherent.ownsChildren hpm' (by omega)
    exact not_evaluatedBefore coherent hs hbefore hcm hdn hs' hcn hdm hnested (by omega)
      (by omega) hbefore'
  · have hnested := hpm'.nested coherent.ownsChildren hpm (by omega)
    exact not_evaluatedBefore coherent hs' hbefore' hcn hdm hs hcm hdn hnested (by omega)
      (by omega) hbefore

/-- A walk forward records a node before what is below it, and the rest in the order of
evaluation. -/
theorem pairwise_walkTo (hforward : v.direction = .forward) :
    (t.walkTo v limit m).Pairwise fun x y =>
      (∃ j, t.Under x.2 (j + 1) y.2) ∨ t.EvaluatedBefore x.2 y.2 := by
  induction limit generalizing m with
  | zero => simp [walkTo]
  | succ limit ih =>
    cases hm : t.slot? m with
    | none => simp [walkTo, node?, hm]
    | some s =>
      have hunder {c : NodeId} {x : Category × NodeId} (hx : x ∈ t.walkTo v limit c) :
          ∃ j, t.Under c j x.2 := by
        obtain ⟨j, -, hj⟩ := under_of_mem_walkTo (List.mem_map_of_mem hx)
        exact ⟨j, hj⟩
      rw [walkTo_succ hm, List.pairwise_append]
      refine ⟨?_, ?_, fun x hx y hy => ?_⟩
      · cases v.decision s.node <;> simp
      · split
        · rw [hforward, List.pairwise_flatMap]
          refine ⟨fun c _ => ih, s.node.pairwise_visitOrder.imp fun {c d} hcd x hx y hy => ?_⟩
          obtain ⟨i, hi⟩ := hunder hx
          obtain ⟨j, hj⟩ := hunder hy
          exact .inr ⟨m, s, c, d, i, j, hm, hcd, hi, hj⟩
        · simp
      · obtain rfl : x.2 = m := by
          cases hd : v.decision s.node <;> simp [hd] at hx
          rw [hx]
        split at hy
        · obtain ⟨c, hc, hmem⟩ := List.mem_flatMap.1 hy
          obtain ⟨j, hj⟩ := hunder hmem
          exact .inl ⟨j, .of_child hm (mem_visitOrder.1 hc) hj⟩
        · simp at hy

/-- What a walk from a node without a parent meets is placed where that node is. -/
theorem blockOf_of_mem_walk (coherent : t.Coherent) {s : Slot} (hs : t.slot? m = some s)
    (hroot : s.parent = none) (h : n ∈ (t.walk v m).map Prod.snd) : t.blockOf n = .ok s.block := by
  obtain ⟨j, hj, hunder⟩ := under_of_mem_walkTo h
  exact blockOf_ok.2 ⟨m, hunder.climb coherent hs hroot (by omega), s, hs, rfl⟩

end Tree

end MethodFlow
