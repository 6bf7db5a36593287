import MethodFlow.Proofs.Tree.Walk

/-!
Nodes that are removed with all that is below them. What goes with a node is what can be reached
from it over lists of children, no more and no less. What goes with a phi is what it lists, as long
as that consists of variables.
-/

namespace MethodFlow.Tree

open Edit

variable {t t' t'' : Tree} {n m q x : NodeId} {limit j : Nat} {s : Slot}

/-- What is in use stays below what it is below, as long as the lists of children stay. -/
theorem Under.of_slots (h : t'.Under m j n)
    (hslots : ∀ x s', t'.slot? x = some s' → ∃ s, t.slot? x = some s ∧ s.node = s'.node) :
    t.Under m j n := by
  induction h with
  | self hs =>
    obtain ⟨s, hs, -⟩ := hslots _ _ hs
    exact .self hs
  | child _ hs hc hsc ih =>
    obtain ⟨s, hs, hnode⟩ := hslots _ _ hs
    obtain ⟨sc, hsc, -⟩ := hslots _ _ hsc
    exact .child ih hs (hnode ▸ hc) hsc

theorem Under.of_prunes (h : t'.Under m j n) (hp : t.Prunes t') : t.Under m j n :=
  h.of_slots fun x s hs => ⟨s, ((hp.2 x).resolve_right (by simp [hs])).symm.trans hs, rfl⟩

theorem exists_under_of_sweepAll
    (ih : ∀ t c, t.slot? m = some s → (sweep limit t c).slot? m = none → ∃ j, t.Under c j m)
    (cs : List NodeId) (t : Tree) (hm : t.slot? m = some s)
    (hgone : (sweepAll limit n t cs).slot? m = none) : ∃ c ∈ cs, ∃ j, t.Under c j m := by
  induction cs generalizing t with
  | nil => simp [sweepAll, hm] at hgone
  | cons c rest ihc =>
    rw [sweepAll, List.foldl_cons] at hgone
    let first := if t.isOwnedBy c n then sweep limit t c else t
    have hfirst : t.Prunes first := prunes_ite (prunes_sweep limit t c)
    rcases hfirst.2 m with hsame | hnone
    · obtain ⟨c', hc', j, hunder⟩ := ihc first (hsame.trans hm) hgone
      exact ⟨c', by simp [hc'], j, hunder.of_prunes hfirst⟩
    · by_cases howned : t.isOwnedBy c n = true
      · rw [show first = sweep limit t c from if_pos howned] at hnone
        exact ⟨c, by simp, ih t c hm hnone⟩
      · simp [show first = t from if_neg howned, hm] at hnone

theorem exists_under_of_sweep (limit : Nat) (t : Tree) (n : NodeId) (hm : t.slot? m = some s)
    (hgone : (sweep limit t n).slot? m = none) : ∃ j, t.Under n j m := by
  induction limit generalizing t n with
  | zero => simp [sweep, hm] at hgone
  | succ limit ih =>
    by_cases hmn : m = n
    · exact ⟨0, hmn ▸ .self hm⟩
    cases hn : t.slot? n with
    | none => simp [sweep, hn, hm] at hgone
    | some sn =>
      rw [sweep_succ hn] at hgone
      obtain ⟨c, hc, j, hunder⟩ :=
        exists_under_of_sweepAll ih _ (t.erase n) (by rw [slot?_erase, if_neg hmn, hm]) hgone
      exact ⟨j + 1, .of_child hn hc (hunder.of_prunes (prunes_erase t n))⟩

/-- A node in use is the parent of the children that it lists. -/
def Owned (t : Tree) : Prop := ∀ n s, t.slot? n = some s → ∀ c ∈ s.node.children, ∀ sc,
  t.slot? c = some sc → sc.parent = some n

/-- Whatever is below a node that is gone goes with it. -/
theorem Under.gone {tops : NodeId → Prop} (h : t.Under n j m) (owned : t.Owned)
    (hclears : Clears tops t t') (hn : t'.slot? n = none) : t'.slot? m = none := by
  induction h with
  | self _ => exact hn
  | child _ hs hc hsc ih => exact hclears.down _ _ _ _ hs ih hc hsc (owned _ _ hs _ hc _ hsc)

/-- A node is gone with all that was below it, and nothing else is changed. -/
structure Uproots (t t' : Tree) (n : NodeId) : Prop where
  size : t'.size = t.size
  gone : ∀ j m, t.Under n j m → t'.slot? m = none
  kept : ∀ m, (∀ j, ¬t.Under n j m) → t'.slot? m = t.slot? m

theorem Uproots.isLive (h : t.Uproots t' n) :
    t'.isLive m = true ↔ t.isLive m = true ∧ ∀ j, ¬t.Under n j m := by
  by_cases hunder : ∃ j, t.Under n j m
  · obtain ⟨j, hj⟩ := hunder
    simp only [Tree.isLive, h.gone j m hj]
    simp
    exact fun _ => ⟨j, hj⟩
  · rw [not_exists] at hunder
    simp [Tree.isLive, h.kept m hunder, hunder]

theorem uproots_cleanup (owned : t.Owned) (hs : t.slot? n = some s) :
    Yields (cleanup n) t fun _ t' => t.Uproots t' n := by
  refine ⟨(), sweep t.size t n, ?_, ?_⟩
  · exact bind_ok.2 ⟨s, t, ask_ok.2 ⟨slot_ok.2 hs, rfl⟩, modify_ok.2 rfl⟩
  have hclears := clears_sweep t.size t n (card_inUse_le t)
  refine ⟨hclears.prunes.1, fun j m hm => hm.gone owned hclears (slot?_sweep_size hs),
    fun m hm => ?_⟩
  cases hms : t.slot? m with
  | none => exact hclears.prunes.gone hms
  | some sm =>
    refine ((hclears.prunes.2 m).resolve_right fun hgone => ?_).trans hms
    obtain ⟨j, hj⟩ := exists_under_of_sweep t.size t n hms hgone
    exact hm j hj

theorem under_put (hs : t.slot? x = some s) {s' : Slot} (hnode : s'.node = s.node) :
    (t.put x s').Under n j m ↔ t.Under n j m := by
  refine ⟨fun h => h.of_slots fun y sy hy => ?_, fun h => h.of_slots fun y sy hy => ?_⟩
  · rcases slot?_put_cases hs hy with ⟨rfl, rfl⟩ | ⟨-, hy⟩
    · exact ⟨s, hs, hnode.symm⟩
    · exact ⟨sy, hy, rfl⟩
  · obtain ⟨new, hnew, ⟨-, rfl, rfl⟩ | ⟨-, rfl⟩⟩ := exists_slot?_put hs s' hy
    · exact ⟨_, hnew, hnode⟩
    · exact ⟨_, hnew, rfl⟩

theorem Under.put (hs : t.slot? n = some s) (s' : Slot) (hn : ∀ i, ¬t.Under q i n)
    (h : t.Under q j m) :
    (t.put n s').Under q j m := by
  have hput := slot?_put_of_slot hs s'
  induction h with
  | self hq =>
    have hqn : q ≠ n := by
      rintro rfl
      exact hn 0 (.self hs)
    exact .self (by rw [hput, if_neg hqn, hq])
  | @child j p c sp sc hunder hp hc hsc ih =>
    have hpn : p ≠ n := by
      rintro rfl
      exact hn j hunder
    have hcn : c ≠ n := by
      rintro rfl
      exact hn (j + 1) (.child hunder hp hc hsc)
    exact .child ih (by rw [hput, if_neg hpn, hp]) hc (by rw [hput, if_neg hcn, hsc])

theorem Under.of_put (hs : t.slot? n = some s) {s' : Slot} (hn : ∀ i, ¬t.Under q i n)
    (h : (t.put n s').Under q j m) : t.Under q j m := by
  have hput := slot?_put_of_slot hs s'
  induction h with
  | self hq =>
    have hqn : q ≠ n := by
      rintro rfl
      exact hn 0 (.self hs)
    rw [hput, if_neg hqn] at hq
    exact .self hq
  | @child j p c sp sc _ hp hc hsc ih =>
    have hpn : p ≠ n := by
      rintro rfl
      exact hn j ih
    rw [hput, if_neg hpn] at hp
    rw [hput] at hsc
    split at hsc
    · next hcn => exact .child ih hp hc (hcn ▸ hs)
    · exact .child ih hp hc hsc

theorem under_put_of_not (hs : t.slot? n = some s) (s' : Slot) (hn : ∀ i, ¬t.Under q i n) :
    (t.put n s').Under q j m ↔ t.Under q j m :=
  ⟨.of_put hs hn, .put hs s' hn⟩

theorem Uproots.of_put {s' : Slot} (h : (t.put n s').Uproots t' n) (hs : t.slot? n = some s)
    (hnode : s'.node = s.node) : t.Uproots t' n := by
  refine ⟨h.size.trans (size_put _), fun j m hm => h.gone j m ((under_put hs hnode).2 hm),
    fun m hm => ?_⟩
  have hmn : m ≠ n := by
    rintro rfl
    exact hm 0 (.self hs)
  rw [h.kept m fun j hj => hm j ((under_put hs hnode).1 hj), slot?_put_of_slot hs, if_neg hmn]

/-- A node that its parent does not list is discarded with what is below it. -/
theorem uproots_discard (coherent : t.Coherent) (hs : t.slot? n = some s) (hstray : t.Stray n) :
    Yields (discard n) t fun _ t' => t.Uproots t' n := by
  have hleft : (t.put n { s with parent := none }).slot? n = some { s with parent := none } := by
    rw [slot?_put_of_slot hs, if_pos rfl]
  have hremoved := uproots_cleanup (coherent.leave hs hstray).owned hleft
  apply Yields.of_first (a := ()) (setParent_ok.2 ⟨s, hs, rfl⟩)
  exact hremoved.mono fun _ _ huproots => huproots.of_put hs rfl

theorem Uproots.slot? (h : t.Uproots t' n) (m : NodeId) :
    t'.slot? m = t.slot? m ∨ t'.slot? m = none := by
  by_cases hunder : ∃ j, t.Under n j m
  · obtain ⟨j, hj⟩ := hunder
    exact .inr (h.gone j m hj)
  · exact .inl (h.kept m (not_exists.1 hunder))

theorem Uproots.prunes (h : t.Uproots t' n) : t.Prunes t' := ⟨h.size, h.slot?⟩

/-- What was below a node is gone, or it still stands there. -/
theorem Uproots.gone_or_under (h : t.Uproots t' n) (hunder : t.Under q j m) :
    t'.slot? m = none ∨ t'.Under q j m := by
  induction hunder with
  | @self s hs =>
    rcases h.slot? q with hsame | hgone
    · exact .inr (.self (hsame.trans hs))
    · exact .inl hgone
  | @child j p c s sc hp hs hc hsc ih =>
    rcases h.slot? c with hsame | hgone
    · rcases ih with hparent | ih
      · by_cases hbelow : ∃ i, t.Under n i p
        · obtain ⟨i, hi⟩ := hbelow
          exact .inl (h.gone (i + 1) c (.child hi hs hc hsc))
        · rw [h.kept p (not_exists.1 hbelow), hs] at hparent
          cases hparent
      · rcases h.slot? p with hs' | hs'
        · exact .inr (.child ih (hs'.trans hs) hc (hsame.trans hsc))
        · cases ih <;> simp_all
    · exact .inl hgone

/-- Several nodes are gone with all that was below them, and nothing else is changed. -/
structure UprootsAll (t t' : Tree) (tops : List NodeId) : Prop where
  gone : ∀ q ∈ tops, ∀ m ∈ t.subtree q, t'.slot? m = none
  kept : ∀ m, (∀ q ∈ tops, m ∉ t.subtree q) → t'.slot? m = t.slot? m

theorem UprootsAll.slot? {tops : List NodeId} (h : UprootsAll t t' tops) (m : NodeId) :
    t'.slot? m = t.slot? m ∨ t'.slot? m = none := by
  by_cases hbelow : ∀ q ∈ tops, m ∉ t.subtree q
  · exact .inl (h.kept m hbelow)
  · simp only [not_forall, not_not] at hbelow
    obtain ⟨q, hq, hm⟩ := hbelow
    exact .inr (h.gone q hq m hm)

theorem UprootsAll.cons {rest : List NodeId} (h : t.Uproots t' q) (hrest : UprootsAll t' t'' rest) :
    UprootsAll t t'' (q :: rest) := by
  have hgone {m : NodeId} (hm : t'.slot? m = none) : t''.slot? m = none := by
    rcases hrest.slot? m with hsame | hnone
    · exact hsame.trans hm
    · exact hnone
  constructor
  · rintro x hx m ⟨j, hunder⟩
    rcases List.mem_cons.1 hx with rfl | hx
    · exact hgone (h.gone j m hunder)
    · rcases h.gone_or_under hunder with hm | hunder
      · exact hgone hm
      · exact hrest.gone x hx m ⟨j, hunder⟩
  · intro m hm
    have hrestkept : ∀ x ∈ rest, m ∉ t'.subtree x := by
      rintro x hx ⟨j, hunder⟩
      exact hm x (List.mem_cons_of_mem q hx) ⟨j, hunder.of_prunes h.prunes⟩
    rw [hrest.kept m hrestkept]
    exact h.kept m fun j hunder => hm q List.mem_cons_self ⟨j, hunder⟩

/-- What the phi lists is a variable, or gone. -/
def ListsVariables (t : Tree) (p : Phi) : Prop :=
  ∀ q ∈ p.target :: p.operands, t.isLive q = true → ∃ v, t.varOf q = .ok v

/-- What stands below a phi is what it lists. -/
theorem ListsVariables.under_iff {p : Phi} (h : t.ListsVariables p)
    (hp : t.node? n = some (.phi p)) :
    (∃ j, t.Under n j m) ↔ m ∈ HoldsPhi.nodes n p ∧ t.isLive m = true := by
  obtain ⟨s, hs, hnode⟩ := node?_eq_some.1 hp
  have hchildren : s.node.children = p.target :: p.operands := by
    rw [hnode]
    rfl
  constructor
  · rintro ⟨j, hj⟩
    cases j with
    | zero =>
      cases hj
      exact ⟨List.mem_cons_self, by simp [isLive, hs]⟩
    | succ j =>
      obtain ⟨s', c, hs', hc, hunder⟩ := hj.exists_child
      obtain rfl : s = s' := by simpa [hs] using hs'
      obtain ⟨sc, hsc⟩ := hunder.exists_slot
      obtain ⟨w, hw⟩ := h c (hchildren ▸ hc) (by simp [isLive, hsc])
      obtain rfl := hunder.eq_of_varOf hw
      exact ⟨List.mem_cons_of_mem _ (hchildren ▸ hc), by simp [isLive, hsc]⟩
  · rintro ⟨hm, hlive⟩
    rcases List.mem_cons.1 hm with rfl | hm
    · exact ⟨0, .self hs⟩
    · obtain ⟨sm, hsm⟩ := Option.isSome_iff_exists.1 hlive
      exact ⟨1, .child (.self hs) hs (hchildren ▸ hm) hsm⟩

end MethodFlow.Tree
