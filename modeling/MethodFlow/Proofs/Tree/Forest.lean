import MethodFlow.Proofs.Tree.Listing
import MethodFlow.Proofs.Tree.Walk
import MethodFlow.Tree.Request

/-!
Trees without circles. Whoever follows the parents of a node up gets to a node without a parent, as
long as no node is replaced by one that it stands below.
-/

namespace MethodFlow.Tree

open Edit

variable {t t' t'' : Tree} {n c m p : NodeId} {s s' : Slot}

/-- The parents of a node in use lead to a node without a parent. -/
inductive Rooted (t : Tree) : NodeId → Prop
  | top {n : NodeId} {s : Slot} : t.slot? n = some s → s.parent = none → Rooted t n
  | owned {n p : NodeId} {s : Slot} : t.slot? n = some s → s.parent = some p →
    Rooted t p → Rooted t n

/-- Parents lead up from `n` to `m`. -/
inductive LeadsTo (t : Tree) (m : NodeId) : NodeId → Prop
  | self : LeadsTo t m m
  | step {n p : NodeId} {s : Slot} : t.slot? n = some s → s.parent = some p → LeadsTo t m p →
      LeadsTo t m n

theorem LeadsTo.trans (h : t.LeadsTo m p) (h' : t.LeadsTo p n) : t.LeadsTo m n := by
  induction h' with
  | self => exact h
  | step hs hp _ ih => exact .step hs hp ih

theorem Rooted.not_leadsTo_parent (h : t.Rooted n) (hs : t.slot? n = some s)
    (hp : s.parent = some p) : ¬t.LeadsTo n p := by
  induction h generalizing s p with
  | @top n s' hs' hnone =>
    obtain rfl : s = s' := by simpa [hs] using hs'
    simp [hp] at hnone
  | @owned n q s' hs' hq _ ih =>
    obtain rfl : s = s' := by simpa [hs] using hs'
    obtain rfl : p = q := by simpa [hp] using hq
    intro hleads
    cases hleads with
    | self => exact ih hs hp .self
    | @step _ r sp hsp hr hleads => exact ih hsp hr (.trans (.step hs hp .self) hleads)

/-- Parents that lead to a node without a parent end there. -/
theorem LeadsTo.climb_eq {start top : NodeId} {limit : Nat} (h : t.LeadsTo m n)
    (hm : t.parent m = .ok none) (hclimb : t.climb start limit n = .ok top) : top = m := by
  induction h generalizing limit with
  | self =>
    cases limit with
    | zero => simp [climb] at hclimb
    | succ limit =>
      obtain ⟨s, hs, hp⟩ := parent_ok.1 hm
      obtain ⟨s', hs', hrest⟩ := climb_succ_ok.1 hclimb
      obtain rfl : s = s' := by simpa [hs] using hs'
      rw [hp] at hrest
      exact hrest.symm
  | step hs hp _ ih =>
    cases limit with
    | zero => simp [climb] at hclimb
    | succ limit =>
      obtain ⟨s', hs', hrest⟩ := climb_succ_ok.1 hclimb
      rw [hs, Option.some.injEq] at hs'
      subst hs'
      rw [hp] at hrest
      exact ih hrest

/-- Every parent lists its child, and no parents go in a circle. -/
structure Forest (t : Tree) : Prop where
  coherent : t.Coherent
  listed : ∀ n s p, t.slot? n = some s → s.parent = some p →
    ∃ sp, t.slot? p = some sp ∧ n ∈ sp.node.children
  rooted : ∀ n s, t.slot? n = some s → t.Rooted n

theorem forest_empty : Tree.empty.Forest := by
  have hnone (n : NodeId) : Tree.empty.slot? n = none := by simp [slot?, empty]
  refine ⟨⟨?_, ?_, ?_, ?_, ?_⟩, ?_, ?_⟩ <;> simp [hnone]

section handing

variable {node : Node} {old : Option NodeId} (ho : HandsOver t t' p c node old)

include ho

theorem HandsOver.parent {x : NodeId} {sx : Slot} (hx : t.slot? x = some sx) :
    ∃ s', t'.slot? x = some s' ∧
      s'.parent = if old = some x then none else if x = c then some p else sx.parent := by
  obtain ⟨s', hs', -⟩ := ho.forth x sx hx
  obtain ⟨s, hs, hparent⟩ := ho.back x s' hs'
  obtain rfl : sx = s := by simpa [hx] using hs
  exact ⟨s', hs', hparent⟩

/-- A way up that does not pass the node taken over stays, or it ends at the one given up. -/
theorem HandsOver.rooted {x : NodeId} (hx : t.Rooted x) (hout : ¬t.LeadsTo c x) : t'.Rooted x := by
  have hxc {x : NodeId} (hout : ¬t.LeadsTo c x) : x ≠ c := by
    rintro rfl
    exact hout .self
  induction hx with
  | @top x s hs hnone =>
    obtain ⟨s', hs', he⟩ := ho.parent hs
    refine .top hs' ?_
    rw [he, if_neg (hxc hout), hnone, ite_self]
  | @owned x q s hs hq _ ih =>
    obtain ⟨s', hs', he⟩ := ho.parent hs
    by_cases hold : old = some x
    · exact .top hs' (by rw [he, if_pos hold])
    · refine .owned hs' (by rw [he, if_neg hold, if_neg (hxc hout), hq]) (ih fun hleads => ?_)
      exact hout (.step hs hq hleads)

end handing

namespace Forest

theorem exists_under (h : t.Forest) (hn : t.Rooted n) :
    ∃ m s j, t.slot? m = some s ∧ s.parent = none ∧ t.Under m j n := by
  induction hn with
  | top hs hp => exact ⟨_, _, 0, hs, hp, .self hs⟩
  | owned hs hp _ ih =>
    obtain ⟨m, sm, j, hm, hroot, hunder⟩ := ih
    obtain ⟨sp, hsp, hmem⟩ := h.listed _ _ _ hs hp
    exact ⟨m, sm, j + 1, hm, hroot, .child hunder hsp hmem hs⟩

theorem exists_root (h : t.Forest) (hs : t.slot? n = some s) :
    ∃ top stop, t.root n = .ok top ∧ t.slot? top = some stop ∧ stop.parent = none := by
  obtain ⟨m, sm, j, hm, hroot, hunder⟩ := h.exists_under (h.rooted n s hs)
  have hlt := hunder.lt_size h.coherent hm hroot
  exact ⟨m, sm, hunder.climb h.coherent hm hroot (by omega), hm, hroot⟩

theorem listedAll (h : t.Forest) : t.Listed [] := fun n s p hs hp _ => h.listed n s p hs hp

theorem remove (h : t.Forest) (n : NodeId) : ((cleanup n).after t).Forest := by
  have hclears := clears_cleanup t n
  have hlisted := h.listedAll.clears hclears
  refine ⟨h.coherent.of_prunes hclears.prunes, fun x s p hx hp => hlisted x s p hx hp (by simp),
    fun x s hx => ?_⟩
  have hrooted := h.rooted x s (hclears.slot? hx)
  induction hrooted generalizing s with
  | @top x s' hs' hnone =>
    obtain rfl : s = s' := by simpa [hclears.slot? hx] using hs'
    exact .top hx hnone
  | @owned x p s' hs' hp _ ih =>
    obtain rfl : s = s' := by simpa [hclears.slot? hx] using hs'
    obtain ⟨sp, hsp, -⟩ := hlisted x s p hx hp (by simp)
    exact .owned hx hp (ih sp hsp)

theorem of_slots (h : t.Forest) (hcoherent : t'.Coherent)
    (hback : ∀ x s', t'.slot? x = some s' → ∃ s, t.slot? x = some s ∧ s'.parent = s.parent)
    (hforth : ∀ x s, t.slot? x = some s →
      ∃ s', t'.slot? x = some s' ∧ ∀ c ∈ s.node.children, c ∈ s'.node.children) : t'.Forest := by
  refine ⟨hcoherent, fun x s' p hx hp => h.listedAll.of_slots hback hforth x s' p hx hp (by simp),
    fun x s' hx => ?_⟩
  obtain ⟨s, hs, -⟩ := hback x s' hx
  have hrooted := h.rooted x s hs
  clear hs
  induction hrooted generalizing s' with
  | @top x s hs hnone =>
    obtain ⟨s₁, hs₁, hparent⟩ := hback x s' hx
    obtain rfl : s = s₁ := by simpa [hs] using hs₁
    exact .top hx (hparent.trans hnone)
  | @owned x p s hs hp hrooted ih =>
    obtain ⟨s₁, hs₁, hparent⟩ := hback x s' hx
    obtain rfl : s = s₁ := by simpa [hs] using hs₁
    obtain ⟨sp, hsp, -⟩ := h.listed x s p hs hp
    obtain ⟨sp', hsp', -⟩ := hforth p sp hsp
    exact .owned hx (hparent.trans hp) (ih sp' hsp')

theorem make (h : t.Forest) {node : Node} (hcoherent : t'.Coherent)
    (hdetached : ∀ c ∈ node.children, t.Detached c)
    (ha : Adopts t.next node.children (t.push { node }) t') : t'.Forest := by
  obtain ⟨hnew, hold, hcases⟩ := ha.slots hdetached
  have hfree {x p : NodeId} {sx : Slot} (hx : t.slot? x = some sx) (hp : sx.parent = some p) :
      x ∉ node.children := fun hmem => by
    obtain ⟨s', hs', -, hnone⟩ := hdetached x hmem
    obtain rfl : sx = s' := by simpa [hx] using hs'
    simp [hp] at hnone
  refine ⟨hcoherent, fun x s p hx hp => h.listedAll.make hdetached ha x s p hx hp (by simp),
    fun x sx hx => ?_⟩
  rcases hcases x sx hx with rfl | ⟨old, hxo⟩
  · exact .top hnew rfl
  · have hrooted := h.rooted x old hxo
    clear hxo hx
    induction hrooted with
    | @top x s hs hnone =>
      by_cases hc : x ∈ node.children
      · exact .owned ((hold x s hs).trans (by rw [if_pos hc])) rfl (.top hnew rfl)
      · exact .top ((hold x s hs).trans (by rw [if_neg hc])) hnone
    | @owned x p s hs hp _ ih =>
      exact .owned ((hold x s hs).trans (by rw [if_neg (hfree hs hp)])) hp ih

/-- A node may take a child over that it does not stand below. -/
theorem taken (h : t.Forest) {sp : Slot} {old : Option NodeId} {node : Node}
    (hp : t.slot? p = some sp) (habove : ¬t.LeadsTo c p) (ho : HandsOver t t' p c node old)
    (hentered : c ∈ node.children)
    (hkept : ∀ x ∈ sp.node.children, old ≠ some x → x ∈ node.children) : t'.Forest := by
  have hrooted_p : t'.Rooted p := ho.rooted (h.rooted p sp hp) habove
  have hlisted := h.listedAll.handsOver ho hp hentered hkept
  refine ⟨ho.coherent, fun x s' q hx hq => hlisted x s' q hx hq (by simp), fun x s' hx => ?_⟩
  obtain ⟨s, hs, -⟩ := ho.back x s' hx
  have hrooted := h.rooted x s hs
  clear hs hx
  induction hrooted with
  | @top x s hs hnone =>
    obtain ⟨s', hs', he⟩ := ho.parent hs
    by_cases hold : old = some x
    · exact .top hs' (by rw [he, if_pos hold])
    · by_cases hxc : x = c
      · exact .owned hs' (by rw [he, if_neg hold, if_pos hxc]) hrooted_p
      · exact .top hs' (by rw [he, if_neg hold, if_neg hxc, hnone])
  | @owned x q s hs hq _ ih =>
    obtain ⟨s', hs', he⟩ := ho.parent hs
    by_cases hold : old = some x
    · exact .top hs' (by rw [he, if_pos hold])
    · by_cases hxc : x = c
      · exact .owned hs' (by rw [he, if_neg hold, if_pos hxc]) hrooted_p
      · exact .owned hs' (by rw [he, if_neg hold, if_neg hxc, hq]) ih

/-- A node takes a child over that it does not stand below, and gives one up at most. -/
theorem store (h : t.Forest) {sp : Slot} {node : Node} {old : Option NodeId}
    (htakes : t.Takes p sp c node old) (habove : ¬t.LeadsTo c p) (hentered : c ∈ node.children)
    (hkept : ∀ x ∈ sp.node.children, old ≠ some x → x ∈ node.children) :
    ((setNode p node >>= fun _ => adopt p c old).after t).Forest := by
  obtain ⟨t₁, ho, hafter⟩ := htakes.handsOver h.coherent
  have htaken := h.taken htakes.slot habove ho hentered hkept
  rcases hafter with hafter | ⟨o, -, hafter⟩
  · rwa [hafter]
  · rw [hafter]
    exact htaken.remove o

/-- No step makes a circle. -/
theorem step {removes : Prop} (h : t.Forest) (hstep : Step removes t t') : t'.Forest := by
  have hcoherent := (hstep.evolves h.coherent).1
  cases hstep with
  | make nodup hdetached hlinked hadopts => exact h.make hcoherent hdetached hadopts
  | @rewrite n s o o' hs ho hlinked =>
    refine h.of_slots hcoherent (fun x s' hx => ?_) fun x s' hx => ?_
    · rcases slot?_put_cases hs hx with ⟨rfl, rfl⟩ | ⟨-, hx⟩
      · exact ⟨s, hs, rfl⟩
      · exact ⟨s', hx, rfl⟩
    · obtain ⟨new, hnew, ⟨-, rfl, rfl⟩ | ⟨-, rfl⟩⟩ :=
        exists_slot?_put hs { s with node := .occurrence o' } hx
      · refine ⟨_, hnew, ?_⟩
        rw [ho]
        exact fun _ => id
      · exact ⟨_, hnew, fun _ => id⟩
  | @exchange n c p inputs old hn hdetached hexchange =>
    obtain ⟨s, hs, hnode⟩ := node?_eq_some.1 hn
    have htakes := takes_of_exchange h.coherent hs hnode hdetached hexchange
    refine h.store htakes ?_ (List.mem_cons_of_mem _ hexchange.new_mem) fun x hx hne => ?_
    · -- A phi is a statement, so no parents lead up from it.
      have hnone : s.parent = none := h.coherent.root n s hs (by rw [hnode]; rfl)
      obtain ⟨sc, hc, hexpr, -⟩ := hdetached
      intro hleads
      cases hleads with
      | self =>
        obtain rfl : s = sc := by simpa [hs] using hc
        simp [hnode, Node.isStatement] at hexpr
      | step hs' hp _ =>
        rw [hs, Option.some.injEq] at hs'
        simp [← hs', hnone] at hp
    · rw [hnode] at hx
      rcases List.mem_cons.1 hx with rfl | hx
      · exact List.mem_cons_self
      · exact List.mem_cons_of_mem _ (hexchange.kept hx hne)
  | remove n _ => exact h.remove n

theorem grows (h : t.Forest) (hgrows : t.Grows t') : t'.Forest := by
  have hsteps := hgrows h.coherent
  clear hgrows
  induction hsteps with
  | refl => exact h
  | tail _ hstep ih => exact ih.step hstep

theorem leadsTo_of_marks (hmarks : Marks n t t') (h : t'.LeadsTo c p) : t.LeadsTo c p := by
  induction h with
  | self => exact .self
  | @step x q s hs hp _ ih =>
    by_cases hx : x = n
    · subst hx
      have hparent := hmarks.parent
      rw [hs, Option.map_some, eq_comm, Option.map_eq_some_iff] at hparent
      obtain ⟨s', hs', he⟩ := hparent
      exact .step hs' (he.trans hp) ih
    · exact .step ((hmarks.other x hx).symm.trans hs) hp ih

/-- A node may be replaced by one that it does not stand below. -/
theorem replace (h : t.Forest) {old new : NodeId} (habove : ¬t.LeadsTo new old) :
    ((Tree.replace old new).after t).Forest := by
  rcases replace_cases old new t with hmarks | ⟨t₁, s, p, sp, hmarks, hs, hp, hsp, hdetached, hrun⟩
  · exact h.grows (hmarks.builds True)
  · have h₁ := h.grows (hmarks.builds True)
    obtain ⟨htakes, hchildren⟩ := takes_of_replace h₁.coherent hs hp hsp hdetached
    rw [hrun]
    refine h₁.store htakes (fun hleads => ?_) ?_ fun x hx hne => ?_
    · exact habove (leadsTo_of_marks hmarks (.step hs hp hleads))
    · obtain ⟨sp', hsp', hmem⟩ := h₁.listed old s p hs hp
      obtain rfl : sp = sp' := by simpa [hsp] using hsp'
      exact hchildren.entered hmem
    · exact hchildren.kept x hx fun he => hne (by rw [he])

end Forest

end MethodFlow.Tree
