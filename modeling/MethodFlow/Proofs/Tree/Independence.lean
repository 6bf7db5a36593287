import MethodFlow.Proofs.Tree.Cloning
import MethodFlow.Proofs.Tree.Subtrees

/-!
Independence of copies. Removing or replacing a node of a copy leaves the original alone, as long as
nothing of the original has been put below the copy.
-/

namespace MethodFlow.Tree

open Edit

variable {t t' : Tree} {n m c q x old new p : NodeId} {j : Nat} {original copied : Set NodeId}

section replacing

/-- What a replacement changes before the old node goes: three nodes, one of which lists the new
node where it listed the old one. -/
structure Grafts (t t' : Tree) (old new p : NodeId) : Prop where
  kept : ∀ k, k ≠ old → k ≠ new → k ≠ p → t'.slot? k = t.slot? k
  back : ∀ k s', t'.slot? k = some s' → ∃ s, t.slot? k = some s ∧
    (∀ d ∈ s'.node.children, d ∈ s.node.children ∨ k = p ∧ d = new ∧ old ∈ s.node.children) ∧
    ∀ q, s'.parent = some q → s.parent = some q ∨ q = p

theorem Prepares.grafts (h : Prepares old new t t') (p : NodeId) : Grafts t t' old new p := by
  constructor
  · intro k _ hk _
    rw [h.slot?]
    simp [hk]
  · intro k s' hs'
    rw [h.slot?, Option.map_eq_some_iff] at hs'
    obtain ⟨s, hs, rfl⟩ := hs'
    refine ⟨s, hs, fun d hd => .inl ?_, fun q hq => .inl ?_⟩
    · split at hd
      · rwa [Node.children_asDefinition] at hd
      · exact hd
    · split at hq <;> exact hq

theorem Grafts.supplant {t₁ t₂ : Tree} (h : Grafts t t₁ old new p)
    (hslots : ∀ k, t₂.slot? k = (t₁.slot? k).map (supplanted false old new p k)) :
    Grafts t t₂ old new p := by
  constructor
  · intro k hold hnew hp
    rw [hslots, h.kept k hold hnew hp]
    cases t.slot? k <;> simp [supplanted, hold, hnew, hp]
  · intro k s₂ hs₂
    rw [hslots, Option.map_eq_some_iff] at hs₂
    obtain ⟨s₁, hs₁, rfl⟩ := hs₂
    obtain ⟨s, hs, hchildren, hparent⟩ := h.back k s₁ hs₁
    refine ⟨s, hs, fun d hd => ?_, fun q hq => ?_⟩
    · by_cases hk : k = p
      · simp only [supplanted, if_pos hk, children_replaceChild, List.mem_map] at hd
        obtain ⟨d₁, hd₁, rfl⟩ := hd
        by_cases hold : d₁ = old
        · rw [if_pos hold]
          rcases hchildren d₁ hd₁ with hmem | ⟨-, -, hmem⟩
          · exact .inr ⟨hk, rfl, hold ▸ hmem⟩
          · exact .inr ⟨hk, rfl, hmem⟩
        · rw [if_neg hold]
          exact hchildren d₁ hd₁
      · rw [children_supplanted false s₁ hk] at hd
        exact hchildren d hd
    · simp only [supplanted] at hq
      split at hq
      · cases hq
      · split at hq
        · exact .inr (Option.some.inj hq).symm
        · exact hparent q hq

theorem Grafts.under (h : Grafts t t' old new p) (hunder : t'.Under q j m) :
    t.Under q j m ∨ m ∈ t.subtree new := by
  induction hunder with
  | self hs' =>
    obtain ⟨s, hs, -⟩ := h.back _ _ hs'
    exact .inl (.self hs)
  | child _ hs' hd hsd' ih =>
    obtain ⟨s, hs, hchildren, -⟩ := h.back _ _ hs'
    obtain ⟨sd, hsd, -⟩ := h.back _ _ hsd'
    rcases hchildren _ hd with hmem | ⟨-, rfl, -⟩
    · rcases ih with ih | ⟨i, ih⟩
      · exact .inl (.child ih hs hmem hsd)
      · exact .inr ⟨i + 1, .child ih hs hmem hsd⟩
    · exact .inr ⟨0, .self hsd⟩

theorem Grafts.under_old (h : Grafts t t' old new p) (hends : ∀ i, ¬t.Under old (i + 1) old)
    (hunder : t'.Under old j m) : t.Under old j m := by
  induction hunder with
  | self hs' =>
    obtain ⟨s, hs, -⟩ := h.back _ _ hs'
    exact .self hs
  | child _ hs' hd hsd' ih =>
    obtain ⟨s, hs, hchildren, -⟩ := h.back _ _ hs'
    obtain ⟨sd, hsd, -⟩ := h.back _ _ hsd'
    rcases hchildren _ hd with hmem | ⟨-, -, hmem⟩
    · exact .child ih hs hmem hsd
    · obtain ⟨so, hso⟩ := ih.exists_slot
      exact absurd (.child ih hs hmem hso) (hends _)

theorem exchangeChild_cases (hold : t.isLive old = true) (hnew : t.isLive new = true) :
    (exchangeChild p old new).after t = t ∨ ∃ t', exchangeChild p old new t = .ok () t' := by
  rcases after_exchangeChild p old new t with hstop | ⟨sp, hsp, -⟩
  · exact .inl hstop
  · have hexchange : Succeeds (exchangeChild p old new) t := by
      apply Yields.of_first (a := ()) (modifySlot_ok.2 ⟨sp, hsp, rfl⟩)
      obtain ⟨sn, hsn⟩ := Option.isSome_iff_exists.1 (isLive_put hsp _ hnew)
      apply Yields.of_first (a := ()) (setParent_ok.2 ⟨sn, hsn, rfl⟩)
      obtain ⟨so, hso⟩ := Option.isSome_iff_exists.1 (isLive_put hsn _ (isLive_put hsp _ hold))
      exact discard_succeeds hso
    obtain ⟨_, t', hrun, -⟩ := hexchange
    exact .inr ⟨t', hrun⟩

/-- A replacement does nothing, or it grafts the new node and removes the old one, unless the parent
is gone. -/
theorem replace_grafts (old new : NodeId) (t : Tree) :
    (replace old new).after t = t ∨ ∃ p t₁, t.parent old = .ok (some p) ∧ Grafts t t₁ old new p ∧
      ((replace old new).after t = t₁ ∨ (replace old new).after t = (cleanup old).after t₁) := by
  have hreplaces := replaces_replace old new t
  generalize (replace old new).after t = t' at hreplaces
  cases hreplaces with
  | nothing => exact .inl rfl
  | @exchanged p t₁ hparent hnew hprepares =>
    obtain ⟨so, hso, -⟩ := parent_ok.1 hparent
    obtain ⟨sn, hsn, -⟩ := checkDetached_ok.1 hnew
    have hold : t₁.isLive old = true := by simp [isLive, hprepares.slot?, hso]
    have hnew : t₁.isLive new = true := by simp [isLive, hprepares.slot?, hsn]
    have hgrafts := hprepares.grafts p
    rcases exchangeChild_cases hold hnew with hstop | ⟨t', hrun⟩
    · exact .inr ⟨p, t₁, hparent, hgrafts, .inl hstop⟩
    · obtain ⟨t₂, -, hslots, hclean⟩ := exchangeChild_ok hrun
      refine .inr ⟨p, t₂, hparent, hgrafts.supplant hslots, .inr ?_⟩
      rw [after_of_ok hrun, after_of_ok hclean]

end replacing

theorem prunes_cleanup (n : NodeId) (t : Tree) : t.Prunes ((cleanup n).after t) :=
  after_ask_bind (.refl t) fun _ _ => prunes_sweep t.size t n

/-- What a removal takes along was below. -/
theorem slot?_after_cleanup (n k : NodeId) (t : Tree) :
    ((cleanup n).after t).slot? k = t.slot? k ∨ k ∈ t.subtree n := by
  refine after_ask_bind (P := fun u : Tree => u.slot? k = t.slot? k ∨ k ∈ t.subtree n) (.inl rfl)
    fun _ _ => ?_
  show (sweep t.size t n).slot? k = t.slot? k ∨ k ∈ t.subtree n
  rcases (prunes_sweep t.size t n).2 k with hsame | hgone
  · exact .inl hsame
  · cases hk : t.slot? k with
    | none => exact .inl hgone
    | some s => exact .inr (exists_under_of_sweep t.size t n hk hgone)

/-- Nothing of the original stands at or below a node of the copy or is the parent of one, and the
copy ends on every way down. -/
structure Apart (t : Tree) (original copied : Set NodeId) : Prop where
  below : ∀ c ∈ copied, ∀ k ∈ t.subtree c, k ∉ original
  above : ∀ c ∈ copied, ∀ p, t.parent c = .ok (some p) → p ∉ original
  ends : ∀ c ∈ copied, ∀ j, ¬t.Under c (j + 1) c

namespace Apart

theorem of_prunes (h : t.Apart original copied) (hp : t.Prunes t') : t'.Apart original copied := by
  constructor
  · rintro c hc k ⟨j, hunder⟩
    exact h.below c hc k ⟨j, hunder.of_prunes hp⟩
  · intro c hc p hparent
    obtain ⟨s, hs, hsp⟩ := parent_ok.1 hparent
    have hsame := (hp.2 c).resolve_right (by simp [hs])
    exact h.above c hc p (parent_ok.2 ⟨s, hsame.symm.trans hs, hsp⟩)
  · exact fun c hc j hunder => h.ends c hc j (hunder.of_prunes hp)

/-- Removing a node of the copy removes nothing of the original. -/
theorem cleanup (h : t.Apart original copied) (hc : c ∈ copied) :
    (∀ k ∈ original, ((cleanup c).after t).slot? k = t.slot? k) ∧
      ((Tree.cleanup c).after t).Apart original copied := by
  constructor
  · intro k hk
    exact (slot?_after_cleanup c k t).resolve_right fun hbelow => h.below c hc k hbelow hk
  · exact h.of_prunes (prunes_cleanup c t)

/-- Putting any other node in the place of a node of the copy changes nothing of the original. -/
theorem slot?_after_replace (h : t.Apart original copied) (hc : c ∈ copied)
    (hx : x ∉ original) {k : NodeId}
    (hk : k ∈ original) : ((replace c x).after t).slot? k = t.slot? k := by
  rcases replace_grafts c x t with hsame | ⟨p, t₁, hparent, hgrafts, hafter⟩
  · rw [hsame]
  · obtain ⟨s, hs, -⟩ := parent_ok.1 hparent
    have hkept : t₁.slot? k = t.slot? k := by
      apply hgrafts.kept k
      · exact fun hkc => h.below c hc c ⟨0, .self hs⟩ (hkc ▸ hk)
      · exact fun hkx => hx (hkx ▸ hk)
      · exact fun hkp => h.above c hc p hparent (hkp ▸ hk)
    rcases hafter with hafter | hafter
    · rw [hafter, hkept]
    · rw [hafter]
      rcases slot?_after_cleanup c k t₁ with hsame | ⟨j, hunder⟩
      · rw [hsame, hkept]
      · exact absurd hk (h.below c hc k ⟨j, hgrafts.under_old (h.ends c hc) hunder⟩)

/-- They stay apart if nothing of either comes with the new node. -/
theorem replace (h : t.Apart original copied) (hc : c ∈ copied)
    (hx : ∀ k ∈ t.subtree x, k ∉ original ∧ k ∉ copied) :
    ((replace c x).after t).Apart original copied := by
  rcases replace_grafts c x t with hsame | ⟨p, t₁, hparent, hgrafts, hafter⟩
  · rwa [hsame]
  · have hapart : t₁.Apart original copied := by
      constructor
      · rintro d hd k ⟨j, hunder⟩
        rcases hgrafts.under hunder with hunder | hnew
        · exact h.below d hd k ⟨j, hunder⟩
        · exact (hx k hnew).1
      · intro d hd q hq
        obtain ⟨s', hs', hsq⟩ := parent_ok.1 hq
        obtain ⟨s, hs, -, hparents⟩ := hgrafts.back d s' hs'
        rcases hparents q hsq with hsame | rfl
        · exact h.above d hd q (parent_ok.2 ⟨s, hs, hsame⟩)
        · exact h.above c hc q hparent
      · intro d hd j hunder
        rcases hgrafts.under hunder with hunder | hnew
        · exact h.ends d hd j hunder
        · exact (hx d hnew).2 hd
    rcases hafter with hafter | hafter
    · rwa [hafter]
    · rw [hafter]
      exact hapart.of_prunes (prunes_cleanup c t₁)

end Apart

/-- A run of requests that remove nodes of the copy, or put nodes in their places that bring nothing
of the original or of the copy along. -/
def Meddles (t : Tree) (original copied : Set NodeId) : List TreeRequest → Prop
  | [] => True
  | r :: rest => ((∃ c ∈ copied, r = .cleanup c) ∨ ∃ c ∈ copied, ∃ x ∉ original, r = .replace c x ∧
      ∀ k ∈ t.subtree x, k ∉ original ∧ k ∉ copied) ∧ (t.request r).Meddles original copied rest

/-- Whatever is done to the copy in this way, the original stays as it is. -/
theorem Apart.requests {rs : List TreeRequest} (h : t.Apart original copied)
    (hrs : t.Meddles original copied rs) : (t.requests rs).Apart original copied ∧
      ∀ k ∈ original, (t.requests rs).slot? k = t.slot? k := by
  induction rs generalizing t with
  | nil => exact ⟨h, fun _ _ => rfl⟩
  | cons r rest ih =>
    obtain ⟨hr, hrest⟩ := hrs
    have hstep : (t.request r).Apart original copied ∧
        ∀ k ∈ original, (t.request r).slot? k = t.slot? k := by
      rcases hr with ⟨c, hc, rfl⟩ | ⟨c, hc, x, hx, rfl, hfree⟩
      · exact (h.cleanup hc).symm
      · exact ⟨h.replace hc hfree, fun k hk => h.slot?_after_replace hc hx hk⟩
    obtain ⟨hapart, hkept⟩ := ih hstep.1 hrest
    exact ⟨hapart, fun k hk => (hkept k hk).trans (hstep.2 k hk)⟩

/-- A new copy has nothing to do with the original. -/
theorem Duplicates.apart (hdup : Duplicates t t' n m) (coherent : t'.Coherent) :
    t'.Apart (t.subtree n) (t'.subtree m) := by
  constructor
  · rintro c ⟨i, hc⟩ k ⟨j, hk⟩ horiginal
    exact absurd (index_lt_of_mem_subtree horiginal) (Nat.not_lt.2 (hdup.fresh _ k (hc.trans hk)))
  · rintro c ⟨i, hc⟩ p hparent horiginal
    obtain ⟨s, hs, hsp⟩ := parent_ok.1 hparent
    cases hc with
    | self _ =>
      obtain ⟨s', hs', hroot, -⟩ := hdup.free
      obtain rfl := Option.some.inj (hs.symm.trans hs')
      simp [hroot] at hsp
    | child hq hsq hmem _ =>
      have howned := coherent.owned _ _ hsq c hmem s hs
      rw [hsp, Option.some.injEq] at howned
      subst howned
      exact absurd (index_lt_of_mem_subtree horiginal) (Nat.not_lt.2 (hdup.fresh _ p hq))
  · rintro c ⟨i, hc⟩ j
    exact (hdup.mirrors.whole.of_under hc).ends.not_under_self

theorem Duplicates.parent (hdup : Duplicates t t' n m) (coherent : t'.Coherent)
    (hc : c ∈ t'.subtree m)
    {cs : List NodeId} (hcs : t'.children c = .ok cs) : ∀ d ∈ cs, t'.parent d = .ok (some c) := by
  intro d hd
  obtain ⟨i, hunder⟩ := hc
  obtain ⟨s, hs, rfl⟩ := children_ok.1 hcs
  obtain ⟨sd, hsd⟩ := ((hdup.mirrors.whole.of_under hunder).of_mem_children hs hd).exists_slot
  exact parent_ok.2 ⟨sd, hsd, coherent.owned c s hs d hd sd hsd⟩

/-- A whole subtree can be copied. The copy is new from top to bottom, it mirrors the original, and
nothing that was there before changes. An expression without definitions is the same as its copy. As
long as the copy and the original are apart, as they are at first, nothing that is removed from the
copy or replaced in it by a node outside of the original changes the original. -/
theorem Coherent.clones (coherent : t.Coherent) (whole : t.Whole n) :
    Yields (cloneSubtree n) t fun m t' =>
      Duplicates t t' n m ∧
      (∀ c ∈ t'.subtree m, ∀ cs, t'.children c = .ok cs → ∀ d ∈ cs, t'.parent d = .ok (some c)) ∧
      (∀ k : NodeId, k.index < t.size → t'.slot? k = t.slot? k) ∧
      ((∃ node, t.expression n = .ok node) → (∀ k ∈ t.subtree n, t.defines k = false) →
        t'.same m n = true ∧ t'.fingerprint m = t'.fingerprint n) ∧
      t'.Apart (t.subtree n) (t'.subtree m) ∧
      (∀ u : Tree, u.Apart (t.subtree n) (t'.subtree m) → ∀ c ∈ t'.subtree m, ∀ k ∈ t.subtree n,
        ((cleanup c).after u).slot? k = u.slot? k ∧
          ∀ x ∉ t.subtree n, ((replace c x).after u).slot? k = u.slot? k) ∧
      ∀ rs, t'.Meddles (t.subtree n) (t'.subtree m) rs →
        (t'.requests rs).Apart (t.subtree n) (t'.subtree m) ∧
          ∀ k ∈ t.subtree n, (t'.requests rs).slot? k = t.slot? k := by
  apply (cloneSubtree_duplicates coherent whole).mono
  rintro m t' ⟨hdup, hcopy, hcoherent⟩
  have hapart := hdup.apart hcoherent
  refine ⟨hdup, fun c hc cs hcs => hdup.parent hcoherent hc hcs, hcopy.kept, ?same,
    hapart, ?once, ?run⟩
  case same =>
    intro hexpression huses
    exact hdup.same hcopy coherent ⟨whole, hexpression⟩ fun j k hunder => huses k ⟨j, hunder⟩
  case once =>
    intro u hu c hc k hk
    exact ⟨(hu.cleanup hc).1 k hk, fun x hx => hu.slot?_after_replace hc hx hk⟩
  case run =>
    intro rs hrs
    obtain ⟨hstill, hkept⟩ := hapart.requests hrs
    exact ⟨hstill, fun k hk => (hkept k hk).trans (hcopy.kept k (index_lt_of_mem_subtree hk))⟩

/-- A product is one of the terms of a sum. -/
def addProduct : List TreeEdit :=
  [.request (.newVariable (.ofLocal 0) .int), .request (.newVariable (.ofLocal 1) .int),
    .request (.newBinary .mul ⟨0⟩ ⟨1⟩ .int), .request (.newVariable (.ofLocal 2) .int),
    .request (.newBinary .add ⟨2⟩ ⟨3⟩ .int)]

theorem whole_of_addProduct : (Tree.empty.edits addProduct).Whole ⟨2⟩ := by
  have hproduct : (Tree.empty.edits addProduct).node? ⟨2⟩ = some (.binary .mul ⟨0⟩ ⟨1⟩ .int) := by
    decide +kernel
  have hvar (n : NodeId) (i : UInt16) (hn : (Tree.empty.edits addProduct).node? n =
      some (.occurrence { var := .ofLocal i, type := .int })) :
      (Tree.empty.edits addProduct).Spells n (.occurrence (.ofLocal i) .int none) := .occurrence hn
  apply Spells.whole
  exact .binary hproduct (hvar ⟨0⟩ 0 (by decide +kernel)) (hvar ⟨1⟩ 1 (by decide +kernel))

theorem mem_subtree_of_addProduct : ⟨0⟩ ∈ (Tree.empty.edits addProduct).subtree ⟨2⟩ := by
  have hproduct : (Tree.empty.edits addProduct).slot? ⟨2⟩ =
      some { node := .binary .mul ⟨0⟩ ⟨1⟩ .int, parent := some ⟨4⟩ } := by decide +kernel
  have hlive : (Tree.empty.edits addProduct).isLive ⟨0⟩ = true := by decide +kernel
  obtain ⟨s, hs⟩ := Option.isSome_iff_exists.1 hlive
  exact ⟨1, .child (.self hproduct) hproduct (by decide) hs⟩

theorem clones_of_addProduct : Yields (cloneSubtree ⟨2⟩) (Tree.empty.edits addProduct) fun m t' =>
    t'.Mirrors ⟨2⟩ m ∧ t'.same m ⟨2⟩ = true ∧ ((cleanup m).after t').slot? ⟨0⟩ = t'.slot? ⟨0⟩ := by
  have huses : ∀ k ∈ (Tree.empty.edits addProduct).subtree ⟨2⟩,
      (Tree.empty.edits addProduct).defines k = false := by
    intro k hk
    have hsize : (Tree.empty.edits addProduct).size = 5 := by decide +kernel
    have hlt := index_lt_of_mem_subtree hk
    have hnone : ∀ i < 5, (Tree.empty.edits addProduct).defines ⟨i⟩ = false := by decide +kernel
    exact hnone k.index (hsize ▸ hlt)
  have hexpression : (Tree.empty.edits addProduct).expression ⟨2⟩ =
      .ok (.binary .mul ⟨0⟩ ⟨1⟩ .int) := by decide +kernel
  apply (Coherent.clones (coherent_edits addProduct) whole_of_addProduct).mono
  rintro m t' ⟨hdup, -, -, hsame, hapart, honce, -⟩
  have htop : m ∈ t'.subtree m := by
    obtain ⟨sm, hsm⟩ := hdup.mirrors.whole.exists_slot
    exact ⟨0, .self hsm⟩
  exact ⟨hdup.mirrors, (hsame ⟨_, hexpression⟩ huses).1,
    (honce t' hapart m htop ⟨0⟩ mem_subtree_of_addProduct).1⟩

/-- After the sum has been put into a copy of its own product, the product goes with the copy. -/
theorem original_goes_with_copy : ∃ t' t'', (Tree.empty.edits addProduct).Coherent ∧
    (Tree.empty.edits addProduct).Whole ⟨2⟩ ∧
    cloneSubtree ⟨2⟩ (Tree.empty.edits addProduct) = .ok ⟨7⟩ t' ∧
    ⟨5⟩ ∈ t'.subtree ⟨7⟩ ∧ ⟨4⟩ ∉ (Tree.empty.edits addProduct).subtree ⟨2⟩ ∧
    replace ⟨5⟩ ⟨4⟩ t' = .ok () t'' ∧
    ⟨0⟩ ∈ (Tree.empty.edits addProduct).subtree ⟨2⟩ ∧ t''.isLive ⟨0⟩ = true ∧
    ((cleanup ⟨7⟩).after t'').isLive ⟨0⟩ = false := by
  obtain ⟨t', hclone⟩ := outcome_ok.1 (show
    (cloneSubtree ⟨2⟩).outcome (Tree.empty.edits addProduct) = .ok ⟨7⟩ by decide +kernel)
  have hcopy : t'.slot? ⟨7⟩ = some { node := .binary .mul ⟨5⟩ ⟨6⟩ .int } ∧
      t'.isLive ⟨5⟩ = true := by
    rw [← after_of_ok hclone]
    decide +kernel
  obtain ⟨s, hs⟩ := Option.isSome_iff_exists.1 hcopy.2
  obtain ⟨t'', hreplace⟩ := outcome_ok.1 (show (replace ⟨5⟩ ⟨4⟩).outcome t' = .ok () by
    rw [← after_of_ok hclone]
    decide +kernel)
  have hoperand : t''.isLive ⟨0⟩ = true ∧ ((cleanup ⟨7⟩).after t'').isLive ⟨0⟩ = false := by
    rw [← after_of_ok hreplace, ← after_of_ok hclone]
    decide +kernel
  have hsum : (Tree.empty.edits addProduct).parent ⟨4⟩ = .ok none := by decide +kernel
  refine ⟨t', t'', coherent_edits addProduct, whole_of_addProduct, hclone,
    ⟨1, .child (.self hcopy.1) hcopy.1 (by decide) hs⟩, ?_, hreplace,
    mem_subtree_of_addProduct, hoperand⟩
  rintro ⟨j, hunder⟩
  obtain ⟨s, hs, hroot⟩ := parent_ok.1 hsum
  exact absurd (hunder.eq_of_root (coherent_edits addProduct) hs hroot) (by decide)

end MethodFlow.Tree
