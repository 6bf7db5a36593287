import MethodFlow.Proofs.Tree.Slots
import Mathlib.Data.Finset.Card

/-!
What a removal takes along. Whoever goes takes its children along, and nobody but the node that is
removed goes without its parent.
-/

namespace MethodFlow.Tree

variable {t t' : Tree} {n x : NodeId} {limit : Nat}

/-- A tree that lacks nodes of another and has nothing else. -/
def Prunes (t t' : Tree) : Prop :=
  t'.size = t.size ∧ ∀ m, t'.slot? m = t.slot? m ∨ t'.slot? m = none

theorem Prunes.refl (t : Tree) : t.Prunes t := ⟨rfl, fun _ => .inl rfl⟩

theorem Prunes.trans {t₁ t₂ t₃ : Tree} (h : t₁.Prunes t₂) (h' : t₂.Prunes t₃) : t₁.Prunes t₃ := by
  refine ⟨h'.1.trans h.1, fun m => ?_⟩
  rcases h'.2 m with he | he
  · exact (h.2 m).imp he.trans he.trans
  · exact .inr he

theorem Prunes.gone (h : t.Prunes t') (hx : t.slot? x = none) : t'.slot? x = none := by
  rcases h.2 x with hsame | hnone
  · exact hsame.trans hx
  · exact hnone

/-- Nodes of `t` are as they were, or gone. There may be new ones. -/
structure Ages (t t' : Tree) : Prop where
  size : t.size ≤ t'.size
  old : ∀ m, m.index < t.size → t'.slot? m = t.slot? m ∨ t'.slot? m = none

theorem Ages.gone (h : t.Ages t') (hx : x.index < t.size) (hgone : t.slot? x = none) :
    t'.slot? x = none := by
  rcases h.old x hx with hsame | hnone
  · exact hsame.trans hgone
  · exact hnone

theorem Ages.refl (t : Tree) : t.Ages t := ⟨Nat.le_refl _, fun _ _ => .inl rfl⟩

theorem Ages.trans {t₁ t₂ t₃ : Tree} (h : t₁.Ages t₂) (h' : t₂.Ages t₃) : t₁.Ages t₃ := by
  refine ⟨Nat.le_trans h.size h'.size, fun m hm => ?_⟩
  rcases h'.old m (Nat.lt_of_lt_of_le hm h.size) with hsame | hnone
  · exact (h.old m hm).imp hsame.trans hsame.trans
  · exact .inr hnone

theorem prunes_erase (t : Tree) (n : NodeId) : t.Prunes (t.erase n) := by
  refine ⟨size_erase, fun m => ?_⟩
  rw [slot?_erase]
  by_cases hm : m = n <;> simp [hm]

theorem prunes_foldl {f : Tree → NodeId → Tree} (hf : ∀ t c, Prunes t (f t c)) (cs : List NodeId)
    (t : Tree) : t.Prunes (cs.foldl f t) := by
  induction cs generalizing t with
  | nil => exact .refl t
  | cons c rest ih => exact (hf t c).trans (ih _)

theorem prunes_ite {t t' : Tree} {c : Prop} [Decidable c] (h : t.Prunes t') :
    t.Prunes (if c then t' else t) := by
  split
  · exact h
  · exact .refl t

theorem prunes_sweep (limit : Nat) (t : Tree) (n : NodeId) : t.Prunes (sweep limit t n) := by
  induction limit generalizing t n with
  | zero => exact .refl t
  | succ limit ih =>
    unfold sweep
    split
    · exact .refl t
    · exact (prunes_erase t n).trans (prunes_foldl (fun t c => prunes_ite (ih t c)) _ _)

/-- Sweeping an occurrence takes nothing along. -/
theorem slot?_sweep_leaf {limit : Nat} {o : Occurrence} {s : Slot} {m : NodeId}
    (hs : t.slot? n = some s) (ho : s.node = .occurrence o) (hm : m ≠ n) :
    (sweep limit t n).slot? m = t.slot? m := by
  cases limit with
  | zero => rfl
  | succ limit => simp [sweep, hs, ho, Node.children, Node.writes, Node.reads, slot?_erase, hm]

theorem slot?_sweep {limit : Nat} {s : Slot} {m : NodeId} (hs : t.slot? n = some s)
    (hleaf : ∀ c ∈ s.node.children, ∀ sc, t.slot? c = some sc → ∃ o, sc.node = .occurrence o)
    (hm : m ≠ n) (hmc : m ∉ s.node.children) : (sweep limit t n).slot? m = t.slot? m := by
  cases limit with
  | zero => rfl
  | succ limit =>
    simp only [sweep, hs]
    suffices key : ∀ (cs : List NodeId) (t₁ : Tree), m ∉ cs →
        (∀ c ∈ cs, ∀ sc, t₁.slot? c = some sc → ∃ o, sc.node = .occurrence o) →
        (cs.foldl (fun t c => if t.isOwnedBy c n then sweep limit t c else t) t₁).slot? m =
          t₁.slot? m by
      rw [key _ _ hmc, slot?_erase, if_neg hm]
      intro c hc sc hsc
      rw [slot?_erase] at hsc
      split at hsc
      · simp at hsc
      · exact hleaf c hc sc hsc
    intro cs
    induction cs with
    | nil => simp
    | cons c rest ih =>
      intro t₁ hmem hocc
      obtain ⟨hmc, hmr⟩ := not_or.1 (fun h => hmem (List.mem_cons.2 h))
      have hsame : (if t₁.isOwnedBy c n then sweep limit t₁ c else t₁).slot? m = t₁.slot? m := by
        split
        · next howned =>
          cases hsc : t₁.slot? c with
          | none => simp [isOwnedBy, hsc] at howned
          | some sc =>
            obtain ⟨o, ho⟩ := hocc c (by simp) sc hsc
            exact slot?_sweep_leaf hsc ho hmc
        · rfl
      have hprunes : t₁.Prunes (if t₁.isOwnedBy c n then sweep limit t₁ c else t₁) :=
        prunes_ite (prunes_sweep limit t₁ c)
      rw [List.foldl_cons, ih _ hmr, hsame]
      intro x hx sx hsx
      rcases hprunes.2 x with he | he
      · exact hocc x (by simp [hx]) sx (he ▸ hsx)
      · simp [he] at hsx

theorem slot?_sweep_self {limit : Nat} (t : Tree) (n : NodeId) :
    (sweep (limit + 1) t n).slot? n = none := by
  unfold sweep
  split
  · assumption
  · next s _ =>
    have hprunes := prunes_foldl (fun t c => prunes_ite (c := t.isOwnedBy c n)
      (prunes_sweep limit t c)) s.node.children (t.erase n)
    rcases hprunes.2 n with he | he
    · rw [he, slot?_erase, if_pos rfl]
    · exact he

theorem slot?_sweep_size {s : Slot} (hs : t.slot? n = some s) :
    (sweep t.size t n).slot? n = none := by
  obtain ⟨limit, hlimit⟩ := Nat.exists_eq_add_of_lt (Nat.zero_lt_of_lt (index_lt_size hs))
  rw [hlimit]
  exact slot?_sweep_self t n

/-- Going over children, each of which is swept if it belongs to `n`. -/
def sweepAll (limit : Nat) (n : NodeId) (t : Tree) (cs : List NodeId) : Tree :=
  cs.foldl (fun t c => if t.isOwnedBy c n then sweep limit t c else t) t

theorem sweep_succ {s : Slot} (hs : t.slot? n = some s) :
    sweep (limit + 1) t n = sweepAll limit n (t.erase n) s.node.children := by
  rw [sweep, hs]
  rfl

def inUse (t : Tree) : Finset Nat := {i ∈ Finset.range t.size | t.isLive ⟨i⟩}

theorem index_mem_inUse {s : Slot} (hs : t.slot? n = some s) : n.index ∈ t.inUse :=
  Finset.mem_filter.2 ⟨Finset.mem_range.2 (index_lt_size hs), by simp [isLive, hs]⟩

theorem card_inUse_le (t : Tree) : t.inUse.card ≤ t.size :=
  (Finset.card_filter_le _ _).trans_eq (Finset.card_range _)

theorem Prunes.inUse_subset (h : t.Prunes t') : t'.inUse ⊆ t.inUse := by
  intro i hi
  obtain ⟨-, hlive⟩ := Finset.mem_filter.1 hi
  obtain ⟨s, hs⟩ := Option.isSome_iff_exists.1 hlive
  rcases h.2 ⟨i⟩ with hsame | hnone
  · exact index_mem_inUse (hsame.symm.trans hs)
  · simp [hs] at hnone

theorem card_inUse_erase {s : Slot} (hs : t.slot? n = some s) :
    (t.erase n).inUse.card < t.inUse.card := by
  refine Finset.card_lt_card (Finset.ssubset_iff_of_subset (prunes_erase t n).inUse_subset |>.2
    ⟨n.index, index_mem_inUse hs, fun hmem => ?_⟩)
  have hlive := (Finset.mem_filter.1 hmem).2
  simp [isLive, slot?_erase] at hlive

/-- Nodes are gone, and none of them stays behind in part. Whoever goes takes the children along
that belong to it, and unless it is one of `tops`, it goes together with its parent. -/
structure Clears (tops : NodeId → Prop) (t t' : Tree) : Prop where
  prunes : t.Prunes t'
  down : ∀ x s c sc, t.slot? x = some s → t'.slot? x = none → c ∈ s.node.children →
    t.slot? c = some sc → sc.parent = some x → t'.slot? c = none
  up : ∀ x s, t.slot? x = some s → t'.slot? x = none →
    tops x ∨ ∃ p, s.parent = some p ∧ t'.slot? p = none

namespace Clears

variable {tops : NodeId → Prop}

theorem slot? (hc : Clears tops t t') {s : Slot} (h : t'.slot? n = some s) :
    t.slot? n = some s := by
  rcases hc.prunes.2 n with hsame | hgone
  · rwa [← hsame]
  · simp [hgone] at h

theorem refl (tops : NodeId → Prop) (t : Tree) : Clears tops t t :=
  ⟨.refl t, fun x s c sc hx hgone => by simp [hx] at hgone,
    fun x s hx hgone => by simp [hx] at hgone⟩

theorem trans {t'' : Tree} (h : Clears tops t t') (h' : Clears tops t' t'') :
    Clears tops t t'' := by
  refine ⟨h.prunes.trans h'.prunes, fun x s c sc hx hgone hc hsc hp => ?_, fun x s hx hgone => ?_⟩
  · rcases h.prunes.2 x with hsame | hnone
    · rcases h.prunes.2 c with hchild | hchild
      · exact h'.down x s c sc (hsame.trans hx) hgone hc (hchild.trans hsc) hp
      · exact h'.prunes.gone hchild
    · exact h'.prunes.gone (h.down x s c sc hx hnone hc hsc hp)
  · rcases h.prunes.2 x with hsame | hnone
    · exact h'.up x s (hsame.trans hx) hgone
    · exact (h.up x s hx hnone).imp_right fun ⟨p, hp, hout⟩ => ⟨p, hp, h'.prunes.gone hout⟩

end Clears

theorem clears_sweepAll (ih : ∀ t n, t.inUse.card ≤ limit → Clears (· = n) t (sweep limit t n))
    (cs : List NodeId) (t : Tree) (hn : t.slot? n = none) (hcard : t.inUse.card ≤ limit) :
    Clears (fun _ => False) t (sweepAll limit n t cs) ∧
      ∀ c ∈ cs, ∀ s, t.slot? c = some s → s.parent = some n →
        (sweepAll limit n t cs).slot? c = none := by
  induction cs generalizing t with
  | nil => exact ⟨.refl _ t, by simp⟩
  | cons c rest ihc =>
    let first := if t.isOwnedBy c n then sweep limit t c else t
    have hfirst : Clears (fun _ => False) t first ∧
        ∀ s, t.slot? c = some s → s.parent = some n → first.slot? c = none := by
      by_cases howned : t.isOwnedBy c n = true
      · obtain ⟨sc, hsc, hp⟩ := (Option.any_eq_true _ _).1 howned
        have hclears := ih t c hcard
        have hgone : (sweep limit t c).slot? c = none := by
          cases limit with
          | zero =>
            have := Finset.card_pos.2 ⟨_, index_mem_inUse hsc⟩
            omega
          | succ limit => exact slot?_sweep_self t c
        rw [show first = sweep limit t c from if_pos howned]
        refine ⟨⟨hclears.prunes, hclears.down, fun x s hx hout => .inr ?_⟩, fun _ _ _ => hgone⟩
        rcases hclears.up x s hx hout with rfl | hparent
        · obtain rfl : sc = s := by simpa [hsc] using hx
          exact ⟨n, by simpa using hp, hclears.prunes.gone hn⟩
        · exact hparent
      · rw [show first = t from if_neg howned]
        refine ⟨.refl _ t, fun s hs hp => absurd ?_ howned⟩
        simp [isOwnedBy, hs, hp]
    have hprunes := hfirst.1.prunes
    obtain ⟨hrest, hall⟩ := ihc first (hprunes.gone hn)
      ((Finset.card_le_card hprunes.inUse_subset).trans hcard)
    refine ⟨hfirst.1.trans hrest, fun d hd s hs hp => ?_⟩
    rcases List.mem_cons.1 hd with rfl | hd
    · exact hrest.prunes.gone (hfirst.2 s hs hp)
    · rcases hprunes.2 d with hsame | hnone
      · exact hall d hd s (hsame.trans hs) hp
      · exact hrest.prunes.gone hnone

/-- A removal that goes deep enough leaves nothing behind that belongs to what it takes along. -/
theorem clears_sweep (limit : Nat) (t : Tree) (n : NodeId) (hcard : t.inUse.card ≤ limit) :
    Clears (· = n) t (sweep limit t n) := by
  induction limit generalizing t n with
  | zero => exact .refl _ t
  | succ limit ih =>
    cases hs : t.slot? n with
    | none =>
      rw [show sweep (limit + 1) t n = t by simp [sweep, hs]]
      exact .refl _ t
    | some s =>
      have hlt := card_inUse_erase hs
      obtain ⟨hclears, hall⟩ := clears_sweepAll (n := n) ih s.node.children (t.erase n)
        (by simp [slot?_erase]) (by omega)
      have hself : (sweepAll limit n (t.erase n) s.node.children).slot? n = none :=
        hclears.prunes.gone (by simp [slot?_erase])
      have hother {x : NodeId} (hx : x ≠ n) : (t.erase n).slot? x = t.slot? x := by
        rw [slot?_erase, if_neg hx]
      rw [sweep_succ hs]
      refine ⟨(prunes_erase t n).trans hclears.prunes, fun x sx c sc hx hgone hc hsc hp => ?_,
        fun x sx hx hgone => ?_⟩
      · by_cases hcn : c = n
        · rwa [hcn]
        have hsc' := (hother hcn).trans hsc
        by_cases hxn : x = n
        · subst hxn
          obtain rfl : s = sx := by simpa [hs] using hx
          exact hall c hc sc hsc' hp
        · exact hclears.down x sx c sc ((hother hxn).trans hx) hgone hc hsc' hp
      · by_cases hxn : x = n
        · exact .inl hxn
        · exact .inr ((hclears.up x sx ((hother hxn).trans hx) hgone).resolve_left id)

/-- A node is removed together with everything that belongs to it. -/
theorem clears_cleanup (t : Tree) (n : NodeId) : Clears (· = n) t ((cleanup n).after t) := by
  cases hn : t.slot? n with
  | none =>
    rw [cleanup, Edit.after_bind, Edit.ask, slot, hn]
    exact .refl _ t
  | some s =>
    rw [cleanup, Edit.after_bind, Edit.ask, slot_ok.2 hn]
    exact clears_sweep t.size t n (card_inUse_le t)

end MethodFlow.Tree
