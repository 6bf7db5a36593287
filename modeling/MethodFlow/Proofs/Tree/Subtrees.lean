import MethodFlow.Proofs.Tree.Pairing
import MethodFlow.Proofs.Tree.Primitive
import MethodFlow.Proofs.Tree.Uprooting
import Mathlib.Data.Set.Card

/-!
What goes with a node. Where parents and lists of children agree, a node that is removed takes along
the nodes whose parents lead up to it, and one that is replaced leaves its place to the new node
besides. Whatever is gone stays gone.
-/

namespace MethodFlow

open Edit

def Node.asDefinition : Node → Node
  | occurrence o => .occurrence { o with defines := true }
  | node => node

@[simp] theorem Node.isStatement_asDefinition (node : Node) :
    node.asDefinition.isStatement = node.isStatement := by
  cases node <;> rfl

@[simp] theorem Node.children_asDefinition (node : Node) :
    node.asDefinition.children = node.children := by
  cases node <;> rfl

namespace Tree

variable {t t' : Tree} {n m p old new : NodeId} {s : Slot}

section gone

/-- What has been removed is not brought back. -/
structure KeepsGone (t t' : Tree) : Prop where
  size : t.size ≤ t'.size
  gone : ∀ n, n.index < t.size → t.slot? n = none → t'.slot? n = none

namespace KeepsGone

instance : IsPreorder Tree KeepsGone where
  refl _ := ⟨Nat.le_refl _, fun _ _ => id⟩
  trans _ _ _ h h' := ⟨h.size.trans h'.size, fun n hn hgone =>
    h'.gone n (Nat.lt_of_lt_of_le hn h.size) (h.gone n hn hgone)⟩

theorem of_put (hs : t.slot? n = some s) (s' : Slot) : t.KeepsGone (t.put n s') := by
  refine ⟨(size_put _).ge, fun m _ hgone => ?_⟩
  rw [slot?_put_of_slot hs]
  split
  · next he =>
    subst he
    simp [hs] at hgone
  · exact hgone

theorem moves_modifySlot (n : NodeId) (f : Slot → Slot) : Moves KeepsGone (modifySlot n f) :=
  moves_modifySlot_of_put fun _ s hs => of_put hs (f s)

theorem moves_modifyOccurrence (n : NodeId) (f : Occurrence → Occurrence) :
    Moves KeepsGone (modifyOccurrence n f) :=
  moves_modifyOccurrence_of_put fun _ _ _ hs _ => of_put hs _

theorem primitive : Primitive KeepsGone := by
  refine .of_writes (fun t node => ?_) (fun t n s s' hs _ _ => of_put hs s') fun t t' h => ?_
  · refine ⟨(size_push _).ge.trans' (Nat.le_succ _), fun n hn hgone => ?_⟩
    rw [slot?_push, if_neg (ne_next hn), hgone]
  · exact ⟨h.1.ge, fun n _ hgone => h.gone hgone⟩

theorem moves_run (r : TreeRequest) : Moves KeepsGone r.run :=
  primitive.moves_run r
    (fun n d _ => Primitive.moves_setLink (fun n _ => moves_modifyOccurrence n _) n d)
    fun old new _ => primitive.moves_replace (fun n => moves_modifyOccurrence n _)
      (fun p _ _ => moves_modifySlot p _) old new

theorem edit (t : Tree) (e : TreeEdit) : t.KeepsGone (t.edit e) := by
  cases e with
  | request r => exact (moves_run r).quietly ⟨t, []⟩
  | retainJoinOperands n preds =>
    rw [Tree.edit, TreeEdit.run, after_bind_pure]
    exact primitive.moves_drops (drops_retainJoinOperands n preds ⟨t, []⟩)
  | readCatchOperands n =>
    rw [Tree.edit, TreeEdit.run, after_bind_pure]
    exact primitive.moves_drops (drops_readCatchOperands n ⟨t, []⟩)

theorem edits (t : Tree) (es : List TreeEdit) : t.KeepsGone (t.edits es) := by
  induction es generalizing t with
  | nil => exact Std.Refl.refl t
  | cons e rest ih => exact IsTrans.trans _ _ _ (edit t e) (ih (t.edit e))

end KeepsGone

end gone

section counting

theorem countP_isSome (xs : List (Option Slot)) :
    xs.countP Option.isSome =
      ({i ∈ Finset.range xs.length | xs[i]?.join.isSome} : Finset Nat).card := by
  induction xs using List.reverseRecOn with
  | nil => rfl
  | append_singleton xs x ih =>
    have hbefore : ({i ∈ Finset.range xs.length | (xs ++ [x])[i]?.join.isSome} : Finset Nat) =
        {i ∈ Finset.range xs.length | xs[i]?.join.isSome} := by
      apply Finset.filter_congr
      intro i hi
      rw [List.getElem?_append_left (Finset.mem_range.1 hi)]
    rw [List.countP_append, ih, List.length_append, List.length_singleton, Finset.range_add_one,
      Finset.filter_insert, hbefore]
    cases x with
    | none => simp
    | some s => simp

theorem liveCount_eq (t : Tree) : t.liveCount = t.inUse.card := by
  rw [liveCount, ← Array.countP_toList, countP_isSome]
  congr 1
  apply Finset.filter_congr
  intro i _
  simp [isLive, slot?]

theorem mem_inUse {i : Nat} : i ∈ t.inUse ↔ t.isLive ⟨i⟩ = true := by
  rw [inUse, Finset.mem_filter, and_iff_right_iff_imp]
  intro hlive
  obtain ⟨s, hs⟩ := Option.isSome_iff_exists.1 hlive
  exact Finset.mem_range.2 (index_lt_size hs)

/-- What is not in use any more has been counted before. -/
theorem liveCount_eq_add {gone : NodeId → Prop}
    (h : ∀ m, t'.isLive m = true ↔ t.isLive m = true ∧ ¬gone m) :
    t.liveCount = t'.liveCount + {m | t.isLive m = true ∧ gone m}.ncard := by
  have hsubset : t'.inUse ⊆ t.inUse := fun i hi => mem_inUse.2 ((h ⟨i⟩).1 (mem_inUse.1 hi)).1
  have hgone : {m | t.isLive m = true ∧ gone m} = NodeId.mk '' ↑(t.inUse \ t'.inUse) := by
    ext m
    constructor
    · rintro ⟨hlive, hm⟩
      refine ⟨m.index, ?_, rfl⟩
      rw [Finset.mem_coe, Finset.mem_sdiff]
      exact ⟨mem_inUse.2 hlive, fun hin => ((h m).1 (mem_inUse.1 hin)).2 hm⟩
    · rintro ⟨i, hi, rfl⟩
      rw [Finset.mem_coe, Finset.mem_sdiff, mem_inUse, mem_inUse, h] at hi
      exact ⟨hi.1, by_contra fun hm => hi.2 ⟨hi.1, hm⟩⟩
  have hcard := Finset.card_le_card hsubset
  rw [hgone, Set.ncard_image_of_injective _ fun i j he => NodeId.mk.inj he, Set.ncard_coe_finset,
    Finset.card_sdiff_of_subset hsubset, liveCount_eq, liveCount_eq]
  omega

end counting

/-- What a node lists are expressions in use that have it for their parent, and a parent lists its
child once. -/
structure WellOwned (t : Tree) : Prop where
  held : ∀ n s, t.slot? n = some s → ∀ c ∈ s.node.children,
    ∃ sc, t.slot? c = some sc ∧ sc.node.isStatement = false ∧ sc.parent = some n
  listed : ∀ n s p, t.slot? n = some s → s.parent = some p →
    ∃ sp, t.slot? p = some sp ∧ sp.node.children.count n = 1

theorem Paired.wellOwned (h : t.Paired) : t.WellOwned := by
  constructor
  · intro n s hs c hc
    obtain ⟨sc, hsc⟩ := h.present n s hs c hc
    exact ⟨sc, hsc, h.coherent.isStatement_of_mem_children hs hc hsc,
      h.coherent.owned n s hs c hc sc hsc⟩
  · intro n s p hs hp
    obtain ⟨sp, hsp, hmem⟩ := h.listed n s p hs hp (by simp)
    exact ⟨sp, hsp, List.count_eq_one_of_mem (h.coherent.nodup p sp hsp) hmem⟩

namespace WellOwned

theorem owned (h : t.WellOwned) : t.Owned := by
  intro n s hs c hc sc hsc
  obtain ⟨sc', hsc', -, hp⟩ := h.held n s hs c hc
  obtain rfl : sc = sc' := by simpa [hsc] using hsc'
  exact hp

theorem under_iff (h : t.WellOwned) : (∃ j, t.Under n j m) ↔ t.isLive m = true ∧ t.LeadsTo n m := by
  constructor
  · rintro ⟨j, hj⟩
    induction hj with
    | self hs => exact ⟨by simp [isLive, hs], .self⟩
    | child _ hs hc hsc ih =>
      exact ⟨by simp [isLive, hsc], .step hsc (h.owned _ _ hs _ hc _ hsc) ih.2⟩
  · rintro ⟨hlive, hleads⟩
    induction hleads with
    | self =>
      obtain ⟨s, hs⟩ := Option.isSome_iff_exists.1 hlive
      exact ⟨0, .self hs⟩
    | step hs hp _ ih =>
      obtain ⟨sp, hsp, hcount⟩ := h.listed _ _ _ hs hp
      obtain ⟨j, hj⟩ := ih (by simp [isLive, hsp])
      exact ⟨j + 1, .child hj hsp (List.count_pos_iff.1 (by omega)) hs⟩

end WellOwned

/-- The nodes in use whose parents lead up to `n` are gone for good, and no others. -/
structure Fells (t t' : Tree) (n : NodeId) : Prop where
  isLive : ∀ m, t'.isLive m = true ↔ t.isLive m = true ∧ ¬t.LeadsTo n m
  count : t.liveCount = t'.liveCount + {m | t.isLive m = true ∧ t.LeadsTo n m}.ncard
  gone : ∀ m, t.isLive m = true → t.LeadsTo n m →
    ∀ es, (t'.edits es).slot m = .error (.invalidNode m)

theorem Fells.of_isLive (hsize : t'.size = t.size)
    (h : ∀ m, t'.isLive m = true ↔ t.isLive m = true ∧ ¬t.LeadsTo n m) : t.Fells t' n := by
  refine ⟨h, liveCount_eq_add h, fun m hlive hleads es => ?_⟩
  obtain ⟨s, hs⟩ := Option.isSome_iff_exists.1 hlive
  have hdead : t'.slot? m = none := by
    by_contra hin
    exact ((h m).1 (Option.isSome_iff_ne_none.2 hin)).2 hleads
  have hgone := (KeepsGone.edits t' es).gone m (hsize ▸ index_lt_size hs) hdead
  simp [slot, hgone]

theorem WellOwned.fells_cleanup (h : t.WellOwned) (hs : t.slot? n = some s) :
    Yields (cleanup n) t fun _ t' =>
      t.Fells t' n ∧ t'.size = t.size ∧ ∀ m, ¬t.LeadsTo n m → t'.slot? m = t.slot? m := by
  apply (uproots_cleanup h.owned hs).mono
  intro _ t' huproots
  have hkept : ∀ m, ¬t.LeadsTo n m → ∀ j, ¬t.Under n j m := fun m hout j hj =>
    hout (h.under_iff.1 ⟨j, hj⟩).2
  refine ⟨.of_isLive huproots.size fun m => ?_, huproots.size,
    fun m hout => huproots.kept m (hkept m hout)⟩
  rw [huproots.isLive]
  apply and_congr_right
  intro hlive
  rw [← not_exists, h.under_iff, not_and, imp_iff_right hlive]

section supplanting

/-- What becomes of the node `m` when `new` takes the place of `old` below `p`, as a definition if
`old` was one. -/
def supplanted (defines : Bool) (old new p m : NodeId) (s : Slot) : Slot where
  node := if m = p then s.node.replaceChild old new
    else if m = new ∧ defines = true then s.node.asDefinition else s.node
  parent := if m = old then none else if m = new then some p else s.parent
  block := s.block

theorem slot?_put_map (hs : t.slot? n = some s) (f : Slot → Slot) (m : NodeId) :
    (t.put n (f s)).slot? m = (t.slot? m).map fun x => if m = n then f x else x := by
  rw [slot?_put_of_slot hs]
  by_cases hm : m = n
  · subst hm
    simp [hs]
  · simp [hm]

theorem Prepares.slot? (h : Prepares old new t t') (m : NodeId) :
    t'.slot? m = (t.slot? m).map fun x =>
      if m = new ∧ t.defines old = true then { x with node := x.node.asDefinition } else x := by
  unfold Prepares at h
  by_cases hold : t.defines old = true
  · rw [if_pos hold] at h
    obtain ⟨s, o, hs, ho, rfl⟩ := modifyOccurrence_ok.1 h
    have hmark : Node.occurrence { o with defines := true } = s.node.asDefinition := by rw [ho]; rfl
    rw [hmark, slot?_put_map hs fun x => { x with node := x.node.asDefinition }]
    simp [hold]
  · rw [if_neg hold] at h
    simp [h, hold]

theorem Prepares.size (h : Prepares old new t t') : t'.size = t.size := by
  unfold Prepares at h
  split at h
  · obtain ⟨s, o, -, -, rfl⟩ := modifyOccurrence_ok.1 h
    exact size_put _
  · rw [h]

/-- A replacement that succeeds prepares the new node, which then takes the place of the old one. -/
theorem replace_ok {u : Unit} (h : replace old new t = .ok u t') :
    ∃ p t₁, t.parent old = .ok (some p) ∧ t.Detached new ∧ Prepares old new t t₁ ∧
      exchangeChild p old new t₁ = .ok u t' := by
  obtain ⟨parent, _, hask, hrest⟩ := bind_ok.1 h
  obtain ⟨hparent, rfl⟩ := ask_ok.1 hask
  cases parent with
  | none => exact (throw_ok.1 hrest).elim
  | some p =>
    obtain ⟨_, _, hcheck, hrest⟩ := bind_ok.1 hrest
    obtain ⟨hnew, rfl⟩ := ask_ok.1 hcheck
    change (if t.defines old = true then _ else _ : Edit Tree Unit) t = .ok u t' at hrest
    by_cases hold : t.defines old = true
    · rw [if_pos hold] at hrest
      obtain ⟨_, t₁, hmark, hrest⟩ := bind_ok.1 hrest
      exact ⟨p, t₁, hparent, checkDetached_ok.1 hnew, by rwa [Prepares, if_pos hold], hrest⟩
    · rw [if_neg hold] at hrest
      exact ⟨p, t, hparent, checkDetached_ok.1 hnew, by rw [Prepares, if_neg hold], hrest⟩

theorem exchangeChild_ok {u : Unit} (h : exchangeChild p old new t = .ok u t') :
    ∃ t₁, t₁.size = t.size ∧ (∀ m, t₁.slot? m = (t.slot? m).map (supplanted false old new p m)) ∧
      cleanup old t₁ = .ok u t' := by
  obtain ⟨_, t₁, hstore, hrest⟩ := bind_ok.1 h
  obtain ⟨sp, hsp, rfl⟩ := modifySlot_ok.1 hstore
  obtain ⟨_, t₂, hadopt, hrest⟩ := bind_ok.1 hrest
  obtain ⟨sn, hsn, rfl⟩ := setParent_ok.1 hadopt
  obtain ⟨_, t₃, hleave, hclean⟩ := bind_ok.1 hrest
  obtain ⟨so, hso, rfl⟩ := setParent_ok.1 hleave
  refine ⟨_, by simp only [size_put], fun m => ?_, hclean⟩
  have hstored := slot?_put_map hsp (fun x => { x with node := x.node.replaceChild old new }) m
  have hadopted := slot?_put_map hsn (fun x => { x with parent := some p }) m
  have hleft := slot?_put_map hso (fun x => { x with parent := none }) m
  rw [hstored] at hadopted
  rw [hadopted] at hleft
  rw [hleft, Option.map_map, Option.map_map]
  congr 1
  funext x
  simp only [Function.comp_apply, supplanted]
  split_ifs <;> simp_all

theorem WellOwned.exists_place (h : t.WellOwned) {so : Slot} (hs : t.slot? old = some so)
    (hp : so.parent = some p) (new : NodeId) : ∃ sp before after, t.slot? p = some sp ∧
      old ∉ before ∧ old ∉ after ∧ sp.node.children = before ++ old :: after ∧
      (sp.node.replaceChild old new).children = before ++ new :: after := by
  obtain ⟨sp, hsp, hcount⟩ := h.listed old so p hs hp
  have hmem : old ∈ sp.node.children := List.count_pos_iff.1 (by omega)
  obtain ⟨before, after, hsplit⟩ := List.append_of_mem hmem
  rw [hsplit, List.count_append, List.count_cons_self] at hcount
  have hbefore : old ∉ before := List.count_eq_zero.1 (by omega)
  have hafter : old ∉ after := List.count_eq_zero.1 (by omega)
  have hsame {xs : List NodeId} (hout : old ∉ xs) :
      xs.map (fun c => if c = old then new else c) = xs := by
    conv_rhs => rw [← List.map_id xs]
    exact List.map_congr_left fun c hc => if_neg (ne_of_mem_of_not_mem hc hout)
  refine ⟨sp, before, after, hsp, hbefore, hafter, hsplit, ?_⟩
  rw [children_replaceChild, hsplit, List.map_append, List.map_cons, if_pos rfl, hsame hbefore,
    hsame hafter]

theorem WellOwned.ne_parent_of_varOf (h : t.WellOwned)
    (hparent : t.parent old = .ok (some p)) {v : Var} (hv : t.varOf new = .ok v) : new ≠ p := by
  rintro rfl
  obtain ⟨o, ho, -⟩ := varOf_ok.1 hv
  obtain ⟨s, hs, hnode⟩ := node?_eq_some.1 ho
  obtain ⟨so, hso, hp⟩ := parent_ok.1 hparent
  obtain ⟨sp, before, after, hsp, -, -, hsplit, -⟩ := h.exists_place hso hp new
  obtain rfl : sp = s := by simpa [hsp] using hs
  simp [hnode, Node.children, Node.writes, Node.reads] at hsplit

theorem children_supplanted (defines : Bool) (s : Slot) (h : m ≠ p) :
    (supplanted defines old new p m s).node.children = s.node.children := by
  simp only [supplanted, if_neg h]
  split
  · exact Node.children_asDefinition s.node
  · rfl

theorem isStatement_supplanted (defines : Bool) (s : Slot) :
    (supplanted defines old new p m s).node.isStatement = s.node.isStatement := by
  simp only [supplanted]
  split
  · exact Node.isStatement_withChildren _ _
  · split
    · exact Node.isStatement_asDefinition s.node
    · rfl

/-- The node `new`, which nothing owned, has taken the place of `old` below `p`. -/
structure Supplants (t t' : Tree) (defines : Bool) (old new p : NodeId) : Prop where
  wellOwned : t.WellOwned
  parent : t.parent old = .ok (some p)
  free : t.Detached new
  slots : ∀ m, t'.slot? m = (t.slot? m).map (supplanted defines old new p m)

namespace Supplants

variable {defines : Bool} {c x : NodeId}

theorem slot?_eq (h : Supplants t t' defines old new p) (hs : t.slot? n = some s) :
    t'.slot? n = some (supplanted defines old new p n s) := by
  rw [h.slots, hs, Option.map_some]

theorem listed_once (h : Supplants t t' defines old new p) (hs : t.slot? n = some s)
    (hc : c ∈ s.node.children) : c ≠ new ∧ (c = old → n = p) := by
  obtain ⟨sc, hsc, -, hparent⟩ := h.wellOwned.held n s hs c hc
  constructor
  · rintro rfl
    exact h.free.ne_of_parent hsc hparent rfl
  · rintro rfl
    obtain ⟨so, hso, hp⟩ := parent_ok.1 h.parent
    obtain rfl : so = sc := by simpa [hso] using hsc
    simpa [hp] using hparent.symm

theorem held (h : Supplants t t' defines old new p) (hs : t.slot? n = some s)
    (hc : c ∈ s.node.children)
    (hco : c ≠ old) : ∃ sc, t'.slot? c = some sc ∧ sc.node.isStatement = false ∧
      sc.parent = some n := by
  obtain ⟨sc, hsc, hexpr, hparent⟩ := h.wellOwned.held n s hs c hc
  refine ⟨_, h.slot?_eq hsc, (isStatement_supplanted _ _).trans hexpr, ?_⟩
  simp [supplanted, hco, (h.listed_once hs hc).1, hparent]

/-- Ownership is as good as before. -/
theorem wellOwned_after (h : Supplants t t' defines old new p) : t'.WellOwned := by
  obtain ⟨so, hso, hp⟩ := parent_ok.1 h.parent
  obtain ⟨sp, before, after, hsp, hbefore, hafter, hsplit, hplace⟩ :=
    h.wellOwned.exists_place hso hp new
  have hon : old ≠ new := h.free.ne_of_parent hso hp
  have hin {c : NodeId} (hc : c ∈ before ∨ c ∈ after) : c ∈ sp.node.children := by
    rw [hsplit, List.mem_append, List.mem_cons]
    exact hc.imp_right .inr
  constructor
  · intro x s' hx' c hc
    rw [h.slots, Option.map_eq_some_iff] at hx'
    obtain ⟨s, hx, rfl⟩ := hx'
    by_cases hxp : x = p
    · subst hxp
      obtain rfl : sp = s := by simpa [hsp] using hx
      simp only [supplanted, if_true, hplace, List.mem_append, List.mem_cons] at hc
      rcases hc with hc | rfl | hc
      · exact h.held hx (hin (.inl hc)) fun he => hbefore (he ▸ hc)
      · obtain ⟨sn, hsn, hexpr, -⟩ := h.free
        exact ⟨_, h.slot?_eq hsn, (isStatement_supplanted _ _).trans hexpr,
          by simp [supplanted, hon.symm]⟩
      · exact h.held hx (hin (.inr hc)) fun he => hafter (he ▸ hc)
    · rw [children_supplanted _ _ hxp] at hc
      exact h.held hx hc fun hco => hxp ((h.listed_once hx hc).2 hco)
  · intro x s' q hx' hq
    rw [h.slots, Option.map_eq_some_iff] at hx'
    obtain ⟨s, hx, rfl⟩ := hx'
    have hxo : x ≠ old := by
      rintro rfl
      simp [supplanted] at hq
    by_cases hxn : x = new
    · subst hxn
      obtain rfl : p = q := by simpa [supplanted, hxo] using hq
      refine ⟨_, h.slot?_eq hsp, ?_⟩
      have hnone {xs : List NodeId} (hxs : ∀ c ∈ xs, c ∈ sp.node.children) : xs.count x = 0 :=
        List.count_eq_zero.2 fun hmem => (h.listed_once hsp (hxs x hmem)).1 rfl
      simp [supplanted, hplace, hnone fun c hc => hin (.inl hc), hnone fun c hc => hin (.inr hc)]
    · obtain ⟨sq, hsq, hcount⟩ :=
        h.wellOwned.listed x s q hx (by simpa [supplanted, hxo, hxn] using hq)
      refine ⟨_, h.slot?_eq hsq, ?_⟩
      by_cases hqp : q = p
      · subst hqp
        obtain rfl : sp = sq := by simpa [hsp] using hsq
        rw [hsplit, List.count_append, List.count_cons_of_ne (Ne.symm hxo)] at hcount
        simp only [supplanted, if_true, hplace]
        rwa [List.count_append, List.count_cons_of_ne (Ne.symm hxn)]
      · rwa [children_supplanted _ _ hqp]

/-- As long as the parent of `old` does not stand below it, the same nodes stand below it before and
after it has left its place. -/
theorem leadsTo_iff (h : Supplants t t' defines old new p) (hout : ¬t.LeadsTo old p) :
    t'.LeadsTo old m ↔ t.LeadsTo old m := by
  constructor
  · intro hleads
    induction hleads with
    | self => exact .self
    | @step x q s' hx hq _ ih =>
      rw [h.slots, Option.map_eq_some_iff] at hx
      obtain ⟨s, hx, rfl⟩ := hx
      by_cases hxo : x = old
      · simp [supplanted, hxo] at hq
      · by_cases hxn : x = new
        · subst hxn
          obtain rfl : p = q := by simpa [supplanted, hxo] using hq
          exact absurd ih hout
        · exact .step hx (by simpa [supplanted, hxo, hxn] using hq) ih
  · intro hleads
    induction hleads with
    | self => exact .self
    | @step x q s hx hq _ ih =>
      by_cases hxo : x = old
      · exact hxo ▸ .self
      · have hxn : x ≠ new := h.free.ne_of_parent hx hq
        exact .step (h.slot?_eq hx) (by simpa [supplanted, hxo, hxn] using hq) ih

end Supplants

theorem WellOwned.supplants_of_replace (h : t.WellOwned) {u : Unit}
    (hrun : replace old new t = .ok u t') :
    ∃ p t₁, Supplants t t₁ (t.defines old) old new p ∧ t₁.size = t.size ∧
      cleanup old t₁ = .ok u t' ∧ (t.defines old = true → ∃ v, t.varOf new = .ok v) := by
  obtain ⟨p, t₀, hparent, hdetached, hprepares, hexchange⟩ := replace_ok hrun
  obtain ⟨t₁, hsize, hslots, hclean⟩ := exchangeChild_ok hexchange
  have hvar (hold : t.defines old = true) : ∃ v, t.varOf new = .ok v := by
    rw [Prepares, if_pos hold] at hprepares
    obtain ⟨s, o, hs, ho, -⟩ := modifyOccurrence_ok.1 hprepares
    exact ⟨o.var, varOf_ok.2 ⟨o, node?_eq_some.2 ⟨s, hs, ho⟩, rfl⟩⟩
  have hnp (hold : t.defines old = true) : new ≠ p := by
    obtain ⟨v, hv⟩ := hvar hold
    exact h.ne_parent_of_varOf hparent hv
  refine ⟨p, t₁, ⟨h, hparent, hdetached, fun m => ?_⟩, hsize.trans hprepares.size, hclean, hvar⟩
  rw [hslots, hprepares.slot?, Option.map_map]
  congr 1
  funext s
  simp only [Function.comp_apply, supplanted]
  split_ifs <;> simp_all

/-- Parents lead nowhere from a node that has none. -/
theorem LeadsTo.eq_of_root (h : t.LeadsTo m n) (hroot : t.parent n = .ok none) : m = n := by
  cases h with
  | self => rfl
  | step hs hp _ =>
    obtain ⟨s', hs', hnone⟩ := parent_ok.1 hroot
    obtain rfl := Option.some.inj (hs.symm.trans hs')
    simp [hp] at hnone

/-- The node `new` stands where `old` stood below `p`, and defines its variable if `old` did.
Everything else that `old` did not stand above is as it was. -/
structure TakesPlace (t t' : Tree) (old new p : NodeId) : Prop where
  slots : ∀ m, ¬t.LeadsTo old m →
    t'.slot? m = (t.slot? m).map (supplanted (t.defines old) old new p m)
  place : ∃ before after, t.children p = .ok (before ++ old :: after) ∧
    t'.children p = .ok (before ++ new :: after)
  entered : t'.parent new = .ok (some p)
  defined : t.defines old = true → t'.isDefinition new = .ok true

theorem Supplants.takesPlace {t₁ : Tree} (h : Supplants t t₁ (t.defines old) old new p)
    (hout : ¬t.LeadsTo old p) (hvar : t.defines old = true → ∃ v, t.varOf new = .ok v)
    (hkept : ∀ m, ¬t.LeadsTo old m → t'.slot? m = t₁.slot? m) : t.TakesPlace t' old new p := by
  obtain ⟨so, hso, hp⟩ := parent_ok.1 h.parent
  obtain ⟨sn, hsn, -, hfree⟩ := h.free
  obtain ⟨sp, before, after, hsp, -, -, hsplit, hplace⟩ := h.wellOwned.exists_place hso hp new
  have hon : old ≠ new := h.free.ne_of_parent hso hp
  have hnew : ¬t.LeadsTo old new :=
    fun hleads => hon (hleads.eq_of_root (parent_ok.2 ⟨sn, hsn, hfree⟩))
  have hslotp := (hkept p hout).trans (h.slot?_eq hsp)
  have hslotn := (hkept new hnew).trans (h.slot?_eq hsn)
  constructor
  · intro m hm
    rw [hkept m hm, h.slots]
  · refine ⟨before, after, children_ok.2 ⟨sp, hsp, hsplit⟩, children_ok.2 ⟨_, hslotp, ?_⟩⟩
    simp only [supplanted, if_true, hplace]
  · exact parent_ok.2 ⟨_, hslotn, by simp [supplanted, hon.symm]⟩
  · intro hold
    obtain ⟨v, hv⟩ := hvar hold
    obtain ⟨o, ho, -⟩ := varOf_ok.1 hv
    obtain ⟨sn', hsn', hnode⟩ := node?_eq_some.1 ho
    obtain rfl : sn = sn' := by simpa [hsn] using hsn'
    have hnp : new ≠ p := h.wellOwned.ne_parent_of_varOf h.parent hv
    refine isDefinition_ok.2 ⟨{ o with defines := true }, node?_eq_some.2 ⟨_, hslotn, ?_⟩, rfl⟩
    simp [supplanted, hnp, hold, hnode, Node.asDefinition]

/-- A replacement that succeeds removes the old node and what stands below it, unless that is its
own parent. -/
theorem WellOwned.fells_replace (h : t.WellOwned) {u : Unit} (hrun : replace old new t = .ok u t') :
    ∃ p, t.parent old = .ok (some p) ∧
      (¬t.LeadsTo old p → t.Fells t' old ∧ t.TakesPlace t' old new p) := by
  obtain ⟨p, t₁, hsupplants, hsize, hclean, hvar⟩ := h.supplants_of_replace hrun
  refine ⟨p, hsupplants.parent, fun hout => ?_⟩
  obtain ⟨so, hso, -⟩ := parent_ok.1 hsupplants.parent
  have hfells := hsupplants.wellOwned_after.fells_cleanup (hsupplants.slot?_eq hso)
  rw [yields_of_ok hclean] at hfells
  obtain ⟨hfells, hsize', hkept⟩ := hfells
  constructor
  · refine .of_isLive (hsize'.trans hsize) fun m => ?_
    rw [hfells.isLive, hsupplants.leadsTo_iff hout]
    simp [Tree.isLive, hsupplants.slots]
  · apply hsupplants.takesPlace hout hvar
    exact fun m hm => hkept m fun hleads => hm ((hsupplants.leadsTo_iff hout).1 hleads)

end supplanting

/-- Where what nodes list and what has them for parents agree, a node can be removed, and it goes
for good together with the nodes whose parents lead up to it and with no others. So does a node that
is replaced, and the new node takes its place, unless the parents of the old one lead back to it. -/
theorem WellOwned.removals (h : t.WellOwned) :
    (∀ n, t.isLive n = true → Yields (cleanup n) t fun _ t' =>
      t.Fells t' n ∧ ∀ m, ¬t.LeadsTo n m → t'.slot? m = t.slot? m) ∧
    ∀ old new u t', replace old new t = .ok u t' → ∃ p, t.parent old = .ok (some p) ∧
      (¬t.LeadsTo old p → t.Fells t' old ∧ t.TakesPlace t' old new p) := by
  constructor
  · intro n hlive
    obtain ⟨s, hs⟩ := Option.isSome_iff_exists.1 hlive
    exact (h.fells_cleanup hs).mono fun _ t' ⟨hfells, _, hkept⟩ => ⟨hfells, hkept⟩
  · intro old new u t' hrun
    exact h.fells_replace hrun

/-- A literal is stored, and another one is there to take its place. -/
def storeLiteral : List TreeEdit :=
  [.request (.newVariable (.ofLocal 0) .int), .request (.newLiteral (.int 1)),
    .request (.newStore ⟨0⟩ ⟨1⟩), .request (.newLiteral (.int 2))]

theorem removals_of_storeLiteral : (Tree.empty.edits storeLiteral).WellOwned ∧
    (∃ t', cleanup ⟨2⟩ (Tree.empty.edits storeLiteral) = .ok () t' ∧
      (Tree.empty.edits storeLiteral).Fells t' ⟨2⟩) ∧
    ∃ t', replace ⟨1⟩ ⟨3⟩ (Tree.empty.edits storeLiteral) = .ok () t' ∧
      (Tree.empty.edits storeLiteral).Fells t' ⟨1⟩ ∧
      (Tree.empty.edits storeLiteral).TakesPlace t' ⟨1⟩ ⟨3⟩ ⟨2⟩ := by
  have hspares : Tree.empty.SparingRun storeLiteral := ⟨trivial, trivial, trivial, trivial, trivial⟩
  have howned : (Tree.empty.edits storeLiteral).WellOwned := (paired_empty.edits hspares).wellOwned
  have hparents : (Tree.empty.edits storeLiteral).parent ⟨1⟩ = .ok (some ⟨2⟩) ∧
      (Tree.empty.edits storeLiteral).parent ⟨2⟩ = .ok none := by decide +kernel
  obtain ⟨hcleanup, hreplace⟩ := howned.removals
  obtain ⟨_, t', hclean, hfells, -⟩ := hcleanup ⟨2⟩ (by decide +kernel)
  obtain ⟨t'', hrun⟩ := outcome_ok.1 (show
    (replace ⟨1⟩ ⟨3⟩).outcome (Tree.empty.edits storeLiteral) = .ok () by decide +kernel)
  obtain ⟨p, hp, hdone⟩ := hreplace _ _ _ _ hrun
  obtain rfl : ⟨2⟩ = p := Option.some.inj (Except.ok.inj (hparents.1.symm.trans hp))
  refine ⟨howned, ⟨t', hclean, hfells⟩, t'', hrun, hdone fun hleads => ?_⟩
  simpa using hleads.eq_of_root hparents.2

/-- A sum takes the place of its own operand, and a variable is there to take the place of the
sum. -/
def encircleSum : List TreeEdit :=
  [.request (.newVariable (.ofLocal 0) .int), .request (.newVariable (.ofLocal 1) .int),
    .request (.newBinary .add ⟨0⟩ ⟨1⟩ .int), .request (.replace ⟨0⟩ ⟨2⟩),
    .request (.newVariable (.ofLocal 0) .int)]

/-- In the place of a node that is its own parent, the new node goes with the old one. -/
theorem replace_of_encircleSum : (Tree.empty.edits encircleSum).WellOwned ∧
    (replace ⟨2⟩ ⟨3⟩).outcome (Tree.empty.edits encircleSum) = .ok () ∧
    ¬(Tree.empty.edits encircleSum).LeadsTo ⟨2⟩ ⟨3⟩ ∧
    (Tree.empty.edits encircleSum).isLive ⟨3⟩ = true ∧
    ((replace ⟨2⟩ ⟨3⟩).after (Tree.empty.edits encircleSum)).isLive ⟨3⟩ = false := by
  have hspares : Tree.empty.SparingRun encircleSum :=
    ⟨trivial, trivial, trivial, trivial, trivial, trivial⟩
  have hfree : (Tree.empty.edits encircleSum).parent ⟨3⟩ = .ok none := by decide +kernel
  refine ⟨(paired_empty.edits hspares).wellOwned, by decide +kernel, fun hleads => ?_,
    by decide +kernel, by decide +kernel⟩
  simpa using hleads.eq_of_root hfree

end Tree

end MethodFlow
