import MethodFlow.Graph.Dominators
import Mathlib.Logic.Function.Iterate
import Mathlib.Data.List.Nodup
import Mathlib.Data.List.Perm.Subperm
import Mathlib.Tactic.Push

/-!
Rounds of refinement. A tree under construction errs on both sides: it names too many ancestors for
some nodes, and it knows nothing of nodes that no round has come to. Two invariants bound the error.
Whatever is not an ancestor of a node can be avoided on the way to the node, and whatever is an
ancestor lies on every way that is not longer than the number of rounds. After as many rounds as
there are nodes, the ancestors of a node are what all ways to it have in common.
-/

namespace MethodFlow

/-- The nodes on the way from `start` along `next`, first to last. -/
inductive Trail {α : Type} (next : α → α → Prop) (start : α) : List α → α → Prop
  | start : Trail next start [start] start
  | extend {path : List α} {b c : α} :
    Trail next start path b → next b c → Trail next start (path ++ [c]) c

namespace Trail

variable {α : Type} {next : α → α → Prop} {start b c : α} {path : List α}

theorem start_mem (h : Trail next start path b) : start ∈ path := by
  induction h with
  | start => simp
  | extend _ _ ih => exact List.mem_append_left _ ih

theorem end_mem (h : Trail next start path b) : b ∈ path := by
  cases h <;> simp

theorem getLast?_eq (h : Trail next start path b) : path.getLast? = some b := by
  cases h <;> simp

theorem length_pos (h : Trail next start path b) : 0 < path.length :=
  List.length_pos_of_mem h.end_mem

/-- A node on the way splits off a way to itself. -/
theorem cut (h : Trail next start path b) (hc : c ∈ path) :
    ∃ first, Trail next start first c ∧ first <+: path := by
  induction h with
  | start =>
    rw [List.mem_singleton.1 hc]
    exact ⟨[start], .start, List.prefix_refl _⟩
  | @extend path b d hpath hd ih =>
    rcases List.mem_append.1 hc with hc | hc
    · obtain ⟨first, hfirst, hpre⟩ := ih hc
      exact ⟨first, hfirst, hpre.trans (List.prefix_append _ _)⟩
    · rw [List.mem_singleton.1 hc]
      exact ⟨path ++ [d], .extend hpath hd, List.prefix_refl _⟩

/-- A way can be shortened until it meets no node twice. -/
theorem exists_nodup (h : Trail next start path b) :
    ∃ short, Trail next start short b ∧ short.Nodup ∧ ∀ x ∈ short, x ∈ path := by
  induction h with
  | start => exact ⟨[start], .start, by simp, by simp⟩
  | @extend path b d hpath hd ih =>
    obtain ⟨short, hshort, nodup, hsub⟩ := ih
    by_cases hmem : d ∈ short
    · obtain ⟨first, hfirst, hpre⟩ := hshort.cut hmem
      refine ⟨first, hfirst, nodup.sublist hpre.sublist, fun x hx => ?_⟩
      exact List.mem_append_left _ (hsub x (hpre.subset hx))
    · refine ⟨short ++ [d], .extend hshort hd, ?_, ?_⟩
      · exact List.nodup_append.2 ⟨nodup, by simp, by
          rintro x hx y hy rfl
          exact hmem (List.mem_singleton.1 hy ▸ hx)⟩
      · intro x hx
        rcases List.mem_append.1 hx with hx | hx
        · exact List.mem_append_left _ (hsub x hx)
        · exact List.mem_append_right _ hx

theorem exists_before (h : Trail next start path b) (hne : b ≠ start) :
    ∃ before c, Trail next start before c ∧ next c b ∧ b ∉ before ∧ ∀ x ∈ before, x ∈ path := by
  obtain ⟨short, hshort, nodup, hsub⟩ := h.exists_nodup
  cases hshort with
  | start => exact absurd rfl hne
  | @extend before c _ hbefore hc =>
    refine ⟨before, c, hbefore, hc, fun hmem => ?_, fun x hx => hsub x (List.mem_append_left _ hx)⟩
    exact (List.nodup_append.1 nodup).2.2 b hmem b (by simp) rfl

end Trail

namespace Parents

variable {p : Parents}

/-- The node has a parent. -/
def Known (p : Parents) (n : Nat) : Prop := (p.parent? n).isSome

/-- `x` is `n` or an ancestor of it. -/
inductive Above (p : Parents) (x : Nat) : Nat → Prop
  | refl : Above p x x
  | step {m n : Nat} : p.parent? n = some m → Above p x m → Above p x n

/-- Node zero is its own parent, and any other parent has a parent and a smaller number. -/
structure Rooted (p : Parents) : Prop where
  root : p.parent? 0 = some 0
  descends : ∀ {n m : Nat}, 0 < n → p.parent? n = some m → m < n
  known : ∀ {n m : Nat}, p.parent? n = some m → p.Known m

theorem Known.exists (h : p.Known n) : ∃ m, p.parent? n = some m := Option.isSome_iff_exists.1 h

theorem known_of_parent {n m : Nat} (h : p.parent? n = some m) : p.Known n := by simp [Known, h]

namespace Above

theorem le (rooted : p.Rooted) {x n : Nat} (h : Above p x n) : x ≤ n := by
  induction h with
  | refl => exact Nat.le_refl x
  | @step m n hm _ ih =>
    rcases Nat.eq_zero_or_pos n with rfl | hn
    · rw [rooted.root] at hm
      exact (Option.some.inj hm).symm ▸ ih
    · exact Nat.le_trans ih (Nat.le_of_lt (rooted.descends hn hm))

theorem known (rooted : p.Rooted) {x n : Nat} (h : Above p x n) (hn : p.Known n) : p.Known x := by
  induction h with
  | refl => exact hn
  | step hm _ ih => exact ih (rooted.known hm)

/-- Above a node lie the node itself and what is above its parent. -/
theorem iff_parent {x n m : Nat} (h : p.parent? n = some m) :
    Above p x n ↔ x = n ∨ Above p x m := by
  constructor
  · intro hx
    cases hx with
    | refl => exact .inl rfl
    | step hm hx => exact .inr (Option.some.inj (h.symm.trans hm) ▸ hx)
  · rintro (rfl | hx)
    · exact .refl
    · exact .step h hx

theorem zero_iff (rooted : p.Rooted) {x : Nat} : Above p x 0 ↔ x = 0 :=
  ⟨fun h => Nat.le_zero.1 (h.le rooted), fun h => h ▸ .refl⟩

end Above

/-- The nodes above a meet are those above both nodes. -/
theorem above_meet (rooted : p.Rooted) {a b : Nat} (ha : p.Known a) (hb : p.Known b) (x : Nat) :
    Above p x (p.meet a b) ↔ Above p x a ∧ Above p x b := by
  fun_induction meet p a b with
  | case1 a => simp
  | case2 a b hne hlt c hc hdown ih =>
    rw [ih (rooted.known hc) hb, Above.iff_parent hc, and_congr_left_iff]
    intro hxb
    have := hxb.le rooted
    exact ⟨.inr, fun h => h.resolve_left (by omega)⟩
  | case3 a b hne hlt c hc hup => exact absurd (rooted.descends (by omega) hc) hup
  | case4 a b hne hlt hnone => simp [Known, hnone] at ha
  | case5 a b hne hle c hc hdown ih =>
    rw [ih ha (rooted.known hc), Above.iff_parent hc, and_congr_right_iff]
    intro hxa
    have := hxa.le rooted
    exact ⟨.inr, fun h => h.resolve_left (by omega)⟩
  | case6 a b hne hle c hc hup => exact absurd (rooted.descends (by omega) hc) hup
  | case7 a b hne hle hnone => simp [Known, hnone] at hb

/-- The result names what lies above all of the nodes; there is none if there are no nodes. -/
def Common (p : Parents) (nodes : List Nat) : Option Nat → Prop
  | none => nodes = []
  | some q => ∀ x, Above p x q ↔ ∀ a ∈ nodes, Above p x a

def agreeWith (p : Parents) (found : Option Nat) (n : Nat) : Option Nat :=
  if (p.parent? n).isNone then found
  else
    match found with
    | none => some n
    | some m => some (p.meet n m)

theorem common_foldl (rooted : p.Rooted) (preds : List Nat) (found : Option Nat)
    (hfound : ∀ m ∈ found, p.Known m) :
    Common p (found.toList ++ preds.filter fun n => (p.parent? n).isSome)
      (preds.foldl (agreeWith p) found) := by
  induction preds generalizing found with
  | nil => cases found <;> simp [Common]
  | cons a rest ih =>
    rw [List.foldl_cons]
    cases hpar : p.parent? a with
    | none =>
      have hstep : agreeWith p found a = found := by simp [agreeWith, hpar]
      rw [hstep, List.filter_cons_of_neg (by simp [hpar])]
      exact ih found hfound
    | some c =>
      have ha : p.Known a := known_of_parent hpar
      rw [List.filter_cons_of_pos (by simp [hpar])]
      cases found with
      | none =>
        have hstep : agreeWith p none a = some a := by simp [agreeWith, hpar]
        rw [hstep]
        exact ih (some a) (by simpa using ha)
      | some m =>
        have hmeet := above_meet rooted ha (hfound m rfl)
        have hstep : agreeWith p (some m) a = some (p.meet a m) := by simp [agreeWith, hpar]
        rw [hstep]
        have hrest := ih (some (p.meet a m)) (by
          simpa using (((hmeet _).1 .refl).1).known rooted ha)
        cases hres : rest.foldl (agreeWith p) (some (p.meet a m)) with
        | none => simp [hres, Common] at hrest
        | some q =>
          rw [hres] at hrest
          intro x
          rw [hrest x]
          simp only [Option.toList_some, List.singleton_append, List.forall_mem_cons, hmeet]
          exact ⟨fun h => ⟨h.1.2, h.1.1, h.2⟩, fun h => ⟨⟨h.2.1, h.1⟩, h.2.2⟩⟩

theorem above_agreed (rooted : p.Rooted) {preds : List Nat} {q : Nat}
    (h : p.agreed preds = some q) (x : Nat) :
    Above p x q ↔ ∀ a ∈ preds, p.Known a → Above p x a := by
  have hcommon := common_foldl rooted preds none (by simp)
  change Common p _ (p.agreed preds) at hcommon
  rw [h] at hcommon
  simpa [Known] using hcommon x

theorem exists_agreed (rooted : p.Rooted) {preds : List Nat} {a : Nat} (ha : a ∈ preds)
    (known : p.Known a) : ∃ q, p.agreed preds = some q := by
  cases h : p.agreed preds with
  | some q => exact ⟨q, rfl⟩
  | none =>
    have hcommon := common_foldl rooted preds none (by simp)
    change Common p _ (p.agreed preds) at hcommon
    rw [h] at hcommon
    have hmem : a ∈ preds.filter fun n => (p.parent? n).isSome := by
      rw [List.mem_filter]
      exact ⟨ha, known⟩
    simp only [Common, Option.toList_none, List.nil_append] at hcommon
    rw [hcommon] at hmem
    simp at hmem

theorem parent?_setIfInBounds {n m : Nat} (hn : n < p.size) (k : Nat) :
    Parents.parent? (p.setIfInBounds n (some m)) k = if k = n then some m else p.parent? k := by
  simp only [parent?, Array.getElem?_setIfInBounds]
  by_cases hk : k = n
  · subst hk
    simp [hn]
  · simp [hk, Ne.symm hk]

/-- Nodes are numbered from zero, and each but zero has a predecessor with a smaller number. -/
structure Numbered (preds : Nat → List Nat) (count : Nat) : Prop where
  positive : 0 < count
  bound : ∀ {n a : Nat}, a ∈ preds n → a < count ∧ n < count
  earlier : ∀ {n : Nat}, 0 < n → n < count → ∃ a ∈ preds n, a < n

variable {preds : Nat → List Nat}

/-- A way from node zero against the lists of predecessors. -/
abbrev Way (preds : Nat → List Nat) : List Nat → Nat → Prop := Trail (fun a n => a ∈ preds n) 0

/-- A tree under construction is right up to ways of some length, which `reach` gives for each
node. -/
structure Approximates (preds : Nat → List Nat) (reach : Nat → Nat) (p : Parents) : Prop where
  rooted : p.Rooted
  /-- A way to the parent goes on to the node and meets no smaller numbers then. -/
  lifts : ∀ {n q : Nat}, 0 < n → p.parent? n = some q → ∀ {path : List Nat}, Way preds path q →
    ∃ long, Way preds long n ∧ ∀ y ∈ long, y ∈ path ∨ q ≤ y
  /-- Whatever is not above a node can be avoided. -/
  avoids : ∀ {n x : Nat}, p.Known n → ¬ Above p x n → ∃ path, Way preds path n ∧ x ∉ path
  /-- Whatever is above a node lies on every way within reach. -/
  meets : ∀ {path : List Nat} {n : Nat}, Way preds path n → path.length ≤ reach n →
    p.Known n ∧ ∀ {x : Nat}, Above p x n → x ∈ path

namespace Approximates

variable {reach : Nat → Nat}

theorem lifts_above (h : Approximates preds reach p) {m n : Nat} (hmn : Above p m n)
    {path : List Nat} (hpath : Way preds path m) :
    ∃ long, Way preds long n ∧ ∀ y ∈ long, y ∈ path ∨ m ≤ y := by
  induction hmn with
  | refl => exact ⟨path, hpath, fun y hy => .inl hy⟩
  | @step k n hk hmk ih =>
    obtain ⟨mid, hmid, hsmall⟩ := ih
    rcases Nat.eq_zero_or_pos n with rfl | hn
    · rw [h.rooted.root] at hk
      obtain rfl := Option.some.inj hk
      exact ⟨mid, hmid, hsmall⟩
    · obtain ⟨long, hlong, hsmall'⟩ := h.lifts hn hk hmid
      have hle := hmk.le h.rooted
      refine ⟨long, hlong, fun y hy => ?_⟩
      rcases hsmall' y hy with hy | hy
      · exact hsmall y hy
      · exact .inr (Nat.le_trans hle hy)

end Approximates

/-- The tree before the first round is right for the way that does not leave node zero. -/
theorem approximates_initial {count : Nat} (hcount : 0 < count) :
    Approximates preds (fun _ => 1) (initial count) := by
  have hpar (k : Nat) : (initial count).parent? k = if k = 0 then some 0 else none := by
    rw [initial, parent?_setIfInBounds (by simpa using hcount)]
    split
    · rfl
    · simp only [parent?, Array.getElem?_replicate]
      split <;> rfl
  have rooted : (initial count).Rooted :=
    { root := by simp [hpar]
      descends := fun {n m} hn hm => by simp [hpar, Nat.ne_of_gt hn] at hm
      known := fun {n m} hm => by
        have : m = 0 := by
          rw [hpar] at hm
          split at hm
          · exact (Option.some.inj hm).symm
          · simp at hm
        simp [Known, hpar, this] }
  refine ⟨rooted, ?_, ?_, ?_⟩
  · intro n q hn hq
    simp [hpar, Nat.ne_of_gt hn] at hq
  · intro n x hn hx
    have hzero : n = 0 := by
      by_contra hne
      simp [Known, hpar, hne] at hn
    subst hzero
    refine ⟨[0], .start, fun hmem => hx ?_⟩
    rw [List.mem_singleton.1 hmem]
    exact .refl
  · intro path n hpath hlen
    cases hpath with
    | start =>
      refine ⟨by simp [Known, hpar], fun {x} hx => ?_⟩
      simp [(Above.zero_iff rooted).1 hx]
    | extend hfirst _ =>
      have := hfirst.length_pos
      rw [List.length_append, List.length_singleton] at hlen
      omega

/-- One node is given its agreed parent. -/
structure Refines (preds : Nat → List Nat) (n : Nat) (p p' : Parents) (q : Nat) : Prop where
  agreed : p.agreed (preds n) = some q
  lt : q < n
  parent : ∀ k, p'.parent? k = if k = n then some q else p.parent? k

theorem refines_refineAt {count n : Nat} (rooted : p.Rooted) (numbered : Numbered preds count)
    (hsize : p.size = count) (hn : 0 < n) (hlt : n < count) (hknown : ∀ i < n, p.Known i) :
    ∃ q, Refines preds n p (refineAt preds p n) q := by
  obtain ⟨a, ha, han⟩ := numbered.earlier hn hlt
  obtain ⟨q, hq⟩ := exists_agreed rooted ha (hknown a han)
  have hqa : Above p q a := (above_agreed rooted hq q).1 .refl a ha (hknown a han)
  refine ⟨q, hq, Nat.lt_of_le_of_lt (hqa.le rooted) han, fun k => ?_⟩
  simp only [refineAt, hq]
  exact parent?_setIfInBounds (hsize ▸ hlt) k

namespace Refines

variable {p' : Parents} {n q : Nat} {reach : Nat → Nat}

theorem known (h : Refines preds n p p' q) {k : Nat} (hk : p.Known k) : p'.Known k := by
  unfold Known at hk ⊢
  rw [h.parent]
  split
  · rfl
  · exact hk

theorem known_self (h : Refines preds n p p' q) : p'.Known n := by simp [Known, h.parent]

theorem rooted (h : Refines preds n p p' q) (hp : p.Rooted) (hknown : ∀ i < n, p.Known i) :
    p'.Rooted where
  root := by
    have := h.lt
    rw [h.parent, if_neg (by omega), hp.root]
  descends := fun {k m} hk hm => by
    rw [h.parent] at hm
    split at hm
    case isTrue he =>
      rw [← Option.some.inj hm, he]
      exact h.lt
    case isFalse => exact hp.descends hk hm
  known := fun {k m} hm => by
    rw [h.parent] at hm
    split at hm
    case isTrue =>
      rw [← Option.some.inj hm]
      exact h.known (hknown q h.lt)
    case isFalse => exact h.known (hp.known hm)

theorem above_of_lt (h : Refines preds n p p' q) (hp : p.Rooted) {x k : Nat} (hk : k < n) :
    Above p' x k ↔ Above p x k := by
  constructor <;> intro hx
  · induction hx with
    | refl => exact .refl
    | @step m k hm hxm ih =>
      rw [h.parent, if_neg (Nat.ne_of_lt hk)] at hm
      rcases Nat.eq_zero_or_pos k with rfl | hpos
      · rw [hp.root] at hm
        exact .step hp.root (Option.some.inj hm ▸ ih (Option.some.inj hm ▸ hk))
      · exact .step hm (ih (Nat.lt_trans (hp.descends hpos hm) hk))
  · induction hx with
    | refl => exact .refl
    | @step m k hm hxm ih =>
      have hm' : p'.parent? k = some m := by rw [h.parent, if_neg (Nat.ne_of_lt hk), hm]
      rcases Nat.eq_zero_or_pos k with rfl | hpos
      · rw [hp.root] at hm
        exact .step hm' (ih (Option.some.inj hm ▸ hk))
      · exact .step hm' (ih (Nat.lt_trans (hp.descends hpos hm) hk))

theorem above_self (h : Refines preds n p p' q) (hp : p.Rooted) {x : Nat} :
    Above p' x n ↔ x = n ∨ ∀ a ∈ preds n, p.Known a → Above p x a := by
  rw [Above.iff_parent (m := q) (by rw [h.parent, if_pos rfl]), h.above_of_lt hp h.lt,
    above_agreed hp h.agreed]

theorem above_cases (h : Refines preds n p p' q) {x k : Nat} (hx : Above p' x k) :
    Above p x k ∨ (Above p n k ∧ Above p' x n) := by
  induction hx with
  | refl => exact .inl .refl
  | @step m k hm hxm ih =>
    by_cases hkn : k = n
    · subst hkn
      exact .inr ⟨.refl, .step hm hxm⟩
    · rw [h.parent, if_neg hkn] at hm
      exact ih.imp (.step hm) (And.imp_left (.step hm))

theorem above_lost (h : Refines preds n p p' q) {x k : Nat} (hx : Above p x k)
    (hlost : ¬ Above p' x k) : Above p n k ∧ Above p x n ∧ ¬ Above p' x n := by
  induction hx with
  | refl => exact absurd .refl hlost
  | @step m k hm hxm ih =>
    by_cases hkn : k = n
    · subst hkn
      exact ⟨.refl, .step hm hxm, hlost⟩
    · have hm' : p'.parent? k = some m := by rw [h.parent, if_neg hkn, hm]
      obtain ⟨h₁, h₂⟩ := ih fun h' => hlost (.step hm' h')
      exact ⟨.step hm h₁, h₂⟩

theorem avoids_self (h : Refines preds n p p' q) (hp : Approximates preds reach p) {x : Nat}
    (hx : ¬ Above p' x n) : ∃ path, Way preds path n ∧ x ∉ path := by
  rw [h.above_self hp.rooted, not_or] at hx
  obtain ⟨hne, hx⟩ := hx
  push Not at hx
  obtain ⟨a, ha, hknown, hxa⟩ := hx
  obtain ⟨path, hpath, hmem⟩ := hp.avoids hknown hxa
  exact ⟨path ++ [n], .extend hpath ha, by simp [hmem, hne]⟩

section

variable (h : Refines preds n p p' q) (hp : Approximates preds reach p)

include h hp

theorem exists_known : ∃ c ∈ preds n, p.Known c := by
  by_contra hnone
  push Not at hnone
  have hall : ∀ x, Above p x q := fun x =>
    (above_agreed hp.rooted h.agreed x).2 fun a ha hka => absurd hka (hnone a ha)
  have := (hall (q + 1)).le hp.rooted
  omega

theorem lifts {k r : Nat} (hk : 0 < k) (hr : p'.parent? k = some r) {path : List Nat}
    (hpath : Way preds path r) : ∃ long, Way preds long k ∧ ∀ y ∈ long, y ∈ path ∨ r ≤ y := by
  rw [h.parent] at hr
  split at hr
  case isFalse => exact hp.lifts hk hr hpath
  case isTrue he =>
    subst he
    obtain rfl := Option.some.inj hr
    obtain ⟨c, hc, hknown⟩ := h.exists_known hp
    have hqc := (above_agreed hp.rooted h.agreed q).1 .refl c hc hknown
    obtain ⟨long, hlong, hsmall⟩ := hp.lifts_above hqc hpath
    refine ⟨long ++ [k], .extend hlong hc, fun y hy => ?_⟩
    rcases List.mem_append.1 hy with hy | hy
    · exact hsmall y hy
    · exact .inr (List.mem_singleton.1 hy ▸ Nat.le_of_lt h.lt)

/-- Whatever is not above a node can be avoided still. -/
theorem avoids {k x : Nat} (hk : p'.Known k) (hx : ¬ Above p' x k) :
    ∃ path, Way preds path k ∧ x ∉ path := by
  by_cases hold : Above p x k
  · obtain ⟨hnk, hxn, hlost⟩ := h.above_lost hold hx
    obtain ⟨path, hpath, hmem⟩ := h.avoids_self hp hlost
    obtain ⟨long, hlong, hsmall⟩ := hp.lifts_above hnk hpath
    refine ⟨long, hlong, fun hxl => ?_⟩
    -- The way that goes on from the changed node meets numbers from `n` on, and `x` is smaller.
    have hlt : x < n := Nat.lt_of_le_of_ne (hxn.le hp.rooted) fun he => hlost (he ▸ .refl)
    exact (hsmall x hxl).elim hmem (by omega)
  · by_cases hkn : k = n
    · subst hkn
      exact h.avoids_self hp hx
    · refine hp.avoids ?_ hold
      unfold Known at hk ⊢
      rwa [h.parent, if_neg hkn] at hk

/-- On a way to the node all is right one step further than on the ways to its predecessors. -/
theorem meets_self (hn : 0 < n) {j : Nat} (hreach : ∀ a, j ≤ reach a) {path : List Nat}
    (hpath : Way preds path n) (hlen : path.length ≤ j + 1) {x : Nat} (hx : Above p' x n) :
    x ∈ path := by
  cases hpath with
  | start => omega
  | @extend first a _ hfirst ha =>
    rw [List.length_append, List.length_singleton] at hlen
    obtain ⟨hka, hmeet⟩ := hp.meets hfirst (Nat.le_trans (Nat.le_of_succ_le_succ hlen) (hreach a))
    rcases (h.above_self hp.rooted).1 hx with rfl | hx
    · simp
    · exact List.mem_append_left _ (hmeet (hx a ha hka))

end

/-- The change makes one more step of the ways to the node right. -/
theorem approximates (h : Refines preds n p p' q) (hn : 0 < n) {j : Nat}
    (hp : Approximates preds (fun k => if k < n then j + 1 else j) p)
    (hknown : ∀ i < n, p.Known i) :
    Approximates preds (fun k => if k < n + 1 then j + 1 else j) p' := by
  have hself {path : List Nat} (hpath : Way preds path n) (hlen : path.length ≤ j + 1) {x : Nat}
      (hx : Above p' x n) : x ∈ path :=
    h.meets_self hp hn (fun a => by split <;> omega) hpath hlen hx
  refine ⟨h.rooted hp.rooted hknown, h.lifts hp, h.avoids hp, ?_⟩
  intro path k hpath hlen
  rcases Nat.lt_trichotomy k n with hlt | rfl | hgt
  · simp only [Nat.lt_succ_of_lt hlt, ↓reduceIte] at hlen
    obtain ⟨hk, hmeet⟩ := hp.meets hpath (by simpa [hlt] using hlen)
    exact ⟨h.known hk, fun hx => hmeet ((h.above_of_lt hp.rooted hlt).1 hx)⟩
  · simp only [Nat.lt_succ_self, ↓reduceIte] at hlen
    exact ⟨h.known_self, hself hpath hlen⟩
  · have hbig : ¬ k < n + 1 := by omega
    simp only [hbig, ↓reduceIte] at hlen
    obtain ⟨hk, hmeet⟩ := hp.meets hpath (by simpa [Nat.lt_asymm hgt] using hlen)
    refine ⟨h.known hk, fun hx => ?_⟩
    rcases h.above_cases hx with hx | ⟨hnk, hx⟩
    · exact hmeet hx
    · -- The way passes the changed node, and its part up to there is short enough.
      obtain ⟨first, hfirst, hpre⟩ := hpath.cut (hmeet hnk)
      exact hpre.subset (hself hfirst (Nat.le_trans hpre.length_le (by omega)) hx)

end Refines

@[simp] theorem size_refineAt (preds : Nat → List Nat) (p : Parents) (n : Nat) :
    (refineAt preds p n).size = p.size := by
  unfold refineAt
  split <;> simp

@[simp] theorem size_refine (preds : Nat → List Nat) (p : Parents) :
    (p.refine preds).size = p.size := by
  unfold refine
  generalize List.range' 1 (p.size - 1) = nodes
  induction nodes generalizing p with
  | nil => rfl
  | cons n rest ih => rw [List.foldl_cons, ih, size_refineAt]

theorem approximates_foldl {count j : Nat} (numbered : Numbered preds count) :
    ∀ (length first : Nat) (p : Parents), p.size = count → 0 < first → first + length = count →
      (∀ i < first, p.Known i) →
      Approximates preds (fun k => if k < first then j + 1 else j) p →
      Approximates preds (fun k => if k < count then j + 1 else j)
        ((List.range' first length).foldl (refineAt preds) p) ∧
      ∀ i < count, ((List.range' first length).foldl (refineAt preds) p).Known i := by
  intro length
  induction length with
  | zero =>
    intro first p hsize hfirst hend hknown hp
    rw [Nat.add_zero] at hend
    subst hend
    exact ⟨hp, fun i hi => hknown i (by omega)⟩
  | succ length ih =>
    intro first p hsize hfirst hend hknown hp
    obtain ⟨q, h⟩ := refines_refineAt hp.rooted numbered hsize hfirst (by omega) hknown
    rw [List.range'_succ, List.foldl_cons]
    apply ih (first + 1) _ (by simpa using hsize) (by omega) (by omega)
    · intro i hi
      rcases Nat.lt_succ_iff_lt_or_eq.1 hi with hi | rfl
      · exact h.known (hknown i hi)
      · exact h.known_self
    · exact h.approximates hfirst hp hknown

/-- A round makes one more step of all ways right, and then every node has a parent. -/
theorem approximates_refine {count j : Nat} (numbered : Numbered preds count)
    (hsize : p.size = count) (hp : Approximates preds (fun _ => j) p) :
    Approximates preds (fun _ => j + 1) (p.refine preds) ∧
      ∀ i < count, (p.refine preds).Known i := by
  have hstart : Approximates preds (fun k => if k < 1 then j + 1 else j) p := by
    refine ⟨hp.rooted, hp.lifts, hp.avoids, fun {path n} hpath hlen => ?_⟩
    by_cases hn : n < 1
    · obtain rfl : n = 0 := by omega
      refine ⟨known_of_parent hp.rooted.root, fun hx => ?_⟩
      rw [(Above.zero_iff hp.rooted).1 hx]
      exact hpath.start_mem
    · exact hp.meets hpath (by simpa [hn] using hlen)
  obtain ⟨happrox, hknown⟩ := approximates_foldl numbered (p.size - 1) 1 p hsize (by omega)
    (by have := numbered.positive; omega)
    (fun i hi => by
      obtain rfl : i = 0 := by omega
      exact known_of_parent hp.rooted.root) hstart
  refine ⟨⟨happrox.rooted, happrox.lifts, happrox.avoids, fun {path n} hpath hlen => ?_⟩, hknown⟩
  have hbound : n < count := by
    cases hpath with
    | start => exact numbered.positive
    | extend _ hb => exact (numbered.bound hb).2
  exact happrox.meets hpath (by simpa only [hbound, ↓reduceIte] using hlen)

/-- Stopping at a round that changes nothing is the same as going on. -/
theorem settle_eq_iterate (preds : Nat → List Nat) (rounds : Nat) (p : Parents) :
    settle preds rounds p = (refine preds)^[rounds] p := by
  induction rounds generalizing p with
  | zero => rfl
  | succ rounds ih =>
    simp only [settle]
    split
    case isTrue hfix => rw [Function.iterate_fixed hfix]
    case isFalse => rw [ih, Function.iterate_succ_apply]

/-- After as many rounds as there are nodes, the nodes above a node are those on all ways to it. -/
theorem above_iterate_iff {count rounds : Nat} (numbered : Numbered preds count)
    (hrounds : count ≤ rounds) {n : Nat} (hn : n < count) :
    let q := (refine preds)^[rounds] (initial count)
    q.Rooted ∧ q.Known n ∧ ∀ x, Above q x n ↔ ∀ path, Way preds path n → x ∈ path := by
  have hall : ∀ k, ((refine preds)^[k] (initial count)).size = count ∧
      Approximates preds (fun _ => k + 1) ((refine preds)^[k] (initial count)) ∧
      (0 < k → ∀ i < count, ((refine preds)^[k] (initial count)).Known i) := by
    intro k
    induction k with
    | zero => exact ⟨by simp [initial], approximates_initial numbered.positive, by simp⟩
    | succ k ih =>
      obtain ⟨hsize, happrox, _⟩ := ih
      rw [Function.iterate_succ_apply']
      obtain ⟨hnext, hknown⟩ := approximates_refine numbered hsize happrox
      exact ⟨by simpa using hsize, hnext, fun _ => hknown⟩
  intro q
  obtain ⟨_, happrox, hknown⟩ := hall rounds
  have hkn : q.Known n := hknown (by have := numbered.positive; omega) n hn
  refine ⟨happrox.rooted, hkn, fun x => ⟨fun hx path hpath => ?_, fun h => ?_⟩⟩
  · obtain ⟨short, hshort, nodup, hsub⟩ := hpath.exists_nodup
    have hlt : ∀ y ∈ short, y < count := by
      intro y hy
      obtain ⟨first, hfirst, _⟩ := hshort.cut hy
      cases hfirst with
      | start => exact numbered.positive
      | extend _ hb => exact (numbered.bound hb).2
    have hlen : short.length ≤ count := by
      have hsubset : short ⊆ List.range count := fun y hy => List.mem_range.2 (hlt y hy)
      simpa using (nodup.subperm hsubset).length_le
    exact hsub x ((happrox.meets hshort (by omega)).2 hx)
  · by_contra hx
    obtain ⟨path, hpath, hmem⟩ := happrox.avoids hkn hx
    exact hmem (h path hpath)

end Parents

end MethodFlow
