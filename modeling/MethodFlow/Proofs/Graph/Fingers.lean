import MethodFlow.Graph.Fingers
import MethodFlow.Proofs.Graph.Dominance

/-!
Dominators by two fingers against rounds of refinement. While the array is built, every node has a
parent with a smaller number, so a finger that moves up gets to a smaller number, and it gets to the
entry before it could get to a node without a parent. Each round does to the array what a round of
refinement does, and rounds of refinement change nothing any more once there were as many as there
are nodes.
-/

namespace MethodFlow

namespace Parents

variable {p p' : Parents} {preds : Nat → List Nat} {count : Nat}

theorem Above.trans {x m n : Nat} (h : Above p x m) (hmn : Above p m n) : Above p x n := by
  induction hmn with
  | refl => exact h
  | step hk _ ih => exact .step hk ih

/-- Nodes with the same nodes above them are the same. -/
theorem eq_of_above_iff (rooted : p.Rooted) {m n : Nat} (h : ∀ x, Above p x m ↔ Above p x n) :
    m = n :=
  Nat.le_antisymm (((h m).1 .refl).le rooted) (((h n).2 .refl).le rooted)

theorem parent?_eq_none {n : Nat} (h : p.size ≤ n) : p.parent? n = none := by
  rw [parent?, Array.getElem?_eq_none h]
  rfl

theorem parent?_replicate (count n : Nat) :
    Parents.parent? (Array.replicate count none) n = none := by
  rw [parent?, Array.getElem?_replicate]
  split <;> rfl

theorem Known.lt_size {n : Nat} (h : p.Known n) : n < p.size := by
  by_contra hout
  simp [Known, parent?_eq_none (Nat.not_lt.1 hout)] at h

theorem eq_of_parent? (hsize : p.size = p'.size) (h : ∀ n, p.parent? n = p'.parent? n) :
    p = p' := by
  refine Array.ext hsize fun n hn hn' => ?_
  simpa [parent?, hn, hn'] using h n

theorem known_agreeWith (rooted : p.Rooted) (ns : List Nat) (found : Option Nat)
    (hfound : ∀ m ∈ found, p.Known m) : ∀ m ∈ ns.foldl (agreeWith p) found, p.Known m := by
  induction ns generalizing found with
  | nil => exact hfound
  | cons n rest ih =>
    refine ih _ fun m hm => ?_
    unfold agreeWith at hm
    cases hn : p.parent? n with
    | none => exact hfound m (by simpa [hn] using hm)
    | some q =>
      have hknown : p.Known n := known_of_parent hn
      cases found with
      | none => rwa [← show n = m by simpa [hn] using hm]
      | some current =>
        rw [← show p.meet n current = m by simpa [hn] using hm]
        have hmeet := above_meet rooted hknown (hfound current rfl)
        exact ((hmeet _).1 .refl).1.known rooted hknown

/-- A change to a node that was as in `r` does not lead back to `r`. -/
theorem Refines.eq_iff {n q : Nat} (h : Refines preds n p p' q) {r : Parents}
    (hsize : p.size = r.size) (hr : p.parent? n = r.parent? n) : p' = r ↔ p = r ∧ p' = p := by
  constructor
  · rintro rfl
    have hsame : p = p' := eq_of_parent? hsize fun k => by
      by_cases hk : k = n
      · rw [hk, hr]
      · rw [h.parent, if_neg hk]
    exact ⟨hsame, hsame.symm⟩
  · rintro ⟨rfl, hsame⟩
    exact hsame

theorem size_iterate_refine (rounds : Nat) :
    ((refine preds)^[rounds] (initial count)).size = count := by
  induction rounds with
  | zero => simp [initial]
  | succ rounds ih => rw [Function.iterate_succ_apply', size_refine, ih]

/-- The parent of a node is the greatest number that is above the node and differs from it. -/
theorem parent_le_parent (rooted : p.Rooted) (rooted' : p'.Rooted) {n m m' : Nat} (hn : 0 < n)
    (hm : p.parent? n = some m) (hm' : p'.parent? n = some m') (h : p.Above m n → p'.Above m n) :
    m ≤ m' := by
  have hlt := rooted.descends hn hm
  have habove := (Above.iff_parent hm').1 (h (.step hm .refl))
  exact (habove.resolve_left (Nat.ne_of_lt hlt)).le rooted'

/-- After as many rounds as there are nodes, a round changes nothing. -/
theorem refine_iterate_of_le (numbered : Numbered preds count) {rounds : Nat}
    (hrounds : count ≤ rounds) :
    (refine preds)^[rounds + 1] (initial count) = (refine preds)^[rounds] (initial count) := by
  have hsize (k : Nat) : ((refine preds)^[k] (initial count)).size = count := size_iterate_refine k
  refine eq_of_parent? ((hsize _).trans (hsize _).symm) fun n => ?_
  by_cases hn : n < count
  · obtain ⟨rooted, known, habove⟩ := above_iterate_iff numbered hrounds hn
    obtain ⟨rooted', known', habove'⟩ := above_iterate_iff numbered (Nat.le_succ_of_le hrounds) hn
    rcases Nat.eq_zero_or_pos n with rfl | hpos
    · rw [rooted.root, rooted'.root]
    · obtain ⟨m, hm⟩ := known.exists
      obtain ⟨m', hm'⟩ := known'.exists
      have hle := parent_le_parent rooted rooted' hpos hm hm' fun h =>
        (habove' m).2 ((habove m).1 h)
      have hge := parent_le_parent rooted' rooted hpos hm' hm fun h =>
        (habove m').2 ((habove' m').1 h)
      rw [hm, hm', Nat.le_antisymm hge hle]
  · have hout (k : Nat) : ((refine preds)^[k] (initial count)).parent? n = none :=
      parent?_eq_none ((hsize k).trans_le (Nat.not_lt.1 hn))
    rw [hout, hout]

end Parents

namespace Idoms

open Parents

/-- The parents by node, for nodes that have their numbers in `order`. -/
def ofParents (count : Nat) (order : List BlockId) (p : Parents) : Idoms :=
  ((List.range count).map fun i =>
    (order.idxOf? ⟨i⟩).bind fun n => (p.parent? n).bind (order[·]?)).toArray

def parent? (idom : Idoms) (b : BlockId) : Option BlockId := idom[b.index]?.join

inductive OnChain (idom : Idoms) (x : BlockId) : BlockId → Prop
  | self : OnChain idom x x
  | up {b d : BlockId} : idom.parent? b = some d → OnChain idom x d → OnChain idom x b

/-- `c` is on both chains, and whatever is on both of them is on its own. -/
structure NearestCommon (idom : Idoms) (a b c : BlockId) : Prop where
  first : idom.OnChain c a
  second : idom.OnChain c b
  nearest : ∀ x, idom.OnChain x a → idom.OnChain x b → idom.OnChain x c

/-- When it is looked for what the nodes in `preds` agree on, fingers are put on `pred` and
`current`. -/
def Compares (numbers : Array Nat) (idom : Idoms) (preds : List BlockId)
    (pred current : BlockId) : Prop :=
  ∃ before after, preds = before ++ pred :: after ∧ (idom.parent? pred).isSome = true ∧
    idom.agreed numbers before = .some (some current)

theorem look_eq_pure {α : Type} {table : Array α} {b : BlockId} {x : α}
    (h : table[b.index]? = some x) :
    look table b = pure x := by
  rw [look, h]
  rfl

theorem fix_eq_pure {σ α : Type} {step : σ → Part (α ⊕ σ)} {s : σ} {x : α}
    (h : step s = pure (.inl x)) :
    PFun.fix step s = pure x := Part.eq_some_iff.2 (PFun.fix_stop (h ▸ Part.mem_some _))

theorem fix_eq_fix {σ α : Type} {step : σ → Part (α ⊕ σ)} {s s' : σ} (h : step s = pure (.inr s')) :
    PFun.fix step s = PFun.fix step s' := PFun.fix_fwd_eq (h ▸ Part.mem_some _)

section notes

variable (table : Array Nat) {bs : List BlockId} {b c : BlockId}

theorem getElem?_note_of_ne (hc : c ≠ b) (k : Nat) :
    (note table (b, k))[c.index]? = table[c.index]? := by
  refine Array.getElem?_setIfInBounds_ne fun he => hc ?_
  cases b
  cases c
  exact congrArg _ he.symm

theorem foldl_note_of_not_mem (k : Nat) (hc : c ∉ bs) :
    ((bs.zipIdx k).foldl note table)[c.index]? = table[c.index]? := by
  induction bs generalizing k table with
  | nil => rfl
  | cons b rest ih =>
    obtain ⟨hcb, hc⟩ := not_or.1 (mt List.mem_cons.2 hc)
    rw [List.zipIdx_cons, List.foldl_cons, ih _ (k + 1) hc, getElem?_note_of_ne table hcb]

theorem getElem?_foldl_note (k : Nat) (nodup : bs.Nodup)
    (inside : ∀ c ∈ bs, c.index < table.size) {n : Nat}
    (hb : bs[n]? = some b) : ((bs.zipIdx k).foldl note table)[b.index]? = some (k + n) := by
  induction bs generalizing k table n with
  | nil => simp at hb
  | cons c rest ih =>
    obtain ⟨hc, nodup⟩ := List.nodup_cons.1 nodup
    rw [List.zipIdx_cons, List.foldl_cons]
    cases n with
    | zero =>
      obtain rfl : c = b := by simpa using hb
      rw [foldl_note_of_not_mem _ (k + 1) hc]
      exact Array.getElem?_setIfInBounds_self_of_lt (inside c List.mem_cons_self)
    | succ n =>
      have hsize : ∀ d ∈ rest, d.index < (note table (c, k)).size := fun d hd => by
        simpa [note] using inside d (List.mem_cons_of_mem _ hd)
      rw [ih _ (k + 1) nodup hsize hb, Nat.add_right_comm, Nat.add_assoc]

end notes

section numbered

variable {count : Nat} {order : List BlockId} (nodup : order.Nodup)
  (inside : ∀ b ∈ order, b.index < count)

theorem getElem?_ofParents (p : Parents) (b : BlockId) : (ofParents count order p)[b.index]? =
    if b.index < count then some ((order.idxOf? b).bind fun n => (p.parent? n).bind (order[·]?))
      else none := by
  simp only [ofParents, List.getElem?_toArray, List.getElem?_map]
  split
  · next hb => simp [hb]
  · next hb => simp [Nat.not_lt.1 hb]

include nodup inside

theorem getElem?_ofParents_of_getElem? (p : Parents) {n : Nat} {b : BlockId}
    (hb : order[n]? = some b) :
    (ofParents count order p)[b.index]? = some ((p.parent? n).bind (order[·]?)) := by
  rw [getElem?_ofParents, if_pos (inside b (List.mem_of_getElem? hb)),
    (Digraph.idxOf?_eq_some_iff_getElem? nodup).2 hb, Option.bind_some]

theorem parent?_ofParents_iff {p : Parents} {b d : BlockId} :
    (ofParents count order p).parent? b = some d ↔
    ∃ n m, order[n]? = some b ∧ p.parent? n = some m ∧ order[m]? = some d := by
  simp only [Idoms.parent?, getElem?_ofParents]
  constructor
  · intro h
    split at h
    · simp only [Option.join_some, Option.bind_eq_some_iff] at h
      obtain ⟨n, hn, m, hm, hd⟩ := h
      exact ⟨n, m, (Digraph.idxOf?_eq_some_iff_getElem? nodup).1 hn, hm, hd⟩
    · simp at h
  · rintro ⟨n, m, hb, hm, hd⟩
    rw [if_pos (inside b (List.mem_of_getElem? hb)),
      (Digraph.idxOf?_eq_some_iff_getElem? nodup).2 hb]
    simp [hm, hd]

theorem look_ofParents (p : Parents) {n m : Nat} {b c : BlockId} (hb : order[n]? = some b)
    (hm : p.parent? n = some m) (hc : order[m]? = some c) :
    look (ofParents count order p) b = pure (some c) :=
  look_eq_pure (by rw [getElem?_ofParents_of_getElem? nodup inside p hb, hm, Option.bind_some, hc])

theorem getElem?_numbers {n : Nat} {b : BlockId} (hb : order[n]? = some b) :
    (numbers count order)[b.index]? = some n := by
  have h := getElem?_foldl_note (Array.replicate count (UInt64.size - 1)) 0 nodup
    (by simpa using inside) hb
  rwa [Nat.zero_add] at h

theorem look_numbers {n : Nat} {b : BlockId} (hb : order[n]? = some b) :
    look (numbers count order) b = pure n := look_eq_pure (getElem?_numbers nodup inside hb)

theorem climb_eq {p : Parents} {limit n m : Nat} {other b c : BlockId}
    (hother : order[limit]? = some other)
    (hb : order[n]? = some b) (hm : p.parent? n = some m) (hc : order[m]? = some c) :
    climb (numbers count order) (ofParents count order p) other b =
      pure (if n ≤ limit then .inl (.ok b) else .inr c) := by
  rw [climb, look_numbers nodup inside hb, pure_bind, look_numbers nodup inside hother, pure_bind]
  split
  · rfl
  · rw [look_ofParents nodup inside p hb hm hc, pure_bind]

variable {p : Parents} (rooted : p.Rooted) (hsize : p.size = order.length)

include hsize

omit nodup inside in
theorem exists_getElem?_of_known {n : Nat} (hn : p.Known n) : ∃ b, order[n]? = some b :=
  ⟨_, List.getElem?_eq_getElem (hsize ▸ hn.lt_size)⟩

include rooted

/-- A finger moves up to the first node above it that has no greater number than the other
finger. -/
theorem lift_eq {limit n : Nat} {other b : BlockId} (hother : order[limit]? = some other)
    (hb : order[n]? = some b) (hn : p.Known n) : ∃ m c, order[m]? = some c ∧
      lift (numbers count order) (ofParents count order p) other b = pure (.ok c) ∧ p.Above m n ∧
      m ≤ limit ∧ (n ≤ limit → m = n) ∧ ∀ x ≤ limit, p.Above x n → p.Above x m := by
  induction n using Nat.strongRecOn generalizing b with
  | _ n ih =>
    obtain ⟨m, hm⟩ := hn.exists
    have hknown : p.Known m := rooted.known hm
    obtain ⟨c, hc⟩ := exists_getElem?_of_known hsize hknown
    have hstep := climb_eq nodup inside hother hb hm hc
    by_cases hle : n ≤ limit
    · rw [if_pos hle] at hstep
      exact ⟨n, b, hb, fix_eq_pure hstep, .refl, hle, fun _ => rfl, fun _ _ hx => hx⟩
    · rw [if_neg hle] at hstep
      have hlt : m < n := rooted.descends (by omega) hm
      obtain ⟨k, d, hd, hlift, hkm, hk, -, hrest⟩ := ih m hlt hc hknown
      refine ⟨k, d, hd, (fix_eq_fix hstep).trans hlift, .step hm hkm, hk, fun h => absurd h hle,
        fun x hx hxn => ?_⟩
      exact hrest x hx (((Above.iff_parent hm).1 hxn).resolve_left (by omega))

omit rooted in
theorem ofParents_setIfInBounds {n : Nat} {b : BlockId} (hb : order[n]? = some b) (m : Nat) :
    ofParents count order (p.setIfInBounds n (some m)) =
      (ofParents count order p).setIfInBounds b.index (order[m]?) := by
  have hn : n < p.size := hsize ▸ (List.getElem?_eq_some_iff.1 hb).1
  have hin : b.index < (ofParents count order p).size := by
    simpa [ofParents] using inside b (List.mem_of_getElem? hb)
  refine Array.ext_getElem? fun i => ?_
  by_cases hi : i = b.index
  · rw [hi, Array.getElem?_setIfInBounds_self_of_lt hin,
      getElem?_ofParents_of_getElem? nodup inside _ hb, parent?_setIfInBounds hn, if_pos rfl,
      Option.bind_some]
  · rw [Array.getElem?_setIfInBounds_ne (Ne.symm hi), show i = (BlockId.mk i).index from rfl,
      getElem?_ofParents, getElem?_ofParents]
    congr 2
    refine Option.bind_congr fun k hk => ?_
    rw [parent?_setIfInBounds hn, if_neg]
    rintro rfl
    have hc := (Digraph.idxOf?_eq_some_iff_getElem? nodup).1 hk
    exact hi (congrArg BlockId.index (Option.some.inj (hc.symm.trans hb)))

omit rooted hsize in
theorem ofParents_initial {entry : BlockId} (hentry : order[0]? = some entry) :
    ofParents count order (Parents.initial order.length) = Idoms.initial count entry := by
  have hnone : ofParents count order (Array.replicate order.length none) =
      Array.replicate count none := by
    refine Array.ext_getElem? fun i => ?_
    rw [show i = (BlockId.mk i).index from rfl, getElem?_ofParents, Array.getElem?_replicate]
    simp [parent?_replicate]
  rw [Parents.initial, ofParents_setIfInBounds nodup inside (by simp) hentry, hnone, hentry,
    Idoms.initial]

/-- Two fingers on nodes with parents meet, at the node that the walk by numbers comes to. -/
theorem intersect_eq {i j : Nat} {a b : BlockId} (ha : order[i]? = some a) (hb : order[j]? = some b)
    (hi : p.Known i) (hj : p.Known j) : ∃ c, order[p.meet i j]? = some c ∧
      intersect (numbers count order) (ofParents count order p) a b = pure (.ok c) := by
  suffices key : ∃ m c, order[m]? = some c ∧
      intersect (numbers count order) (ofParents count order p) a b = pure (.ok c) ∧
      ∀ x, p.Above x m ↔ p.Above x i ∧ p.Above x j by
    obtain ⟨m, c, hc, hmet, habove⟩ := key
    obtain rfl : m = p.meet i j :=
      eq_of_above_iff rooted fun x => (habove x).trans (above_meet rooted hi hj x).symm
    exact ⟨c, hc, hmet⟩
  -- Of two different numbers the greater one gets smaller in each turn.
  induction h : i + j using Nat.strongRecOn generalizing i j a b with
  | _ total ih =>
    by_cases hab : a = b
    · obtain rfl : i = j := by
        rw [← Digraph.idxOf_of_getElem? nodup ha, ← Digraph.idxOf_of_getElem? nodup hb, hab]
      exact ⟨i, a, ha, fix_eq_pure (if_pos hab), fun x => (and_self_iff).symm⟩
    · have hij : i ≠ j := by
        rintro rfl
        exact hab (Option.some.inj (ha.symm.trans hb))
      obtain ⟨i', a', ha', hlift, hup, hle, hsame, hrest⟩ :=
        lift_eq nodup inside rooted hsize hb ha hi
      obtain ⟨j', b', hb', hlift', hup', hle', hsame', hrest'⟩ :=
        lift_eq nodup inside rooted hsize ha' hb hj
      have hless : i' + j' < i + j := by
        have := hup.le rooted
        have := hup'.le rooted
        omega
      obtain ⟨m, c, hc, hmet, habove⟩ := ih _ (h ▸ hless) ha' hb' (hup.known rooted hi)
        (hup'.known rooted hj) rfl
      refine ⟨m, c, hc, ?_, fun x => ?_⟩
      · refine (fix_eq_fix ?_).trans hmet
        simp only [turn, if_neg hab, hlift, hlift', pure_bind]
      · rw [habove]
        constructor
        · exact fun h => ⟨h.1.trans hup, h.2.trans hup'⟩
        · intro hx
          have hxi := hrest x (hx.2.le rooted) hx.1
          exact ⟨hxi, hrest' x (hxi.le rooted) hx.2⟩

omit rooted in
theorem onChain_of_above {m n : Nat} {b c : BlockId} (h : p.Above m n) (hn : p.Known n)
    (hb : order[n]? = some b)
    (hc : order[m]? = some c) (rooted : p.Rooted) : (ofParents count order p).OnChain c b := by
  induction h generalizing b with
  | refl =>
    obtain rfl : c = b := Option.some.inj (hc.symm.trans hb)
    exact .self
  | @step k n hk _ ih =>
    have hknown := rooted.known hk
    obtain ⟨d, hd⟩ := exists_getElem?_of_known hsize hknown
    exact .up ((parent?_ofParents_iff nodup inside).2 ⟨n, k, hb, hk, hd⟩) (ih hknown hd)

omit rooted hsize in
theorem above_of_onChain {n : Nat} {b x : BlockId} (h : (ofParents count order p).OnChain x b)
    (hb : order[n]? = some b) : ∃ m, order[m]? = some x ∧ p.Above m n := by
  induction h generalizing n with
  | self => exact ⟨n, hb, .refl⟩
  | @up b d hd _ ih =>
    obtain ⟨n', k, hb', hk, hkd⟩ := (parent?_ofParents_iff nodup inside).1 hd
    obtain rfl : n = n' := by
      rw [← Digraph.idxOf_of_getElem? nodup hb, Digraph.idxOf_of_getElem? nodup hb']
    obtain ⟨m, hm, habove⟩ := ih hkd
    exact ⟨m, hm, .step hk habove⟩

/-- Two fingers on nodes with parents meet at the nearest common node of their chains. -/
theorem intersect_nearest {i j : Nat} {a b : BlockId} (ha : order[i]? = some a)
    (hb : order[j]? = some b) (hi : p.Known i) (hj : p.Known j) : ∃ c,
      intersect (numbers count order) (ofParents count order p) a b = pure (.ok c) ∧
        (ofParents count order p).NearestCommon a b c := by
  obtain ⟨c, hc, hmet⟩ := intersect_eq nodup inside rooted hsize ha hb hi hj
  have hmeet := above_meet rooted hi hj
  obtain ⟨hfirst, hsecond⟩ := (hmeet _).1 .refl
  refine ⟨c, hmet, ?_, ?_, fun x hxa hxb => ?_⟩
  · exact onChain_of_above nodup inside hsize hfirst hi ha hc rooted
  · exact onChain_of_above nodup inside hsize hsecond hj hb hc rooted
  · obtain ⟨m, hm, hma⟩ := above_of_onChain nodup inside hxa ha
    obtain ⟨k, hk, hkb⟩ := above_of_onChain nodup inside hxb hb
    obtain rfl : m = k := by
      rw [← Digraph.idxOf_of_getElem? nodup hm, Digraph.idxOf_of_getElem? nodup hk]
    exact onChain_of_above nodup inside hsize ((hmeet m).2 ⟨hma, hkb⟩)
      (hfirst.known rooted hi) hc hm rooted

theorem agreeWith_eq {found : Option Nat} (hfound : ∀ m ∈ found, p.Known m) {pred : BlockId}
    (hpred : pred.index < count) :
    agreeWith (numbers count order) (ofParents count order p) (found.bind (order[·]?)) pred =
      pure (((order.idxOf? pred).toList.foldl (Parents.agreeWith p) found).bind (order[·]?)) := by
  have hlook : look (ofParents count order p) pred = pure _ :=
    look_eq_pure ((getElem?_ofParents p pred).trans (if_pos hpred))
  rw [agreeWith.eq_def, hlook, pure_bind]
  cases hn : order.idxOf? pred with
  | none => simp
  | some n =>
    have hb := (Digraph.idxOf?_eq_some_iff_getElem? nodup).1 hn
    cases hm : p.parent? n with
    | none => simp [Parents.agreeWith, hm]
    | some m =>
      obtain ⟨d, hd⟩ := exists_getElem?_of_known hsize (rooted.known hm)
      cases found with
      | none => simp [Parents.agreeWith, hm, hd, hb]
      | some current =>
        have hcurrent : p.Known current := hfound current rfl
        obtain ⟨c, hc⟩ := exists_getElem?_of_known hsize hcurrent
        obtain ⟨e, he, hmet⟩ :=
          intersect_eq nodup inside rooted hsize hb hc (known_of_parent hm) hcurrent
        simp [Parents.agreeWith, hm, hd, hc, hmet, he, ending]

theorem foldlM_agreeWith (found : Option Nat) (hfound : ∀ m ∈ found, p.Known m)
    {preds : List BlockId} (hpreds : ∀ b ∈ preds, b.index < count) :
    preds.foldlM (agreeWith (numbers count order) (ofParents count order p))
      (found.bind (order[·]?)) =
      pure (((preds.filterMap (order.idxOf? ·)).foldl (Parents.agreeWith p) found).bind
        (order[·]?)) := by
  induction preds generalizing found with
  | nil => rfl
  | cons b rest ih =>
    obtain ⟨hb, hrest⟩ := List.forall_mem_cons.1 hpreds
    rw [List.foldlM_cons, agreeWith_eq nodup inside rooted hsize hfound hb, pure_bind,
      ih _ (known_agreeWith rooted _ _ hfound) hrest, ← List.foldl_append]
    cases hn : order.idxOf? b <;> simp [hn]

end numbered

end Idoms

namespace Digraph

open Parents Idoms

variable {N E : Type} {g : Digraph N E}

theorem numberedPredecessors_of_getElem? {order : List BlockId} {n : Nat} {b : BlockId}
    (hb : order[n]? = some b) :
    g.numberedPredecessors order n = (g.predecessors b).filterMap (order.idxOf? ·) := by
  simp [numberedPredecessors, Array.getD_eq_getD_getElem?, hb]

theorem index_lt_of_mem_predecessors (closed : g.Closed) {b c : BlockId}
    (h : c ∈ g.predecessors b) :
    c.index < g.nodeCount := by
  obtain ⟨e, he, hsource, -⟩ := mem_predecessors.1 h
  simpa [contains, nodeCount, hsource] using (closed e he).1

section visit

variable {order : List BlockId} {p : Parents} {n : Nat} {b : BlockId} (closed : g.Closed)
  (nodup : order.Nodup) (inside : ∀ b ∈ order, b.index < g.nodeCount) (rooted : p.Rooted)
  (hsize : p.size = order.length) (hb : order[n]? = some b)

include closed nodup inside rooted hsize hb

theorem agreed_eq :
    (ofParents g.nodeCount order p).agreed (numbers g.nodeCount order) (g.predecessors b) =
    pure ((p.agreed (g.numberedPredecessors order n)).bind (order[·]?)) := by
  rw [numberedPredecessors_of_getElem? hb]
  exact foldlM_agreeWith nodup inside rooted hsize none (by simp) fun c hc =>
    index_lt_of_mem_predecessors closed hc

theorem visit_eq (changed : Bool) :
    g.visit (numbers g.nodeCount order) (ofParents g.nodeCount order p, changed) b =
      pure (ofParents g.nodeCount order (refineAt (g.numberedPredecessors order) p n),
        changed || decide (refineAt (g.numberedPredecessors order) p n ≠ p)) := by
  have hn : n < p.size := hsize ▸ (List.getElem?_eq_some_iff.1 hb).1
  have hlook := look_eq_pure (getElem?_ofParents_of_getElem? nodup inside p hb)
  rw [visit, agreed_eq closed nodup inside rooted hsize hb, pure_bind, hlook, pure_bind]
  obtain hm | ⟨m, hm⟩ := Option.eq_none_or_eq_some (p.agreed (g.numberedPredecessors order n))
  · simp [hm, refineAt]
  · obtain ⟨d, hd⟩ := exists_getElem?_of_known hsize
      (known_agreeWith rooted (g.numberedPredecessors order n) none (by simp) m hm)
    have hrefine : refineAt (g.numberedPredecessors order) p n = p.setIfInBounds n (some m) := by
      simp [refineAt, hm]
    rw [hrefine, hm]
    by_cases hsame : p.parent? n = some m
    · have hself : p.setIfInBounds n (some m) = p := by
        refine eq_of_parent? (Array.size_setIfInBounds ..) fun k => ?_
        rw [parent?_setIfInBounds hn]
        split
        · next hk => rw [hk, hsame]
        · rfl
      simp [hself, hsame]
    · have hdiffers : p.setIfInBounds n (some m) ≠ p := fun he => hsame (by
        rw [← he, parent?_setIfInBounds hn, if_pos rfl])
      have hother : ((p.parent? n).bind fun k => order[k]?) ≠ some d := by
        intro he
        obtain ⟨k, hk, hkd⟩ := Option.bind_eq_some_iff.1 he
        have hkm : k = m := by
          rw [← idxOf_of_getElem? nodup hkd, ← idxOf_of_getElem? nodup hd]
        exact hsame (hkm ▸ hk)
      simp [hd, hother, hdiffers, ofParents_setIfInBounds nodup inside hsize hb]

omit hb in
/-- Fingers are put on nodes with parents only, and meet. -/
theorem met_of_compares {pred current : BlockId} (hcompares : Compares (numbers g.nodeCount order)
      (ofParents g.nodeCount order p) (g.predecessors b) pred current) :
    ∃ c, (ofParents g.nodeCount order p).intersect (numbers g.nodeCount order) pred current =
      pure (.ok c) ∧ (ofParents g.nodeCount order p).NearestCommon pred current c := by
  obtain ⟨before, after, hsplit, hpred, hcurrent⟩ := hcompares
  obtain ⟨d, hd⟩ := Option.isSome_iff_exists.1 hpred
  obtain ⟨i, m, hi, hm, -⟩ := (parent?_ofParents_iff nodup inside).1 hd
  have hbefore : ∀ c ∈ before, c.index < g.nodeCount := fun c hc =>
    index_lt_of_mem_predecessors closed (hsplit ▸ List.mem_append_left _ hc)
  have hagreed := foldlM_agreeWith nodup inside rooted hsize none (by simp) hbefore
  obtain ⟨j, hj, hcurrent⟩ := Option.bind_eq_some_iff.1
    (Part.some_injective (hagreed.symm.trans hcurrent))
  exact intersect_nearest nodup inside rooted hsize hi hcurrent (known_of_parent hm)
    (known_agreeWith rooted _ none (by simp) j hj)

end visit

section stages

variable {entry : BlockId}

/-- Where the computation has got to: the rounds that are done, the array, whether the round that is
going on has changed it, and the nodes that are left in this round. -/
inductive Stage (g : Digraph N E) (entry : BlockId) : Nat → Idoms → Bool → List BlockId → Prop
  | start : Stage g entry 0 (Idoms.initial g.nodeCount entry) false (g.reversePostorder entry).tail
  | visit {rounds : Nat} {idom idom' : Idoms} {changed changed' : Bool} {node : BlockId}
    {rest : List BlockId} :
    Stage g entry rounds idom changed (node :: rest) →
      g.visit (g.numbersFrom entry) (idom, changed) node = .some (idom', changed') →
      Stage g entry rounds idom' changed' rest
  | again {rounds : Nat} {idom : Idoms} : Stage g entry rounds idom true [] →
    Stage g entry (rounds + 1) idom false (g.reversePostorder entry).tail

/-- The parents by number after some rounds of refinement. -/
def refined (g : Digraph N E) (entry : BlockId) (rounds : Nat) : Parents :=
  (refine (g.numberedPredecessors (g.reversePostorder entry)))^[rounds]
    (Parents.initial (g.reversePostorder entry).length)

theorem refined_succ (rounds : Nat) : g.refined entry (rounds + 1) =
    refine (g.numberedPredecessors (g.reversePostorder entry)) (g.refined entry rounds) :=
  Function.iterate_succ_apply' ..

theorem parentNumbers_eq_refined : g.parentNumbers (g.reversePostorder entry) =
    g.refined entry ((g.reversePostorder entry).length * (g.reversePostorder entry).length + 2) :=
  settle_eq_iterate ..

theorem refined_of_fixed {rounds : Nat}
    (hfixed : g.refined entry (rounds + 1) = g.refined entry rounds)
    (more : Nat) : g.refined entry (more + rounds) = g.refined entry rounds := by
  rw [refined_succ] at hfixed
  exact (Function.iterate_add_apply ..).trans (Function.iterate_fixed hfixed more)

/-- The array is that of parents by number which a round of refinement has got to after `done`
nodes. -/
structure Tracks (g : Digraph N E) (entry : BlockId) (rounds : Nat) (idom : Idoms) (changed : Bool)
    (left : List BlockId) (done : Nat) (p : Parents) : Prop where
  idom : idom = ofParents g.nodeCount (g.reversePostorder entry) p
  within : done < (g.reversePostorder entry).length
  left : left = (g.reversePostorder entry).drop (done + 1)
  fold : p = (List.range' 1 done).foldl
    (refineAt (g.numberedPredecessors (g.reversePostorder entry)))
    (g.refined entry rounds)
  changed : changed = decide (p ≠ g.refined entry rounds)
  later : ∀ n, done < n → p.parent? n = (g.refined entry rounds).parent? n
  rooted : p.Rooted
  size : p.size = (g.reversePostorder entry).length
  known : ∀ n ≤ done, p.Known n

variable (closed : g.Closed) (h : g.contains entry = true)

section tracks

variable {rounds done : Nat} {idom : Idoms} {changed : Bool} {left : List BlockId} {p : Parents}

include closed h

theorem index_lt_of_mem_reversePostorder :
    ∀ b ∈ g.reversePostorder entry, b.index < g.nodeCount := by
  intro b hb
  simpa [contains, nodeCount] using contains_of_mem_preorder closed h
    ((mem_reversePostorder closed h).1 hb)

theorem tracks_refined (rooted : (g.refined entry rounds).Rooted) :
    Tracks g entry rounds
      (ofParents g.nodeCount (g.reversePostorder entry) (g.refined entry rounds)) false
      (g.reversePostorder entry).tail 0 (g.refined entry rounds) where
  idom := rfl
  within := (numbered_predecessors closed h).positive
  left := List.drop_one.symm
  fold := rfl
  changed := by simp
  later _ _ := rfl
  rooted := rooted
  size := size_iterate_refine rounds
  known n hn := by
    obtain rfl := Nat.le_zero.1 hn
    exact known_of_parent rooted.root

/-- A visit does to the array what one step of refinement does to the parents by number. -/
theorem Tracks.visit (ht : Tracks g entry rounds idom changed left done p) {node : BlockId}
    {rest : List BlockId} (hleft : left = node :: rest) :
    ∃ idom' changed' p', g.visit (g.numbersFrom entry) (idom, changed) node =
      .some (idom', changed') ∧ Tracks g entry rounds idom' changed' rest (done + 1) p' := by
  have hdrop : (g.reversePostorder entry).drop (done + 1) = node :: rest := ht.left.symm.trans hleft
  have hnode : (g.reversePostorder entry)[done + 1]? = some node := by
    have hhead := congrArg (·[0]?) hdrop
    simpa using hhead
  have hlt : done + 1 < (g.reversePostorder entry).length := (List.getElem?_eq_some_iff.1 hnode).1
  have hbelow : ∀ n < done + 1, p.Known n := fun n hn => ht.known n (Nat.lt_succ_iff.1 hn)
  obtain ⟨q, hq⟩ := refines_refineAt ht.rooted (numbered_predecessors closed h) ht.size
    (Nat.succ_pos done) hlt
    hbelow
  have hvisit := visit_eq closed (nodup_reversePostorder closed h)
    (index_lt_of_mem_reversePostorder closed h)
    ht.rooted ht.size hnode changed
  generalize hp' : refineAt (g.numberedPredecessors (g.reversePostorder entry)) p (done + 1) =
    p' at hq hvisit
  refine ⟨_, _, p', ht.idom ▸ hvisit, rfl, hlt, ?_, ?_, ?_, fun n hn => ?_,
    hq.rooted ht.rooted hbelow, ?_, fun n hn => ?_⟩
  · rw [← List.tail_drop, hdrop, List.tail_cons]
  · rw [List.range'_1_concat, List.foldl_append, ← ht.fold, Nat.add_comm 1 done,
      List.foldl_cons, hp', List.foldl_nil]
  · have hsize : p.size = (g.refined entry rounds).size :=
      ht.size.trans (size_iterate_refine rounds).symm
    have hiff := hq.eq_iff hsize (ht.later (done + 1) (Nat.lt_succ_self done))
    rw [ht.changed, ← Bool.decide_or, decide_eq_decide, ne_eq, ne_eq, ne_eq, hiff,
      Decidable.not_and_iff_or_not]
  · rw [hq.parent, if_neg (by omega), ht.later n (by omega)]
  · rw [← hp', size_refineAt, ht.size]
  · rcases Nat.lt_or_ge n (done + 1) with hlt | hge
    · exact hq.known (hbelow n hlt)
    · obtain rfl : n = done + 1 := by omega
      exact hq.known_self

omit closed h in
theorem Tracks.eq_refined (ht : Tracks g entry rounds idom changed [] done p) :
    p = g.refined entry (rounds + 1) := by
  have hdone : (g.reversePostorder entry).length ≤ done + 1 := List.drop_eq_nil_iff.1 ht.left.symm
  have hsize : (g.refined entry rounds).size - 1 = done := by
    have := ht.within
    rw [refined, size_iterate_refine]
    omega
  rw [refined_succ, refine, hsize, ht.fold]

theorem Stage.tracks (hs : Stage g entry rounds idom changed left) :
    ∃ done p, Tracks g entry rounds idom changed left done p := by
  have nodup := nodup_reversePostorder closed h
  have inside := index_lt_of_mem_reversePostorder closed h
  have numbered := numbered_predecessors closed h
  induction hs with
  | start =>
    have happroximates : Approximates
        (g.numberedPredecessors (g.reversePostorder entry)) (fun _ => 1)
        (g.refined entry 0) := approximates_initial numbered.positive
    obtain ⟨rest, hcons⟩ := reversePostorder_eq_cons closed h
    rw [← ofParents_initial nodup inside (by simp [hcons])]
    exact ⟨0, _, tracks_refined closed h happroximates.rooted⟩
  | visit _ hvisit ih =>
    obtain ⟨done, p, ht⟩ := ih
    obtain ⟨idom', changed', p', hvisit', ht'⟩ := ht.visit closed h rfl
    obtain ⟨rfl, rfl⟩ := Prod.mk.inj (Part.some_injective (hvisit'.symm.trans hvisit))
    exact ⟨done + 1, p', ht'⟩
  | again _ ih =>
    obtain ⟨done, p, ht⟩ := ih
    obtain rfl := ht.eq_refined
    exact ⟨0, _, ht.idom ▸ tracks_refined closed h ht.rooted⟩

/-- There are no more rounds than nodes. -/
theorem Stage.rounds_le (hs : Stage g entry rounds idom changed left) :
    rounds ≤ (g.reversePostorder entry).length := by
  induction hs with
  | start => exact Nat.zero_le _
  | visit _ _ ih => exact ih
  | @again rounds idom hs ih =>
    obtain ⟨done, p, ht⟩ := hs.tracks closed h
    -- The round that is over would have changed something behind as many rounds as there are nodes.
    by_contra hover
    have hsame : p = g.refined entry rounds :=
      ht.eq_refined.trans (refine_iterate_of_le (numbered_predecessors closed h) (by omega))
    have hchanged := ht.changed
    simp [hsame] at hchanged

theorem Stage.round (hs : Stage g entry rounds idom changed left) : ∃ idom' changed',
    left.foldlM (g.visit (g.numbersFrom entry)) (idom, changed) = .some (idom', changed') ∧
      Stage g entry rounds idom' changed' [] := by
  induction left generalizing idom changed with
  | nil => exact ⟨idom, changed, rfl, hs⟩
  | cons node rest ih =>
    obtain ⟨done, p, ht⟩ := hs.tracks closed h
    obtain ⟨idom', changed', p', hvisit, -⟩ := ht.visit closed h rfl
    obtain ⟨idom'', changed'', hrest, hs'⟩ := ih (hs.visit hvisit)
    refine ⟨idom'', changed'', ?_, hs'⟩
    rw [List.foldlM_cons, hvisit]
    exact (Part.bind_some ..).trans hrest

/-- The rounds get to one that changes nothing. -/
theorem Stage.settle (hs : Stage g entry rounds idom false (g.reversePostorder entry).tail) :
    ∃ rounds' last, g.settle (g.numbersFrom entry) (g.reversePostorder entry).tail idom =
      .some last ∧ Stage g entry rounds' last false [] := by
  -- The rounds that are left are bounded by `Stage.rounds_le`.
  induction hgap : (g.reversePostorder entry).length - rounds using Nat.strongRecOn
    generalizing rounds idom with
  | _ gap ih =>
    obtain ⟨idom', changed', hround, hs'⟩ := hs.round closed h
    have hstep : g.round (g.numbersFrom entry) (g.reversePostorder entry).tail idom =
        pure (if changed' then .inr idom' else .inl idom') := by
      rw [Digraph.round, hround]
      exact pure_bind ..
    cases changed' with
    | false => exact ⟨rounds, idom', fix_eq_pure hstep, hs'⟩
    | true =>
      have hle := hs'.again.rounds_le closed h
      obtain ⟨rounds', last, hlast, hsettled⟩ := ih _ (by omega) hs'.again rfl
      exact ⟨rounds', last, (fix_eq_fix hstep).trans hlast, hsettled⟩

theorem Stage.settled (hs : Stage g entry rounds idom false []) : idom =
    ofParents g.nodeCount (g.reversePostorder entry)
      (g.parentNumbers (g.reversePostorder entry)) := by
  obtain ⟨done, p, ht⟩ := hs.tracks closed h
  have hsame : p = g.refined entry rounds := by simpa using ht.changed
  have hfixed : g.refined entry (rounds + 1) = g.refined entry rounds :=
    ht.eq_refined.symm.trans hsame
  have hle := hs.rounds_le closed h
  have hmore := Nat.le_mul_self (g.reversePostorder entry).length
  rw [ht.idom, hsame, parentNumbers_eq_refined, ← refined_of_fixed hfixed
    ((g.reversePostorder entry).length * (g.reversePostorder entry).length + 2 - rounds),
    Nat.sub_add_cancel]
  omega

end tracks

include closed h in
/-- With the entry's parent taken out, the array that the rounds end with is the tree. -/
theorem computeDominators_eq {rounds : Nat} {idom : Idoms}
    (hs : Stage g entry rounds idom false []) :
    DominatorTree.mk entry (idom.setIfInBounds entry.index none) = g.dominatorTree entry := by
  rw [hs.settled closed h, dominatorTree]
  congr 1
  refine Array.ext_getElem? fun i => ?_
  by_cases hi : i = entry.index
  · have hin : entry.index < (ofParents g.nodeCount (g.reversePostorder entry)
        (g.parentNumbers (g.reversePostorder entry))).size := by
      simpa [ofParents, contains, nodeCount] using h
    have hnode : entry.index < g.nodes.size := by simpa [contains] using h
    rw [hi, Array.getElem?_setIfInBounds_self_of_lt hin]
    simp [nodeIds, hnode]
  · have hne : BlockId.mk i ≠ entry := fun he => hi (congrArg BlockId.index he)
    rw [Array.getElem?_setIfInBounds_ne (Ne.symm hi), show i = (BlockId.mk i).index from rfl,
      getElem?_ofParents]
    split
    · next hlt =>
      have hnode : i < g.nodes.size := hlt
      simp [nodeIds, hnode, hne]
    · next hout =>
      have hnode : g.nodes.size ≤ i := Nat.not_lt.1 hout
      simp [nodeIds, hnode]

end stages

/-- The loops that compute dominators come to an end. While they go on, each parent of a node other
than the entry has a smaller number than the node, and fingers that are put on two nodes meet at the
nearest common node of the chains of both. -/
structure SettlesByFingers (g : Digraph N E) (entry : BlockId) : Prop where
  numbers : ∀ b ∈ g.reversePostorder entry,
    (g.numbersFrom entry)[b.index]? = some ((g.reversePostorder entry).idxOf b)
  descends : ∀ {rounds idom changed left}, g.Stage entry rounds idom changed left →
    ∀ b d, b ≠ entry → idom.parent? b = some d → b ∈ g.reversePostorder entry ∧
      d ∈ g.reversePostorder entry ∧
      (g.reversePostorder entry).idxOf d < (g.reversePostorder entry).idxOf b
  meets : ∀ {rounds idom changed node rest}, g.Stage entry rounds idom changed (node :: rest) →
    ∀ pred current, idom.Compares (g.numbersFrom entry) (g.predecessors node) pred current →
      ∃ c, idom.intersect (g.numbersFrom entry) pred current = .some (.ok c) ∧
        idom.NearestCommon pred current c
  goesOn : ∀ {rounds idom changed node rest}, g.Stage entry rounds idom changed (node :: rest) →
    ∃ idom' changed', g.visit (g.numbersFrom entry) (idom, changed) node = .some (idom', changed')
  rounds : ∀ {rounds idom changed left}, g.Stage entry rounds idom changed left →
    rounds ≤ (g.reversePostorder entry).length
  settles : ∃ rounds idom, g.Stage entry rounds idom false [] ∧
    g.computeDominators entry = .some { entry, parents := idom.setIfInBounds entry.index none }
  tree : g.computeDominators entry = .some (g.dominatorTree entry)

theorem computeDominators_settles {entry : BlockId} (closed : g.Closed)
    (h : g.contains entry = true) :
    g.SettlesByFingers entry := by
  have nodup := nodup_reversePostorder closed h
  have inside := index_lt_of_mem_reversePostorder closed h
  obtain ⟨rest, hcons⟩ := reversePostorder_eq_cons closed h
  obtain ⟨rounds, idom, hsettle, hs⟩ := Stage.start.settle closed h
  have hresult : g.computeDominators entry =
      .some ⟨entry, idom.setIfInBounds entry.index none⟩ := by
    simp [computeDominators, h, hsettle]
  refine ⟨fun b hb => getElem?_numbers nodup inside (List.getElem?_idxOf hb),
    fun hs b d hb hd => ?_, fun hs pred current hcompares => ?_, fun hs => ?_,
    fun hs => hs.rounds_le closed h, ⟨rounds, idom, hs, hresult⟩,
    hresult.trans (congrArg Part.some (computeDominators_eq closed h hs))⟩
  · obtain ⟨done, p, ht⟩ := hs.tracks closed h
    obtain ⟨n, m, hn, hm, hmd⟩ := (parent?_ofParents_iff nodup inside).1 (ht.idom ▸ hd)
    have hpos : 0 < n := by
      refine Nat.pos_of_ne_zero ?_
      rintro rfl
      exact hb (by simpa [hcons, eq_comm] using hn)
    refine ⟨List.mem_of_getElem? hn, List.mem_of_getElem? hmd, ?_⟩
    rw [idxOf_of_getElem? nodup hn, idxOf_of_getElem? nodup hmd]
    exact ht.rooted.descends hpos hm
  · obtain ⟨done, p, ht⟩ := hs.tracks closed h
    rw [ht.idom] at hcompares ⊢
    obtain ⟨c, hmet, hnearest⟩ := met_of_compares closed nodup inside ht.rooted ht.size hcompares
    exact ⟨c, hmet, hnearest⟩
  · obtain ⟨done, p, ht⟩ := hs.tracks closed h
    obtain ⟨idom', changed', p', hvisit, -⟩ := ht.visit closed h rfl
    exact ⟨idom', changed', hvisit⟩

theorem crossing_settlesByFingers : crossing.Closed ∧ crossing.contains ⟨0⟩ = true ∧
    crossing.SettlesByFingers ⟨0⟩ := by
  have closed : crossing.Closed := by simp [Closed, crossing, contains]
  exact ⟨closed, rfl, computeDominators_settles closed rfl⟩

end Digraph

end MethodFlow
