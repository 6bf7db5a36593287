import MethodFlow.Proofs.Graph.Descent
import MethodFlow.Proofs.Ssa.Links

/-!
The numbers that renaming gives. They are given to the definitions of a variable in the order in
which the walk down the dominator tree meets them, and nothing else that is done on the way numbers
anything.
-/

namespace MethodFlow

open Edit

structure KeepsNumbers (s s' : Bench Numbering) : Prop where
  tree : s.flow.tree.SameNumbers s'.flow.tree
  own : s'.own = s.own

instance : IsPreorder (Bench Numbering) KeepsNumbers where
  refl _ := ⟨rfl, rfl⟩
  trans _ _ _ h h' := ⟨IsTrans.trans _ _ _ h.tree h'.tree, h'.own.trans h.own⟩

theorem KeepsNumbers.moves_liftTree {α : Type} {x : Edit Tree α} (hx : Moves Tree.SameNumbers x) :
    Moves (Recorded.Along KeepsNumbers) (liftM x : Renaming α) := by
  have hflow : Moves (FlowGraph.OnTree Tree.SameNumbers) (liftM x : Edit FlowGraph α) :=
    hx.within fun _ _ => id
  have hbench : Moves KeepsNumbers
      (liftM (liftM x : Edit FlowGraph α) : Edit (Bench Numbering) α) :=
    hflow.within fun _ _ h => ⟨h, rfl⟩
  exact hbench.quietly

theorem filling_keepsNumbers : Filling KeepsNumbers :=
  ⟨fun n => .moves_liftTree (.moves_useLike n), fun n d => .moves_liftTree (.moves_setLink n d),
    fun n operand => .moves_liftTree (.moves_addCatchOperand n operand)⟩

/-- The next numbers of `v` are given to `ds` in turn. What is listed more than once ends with the
last of its numbers. -/
structure Numbers (v : Var) (ds : List NodeId) (s s' : Bench Numbering) : Prop where
  count : ∀ w, s'.own.count w = s.own.count w + if v = w then ds.length else 0
  given : ∀ before d after, ds = before ++ d :: after → d ∉ after →
    s'.flow.tree.number? d = some (s.own.count v + before.length)
  other : ∀ n, n ∉ ds → s'.flow.tree.number? n = s.flow.tree.number? n

namespace Numbers

variable {v : Var} {ds es : List NodeId} {s m s' : Bench Numbering}

theorem of_keeps (h : KeepsNumbers s s') : Numbers v [] s s' where
  count w := by simp [h.own]
  given before d after hsplit := by simp at hsplit
  other n _ := congrFun h.tree n

theorem refl (s : Bench Numbering) : Numbers v [] s s := of_keeps (Std.Refl.refl s)

theorem trans (h : Numbers v ds s m) (h' : Numbers v es m s') : Numbers v (ds ++ es) s s' where
  count w := by
    rw [h'.count, h.count, List.length_append]
    split <;> omega
  given before d after hsplit hd := by
    rcases List.append_eq_append_iff.1 hsplit with ⟨middle, rfl, hes⟩ | ⟨middle, hds, htail⟩
    · rw [h'.given middle d after hes hd, h.count, if_pos rfl, List.length_append]
      congr 1
      omega
    · -- The definition stands at the end of `ds`, and is not in `es`, or it stands in front of
      -- `es`.
      cases middle with
      | nil =>
        obtain rfl : d :: after = es := htail
        rw [List.append_nil] at hds
        rw [h'.given [] d after rfl hd, h.count, if_pos rfl, hds]
        rfl
      | cons first rest =>
        obtain ⟨rfl, rfl⟩ := List.cons_eq_cons.1 htail
        rw [h'.other d fun hmem => hd (List.mem_append_right _ hmem)]
        exact h.given before d rest hds fun hmem => hd (List.mem_append_left _ hmem)
  other n hn := by
    rw [List.mem_append, not_or] at hn
    rw [h'.other n hn.2, h.other n hn.1]

/-- Where nothing is listed twice, each gets the number that belongs to its place in the list. -/
theorem given_of_nodup (h : Numbers v ds s s') (nodup : ds.Nodup) {i : Nat} {d : NodeId}
    (hd : ds[i]? = some d) : s'.flow.tree.number? d = some (s.own.count v + i) := by
  obtain ⟨before, after, rfl, rfl⟩ : ∃ before after, ds = before ++ d :: after ∧
      before.length = i := by
    obtain ⟨hi, rfl⟩ := List.getElem?_eq_some_iff.1 hd
    refine ⟨ds.take i, ds.drop (i + 1), ?_, List.length_take_of_le (Nat.le_of_lt hi)⟩
    rw [← List.drop_eq_getElem_cons hi, List.take_append_drop]
  rw [List.nodup_middle, List.nodup_cons, List.mem_append, not_or] at nodup
  exact h.given before d after rfl nodup.1.2

theorem trans_keeps (h : Numbers v ds s m) (h' : KeepsNumbers m s') : Numbers v ds s s' := by
  simpa using h.trans (of_keeps h' (v := v))

end Numbers

/-- The definitions of a roster's variable in a block, the target of its phi in front. -/
def Roster.definitions (r : Roster) (f : FlowGraph) (reals : BlockId → List NodeId) (b : BlockId) :
    List NodeId := (r.met f reals b).filter f.tree.defines

theorem Roster.Prepared.definitions_eq {o : SsaOptions} {base f : FlowGraph} {v : Var}
    {scope : NodeId → Var → Prop} {reals : BlockId → List NodeId} {r : Roster} {b : BlockId}
    (h : Prepared (Admits o) base v scope reals r f) :
    r.definitions f reals b = (r.targetAt? f b).toList ++ (reals b).filter f.tree.defines := by
  rw [definitions, met, List.filter_append, List.filter_eq_self.2]
  exact fun d hd => h.defines_target (Option.mem_toList.1 hd)

namespace Renaming

open Plan

variable {k : Plan} {nodes : List NodeId} {b : BlockId} {s s' : Recorded (Bench Numbering)}

theorem numbers_number {v : Var} {d : NodeId} {u : Unit} (h : number v d s = .ok u s') :
    Numbers v [d] s.value s'.value := by
  simp only [number, Edit.bind_ok, Edit.get_ok] at h
  obtain ⟨_, _, ⟨rfl, rfl⟩, _, m₁, hown, _, m₂, hset, hreport⟩ := h
  obtain ⟨hflow, hown⟩ := Bench.modifyOwn_ok hown
  obtain ⟨hset, -, hkept⟩ := Bench.liftTree_ok hset
  rw [hflow] at hset
  obtain ⟨hnumber, hother⟩ := Tree.number?_of_setVersion hset
  rw [Bench.report_ok hreport]
  refine ⟨fun w => ?_, fun before n after hsplit _ => ?_, fun n hn => hother n (by simpa using hn)⟩
  · rw [hkept, hown, Numbering.count_take]
    rfl
  · obtain ⟨rfl, hsingle⟩ : before = [] ∧ [d] = n :: after := by
      cases before <;> simp_all
    obtain ⟨rfl, rfl⟩ := List.cons_eq_cons.1 hsingle
    simpa using hnumber

/-- The target of a phi is the first definition of its block. -/
theorem numbers_passPhi {incoming start : Option NodeId}
    (h : passPhi k.roster b incoming s = .ok start s')
    (hk : k.Sound nodes) (hs : k.Fits s.value.flow) :
    Numbers k.var (k.roster.targetAt? k.graph b).toList s.value s'.value := by
  rcases passPhi_cases h hk hs with ⟨htarget, -, rfl⟩ | ⟨phi, p, -, -, htarget, -, hnumber⟩
  · rw [htarget]
    exact .refl _
  · rw [htarget]
    exact numbers_number hnumber

theorem numbers_passReal {n : NodeId} {here next : Reached}
    (h : passReal k.var b here n s = .ok next s')
    (hk : k.Sound nodes) (hs : k.Fits s.value.flow) (hn : n ∈ k.reals b) :
    Numbers k.var ([n].filter k.graph.tree.defines) s.value s'.value := by
  rcases passReal_cases h hk hs hn with ⟨hdefines, hnumber, -⟩ | ⟨huse, -, m, hset, hm⟩
  · rw [List.filter_cons_of_pos hdefines]
    exact numbers_number hnumber
  · rw [List.filter_cons_of_neg (by simp [huse]), hm]
    exact .of_keeps ((filling_keepsNumbers.setLink n here.current).of_ok hset)

theorem numbers_passReals {here : Reached}
    (h : (k.reals b).foldlM (passReal k.var b) ⟨k.start b, (k.start b).toList⟩ s = .ok here s')
    (hb : b ∈ k.base.graph.reversePostorder FlowGraph.entry) (hk : k.Sound nodes)
    (hs : k.Fits s.value.flow) :
    Numbers k.var ((k.reals b).filter k.graph.tree.defines) s.value s'.value := by
  refine (Edit.foldlM_ok h (fun passed here m => (k.Fits m.value.flow ∧ Knows k b passed here) ∧
    Numbers k.var (passed.filter k.graph.tree.defines) s.value m.value)
    ⟨⟨hs, ⟨by simp, by simp⟩⟩, .refl _⟩ ?_).2
  rintro passed n rest here next m m' hsplit ⟨⟨hfits, hhere⟩, hnumbers⟩ hstep
  obtain ⟨hadv, hnext, -⟩ := passReal_ok hstep hb hk hfits hsplit hhere
  refine ⟨⟨hadv.fits, hnext⟩, ?_⟩
  rw [List.filter_append]
  exact hnumbers.trans (numbers_passReal hstep hk hfits (by simp [hsplit]))

/-- A visit numbers the definitions of the block. -/
theorem Visits.numbers {here : Reached} {m₁ m₂ m₃ : Recorded (Bench Numbering)}
    (h : Visits k b here s m₁ m₂ m₃ s') (hk : k.Sound nodes) (hs : k.Fits s.value.flow)
    (hb : b ∈ k.base.graph.reversePostorder FlowGraph.entry) :
    Numbers k.var (k.roster.definitions k.graph k.reals b) s.value s'.value := by
  obtain ⟨-, hadv⟩ := passPhi_ok h.phi hk hs
  have hsplit : k.roster.definitions k.graph k.reals b =
      (k.roster.targetAt? k.graph b).toList ++ (k.reals b).filter k.graph.tree.defines :=
    hk.fits.prepared.definitions_eq
  have hcatches : KeepsNumbers m₂.value m₃.value :=
    (moves_fillCatches filling_keepsNumbers k.roster b _).of_ok h.catches
  have hsuccessors : KeepsNumbers m₃.value s'.value :=
    (Moves.forM (moves_fillSuccessor filling_keepsNumbers k.roster b _) _).of_ok h.successors
  rw [hsplit]
  exact (((numbers_passPhi h.phi hk hs).trans
    (numbers_passReals h.reals hb hk hadv.fits)).trans_keeps
    hcatches).trans_keeps hsuccessors

section descent

variable (closed : k.base.graph.Closed) (hentry : k.base.contains FlowGraph.entry = true)

include closed hentry

/-- Below a block the definitions are numbered on the way down. -/
theorem numbers_renameTo {limit : Nat} {u : Unit} (hk : k.Sound nodes)
    (h : renameTo k.roster k.base.dominators limit (k.roster.entering k.graph k.reals b) b s =
      .ok u s')
    (hs : k.Fits s.value.flow) (hb : b ∈ k.base.graph.reversePostorder FlowGraph.entry)
    (hlimit : k.base.dominators.nodeCount < limit + (k.base.dominators.chain b).length) :
    Numbers k.var ((k.base.dominators.below limit b).flatMap
      (k.roster.definitions k.graph k.reals)) s.value s'.value := by
  induction limit generalizing b s s' u with
  | zero =>
    obtain ⟨-, rfl⟩ := Edit.pure_ok.1 h
    exact .refl _
  | succ limit ih =>
    obtain ⟨here, m₁, m₂, m₃, m, hvisits, hchildren⟩ := renameTo_succ closed hentry hk h hs hb
    have hhere := hvisits.numbers hk hs hb
    have hbelow := (Edit.forM_ok hchildren (fun passed m => k.Fits m.value.flow ∧
      Numbers k.var (k.roster.definitions k.graph k.reals b ++
        (passed.flatMap (k.base.dominators.below limit)).flatMap
          (k.roster.definitions k.graph k.reals)) s.value m.value)
      ⟨(hvisits.ok hk hs hb).1.fits, by simpa using hhere⟩ ?_).2
    · exact hbelow
    · rintro passed d rest m m' hsplit ⟨hfits, hnumbers⟩ hstep
      have hd : d ∈ k.base.dominators.children b := by simp [hsplit]
      obtain ⟨hreached, -, henters⟩ := entering_child closed hentry hk hd
      have hlength := length_chain_child closed hentry hd
      rw [henters] at hstep
      obtain ⟨hadv, -⟩ := renameTo_ok closed hentry hk hstep hfits hreached (by omega)
      refine ⟨hadv.fits, ?_⟩
      rw [List.flatMap_append, List.flatMap_append, ← List.append_assoc, List.flatMap_singleton]
      exact hnumbers.trans (ih hstep hfits hreached (by omega))

/-- Renaming numbers the definitions in the blocks that can be reached. -/
theorem numbers_rename {u : Unit} (hk : k.Sound nodes)
    (h : rename k.roster k.base.dominators s = .ok u s') (hs : k.Fits s.value.flow) :
    Numbers k.var (k.base.dominators.descent.flatMap (k.roster.definitions k.graph k.reals))
      s.value s'.value := by
  have hin : FlowGraph.entry ∈ k.base.graph.reversePostorder FlowGraph.entry :=
    (Digraph.path_iff_mem closed hentry).1 (.refl _)
  have hnone : k.roster.entering k.graph k.reals FlowGraph.entry = none := Digraph.entering_entry _
  have hlength : 0 < (k.base.dominators.chain FlowGraph.entry).length :=
    List.length_pos_of_mem (Digraph.chain_self closed hentry (.refl _))
  rw [rename, ← hnone] at h
  exact numbers_renameTo closed hentry hk h hs hin (by omega)

end descent

end Renaming

end MethodFlow
