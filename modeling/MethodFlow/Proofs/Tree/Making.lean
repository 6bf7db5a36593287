import MethodFlow.Proofs.Tree.Copying
import MethodFlow.Proofs.Tree.Places

/-!
Nodes that are made over children that they ask for. What a statement writes is made a definition
before anything else can happen to it, and copies have the children that their originals ask for.
-/

namespace MethodFlow

/-- What a node is after it was made a definition. -/
def Node.defined : Node → Node
  | .occurrence o => .occurrence { o with defines := true, link := none }
  | node => node

theorem Node.defined_defined (node : Node) : node.defined.defined = node.defined := by
  cases node <;> rfl

namespace Tree

open Edit

variable {fits : Prop} {t t' t'' : Tree} {n target : NodeId} {node : Node} {v : Var}

section making

/-- The nodes in the list have been made definitions if they are occurrences. -/
def DefinesAll (ws : List NodeId) (t t' : Tree) : Prop :=
  ∀ m, t'.node? m = if m ∈ ws then (t.node? m).map Node.defined else t.node? m

theorem DefinesAll.cons {ws : List NodeId} {w : NodeId} (h : DefinesAll [w] t t')
    (h' : DefinesAll ws t' t'') : DefinesAll (w :: ws) t t'' := fun m => by
  rw [h', h]
  by_cases hw : m = w <;> by_cases hws : m ∈ ws <;>
    simp [hw, hws, Function.comp_def, Node.defined_defined]

theorem define_ok {o : Occurrence} (ho : t.node? n = some (.occurrence o)) :
    define n t = .ok ⟨⟩ ((define n).after t) ∧ DefinesAll [n] t ((define n).after t) := by
  obtain ⟨s, hs, hnode⟩ := node?_eq_some.1 ho
  have hrun : define n t = .ok ⟨⟩ _ := modifyOccurrence_ok.2 ⟨s, o, hs, hnode, rfl⟩
  rw [after_of_ok hrun]
  refine ⟨hrun, fun m => ?_⟩
  rw [node?_put hs]
  by_cases he : m = n <;> simp [he, ho, Node.defined]

theorem definesAll_define (n : NodeId) (t : Tree) : DefinesAll [n] t ((define n).after t) := by
  by_cases hocc : ∃ o, t.node? n = some (.occurrence o)
  · obtain ⟨o, ho⟩ := hocc
    exact (define_ok ho).2
  · have hsame : (define n).after t = t := (node?_modifyOccurrence n _ t).resolve_right <| by
      rintro ⟨o, ho, -⟩
      exact hocc ⟨o, ho⟩
    intro m
    rw [hsame]
    split
    · next hm =>
      obtain rfl := List.mem_singleton.1 hm
      cases hnode : t.node? m with
      | none => rfl
      | some node =>
        cases node with
        | occurrence o => exact absurd ⟨o, hnode⟩ hocc
        | _ => rfl
    · rfl

theorem definesAll_forM {ws : List NodeId} (hws : ∀ w ∈ ws, ∃ o, t.node? w = some (.occurrence o)) :
    DefinesAll ws t ((ws.forM define).after t) := by
  induction ws generalizing t with
  | nil => exact fun m => by rw [if_neg List.not_mem_nil]; rfl
  | cons w rest ih =>
    obtain ⟨o, ho⟩ := hws w (by simp)
    obtain ⟨hrun, hfirst⟩ := define_ok ho
    rw [List.forM, after_bind_of_ok hrun]
    refine hfirst.cons (ih fun w' hw' => ?_)
    obtain ⟨o', ho'⟩ := hws w' (by simp [hw'])
    rw [hfirst, ho']
    split <;> exact ⟨_, rfl⟩

/-- A node has the children that it asks for once those that it writes are definitions. -/
theorem suits_of_defined (hfills : node.Fills) (hnodup : node.children.Nodup) (v : Var)
    (haccepts : ∀ written, ∀ c ∈ node.role written, ∀ child, t.node? c = some child →
      node.Accepts fits v written (if written then child.defined else child))
    (hnodes : ∀ c ∈ node.children, t'.node? c =
      if c ∈ node.writes then (t.node? c).map Node.defined else t.node? c) :
    t'.Suits fits node := by
  refine ⟨hfills, v, fun written c hmem child hchild => ?_⟩
  rw [hnodes c (Node.mem_children_of_role hmem)] at hchild
  cases written with
  | true =>
    rw [if_pos (show c ∈ node.writes from hmem)] at hchild
    obtain ⟨before, hbefore, rfl⟩ := Option.map_eq_some_iff.1 hchild
    exact haccepts true c hmem before hbefore
  | false =>
    rw [if_neg fun hw => (List.nodup_append.1 hnodup).2.2 c hw c hmem rfl] at hchild
    exact haccepts false c hmem child hchild

/-- A node may be made over children that it asks for if those that it writes are made
definitions. -/
theorem KeepsShape.make {β : Type} {x : NodeId → Edit Tree β} (hc : t.Coherent)
    (hfills : node.Fills)
    (v : Var) (haccepts : ∀ written, ∀ c ∈ node.role written, ∀ child, t.node? c = some child →
      node.Accepts fits v written (if written then child.defined else child))
    (hx : ∀ m : Tree, (∀ k found, t.node? k = some found → m.node? k = some found) →
      DefinesAll node.writes m ((x t.next).after m)) :
    t.KeepsShape fits ((allocOwning node >>= x).after t) := by
  intro h
  rcases allocOwning_cases node t with ⟨e, he⟩ | ⟨m, hrun, hnodup, hdetached, hadopts⟩
  · rwa [after_bind, he]
  · rw [after_bind_of_ok hrun]
    have hpushed (k : NodeId) : m.node? k = if k = t.next then some node else t.node? k :=
      (hadopts.node? k).trans (node?_push t _ k)
    have hdefines := hx m fun k found hk => (hadopts.node? k).trans (node?_push_of_some hk _)
    generalize (x t.next).after m = t' at hdefines
    have hold {c : NodeId} (hmem : c ∈ node.children) : c ≠ t.next := by
      obtain ⟨s, hs, -⟩ := hdetached c hmem
      exact ne_next (index_lt_size hs)
    have hwrites {c : NodeId} (hmem : c ∈ node.writes) : c ∈ node.children :=
      List.mem_append_left _ hmem
    have hnodes {k : NodeId} (hk : k ≠ t.next) : t'.node? k =
        if k ∈ node.writes then (t.node? k).map Node.defined else t.node? k := by
      rw [hdefines, hpushed, if_neg hk]
    have hnew : t'.node? t.next = some node := by
      rw [hdefines, if_neg fun hmem => hold (hwrites hmem) rfl, hpushed, if_pos rfl]
    -- What is new, or is made a definition, has been on no list yet.
    refine h.of_detached hc (fun k hk hfree => ?_) fun k found hk => ?_
    · rw [hnodes (ne_next hk), if_neg fun hmem => hfree (hdetached k (hwrites hmem))]
    · by_cases hkn : k = t.next
      · rw [hkn, hnew, Option.some.injEq] at hk
        subst hk
        exact .inr (suits_of_defined hfills hnodup v haccepts fun c hmem => hnodes (hold hmem))
      · rw [hnodes hkn] at hk
        split at hk
        · obtain ⟨child, hchild, rfl⟩ := Option.map_eq_some_iff.1 hk
          cases child with
          | occurrence o => exact .inr (suits_occurrence _)
          | _ => exact .inl hchild
        · exact .inl hk

theorem KeepsShape.make_of_accepts {β : Type} {f : NodeId → β} (hc : t.Coherent)
    (hfills : node.Fills)
    (hwrites : node.writes = []) (haccepts : ∀ v written child, node.Accepts fits v written child) :
    t.KeepsShape fits ((do return f (← allocOwning node) : Edit Tree β).after t) :=
  .make hc hfills (.ofLocal 0) (fun written _ _ child _ => haccepts _ written _)
    fun m _ k => by rw [hwrites, if_neg List.not_mem_nil]; rfl

theorem KeepsShape.push (hc : t.Coherent) (hsuits : (t.push { node }).Suits fits node) :
    t.KeepsShape fits (t.push { node }) := fun h => by
  have hnodes := node?_push t { node }
  refine h.of_detached hc (fun k hk _ => ?_) fun k found hk => ?_
  · exact (hnodes k).trans (if_neg (ne_next hk))
  · rw [hnodes] at hk
    split at hk
    · exact .inr (Option.some.inj hk ▸ hsuits)
    · exact .inl hk

theorem checkStackSlot_ok {u : Unit} (h : t.checkStackSlot n = .ok u) :
    ∃ o, t.node? n = some (.occurrence o) ∧ o.var.isLocal = false := by
  simp only [checkStackSlot, Except.bind_eq_ok, varOf_ok] at h
  obtain ⟨_, ⟨o, ho, rfl⟩, h⟩ := h
  cases hlocal : o.var.isLocal with
  | true => simp [hlocal] at h
  | false => exact ⟨o, ho, hlocal⟩

theorem keepsShape_newStore (hc : t.Coherent) (target value : NodeId) :
    t.KeepsShape fits ((newStore target value).after t) := by
  refine Moves.of_ask (R := KeepsShape fits) fun o ho =>
    .make hc trivial (.ofLocal 0) ?_ fun m _ => ?_
  · rintro (_ | _) c hc child hchild hw
    · simp at hw
    · obtain rfl := List.mem_singleton.1 hc
      obtain rfl : child = .occurrence o := by simpa [occurrence_ok.1 ho] using hchild.symm
      exact ⟨_, rfl, rfl⟩
  · rw [after_bind_pure]
    exact definesAll_define target m

theorem keepsShape_newShuffle (hc : t.Coherent) (kind : Shuffle) (targets sources : List NodeId) :
    t.KeepsShape fits ((newShuffle kind targets sources).after t) := by
  refine Moves.of_guard (R := KeepsShape fits) fun harity => ?_
  rcases forM_ask_ends (fun n t => t.checkStackSlot n) (targets ++ sources) t with
    ⟨_, t, hrun, rfl, hall⟩ | ⟨e, t, hrun, rfl, -⟩
  · rw [after_bind_of_ok hrun]
    have hslot {c : NodeId} (hmem : c ∈ targets ++ sources) := checkStackSlot_ok (hall c hmem)
    refine .make hc (by simpa [Node.Fills] using harity) (.ofLocal 0) ?_ fun m hm => ?_
    · intro written c hmem child hchild
      obtain ⟨o, ho, hstack⟩ := hslot (Node.mem_children_of_role hmem)
      obtain rfl : child = .occurrence o := by simpa [ho] using hchild.symm
      cases written with
      | true => exact ⟨fun _ => ⟨_, rfl, rfl⟩, fun _ => ⟨_, rfl, hstack⟩⟩
      | false => exact ⟨by simp, fun _ => ⟨o, rfl, hstack⟩⟩
    · rw [after_bind_pure]
      refine definesAll_forM fun w hw => ?_
      obtain ⟨o, ho, -⟩ := hslot (List.mem_append_left _ hw)
      exact ⟨o, hm w _ ho⟩
  · rw [after_bind, hrun]
    exact Std.Refl.refl t

theorem keepsShape_newPhi {inputs : PhiInputs} (hc : t.Coherent)
    (hready : fits → ∃ v, t.varOf target = .ok v ∧
      ∀ q ∈ (Phi.mk target inputs).operands, t.Occurs v false q) :
    t.KeepsShape fits ((newPhi target inputs).after t) := by
  have hv : ∃ v, fits → t.varOf target = .ok v ∧
      ∀ q ∈ (Phi.mk target inputs).operands, t.Occurs v false q := by
    by_cases hfits : fits
    · exact (hready hfits).imp fun v hv _ => hv
    · exact ⟨.ofLocal 0, fun h => absurd h hfits⟩
  obtain ⟨v, hv⟩ := hv
  refine .make hc trivial v ?_ fun m _ => ?_
  · intro written c hmem child hchild hfits
    obtain ⟨htarget, hoperands⟩ := hv hfits
    cases written with
    | true =>
      obtain rfl := List.mem_singleton.1 hmem
      obtain ⟨o, ho, hvar⟩ := varOf_ok.1 htarget
      obtain rfl : child = .occurrence o := by simpa [ho] using hchild.symm
      exact ⟨_, rfl, hvar, rfl⟩
    | false =>
      obtain ⟨o, ho, hvar, huse⟩ := hoperands c hmem
      obtain rfl : child = .occurrence o := by simpa [ho] using hchild.symm
      exact ⟨o, rfl, hvar, huse⟩
  · rw [after_bind_pure]
    exact definesAll_define target m

/-- A tree in order stays in order, and if every node has had the children that it asks for, every
node has them. -/
def Keeps (fits : Prop) (t t' : Tree) : Prop := t.Coherent → t'.Coherent ∧ t.KeepsShape fits t'

instance : IsPreorder Tree (Keeps fits) where
  refl t hc := ⟨hc, Std.Refl.refl t⟩
  trans _ _ _ h h' hc := by
    obtain ⟨hc', hkeeps⟩ := h hc
    exact ⟨(h' hc').1, (h' hc').2 ∘ hkeeps⟩

theorem Evolves.keeps (he : t.Evolves t') (h : t.Coherent → t.KeepsShape fits t') :
    Keeps fits t t' :=
  fun hc => ⟨(he hc).1, h hc⟩

theorem keeps_newOperands (target : NodeId) (keys : List BlockId) :
    Moves (Keeps fits) (newOperands target keys) := by
  have huse : Moves (Keeps fits) (useLike target) := fun t =>
    (Grows.moves_evolves (moves_useLike target) t).keeps fun hc =>
      Moves.of_ask (R := KeepsShape fits) fun _ _ => .push hc (suits_occurrence _)
  exact .mapM (fun _ => huse.bind fun _ => .pure _) keys

theorem newOperands_occurs {keys : List BlockId} {operands : List (BlockId × NodeId)}
    (h : newOperands target keys t = .ok operands t') :
    (keys = [] ∨ ∃ v, t.varOf target = .ok v) ∧ ∀ v, t.varOf target = .ok v →
      t'.varOf target = .ok v ∧ ∀ q ∈ operands.map Prod.snd, t'.Occurs v false q := by
  have hall := mapM_ok h (fun before done m => (before = [] ∧ m = t ∨ ∃ v, t.varOf target = .ok v) ∧
    (∀ k node, t.node? k = some node → m.node? k = some node) ∧
      ∀ v, t.varOf target = .ok v → ∀ q ∈ done.map Prod.snd, m.Occurs v false q) (by simp) ?_
  · obtain ⟨hsome, hkept, hoperands⟩ := hall
    refine ⟨hsome.imp_left And.left, fun v hv => ⟨?_, hoperands v hv⟩⟩
    obtain ⟨o, ho, hvar⟩ := varOf_ok.1 hv
    exact varOf_ok.2 ⟨o, hkept target _ ho, hvar⟩
  · rintro before key - done made m m' - ⟨hsome, hkept, hoperands⟩ hrun
    obtain ⟨operand, m₁, hmake, hpure⟩ := bind_ok.1 hrun
    obtain ⟨rfl, rfl⟩ := pure_ok.1 hpure
    obtain ⟨o, ho, rfl, rfl⟩ := useLike_ok.1 hmake
    refine ⟨.inr ?_, fun k node hk => node?_push_of_some (hkept k node hk) _, fun v hv q hq => ?_⟩
    · rcases hsome with ⟨-, rfl⟩ | hsome
      · exact ⟨o.var, varOf_ok.2 ⟨o, ho, rfl⟩⟩
      · exact hsome
    · rw [List.map_append, List.mem_append] at hq
      rcases hq with hq | hq
      · obtain ⟨oq, hoq, hrest⟩ := hoperands v hv q hq
        exact ⟨oq, node?_push_of_some hoq _, hrest⟩
      · obtain rfl := List.mem_singleton.1 hq
        obtain ⟨ot, hot, rfl⟩ := varOf_ok.1 hv
        obtain rfl : o = ot := by simpa [ho] using hkept target _ hot
        exact ⟨_, (node?_push m _ _).trans (if_pos rfl), rfl, rfl⟩

/-- A phi may be made with operands of its own. Without any, nobody has asked before whether the
target is a variable. -/
theorem keepsShape_newPhi_of_newOperands (hc : t.Coherent) {keys : List BlockId}
    {inputs : List (BlockId × NodeId) → PhiInputs}
    (hinputs : ∀ operands, (Phi.mk target (inputs operands)).operands = operands.map Prod.snd)
    (hvar : fits → keys = [] → ∃ v, t.varOf target = .ok v) :
    t.KeepsShape fits
      ((do newPhi target (inputs (← newOperands target keys)) : Edit Tree NodeId).after t) := by
  have hkeeps : (_ : Tree).Coherent ∧ t.KeepsShape fits _ := keeps_newOperands target keys t hc
  refine Moves.of_first hkeeps.2 fun operands m hrun _ => ?_
  rw [after_of_ok hrun] at hkeeps
  obtain ⟨hnone, hoccurs⟩ := newOperands_occurs hrun
  refine keepsShape_newPhi hkeeps.1 fun hfits => ?_
  obtain ⟨v, hv⟩ : ∃ v, t.varOf target = .ok v := hnone.elim (hvar hfits) id
  obtain ⟨htarget, hoperands⟩ := hoccurs v hv
  exact ⟨v, htarget, hinputs operands ▸ hoperands⟩

end making

section copying

/-- A copy acts as the node that it is a copy of. -/
theorem carries_copy {limit : Nat} {m : NodeId} (h : copy limit n t = .ok m t') :
    Carries t t' n m := by
  cases limit with
  | zero => exact (throw_ok.1 h).elim
  | succ limit =>
    rw [copy, bind_ok] at h
    obtain ⟨node, _, hask, h⟩ := h
    obtain ⟨hnode, rfl⟩ := ask_ok.1 hask
    obtain ⟨copies, t₁, -, h⟩ := bind_ok.1 h
    obtain ⟨top, t₂, halloc, h⟩ := bind_ok.1 h
    obtain ⟨rfl, rfl⟩ := alloc_ok.1 halloc
    obtain ⟨u, t₃, hparents, h⟩ := bind_ok.1 h
    obtain ⟨rfl, rfl⟩ := pure_ok.1 h
    have hwanes : Wanes _ t₃ :=
      (Moves.forM (fun c => wanes_releasing.setParent c _) copies).of_ok hparents
    intro child hchild
    have hpushed := hwanes _ _ hchild
    rw [node?_push, if_pos rfl, Option.some.injEq] at hpushed
    exact ⟨node, node_ok.1 hnode, hpushed ▸ Node.actsAs_withChildren node copies⟩

theorem carries_copies {limit : Nat} {cs copies : List NodeId} (hc : t.Coherent)
    (hin : ∀ c ∈ cs, c.index < t.size) (h : cs.mapM (copy limit) t = .ok copies t') :
    List.Forall₂ (fun c q => q.index < t'.size ∧ Carries t t' c q) cs copies := by
  refine (mapM_ok h (fun before done m => m.Coherent ∧ t.size ≤ m.size ∧
    (∀ k : NodeId, k.index < t.size → m.slot? k = t.slot? k) ∧
      List.Forall₂ (fun c q => q.index < m.size ∧ Carries t m c q) before done)
    ⟨hc, Nat.le_refl _, fun _ _ => rfl, .nil⟩ ?_).2.2.2
  rintro before c after done q m m' hsplit ⟨hm, hle, hkept, hall⟩ hrun
  have hcopy := copies_copy hrun hm
  have hsize := hcopy.size_le
  have hm' := (evolves_copy limit c m hm).1
  rw [after_of_ok hrun] at hm'
  obtain ⟨-, sq, -, hq, -⟩ := hcopy.detached
  refine ⟨hm', Nat.le_trans hle hsize, fun k hk => ?_,
    List.rel_append (hall.imp ?_) (.cons ?_ .nil)⟩
  · rw [hcopy.kept k (Nat.lt_of_lt_of_le hk hle), hkept k hk]
  · rintro c' q' ⟨hlt, hcarries⟩
    refine ⟨Nat.lt_of_lt_of_le hlt hsize, fun child hchild => hcarries child ?_⟩
    rwa [node?, hcopy.kept q' hlt] at hchild
  · refine ⟨index_lt_size hq, fun child' hchild' => ?_⟩
    obtain ⟨child, hchild, hacts⟩ := carries_copy hrun child' hchild'
    refine ⟨child, ?_, hacts⟩
    rwa [node?, hkept c (hin c (by simp [hsplit]))] at hchild

theorem keeps_copy (limit : Nat) (n : NodeId) : Moves (Keeps fits) (copy limit n) := by
  induction limit generalizing n with
  | zero => exact .throw _
  | succ limit ih =>
    refine fun t => (evolves_copy (limit + 1) n t).keeps fun hc => ?_
    refine Moves.of_ask (R := KeepsShape fits) fun node hnode h => ?_
    obtain ⟨s, hs, rfl⟩ := node?_eq_some.1 (node_ok.1 hnode)
    obtain ⟨hfills, v, hcontents⟩ := h n s.node (node_ok.1 hnode)
    have hkeeps := Moves.mapM ih s.node.children t hc
    rcases after_bind_cases (x := s.node.children.mapM (copy limit)) (f := fun copies => do
      let top ← alloc (s.node.withChildren copies)
      copies.forM fun c => setParent c (some top)
      return top) t with hstop | ⟨copies, hrun, hrest⟩
    · rw [hstop]
      exact hkeeps.2 h
    · have hcopies := carries_copies hc (hc.inside n s hs) hrun
      generalize (s.node.children.mapM (copy limit)).after t = m at hkeeps hrest hcopies
      rw [hrest, after_bind_of_ok (alloc_ok.2 ⟨rfl, rfl⟩)]
      have hpush : (m.push { node := s.node.withChildren copies }).Shaped fits := by
        refine KeepsShape.push hkeeps.1 (suits_withChildren hfills v hcopies ?_) (hkeeps.2 h)
        rintro written c hmem q ⟨hlt, hcarries⟩ child' hchild'
        rw [node?_push, if_neg (ne_next hlt)] at hchild'
        obtain ⟨child, hchild, hacts⟩ := hcarries child' hchild'
        exact (hcontents written c hmem child hchild).actsAs hacts
      exact hpush.of_wanes
        ((Moves.forM (fun c => wanes_releasing.setParent c _) copies).bind (fun _ => .pure _) _)

end copying

end Tree

end MethodFlow
