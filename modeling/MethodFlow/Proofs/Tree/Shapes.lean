import MethodFlow.Proofs.Tree.Making
import MethodFlow.Proofs.Tree.Pairing

/-!
The shapes of statements. Whatever is asked of a tree, a node keeps the children that it asks for,
but for replacements and for phis without operands, which have to fit.
-/

namespace MethodFlow

namespace Tree

open Edit

section replacing

variable {fits : Prop} {t t' : Tree} {node child : Node} {v : Var} {old new p : NodeId}

/-- What a node asks of a new child beyond what a replacement sees to: a shuffle wants a variable on
the stack, and a phi an occurrence of the variable that the old child belongs to, a use in the place
of a use. -/
def FitsInto (t : Tree) (node : Node) (old new : NodeId) : Prop :=
  match node with
  | .shuffle _ _ _ => ∃ v, t.varOf new = .ok v ∧ v.isLocal = false
  | .phi _ => ∃ v, t.varOf old = .ok v ∧ t.varOf new = .ok v ∧
      (t.isDefinition old = .ok false → t.isDefinition new = .ok false)
  | _ => True

theorem fitsInto_of_expression (h : node.isStatement = false) : t.FitsInto node old new := by
  cases node with
  | shuffle => simp [Node.isStatement] at h
  | phi => simp [Node.isStatement] at h
  | _ => trivial

theorem Prepares.node?_new (h : Prepares old new t t') (hchild : t'.node? new = some child) :
    t.defines old = false ∧ t.node? new = some child ∨ t.defines old = true ∧
      ∃ o, t.node? new = some (.occurrence o) ∧ child = .occurrence { o with defines := true } := by
  unfold Prepares at h
  by_cases hold : t.defines old = true
  · rw [if_pos hold] at h
    obtain ⟨s, o, hs, ho, rfl⟩ := modifyOccurrence_ok.1 h
    rw [node?_put hs, if_pos rfl, Option.some.injEq] at hchild
    exact .inr ⟨hold, o, node?_eq_some.2 ⟨s, hs, ho⟩, hchild.symm⟩
  · rw [if_neg hold] at h
    exact .inl ⟨by simpa using hold, h ▸ hchild⟩

theorem Prepares.accepts (h : Prepares old new t t') {before : Node} {written : Bool}
    (hbefore : t.node? old = some before) (haccepts : node.Accepts fits v written before)
    (hfits : fits → t.FitsInto node old new) (hchild : t'.node? new = some child) :
    node.Accepts fits v written child := by
  have hdefined : (written = true → ∃ o, before = .occurrence o ∧ o.defines = true) →
      written = true → ∃ o, child = .occurrence o ∧ o.defines = true := fun hasked hw => by
    obtain ⟨o, rfl, hd⟩ := hasked hw
    rcases h.node?_new hchild with ⟨hnot, -⟩ | ⟨-, o', -, rfl⟩
    · simp [defines, hbefore, hd] at hnot
    · exact ⟨_, rfl, rfl⟩
  have hvar {w : Var} (hw : t.varOf new = .ok w) : ∃ o, child = .occurrence o ∧ o.var = w := by
    obtain ⟨o, ho, rfl⟩ := varOf_ok.1 hw
    rcases h.node?_new hchild with ⟨-, hsame⟩ | ⟨-, o', ho', rfl⟩
    · exact ⟨o, by simpa [ho] using hsame.symm, rfl⟩
    · obtain rfl : o = o' := by simpa [ho] using ho'
      exact ⟨_, rfl, rfl⟩
  cases node with
  | store target value => exact hdefined haccepts
  | shuffle kind targets sources =>
    refine ⟨hdefined haccepts.1, fun hf => ?_⟩
    obtain ⟨w, hw, hstack⟩ := hfits hf
    obtain ⟨o, rfl, rfl⟩ := hvar hw
    exact ⟨o, rfl, hstack⟩
  | phi p =>
    intro hf
    obtain ⟨o, rfl, rfl, hd⟩ := haccepts hf
    obtain ⟨w, hold, hw, huse⟩ := hfits hf
    obtain rfl : o.var = w := by
      obtain ⟨o', ho', rfl⟩ := varOf_ok.1 hold
      obtain rfl : o = o' := by simpa [hbefore] using ho'
      rfl
    obtain ⟨o', rfl, hv⟩ := hvar hw
    refine ⟨o', rfl, hv, ?_⟩
    have hrole : t.defines old = o.defines := by simp [defines, hbefore]
    rcases h.node?_new hchild with ⟨hnot, hsame⟩ | ⟨hmarked, _, -, he⟩
    · have hdefines : o.defines = false := hrole ▸ hnot
      obtain ⟨o₁, ho₁, hd₁⟩ := isDefinition_ok.1 (huse (isDefinition_ok.2 ⟨o, hbefore, hdefines⟩))
      obtain rfl : o' = o₁ := by simpa [hsame] using ho₁
      rw [← hd, hd₁, hdefines]
    · obtain rfl := Node.occurrence.inj he
      rw [← hd, ← hrole, hmarked]
  | _ => trivial

/-- A parent may exchange a child for another one that it accepts there. -/
theorem KeepsShape.replaceChild (haccepts : ∀ sp v written child, t.slot? p = some sp →
      t.Contents fits v sp.node → old ∈ sp.node.role written → t.node? new = some child →
        sp.node.Accepts fits v written child) :
    t.KeepsShape fits
      ((modifySlot p fun s => { s with node := s.node.replaceChild old new }).after t) := by
  intro h
  rcases after_modifySlot p (fun s => { s with node := s.node.replaceChild old new }) t with
    hsame | ⟨sp, hsp, hput⟩
  · rwa [hsame]
  · have hnode : t.node? p = some sp.node := node?_eq_some.2 ⟨sp, hsp, rfl⟩
    obtain ⟨hfills, v, hcontents⟩ := h p _ hnode
    rw [hput]
    refine h.of_node hnode (Node.actsAs_withChildren _ _) (node?_put hsp _) fun hcarries => ?_
    refine suits_withChildren (R := fun c c' => c' = if c = old then new else c) hfills v
      (List.forall₂_map_right_iff.2 (List.forall₂_same.2 fun _ _ => rfl)) ?_
    rintro written c hc c' rfl child' hchild'
    obtain ⟨child, hchild, hacts⟩ := hcarries _ child' hchild'
    refine Node.Accepts.actsAs ?_ hacts
    split at hchild
    · next he => exact haccepts sp v written child hsp hcontents (he ▸ hc) hchild
    · exact hcontents written c hc child hchild

/-- A replacement keeps the shape of the parent if the new node fits in. -/
theorem keepsShape_replace (hc : t.Coherent) (hfits : fits → ∀ p node, t.parent old = .ok (some p) →
      t.node p = .ok node → t.checkDetached new = .ok ⟨⟩ → t.FitsInto node old new) :
    t.KeepsShape fits ((replace old new).after t) := by
  intro h
  have hreplaces := replaces_replace old new t
  generalize (replace old new).after t = t' at hreplaces
  cases hreplaces with
  | nothing => exact h
  | @exchanged p t₁ hparent hnew hprepares =>
    have hdetached : t.Detached new := checkDetached_ok.1 hnew
    have hmarks := hprepares.marks
    have hother {m : NodeId} (hm : m ≠ new) : t₁.node? m = t.node? m := by
      rw [node?, hmarks.other m hm]
      rfl
    have h₁ : t₁.Shaped fits := by
      refine h.of_detached hc (fun m _ hfree => hother ?_) fun m node hm => ?_
      · rintro rfl
        exact hfree hdetached
      · by_cases he : m = new
        · subst he
          rcases hprepares.node?_new hm with ⟨-, hsame⟩ | ⟨-, o, -, rfl⟩
          · exact .inl hsame
          · exact .inr (suits_occurrence _)
        · exact .inl (hother he ▸ hm)
    refine KeepsShape.releasing.exchangeChild (KeepsShape.replaceChild ?_) h₁
    intro sp v written child hsp hcontents hmem hchild
    obtain ⟨s, hs, hp⟩ := parent_ok.1 hparent
    have hne : old ≠ new := hdetached.ne_of_parent hs hp
    have hbefore : t.node? old = some s.node := node?_eq_some.2 ⟨s, hs, rfl⟩
    refine hprepares.accepts hbefore (hcontents written old hmem _ ((hother hne).trans hbefore))
      (fun hf => ?_) hchild
    by_cases hpn : p = new
    · obtain ⟨sn, hn, hexpr, -⟩ := hmarks.detached hdetached
      obtain rfl : sn = sp := by simpa [← hpn, hsp] using hn.symm
      exact fitsInto_of_expression hexpr
    · exact hfits hf p sp.node hparent
        (node_ok.2 (hother hpn ▸ node?_eq_some.2 ⟨sp, hsp, rfl⟩)) hnew

end replacing

end Tree

namespace TreeRequest

open MethodFlow.Tree Edit

variable {fits : Prop} {t : Tree}

/-- The request leaves statements as they should be: a phi without operands is made over a variable,
and a child is replaced by a node that its parent can have there. -/
def Fits (t : Tree) : TreeRequest → Prop
  | newJoinPhi target _ preds =>
    t.checkDetached target = .ok ⟨⟩ → preds = [] → ∃ v, t.varOf target = .ok v
  | newReturnPhi target _ calls =>
    t.checkDetached target = .ok ⟨⟩ → calls = [] → ∃ v, t.varOf target = .ok v
  | replace old new => ∀ p node, t.parent old = .ok (some p) → t.node p = .ok node →
      t.checkDetached new = .ok ⟨⟩ → t.FitsInto node old new
  | _ => True

theorem keeps_run (r : TreeRequest) (hfits : fits → r.Fits t) : t.Keeps fits (r.run.after t) := by
  refine (moves_run r t).keeps fun hc => ?_
  have hmake (node : Node) (hfills : node.Fills) (hwrites : node.writes = [])
      (haccepts : ∀ v written child, node.Accepts fits v written child) :
      t.KeepsShape fits ((do let _ ← allocOwning node : Edit Tree Unit).after t) :=
    .make_of_accepts (f := fun _ => ()) hc hfills hwrites haccepts
  have hpush (node : Node) (hfills : node.Fills)
      (haccepts : ∀ v written child, node.Accepts fits v written child) :
      t.KeepsShape fits (t.push { node }) := .push hc (suits_of_accepts hfills haccepts)
  cases r with
  | newVariable var type => exact .push hc (suits_occurrence _)
  | newLiteral value => exact hpush (.literal value) trivial fun _ _ _ => trivial
  | newReturnAddress => exact hpush .returnAddress trivial fun _ _ _ => trivial
  | newBinary op left right type =>
    exact hmake (.binary op left right type) trivial rfl fun _ _ _ => trivial
  | newEval value => exact hmake (.eval value) trivial rfl fun _ _ _ => trivial
  | newStore target value =>
    rw [run, after_bind_pure]
    exact keepsShape_newStore hc target value
  | newShuffle kind targets sources =>
    rw [run, after_bind_pure]
    exact keepsShape_newShuffle hc kind targets sources
  | newReturnValue value => exact hmake (.returnValue value) trivial rfl fun _ _ _ => trivial
  | newReturnVoid => exact hpush .returnVoid trivial fun _ _ _ => trivial
  | newSaveAddress sub => exact hpush (.saveAddress sub) trivial fun _ _ _ => trivial
  | newJoinPhi target block preds =>
    rw [run, after_bind_pure]
    exact Moves.of_ask (R := KeepsShape fits) fun _ hcheck =>
      keepsShape_newPhi_of_newOperands hc (fun _ => rfl) fun hf => hfits hf hcheck
  | newCatchPhi target =>
    rw [run, after_bind_pure]
    refine Moves.of_ask (R := KeepsShape fits) fun o ho => keepsShape_newPhi hc fun _ => ?_
    exact ⟨o.var, varOf_ok.2 ⟨o, occurrence_ok.1 ho, rfl⟩, by simp [Phi.operands]⟩
  | newReturnPhi target sub calls =>
    rw [run, after_bind_pure]
    exact Moves.of_ask (R := KeepsShape fits) fun _ hcheck =>
      keepsShape_newPhi_of_newOperands hc (fun _ => rfl) fun hf => hfits hf hcheck
  | replace old new => exact keepsShape_replace hc hfits
  | cleanup n => exact KeepsShape.releasing.cleanup n t
  | cloneSubtree n =>
    rw [run, after_bind_pure]
    exact (keeps_copy (t.size + 1) n t hc).2
  | setLink n d => exact KeepsShape.moves_setLink n d t
  | setJoinOperand n pred operand =>
    exact .of_takesOperand (takesOperand_setJoinOperand n pred operand t)
  | setReturnOperand n call operand =>
    exact .of_takesOperand (takesOperand_setReturnOperand n call operand t)
  | addCatchOperand n operand => exact .of_takesOperand (takesOperand_addCatchOperand n operand t)
  | setCatchOperand n index operand =>
    exact .of_takesOperand (takesOperand_setCatchOperand n index operand t)

end TreeRequest

namespace TreeEdit

open MethodFlow.Tree Edit

variable {fits : Prop} {t : Tree} {e : TreeEdit}

def Fits (t : Tree) : TreeEdit → Prop
  | request r => r.Fits t
  | _ => True

theorem keeps_edit (e : TreeEdit) (hfits : fits → e.Fits t) : t.Keeps fits (t.edit e) := by
  cases e with
  | request r =>
    have hrun : t.edit (.request r) = r.run.after t :=
      congrArg Recorded.value (after_within _ _ _ _)
    exact hrun ▸ r.keeps_run hfits
  | retainJoinOperands n preds =>
    refine (evolves_edit t _).keeps fun _ => ?_
    rw [Tree.edit, run, after_bind_pure]
    exact KeepsShape.of_drops (drops_retainJoinOperands n preds ⟨t, []⟩)
  | readCatchOperands n =>
    refine (evolves_edit t _).keeps fun _ => ?_
    rw [Tree.edit, run, after_bind_pure]
    exact KeepsShape.of_drops (drops_readCatchOperands n ⟨t, []⟩)

end TreeEdit

namespace Tree

variable {fits : Prop} {t : Tree} {es : List TreeEdit}

/-- Every edit of a run fits. -/
def FittingRun (t : Tree) : List TreeEdit → Prop
  | [] => True
  | e :: rest => e.Fits t ∧ (t.edit e).FittingRun rest

theorem keeps_edits (hes : fits → t.FittingRun es) : t.Keeps fits (t.edits es) := by
  induction es generalizing t with
  | nil => exact Std.Refl.refl (r := Keeps fits) t
  | cons e rest ih =>
    exact IsTrans.trans (r := Keeps fits) _ _ _ (e.keeps_edit fun hf => (hes hf).1)
      (ih fun hf => (hes hf).2)

theorem shaped_empty : Shaped fits empty := fun n node hn => by
  obtain ⟨s, hs, -⟩ := node?_eq_some.1 hn
  exact absurd (index_lt_size hs) (Nat.not_lt_zero _)

theorem Shaped.statement (h : t.Shaped fits) {n : NodeId} {node : Node}
    (hn : t.statement n = .ok node) :
    node.Fills ∧ ∃ v, ∀ written, ∀ c ∈ node.role written, t.isLive c = true →
      ∃ child, t.node? c = some child ∧ node.Accepts fits v written child := by
  obtain ⟨hfills, v, hcontents⟩ := h n node (statement_ok.1 hn).1
  refine ⟨hfills, v, fun written c hc hlive => ?_⟩
  obtain ⟨s, hs⟩ := Option.isSome_iff_exists.1 hlive
  have hnode : t.node? c = some s.node := node?_eq_some.2 ⟨s, hs, rfl⟩
  exact ⟨_, hnode, hcontents written c hc _ hnode⟩

/-- In every tree that edits lead to, the target of a store is a definition if it is in use, and a
shuffle has the slots that its kind asks for, those it writes being definitions. A phi is the parent
of its operands. As long as every edit fits, the slots of a shuffle are on the stack, and a phi
defines its target and uses its operands, all occurrences of one variable. -/
theorem shapes_of_edits {es : List TreeEdit} (ht : Tree.empty.edits es = t) :
    (∀ n target value, t.statement n = .ok (.store target value) → t.isLive target = true →
      t.isDefinition target = .ok true) ∧
    (∀ n kind targets sources, t.statement n = .ok (.shuffle kind targets sources) →
      targets.length = kind.targetCount ∧ sources.length = kind.sourceCount ∧
      (∀ c ∈ targets, t.isLive c = true → t.isDefinition c = .ok true) ∧
      (Tree.empty.FittingRun es → ∀ c ∈ targets ++ sources, t.isLive c = true →
        ∃ v, t.varOf c = .ok v ∧ v.isLocal = false)) ∧
    ∀ n p, t.statement n = .ok (.phi p) →
      (∀ q ∈ p.operands, t.isLive q = true → t.parent q = .ok (some n)) ∧
      (Tree.empty.FittingRun es → ∃ v,
        (t.isLive p.target = true → t.varOf p.target = .ok v ∧ t.isDefinition p.target = .ok true) ∧
        ∀ q ∈ p.operands, t.isLive q = true → t.varOf q = .ok v ∧
          t.isDefinition q = .ok false) := by
  subst ht
  have hkeeps : Tree.empty.Keeps (Tree.empty.FittingRun es) (Tree.empty.edits es) := keeps_edits id
  obtain ⟨hcoherent, hshape⟩ := hkeeps paired_empty.coherent
  have hshaped := hshape shaped_empty
  generalize Tree.empty.edits es = t at hcoherent hshaped
  refine ⟨fun n target value hn hlive => ?_, fun n kind targets sources hn => ?_, fun n p hn => ?_⟩
  · obtain ⟨-, v, haccepts⟩ := hshaped.statement hn
    obtain ⟨_, hnode, hasked⟩ := haccepts true target (List.mem_singleton_self _) hlive
    obtain ⟨o, rfl, hd⟩ := hasked rfl
    exact isDefinition_ok.2 ⟨o, hnode, hd⟩
  · obtain ⟨⟨htargets, hsources⟩, v, haccepts⟩ := hshaped.statement hn
    refine ⟨htargets, hsources, fun c hc hlive => ?_, fun hrun c hc hlive => ?_⟩
    · obtain ⟨_, hnode, hwritten, -⟩ := haccepts true c hc hlive
      obtain ⟨o, rfl, hd⟩ := hwritten rfl
      exact isDefinition_ok.2 ⟨o, hnode, hd⟩
    · obtain ⟨written, hrole⟩ : ∃ written, c ∈ (Node.shuffle kind targets sources).role written :=
        (List.mem_append.1 hc).elim (fun h => ⟨true, h⟩) fun h => ⟨false, h⟩
      obtain ⟨_, hnode, -, hslot⟩ := haccepts written c hrole hlive
      obtain ⟨o, rfl, hstack⟩ := hslot hrun
      exact ⟨o.var, varOf_ok.2 ⟨o, hnode, rfl⟩, hstack⟩
  · obtain ⟨-, v, haccepts⟩ := hshaped.statement hn
    refine ⟨fun q hq hlive => ?_, fun hrun => ⟨v, fun hlive => ?_, fun q hq hlive => ?_⟩⟩
    · obtain ⟨s, hs, hnode⟩ := node?_eq_some.1 (statement_ok.1 hn).1
      obtain ⟨sq, hsq⟩ := Option.isSome_iff_exists.1 hlive
      refine parent_ok.2 ⟨sq, hsq, hcoherent.owned n s hs q ?_ sq hsq⟩
      rw [hnode]
      exact List.mem_cons_of_mem _ hq
    · obtain ⟨_, hnode, hasked⟩ := haccepts true p.target (List.mem_singleton_self _) hlive
      obtain ⟨o, rfl, hv, hd⟩ := hasked hrun
      exact ⟨varOf_ok.2 ⟨o, hnode, hv⟩, isDefinition_ok.2 ⟨o, hnode, hd⟩⟩
    · obtain ⟨_, hnode, hasked⟩ := haccepts false q hq hlive
      obtain ⟨o, rfl, hv, hd⟩ := hasked hrun
      exact ⟨varOf_ok.2 ⟨o, hnode, hv⟩, isDefinition_ok.2 ⟨o, hnode, hd⟩⟩

/-- A slot of a shuffle and an operand of a phi are replaced by others of their kind, and the
shuffle is copied. -/
def exchangeSlots : List TreeEdit :=
  [.request (.newVariable (.ofStack 0) .int), .request (.newVariable (.ofStack 1) .int),
    .request (.newVariable (.ofStack 1) .int), .request (.newVariable (.ofStack 0) .int),
    .request (.newShuffle .swap [⟨0⟩, ⟨1⟩] [⟨2⟩, ⟨3⟩]), .request (.newVariable (.ofStack 2) .int),
    .request (.replace ⟨0⟩ ⟨5⟩), .request (.newVariable (.ofLocal 0) .int),
    .request (.newJoinPhi ⟨6⟩ ⟨0⟩ [⟨0⟩]), .request (.newVariable (.ofLocal 0) .int),
    .request (.replace ⟨7⟩ ⟨9⟩), .request (.cloneSubtree ⟨4⟩)]

theorem shapes_of_exchangeSlots : Tree.empty.FittingRun exchangeSlots ∧
    (Tree.empty.edits exchangeSlots).isDefinition ⟨10⟩ = .ok true ∧
      (∃ v, (Tree.empty.edits exchangeSlots).varOf ⟨10⟩ = .ok v ∧ v.isLocal = false) ∧
        (Tree.empty.edits exchangeSlots).parent ⟨9⟩ = .ok (some ⟨8⟩) ∧
          (Tree.empty.edits exchangeSlots).isDefinition ⟨9⟩ = .ok false := by
  have hslot : (Tree.empty.edits (exchangeSlots.take 6)).parent ⟨0⟩ = .ok (some ⟨4⟩) ∧
      (Tree.empty.edits (exchangeSlots.take 6)).node ⟨4⟩ =
        .ok (.shuffle .swap [⟨0⟩, ⟨1⟩] [⟨2⟩, ⟨3⟩]) ∧
        (Tree.empty.edits (exchangeSlots.take 6)).varOf ⟨5⟩ = .ok (.ofStack 2) := by decide +kernel
  have hoperand : (Tree.empty.edits (exchangeSlots.take 10)).parent ⟨7⟩ = .ok (some ⟨8⟩) ∧
      (Tree.empty.edits (exchangeSlots.take 10)).node ⟨8⟩ =
        .ok (.phi ⟨⟨6⟩, .joining ⟨0⟩ [(⟨0⟩, ⟨7⟩)]⟩) ∧
        (Tree.empty.edits (exchangeSlots.take 10)).varOf ⟨7⟩ = .ok (.ofLocal 0) ∧
          (Tree.empty.edits (exchangeSlots.take 10)).varOf ⟨9⟩ = .ok (.ofLocal 0) ∧
            (Tree.empty.edits (exchangeSlots.take 10)).isDefinition ⟨9⟩ = .ok false := by
              decide +kernel
  have hrun : Tree.empty.FittingRun exchangeSlots := by
    refine ⟨trivial, trivial, trivial, trivial, trivial, trivial,
      fun p node hp hnode _ => ?_, trivial, fun _ hkeys => absurd hkeys (by simp), trivial,
      fun p node hp hnode _ => ?_, trivial, trivial⟩
    · obtain ⟨hparent, hshuffle, hvar⟩ := hslot
      obtain rfl : ⟨4⟩ = p := Option.some.inj (Except.ok.inj (hparent.symm.trans hp))
      obtain rfl := Except.ok.inj (hshuffle.symm.trans hnode)
      exact ⟨.ofStack 2, hvar, rfl⟩
    · obtain ⟨hparent, hphi, hold, hnew, huse⟩ := hoperand
      obtain rfl : ⟨8⟩ = p := Option.some.inj (Except.ok.inj (hparent.symm.trans hp))
      obtain rfl := Except.ok.inj (hphi.symm.trans hnode)
      exact ⟨.ofLocal 0, hold, hnew, fun _ => huse⟩
  have hcopy : (Tree.empty.edits exchangeSlots).statement ⟨14⟩ =
      .ok (.shuffle .swap [⟨10⟩, ⟨11⟩] [⟨12⟩, ⟨13⟩]) := by decide +kernel
  have hphi : (Tree.empty.edits exchangeSlots).statement ⟨8⟩ =
      .ok (.phi ⟨⟨6⟩, .joining ⟨0⟩ [(⟨0⟩, ⟨9⟩)]⟩) := by decide +kernel
  have hlive : (Tree.empty.edits exchangeSlots).isLive ⟨10⟩ = true ∧
      (Tree.empty.edits exchangeSlots).isLive ⟨9⟩ = true := by decide +kernel
  obtain ⟨-, hshuffles, hphis⟩ := @shapes_of_edits _ exchangeSlots rfl
  obtain ⟨-, -, hdefined, hstack⟩ := hshuffles _ _ _ _ hcopy
  obtain ⟨howned, hroles⟩ := hphis _ _ hphi
  obtain ⟨v, -, huses⟩ := hroles hrun
  exact ⟨hrun, hdefined ⟨10⟩ (by simp) hlive.1, hstack hrun ⟨10⟩ (by simp) hlive.1,
    howned ⟨9⟩ List.mem_cons_self hlive.2, (huses ⟨9⟩ List.mem_cons_self hlive.2).2⟩

/-- An operand of a phi is replaced by a use of another variable. -/
def exchangeVariable : List TreeEdit :=
  [.request (.newVariable (.ofLocal 0) .int), .request (.newJoinPhi ⟨0⟩ ⟨0⟩ [⟨0⟩]),
    .request (.newVariable (.ofLocal 1) .int), .request (.replace ⟨1⟩ ⟨3⟩)]

/-- A phi without operands is asked for over a literal. -/
def mergeNothing : List TreeEdit :=
  [.request (.newLiteral (.int 1)), .request (.newJoinPhi ⟨0⟩ ⟨0⟩ [])]

/-- A replacement asks for nothing but a variable in the place of a definition, so a phi can come to
merge variables. A phi that fails to define its target has been made by then. -/
theorem phis_of_misfits :
    ((Tree.empty.edits exchangeVariable).phiOperands ⟨2⟩ = .ok [⟨3⟩] ∧
      (Tree.empty.edits exchangeVariable).varOf ⟨3⟩ = .ok (.ofLocal 1) ∧
        (Tree.empty.edits exchangeVariable).phiTarget ⟨2⟩ = .ok ⟨0⟩ ∧
          (Tree.empty.edits exchangeVariable).varOf ⟨0⟩ = .ok (.ofLocal 0)) ∧
    (Tree.empty.edits mergeNothing).phiTarget ⟨1⟩ = .ok ⟨0⟩ ∧
      (Tree.empty.edits mergeNothing).isLive ⟨0⟩ = true ∧
        (Tree.empty.edits mergeNothing).isDefinition ⟨0⟩ ≠ .ok true := by decide +kernel

end Tree

end MethodFlow
