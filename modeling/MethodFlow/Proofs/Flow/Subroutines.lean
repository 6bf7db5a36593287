import MethodFlow.Proofs.Flow.Growth
import MethodFlow.Proofs.Ssa.Requests

/-!
Subroutines of a graph. Whatever has been asked for, their calls are kept apart. As long as no edge
has been removed, every call has its edges, in whatever order the calls and the exits were
registered.
-/

namespace MethodFlow

open Edit

/-- A subroutine starts and ends in blocks of the graph, and it is not called from its own entry. -/
structure Subroutine.SoundIn (sub : Subroutine) (f : FlowGraph) : Prop where
  entry : f.contains sub.entry = true
  exit : ∀ exit ∈ sub.exit, f.contains exit = true
  outside : ∀ p ∈ sub.paths, p.1 ≠ sub.entry

/-- Each call has an edge into the subroutine and, once the exit is known, one back. -/
structure Subroutine.WiredIn (sub : Subroutine) (f : FlowGraph) : Prop where
  calls : ∀ p ∈ sub.paths, sub.entry ∈ f.succs p.1
  returns : ∀ exit ∈ sub.exit, ∀ p ∈ sub.paths, p.2 ∈ f.succs exit

namespace FlowGraph

variable {f f' : FlowGraph} {s : SubroutineId} {sub : Subroutine}

/-- No two subroutines start in the same block, and no two calls come back to the same one. -/
structure Routed (f : FlowGraph) : Prop where
  sound : ∀ sub ∈ f.subroutines, sub.SoundIn f
  entries : (f.subroutines.map Subroutine.entry).Nodup
  returns : (f.subroutines.flatMap fun sub => sub.paths.map Prod.snd).Nodup

/-- Every call has its edges. -/
def Wired (f : FlowGraph) : Prop := ∀ sub ∈ f.subroutines, sub.WiredIn f

/-- The graph has grown, and its subroutines are as they should be. -/
structure Registers (f f' : FlowGraph) : Prop where
  grows : f.Grows f'
  routed : f'.Routed
  wired : f.Wired → f'.Wired

namespace Grows

variable (h : f.Grows f')

include h

theorem soundIn (hsub : sub.SoundIn f) : sub.SoundIn f' where
  entry := h.contains hsub.entry
  exit exit hexit := h.contains (hsub.exit exit hexit)
  outside := hsub.outside

theorem wiredIn (hsub : sub.WiredIn f) : sub.WiredIn f' where
  calls p hp := h.succs (hsub.calls p hp)
  returns exit hexit p hp := h.succs (hsub.returns exit hexit p hp)

theorem registers (hr : f.Routed) (hsubs : ∀ sub ∈ f'.subroutines, sub ∈ f.subroutines ∨
      sub.SoundIn f' ∧ (f.Wired → sub.WiredIn f'))
    (entries : (f'.subroutines.map Subroutine.entry).Nodup)
    (returns : (f'.subroutines.flatMap fun sub => sub.paths.map Prod.snd).Nodup) :
    f.Registers f' where
  grows := h
  routed :=
    { sound := fun sub hsub =>
      (hsubs sub hsub).elim (fun hold => h.soundIn (hr.sound sub hold)) And.left
      entries, returns }
  wired hw sub hsub := (hsubs sub hsub).elim (fun hold => h.wiredIn (hw sub hold)) fun hnew =>
    hnew.2 hw

theorem registers_same (hr : f.Routed) (hsubs : f'.subroutines = f.subroutines) : f.Registers f' :=
  h.registers hr (fun _ hsub => .inl (hsubs ▸ hsub)) (hsubs ▸ hr.entries) (hsubs ▸ hr.returns)

end Grows

theorem grows_withSubroutines (f : FlowGraph) (subroutines : List Subroutine) :
    f.Grows { f with subroutines } := .of_sameOutline ⟨rfl, rfl⟩ rfl rfl

theorem addSubroutine_settles (hr : f.Routed) (entry : BlockId) :
    Settles (addSubroutine entry) f fun _ f' => f.Registers f' := by
  refine .of_ask fun _ hentry => .of_get ?_
  dsimp only
  split
  · exact .refused _
  next hfree =>
  refine .inr ⟨_, _, rfl, (grows_withSubroutines f _).registers hr (fun sub hsub => ?_) ?_ ?_⟩
  · rcases List.mem_append.1 hsub with hold | hnew
    · exact .inl hold
    · rw [List.mem_singleton.1 hnew]
      exact .inr ⟨⟨checkBlock_ok.1 hentry, by simp, by simp⟩, fun _ => ⟨by simp, by simp⟩⟩
  · have hfree : entry ∉ f.subroutines.map Subroutine.entry := by simpa using hfree
    simpa using hr.entries.concat hfree
  · simpa using hr.returns

theorem subroutines_split (h : f.subroutine s = .ok sub) (change : Subroutine → Subroutine) :
    ∃ before after, f.subroutines = before ++ sub :: after ∧
      f.subroutines.modify s.index change = before ++ change sub :: after := by
  unfold subroutine subroutine? at h
  split at h
  · next found hfound =>
    obtain rfl := Except.ok.inj h
    obtain ⟨before, sub', after, hsplit, hlength, hmodify⟩ :=
      List.exists_of_modify change (List.getElem?_eq_some_iff.1 hfound).1
    rw [hsplit, ← hlength, List.getElem?_append_right (Nat.le_refl _)] at hfound
    obtain rfl : sub' = found := by simpa using hfound
    exact ⟨before, after, hsplit, hmodify⟩
  · simp at h

theorem Grows.registers_change {before after : List Subroutine} {sub' : Subroutine} (h : f.Grows f')
    (hr : f.Routed) (hsplit : f.subroutines = before ++ sub :: after)
    (hsubs : f'.subroutines = before ++ sub' :: after) (entry : sub'.entry = sub.entry)
    (sound : sub'.SoundIn f') (wired : sub.WiredIn f → sub'.WiredIn f')
    (returns : (f'.subroutines.flatMap fun sub => sub.paths.map Prod.snd).Nodup) :
    f.Registers f' := by
  refine h.registers hr (fun other hother => ?_) ?_ returns
  · rw [hsubs, List.mem_append, List.mem_cons] at hother
    rw [hsplit, List.mem_append, List.mem_cons]
    rcases hother with hother | rfl | hother
    · exact .inl (.inl hother)
    · exact .inr ⟨sound, fun hw => wired (hw sub (by simp [hsplit]))⟩
    · exact .inl (.inr (.inr hother))
  · rw [hsubs, List.map_append, List.map_cons, entry, ← List.map_cons, ← List.map_append, ← hsplit]
    exact hr.entries

theorem setSubroutineExit_settles (hf : f.Framed) (hr : f.Routed) (s : SubroutineId)
    (exit : BlockId) :
    Settles (setSubroutineExit s exit) f fun _ f' => f.Registers f' := by
  refine .of_ask fun _ hexit => .of_ask fun sub hsub => ?_
  have hset : Yields (do
      modifySubroutine s fun sub => { sub with exit := some exit }
      sub.returnBlocks.forM fun b => do
        let _ ← addEdge exit b .subroutineReturn) f fun _ f' => f.Registers f' := by
    obtain ⟨before, after, hsplit, hmodify⟩ :=
      subroutines_split hsub fun sub => { sub with exit := some exit }
    have hmem : sub ∈ f.subroutines := by simp [hsplit]
    have hsound := hr.sound sub hmem
    have hset := grows_withSubroutines f
      (f.subroutines.modify s.index fun sub => { sub with exit := some exit })
    refine .of_first (a := ()) (Edit.modify_ok.2 rfl)
      ((addEdges_joins sub.returnBlocks (fun _ => exit) id
      .subroutineReturn fun b hb => ?_).mono fun _ f' hjoins => ?_)
    · exact ⟨hset.contains (checkBlock_ok.1 hexit), hset.contains (hf.contains_returnBlock hmem hb)⟩
    have hgrows := IsTrans.trans _ _ _ hset hjoins.grows
    have hsubs := hjoins.subroutines.trans hmodify
    refine hgrows.registers_change hr hsplit hsubs rfl ?_ (fun hwired => ?_) ?_
    · exact ⟨hgrows.contains hsound.entry, by simpa using hgrows.contains (checkBlock_ok.1 hexit),
        hsound.outside⟩
    · refine ⟨fun p hp => hgrows.succs (hwired.calls p hp), ?_⟩
      rintro _ ⟨⟩ p hp
      exact hjoins.joined _ (List.mem_map_of_mem (mem_firstOccurrences.2 (List.mem_map_of_mem hp)))
    · simpa [hsubs, hsplit] using hr.returns
  cases sub.exit with
  | none => exact .inr hset
  | some current =>
    dsimp only
    split
    · exact .refused _
    · exact .inr hset

/-- A block that no other call comes back to, and not this one either, is no return block yet. -/
theorem not_mem_returns (hf : f.Framed) {call ret : BlockId} (hsub : f.subroutine s = .ok sub)
    (htaken : ¬f.returnTaken s call ret) (hnew : (call, ret) ∉ sub.paths) :
    ret ∉ f.subroutines.flatMap fun sub => sub.paths.map Prod.snd := by
  intro hret
  simp only [List.mem_flatMap, List.mem_map] at hret
  obtain ⟨other, hother, ⟨c, r⟩, hp, rfl⟩ := hret
  simp only [returnTaken, List.any_eq_true, not_exists, not_and, Bool.and_eq_true, Bool.or_eq_true,
    decide_eq_true_eq, not_or, not_not] at htaken
  obtain ⟨rfl, rfl⟩ := htaken other hother (c, r) hp rfl
  rw [subroutine, hf.subroutine?_id hother] at hsub
  exact hnew (Except.ok.inj hsub ▸ hp)

def withCall (f : FlowGraph) (s : SubroutineId) (call ret : BlockId) : FlowGraph :=
  { f with
    subroutines := f.subroutines.modify s.index fun sub =>
      { sub with paths := sub.paths ++ [(call, ret)] } }

/-- A call is registered once it has its edges. -/
theorem Joins.registers_call {pairs : List (BlockId × BlockId)} {call ret : BlockId}
    (h : Joins pairs (f.withCall s call ret) f') (hr : f.Routed) (hsub : f.subroutine s = .ok sub)
    (hentry : sub.entry ≠ call)
    (hfree : ret ∉ f.subroutines.flatMap fun sub => sub.paths.map Prod.snd)
    (hcalled : (call, sub.entry) ∈ pairs) (hreturned : ∀ exit ∈ sub.exit, (exit, ret) ∈ pairs) :
    f.Registers f' := by
  obtain ⟨before, after, hsplit, hmodify⟩ :=
    subroutines_split hsub fun sub => { sub with paths := sub.paths ++ [(call, ret)] }
  have hsound := hr.sound sub (by simp [hsplit])
  have hgrows := IsTrans.trans _ _ _ (grows_withSubroutines f _) h.grows
  have hsubs := h.subroutines.trans hmodify
  refine hgrows.registers_change hr hsplit hsubs rfl ?_ (fun hwired => ?_) ?_
  · obtain ⟨hin, hout, houtside⟩ := hgrows.soundIn hsound
    refine ⟨hin, hout, fun p hp => ?_⟩
    rcases List.mem_append.1 hp with hold | hnew
    · exact houtside p hold
    · rw [List.mem_singleton.1 hnew]
      exact hentry.symm
  · obtain ⟨hcalls, hreturns⟩ := hgrows.wiredIn hwired
    refine ⟨fun p hp => ?_, fun exit hexit p hp => ?_⟩ <;>
      rcases List.mem_append.1 hp with hold | hnew
    · exact hcalls p hold
    · rw [List.mem_singleton.1 hnew]
      exact h.joined _ hcalled
    · exact hreturns exit hexit p hold
    · rw [List.mem_singleton.1 hnew]
      exact h.joined _ (hreturned exit hexit)
  · have hreturns := hr.returns
    rw [hsplit] at hfree hreturns
    rw [hsubs]
    simp only [List.flatMap_append, List.flatMap_cons, List.map_append, List.map_cons, List.map_nil,
      List.append_assoc, List.singleton_append] at hfree hreturns ⊢
    rw [← List.append_assoc, List.nodup_middle, List.append_assoc]
    exact List.nodup_cons.2 ⟨hfree, hreturns⟩

theorem addSubroutineCall_settles (hf : f.Framed) (hr : f.Routed) (s : SubroutineId)
    (call ret : BlockId) :
    Settles (addSubroutineCall s call ret) f fun _ f' => f.Registers f' := by
  refine .of_ask fun _ hcall => .of_ask fun _ hret => .of_get ?_
  dsimp only
  split
  · exact .refused _
  next htaken =>
  refine .of_ask fun sub hsub => ?_
  split
  · exact .refused _
  next hentry =>
  split
  · exact .inr (.pure (Grows.registers_same (Std.Refl.refl f) hr rfl))
  next hnew =>
  have hset : f.Grows (f.withCall s call ret) := grows_withSubroutines f _
  have hcall := hset.contains (checkBlock_ok.1 hcall)
  have hret := hset.contains (checkBlock_ok.1 hret)
  have hfree := not_mem_returns hf hsub htaken hnew
  obtain ⟨before, after, hsplit, -⟩ := subroutines_split hsub id
  have hsound := hset.soundIn (hr.sound sub (by simp [hsplit]))
  refine .inr (.of_first (a := ()) (Edit.modify_ok.2 rfl) ?_)
  refine (addEdge_joins hcall hsound.entry .subroutineCall).bind fun _ f₁ _ hentered => ?_
  cases hexit : sub.exit with
  | none => exact .pure (hentered.registers_call hr hsub hentry hfree (by simp) (by simp [hexit]))
  | some exit =>
    refine (addEdge_joins (hentered.grows.contains (hsound.exit exit hexit))
      (hentered.grows.contains hret) .subroutineReturn).bind fun _ f₂ _ hleft => .pure ?_
    exact (hentered.trans hleft).registers_call hr hsub hentry hfree (by simp) (by simp [hexit])

/-- A request about the frame that is no removal is refused and changes nothing, or the graph grows
and its subroutines are as they should be. -/
theorem settles_run (hf : f.Framed) (hr : f.Routed) (hfaithful : f.Faithful) {r : FlowRequest}
    (hframe : r.IsFrame) (hkept : ∀ s t, r ≠ .removeEdge s t) :
    Settles r.run ⟨f, []⟩ fun _ m => f.Registers m.value := by
  have joined {f' : FlowGraph} {pairs : List (BlockId × BlockId)} (h : Joins pairs f f') :
      f.Registers f' :=
    h.grows.registers_same hr h.subroutines
  have quiet {α : Type} {x : Edit FlowGraph α} (h : Settles x f fun _ f' => f.Registers f') :
      Settles (do let _ ← quietly x) (⟨f, []⟩ : Recorded FlowGraph) fun _ m =>
        f.Registers m.value :=
    Settles.bind (Settles.quietly (r := ⟨f, []⟩) h) fun _ _ hm => .pure hm
  cases r with
  | addBlock label => exact quiet (.inr ⟨_, _, rfl, (grows_addBlock label f).registers_same hr rfl⟩)
  | addEdge s t kind =>
    refine quiet ((addEdge_settles f s t kind).mono ?_)
    rintro _ _ ⟨-, -, rfl⟩
    exact joined (.withEdge f s t kind)
  | removeEdge s t => exact absurd rfl (hkept s t)
  | query q =>
    refine Settles.quietly ((recall_settles hfaithful hf q).mono fun _ _ hm => ?_)
    obtain ⟨computed, rfl, -⟩ := id hm
    exact hm.grows.registers_same hr rfl
  | addHandler protectedBlocks entry caught =>
    exact quiet ((addHandler_settles f protectedBlocks entry caught).mono fun _ _ hm =>
      joined hm.2.2)
  | addExceptionTable table resolve =>
    refine Settles.quietly ((addExceptionTable_settles f table resolve).mono ?_)
    rintro _ _ ⟨found, -, hm⟩
    exact joined hm
  | addSubroutine entry => exact quiet (addSubroutine_settles hr entry)
  | setSubroutineExit s exit => exact (setSubroutineExit_settles hf hr s exit).quietly
  | addSubroutineCall s call ret => exact (addSubroutineCall_settles hf hr s call ret).quietly
  | _ => exact hframe.elim

theorem registers_request (hf : f.Framed) (hr : f.Routed) (hfaithful : f.Faithful) {r : FlowRequest}
    (hkept : ∀ s t, r ≠ .removeEdge s t) : f.Registers (f.request r) := by
  have hsame : f.Registers f := Grows.registers_same (Std.Refl.refl f) hr rfl
  by_cases hframe : r.IsFrame
  · exact (settles_run hf hr hfaithful hframe hkept).along (R := Recorded.Along Registers) hsame
      fun _ _ hm => hm
  · have hshape := Asking.sameShape.request_along f hframe
    exact hshape.grows.registers_same hr hshape.subroutines

/-- A removal leaves the blocks and the subroutines alone, and it counts if there was an edge. -/
theorem request_removeEdge (f : FlowGraph) (s t : BlockId) :
    f.request (.removeEdge s t) = if t ∈ f.succs s then
      { f with graph := f.graph.removeEdge s t : FlowGraph }.invalidate else f := by
  have hafter : f.request (.removeEdge s t) = (removeEdge s t).after f := by
    rw [request, FlowRequest.run, after_bind_pure, after_liftM]
  have hmem : t ∈ f.succs s ↔ (f.edgeKind? s t).isSome := hasEdge_iff.symm
  rw [hafter]
  rcases removeEdge_cases f s t with ⟨hkind, hrun⟩ | ⟨kind, hkind, hrun⟩
  · rw [after_of_ok hrun, if_neg (by simp [hmem, hkind])]
  · rw [after_of_ok hrun, if_pos (by simp [hmem, hkind])]

theorem routed_request (hf : f.Framed) (hr : f.Routed) (hfaithful : f.Faithful) (r : FlowRequest) :
    (f.request r).Routed ∧ (f.request r).Faithful := by
  by_cases hremoval : ∃ s t, r = .removeEdge s t
  · obtain ⟨s, t, rfl⟩ := hremoval
    rw [request_removeEdge]
    split
    · exact ⟨⟨fun sub hsub => ⟨(hr.sound sub hsub).entry, (hr.sound sub hsub).exit,
        (hr.sound sub hsub).outside⟩, hr.entries, hr.returns⟩, .of_nothing rfl⟩
    · exact ⟨hr, hfaithful⟩
  · have hregisters := registers_request hf hr hfaithful fun s t he => hremoval ⟨s, t, he⟩
    exact ⟨hregisters.routed, hregisters.grows.faithful hfaithful⟩

theorem routed_ofLabel (label : UInt32) : (ofLabel label).Routed ∧ (ofLabel label).Faithful :=
  ⟨by constructor <;> simp [ofLabel], .of_nothing rfl⟩

/-- What has been made is routed, and what it keeps of computations is faithful. -/
theorem Made.routed (h : f.Made) : f.Routed ∧ f.Faithful := by
  obtain ⟨label, rs, rfl⟩ := h
  exact requests_induction (P := fun f => f.Routed ∧ f.Faithful) ⟨label, [], rfl⟩
    (routed_ofLabel label)
    (fun f r hf _ hp => routed_request hf.coherent.toFramed hp.1 hp.2 r) fun _ _ => trivial

theorem Registers.trans {f'' : FlowGraph} (h : f.Registers f') (h' : f'.Registers f'') :
    f.Registers f'' where
  grows := IsTrans.trans _ _ _ h.grows h'.grows
  routed := h'.routed
  wired := h'.wired ∘ h.wired

/-- Requests that remove no edge make a graph grow and register subroutines. -/
theorem Made.registers (h : f.Made) {rs : List FlowRequest}
    (hrs : ∀ r ∈ rs, ∀ s t, r ≠ .removeEdge s t) :
    f.Registers (f.requests rs) := by
  refine requests_induction h (Grows.registers_same (Std.Refl.refl f) h.routed.1 rfl)
    (fun g r hg hr hp => ?_) hrs
  obtain ⟨hrouted, hfaithful⟩ := hg.routed
  exact hp.trans (registers_request hg.coherent.toFramed hrouted hfaithful hr)

/-- In every graph that is made without removing edges, no two calls of subroutines come back to the
same block, no two subroutines start in the same one, and none is called from its own entry. Every
call has its edge into the subroutine and, once the exit is set, its edge back. A request about
subroutines that is refused changes nothing. -/
theorem subroutines_agree (label : UInt32) {rs : List FlowRequest}
    (hrs : ∀ r ∈ rs, ∀ s t, r ≠ .removeEdge s t) :
    let f := (ofLabel label).requests rs
    (f.subroutines.flatMap fun sub => sub.paths.map Prod.snd).Nodup ∧
      (f.subroutines.map Subroutine.entry).Nodup ∧
      (∀ sub ∈ f.subroutines,
        (∀ p ∈ sub.paths, p.1 ≠ sub.entry ∧ sub.entry ∈ f.succs p.1) ∧
          ∀ exit ∈ sub.exit, ∀ p ∈ sub.paths, p.2 ∈ f.succs exit) ∧
      (∀ entry, Refuses (addSubroutine entry) f) ∧
      (∀ s exit, Refuses (setSubroutineExit s exit) f) ∧
      ∀ s call ret, Refuses (addSubroutineCall s call ret) f := by
  intro f
  have hmade : (ofLabel label).Made := ⟨label, [], rfl⟩
  have hframed : f.Framed := Made.coherent ⟨label, rs, rfl⟩ |>.toFramed
  obtain ⟨-, hrouted, hwired⟩ := hmade.registers hrs
  have hwired : f.Wired := hwired fun sub hsub => absurd hsub (by simp [ofLabel])
  refine ⟨hrouted.returns, hrouted.entries, fun sub hsub => ⟨fun p hp => ⟨?_, ?_⟩, ?_⟩,
    fun entry => (addSubroutine_settles hrouted entry).refuses,
    fun s exit => (setSubroutineExit_settles hframed hrouted s exit).refuses,
    fun s call ret => (addSubroutineCall_settles hframed hrouted s call ret).refuses⟩
  · exact (hrouted.sound sub hsub).outside p hp
  · exact (hwired sub hsub).calls p hp
  · exact (hwired sub hsub).returns

/-- A subroutine is called before and after its exit is set, and a call that comes back to a block
already taken is refused. -/
def callsAroundExit : List FlowRequest :=
  [.addBlock 1, .addBlock 2, .addBlock 3, .addBlock 4, .addSubroutine ⟨1⟩,
    .addSubroutineCall ⟨0⟩ ⟨0⟩ ⟨2⟩, .setSubroutineExit ⟨0⟩ ⟨3⟩, .addSubroutineCall ⟨0⟩ ⟨2⟩ ⟨4⟩,
    .addSubroutineCall ⟨0⟩ ⟨3⟩ ⟨4⟩]

theorem subroutines_agree_around_exit :
    let f := (ofLabel 0).requests callsAroundExit
    f.subroutines.map Subroutine.paths = [[(⟨0⟩, ⟨2⟩), (⟨2⟩, ⟨4⟩)]] ∧
      (f.subroutines.flatMap fun sub => sub.paths.map Prod.snd).Nodup ∧
      ∀ sub ∈ f.subroutines, ∀ exit ∈ sub.exit, ∀ p ∈ sub.paths, p.2 ∈ f.succs exit := by
  have hrs : ∀ r ∈ callsAroundExit, ∀ s t, r ≠ .removeEdge s t := by simp [callsAroundExit]
  obtain ⟨hreturns, -, hsubs, -⟩ := subroutines_agree 0 hrs
  exact ⟨by decide, hreturns, fun sub hsub => (hsubs sub hsub).2⟩

end FlowGraph

end MethodFlow
