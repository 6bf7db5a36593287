import MethodFlow.Edit
import Mathlib.Data.List.Forall2
import Mathlib.Order.Defs.Unbundled

/-!
Reasoning about operations. A run that succeeds tells what each of its steps did, and a loop keeps
what its steps keep. A run succeeds if its steps do, each where the earlier ones have led to. What
every step leads along, a whole run leads along, whether it fails or not.
-/

namespace MethodFlow

section

variable {ε α β : Type}

@[simp] theorem Except.bind_eq_ok {x : Except ε α} {f : α → Except ε β} {b : β} :
    (x >>= f) = .ok b ↔ ∃ a, x = .ok a ∧ f a = .ok b := by
  cases x <;> simp [bind, Except.bind]

theorem Except.bind_eq_error {x : Except ε α} {f : α → Except ε β} {e : ε} :
    (x >>= f) = .error e ↔ x = .error e ∨ ∃ a, x = .ok a ∧ f a = .error e := by
  cases x <;> simp [bind, Except.bind]

@[simp] theorem Except.map_eq_ok {x : Except ε α} {f : α → β} {b : β} :
    f <$> x = .ok b ↔ ∃ a, x = .ok a ∧ f a = b := by
  cases x <;> simp [Functor.map, Except.map]

@[simp] theorem Except.pure_eq_ok {a b : α} : (pure a : Except ε α) = .ok b ↔ a = b := by
  simp [pure, Except.pure]

@[simp] theorem Except.throw_ne_ok {e : ε} {a : α} : (throw e : Except ε α) = .ok a ↔ False := by
  simp [throw, throwThe, MonadExceptOf.throw]

/-- Something can be read for each element of a list if it can be for each by itself. -/
theorem Except.exists_mapM {f : α → Except ε β} {xs : List α} (h : ∀ x ∈ xs, ∃ y, f x = .ok y) :
    ∃ ys, xs.mapM f = .ok ys := by
  induction xs with
  | nil => exact ⟨[], rfl⟩
  | cons x rest ih =>
    obtain ⟨y, hy⟩ := h x (by simp)
    obtain ⟨ys, hys⟩ := ih fun x' hx' => h x' (by simp [hx'])
    exact ⟨y :: ys, by rw [List.mapM_cons, hy, hys]; rfl⟩

theorem Except.mapM_ok {f : α → Except ε β} {g : α → β} {xs : List α} {ys : List β}
    (h : xs.mapM f = .ok ys) (hf : ∀ x ∈ xs, ∀ y, f x = .ok y → y = g x) : ys = xs.map g := by
  induction xs generalizing ys with
  | nil => exact (Except.pure_eq_ok.1 h).symm
  | cons x rest ih =>
    rw [List.mapM_cons] at h
    simp only [Except.bind_eq_ok, Except.pure_eq_ok] at h
    obtain ⟨y, hy, ys', hys, rfl⟩ := h
    rw [List.map_cons, hf x (by simp) y hy, ih hys fun x hx => hf x (by simp [hx])]

theorem Except.forall₂_of_mapM {f : α → Except ε β} {xs : List α} {ys : List β}
    (h : xs.mapM f = .ok ys) :
    List.Forall₂ (fun x y => f x = .ok y) xs ys := by
  induction xs generalizing ys with
  | nil =>
    obtain rfl : [] = ys := Except.pure_eq_ok.1 h
    exact .nil
  | cons x rest ih =>
    rw [List.mapM_cons] at h
    simp only [Except.bind_eq_ok, Except.pure_eq_ok] at h
    obtain ⟨y, hx, ys', hys, rfl⟩ := h
    exact .cons hx (ih hys)

/-- Something can be read for each element of a list if something has been read for all of it. -/
theorem Except.exists_of_mapM {f : α → Except ε β} {xs : List α} {ys : List β}
    (h : xs.mapM f = .ok ys) :
    ∀ x ∈ xs, ∃ y, f x = .ok y := by
  have hread := Except.forall₂_of_mapM h
  clear h
  induction hread with
  | nil => exact fun _ hx => absurd hx List.not_mem_nil
  | cons hx _ ih => exact List.forall_mem_cons.2 ⟨⟨_, hx⟩, ih⟩

theorem Except.mem_of_mapM {f : α → Except ε β} {xs : List α} {ys : List β} (h : xs.mapM f = .ok ys)
    {y : β} (hy : y ∈ ys) : ∃ x ∈ xs, f x = .ok y := by
  have hread := Except.forall₂_of_mapM h
  clear h
  induction hread with
  | nil => exact absurd hy List.not_mem_nil
  | @cons x y' xs ys hx _ ih =>
    rcases List.mem_cons.1 hy with rfl | hy
    · exact ⟨x, by simp, hx⟩
    · obtain ⟨x', hx', hread⟩ := ih hy
      exact ⟨x', by simp [hx'], hread⟩

end

def Recorded.Along {σ : Type} (R : σ → σ → Prop) (r r' : Recorded σ) : Prop := R r.value r'.value

instance {σ : Type} {R : σ → σ → Prop} [IsPreorder σ R] :
    IsPreorder (Recorded σ) (Recorded.Along R) where
  refl r := Std.Refl.refl (r := R) r.value
  trans r r' r'' := IsTrans.trans (r := R) r.value r'.value r''.value

namespace Edit

variable {σ τ α β : Type} {s s' : σ}

@[simp] theorem bind_ok {x : Edit σ α} {f : α → Edit σ β} {b : β} :
    (x >>= f) s = .ok b s' ↔ ∃ a m, x s = .ok a m ∧ f a m = .ok b s' := by
  show EStateM.bind x f s = _ ↔ _
  unfold EStateM.bind
  cases x s <;> simp [and_assoc]

@[simp] theorem bind_error {x : Edit σ α} {f : α → Edit σ β} {e : Fault} :
    (x >>= f) s = .error e s' ↔
      x s = .error e s' ∨ ∃ a m, x s = .ok a m ∧ f a m = .error e s' := by
  show EStateM.bind x f s = _ ↔ _
  unfold EStateM.bind
  cases x s <;> simp [and_assoc]

theorem bind_of_ok {x : Edit σ α} {f : α → Edit σ β} {a : α} (h : x s = .ok a s') :
    (x >>= f) s = f a s' := by
  show EStateM.bind x f s = _
  rw [EStateM.bind, h]

theorem bind_congr {x y : Edit σ α} {f : α → Edit σ β} (h : x s = y s) :
    (x >>= f) s = (y >>= f) s := by
  show EStateM.bind x f s = EStateM.bind y f s
  rw [EStateM.bind, EStateM.bind, h]

@[simp] theorem map_ok {x : Edit σ α} {f : α → β} {b : β} :
    (f <$> x) s = .ok b s' ↔ ∃ a, x s = .ok a s' ∧ f a = b := by
  show EStateM.map f x s = _ ↔ _
  unfold EStateM.map
  cases x s <;> simp [and_comm, and_assoc]

theorem map_error {x : Edit σ α} {f : α → β} {e : Fault} :
    (f <$> x) s = .error e s' ↔ x s = .error e s' := by
  show EStateM.map f x s = _ ↔ _
  unfold EStateM.map
  cases x s <;> simp

@[simp] theorem pure_ok {a b : α} : (pure a : Edit σ α) s = .ok b s' ↔ a = b ∧ s = s' := by
  show EStateM.Result.ok a s = _ ↔ _
  simp

@[simp] theorem throw_ok {e : Fault} {a : α} : (throw e : Edit σ α) s = .ok a s' ↔ False := by
  show EStateM.Result.error e s = _ ↔ _
  simp

@[simp] theorem get_ok {a : σ} : (get : Edit σ σ) s = .ok a s' ↔ s = a ∧ s = s' := by
  show EStateM.Result.ok s s = _ ↔ _
  simp

@[simp] theorem set_ok {a : σ} {u : PUnit} : (set a : Edit σ PUnit) s = .ok u s' ↔ a = s' := by
  show EStateM.Result.ok PUnit.unit a = _ ↔ _
  simp

@[simp] theorem modify_ok {f : σ → σ} {u : PUnit} :
    (modify f : Edit σ PUnit) s = .ok u s' ↔ f s = s' := by
  show EStateM.Result.ok PUnit.unit (f s) = _ ↔ _
  simp

@[simp] theorem modifyGet_ok {f : σ → α × σ} {a : α} :
    (modifyGet f : Edit σ α) s = .ok a s' ↔ f s = (a, s') := by
  show EStateM.Result.ok (f s).1 (f s).2 = _ ↔ _
  simp [Prod.ext_iff]

@[simp] theorem ask_ok {f : σ → Except Fault α} {a : α} :
    ask f s = .ok a s' ↔ f s = .ok a ∧ s = s' := by
  unfold ask
  cases f s <;> simp

@[simp] theorem ask_error {f : σ → Except Fault α} {e : Fault} :
    ask f s = .error e s' ↔ f s = .error e ∧ s = s' := by
  unfold ask
  cases f s <;> simp

@[simp] theorem guard_ok {c : Bool} {fault : Fault} {u : Unit} :
    (guard c fault : Edit σ Unit) s = .ok u s' ↔ c = true ∧ s = s' := by
  cases c
  · simp [guard, throw_ok]
  · simp [guard, pure_ok]

theorem when_ok {c : Prop} [Decidable c] {x : Edit σ PUnit} {k : Edit σ α} {a : α} :
    (if c then x >>= fun _ => k else k) s = .ok a s' ↔
      ∃ m, (if c then x s = .ok ⟨⟩ m else m = s) ∧ k m = .ok a s' := by
  by_cases hc : c
  · simp only [if_pos hc, bind_ok]
    exact ⟨fun ⟨_, m, hx, hk⟩ => ⟨m, hx, hk⟩, fun ⟨m, hx, hk⟩ => ⟨⟨⟩, m, hx, hk⟩⟩
  · simp [hc]

@[simp] theorem within_ok {part : σ → τ} {restore : σ → τ → σ} {x : Edit τ α} {a : α} :
    within part restore x s = .ok a s' ↔ ∃ m, x (part s) = .ok a m ∧ restore s m = s' := by
  unfold within
  cases x (part s) <;> simp [and_assoc]

@[simp] theorem within_error {part : σ → τ} {restore : σ → τ → σ} {x : Edit τ α} {e : Fault} :
    within part restore x s = .error e s' ↔ ∃ m, x (part s) = .error e m ∧ restore s m = s' := by
  unfold within
  cases x (part s) <;> simp [and_assoc]

@[simp] theorem report_ok {e : Event} {r r' : Recorded σ} {u : Unit} :
    report e r = .ok u r' ↔ (⟨r.value, r.events ++ [e]⟩ : Recorded σ) = r' := modify_ok

@[simp] theorem quietly_ok {x : Edit σ α} {a : α} {r r' : Recorded σ} :
    quietly x r = .ok a r' ↔ ∃ m, x r.value = .ok a m ∧ (⟨m, r.events⟩ : Recorded σ) = r' :=
  within_ok

section loops

variable {xs : List α} {u : PUnit}

theorem forM_ok {f : α → Edit σ PUnit} (h : xs.forM f s = .ok u s') (I : List α → σ → Prop)
    (start : I [] s)
    (step : ∀ before x after m m', xs = before ++ x :: after → I before m → f x m = .ok ⟨⟩ m' →
      I (before ++ [x]) m') : I xs s' := by
  suffices key : ∀ before rest m, xs = before ++ rest → I before m → rest.forM f m = .ok u s' →
      I xs s' from key [] xs s rfl start h
  intro before rest
  induction rest generalizing before with
  | nil =>
    intro m hxs hm hrun
    obtain ⟨-, rfl⟩ := pure_ok.1 hrun
    simpa [hxs] using hm
  | cons x rest ih =>
    intro m hxs hm hrun
    rw [List.forM, bind_ok] at hrun
    obtain ⟨_, m', hx, hrest⟩ := hrun
    exact ih (before ++ [x]) m' (by simp [hxs]) (step before x rest m m' hxs hm hx) hrest

theorem foldlM_ok {f : β → α → Edit σ β} {b b' : β} (h : xs.foldlM f b s = .ok b' s')
    (I : List α → β → σ → Prop) (start : I [] b s)
    (step : ∀ before x after c c' m m', xs = before ++ x :: after → I before c m →
      f c x m = .ok c' m' → I (before ++ [x]) c' m') : I xs b' s' := by
  suffices key : ∀ before rest c m, xs = before ++ rest → I before c m →
      rest.foldlM f c m = .ok b' s' → I xs b' s' from key [] xs b s rfl start h
  intro before rest
  induction rest generalizing before with
  | nil =>
    intro c m hxs hm hrun
    obtain ⟨rfl, rfl⟩ := pure_ok.1 hrun
    simpa [hxs] using hm
  | cons x rest ih =>
    intro c m hxs hm hrun
    rw [List.foldlM_cons, bind_ok] at hrun
    obtain ⟨c', m', hx, hrest⟩ := hrun
    exact ih (before ++ [x]) c' m' (by simp [hxs]) (step before x rest c c' m m' hxs hm hx) hrest

theorem mapM_ok {f : α → Edit σ β} {ys : List β} (h : xs.mapM f s = .ok ys s')
    (I : List α → List β → σ → Prop) (start : I [] [] s)
    (step : ∀ before x after done y m m', xs = before ++ x :: after → I before done m →
      f x m = .ok y m' → I (before ++ [x]) (done ++ [y]) m') : I xs ys s' := by
  suffices key : ∀ before rest done new m, xs = before ++ rest → I before done m →
      rest.mapM f m = .ok new s' → I xs (done ++ new) s' from key [] xs [] ys s rfl start h
  intro before rest
  induction rest generalizing before with
  | nil =>
    intro done new m hxs hm hrun
    obtain ⟨rfl, rfl⟩ := pure_ok.1 hrun
    simpa [hxs] using hm
  | cons x rest ih =>
    intro done new m hxs hm hrun
    rw [List.mapM_cons, bind_ok] at hrun
    obtain ⟨y, m', hx, hrest⟩ := hrun
    rw [bind_ok] at hrest
    obtain ⟨ys', m'', hys, hpure⟩ := hrest
    obtain ⟨rfl, rfl⟩ := pure_ok.1 hpure
    have := ih (before ++ [x]) (done ++ [y]) ys' m' (by simp [hxs])
      (step before x rest done y m m' hxs hm hx) hys
    simpa using this

theorem filterM_ok {f : α → Edit σ Bool} {ys : List α} (h : xs.filterM f s = .ok ys s')
    (I : List α → List α → σ → Prop) (start : I [] [] s)
    (step : ∀ before x after done kept m m', xs = before ++ x :: after → I before done m →
      f x m = .ok kept m' → I (before ++ [x]) (if kept then done ++ [x] else done) m') :
    I xs ys s' := by
  obtain ⟨out, m, haux, hpure⟩ := bind_ok.1 h
  obtain ⟨rfl, he⟩ := pure_ok.1 hpure
  rw [he] at haux
  suffices key : ∀ before rest acc m, xs = before ++ rest → I before acc.reverse m →
      rest.filterAuxM f acc m = .ok out s' → I xs out.reverse s' from key [] xs [] s rfl start haux
  intro before rest
  induction rest generalizing before with
  | nil =>
    intro acc m hxs hm hrun
    obtain ⟨rfl, rfl⟩ := pure_ok.1 hrun
    simpa [hxs] using hm
  | cons x rest ih =>
    intro acc m hxs hm hrun
    rw [List.filterAuxM, bind_ok] at hrun
    obtain ⟨kept, m', hx, hrest⟩ := hrun
    have hnext := step before x rest acc.reverse kept m m' hxs hm hx
    refine ih (before ++ [x]) _ m' (by simp [hxs]) ?_ hrest
    cases kept with
    | true => simpa using hnext
    | false => simpa using hnext

end loops

section yields

/-- A run succeeds, and `P` holds of its result and of the state it leads to. -/
def Yields (x : Edit σ α) (s : σ) (P : α → σ → Prop) : Prop := ∃ a s', x s = .ok a s' ∧ P a s'

variable {x : Edit σ α} {P Q : α → σ → Prop}

theorem yields_of_ok {a : α} (h : x s = .ok a s') : Yields x s P ↔ P a s' := by
  refine ⟨?_, fun ha => ⟨a, s', h, ha⟩⟩
  rintro ⟨a', m, hrun, ha⟩
  obtain ⟨rfl, rfl⟩ : a = a' ∧ s' = m := by simpa [h] using hrun
  exact ha

instance [∀ a s', Decidable (P a s')] : Decidable (Yields x s P) :=
  match h : x s with
  | .ok a s' => decidable_of_iff (P a s') (yields_of_ok h).symm
  | .error _ _ => .isFalse (by simp [Yields, h])

namespace Yields

theorem mono (h : Yields x s P) (hPQ : ∀ a s', P a s' → Q a s') : Yields x s Q := by
  obtain ⟨a, s', hx, ha⟩ := h
  exact ⟨a, s', hx, hPQ a s' ha⟩

theorem of_ok (h : Yields x s P) (hQ : ∀ a s', x s = .ok a s' → P a s' → Q a s') :
    Yields x s Q := by
  obtain ⟨a, s', hx, ha⟩ := h
  exact ⟨a, s', hx, hQ a s' hx ha⟩

theorem pure {a : α} (h : P a s) : Yields (Pure.pure a : Edit σ α) s P := ⟨a, s, rfl, h⟩

theorem bind {f : α → Edit σ β} {R : β → σ → Prop} (hx : Yields x s P)
    (hf : ∀ a m, x s = .ok a m → P a m → Yields (f a) m R) : Yields (x >>= f) s R := by
  obtain ⟨a, m, hrun, ha⟩ := hx
  obtain ⟨b, s', hb, hR⟩ := hf a m hrun ha
  exact ⟨b, s', bind_ok.2 ⟨a, m, hrun, hb⟩, hR⟩

section known

variable {f : α → Edit σ β} {R : β → σ → Prop} {a : α}

theorem of_first (hx : x s = .ok a s') (hf : Yields (f a) s' R) : Yields (x >>= f) s R := by
  obtain ⟨b, m, hb, hR⟩ := hf
  exact ⟨b, m, bind_ok.2 ⟨a, s', hx, hb⟩, hR⟩

theorem of_ask {g : σ → Except Fault α} (hg : g s = .ok a) (hf : Yields (f a) s R) :
    Yields (Edit.ask g >>= f) s R := of_first (ask_ok.2 ⟨hg, rfl⟩) hf

theorem of_get {f : σ → Edit σ β} (hf : Yields (f s) s R) : Yields (MonadState.get >>= f) s R :=
  of_first rfl hf

theorem of_guard {c : Bool} {e : Fault} {f : Unit → Edit σ β} (hc : c = true)
    (hf : Yields (f ()) s R) : Yields (Edit.guard c e >>= f) s R :=
  of_first (guard_ok.2 ⟨hc, rfl⟩) hf

end known

theorem within {part : σ → τ} {restore : σ → τ → σ} {x : Edit τ α} {R : α → τ → Prop}
    (hx : Yields x (part s) R) (hR : ∀ a t, R a t → P a (restore s t)) :
    Yields (Edit.within part restore x) s P := by
  obtain ⟨a, t, hrun, ha⟩ := hx
  exact ⟨a, restore s t, within_ok.2 ⟨t, hrun, rfl⟩, hR a t ha⟩

section loops

variable {xs : List α}

theorem forM {f : α → Edit σ PUnit} (I : List α → σ → Prop) (start : I [] s)
    (step : ∀ before x after m, xs = before ++ x :: after → I before m →
      Yields (f x) m fun _ => I (before ++ [x])) :
    Yields (xs.forM f) s fun _ => I xs := by
  suffices key : ∀ before rest m, xs = before ++ rest → I before m →
      Yields (rest.forM f) m fun _ => I xs from key [] xs s rfl start
  intro before rest
  induction rest generalizing before with
  | nil => exact fun m hxs hm => pure (by simpa [hxs] using hm)
  | cons x rest ih =>
    intro m hxs hm
    exact (step before x rest m hxs hm).bind fun _ m' _ hm' =>
      ih (before ++ [x]) m' (by simp [hxs]) hm'

theorem foldlM {f : β → α → Edit σ β} {b : β} (I : List α → β → σ → Prop) (start : I [] b s)
    (step : ∀ before x after c m, xs = before ++ x :: after → I before c m →
      Yields (f c x) m fun c' => I (before ++ [x]) c') :
    Yields (xs.foldlM f b) s fun b' => I xs b' := by
  suffices key : ∀ before rest c m, xs = before ++ rest → I before c m →
      Yields (rest.foldlM f c) m fun b' => I xs b' from key [] xs b s rfl start
  intro before rest
  induction rest generalizing before with
  | nil => exact fun c m hxs hm => pure (by simpa [hxs] using hm)
  | cons x rest ih =>
    intro c m hxs hm
    rw [List.foldlM_cons]
    exact (step before x rest c m hxs hm).bind fun c' m' _ hm' =>
      ih (before ++ [x]) c' m' (by simp [hxs]) hm'

theorem mapM {f : α → Edit σ β} (I : List α → List β → σ → Prop) (start : I [] [] s)
    (step : ∀ before x after done m, xs = before ++ x :: after → I before done m →
      Yields (f x) m fun y => I (before ++ [x]) (done ++ [y])) :
    Yields (xs.mapM f) s fun ys => I xs ys := by
  suffices key : ∀ before rest done m, xs = before ++ rest → I before done m →
      Yields (rest.mapM f) m fun new => I xs (done ++ new) from
    (key [] xs [] s rfl start).mono fun _ _ h => h
  intro before rest
  induction rest generalizing before with
  | nil => exact fun done m hxs hm => pure (by simpa [hxs] using hm)
  | cons x rest ih =>
    intro done m hxs hm
    rw [List.mapM_cons]
    refine (step before x rest done m hxs hm).bind fun y m' _ hm' => ?_
    exact (ih (before ++ [x]) (done ++ [y]) m' (by simp [hxs]) hm').bind fun ys m'' _ h =>
      pure (by simpa using h)

theorem filterM {f : α → Edit σ Bool} (I : List α → σ → Prop) (start : I [] s)
    (step : ∀ before x after m, xs = before ++ x :: after → I before m →
      Yields (f x) m fun _ => I (before ++ [x])) :
    Yields (xs.filterM f) s fun _ => I xs := by
  suffices key : ∀ before rest acc m, xs = before ++ rest → I before m →
      Yields (rest.filterAuxM f acc) m fun _ => I xs from
    (key [] xs [] s rfl start).bind fun _ _ _ h => pure h
  intro before rest
  induction rest generalizing before with
  | nil => exact fun acc m hxs hm => pure (by simpa [hxs] using hm)
  | cons x rest ih =>
    intro acc m hxs hm
    exact (step before x rest m hxs hm).bind fun _ m' _ hm' =>
      ih (before ++ [x]) _ m' (by simp [hxs]) hm'

end loops

end Yields

abbrev Succeeds (x : Edit σ α) (s : σ) : Prop := Yields x s fun _ _ => True

theorem succeeds_of_ok {a : α} (h : x s = .ok a s') : Succeeds x s := ⟨a, s', h, trivial⟩

theorem Yields.succeeds (h : Yields x s P) : Succeeds x s := h.mono fun _ _ _ => trivial

theorem Succeeds.within {part : σ → τ} {restore : σ → τ → σ} {x : Edit τ α}
    (hx : Succeeds x (part s)) :
    Succeeds (Edit.within part restore x) s := Yields.within hx fun _ _ h => h

theorem Succeeds.report (e : Event) (r : Recorded σ) : Succeeds (Edit.report e) r :=
  succeeds_of_ok rfl

end yields

theorem outcome_ok {x : Edit σ α} {a : α} : x.outcome s = .ok a ↔ ∃ s', x s = .ok a s' := by
  unfold outcome
  cases x s <;> simp

theorem outcome_error {x : Edit σ α} {e : Fault} :
    x.outcome s = .error e ↔ ∃ s', x s = .error e s' := by
  unfold outcome
  cases x s <;> simp

section refusing

variable {f : α → Edit σ β}

/-- A run that fails has changed nothing. -/
def Refuses (x : Edit σ α) (s : σ) : Prop := ∀ e s', x s = .error e s' → s' = s

theorem Succeeds.refuses {x : Edit σ α} (h : Succeeds x s) : Refuses x s := fun e s' he => by
  obtain ⟨a, m, hrun, -⟩ := h
  simp [hrun] at he

namespace Refuses

theorem throw (e : Fault) : Refuses (MonadExcept.throw e : Edit σ α) s := fun e' s' he => by
  cases he
  rfl

theorem of_ask {g : σ → Except Fault α} (h : ∀ a, g s = .ok a → Refuses (f a) s) :
    Refuses (ask g >>= f) s := fun e s' he => by
  rcases bind_error.1 he with hask | ⟨a, m, hask, hrest⟩
  · exact (ask_error.1 hask).2.symm
  · obtain ⟨ha, rfl⟩ := ask_ok.1 hask
    exact h a ha e s' hrest

theorem of_get {f : σ → Edit σ β} (h : Refuses (f s) s) : Refuses (get >>= f) s := h

theorem of_guard {c : Bool} {fault : Fault} {f : Unit → Edit σ β}
    (h : c = true → Refuses (f ()) s) :
    Refuses (guard c fault >>= f) s := fun e s' he => by
  cases c with
  | true => exact h rfl e s' he
  | false => exact throw fault e s' he

theorem bind_pure {x : Edit σ α} (hx : Refuses x s) (f : α → β) :
    Refuses (x >>= fun a => pure (f a)) s := by
  intro e s' he
  rcases bind_error.1 he with hfail | ⟨a, m, -, hpure⟩
  · exact hx e s' hfail
  · cases hpure

theorem quietly {x : Edit σ α} {r : Recorded σ} (hx : Refuses x r.value) :
    Refuses (Edit.quietly x) r := by
  intro e r' he
  obtain ⟨m, hfail, rfl⟩ := within_error.1 he
  rw [hx e m hfail]

end Refuses

end refusing

section ending

/-- A run succeeds and `P` holds of what it leads to, or it fails and `E` does. -/
def Ends (x : Edit σ α) (s : σ) (P : α → σ → Prop) (E : Fault → σ → Prop) : Prop :=
  Yields x s P ∨ ∃ e s', x s = .error e s' ∧ E e s'

namespace Ends

variable {x : Edit σ α} {f : α → Edit σ β} {P : α → σ → Prop} {R : β → σ → Prop}
  {E : Fault → σ → Prop} {a : α}

theorem of_first (hx : x s = .ok a s') (hf : Ends (f a) s' R E) : Ends (x >>= f) s R E := by
  rcases hf with hf | ⟨e, m, herror, hE⟩
  · exact .inl (.of_first hx hf)
  · exact .inr ⟨e, m, bind_error.2 (.inr ⟨a, s', hx, herror⟩), hE⟩

theorem of_ask {g : σ → Except Fault α} (hg : g s = .ok a) (hf : Ends (f a) s R E) :
    Ends (ask g >>= f) s R E := of_first (ask_ok.2 ⟨hg, rfl⟩) hf

theorem of_get {f : σ → Edit σ β} (hf : Ends (f s) s R E) : Ends (get >>= f) s R E :=
  of_first rfl hf

theorem pure (h : P a s) : Ends (Pure.pure a) s P E := .inl (.pure h)

theorem mono {E' : Fault → σ → Prop} (h : Ends x s P E) (hE : ∀ e m, E e m → E' e m) :
    Ends x s P E' :=
  h.imp_right fun ⟨e, m, herror, he⟩ => ⟨e, m, herror, hE e m he⟩

theorem of_ok {Q : α → σ → Prop} (h : Ends x s P E) (hQ : ∀ a m, x s = .ok a m → P a m → Q a m) :
    Ends x s Q E := h.imp_left fun h => h.of_ok hQ

theorem yields (h : Ends x s P fun _ _ => False) : Yields x s P :=
  h.resolve_right fun ⟨_, _, _, h⟩ => h

theorem bind (hx : Ends x s P E) (hf : ∀ a m, x s = .ok a m → P a m → Ends (f a) m R E) :
    Ends (x >>= f) s R E := by
  rcases hx with ⟨a, m, hrun, ha⟩ | ⟨e, m, herror, hE⟩
  · exact of_first hrun (hf a m hrun ha)
  · exact .inr ⟨e, m, bind_error.2 (.inl herror), hE⟩

theorem and {Q : α → σ → Prop} {E' : Fault → σ → Prop} (h : Ends x s P E) (h' : Ends x s Q E') :
    Ends x s (fun a m => P a m ∧ Q a m) fun e m => E e m ∧ E' e m := by
  rcases h with ⟨a, m, hrun, ha⟩ | ⟨e, m, herror, he⟩
  · rcases h' with h' | ⟨e, m', herror, -⟩
    · exact .inl ⟨a, m, hrun, ha, (yields_of_ok hrun).1 h'⟩
    · simp [hrun] at herror
  · rcases h' with ⟨a, m', hrun, -⟩ | ⟨e', m', herror', he'⟩
    · simp [hrun] at herror
    · obtain ⟨rfl, rfl⟩ := EStateM.Result.error.inj (herror.symm.trans herror')
      exact .inr ⟨e, m, herror, he, he'⟩

section loops

variable {xs : List α}

theorem forM {f : α → Edit σ PUnit} (I : List α → σ → Prop) (start : I [] s)
    (step : ∀ before x after m, xs = before ++ x :: after → I before m →
      Ends (f x) m (fun _ => I (before ++ [x])) E) : Ends (xs.forM f) s (fun _ => I xs) E := by
  suffices key : ∀ before rest m, xs = before ++ rest → I before m →
      Ends (rest.forM f) m (fun _ => I xs) E from key [] xs s rfl start
  intro before rest
  induction rest generalizing before with
  | nil => exact fun m hxs hm => pure (by simpa [hxs] using hm)
  | cons x rest ih =>
    intro m hxs hm
    exact (step before x rest m hxs hm).bind fun _ m' _ hm' =>
      ih (before ++ [x]) m' (by simp [hxs]) hm'

theorem mapM {f : α → Edit σ β} (I : List α → List β → σ → Prop) (start : I [] [] s)
    (step : ∀ before x after done m, xs = before ++ x :: after → I before done m →
      Ends (f x) m (fun y => I (before ++ [x]) (done ++ [y])) E) :
    Ends (xs.mapM f) s (fun ys => I xs ys) E := by
  suffices key : ∀ before rest done m, xs = before ++ rest → I before done m →
      Ends (rest.mapM f) m (fun ys => I xs (done ++ ys)) E from key [] xs [] s rfl start
  intro before rest
  induction rest generalizing before with
  | nil => exact fun done m hxs hm => pure (by simpa [hxs] using hm)
  | cons x rest ih =>
    intro done m hxs hm
    rw [List.mapM_cons]
    refine (step before x rest done m hxs hm).bind fun y m' _ hm' => ?_
    exact (ih (before ++ [x]) (done ++ [y]) m' (by simp [hxs]) hm').bind fun ys _ _ h =>
      pure (by simpa using h)

theorem filterM {f : α → Edit σ Bool} (I : List α → List α → σ → Prop) (start : I [] [] s)
    (step : ∀ before x after done m, xs = before ++ x :: after → I before done m →
      Ends (f x) m (fun kept => I (before ++ [x]) (if kept then done ++ [x] else done)) E) :
    Ends (xs.filterM f) s (fun ys => I xs ys) E := by
  suffices key : ∀ before rest acc m, xs = before ++ rest → I before acc.reverse m →
      Ends (rest.filterAuxM f acc) m (fun out => I xs out.reverse) E from
    (key [] xs [] s rfl start).bind fun _ _ _ h => pure h
  intro before rest
  induction rest generalizing before with
  | nil => exact fun acc m hxs hm => pure (by simpa [hxs] using hm)
  | cons x rest ih =>
    intro acc m hxs hm
    refine (step before x rest acc.reverse m hxs hm).bind fun kept m' _ hm' =>
      ih (before ++ [x]) _ m' (by simp [hxs]) ?_
    cases kept with
    | true => simpa using hm'
    | false => simpa using hm'

end loops

end Ends

/-- A loop that only reads ends where it started, and it fails on the first element that cannot be
read. -/
theorem forM_ask_ends (g : α → σ → Except Fault PUnit) (xs : List α) (s : σ) :
    Ends (xs.forM fun x => ask (g x)) s (fun _ m => m = s ∧ ∀ x ∈ xs, g x s = .ok ⟨⟩)
      fun e m => m = s ∧ ∃ x ∈ xs, g x s = .error e := by
  refine Ends.forM (fun before m => m = s ∧ ∀ x ∈ before, g x s = .ok ⟨⟩) ⟨rfl, by simp⟩
    fun before x after m hxs hm => ?_
  obtain ⟨rfl, hbefore⟩ := hm
  cases hx : g x m with
  | error e => exact .inr ⟨e, m, ask_error.2 ⟨hx, rfl⟩, rfl, x, by simp [hxs], hx⟩
  | ok _ =>
    refine .inl ⟨⟨⟩, m, ask_ok.2 ⟨hx, rfl⟩, rfl, fun y hy => ?_⟩
    rcases List.mem_append.1 hy with hy | hy
    · exact hbefore y hy
    · rwa [List.mem_singleton.1 hy]

end ending

section settling

/-- A run is refused and changes nothing, or it succeeds and `P` holds of what it leads to. -/
def Settles (x : Edit σ α) (s : σ) (P : α → σ → Prop) : Prop :=
  (∃ e, x s = .error e s) ∨ Yields x s P

namespace Settles

variable {x : Edit σ α} {P Q : α → σ → Prop}

theorem refused (e : Fault) : Settles (throw e : Edit σ α) s P := .inl ⟨e, rfl⟩

theorem refuses (h : Settles x s P) : Refuses x s := fun e s' he => by
  rcases h with ⟨e', hrun⟩ | h
  · exact (EStateM.Result.error.inj (he.symm.trans hrun)).2
  · exact h.succeeds.refuses e s' he

theorem mono (h : Settles x s P) (hPQ : ∀ a s', P a s' → Q a s') : Settles x s Q :=
  h.imp_right fun hx => hx.mono hPQ

/-- What holds after a refusal and after a success holds after the run. -/
theorem along {R : σ → σ → Prop} (h : Settles x s P) (same : R s s) (hP : ∀ a s', P a s' → R s s') :
    R s (x.after s) := by
  rcases h with ⟨e, hrun⟩ | ⟨a, s', hrun, ha⟩
  · rwa [after, hrun]
  · rw [after, hrun]
    exact hP a s' ha

theorem of_ask {f : α → Edit σ β} {R : β → σ → Prop} {g : σ → Except Fault α}
    (h : ∀ a, g s = .ok a → Settles (f a) s R) : Settles (ask g >>= f) s R := by
  cases hg : g s with
  | error e => exact .inl ⟨e, bind_error.2 (.inl (ask_error.2 ⟨hg, rfl⟩))⟩
  | ok a =>
    rcases h a hg with ⟨e, hrun⟩ | hx
    · exact .inl ⟨e, bind_error.2 (.inr ⟨a, s, ask_ok.2 ⟨hg, rfl⟩, hrun⟩)⟩
    · exact .inr (.of_ask hg hx)

theorem of_get {R : β → σ → Prop} {f : σ → Edit σ β} (h : Settles (f s) s R) :
    Settles (get >>= f) s R := h

theorem of_guard {R : β → σ → Prop} {c : Bool} {e : Fault} {f : Unit → Edit σ β}
    (h : c = true → Settles (f ()) s R) : Settles (guard c e >>= f) s R := by
  cases c with
  | true => exact h rfl
  | false => exact .refused e

theorem bind {f : α → Edit σ β} {R : β → σ → Prop} (hx : Settles x s P)
    (hf : ∀ a m, P a m → Yields (f a) m R) : Settles (x >>= f) s R := by
  rcases hx with ⟨e, hrun⟩ | hx
  · exact .inl ⟨e, bind_error.2 (.inl hrun)⟩
  · exact .inr (hx.bind fun a m _ => hf a m)

theorem quietly {r : Recorded σ} (h : Settles x r.value P) :
    Settles (Edit.quietly x) r fun a r' => P a r'.value := by
  rcases h with ⟨e, hrun⟩ | hx
  · refine .inl ⟨e, ?_⟩
    rw [Edit.quietly, Edit.within, hrun]
  · exact .inr (hx.within fun _ _ h => h)

end Settles

theorem Settles.of_forM_ask {g : α → σ → Except Fault PUnit} {xs : List α} {f : PUnit → Edit σ β}
    {R : β → σ → Prop} (h : (∀ x ∈ xs, g x s = .ok ⟨⟩) → Settles (f ⟨⟩) s R) :
    Settles (xs.forM (fun x => ask (g x)) >>= f) s R := by
  rcases forM_ask_ends g xs s with ⟨_, m, hrun, rfl, hall⟩ | ⟨e, m, hrun, rfl, -⟩
  · rcases h hall with ⟨e, hrest⟩ | hx
    · exact .inl ⟨e, bind_error.2 (.inr ⟨⟨⟩, m, hrun, hrest⟩)⟩
    · exact .inr (.of_first hrun hx)
  · exact .inl ⟨e, bind_error.2 (.inl hrun)⟩

end settling

section moves

/-- Every run leads along `R`, also one that fails. -/
def Moves (R : σ → σ → Prop) (x : Edit σ α) : Prop := ∀ s, R s (x.after s)

theorem after_of_ok {x : Edit σ α} {a : α} (h : x s = .ok a s') : x.after s = s' := by
  rw [after, h]

theorem after_of_error {x : Edit σ α} {e : Fault} (h : x s = .error e s') : x.after s = s' := by
  rw [after, h]

theorem after_bind (x : Edit σ α) (f : α → Edit σ β) (s : σ) :
    (x >>= f).after s =
      match x s with
      | .ok a m => (f a).after m
      | .error _ m => m := by
  show (match EStateM.bind x f s with | .ok _ m => m | .error _ m => m) = _
  unfold EStateM.bind after
  cases x s <;> rfl

theorem after_bind_of_ok {x : Edit σ α} {f : α → Edit σ β} {a : α} (h : x s = .ok a s') :
    (x >>= f).after s = (f a).after s' := by
  rw [after_bind, h]

theorem after_ask_bind {P : σ → Prop} {f : σ → Except Fault α} {g : α → Edit σ β} (hs : P s)
    (hg : ∀ a, f s = .ok a → P ((g a).after s)) : P ((ask f >>= g).after s) := by
  rw [after_bind, ask]
  cases hf : f s with
  | ok a => exact hg a hf
  | error e => exact hs

theorem after_bind_cases {x : Edit σ α} {f : α → Edit σ β} (s : σ) :
    (x >>= f).after s = x.after s ∨
      ∃ a, x s = .ok a (x.after s) ∧ (x >>= f).after s = (f a).after (x.after s) := by
  rw [after_bind, after]
  cases x s with
  | ok a m => exact .inr ⟨a, rfl, rfl⟩
  | error e m => exact .inl rfl

theorem after_bind_pure (x : Edit σ α) (f : α → β) (s : σ) :
    (x >>= fun a => pure (f a)).after s = x.after s := by
  rw [after_bind, after]
  cases x s <;> rfl

theorem after_liftM (x : Edit σ α) (r : Recorded σ) :
    (liftM x : Edit (Recorded σ) α).after r = ⟨x.after r.value, r.events⟩ := after_within _ _ _ _

@[simp] theorem after_modify (f : σ → σ) (s : σ) : (modify f : Edit σ PUnit).after s = f s := rfl

/-- Whether a run succeeds or fails, it leads along `R`. -/
theorem Moves.ends {R : σ → σ → Prop} {x : Edit σ α} (hx : Moves R x) (s : σ) :
    Ends x s (fun _ m => R s m) fun _ m => R s m := by
  have hs := hx s
  rw [after] at hs
  unfold Ends Yields
  cases hrun : x s <;> rw [hrun] at hs
  · exact .inl ⟨_, _, rfl, hs⟩
  · exact .inr ⟨_, _, rfl, hs⟩

namespace Moves

theorem modifyGet {R : σ → σ → Prop} {f : σ → α × σ} (h : ∀ s, R s (f s).2) :
    Moves R (MonadStateOf.modifyGet f : Edit σ α) := h

variable {R : σ → σ → Prop} [IsPreorder σ R]

theorem pure (a : α) : Moves R (Pure.pure a : Edit σ α) := Std.Refl.refl

theorem throw (e : Fault) : Moves R (MonadExcept.throw e : Edit σ α) := Std.Refl.refl

theorem get : Moves R (MonadState.get : Edit σ σ) := Std.Refl.refl

theorem ask (f : σ → Except Fault α) : Moves R (Edit.ask f) := fun s => by
  rw [after_ask]
  exact Std.Refl.refl s

theorem guard (c : Bool) (e : Fault) : Moves R (Edit.guard c e) := by
  cases c
  · exact throw e
  · exact pure ()

omit [IsPreorder σ R] in
theorem of_ok {x : Edit σ α} {a : α} (hx : Moves R x) (h : x s = .ok a s') : R s s' := by
  have := hx s
  rwa [after_of_ok h] at this

theorem of_first {x : Edit σ α} {g : α → Edit σ β} {s : σ} (hx : R s (x.after s))
    (hg : ∀ a m, x s = .ok a m → R s m → R m ((g a).after m)) : R s ((x >>= g).after s) := by
  rw [after_bind]
  cases hrun : x s with
  | ok a m =>
    rw [after_of_ok hrun] at hx
    exact IsTrans.trans _ _ _ hx (hg a m hrun hx)
  | error e m => rwa [after_of_error hrun] at hx

theorem of_run {x : Edit σ α} {g : α → Edit σ β} {s : σ} (hx : Moves R x)
    (hg : ∀ a m, x s = .ok a m → R s m → R m ((g a).after m)) : R s ((x >>= g).after s) :=
  of_first (hx s) hg

theorem bind_of_ok {x : Edit σ α} {f : α → Edit σ β} (hx : Moves R x)
    (hf : ∀ s a m, x s = .ok a m → R m ((f a).after m)) : Moves R (x >>= f) := fun s =>
  of_run hx fun a m hrun _ => hf s a m hrun

theorem bind {x : Edit σ α} {f : α → Edit σ β} (hx : Moves R x) (hf : ∀ a, Moves R (f a)) :
    Moves R (x >>= f) := hx.bind_of_ok fun _ a m _ => hf a m

theorem of_ask {f : σ → Except Fault α} {g : α → Edit σ β} {s : σ}
    (hg : ∀ a, f s = .ok a → R s ((g a).after s)) : R s ((Edit.ask f >>= g).after s) :=
  after_ask_bind (Std.Refl.refl s) hg

theorem of_guard {c : Bool} {e : Fault} {g : Unit → Edit σ β} {s : σ}
    (hg : c = true → R s ((g ()).after s)) : R s ((Edit.guard c e >>= g).after s) := by
  cases c with
  | true => exact hg rfl
  | false => exact Std.Refl.refl s

omit [IsPreorder σ R] in
theorem ite {c : Prop} [Decidable c] {x y : Edit σ α} (hx : Moves R x) (hy : Moves R y) :
    Moves R (if c then x else y) := by
  split
  · exact hx
  · exact hy

theorem forM {f : α → Edit σ PUnit} (hf : ∀ x, Moves R (f x)) (xs : List α) :
    Moves R (xs.forM f) := by
  induction xs with
  | nil => exact pure _
  | cons x rest ih => exact (hf x).bind fun _ => ih

theorem mapM {f : α → Edit σ β} (hf : ∀ x, Moves R (f x)) (xs : List α) :
    Moves R (xs.mapM f) := by
  induction xs with
  | nil => exact pure _
  | cons x rest ih =>
    rw [List.mapM_cons]
    exact (hf x).bind fun _ => ih.bind fun _ => pure _

theorem foldlM {f : β → α → Edit σ β} (hf : ∀ b x, Moves R (f b x)) (xs : List α) (b : β) :
    Moves R (xs.foldlM f b) := by
  induction xs generalizing b with
  | nil => exact pure _
  | cons x rest ih =>
    rw [List.foldlM_cons]
    exact (hf b x).bind fun b' => ih b'

theorem filterM {f : α → Edit σ Bool} (hf : ∀ x, Moves R (f x)) (xs : List α) :
    Moves R (xs.filterM f) := by
  refine bind ?_ fun _ => pure _
  suffices key : ∀ acc, Moves R (xs.filterAuxM f acc) from key []
  induction xs with
  | nil => exact fun _ => pure _
  | cons x rest ih => exact fun _ => (hf x).bind fun _ => ih _

theorem report (e : Event) : Moves (Recorded.Along R) (Edit.report e) := fun r =>
  Std.Refl.refl (r := R) r.value

omit [IsPreorder σ R] in
theorem within {part : σ → τ} {restore : σ → τ → σ} {T : τ → τ → Prop} {x : Edit τ α}
    (hx : Moves T x) (hrestore : ∀ s t, T (part s) t → R s (restore s t)) :
    Moves R (Edit.within part restore x) := by
  intro s
  rw [after_within]
  exact hrestore s _ (hx (part s))

omit [IsPreorder σ R] in
theorem quietly {x : Edit σ α} (hx : Moves R x) : Moves (Recorded.Along R) (Edit.quietly x) :=
  hx.within fun _ _ h => h

end Moves

end moves

section simulating

variable {τ : Type}

/-- Two runs end alike, in states that are related. -/
inductive Matches (R : σ → τ → Prop) : EStateM.Result Fault σ α → EStateM.Result Fault τ α → Prop
  | ok {a : α} {s : σ} {t : τ} : R s t → Matches R (.ok a s) (.ok a t)
  | error {e : Fault} {s : σ} {t : τ} : R s t → Matches R (.error e s) (.error e t)

/-- From related states, two operations run alike. -/
def Simulates (R : σ → τ → Prop) (x : Edit σ α) (y : Edit τ α) : Prop :=
  ∀ s t, R s t → Matches R (x s) (y t)

namespace Simulates

variable {R : σ → τ → Prop} {x : Edit σ α} {y : Edit τ α}

theorem pure (a : α) : Simulates R (Pure.pure a) (Pure.pure a) := fun _ _ h => .ok h

theorem bind {f : α → Edit σ β} {g : α → Edit τ β} (hx : Simulates R x y)
    (hf : ∀ a, Simulates R (f a) (g a)) :
    Simulates R (x >>= f) (y >>= g) := by
  intro s t h
  show Matches R (EStateM.bind x f s) (EStateM.bind y g t)
  have hxy := hx s t h
  unfold EStateM.bind
  generalize x s = r, y t = q at hxy ⊢
  cases hxy with
  | ok h => exact hf _ _ _ h
  | error h => exact .error h

theorem map {f : α → β} (hx : Simulates R x y) : Simulates R (f <$> x) (f <$> y) := by
  intro s t h
  show Matches R (EStateM.map f x s) (EStateM.map f y t)
  have hxy := hx s t h
  unfold EStateM.map
  generalize x s = r, y t = q at hxy ⊢
  cases hxy with
  | ok h => exact .ok h
  | error h => exact .error h

theorem guard (c : Bool) (e : Fault) : Simulates R (Edit.guard c e) (Edit.guard c e) := by
  intro s t h
  unfold Edit.guard
  split
  · exact .ok h
  · exact .error h

theorem forM {f : α → Edit σ PUnit} {g : α → Edit τ PUnit} (hf : ∀ a, Simulates R (f a) (g a))
    (xs : List α) : Simulates R (xs.forM f) (xs.forM g) := by
  induction xs with
  | nil => exact .pure PUnit.unit
  | cons a rest ih => exact (hf a).bind fun _ => ih

theorem after (hx : Simulates R x y) {s : σ} {t : τ} (h : R s t) : R (x.after s) (y.after t) := by
  have hxy := hx s t h
  unfold Edit.after
  generalize x s = r, y t = q at hxy ⊢
  cases hxy with
  | ok h => exact h
  | error h => exact h

end Simulates

end simulating

end Edit

end MethodFlow
