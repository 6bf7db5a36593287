import MethodFlow.Fault
import MethodFlow.Journal

/-!
Operations that change a value in steps and may fail on the way. What was changed before a failure
stays changed, so an operation always has a final state. Operations that report events run on the
value together with the events recorded so far.
-/

namespace MethodFlow

abbrev Edit (σ α : Type) := EStateM Fault σ α

/-- A value with the events recorded while it was edited, oldest first. -/
structure Recorded (σ : Type) where
  value : σ
  events : List Event

namespace Edit

variable {σ τ α : Type}

def outcome (x : Edit σ α) (s : σ) : Except Fault α :=
  match x s with
  | .ok a _ => .ok a
  | .error e _ => .error e

/-- The state after a run, failed or not. -/
def after (x : Edit σ α) (s : σ) : σ :=
  match x s with
  | .ok _ s' => s'
  | .error _ s' => s'

/-- Reads something that may not be there. -/
def ask (f : σ → Except Fault α) : Edit σ α := fun s =>
  match f s with
  | .ok a => .ok a s
  | .error e => .error e s

/-- Runs an operation on a part of the state. -/
def within (part : σ → τ) (restore : σ → τ → σ) (x : Edit τ α) : Edit σ α := fun s =>
  match x (part s) with
  | .ok a t => .ok a (restore s t)
  | .error e t => .error e (restore s t)

def guard (condition : Bool) (fault : Fault) : Edit σ Unit :=
  if condition then pure () else throw fault

@[simp] theorem after_ask (f : σ → Except Fault α) (s : σ) : (ask f).after s = s := by
  unfold after ask
  cases f s <;> rfl

@[simp] theorem after_within (part : σ → τ) (restore : σ → τ → σ) (x : Edit τ α) (s : σ) :
    (within part restore x).after s = restore s (x.after (part s)) := by
  unfold after within
  cases x (part s) <;> rfl

/-- Runs an operation that reports nothing. -/
def quietly (x : Edit σ α) : Edit (Recorded σ) α :=
  within Recorded.value (fun r s => { r with value := s }) x

instance : MonadLift (Edit σ) (Edit (Recorded σ)) := ⟨quietly⟩

def report (e : Event) : Edit (Recorded σ) Unit :=
  modify fun r => { r with events := r.events ++ [e] }

end Edit

end MethodFlow
