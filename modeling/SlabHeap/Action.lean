/-
  Computations that change a state and may fail.

  A failed `Action` keeps the state it had reached: what was done in front of the
  failing check stays done.  `zoom` runs an action on a part of the state, and
  results of `Except Fault` take part in actions without a mention.
-/
import SlabHeap.Fault

namespace SlabHeap

/-- A computation on states `σ` that returns a value or a fault, and in both
    cases the state it reached. -/
abbrev Action (σ : Type) := EStateM Fault σ

namespace Action

variable {σ τ α : Type}

/-- A check that changes no state. -/
def ofExcept : Except Fault α → Action σ α
  | .ok a => fun s => .ok a s
  | .error fault => fun s => .error fault s

instance : MonadLift (Except Fault) (Action σ) where
  monadLift := ofExcept

/-- `zoom view set act` runs `act` on the part `view s` of the state `s` and puts
    the part that it reaches back with `set`. -/
def zoom (view : σ → τ) (set : τ → σ → σ) (act : Action τ α) : Action σ α := fun s =>
  match act (view s) with
  | .ok a t => .ok a (set t s)
  | .error fault t => .error fault (set t s)

end Action

end SlabHeap
