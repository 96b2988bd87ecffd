import Mathlib.Tactic.Common

/-! Event handlers with a `do`/`catch` around them. A thrown error is caught and
leaves the assignments made before it; an exception is not caught and ends the
program. -/

/-- A part of a handler, which reads and assigns the state. -/
abbrev Handler (State Thrown α : Type) := ExceptT Thrown (StateT State Option) α

namespace Handler

variable {State Thrown α β : Type}

/-- The exception that no `catch` sees. -/
def raise : Handler State Thrown α := ExceptT.mk fun _ => none

def attempt (result : Except Thrown α) : Handler State Thrown α :=
  ExceptT.mk fun state => some (result, state)

/-- One assignment. -/
def assign (update : State → State) : Handler State Thrown Unit :=
  ExceptT.mk fun state => some (.ok (), update state)

/-- Statements that may end the program themselves. -/
def trapping (update : State → Option State) : Handler State Thrown Unit :=
  ExceptT.mk fun state => (update state).map fun after => (.ok (), after)

/-- The state after `do body catch`; `none` after an exception. -/
def doCatch (body : Handler State Thrown Unit) (state : State) : Option State :=
  (body.run.run state).map Prod.snd

theorem doCatch_raise_bind (next : α → Handler State Thrown Unit) (state : State) :
    doCatch (raise >>= next) state = none := rfl

theorem doCatch_attempt_bind (result : Except Thrown α) (next : α → Handler State Thrown Unit)
    (state : State) :
    doCatch (attempt result >>= next) state =
      match result with
      | .ok value => doCatch (next value) state
      | .error _ => some state := by
  cases result <;> rfl

theorem doCatch_pure_bind (value : α) (next : α → Handler State Thrown Unit) (state : State) :
    doCatch (pure value >>= next) state = doCatch (next value) state := by
  rw [pure_bind]

@[simp] theorem doCatch_trapping (update : State → Option State) (state : State) :
    doCatch (trapping update : Handler State Thrown Unit) state = update state := by
  unfold doCatch trapping
  cases h : update state <;> simp [ExceptT.run, ExceptT.mk, StateT.run, h]

end Handler
