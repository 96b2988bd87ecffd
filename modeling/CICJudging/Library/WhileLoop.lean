import Mathlib.Tactic.Common

/-! While loops with an explicit bound on the number of guard tests. A loop
returns when some bound is enough; a state that the body leaves unchanged
while the guard still holds is a loop that never returns. -/
namespace WhileLoop

variable {State : Type*} (guard : State → Bool) (body : State → State)

/-- `none` records that the guard still held at the last test allowed. -/
def run : Nat → State → Option State
  | 0, _ => none
  | fuel + 1, s => if guard s then run fuel (body s) else some s

theorem run_of_guard {s : State} (h : guard s = true) (fuel : Nat) :
    run guard body (fuel + 1) s = run guard body fuel (body s) := by
  simp [run, h]

theorem run_of_not_guard {s : State} (h : guard s = false) (fuel : Nat) :
    run guard body (fuel + 1) s = some s := by
  simp [run, h]

/-- A state that the body does not change while the guard holds is never left. -/
theorem run_stuck {s : State} (hGuard : guard s = true) (hBody : body s = s) (fuel : Nat) :
    run guard body fuel s = none := by
  induction fuel with
  | zero => rfl
  | succ fuel ih => rw [run_of_guard guard body hGuard, hBody, ih]

end WhileLoop
