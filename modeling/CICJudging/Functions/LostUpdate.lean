import CICJudging.Functions.Calls

/-! Concurrent calls. Neither function locks the node or runs a transaction, so
the last `set` wins: what other calls wrote since its read is gone. -/
namespace CICJudging

open ReadModifyWrite

section Concurrent

variable {ι : Type} (fuel : Nat) (sorts : SortCalls) (calls : ι → Call) (origin : Root)

/-- All calls of the collection before their first step. -/
abbrev concurrentCalls : Config ι Root :=
  Config.start origin fun i => (calls i).ops fuel sorts

/-- The blocks, run one at a time in some order that keeps each call's own,
end with the same node. -/
def EqualsSerial [DecidableEq ι] (start final : Config ι Root) : Prop :=
  ∃ order serial, execSerial start order = some serial ∧ serial.Done ∧
    serial.store.judgingQueue = final.store.judgingQueue

variable {fuel sorts calls origin}

/-- Only the node differs between the roots of such a run, and every block
replaces the node. -/
theorem Call.overwrites (call : Call) : ∀ op ∈ call.ops fuel sorts,
    op.Overwrites fun root => ∃ queue, root = origin.setJudgingQueue queue := by
  have hReplace : ∀ {queue : JudgingQueue} {seen root : Root},
      (∃ old, seen = origin.setJudgingQueue old) → (∃ old, root = origin.setJudgingQueue old) →
      (∃ new, root.setJudgingQueue queue = origin.setJudgingQueue new) ∧
        root.setJudgingQueue queue = seen.setJudgingQueue queue := by
    rintro queue _ _ ⟨_, rfl⟩ ⟨_, rfl⟩
    exact ⟨⟨queue, rfl⟩, rfl⟩
  intro op hop
  rcases Call.mem_ops hop with ⟨judgeId, rfl⟩ | ⟨judgeId, teamId, rfl⟩
  · intro seen root f hSeen hRoot hf
    obtain ⟨_, _, _, rfl⟩ := processCompute_eq_some hf
    exact hReplace hSeen hRoot
  · intro seen root f hSeen hRoot hf
    cases hf
    exact hReplace hSeen hRoot

/-- In every interleaving the node at the end is the outcome of some of the
blocks, the last one written among them, run one at a time in the order of
their writes. No block is left out if no write falls between the read and the
write of another block. -/
theorem concurrentCalls_explained [DecidableEq ι] {schedule : List ι} {final : Config ι Root}
    (hRun : exec (concurrentCalls fuel sorts calls origin) schedule = some final)
    (hDone : final.Done) :
    (Undisturbed (concurrentCalls fuel sorts calls origin) schedule →
      execSerial (concurrentCalls fuel sorts calls origin)
        ((effects (concurrentCalls fuel sorts calls origin) schedule).map Prod.fst) = some final) ∧
    ExplainedByLast origin
      ((effects (concurrentCalls fuel sorts calls origin) schedule).map Prod.snd) final.store := by
  have hIdle : ∀ i, ((concurrentCalls fuel sorts calls origin).threads i).held = none :=
    fun _ => rfl
  refine ⟨serial_of_undisturbed hRun hIdle hDone, ?_⟩
  exact exec_explained hRun hIdle ⟨origin.judgingQueue, rfl⟩ fun i => (calls i).overwrites

end Concurrent

namespace Contest

/-- Both judges of a contest with three teams ask for teams at the same time. -/
def bothAssigned : Config Bool Root :=
  concurrentCalls 5 .stable (fun second => .assignTeams (if second then judgeB else judgeA))
    threeTeams

/-- One after the other, in either order, gives the first judge the three teams. -/
private theorem bothAssigned_serial (first second : Bool) :
    ∀ serial ∈ execSerial bothAssigned [first, second],
      serial.store.judgingQueue.queues judgeA = [1, 2, 3] := by
  revert first second
  decide

private theorem bothAssigned_done {order : List Bool} {serial : Config Bool Root}
    (hRun : execSerial bothAssigned order = some serial) (hDone : serial.Done) :
    serial.store.judgingQueue.queues judgeA = [1, 2, 3] := by
  have hShort : ∀ serial ∈ execSerial bothAssigned [], ¬serial.Done := by decide
  have hSingle : ∀ i, ∀ serial ∈ execSerial bothAssigned [i], ¬serial.Done := by decide
  have hLong : ∀ i j k, execSerial bothAssigned [i, j, k] = none := by decide
  match order with
  | [] => exact absurd hDone (hShort serial hRun)
  | [i] => exact absurd hDone (hSingle i serial hRun)
  | [i, j] => exact bothAssigned_serial i j serial hRun
  | i :: j :: k :: rest =>
      have hSplit : execSerial bothAssigned ([i, j, k] ++ rest) = some serial := hRun
      obtain ⟨_, hPrefix, _⟩ := (Transition.run_append_eq_some serialStep).mp hSplit
      cases (hLong i j k).symm.trans hPrefix

/-- Both reads come before both writes: the second write drops the teams that
the first judge was given, which no serial order does. -/
theorem bothAssigned_not_serial :
    ∃ final, exec bothAssigned [false, true, false, true] = some final ∧ final.Done ∧
      ¬EqualsSerial bothAssigned final := by
  obtain ⟨final, hRun, hDone, hLost⟩ :
      ∃ final ∈ exec bothAssigned [false, true, false, true], final.Done ∧
        final.store.judgingQueue.queues judgeA = [] := by decide
  refine ⟨final, hRun, hDone, ?_⟩
  rintro ⟨order, serial, hSerial, hSerialDone, hSame⟩
  have hQueue := bothAssigned_done hSerial hSerialDone
  rw [hSame, hLost] at hQueue
  cases hQueue

/-- What the same run leaves is explained by the write that came last. A run in which
the second judge reads after the first write is serial. -/
theorem bothAssigned_explained :
    (∃ final, exec bothAssigned [false, true, false, true] = some final ∧
      ExplainedByLast threeTeams
        ((effects bothAssigned [false, true, false, true]).map Prod.snd) final.store) ∧
    ∃ final, exec bothAssigned [false, false, true, true] = some final ∧
      execSerial bothAssigned ((effects bothAssigned [false, false, true, true]).map Prod.fst) =
        some final := by
  obtain ⟨final, hRun, hDone⟩ :
      ∃ final ∈ exec bothAssigned [false, true, false, true], final.Done := by decide
  obtain ⟨apart, hApart, hApartDone⟩ :
      ∃ final ∈ exec bothAssigned [false, false, true, true], final.Done := by decide
  have hUndisturbed : Undisturbed bothAssigned [false, false, true, true] := by
    unfold Undisturbed
    decide
  exact ⟨⟨final, hRun, (concurrentCalls_explained hRun hDone).2⟩,
    ⟨apart, hApart, (concurrentCalls_explained hApart hApartDone).1 hUndisturbed⟩⟩

end Contest

end CICJudging
