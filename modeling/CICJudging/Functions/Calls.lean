import CICJudging.Library.ReadModifyWrite
import CICJudging.Functions.AssignedQueue

/-! The callable functions as read-modify-write blocks over the database root.
A block reads the root once and later sets the whole `judgingQueue` node. -/
namespace CICJudging

open ReadModifyWrite

/-- The block of `assignTeams` and of `reassignTeam`: `once("value")` on the
root, `processAssignedQueue`, and the `set` that it issues. -/
def processCompute (fuel : Nat) (sorts : SortCalls) (judgeId : JudgeId) (snapshot : Root) :
    Option (Root → Root) :=
  match processAssignedQueue fuel sorts (some snapshot) judgeId with
  | .ok { set := some queue, .. } => some fun root => root.setJudgingQueue queue
  | .ok { set := none, .. } => some id
  | .error _ => none

/-- The first block of `removeAssignedTeam`. -/
def filterCompute (judgeId : JudgeId) (teamId : Int) (snapshot : Root) : Option (Root → Root) :=
  (filterAssignedQueue (some snapshot) judgeId teamId).map fun queue root =>
    root.setJudgingQueue queue

def reassignTeam (fuel : Nat) (sorts : SortCalls) (judgeId : JudgeId) : Op Root :=
  .block (processCompute fuel sorts judgeId)

def assignTeams (fuel : Nat) (sorts : SortCalls) (judgeId : JudgeId) : List (Op Root) :=
  [.block (processCompute fuel sorts judgeId)]

/-- The refill reads the root again, after the write of the filter block. -/
def removeAssignedTeam (fuel : Nat) (sorts : SortCalls) (judgeId : JudgeId) (teamId : Int) :
    List (Op Root) :=
  [.block (filterCompute judgeId teamId), reassignTeam fuel sorts judgeId]

/-- A client's `setValue` under `scores`, one write that reads nothing. -/
def setScoresOp (teamId : Int) (judgeId : JudgeId) (scores : ScoresData) : Op Root :=
  .update fun root => root.setScores teamId judgeId scores

/-- A client's `childByAutoId().setValue` under `judgedTeams`. -/
def pushJudgedTeamOp (judgeId : JudgeId) (autoId : String) (teamId : Int) : Op Root :=
  .update fun root => root.pushJudgedTeam judgeId autoId teamId

/-- A call of one of the two callable functions with its `data`. -/
inductive Call where
  | assignTeams (judgeId : JudgeId)
  | removeAssignedTeam (judgeId : JudgeId) (teamId : Int)

def Call.ops (fuel : Nat) (sorts : SortCalls) : Call → List (Op Root)
  | .assignTeams judgeId => CICJudging.assignTeams fuel sorts judgeId
  | .removeAssignedTeam judgeId teamId => CICJudging.removeAssignedTeam fuel sorts judgeId teamId

/-- What the clients of the database start: a call, or the write of a score. -/
inductive Activity where
  | call (request : Call)
  | setScores (teamId : Int) (judgeId : JudgeId) (scores : ScoresData)

def Activity.ops (fuel : Nat) (sorts : SortCalls) : Activity → List (Op Root)
  | .call request => request.ops fuel sorts
  | .setScores teamId judgeId scores => [setScoresOp teamId judgeId scores]

/-- The blocks of both functions read the root and replace `judgingQueue`. -/
theorem Call.mem_ops {fuel : Nat} {sorts : SortCalls} {call : Call} {op : Op Root}
    (hop : op ∈ call.ops fuel sorts) :
    (∃ judgeId, op = .block (processCompute fuel sorts judgeId)) ∨
      ∃ judgeId teamId, op = .block (filterCompute judgeId teamId) := by
  cases call with
  | assignTeams judgeId => exact Or.inl ⟨judgeId, by simpa [ops, CICJudging.assignTeams] using hop⟩
  | removeAssignedTeam judgeId teamId =>
      simp only [ops, CICJudging.removeAssignedTeam, reassignTeam, List.mem_cons,
        List.not_mem_nil, or_false] at hop
      rcases hop with rfl | rfl
      · exact Or.inr ⟨judgeId, teamId, rfl⟩
      · exact Or.inl ⟨judgeId, rfl⟩

theorem filterCompute_eq (judgeId : JudgeId) (teamId : Int) (snapshot : Root) :
    filterCompute judgeId teamId snapshot =
      some fun root => root.setJudgingQueue (snapshot.judgingQueue.remove judgeId teamId) := rfl

/-- The write of a process block, whatever root it lands on. -/
theorem processCompute_eq_some {fuel : Nat} {sorts : SortCalls} {judgeId : JudgeId}
    {snapshot : Root} {f : Root → Root} (h : processCompute fuel sorts judgeId snapshot = some f) :
    ∃ ids, (scanWindow sorts snapshot judgeId).map Team.teamId = ids.map some ∧
      Refill snapshot judgeId ids ∧
      f = fun root => root.setJudgingQueue (snapshot.judgingQueue.append judgeId ids) := by
  unfold processCompute at h
  split at h
  · next hOk =>
      obtain ⟨ids, hIds, hRefill, hResponse⟩ := Returns.refill ⟨fuel, hOk⟩
      cases hResponse
      exact ⟨ids, hIds, hRefill, (Option.some.inj h).symm⟩
  · next hOk =>
      obtain ⟨ids, _, _, hResponse⟩ := Returns.refill ⟨fuel, hOk⟩
      cases hResponse
  · cases h

end CICJudging
