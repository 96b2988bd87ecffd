import CICJudging.Library.StoreViews
import CICJudging.Functions.Calls

/-! What overlapping calls can and cannot do to each other. A lost update takes a
queue back to what it was, never to something new, and the scores and the logs,
which no function writes, are out of reach. -/
namespace CICJudging

open ReadModifyWrite Transition

/-- What a device starts: a call of a function, or the two writes of a submission. -/
inductive Request where
  | call (request : Call)
  | write (teamId : Int) (judgeId : JudgeId) (scores : ScoresData) (autoId : String)

def Request.ops (fuel : Nat) (sorts : SortCalls) : Request → List (Op Root)
  | .call request => request.ops fuel sorts
  | .write teamId judgeId scores autoId =>
      [setScoresOp teamId judgeId scores, pushJudgedTeamOp judgeId autoId teamId]

def Request.isCall : Request → Bool
  | .call _ => true
  | .write .. => false

def Call.judgeId : Call → JudgeId
  | .assignTeams judgeId => judgeId
  | .removeAssignedTeam judgeId _ => judgeId

/-- The request is a call for this judge. -/
def Request.Names (judgeId : JudgeId) : Request → Prop
  | .call request => request.judgeId = judgeId
  | .write .. => False

/-- The judge's list in the node. -/
def queueOf (judgeId : JudgeId) (root : Root) : List Int := root.judgingQueue.queues judgeId

/-- What the clients write themselves. -/
def clientData (root : Root) :
    (String → Finmap fun _ : JudgeId => ScoresData) × (JudgeId → List (String × Int)) :=
  (root.scores, root.judgedTeams)

/-- A call for another judge writes back the list that it has read. -/
theorem Call.restores {fuel : Nat} {sorts : SortCalls} {call : Call} {judgeId : JudgeId}
    (hne : call.judgeId ≠ judgeId) :
    ∀ op ∈ call.ops fuel sorts, op.Restores (queueOf judgeId) := by
  have hProcess : ∀ own, own ≠ judgeId →
      (Op.block (processCompute fuel sorts own)).Restores (queueOf judgeId) := by
    intro own hOwn seen root f hf
    obtain ⟨ids, _, _, rfl⟩ := processCompute_eq_some hf
    exact JudgingQueue.append_queues_of_ne _ hOwn.symm ids
  cases call with
  | assignTeams own =>
      exact List.forall_mem_singleton.mpr (hProcess own hne)
  | removeAssignedTeam own teamId =>
      refine List.forall_mem_cons.mpr ⟨fun seen root f hf => ?_,
        List.forall_mem_singleton.mpr (hProcess own hne)⟩
      cases hf
      exact JudgingQueue.remove_queues_of_ne _ hne.symm teamId

theorem Request.restores {fuel : Nat} {sorts : SortCalls} {request : Request} {judgeId : JudgeId}
    (hne : ¬request.Names judgeId) :
    ∀ op ∈ request.ops fuel sorts, op.Restores (queueOf judgeId) := by
  cases request with
  | call request => exact Call.restores hne
  | write teamId own scores autoId =>
      exact List.forall_mem_cons.mpr ⟨fun _ => rfl, List.forall_mem_singleton.mpr fun _ => rfl⟩

/-- No function writes a score or a log entry. -/
theorem Call.leaves {fuel : Nat} {sorts : SortCalls} (call : Call) :
    ∀ op ∈ call.ops fuel sorts, op.Leaves clientData := by
  intro op hop
  rcases Call.mem_ops hop with ⟨judgeId, rfl⟩ | ⟨judgeId, teamId, rfl⟩
  · intro seen root f hf
    obtain ⟨ids, _, _, rfl⟩ := processCompute_eq_some hf
    rfl
  · intro seen root f hf
    cases hf
    rfl

/-- A submission's own writes look at nothing but the scores and the logs. -/
theorem write_through (teamId : Int) (judgeId : JudgeId) (scores : ScoresData) (autoId : String) :
    (setScoresOp teamId judgeId scores).Through clientData ∧
      (pushJudgedTeamOp judgeId autoId teamId).Through clientData := by
  constructor
  · intro s t hSame
    obtain ⟨hScores, hLogs⟩ := Prod.ext_iff.mp hSame
    simp only [clientData] at hScores hLogs
    simp only [clientData, Root.setScores, hScores, hLogs]
  · intro s t hSame
    obtain ⟨hScores, hLogs⟩ := Prod.ext_iff.mp hSame
    simp only [clientData] at hScores hLogs
    simp only [clientData, Root.pushJudgedTeam, hScores, hLogs]

section Concurrent

variable {ι : Type} [DecidableEq ι] (fuel : Nat) (sorts : ι → SortCalls) (requests : ι → Request)
  (origin : Root)

/-- All requests before their first step. -/
abbrev concurrentRequests : Config ι Root :=
  Config.start origin fun i => (requests i).ops fuel (sorts i)

variable {fuel sorts requests origin} {schedule : List ι} {c : Config ι Root}

/-- In every interleaving a judge's queue is as it was at the start or as some call
for this judge left it. -/
theorem queue_only_rolled_back (judgeId : JudgeId)
    (hRun : exec (concurrentRequests fuel sorts requests origin) schedule = some c) :
    ∃ past, past <+: schedule ∧
      (past = [] ∨ ∃ i, past.getLast? = some i ∧ (requests i).Names judgeId) ∧
      ∃ before, exec (concurrentRequests fuel sorts requests origin) past = some before ∧
        before.store.judgingQueue.queues judgeId = c.store.judgingQueue.queues judgeId :=
  exec_restores (fun _ hOther => Request.restores hOther) hRun

/-- In every interleaving the scores and the logs are those that the submissions
alone would have made, their writes coming in the same order. -/
theorem submissions_undisturbed
    (hRun : exec (concurrentRequests fuel sorts requests origin) schedule = some c) :
    ∃ alone, exec (concurrentRequests fuel sorts requests origin)
        (schedule.filter fun i => !(requests i).isCall) = some alone ∧
      alone.store.scores = c.store.scores ∧ alone.store.judgedTeams = c.store.judgedTeams := by
  have hQuiet : ∀ i, (requests i).isCall = true →
      ∀ op ∈ (requests i).ops fuel (sorts i), op.Leaves clientData := by
    intro i hCall
    cases hRequest : requests i with
    | call request => exact request.leaves
    | write teamId judgeId scores autoId =>
        rw [hRequest] at hCall
        cases hCall
  have hLoud : ∀ i, (requests i).isCall = false →
      ∀ op ∈ (requests i).ops fuel (sorts i), op.Through clientData := by
    intro i hWrite
    cases hRequest : requests i with
    | call request =>
        rw [hRequest] at hWrite
        cases hWrite
    | write teamId judgeId scores autoId =>
        obtain ⟨hScores, hLog⟩ := write_through teamId judgeId scores autoId
        exact List.forall_mem_cons.mpr ⟨hScores, List.forall_mem_singleton.mpr hLog⟩
  obtain ⟨alone, hAlone, hAgree⟩ :=
    exec_without hRun ⟨rfl, fun _ _ => rfl⟩ hQuiet hLoud
  obtain ⟨hScores, hLogs⟩ := Prod.ext_iff.mp hAgree.store
  exact ⟨alone, hAlone, hScores.symm, hLogs.symm⟩

theorem Request.stable_scores {request : Request} {fuel : Nat} {sorts : SortCalls}
    (teamId : Int) (judgeId : JudgeId) : ∀ op ∈ request.ops fuel sorts,
      op.Stable fun root => judgeId ∈ root.scores (teamKey teamId) := by
  cases request with
  | call request =>
      refine fun op hop => (request.leaves op hop).stable fun before after hSame hMem => ?_
      have hScores : after.scores = before.scores := congrArg Prod.fst hSame
      rwa [hScores]
  | write own other scores autoId =>
      refine List.forall_mem_cons.mpr ⟨fun root hMem => ?_, List.forall_mem_singleton.mpr fun _ => id⟩
      exact Root.mem_setScores.mpr (Or.inr hMem)

theorem Request.stable_log {request : Request} {fuel : Nat} {sorts : SortCalls}
    (autoId : String) (teamId : Int) (judgeId : JudgeId) : ∀ op ∈ request.ops fuel sorts,
      op.Stable fun root => (autoId, teamId) ∈ root.judgedTeams judgeId := by
  cases request with
  | call request =>
      refine fun op hop => (request.leaves op hop).stable fun before after hSame hMem => ?_
      have hLogs : after.judgedTeams = before.judgedTeams := congrArg Prod.snd hSame
      rwa [hLogs]
  | write own other scores key =>
      refine List.forall_mem_cons.mpr ⟨fun _ => id, List.forall_mem_singleton.mpr fun root hMem => ?_⟩
      by_cases hSame : judgeId = other
      · subst hSame
        simp [Root.pushJudgedTeam, hMem]
      · simpa [Root.pushJudgedTeam, hSame] using hMem

/-- In every interleaving a submission whose writes have both gone through has a score
record and a log entry, whatever else is going on. -/
theorem submission_recorded {i : ι} {teamId : Int} {judgeId : JudgeId} {scores : ScoresData}
    {autoId : String} (hRequest : requests i = .write teamId judgeId scores autoId)
    (hRun : exec (concurrentRequests fuel sorts requests origin) schedule = some c)
    (hDone : (c.threads i).todo = []) :
    judgeId ∈ c.store.scores (teamKey teamId) ∧ (autoId, teamId) ∈ c.store.judgedTeams judgeId := by
  have hScores : (requests i).ops fuel (sorts i) = [] ++
      setScoresOp teamId judgeId scores :: [pushJudgedTeamOp judgeId autoId teamId] := by
    rw [hRequest, Request.ops, List.nil_append]
  have hLog : (requests i).ops fuel (sorts i) =
      [setScoresOp teamId judgeId scores] ++ pushJudgedTeamOp judgeId autoId teamId :: [] := by
    rw [hScores, List.nil_append, List.singleton_append]
  constructor
  · refine exec_established (i := i) hScores (fun root => ?_)
      (fun k => Request.stable_scores teamId judgeId) hRun (by simp [hDone])
    exact Root.mem_setScores.mpr (Or.inl ⟨rfl, rfl⟩)
  · refine exec_established (i := i) hLog (fun root => ?_)
      (fun k => Request.stable_log autoId teamId judgeId) hRun (by simp [hDone])
    simp [Root.pushJudgedTeam]

end Concurrent

namespace Contest

/-- Both judges ask for teams while the first one submits a score. -/
def overlapping : Fin 3 → Request
  | 0 => .call (.assignTeams judgeA)
  | 1 => .call (.assignTeams judgeB)
  | 2 => .write 1 judgeA ⟨3, 3, 3, 3, ""⟩ "-M1"

/-- Both calls read the root before either writes, so the second write takes the
first judge's queue back to the empty one. -/
private theorem overlapping_run :
    ∃ c ∈ exec (concurrentRequests 5 (fun _ => .stable) overlapping threeTeams) [0, 1, 2, 0, 1, 2],
      c.store.judgingQueue.queues judgeA = [] ∧ (c.threads 2).todo.isEmpty = true := by
  decide

theorem overlapping_rolled_back :
    ∃ c, exec (concurrentRequests 5 (fun _ => .stable) overlapping threeTeams) [0, 1, 2, 0, 1, 2] =
        some c ∧ c.store.judgingQueue.queues judgeA = [] ∧
      ∃ past, past <+: [0, 1, 2, 0, 1, 2] ∧
        (past = [] ∨ ∃ i, past.getLast? = some i ∧ (overlapping i).Names judgeA) ∧
        ∃ before, exec (concurrentRequests 5 (fun _ => .stable) overlapping threeTeams) past =
            some before ∧
          before.store.judgingQueue.queues judgeA = c.store.judgingQueue.queues judgeA := by
  obtain ⟨c, hRun, hEmpty, _⟩ := overlapping_run
  exact ⟨c, hRun, hEmpty, queue_only_rolled_back judgeA hRun⟩

theorem overlapping_undisturbed :
    ∃ c, exec (concurrentRequests 5 (fun _ => .stable) overlapping threeTeams) [0, 1, 2, 0, 1, 2] =
        some c ∧
      ∃ alone, exec (concurrentRequests 5 (fun _ => .stable) overlapping threeTeams)
          ([0, 1, 2, 0, 1, 2].filter fun i => !(overlapping i).isCall) = some alone ∧
        alone.store.scores = c.store.scores ∧ alone.store.judgedTeams = c.store.judgedTeams := by
  obtain ⟨c, hRun, _⟩ := overlapping_run
  exact ⟨c, hRun, submissions_undisturbed hRun⟩

theorem overlapping_recorded :
    ∃ c, exec (concurrentRequests 5 (fun _ => .stable) overlapping threeTeams) [0, 1, 2, 0, 1, 2] =
        some c ∧
      judgeA ∈ c.store.scores (teamKey 1) ∧ ("-M1", 1) ∈ c.store.judgedTeams judgeA := by
  obtain ⟨c, hRun, _, hDone⟩ := overlapping_run
  exact ⟨c, hRun, submission_recorded (i := 2) rfl hRun (List.isEmpty_iff.mp hDone)⟩

end Contest

end CICJudging
