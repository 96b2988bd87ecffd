import CICJudging.Functions.Calls

/-! A submission races with itself: the score goes to the database directly and
the removal goes through a function, so the refill of that function may read the
root before the score is there. -/
namespace CICJudging

open ReadModifyWrite Transition

/-- The client's own writes and the function it calls, which nothing orders. -/
inductive Party where
  | client
  | call
  deriving DecidableEq

instance : Fintype Party := ⟨{.client, .call}, fun party => by cases party <;> simp⟩

/-- The steps taken before the call's step number `n`, counted from zero. -/
def beforeCall : Nat → List Party → List Party
  | _, [] => []
  | 0, .call :: _ => []
  | n + 1, .call :: rest => .call :: beforeCall n rest
  | n, .client :: rest => .client :: beforeCall n rest

/-- The read of the refill is the call's third step. -/
def beforeRefill (schedule : List Party) : List Party := beforeCall 2 schedule

theorem beforeCall_append {n : Nat} {past : List Party} (h : n < past.count .call)
    (more : List Party) : beforeCall n (past ++ more) = beforeCall n past := by
  induction past generalizing n with
  | nil => cases h
  | cons party past ih =>
      cases party with
      | client => simpa [beforeCall] using ih (by simpa using h)
      | call =>
          cases n with
          | zero => rfl
          | succ n => simpa [beforeCall] using ih (by simpa using h)

theorem beforeCall_snoc (past : List Party) :
    beforeCall (past.count .call) (past ++ [.call]) = past := by
  induction past with
  | nil => rfl
  | cons party past ih => cases party <;> simpa [beforeCall] using ih

/-- How many records a refill goes through before it meets the team. -/
def scanPosition (sorts : SortCalls) (root : Root) (judgeId : JudgeId) (teamId : Int) : Nat :=
  (scanOrder sorts root judgeId).findIdx fun team => decide (team.teamId = some teamId)

section Submission

variable (fuel : Nat) (sorts : SortCalls) (origin : Root) (judgeId : JudgeId) (teamId : Int)
  (scores : ScoresData) (autoId : String)

/-- The database steps that `submitScores` starts. -/
def submitScores : Party → List (Op Root)
  | .client => [setScoresOp teamId judgeId scores, pushJudgedTeamOp judgeId autoId teamId]
  | .call => removeAssignedTeam fuel sorts judgeId teamId

/-- The root that the refill reads, up to `judgedTeams`, which it does not use. -/
def refillRoot (scored : Bool) : Root :=
  (if scored then origin.setScores teamId judgeId scores else origin).setJudgingQueue
    (origin.judgingQueue.remove judgeId teamId)

/-- How far the client is, and the root as its writes alone have changed it. -/
inductive ClientStage : Bool → List (Op Root) → Root → Prop
  | start : ClientStage false
      [setScoresOp teamId judgeId scores, pushJudgedTeamOp judgeId autoId teamId] origin
  | scored : ClientStage true [pushJudgedTeamOp judgeId autoId teamId]
      (origin.setScores teamId judgeId scores)
  | logged : ClientStage true []
      ((origin.setScores teamId judgeId scores).pushJudgedTeam judgeId autoId teamId)

/-- How far the call is, with the node as it stands after the steps taken. -/
inductive CallStage (past : List Party) : Thread Root → JudgingQueue → Prop
  | start : past.count .call = 0 →
      CallStage past ⟨none, removeAssignedTeam fuel sorts judgeId teamId⟩ origin.judgingQueue
  | filtering (seen : Root) : past.count .call = 1 → seen.judgingQueue = origin.judgingQueue →
      CallStage past ⟨some seen, removeAssignedTeam fuel sorts judgeId teamId⟩ origin.judgingQueue
  | filtered : past.count .call = 2 →
      CallStage past ⟨none, [reassignTeam fuel sorts judgeId]⟩
        (origin.judgingQueue.remove judgeId teamId)
  | refilling (todo : List (Op Root)) (base : Root) : 2 < past.count .call →
      ClientStage origin judgeId teamId scores autoId (decide (.client ∈ beforeRefill past))
        todo base →
      CallStage past ⟨some (base.setJudgingQueue (origin.judgingQueue.remove judgeId teamId)),
        [reassignTeam fuel sorts judgeId]⟩ (origin.judgingQueue.remove judgeId teamId)
  | finished (ids : List Int) : 2 < past.count .call →
      (scanWindow sorts (refillRoot origin judgeId teamId scores
        (decide (.client ∈ beforeRefill past))) judgeId).map Team.teamId = ids.map some →
      CallStage past ⟨none, []⟩ ((origin.judgingQueue.remove judgeId teamId).append judgeId ids)

/-- What the steps taken so far determine about the configuration. -/
structure SubmitProgress (past : List Party) (c : Config Party Root) : Prop where
  stages : ∃ todo base queue, c.threads .client = ⟨none, todo⟩ ∧
    ClientStage origin judgeId teamId scores autoId (decide (.client ∈ past)) todo base ∧
    c.store = base.setJudgingQueue queue ∧
    CallStage fuel sorts origin judgeId teamId scores autoId past (c.threads .call) queue

variable {fuel sorts origin judgeId teamId scores autoId}

/-- The refill does not look at `judgedTeams`. -/
theorem ClientStage.scanWindow {scored : Bool} {todo : List (Op Root)} {base : Root}
    (h : ClientStage origin judgeId teamId scores autoId scored todo base) :
    CICJudging.scanWindow sorts
        (base.setJudgingQueue (origin.judgingQueue.remove judgeId teamId)) judgeId =
      CICJudging.scanWindow sorts (refillRoot origin judgeId teamId scores scored) judgeId := by
  cases h <;> rfl

theorem CallStage.client {past : List Party} {thread : Thread Root} {queue : JudgingQueue}
    (h : CallStage fuel sorts origin judgeId teamId scores autoId past thread queue) :
    CallStage fuel sorts origin judgeId teamId scores autoId (past ++ [.client]) thread queue := by
  have hCount : (past ++ [Party.client]).count .call = past.count .call := by simp
  have hBefore : 2 < past.count .call → beforeRefill (past ++ [.client]) = beforeRefill past :=
    fun h => beforeCall_append h _
  cases h with
  | start hPast => exact .start (hCount.trans hPast)
  | filtering seen hPast hSeen => exact .filtering seen (hCount.trans hPast) hSeen
  | filtered hPast => exact .filtered (hCount.trans hPast)
  | refilling todo base hPast hStage =>
      exact .refilling todo base (by rwa [hCount]) (by rwa [hBefore hPast])
  | finished ids hPast hIds => exact .finished ids (by rwa [hCount]) (by rwa [hBefore hPast])

theorem SubmitProgress.start :
    SubmitProgress fuel sorts origin judgeId teamId scores autoId []
      (Config.start origin (submitScores fuel sorts judgeId teamId scores autoId)) :=
  ⟨_, origin, _, rfl, .start, rfl, .start rfl⟩

private theorem SubmitProgress.write {past : List Party} {c : Config Party Root}
    {queue : JudgingQueue} {todo : List (Op Root)} {base : Root}
    (hCall : CallStage fuel sorts origin judgeId teamId scores autoId past (c.threads .call) queue)
    (hClient : ClientStage origin judgeId teamId scores autoId true todo base) :
    SubmitProgress fuel sorts origin judgeId teamId scores autoId (past ++ [.client])
      (c.set (base.setJudgingQueue queue) .client ⟨none, todo⟩) := by
  refine ⟨todo, base, queue, c.set_threads_self .., by simpa using hClient, rfl, ?_⟩
  rw [c.set_threads_of_ne _ (by decide)]
  exact hCall.client

/-- A step of the client is its next write, which leaves the node alone. -/
theorem SubmitProgress.client {past : List Party} {c d : Config Party Root}
    (h : SubmitProgress fuel sorts origin judgeId teamId scores autoId past c)
    (hStep : step c .client = some d) :
    SubmitProgress fuel sorts origin judgeId teamId scores autoId (past ++ [.client]) d := by
  obtain ⟨todo, base, queue, hThread, hClient, hStore, hCall⟩ := h.stages
  generalize decide (Party.client ∈ past) = scored at hClient
  cases hClient with
  | start =>
      simp only [step, hThread, hStore, setScoresOp, Option.some.injEq] at hStep
      exact hStep ▸ .write hCall .scored
  | scored =>
      simp only [step, hThread, hStore, pushJudgedTeamOp, Option.some.injEq] at hStep
      exact hStep ▸ .write hCall .logged
  | logged => simp [step, hThread] at hStep

private theorem SubmitProgress.advance {past : List Party} {c : Config Party Root}
    {todo : List (Op Root)} (base : Root) {queue : JudgingQueue} {thread : Thread Root}
    (hThread : c.threads .client = ⟨none, todo⟩)
    (hClient : ClientStage origin judgeId teamId scores autoId (decide (.client ∈ past)) todo base)
    (hCall : CallStage fuel sorts origin judgeId teamId scores autoId (past ++ [.call]) thread
      queue) :
    SubmitProgress fuel sorts origin judgeId teamId scores autoId (past ++ [.call])
      (c.set (base.setJudgingQueue queue) .call thread) := by
  refine ⟨todo, base, queue, ?_, by simpa using hClient, rfl, by rwa [c.set_threads_self]⟩
  rwa [c.set_threads_of_ne _ (by decide)]

/-- A step of the call reads the root or writes the node. The read of the refill
fixes what the client has written by then. -/
theorem SubmitProgress.call {past : List Party} {c d : Config Party Root}
    (h : SubmitProgress fuel sorts origin judgeId teamId scores autoId past c)
    (hStep : step c .call = some d) :
    SubmitProgress fuel sorts origin judgeId teamId scores autoId (past ++ [.call]) d := by
  obtain ⟨todo, base, queue, hThread, hClient, hStore, hCall⟩ := h.stages
  have hCount : (past ++ [Party.call]).count .call = past.count .call + 1 := by simp
  generalize hCurrent : c.threads .call = thread at hCall
  cases hCall with
  | start hPast =>
      simp only [step, hCurrent, removeAssignedTeam, hStore, Option.some.injEq] at hStep
      exact hStep ▸ .advance base hThread hClient (.filtering _ (by omega) rfl)
  | filtering seen hPast hSeen =>
      simp only [step, hCurrent, removeAssignedTeam, hStore, filterCompute_eq, hSeen,
        Option.map_some, Option.some.injEq] at hStep
      exact hStep ▸ .advance base hThread hClient (.filtered (by omega))
  | filtered hPast =>
      simp only [step, hCurrent, reassignTeam, hStore, Option.some.injEq] at hStep
      have hBefore : beforeRefill (past ++ [.call]) = past := by
        simpa [beforeRefill, hPast] using beforeCall_snoc past
      exact hStep ▸ .advance base hThread hClient (.refilling todo base (by omega) (by rwa [hBefore]))
  | refilling seenTodo seenBase hPast hSeen =>
      simp only [step, hCurrent, reassignTeam, hStore, Option.map_eq_some_iff] at hStep
      obtain ⟨f, hf, hStep⟩ := hStep
      obtain ⟨ids, hIds, _, rfl⟩ := processCompute_eq_some hf
      have hBefore : beforeRefill (past ++ [.call]) = beforeRefill past :=
        beforeCall_append hPast _
      rw [hSeen.scanWindow] at hIds
      exact hStep ▸ .advance base hThread hClient (.finished ids (by omega) (by rwa [hBefore]))
  | finished => simp [step, hCurrent] at hStep

theorem SubmitProgress.run {schedule : List Party} {final : Config Party Root}
    (hRun : exec (Config.start origin (submitScores fuel sorts judgeId teamId scores autoId))
      schedule = some final) :
    SubmitProgress fuel sorts origin judgeId teamId scores autoId schedule final := by
  have hStep : ∀ past c party d,
      SubmitProgress fuel sorts origin judgeId teamId scores autoId past c →
      step c party = some d →
      SubmitProgress fuel sorts origin judgeId teamId scores autoId (past ++ [party]) d := by
    intro past c party d hProgress hStep
    cases party with
    | client => exact hProgress.client hStep
    | call => exact hProgress.call hStep
  exact run_history step hStep hRun .start

variable (origin judgeId teamId) in
/-- At the read of the refill the judge may be given the team: by then the
score must not have been written where the refill looks for it. -/
def OpenAtRefill (schedule : List Party) : Prop :=
  ∃ entry, Eligible origin judgeId entry ∧ entry.2.teamId = some teamId ∧
    (.client ∈ beforeRefill schedule → entry.1 ≠ teamKey teamId)

theorem eligible_refillRoot {scored : Bool} {entry : String × Team} :
    Eligible (refillRoot origin judgeId teamId scores scored) judgeId entry ↔
      Eligible origin judgeId entry ∧ (scored = true → entry.1 ≠ teamKey teamId) := by
  cases scored with
  | false =>
      simp only [Bool.false_eq_true, false_implies, and_true]
      exact ⟨fun h => ⟨h.mem, h.preferred, h.unscored⟩, fun h => ⟨h.mem, h.preferred, h.unscored⟩⟩
  | true =>
      have hScores : judgeId ∉ (origin.setScores teamId judgeId scores).scores entry.1 ↔
          entry.1 ≠ teamKey teamId ∧ judgeId ∉ origin.scores entry.1 := by
        rw [Root.mem_setScores]
        simp
      constructor
      · rintro ⟨hMem, hPreferred, hUnscored⟩
        obtain ⟨hKey, hOld⟩ := hScores.mp hUnscored
        exact ⟨⟨hMem, hPreferred, hOld⟩, fun _ => hKey⟩
      · rintro ⟨⟨hMem, hPreferred, hOld⟩, hKey⟩
        exact ⟨hMem, hPreferred, hScores.mpr ⟨hKey rfl, hOld⟩⟩

theorem openAtRefill_iff_of_keyed (hKeyed : origin.Keyed) {schedule : List Party} :
    OpenAtRefill origin judgeId teamId schedule ↔
      .client ∉ beforeRefill schedule ∧ Matches origin judgeId teamId ∧
        judgeId ∉ origin.scores (teamKey teamId) := by
  rw [← eligible_iff_of_keyed hKeyed]
  constructor
  · rintro ⟨entry, hEligible, hId, hKey⟩
    obtain ⟨own, hOwn, hOwnKey⟩ := hKeyed entry hEligible.mem
    obtain rfl := Option.some.inj (hId.symm.trans hOwn)
    exact ⟨fun hFirst => hKey hFirst hOwnKey, entry, hEligible, hId⟩
  · rintro ⟨hLate, entry, hEligible, hId⟩
    exact ⟨entry, hEligible, hId, fun hFirst => absurd hFirst hLate⟩

private theorem exists_mem_take_iff {α : Type} {p : α → Bool} {l : List α} {n : Nat} :
    (∃ x ∈ l.take n, p x = true) ↔ (∃ x ∈ l, p x = true) ∧ l.findIdx p < n := by
  induction l generalizing n with
  | nil => simp
  | cons a l ih =>
      cases n with
      | zero => simp
      | succ n => cases hp : p a <;> simp [List.findIdx_cons, hp, ih]

/-- After all six steps the submitted team is out of the judge's queue unless
the judge could still be given it when the refill read the root and it came
early enough in the order of the refill. -/
theorem submitScores_leaves_queue_iff {schedule : List Party} {final : Config Party Root}
    (hRun : exec (Config.start origin (submitScores fuel sorts judgeId teamId scores autoId))
      schedule = some final) (hDone : final.Done) :
    teamId ∉ final.store.judgingQueue.queues judgeId ↔
      ¬OpenAtRefill origin judgeId teamId schedule ∨
        openSlots (refillRoot origin judgeId teamId scores
            (decide (.client ∈ beforeRefill schedule))) judgeId ≤
          scanPosition sorts (refillRoot origin judgeId teamId scores
            (decide (.client ∈ beforeRefill schedule))) judgeId teamId := by
  obtain ⟨_, base, queue, _, _, hStore, hCall⟩ := (SubmitProgress.run hRun).stages
  rw [hDone .call] at hCall
  generalize hScored : decide (Party.client ∈ beforeRefill schedule) = scored at hCall ⊢
  cases hCall with
  | finished ids hPast hIds =>
      rw [hScored] at hIds
      have hQueue : teamId ∈ final.store.judgingQueue.queues judgeId ↔ teamId ∈ ids := by
        simp [hStore, List.mem_filter]
      have hOpen : (∃ team ∈ scanOrder sorts (refillRoot origin judgeId teamId scores scored)
          judgeId, decide (team.teamId = some teamId) = true) ↔
          OpenAtRefill origin judgeId teamId schedule := by
        simp only [mem_scanOrder, eligible_refillRoot, decide_eq_true_eq, ← hScored, OpenAtRefill]
        constructor
        · rintro ⟨team, ⟨teamID, hEligible, hKey⟩, hId⟩
          exact ⟨(teamID, team), hEligible, hId, hKey⟩
        · rintro ⟨⟨teamID, team⟩, hEligible, hId, hKey⟩
          exact ⟨team, ⟨teamID, hEligible, hKey⟩, hId⟩
      rw [hQueue, mem_ids_of_window hIds, scanPosition, ← hOpen, ← not_lt, ← not_and_or, ← exists_mem_take_iff]
      simp [scanWindow]

end Submission

namespace Contest

/-- The first judge holds the teams 1, 2 and 3 and submits a score for 1. -/
def submitted (schedule : List Party) : Option (Config Party Root) :=
  exec (Config.start (fourTeams.setJudgingQueue (JudgingQueue.empty.append judgeA [1, 2, 3]))
    (submitScores 5 .stable judgeA 1 ⟨4, 5, 3, 4, ""⟩ "-M1")) schedule

/-- The call overtakes both client writes: the refill finds the removed team
unassigned and not scored, and appends it again. -/
theorem submitted_team_returns :
    ∃ final, submitted [.call, .call, .call, .call, .client, .client] = some final ∧
      final.Done ∧ 1 ∈ final.store.judgingQueue.queues judgeA := by
  have hRun : ∃ final ∈ submitted [.call, .call, .call, .call, .client, .client],
      final.Done ∧ 1 ∈ final.store.judgingQueue.queues judgeA := by decide
  exact hRun

/-- The score arrives between the two blocks of the call. -/
theorem submitted_team_leaves :
    ∃ final, submitted [.call, .call, .client, .call, .client, .call] = some final ∧
      1 ∉ final.store.judgingQueue.queues judgeA := by
  obtain ⟨final, hRun, hDone⟩ :
      ∃ final ∈ submitted [.call, .call, .client, .call, .client, .call], final.Done := by decide
  refine ⟨final, hRun, (submitScores_leaves_queue_iff hRun hDone).mpr (Or.inl fun hOpen => ?_)⟩
  have hKeyed : (fourTeams.setJudgingQueue (JudgingQueue.empty.append judgeA [1, 2, 3])).Keyed :=
    fourTeams_keyed
  exact ((openAtRefill_iff_of_keyed hKeyed).mp hOpen).1 (by decide)

end Contest

end CICJudging
