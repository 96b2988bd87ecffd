import CICJudging.Library.Allotment
import CICJudging.Functions.QueueInvariant
import CICJudging.Functions.HeldTeams

/-! A whole contest, one call after the other. A refill that throws, or that is cut
off in one of its loops, writes nothing and the contest goes on. What the queues
are for is the allotment of teams to judges, which every such contest refines. -/
namespace CICJudging

open ReadModifyWrite Transition Allotment

namespace QueueEvent

def sorts : QueueEvent → SortCalls
  | .assignTeams sorts _ => sorts
  | .submitScores sorts _ _ _ _ => sorts

def judgeId : QueueEvent → JudgeId
  | .assignTeams _ judgeId => judgeId
  | .submitScores _ judgeId _ _ _ => judgeId

/-- The root that the refill of the event reads. -/
def refilled (root : Root) : QueueEvent → Root
  | .assignTeams _ _ => root
  | .submitScores _ judgeId teamId scores autoId => removedRoot root judgeId teamId scores autoId

end QueueEvent

/-- The database between calls, and for each judge whether the last refill of the
judge's queue came to an end. -/
structure Rounds where
  root : Root
  served : JudgeId → Bool

def Rounds.start (root : Root) : Rounds := ⟨root, fun _ => false⟩

/-- An event with the number of loop iterations that its call is allowed. -/
def nextRound (s : Rounds) (event : Nat × QueueEvent) : Option Rounds :=
  let (root, returned) := runUntilHalt (event.2.ops event.1) s.root
  some ⟨root, Function.update s.served event.2.judgeId returned⟩

/-- The writes before the refill never fail. -/
theorem runUntilHalt_event (fuel : Nat) (root : Root) (event : QueueEvent) :
    runUntilHalt (event.ops fuel) root =
      runUntilHalt [reassignTeam fuel event.sorts event.judgeId] (event.refilled root) := by
  cases event with
  | assignTeams sorts judgeId => rfl
  | submitScores sorts judgeId teamId scores autoId => rfl

/-- The refill writes the ids of all it scans, or nothing at all. -/
theorem nextRound_cases {s after : Rounds} {fuel : Nat} {event : QueueEvent}
    (hNext : nextRound s (fuel, event) = some after) :
    (∃ ids, (scanWindow event.sorts (event.refilled s.root) event.judgeId).map Team.teamId =
        ids.map some ∧ Refill (event.refilled s.root) event.judgeId ids ∧
      after = ⟨(event.refilled s.root).setJudgingQueue
        ((event.refilled s.root).judgingQueue.append event.judgeId ids),
        Function.update s.served event.judgeId true⟩) ∨
    after = ⟨event.refilled s.root, Function.update s.served event.judgeId false⟩ := by
  simp only [nextRound, runUntilHalt_event] at hNext
  cases hBlock : (reassignTeam fuel event.sorts event.judgeId).apply (event.refilled s.root) with
  | some root =>
      rw [runUntilHalt_cons_of_apply hBlock] at hNext
      obtain ⟨f, hf, rfl⟩ := Option.map_eq_some_iff.mp hBlock
      obtain ⟨ids, hIds, hRefill, rfl⟩ := processCompute_eq_some hf
      exact Or.inl ⟨ids, hIds, hRefill, (Option.some.inj hNext).symm⟩
  | none =>
      simp only [runUntilHalt, hBlock] at hNext
      exact Or.inr (Option.some.inj hNext).symm

/-- Who holds which teams, and who has scored which. -/
def Root.allotment (root : Root) : Allotment.State JudgeId Int where
  held judgeId := (root.judgingQueue.queues judgeId).toFinset
  done judgeId := {teamId | judgeId ∈ root.scores (teamKey teamId)}

theorem allotment_append (root : Root) (judgeId : JudgeId) (ids : List Int) :
    (root.setJudgingQueue (root.judgingQueue.append judgeId ids)).allotment =
      root.allotment.give judgeId ids.toFinset := by
  simp only [Root.allotment, State.give, State.mk.injEq, Root.setJudgingQueue, and_true]
  funext k
  by_cases hk : k = judgeId
  · subst hk
    simp
  · simp [JudgingQueue.append_queues_of_ne _ hk, hk]

theorem allotment_removedRoot (root : Root) (judgeId : JudgeId) (teamId : Int)
    (scores : ScoresData) (autoId : String) :
    (removedRoot root judgeId teamId scores autoId).allotment =
      root.allotment.finish judgeId teamId := by
  simp only [Root.allotment, State.finish, State.mk.injEq]
  constructor
  · funext k
    ext id
    have hQueue : (removedRoot root judgeId teamId scores autoId).judgingQueue =
        root.judgingQueue.remove judgeId teamId := rfl
    rw [List.mem_toFinset, hQueue, JudgingQueue.mem_remove_queues]
    by_cases hk : k = judgeId
    · subst hk
      simp [and_comm]
    · simp [hk]
  · funext k
    ext id
    have hScores : (removedRoot root judgeId teamId scores autoId).scores =
        (root.setScores teamId judgeId scores).scores := rfl
    rw [Set.mem_ofPred_eq, hScores, Root.mem_setScores, teamKey_inj]
    by_cases hk : k = judgeId
    · subst hk
      simp
    · simp [hk]

/-- Only the queues, the scores and the logs change. -/
theorem nextRound_valid {origin : Root} (hKeyed : origin.Keyed) {s after : Rounds}
    {event : Nat × QueueEvent} (hValid : RootValid origin s.root)
    (hNext : nextRound s event = some after) :
    RootValid origin (event.2.refilled s.root) ∧ RootValid origin after.root := by
  obtain ⟨fuel, event⟩ := event
  have hRefilled : RootValid origin (event.refilled s.root) := by
    cases event with
    | assignTeams sorts judgeId => exact hValid
    | submitScores sorts judgeId teamId scores autoId =>
        exact ⟨hValid.judges, hValid.teams, hValid.queue.remove judgeId teamId⟩
  refine ⟨hRefilled, ?_⟩
  rcases nextRound_cases hNext with ⟨ids, _, hRefill, rfl⟩ | rfl
  · have hKeyed' : (event.refilled s.root).Keyed :=
      fun entry hMem => hKeyed entry (hRefilled.teams ▸ hMem)
    have hOwn := (QueueValid.congr hRefilled.judges hRefilled.teams).mpr hRefilled.queue
    exact ⟨hRefilled.judges, hRefilled.teams,
      (QueueValid.congr hRefilled.judges hRefilled.teams).mp (hOwn.append hKeyed' hRefill)⟩
  · exact hRefilled

/-- Everything up to the refill is at most one team done with. -/
theorem steps_refilled {origin : Root} (root : Root) (event : QueueEvent) :
    Steps (Matches origin) 3 root.allotment (event.refilled root).allotment := by
  cases event with
  | assignTeams sorts judgeId => exact .refl
  | submitScores sorts judgeId teamId scores autoId =>
      rw [QueueEvent.refilled, allotment_removedRoot]
      exact .single (.finish judgeId teamId)

/-- A refill hands out teams that are open to the judge, as many as there is room for. -/
theorem step_append {origin root : Root} (hKeyed : root.Keyed) (hValid : RootValid origin root)
    {judgeId : JudgeId} {ids : List Int} (hRefill : Refill root judgeId ids) :
    Step (Matches origin) 3 root.allotment
      (root.setJudgingQueue (root.judgingQueue.append judgeId ids)).allotment := by
  rw [allotment_append]
  refine .give judgeId ids.toFinset (fun id hMem => ?_) ?_
  · rw [List.mem_toFinset] at hMem
    obtain ⟨teamID, team, hId, hEligible⟩ := hRefill.eligible id hMem
    obtain ⟨hMatches, hUnscored⟩ := (eligible_iff_of_keyed hKeyed).mp ⟨_, hEligible, hId⟩
    constructor
    case suits => exact (Matches.congr hValid.judges hValid.teams).mp hMatches
    case notDone => exact hUnscored
    case notHeld => exact fun hHeld => hRefill.fresh.2 id hMem (List.mem_toFinset.mp hHeld)
  · rw [List.toFinset_card_of_nodup hRefill.fresh.1, Root.allotment,
      List.toFinset_card_of_nodup (hValid.queue.nodup judgeId)]
    exact hRefill.length_le

theorem nextRound_steps {origin : Root} (hKeyed : origin.Keyed) {s after : Rounds}
    {event : Nat × QueueEvent} (hValid : RootValid origin s.root)
    (hNext : nextRound s event = some after) :
    Steps (Matches origin) 3 s.root.allotment after.root.allotment := by
  have hRefilled := (nextRound_valid hKeyed hValid hNext).1
  have hKeyed' : (event.2.refilled s.root).Keyed :=
    fun entry hMem => hKeyed entry (hRefilled.teams ▸ hMem)
  have hFirst : Steps (Matches origin) 3 s.root.allotment (event.2.refilled s.root).allotment :=
    steps_refilled s.root event.2
  rcases nextRound_cases hNext with ⟨ids, _, hRefill, rfl⟩ | rfl
  · exact hFirst.tail (step_append hKeyed' hRefilled hRefill)
  · exact hFirst

end CICJudging
