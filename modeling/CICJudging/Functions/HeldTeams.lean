import CICJudging.Functions.SubmitRace

/-! Calls and submissions one after the other. The claim map names one judge for
a team that several may hold, and a removal deletes the entry whoever it names. -/
namespace CICJudging

open ReadModifyWrite Transition

/-- What the app of some judge does, each finishing before the next starts. The
sort order of a call is up to the engine. -/
inductive QueueEvent where
  | assignTeams (sorts : SortCalls) (judgeId : JudgeId)
  | submitScores (sorts : SortCalls) (judgeId : JudgeId) (teamId : Int) (scores : ScoresData)
      (autoId : String)

def QueueEvent.ops (fuel : Nat) : QueueEvent → List (Op Root)
  | .assignTeams sorts judgeId => CICJudging.assignTeams fuel sorts judgeId
  | .submitScores sorts judgeId teamId scores autoId =>
      CICJudging.submitScores fuel sorts judgeId teamId scores autoId .client ++
        CICJudging.submitScores fuel sorts judgeId teamId scores autoId .call

/-- A call that does not return ends the run. -/
def nextRoot (fuel : Nat) (root : Root) (event : QueueEvent) : Option Root :=
  runOps (event.ops fuel) root

/-- The root between the two blocks of the removal. -/
def removedRoot (root : Root) (judgeId : JudgeId) (teamId : Int) (scores : ScoresData)
    (autoId : String) : Root :=
  ((root.setScores teamId judgeId scores).pushJudgedTeam judgeId autoId teamId).setJudgingQueue
    (root.judgingQueue.remove judgeId teamId)

theorem nextRoot_assignTeams {fuel : Nat} {root after : Root} {sorts : SortCalls}
    {judgeId : JudgeId} (h : nextRoot fuel root (.assignTeams sorts judgeId) = some after) :
    ∃ ids, Refill root judgeId ids ∧
      after = root.setJudgingQueue (root.judgingQueue.append judgeId ids) := by
  obtain ⟨_, hBlock, hDone⟩ := runOps_cons_eq_some.mp h
  cases hDone
  obtain ⟨f, hf, rfl⟩ := Option.map_eq_some_iff.mp hBlock
  obtain ⟨ids, _, hRefill, rfl⟩ := processCompute_eq_some hf
  exact ⟨ids, hRefill, rfl⟩

theorem nextRoot_submitScores {fuel : Nat} {root after : Root} {sorts : SortCalls}
    {judgeId : JudgeId} {teamId : Int} {scores : ScoresData} {autoId : String}
    (h : nextRoot fuel root (.submitScores sorts judgeId teamId scores autoId) = some after) :
    ∃ ids, Refill (removedRoot root judgeId teamId scores autoId) judgeId ids ∧
      after = (removedRoot root judgeId teamId scores autoId).setJudgingQueue
        ((root.judgingQueue.remove judgeId teamId).append judgeId ids) := by
  obtain ⟨_, hScores, h⟩ := runOps_cons_eq_some.mp h
  obtain ⟨_, hLog, h⟩ := runOps_cons_eq_some.mp h
  obtain ⟨_, hFilter, h⟩ := runOps_cons_eq_some.mp h
  cases hScores
  cases hLog
  cases hFilter
  exact nextRoot_assignTeams h

/-- Every team in some queue is a key of the claim map. -/
def JudgingQueue.HeldClaimed (queue : JudgingQueue) : Prop :=
  ∀ judgeId, ∀ teamId ∈ queue.queues judgeId, (queue.judgeAssigned (teamKey teamId)).isSome

/-- No judge but the one named holds the team. -/
def JudgingQueue.HeldByNoOther (queue : JudgingQueue) (judgeId : JudgeId) (teamId : Int) : Prop :=
  ∀ k, k ≠ judgeId → teamId ∉ queue.queues k

namespace JudgingQueue

variable {queue : JudgingQueue} {judgeId : JudgeId} {teamId : Int}

theorem HeldClaimed.empty : JudgingQueue.empty.HeldClaimed := by
  intro judgeId teamId hMem
  simp [JudgingQueue.empty] at hMem

theorem append_judgeAssigned_isSome {ids : List Int} {teamID : String} :
    ((queue.append judgeId ids).judgeAssigned teamID).isSome ↔
      teamID ∈ ids.map teamKey ∨ (queue.judgeAssigned teamID).isSome := by
  rw [append_judgeAssigned]
  split_ifs with hNew
  · exact iff_of_true rfl (Or.inl hNew)
  · exact (or_iff_right hNew).symm

/-- A refill claims whatever it appends and releases nothing. -/
theorem HeldClaimed.append (h : queue.HeldClaimed) (judgeId : JudgeId) (ids : List Int) :
    (queue.append judgeId ids).HeldClaimed := by
  intro k id hid
  rw [append_judgeAssigned_isSome]
  rcases mem_append_queues.mp hid with hOld | ⟨_, hNew⟩
  · exact Or.inr (h k id hOld)
  · exact Or.inl (List.mem_map_of_mem hNew)

theorem HeldClaimed.remove (h : queue.HeldClaimed) (hOther : queue.HeldByNoOther judgeId teamId) :
    (queue.remove judgeId teamId).HeldClaimed := by
  intro k id hid
  obtain ⟨hOld, hKept⟩ := mem_remove_queues.mp hid
  have hne : id ≠ teamId := by
    rintro rfl
    by_cases hk : k = judgeId
    · exact hKept hk rfl
    · exact hOther k hk hOld
  rw [remove_judgeAssigned, if_neg (by simpa using hne)]
  exact h k id hOld

/-- A team that another judge still holds has lost its claim, unless the refill
takes it again. -/
theorem heldByNoOther_of_heldClaimed {ids : List Int} (hNew : teamId ∉ ids)
    (h : ((queue.remove judgeId teamId).append judgeId ids).HeldClaimed) :
    queue.HeldByNoOther judgeId teamId := by
  intro k hk hid
  have hKept : teamId ∈ ((queue.remove judgeId teamId).append judgeId ids).queues k :=
    mem_append_queues.mpr (Or.inl (mem_remove_queues.mpr ⟨hid, fun hSame => absurd hSame hk⟩))
  have hClaimed := h k teamId hKept
  rw [append_judgeAssigned_isSome, remove_judgeAssigned, if_pos rfl] at hClaimed
  simp [hNew] at hClaimed

end JudgingQueue

/-- A submission may be for any team, but not for one that another judge holds. -/
def SubmitsOwnTeam (root : Root) : QueueEvent → Prop
  | .assignTeams _ _ => True
  | .submitScores _ judgeId teamId _ _ => root.judgingQueue.HeldByNoOther judgeId teamId

theorem nextRoot_heldClaimed {fuel : Nat} {root after : Root} {event : QueueEvent}
    (hClaimed : root.judgingQueue.HeldClaimed) (hOwn : SubmitsOwnTeam root event)
    (hNext : nextRoot fuel root event = some after) : after.judgingQueue.HeldClaimed := by
  cases event with
  | assignTeams sorts judgeId =>
      obtain ⟨ids, _, rfl⟩ := nextRoot_assignTeams hNext
      exact hClaimed.append judgeId ids
  | submitScores sorts judgeId teamId scores autoId =>
      obtain ⟨ids, _, rfl⟩ := nextRoot_submitScores hNext
      exact (hClaimed.remove hOwn).append judgeId ids

/-- No event touches the team records. -/
theorem nextRoot_teams {fuel : Nat} {root after : Root} {event : QueueEvent}
    (hNext : nextRoot fuel root event = some after) : after.teams = root.teams := by
  cases event with
  | assignTeams sorts judgeId =>
      obtain ⟨ids, _, rfl⟩ := nextRoot_assignTeams hNext
      rfl
  | submitScores sorts judgeId teamId scores autoId =>
      obtain ⟨ids, _, rfl⟩ := nextRoot_submitScores hNext
      rfl

/-- The refill after a submission does not take a team stored under its key: its
score is in the database by then. -/
theorem not_mem_of_refill {root : Root} (hKeyed : root.Keyed) {judgeId : JudgeId} {teamId : Int}
    {scores : ScoresData} {autoId : String} {ids : List Int}
    (hRefill : Refill (removedRoot root judgeId teamId scores autoId) judgeId ids) :
    teamId ∉ ids := by
  intro hMem
  obtain ⟨_, _, hId, hEligible⟩ := hRefill.eligible teamId hMem
  have hKeyed' : (removedRoot root judgeId teamId scores autoId).Keyed := hKeyed
  have hUnscored := ((eligible_iff_of_keyed hKeyed').mp ⟨_, hEligible, hId⟩).2
  exact hUnscored (Root.mem_setScores.mpr (Or.inl ⟨rfl, rfl⟩))

theorem submitsOwnTeam_of_heldClaimed {fuel : Nat} {root after : Root} {event : QueueEvent}
    (hKeyed : root.Keyed) (hNext : nextRoot fuel root event = some after)
    (hClaimed : after.judgingQueue.HeldClaimed) : SubmitsOwnTeam root event := by
  cases event with
  | assignTeams sorts judgeId => trivial
  | submitScores sorts judgeId teamId scores autoId =>
      obtain ⟨ids, hRefill, rfl⟩ := nextRoot_submitScores hNext
      exact JudgingQueue.heldByNoOther_of_heldClaimed (not_mem_of_refill hKeyed hRefill) hClaimed

/-- In a run without a submission for a team that another judge holds, every held
team is claimed throughout; where the records are stored under their ids no
other run that goes through has this. -/
theorem heldTeams_claimed {fuel : Nat} {origin : Root} {events : List QueueEvent}
    (hEmpty : origin.judgingQueue = JudgingQueue.empty) :
    (Along (nextRoot fuel) SubmitsOwnTeam origin events →
      Throughout (nextRoot fuel) (fun root => root.judgingQueue.HeldClaimed) origin events) ∧
    (origin.Keyed → (run (nextRoot fuel) origin events).isSome →
      Throughout (nextRoot fuel) (fun root => root.judgingQueue.HeldClaimed) origin events →
      Along (nextRoot fuel) SubmitsOwnTeam origin events) := by
  constructor
  · intro hOwn
    refine throughout_of_along (nextRoot fuel) ?_ hOwn ?_
    · exact fun _ _ _ hClaimed hSubmits hNext => nextRoot_heldClaimed hClaimed hSubmits hNext
    · exact hEmpty ▸ JudgingQueue.HeldClaimed.empty
  · intro hKeyed hSome hClaimed
    obtain ⟨final, hRun⟩ := Option.isSome_iff_exists.mp hSome
    refine along_of_throughout (nextRoot fuel) ?_ ?_ hRun hKeyed hClaimed
    · intro root event after hRoot hNext entry hMem
      exact hRoot entry (nextRoot_teams hNext ▸ hMem)
    · exact fun _ _ _ hRoot _ hNext hAfter => submitsOwnTeam_of_heldClaimed hRoot hNext hAfter

namespace Contest

/-- The first judge is given 1, 2 and 3; then the second scores team 1 from the
list of all teams. -/
def otherJudgeScores : List QueueEvent :=
  [.assignTeams .stable judgeA, .submitScores .stable judgeB 1 ⟨3, 3, 3, 3, ""⟩ "-M1"]

/-- The first judge still holds team 1, and the claim map does not know it. -/
theorem heldTeam_unclaimed :
    ∃ final, run (nextRoot 5) (root [1, 2, 3, 4, 5, 6] (by decide) .empty) otherJudgeScores =
        some final ∧ 1 ∈ final.judgingQueue.queues judgeA ∧
      final.judgingQueue.judgeAssigned (teamKey 1) = none := by
  have hRun : ∃ final ∈ run (nextRoot 5) (root [1, 2, 3, 4, 5, 6] (by decide) .empty)
      otherJudgeScores, 1 ∈ final.judgingQueue.queues judgeA ∧
        final.judgingQueue.judgeAssigned (teamKey 1) = none := by decide
  exact hRun

/-- A judge submits for a team of its own queue, which nobody else holds. -/
theorem heldTeam_claimed :
    Throughout (nextRoot 5) (fun root => root.judgingQueue.HeldClaimed)
      fourTeams
      [.assignTeams .stable judgeA, .submitScores .stable judgeA 1 ⟨3, 3, 3, 3, ""⟩ "-M1"] := by
  refine (heldTeams_claimed rfl).1 ⟨trivial, fun middle hNext => ⟨?_, fun _ _ => trivial⟩⟩
  obtain ⟨ids, _, rfl⟩ := nextRoot_assignTeams hNext
  intro k hk
  simp [JudgingQueue.mem_append_queues, fourTeams, root, JudgingQueue.empty, hk]

end Contest

end CICJudging
