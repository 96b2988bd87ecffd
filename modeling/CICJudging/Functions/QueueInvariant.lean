import CICJudging.Functions.Calls

/-! The representation invariant of `judgingQueue` over every interleaving of
calls and score writes. Each block writes a whole node computed from one older
root, so it is enough that a block maps a good node to a good node. -/
namespace CICJudging

open ReadModifyWrite

/-- The node as it should always be, for the judges and teams of a root. -/
structure QueueValid (root : Root) (queue : JudgingQueue) : Prop where
  length_le : ∀ judgeId, (queue.queues judgeId).length ≤ 3
  nodup : ∀ judgeId, (queue.queues judgeId).Nodup
  matching : ∀ judgeId, ∀ teamId ∈ queue.queues judgeId, Matches root judgeId teamId
  claimed : ∀ teamID judgeId, queue.judgeAssigned teamID = some judgeId →
    ∃ teamId ∈ queue.queues judgeId, teamKey teamId = teamID

theorem QueueValid.empty (root : Root) : QueueValid root JudgingQueue.empty where
  length_le := by simp [JudgingQueue.empty]
  nodup := by simp [JudgingQueue.empty]
  matching := by simp [JudgingQueue.empty]
  claimed := by simp [JudgingQueue.empty]

/-- The filter block keeps the invariant: the deleted claim is the only one
that could have named the removed team. -/
theorem QueueValid.remove {root : Root} {queue : JudgingQueue} (h : QueueValid root queue)
    (judgeId : JudgeId) (teamId : Int) : QueueValid root (queue.remove judgeId teamId) where
  length_le k := (queue.remove_queues_sublist judgeId k teamId).length_le.trans (h.length_le k)
  nodup k := (h.nodup k).sublist (queue.remove_queues_sublist judgeId k teamId)
  matching k id hid := h.matching k id ((queue.remove_queues_sublist judgeId k teamId).subset hid)
  claimed teamID k hClaim := by
    rw [JudgingQueue.remove_judgeAssigned] at hClaim
    split_ifs at hClaim with hne
    obtain ⟨id, hid, hKey⟩ := h.claimed teamID k hClaim
    have hId : id ≠ teamId := fun heq => hne (by rw [← hKey, heq])
    exact ⟨id, JudgingQueue.mem_remove_queues.mpr ⟨hid, fun _ => hId⟩, hKey⟩

/-- The process block keeps the invariant on a root whose records are stored
under their own ids. -/
theorem QueueValid.append {root : Root} {judgeId : JudgeId} {ids : List Int}
    (hKeyed : root.Keyed) (h : QueueValid root root.judgingQueue)
    (hRefill : Refill root judgeId ids) :
    QueueValid root (root.judgingQueue.append judgeId ids) where
  length_le k := by
    by_cases hk : k = judgeId
    · subst hk
      have hRoom := hRefill.length_le
      have hOld := h.length_le k
      simp only [openSlots] at hRoom
      simp only [JudgingQueue.append_queues_self, List.length_append]
      omega
    · rw [JudgingQueue.append_queues_of_ne _ hk]
      exact h.length_le k
  nodup k := by
    by_cases hk : k = judgeId
    · subst hk
      rw [JudgingQueue.append_queues_self]
      exact hRefill.fresh.nodup_append (h.nodup k)
    · rw [JudgingQueue.append_queues_of_ne _ hk]
      exact h.nodup k
  matching k id hid := by
    rcases JudgingQueue.mem_append_queues.mp hid with hOld | ⟨rfl, hNew⟩
    · exact h.matching k id hOld
    · obtain ⟨teamID, team, hId, hEligible⟩ := hRefill.eligible id hNew
      exact ((eligible_iff_of_keyed hKeyed).mp ⟨_, hEligible, hId⟩).1
  claimed teamID k hClaim := by
    rw [JudgingQueue.append_judgeAssigned] at hClaim
    split_ifs at hClaim with hNew
    · obtain rfl := Option.some.inj hClaim
      obtain ⟨id, hid, hKey⟩ := List.mem_map.mp hNew
      exact ⟨id, JudgingQueue.mem_append_queues.mpr (Or.inr ⟨rfl, hid⟩), hKey⟩
    · obtain ⟨id, hid, hKey⟩ := h.claimed teamID k hClaim
      exact ⟨id, JudgingQueue.mem_append_queues.mpr (Or.inl hid), hKey⟩

/-- The judges and teams of the root, fixed for the run, and a valid node. -/
structure RootValid (origin root : Root) : Prop where
  judges : root.judges = origin.judges
  teams : root.teams = origin.teams
  queue : QueueValid origin root.judgingQueue

theorem Matches.congr {origin root : Root} (hJudges : root.judges = origin.judges)
    (hTeams : root.teams = origin.teams) {judgeId : JudgeId} {teamId : Int} :
    Matches root judgeId teamId ↔ Matches origin judgeId teamId := by
  simp [Matches, hJudges, hTeams]

theorem QueueValid.congr {origin root : Root} (hJudges : root.judges = origin.judges)
    (hTeams : root.teams = origin.teams) {queue : JudgingQueue} :
    QueueValid root queue ↔ QueueValid origin queue := by
  constructor
  · exact fun h => ⟨h.length_le, h.nodup,
      fun k id hid => (Matches.congr hJudges hTeams).mp (h.matching k id hid), h.claimed⟩
  · exact fun h => ⟨h.length_le, h.nodup,
      fun k id hid => (Matches.congr hJudges hTeams).mpr (h.matching k id hid), h.claimed⟩

/-- Every operation of every activity keeps the invariant, even when its block
read a root that other writes have replaced since. -/
theorem Activity.preserves {origin : Root} (hKeyed : origin.Keyed) (fuel : Nat) (sorts : SortCalls)
    (activity : Activity) : ∀ op ∈ activity.ops fuel sorts, op.Preserves (RootValid origin) := by
  have hProcess : ∀ judgeId, (Op.block (processCompute fuel sorts judgeId)).Preserves
      (RootValid origin) := by
    intro judgeId seen root f hSeen hRoot hf
    obtain ⟨ids, _, hRefill, rfl⟩ := processCompute_eq_some hf
    have hSeenKeyed : seen.Keyed := fun entry hMem => hKeyed entry (hSeen.teams ▸ hMem)
    have hOwn := (QueueValid.congr hSeen.judges hSeen.teams).mpr hSeen.queue
    exact ⟨hRoot.judges, hRoot.teams,
      (QueueValid.congr hSeen.judges hSeen.teams).mp (hOwn.append hSeenKeyed hRefill)⟩
  have hFilter : ∀ judgeId teamId, (Op.block (filterCompute judgeId teamId)).Preserves
      (RootValid origin) := by
    intro judgeId teamId seen root f hSeen hRoot hf
    cases hf
    exact ⟨hRoot.judges, hRoot.teams, hSeen.queue.remove judgeId teamId⟩
  cases activity with
  | call request =>
      intro op hop
      rcases Call.mem_ops hop with ⟨judgeId, rfl⟩ | ⟨judgeId, teamId, rfl⟩
      · exact hProcess judgeId
      · exact hFilter judgeId teamId
  | setScores teamId judgeId scores =>
      intro op hop
      obtain rfl : op = setScoresOp teamId judgeId scores := by simpa [ops] using hop
      exact fun root hRoot => ⟨hRoot.judges, hRoot.teams, hRoot.queue⟩

/-- In every state that any interleaving of the reads and writes of any calls
and score writes reaches from an empty node, each list has at most three
entries, none twice, all of existing teams of the judge's group, and each
claim names a judge that holds the team. -/
theorem judgingQueue_valid {ι : Type} [DecidableEq ι] (fuel : Nat) (sorts : ι → SortCalls)
    (activities : ι → Activity) (origin : Root) (hKeyed : origin.Keyed)
    (hEmpty : origin.judgingQueue = JudgingQueue.empty) (schedule : List ι)
    (c : Config ι Root)
    (hRun : exec (Config.start origin fun i => (activities i).ops fuel (sorts i)) schedule = some c) :
    QueueValid origin c.store.judgingQueue := by
  have hOrigin : RootValid origin origin := ⟨rfl, rfl, hEmpty ▸ QueueValid.empty origin⟩
  have hStart : (Config.start origin fun i => (activities i).ops fuel (sorts i)).Keeps
      (RootValid origin) :=
    Config.Keeps.start hOrigin fun i => (activities i).preserves hKeyed fuel (sorts i)
  exact (exec_invariant hRun hStart).store.queue

namespace Contest

/-- Both judges ask for teams; the first also submits a score meanwhile. -/
def scoredMeanwhile : Fin 3 → Activity
  | 0 => .call (.assignTeams judgeA)
  | 1 => .call (.assignTeams judgeB)
  | 2 => .setScores 1 judgeA ⟨3, 3, 3, 3, ""⟩

/-- The two calls read the same root: the second write overwrites the first, and
what remains is still valid. -/
theorem judgingQueue_valid_overlapping :
    ∃ c, exec (Config.start threeTeams fun i => (scoredMeanwhile i).ops 5 .stable)
        [0, 1, 2, 0, 1] = some c ∧ QueueValid threeTeams c.store.judgingQueue := by
  obtain ⟨c, hc⟩ : ∃ c, exec (Config.start threeTeams fun i => (scoredMeanwhile i).ops 5 .stable)
      [0, 1, 2, 0, 1] = some c := Option.isSome_iff_exists.mp (by decide)
  exact ⟨c, hc, judgingQueue_valid 5 (fun _ => .stable) _ _ threeTeams_keyed rfl _ c hc⟩

end Contest

end CICJudging
