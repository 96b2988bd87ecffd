import CICJudging.Library.GreedyScan
import CICJudging.Functions.FillTermination

/-! What the two loops are for: fill the judge's queue up to three teams from the
unassigned teams and then from all eligible ones, passing over those already in
the queue. The loops pass over nothing, so the reference says what a call that
returns has written, not that it returns. -/
namespace CICJudging

section Reference

variable (sorts : SortCalls) (root : Root) (judgeId : JudgeId) (judge : Judge)

/-- The ids of both sorted lists, one list after the other. -/
def scannedIds : List Int :=
  (sorts.filteredTeams.sort (filteredTeams root judgeId judge) ++
    sorts.preferredTeams.sort (preferredTeams root judgeId judge)).filterMap Team.teamId

/-- The teams that a scan with skipping adds to the judge's queue. -/
def referenceFill : List Int :=
  GreedyScan.scan 3 (root.judgingQueue.queues judgeId) (scannedIds sorts root judgeId judge)

/-- The node differs from the one read by these teams, added to one queue and
claimed for its judge. A team taken over from another claim comes after all
unassigned ones, and none is a team that the judge has scored. -/
structure FilledWith (ids : List Int) (queue : JudgingQueue) : Prop where
  own : queue.queues judgeId = root.judgingQueue.queues judgeId ++ ids
  others : ∀ k, k ≠ judgeId → queue.queues k = root.judgingQueue.queues k
  claims : ∀ teamID, queue.judgeAssigned teamID =
    if teamID ∈ ids.map teamKey then some judgeId else root.judgingQueue.judgeAssigned teamID
  takenOver : ∀ id ∈ ids, (root.judgingQueue.judgeAssigned (teamKey id)).isSome →
    ∀ entry, Eligible root judgeId entry → root.judgingQueue.judgeAssigned entry.1 = none →
      ∃ own ∈ entry.2.teamId, own ∈ queue.queues judgeId
  unscored : ∀ id ∈ ids, judgeId ∉ root.scores (teamKey id)

variable {sorts root judgeId judge}

/-- Every record of a keyed root carries an id, so as many ids are scanned as
records, in the same order. -/
theorem scannedIds_take (hKeyed : root.Keyed) (hJudge : root.judges.lookup judgeId = some judge)
    {ids : List Int} (hIds : (scanWindow sorts root judgeId).map Team.teamId = ids.map some) :
    (scannedIds sorts root judgeId judge).take (openSlots root judgeId) = ids := by
  have hOrder : scanOrder sorts root judgeId =
      sorts.filteredTeams.sort (filteredTeams root judgeId judge) ++
        sorts.preferredTeams.sort (preferredTeams root judgeId judge) :=
    scanOrder_of_lists (teamLists_of_registered hJudge)
  have hSome : (scanOrder sorts root judgeId).map Team.teamId =
      (scannedIds sorts root judgeId judge).map some := by
    rw [scannedIds, ← hOrder, List.map_filterMap_some_eq_filter_map_isSome, List.filter_eq_self.mpr]
    intro teamId hMem
    obtain ⟨team, hTeam, rfl⟩ := List.mem_map.mp hMem
    obtain ⟨teamID, hEligible⟩ := mem_scanOrder.mp hTeam
    obtain ⟨id, hId, _⟩ := hKeyed _ hEligible.mem
    exact Option.isSome_iff_exists.mpr ⟨id, hId⟩
  rw [scanWindow, List.map_take, hSome, ← List.map_take] at hIds
  exact List.map_injective_iff.mpr (Option.some_injective _) hIds

/-- A call that returns has met no team that it would have had to skip. -/
theorem referenceFill_eq (hKeyed : root.Keyed) (hJudge : root.judges.lookup judgeId = some judge)
    {ids : List Int} (hIds : (scanWindow sorts root judgeId).map Team.teamId = ids.map some)
    (hFresh : Fresh (root.judgingQueue.queues judgeId) ids) :
    referenceFill sorts root judgeId judge = ids := by
  have hTake := scannedIds_take hKeyed hJudge hIds
  rw [openSlots] at hTake
  rw [referenceFill, GreedyScan.scan_of_new, hTake]
  · rw [hTake]
    exact hFresh.1
  · rw [hTake]
    exact hFresh.2

/-- The loop over all eligible teams starts to add only after the other loop has
added every unassigned one. -/
theorem unassigned_taken_first (hKeyed : root.Keyed)
    (hJudge : root.judges.lookup judgeId = some judge) {ids : List Int}
    (hIds : (scanWindow sorts root judgeId).map Team.teamId = ids.map some) {id : Int}
    (hMem : id ∈ ids) (hClaimed : (root.judgingQueue.judgeAssigned (teamKey id)).isSome)
    {entry : String × Team} (hEligible : Eligible root judgeId entry)
    (hFree : root.judgingQueue.judgeAssigned entry.1 = none) : ∃ own ∈ entry.2.teamId, own ∈ ids := by
  obtain ⟨team, hTeam, hId⟩ := (mem_ids_of_window hIds).mp hMem
  rw [scanWindow_of_registered hJudge, List.mem_append] at hTeam
  rcases hTeam with hFirst | hSecond
  · have hUnassigned : team ∈ filteredTeams root judgeId judge := mem_unassignedWindow hFirst
    obtain ⟨teamID, hOwn, hNone⟩ := (mem_filteredTeams hJudge).mp hUnassigned
    obtain ⟨own, hOwnId, hKey⟩ := hKeyed _ hOwn.mem
    obtain rfl := Option.some.inj (hId.symm.trans hOwnId)
    obtain rfl : teamID = teamKey id := hKey
    rw [hNone] at hClaimed
    cases hClaimed
  · have hVisited : team ∈ eligibleWindow sorts root judgeId judge := hSecond
    obtain ⟨own, hOwn, _⟩ := hKeyed entry hEligible.mem
    refine ⟨own, hOwn, (mem_ids_of_window hIds).mpr ⟨entry.2, ?_, hOwn⟩⟩
    rw [scanWindow_of_registered hJudge, unassignedWindow_of_mem hVisited]
    refine List.mem_append_left _ ((sorts.filteredTeams.perm _).mem_iff.mpr ?_)
    exact (mem_filteredTeams hJudge).mpr ⟨entry.1, hEligible, hFree⟩

/-- Whenever the call returns, the node that it sets is the one read, filled with
what the scan with skipping takes. -/
theorem processAssignedQueue_fills (hKeyed : root.Keyed)
    (hJudge : root.judges.lookup judgeId = some judge) {response : Response}
    (hReturns : Returns sorts root judgeId response) :
    ∃ queue, response.set = some queue ∧
      FilledWith root judgeId (referenceFill sorts root judgeId judge) queue := by
  obtain ⟨ids, hIds, hRefill, rfl⟩ := hReturns.refill
  refine ⟨_, rfl, ?_⟩
  rw [referenceFill_eq hKeyed hJudge hIds hRefill.fresh]
  constructor
  case own => exact JudgingQueue.append_queues_self ..
  case others => exact fun k hne => JudgingQueue.append_queues_of_ne _ hne ids
  case claims => exact JudgingQueue.append_judgeAssigned _ judgeId ids
  case takenOver =>
    intro id hMem hClaimed entry hEligible hFree
    obtain ⟨own, hOwn, hTaken⟩ :=
      unassigned_taken_first hKeyed hJudge hIds hMem hClaimed hEligible hFree
    exact ⟨own, hOwn, JudgingQueue.mem_append_queues.mpr (Or.inr ⟨rfl, hTaken⟩)⟩
  case unscored =>
    intro id hMem
    obtain ⟨teamID, team, hId, hEligible⟩ := hRefill.eligible id hMem
    exact ((eligible_iff_of_keyed hKeyed).mp ⟨_, hEligible, hId⟩).2

end Reference

namespace Contest

/-- The first judge holds two of the three teams. -/
def twoHeld : Root := threeTeams.setJudgingQueue (JudgingQueue.empty.append judgeA [1, 2])

/-- The second judge is given the unassigned team and then the other two. -/
theorem twoHeld_filled :
    ∃ response queue, Returns .stable twoHeld judgeB response ∧ response.set = some queue ∧
      FilledWith twoHeld judgeB (referenceFill .stable twoHeld judgeB ⟨some "None"⟩) queue := by
  have hKeyed : twoHeld.Keyed := threeTeams_keyed
  have hReturns : Returns .stable twoHeld judgeB _ :=
    returns_iff.mpr ⟨_, [3, 1, 2], rfl, by decide, ⟨by decide, by decide⟩, rfl⟩
  obtain ⟨queue, hSet, hFilled⟩ := processAssignedQueue_fills hKeyed rfl hReturns
  exact ⟨_, queue, hReturns, hSet, hFilled⟩

end Contest

end CICJudging
