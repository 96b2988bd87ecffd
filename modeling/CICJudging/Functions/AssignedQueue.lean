import CICJudging.Functions.FillLoop

/-! `processAssignedQueue` and `filterAssignedQueue`: from a root snapshot to
the value that `set` writes to the whole `judgingQueue` node. -/
namespace CICJudging

/-- `judge.affinityGroup === "None" ? true : team.affinityGroup === judge.affinityGroup` -/
def isPreferredTeam (judge : Judge) (team : Team) : Bool :=
  if judge.affinityGroup = some "None" then true
  else decide (team.affinityGroup = judge.affinityGroup)

def isScored (root : Root) (judgeId : JudgeId) (teamID : String) : Bool :=
  decide (judgeId ∈ root.scores teamID)

def preferredTeams (root : Root) (judgeId : JudgeId) (judge : Judge) : List Team :=
  (root.teams.filter fun entry =>
    isPreferredTeam judge entry.2 && !isScored root judgeId entry.1).map Prod.snd

def filteredTeams (root : Root) (judgeId : JudgeId) (judge : Judge) : List Team :=
  (root.teams.filter fun entry =>
    (root.judgingQueue.judgeAssigned entry.1).isNone &&
      (isPreferredTeam judge entry.2 && !isScored root judgeId entry.1)).map Prod.snd

/-- Why a call writes nothing: an exception, or a loop still running after the
number of iterations allowed. -/
inductive Halt where
  | typeError
  | outOfFuel
  deriving DecidableEq

/-- The two lists that the loop over `teams` builds. Reading `root.judges` of a
root without judges throws, and so does `judge.affinityGroup` of an
unregistered judge once there is a team to look at. -/
def teamLists (root : Root) (judgeId : JudgeId) : Except Halt (List Team × List Team) :=
  match root.judges.lookup judgeId with
  | some judge => .ok (filteredTeams root judgeId judge, preferredTeams root judgeId judge)
  | none => if root.judges = [] ∨ root.teams ≠ [] then .error .typeError else .ok ([], [])

/-- The `{ teams: … }` object returned, and the argument of `set` if it is called. -/
structure Response where
  teams : List Int
  set : Option JudgingQueue

def fillOrHalt (candidates : List Team) (judgeId : JudgeId) (teamsToAdd : Int) (fuel : Nat)
    (s : FillState) : Except Halt FillState :=
  match fill candidates judgeId teamsToAdd fuel s with
  | some t => .ok t
  | none => .error .outOfFuel

/-- The variables of the loops as `processAssignedQueue` initialises them. -/
def FillState.start (root : Root) (judgeId : JudgeId) : FillState where
  i := 0
  judgeAssignedTeams := root.judgingQueue.queues judgeId
  assignedTeams := root.judgingQueue.judgeAssigned
  teamsAdded := 0

def teamsToAdd (root : Root) (judgeId : JudgeId) : Int :=
  3 - (root.judgingQueue.queues judgeId).length

def processAssignedQueue (fuel : Nat) (sorts : SortCalls) (snapshot : Option Root)
    (judgeId : JudgeId) : Except Halt Response :=
  match snapshot with
  | none => .ok { teams := [], set := none }
  | some root => do
    let judgingQueue := root.judgingQueue
    let (filtered, preferred) ← teamLists root judgeId
    let filtered := sorts.filteredTeams.sort filtered
    let preferred := sorts.preferredTeams.sort preferred
    let toAdd := teamsToAdd root judgeId
    let afterFiltered ← fillOrHalt filtered judgeId toAdd fuel (FillState.start root judgeId)
    let afterPreferred ← fillOrHalt preferred judgeId toAdd fuel { afterFiltered with i := 0 }
    return {
      teams := afterPreferred.judgeAssignedTeams
      set := some {
        queues := Function.update judgingQueue.queues judgeId afterPreferred.judgeAssignedTeams
        judgeAssigned := afterPreferred.assignedTeams } }

/-- The claim of the team is deleted whoever holds it; the team leaves only the
queue of the judge named in the call. -/
def JudgingQueue.remove (queue : JudgingQueue) (judgeId : JudgeId) (teamId : Int) :
    JudgingQueue where
  queues := Function.update queue.queues judgeId
    ((queue.queues judgeId).filter fun filterTeamId => filterTeamId != teamId)
  judgeAssigned := Function.update queue.judgeAssigned (teamKey teamId) none

def filterAssignedQueue (snapshot : Option Root) (judgeId : JudgeId) (teamId : Int) :
    Option JudgingQueue :=
  snapshot.map fun root => root.judgingQueue.remove judgeId teamId

/-- The queue of one judge extended by ids that this judge claims. -/
def JudgingQueue.append (queue : JudgingQueue) (judgeId : JudgeId) (ids : List Int) :
    JudgingQueue where
  queues := Function.update queue.queues judgeId (queue.queues judgeId ++ ids)
  judgeAssigned := fun teamID =>
    if teamID ∈ ids.map teamKey then some judgeId else queue.judgeAssigned teamID

@[simp] theorem JudgingQueue.append_queues_self (queue : JudgingQueue) (judgeId : JudgeId)
    (ids : List Int) :
    (queue.append judgeId ids).queues judgeId = queue.queues judgeId ++ ids := by
  simp [append]

theorem JudgingQueue.append_queues_of_ne (queue : JudgingQueue) {judgeId k : JudgeId}
    (hne : k ≠ judgeId) (ids : List Int) :
    (queue.append judgeId ids).queues k = queue.queues k := by
  simp [append, hne]

theorem JudgingQueue.append_judgeAssigned (queue : JudgingQueue) (judgeId : JudgeId)
    (ids : List Int) (teamID : String) :
    (queue.append judgeId ids).judgeAssigned teamID =
      if teamID ∈ ids.map teamKey then some judgeId else queue.judgeAssigned teamID := rfl

theorem JudgingQueue.remove_judgeAssigned (queue : JudgingQueue) (judgeId : JudgeId)
    (teamId : Int) (teamID : String) :
    (queue.remove judgeId teamId).judgeAssigned teamID =
      if teamID = teamKey teamId then none else queue.judgeAssigned teamID := by
  simp [remove, Function.update_apply]

@[simp] theorem JudgingQueue.remove_queues_self (queue : JudgingQueue) (judgeId : JudgeId)
    (teamId : Int) :
    (queue.remove judgeId teamId).queues judgeId = (queue.queues judgeId).filter (· != teamId) := by
  simp [remove]

theorem JudgingQueue.remove_queues_of_ne (queue : JudgingQueue) {judgeId k : JudgeId}
    (hne : k ≠ judgeId) (teamId : Int) :
    (queue.remove judgeId teamId).queues k = queue.queues k := by
  simp [remove, hne]

theorem JudgingQueue.mem_append_queues {queue : JudgingQueue} {judgeId k : JudgeId}
    {ids : List Int} {id : Int} :
    id ∈ (queue.append judgeId ids).queues k ↔ id ∈ queue.queues k ∨ (k = judgeId ∧ id ∈ ids) := by
  by_cases hk : k = judgeId
  · subst hk
    simp
  · simp [queue.append_queues_of_ne hk, hk]

theorem JudgingQueue.mem_remove_queues {queue : JudgingQueue} {judgeId k : JudgeId}
    {teamId id : Int} :
    id ∈ (queue.remove judgeId teamId).queues k ↔
      id ∈ queue.queues k ∧ (k = judgeId → id ≠ teamId) := by
  by_cases hk : k = judgeId
  · subst hk
    simp [List.mem_filter]
  · simp [queue.remove_queues_of_ne hk, hk]

/-- No judge's queue gains a team by a removal. -/
theorem JudgingQueue.remove_queues_sublist (queue : JudgingQueue) (judgeId k : JudgeId)
    (teamId : Int) : ((queue.remove judgeId teamId).queues k).Sublist (queue.queues k) := by
  by_cases hk : k = judgeId
  · subst hk
    rw [remove_queues_self]
    exact List.filter_sublist
  · rw [queue.remove_queues_of_ne hk]

/-- The number of teams that the judge's queue has room for. -/
def openSlots (root : Root) (judgeId : JudgeId) : Nat :=
  3 - (root.judgingQueue.queues judgeId).length

/-- Both lists in the order in which the two loops go through them. -/
def scanOrder (sorts : SortCalls) (root : Root) (judgeId : JudgeId) : List Team :=
  match teamLists root judgeId with
  | .ok (filtered, preferred) =>
      sorts.filteredTeams.sort filtered ++ sorts.preferredTeams.sort preferred
  | .error _ => []

/-- The records that a returning call has taken: as many of the scan as the
queue has room for. -/
def scanWindow (sorts : SortCalls) (root : Root) (judgeId : JudgeId) : List Team :=
  (scanOrder sorts root judgeId).take (openSlots root judgeId)

/-- The call returns with some bound on its loops. -/
def Returns (sorts : SortCalls) (root : Root) (judgeId : JudgeId) (response : Response) : Prop :=
  ∃ fuel, processAssignedQueue fuel sorts (some root) judgeId = .ok response

private theorem except_bind_eq_ok {ε α β : Type} {x : Except ε α} {f : α → Except ε β} {b : β} :
    (x >>= f) = .ok b ↔ ∃ a, x = .ok a ∧ f a = .ok b := by
  cases x <;> simp [bind, Except.bind]

theorem fillOrHalt_eq_ok {candidates : List Team} {judgeId : JudgeId} {teamsToAdd : Int}
    {fuel : Nat} {s t : FillState} :
    fillOrHalt candidates judgeId teamsToAdd fuel s = .ok t ↔
      fill candidates judgeId teamsToAdd fuel s = some t := by
  unfold fillOrHalt
  split <;> simp_all

theorem processAssignedQueue_eq_ok {fuel : Nat} {sorts : SortCalls} {root : Root}
    {judgeId : JudgeId} {response : Response} :
    processAssignedQueue fuel sorts (some root) judgeId = .ok response ↔
      ∃ lists s t, teamLists root judgeId = .ok lists ∧
        fill (sorts.filteredTeams.sort lists.1) judgeId (teamsToAdd root judgeId) fuel
          (FillState.start root judgeId) = some s ∧
        fill (sorts.preferredTeams.sort lists.2) judgeId (teamsToAdd root judgeId) fuel
          { s with i := 0 } = some t ∧
        response = { teams := t.judgeAssignedTeams,
                     set := some ⟨Function.update root.judgingQueue.queues judgeId
                       t.judgeAssignedTeams, t.assignedTeams⟩ } := by
  simp only [processAssignedQueue, ← fillOrHalt_eq_ok]
  constructor
  · intro h
    obtain ⟨lists, hLists, h⟩ := except_bind_eq_ok.mp h
    obtain ⟨s, hs, h⟩ := except_bind_eq_ok.mp h
    obtain ⟨t, ht, h⟩ := except_bind_eq_ok.mp h
    exact ⟨lists, s, t, hLists, hs, ht, (Except.ok.inj h).symm⟩
  · rintro ⟨lists, s, t, hLists, hs, ht, rfl⟩
    refine except_bind_eq_ok.mpr ⟨lists, hLists, ?_⟩
    refine except_bind_eq_ok.mpr ⟨s, hs, ?_⟩
    exact except_bind_eq_ok.mpr ⟨t, ht, rfl⟩

/-- The state after both loops, written back as the node. -/
theorem node_of_pushAll (root : Root) (judgeId : JudgeId) (first second : List Int) :
    let t := FillState.pushAll judgeId
      { (FillState.start root judgeId).pushAll judgeId first with i := 0 } second
    ({ teams := t.judgeAssignedTeams,
       set := some ⟨Function.update root.judgingQueue.queues judgeId t.judgeAssignedTeams,
         t.assignedTeams⟩ } : Response) =
      { teams := root.judgingQueue.queues judgeId ++ (first ++ second),
        set := some (root.judgingQueue.append judgeId (first ++ second)) } := by
  simp only [FillState.pushAll_judgeAssignedTeams, JudgingQueue.append, FillState.start,
    List.append_assoc, Response.mk.injEq, Option.some.injEq, JudgingQueue.mk.injEq, true_and]
  funext teamID
  simp only [FillState.pushAll_assignedTeams, List.map_append, List.mem_append]
  by_cases hSecond : teamID ∈ second.map teamKey <;> simp [hSecond]

private theorem second_room {root : Root} {judgeId : JudgeId} {filtered : List Team}
    {first : List Int}
    (hFirst : (filtered.take (openSlots root judgeId)).map Team.teamId = first.map some) :
    (teamsToAdd root judgeId - first.length).toNat = openSlots root judgeId - filtered.length := by
  have hLength : min (openSlots root judgeId) filtered.length = first.length := by
    simpa using congrArg List.length hFirst
  simp only [openSlots, teamsToAdd] at hLength ⊢
  omega

private theorem first_window (candidates : List Team) (root : Root) (judgeId : JudgeId) :
    (FillState.start root judgeId).window candidates (teamsToAdd root judgeId) =
      candidates.take (openSlots root judgeId) := by
  have hRoom : (teamsToAdd root judgeId - 0).toNat = openSlots root judgeId := by
    simp only [teamsToAdd, openSlots]
    omega
  simp only [FillState.window, FillState.start, hRoom, List.drop_zero]

private theorem second_window {root : Root} {judgeId : JudgeId} {filtered : List Team}
    {first : List Int} (candidates : List Team)
    (hFirst : (filtered.take (openSlots root judgeId)).map Team.teamId = first.map some) :
    FillState.window candidates (teamsToAdd root judgeId)
        { (FillState.start root judgeId).pushAll judgeId first with i := 0 } =
      candidates.take (openSlots root judgeId - filtered.length) := by
  simp only [FillState.window, FillState.pushAll_teamsAdded, List.drop_zero]
  simp only [FillState.start, zero_add, second_room hFirst]

theorem scanOrder_of_lists {sorts : SortCalls} {root : Root} {judgeId : JudgeId}
    {lists : List Team × List Team} (hLists : teamLists root judgeId = .ok lists) :
    scanOrder sorts root judgeId =
      sorts.filteredTeams.sort lists.1 ++ sorts.preferredTeams.sort lists.2 := by
  simp [scanOrder, hLists]

/-- One statement for both loops: the call returns exactly when every record of
the window has an id that is new, and then it appends these ids and claims
their teams. Nothing else of `judgingQueue` changes. -/
theorem returns_iff {sorts : SortCalls} {root : Root} {judgeId : JudgeId} {response : Response} :
    Returns sorts root judgeId response ↔
      ∃ lists ids, teamLists root judgeId = .ok lists ∧
        (scanWindow sorts root judgeId).map Team.teamId = ids.map some ∧
        Fresh (root.judgingQueue.queues judgeId) ids ∧
        response = { teams := root.judgingQueue.queues judgeId ++ ids,
                     set := some (root.judgingQueue.append judgeId ids) } := by
  simp only [Returns, processAssignedQueue_eq_ok]
  constructor
  · rintro ⟨fuel, lists, s, t, hLists, hs, ht, rfl⟩
    obtain ⟨first, hFirst, hFresh, rfl⟩ := fill_eq_some hs
    rw [first_window] at hFirst
    obtain ⟨second, hSecond, hFresh', rfl⟩ := fill_eq_some ht
    rw [second_window _ hFirst] at hSecond
    simp only [FillState.pushAll_judgeAssignedTeams] at hFresh'
    refine ⟨lists, first ++ second, hLists, ?_, fresh_append.mpr ⟨hFresh, hFresh'⟩,
      node_of_pushAll root judgeId first second⟩
    rw [scanWindow, scanOrder_of_lists hLists, List.take_append, List.map_append, hFirst, hSecond,
      List.map_append]
  · rintro ⟨lists, ids, hLists, hIds, hFresh, rfl⟩
    rw [scanWindow, scanOrder_of_lists hLists, List.take_append, List.map_append] at hIds
    obtain ⟨first, second, rfl, hFirst, hSecond⟩ := List.map_eq_append_iff.mp hIds.symm
    obtain ⟨hFreshFirst, hFreshSecond⟩ := fresh_append.mp hFresh
    refine ⟨first.length + second.length + 1, lists, _, _, hLists,
      fill_of_fresh (by omega) (by rw [first_window, hFirst]) hFreshFirst,
      fill_of_fresh (by omega) (by rw [second_window _ hFirst.symm, hSecond]) ?_,
      (node_of_pushAll root judgeId first second).symm⟩
    simp only [FillState.pushAll_judgeAssignedTeams]
    exact hFreshSecond

/-- A record that the judge may be given at all. -/
structure Eligible (root : Root) (judgeId : JudgeId) (entry : String × Team) : Prop where
  mem : entry ∈ root.teams
  preferred : ∃ judge, root.judges.lookup judgeId = some judge ∧ isPreferredTeam judge entry.2
  unscored : judgeId ∉ root.scores entry.1

/-- The judge may hold the team: it exists and belongs to the judge's group. -/
def Matches (root : Root) (judgeId : JudgeId) (teamId : Int) : Prop :=
  ∃ judge team, root.judges.lookup judgeId = some judge ∧
    (teamKey teamId, team) ∈ root.teams ∧ isPreferredTeam judge team = true

/-- A record under its own key is eligible as long as the judge has not scored it. -/
theorem eligible_iff_of_keyed {root : Root} (hKeyed : root.Keyed) {judgeId : JudgeId}
    {teamId : Int} :
    (∃ entry, Eligible root judgeId entry ∧ entry.2.teamId = some teamId) ↔
      Matches root judgeId teamId ∧ judgeId ∉ root.scores (teamKey teamId) := by
  constructor
  · rintro ⟨⟨teamID, team⟩, ⟨hMem, ⟨judge, hJudge, hPreferred⟩, hUnscored⟩, hId⟩
    obtain ⟨own, hOwn, hKey⟩ := hKeyed _ hMem
    obtain rfl := Option.some.inj (hId.symm.trans hOwn)
    obtain rfl : teamID = teamKey teamId := hKey
    exact ⟨⟨judge, team, hJudge, hMem, hPreferred⟩, hUnscored⟩
  · rintro ⟨⟨judge, team, hJudge, hMem, hPreferred⟩, hUnscored⟩
    obtain ⟨own, hOwn, hKey⟩ := hKeyed _ hMem
    obtain rfl := teamKey_injective hKey
    exact ⟨_, ⟨hMem, ⟨judge, hJudge, hPreferred⟩, hUnscored⟩, hOwn⟩

theorem mem_preferredTeams {root : Root} {judgeId : JudgeId} {judge : Judge} {team : Team}
    (hJudge : root.judges.lookup judgeId = some judge) :
    team ∈ preferredTeams root judgeId judge ↔
      ∃ teamID, Eligible root judgeId (teamID, team) := by
  simp only [preferredTeams, List.mem_map, List.mem_filter, Bool.and_eq_true, Bool.not_eq_true',
    isScored, decide_eq_false_iff_not]
  constructor
  · rintro ⟨⟨teamID, _⟩, ⟨hMem, hPreferred, hScored⟩, rfl⟩
    exact ⟨teamID, hMem, ⟨judge, hJudge, hPreferred⟩, hScored⟩
  · rintro ⟨teamID, hMem, ⟨other, hOther, hPreferred⟩, hScored⟩
    obtain rfl := Option.some.inj (hJudge.symm.trans hOther)
    exact ⟨(teamID, team), ⟨hMem, hPreferred, hScored⟩, rfl⟩

theorem mem_filteredTeams {root : Root} {judgeId : JudgeId} {judge : Judge} {team : Team}
    (hJudge : root.judges.lookup judgeId = some judge) :
    team ∈ filteredTeams root judgeId judge ↔
      ∃ teamID, Eligible root judgeId (teamID, team) ∧
        root.judgingQueue.judgeAssigned teamID = none := by
  simp only [filteredTeams, List.mem_map, List.mem_filter, Bool.and_eq_true, Bool.not_eq_true',
    isScored, decide_eq_false_iff_not, Option.isNone_iff_eq_none]
  constructor
  · rintro ⟨⟨teamID, _⟩, ⟨hMem, hFree, hPreferred, hScored⟩, rfl⟩
    exact ⟨teamID, ⟨hMem, ⟨judge, hJudge, hPreferred⟩, hScored⟩, hFree⟩
  · rintro ⟨teamID, ⟨hMem, ⟨other, hOther, hPreferred⟩, hScored⟩, hFree⟩
    obtain rfl := Option.some.inj (hJudge.symm.trans hOther)
    exact ⟨(teamID, team), ⟨hMem, hFree, hPreferred, hScored⟩, rfl⟩

theorem teamLists_of_registered {root : Root} {judgeId : JudgeId} {judge : Judge}
    (hJudge : root.judges.lookup judgeId = some judge) :
    teamLists root judgeId =
      .ok (filteredTeams root judgeId judge, preferredTeams root judgeId judge) := by
  simp [teamLists, hJudge]

/-- The unassigned teams that the sort puts where the queue has room. -/
def unassignedWindow (sorts : SortCalls) (root : Root) (judgeId : JudgeId) (judge : Judge) :
    List Team :=
  (sorts.filteredTeams.sort (filteredTeams root judgeId judge)).take (openSlots root judgeId)

theorem scanWindow_of_registered {sorts : SortCalls} {root : Root} {judgeId : JudgeId}
    {judge : Judge} (hJudge : root.judges.lookup judgeId = some judge) :
    scanWindow sorts root judgeId =
      unassignedWindow sorts root judgeId judge ++
        (sorts.preferredTeams.sort (preferredTeams root judgeId judge)).take
          (openSlots root judgeId - (filteredTeams root judgeId judge).length) := by
  rw [scanWindow, scanOrder_of_lists (teamLists_of_registered hJudge), List.take_append,
    (sorts.filteredTeams.perm _).length_eq]
  rfl

/-- The judge does not hold the team of this record. -/
def isNew (root : Root) (judgeId : JudgeId) (team : Team) : Bool :=
  decide (∀ id ∈ team.teamId, id ∉ root.judgingQueue.queues judgeId)

/-- The records scanned, by either loop, are the eligible ones. -/
theorem mem_scanOrder {sorts : SortCalls} {root : Root} {judgeId : JudgeId} {team : Team} :
    team ∈ scanOrder sorts root judgeId ↔ ∃ teamID, Eligible root judgeId (teamID, team) := by
  cases hJudge : root.judges.lookup judgeId with
  | some judge =>
      rw [scanOrder_of_lists (teamLists_of_registered hJudge), List.mem_append,
        (sorts.filteredTeams.perm _).mem_iff, (sorts.preferredTeams.perm _).mem_iff,
        mem_filteredTeams hJudge, mem_preferredTeams hJudge]
      constructor
      · rintro (⟨teamID, hEligible, _⟩ | hPreferred)
        · exact ⟨teamID, hEligible⟩
        · exact hPreferred
      · exact Or.inr
  | none =>
      constructor
      · intro hMem
        have hEmpty : ∀ s : ArraySort, s.sort [] = [] := fun s => (s.perm []).eq_nil
        unfold scanOrder teamLists at hMem
        rw [hJudge] at hMem
        dsimp only at hMem
        split_ifs at hMem <;> simp [hEmpty] at hMem
      · rintro ⟨_, _, ⟨_, hSome, _⟩, _⟩
        rw [hJudge] at hSome
        cases hSome

theorem mem_ids_of_window {window : List Team} {ids : List Int} {id : Int}
    (hIds : window.map Team.teamId = ids.map some) :
    id ∈ ids ↔ ∃ team ∈ window, team.teamId = some id := by
  rw [← List.mem_map, hIds]
  simp

/-- Everything a returning call can do, without the order of its choices: it
appends ids of eligible records that are new to the queue, up to three. -/
structure Refill (root : Root) (judgeId : JudgeId) (ids : List Int) : Prop where
  fresh : Fresh (root.judgingQueue.queues judgeId) ids
  length_le : ids.length ≤ openSlots root judgeId
  eligible : ∀ id ∈ ids, ∃ teamID team,
    team.teamId = some id ∧ Eligible root judgeId (teamID, team)

theorem Returns.refill {sorts : SortCalls} {root : Root} {judgeId : JudgeId} {response : Response}
    (h : Returns sorts root judgeId response) :
    ∃ ids, (scanWindow sorts root judgeId).map Team.teamId = ids.map some ∧
      Refill root judgeId ids ∧
      response = { teams := root.judgingQueue.queues judgeId ++ ids,
                   set := some (root.judgingQueue.append judgeId ids) } := by
  obtain ⟨lists, ids, _, hIds, hFresh, hResponse⟩ := returns_iff.mp h
  refine ⟨ids, hIds, ⟨hFresh, ?_, fun id hid => ?_⟩, hResponse⟩
  · have hLength := congrArg List.length hIds
    rw [List.length_map, List.length_map] at hLength
    rw [← hLength]
    exact List.length_take_le ..
  · obtain ⟨team, hTeam, hId⟩ := (mem_ids_of_window hIds).mp hid
    obtain ⟨teamID, hEligible⟩ := mem_scanOrder.mp (List.mem_of_mem_take hTeam)
    exact ⟨teamID, team, hId, hEligible⟩

end CICJudging
