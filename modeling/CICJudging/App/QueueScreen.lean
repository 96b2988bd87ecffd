import CICJudging.Functions.Coverage
import CICJudging.App.TeamLists

/-! The contest and the team list of one judge together. Calls of any judge change
the database; the observer of the judge's queue lags behind and may miss values,
and the fetches that a value starts complete in any order. -/
namespace CICJudging

open Transition Allotment

/-- `snapshots` are the values of the judge's queue that the observer has still to
receive, oldest first. -/
structure QueueScreen where
  rounds : Rounds
  snapshots : List (List Int)
  screen : ListScreen

/-- `viewDidLoad`: the observer will first be sent the queue as it is. -/
def QueueScreen.start (judgeId : JudgeId) (rounds : Rounds) : QueueScreen :=
  ⟨rounds, [rounds.root.judgingQueue.queues judgeId], .initial .teamListVC⟩

/-- The snapshot of a write, if it has changed the value. -/
def changedTo (before after : List Int) : List (List Int) := if after = before then [] else [after]

/-- `coalesce` is a snapshot that a newer one overtakes on its way. -/
inductive QueueScreenEvent where
  | round (fuel : Nat) (event : QueueEvent)
  | coalesce
  | deliver
  | fetched (teamId : Int) (decoded : Option TeamData)
  | search (searchText : String)

section Screen

variable (inRange : String → String → Bool) (judgeId : JudgeId)

/-- After a call. A submission writes the queue twice, before its refill and after it. -/
def QueueScreen.withRounds (s : QueueScreen) (refilled : Root) (rounds : Rounds) : QueueScreen :=
  let before := s.rounds.root.judgingQueue.queues judgeId
  let between := refilled.judgingQueue.queues judgeId
  let after := rounds.root.judgingQueue.queues judgeId
  { s with rounds, snapshots := s.snapshots ++ changedTo before between ++ changedTo between after }

/-- The oldest snapshot; an empty queue is a node that does not exist. -/
def QueueScreen.deliver (s : QueueScreen) : Option QueueScreen :=
  match s.snapshots with
  | [] => none
  | teamIds :: snapshots =>
      (nextList inRange .teamListVC s.screen (.snapshot teamIds)).map fun screen =>
        { s with snapshots, screen }

def nextQueueScreen (s : QueueScreen) : QueueScreenEvent → Option QueueScreen
  | .round fuel event =>
      (nextRound s.rounds (fuel, event)).map
        (s.withRounds judgeId (event.refilled s.rounds.root))
  | .coalesce =>
      match s.snapshots with
      | _ :: second :: snapshots => some { s with snapshots := second :: snapshots }
      | _ => none
  | .deliver => s.deliver inRange
  | .fetched teamId decoded =>
      (nextList inRange .teamListVC s.screen (.fetched teamId decoded)).map fun screen =>
        { s with screen }
  | .search searchText =>
      (nextList inRange .teamListVC s.screen (.search searchText)).map fun screen => { s with screen }

/-- The four kinds of steps. -/
theorem nextQueueScreen_cases {s after : QueueScreen} {event : QueueScreenEvent}
    (h : nextQueueScreen inRange judgeId s event = some after) :
    (∃ fuel call rounds, event = .round fuel call ∧ nextRound s.rounds (fuel, call) = some rounds ∧
      after = s.withRounds judgeId (call.refilled s.rounds.root) rounds) ∨
    (∃ first second snapshots, event = .coalesce ∧ s.snapshots = first :: second :: snapshots ∧
      after = { s with snapshots := second :: snapshots }) ∨
    (∃ teamIds snapshots, event = .deliver ∧ s.snapshots = teamIds :: snapshots ∧
      after = { s with snapshots, screen := clearAndFetch s.screen teamIds }) ∨
    (∃ teamId decoded, event = .fetched teamId decoded ∧ teamId ∈ s.screen.outstanding ∧
      after = { s with screen := fetchedTeam .teamListVC s.screen teamId decoded }) ∨
    (∃ searchText, event = .search searchText ∧
      after = { s with screen := textDidChange inRange .teamListVC s.screen searchText }) := by
  cases event with
  | round fuel call =>
      simp only [nextQueueScreen, Option.map_eq_some_iff] at h
      obtain ⟨rounds, hNext, rfl⟩ := h
      exact Or.inl ⟨fuel, call, rounds, rfl, hNext, rfl⟩
  | coalesce =>
      simp only [nextQueueScreen] at h
      split at h
      · next first second snapshots hSnapshots =>
          cases h
          exact Or.inr (Or.inl ⟨first, second, snapshots, rfl, hSnapshots, rfl⟩)
      · cases h
  | deliver =>
      simp only [nextQueueScreen, QueueScreen.deliver] at h
      split at h
      · cases h
      · next teamIds snapshots hSnapshots =>
          obtain ⟨screen, hNext, rfl⟩ := Option.map_eq_some_iff.mp h
          obtain rfl := nextList_snapshot hNext
          exact Or.inr (Or.inr (Or.inl ⟨teamIds, snapshots, rfl, hSnapshots, rfl⟩))
  | fetched teamId decoded =>
      obtain ⟨screen, hNext, rfl⟩ := Option.map_eq_some_iff.mp h
      simp only [nextList] at hNext
      split_ifs at hNext with hMem
      cases hNext
      exact Or.inr (Or.inr (Or.inr (Or.inl ⟨teamId, decoded, rfl, hMem, rfl⟩)))
  | search searchText =>
      cases h
      exact Or.inr (Or.inr (Or.inr (Or.inr ⟨searchText, rfl, rfl⟩)))

end Screen

/-- A fetch completes with a record that is stored under its own id, or fails. -/
def QueueScreenEvent.FetchesOwn : QueueScreenEvent → Prop
  | .fetched teamId decoded => ∀ team ∈ decoded, team.teamId = teamId
  | _ => True

section Run

variable {origin : Root} {inRange : String → String → Bool} {judgeId : JudgeId}

variable (origin judgeId) in
/-- The judge has been handed the team, which suits the judge. -/
def HandedTo (root : Root) (teamId : Int) : Prop :=
  Matches origin judgeId teamId ∧ root.allotment.Seen judgeId teamId

theorem HandedTo.mono {before after : Root} {teamId : Int} (h : HandedTo origin judgeId before teamId)
    (hSteps : Steps (Matches origin) 3 before.allotment after.allotment) :
    HandedTo origin judgeId after teamId := ⟨h.1, hSteps.seen h.2⟩

theorem RootValid.handedTo {root : Root} (h : RootValid origin root) {teamId : Int}
    (hMem : teamId ∈ root.judgingQueue.queues judgeId) : HandedTo origin judgeId root teamId :=
  ⟨h.queue.matching judgeId teamId hMem, Or.inl (List.mem_toFinset.mpr hMem)⟩

variable (origin judgeId) in
/-- Everything on its way to the list, or on it, has been handed to the judge. -/
structure ShowsHanded (s : QueueScreen) : Prop where
  rounds : RoundsValid origin s.rounds
  snapshots : ∀ teamIds ∈ s.snapshots, ∀ teamId ∈ teamIds,
    HandedTo origin judgeId s.rounds.root teamId
  outstanding : ∀ teamId ∈ s.screen.outstanding, HandedTo origin judgeId s.rounds.root teamId
  teams : ∀ team ∈ s.screen.teams, HandedTo origin judgeId s.rounds.root team.teamId
  filteredTeams : ∀ team ∈ s.screen.filteredTeams, HandedTo origin judgeId s.rounds.root team.teamId

theorem ShowsHanded.start (hEmpty : origin.judgingQueue = .empty) :
    ShowsHanded origin judgeId (.start judgeId (.start origin)) where
  rounds := .start hEmpty
  snapshots := by simp [QueueScreen.start, Rounds.start, hEmpty, JudgingQueue.empty]
  outstanding := by simp [QueueScreen.start, ListScreen.initial, reloadData]
  teams := by simp [QueueScreen.start, ListScreen.initial, reloadData]
  filteredTeams := by simp [QueueScreen.start, ListScreen.initial, reloadData]

theorem mem_changedTo {before after teamIds : List Int} (h : teamIds ∈ changedTo before after) :
    teamIds = after := by
  unfold changedTo at h
  split_ifs at h
  · cases h
  · exact List.mem_singleton.mp h

theorem ShowsHanded.round (hKeyed : origin.Keyed) {s : QueueScreen}
    (h : ShowsHanded origin judgeId s) {fuel : Nat} {call : QueueEvent} {rounds : Rounds}
    (hNext : nextRound s.rounds (fuel, call) = some rounds) :
    ShowsHanded origin judgeId (s.withRounds judgeId (call.refilled s.rounds.root) rounds) := by
  obtain ⟨hRefilled, hAfter⟩ := nextRound_valid hKeyed h.rounds.root hNext
  have hSteps := nextRound_steps hKeyed h.rounds.root hNext
  refine ⟨h.rounds.next hKeyed hNext, fun teamIds hSnapshot teamId hMem => ?_, fun teamId hMem => ?_,
    fun team hMem => ?_, fun team hMem => ?_⟩
  · rcases List.mem_append.mp hSnapshot with hEarlier | hFilled
    · rcases List.mem_append.mp hEarlier with hOld | hRemoved
      · exact (h.snapshots teamIds hOld teamId hMem).mono hSteps
      · -- What is left after the removal was there before.
        obtain rfl := mem_changedTo hRemoved
        refine HandedTo.mono (h.rounds.root.handedTo ?_) hSteps
        cases call with
        | assignTeams sorts own => exact hMem
        | submitScores sorts own removed scores autoId =>
            exact (JudgingQueue.mem_remove_queues.mp hMem).1
    · obtain rfl := mem_changedTo hFilled
      exact hAfter.handedTo hMem
  · exact (h.outstanding teamId hMem).mono hSteps
  · exact (h.teams team hMem).mono hSteps
  · exact (h.filteredTeams team hMem).mono hSteps

theorem ShowsHanded.next (hKeyed : origin.Keyed) {s after : QueueScreen} {event : QueueScreenEvent}
    (h : ShowsHanded origin judgeId s) (hEvent : event.FetchesOwn)
    (hNext : nextQueueScreen inRange judgeId s event = some after) :
    ShowsHanded origin judgeId after := by
  rcases nextQueueScreen_cases inRange judgeId hNext with ⟨fuel, call, rounds, _, hRound, rfl⟩ |
    ⟨first, second, snapshots, _, hSnapshots, rfl⟩ | ⟨teamIds, snapshots, _, hSnapshots, rfl⟩ |
    ⟨teamId, decoded, rfl, hMem, rfl⟩ | ⟨searchText, _, rfl⟩
  · exact h.round hKeyed hRound
  · refine ⟨h.rounds, fun teamIds hLater => ?_, h.outstanding, h.teams, h.filteredTeams⟩
    exact h.snapshots teamIds (hSnapshots ▸ List.mem_cons_of_mem first hLater)
  · refine ⟨h.rounds, fun other hLater => ?_, fun teamId hMem => ?_, nofun, nofun⟩
    · exact h.snapshots other (hSnapshots ▸ List.mem_cons_of_mem teamIds hLater)
    · rcases List.mem_append.mp hMem with hOld | hNew
      · exact h.outstanding teamId hOld
      · exact h.snapshots teamIds (hSnapshots ▸ List.mem_cons_self ..) teamId hNew
  · have hErase : ∀ other ∈ s.screen.outstanding.erase teamId,
        HandedTo origin judgeId s.rounds.root other :=
      fun other hOther => h.outstanding other (List.mem_of_mem_erase hOther)
    cases decoded with
    | none => exact ⟨h.rounds, h.snapshots, hErase, h.teams, h.filteredTeams⟩
    | some team =>
        have hTeam : HandedTo origin judgeId s.rounds.root team.teamId := by
          rw [show team.teamId = teamId from hEvent team rfl]
          exact h.outstanding teamId hMem
        refine ⟨h.rounds, h.snapshots, hErase, ?_, ?_⟩
        · exact List.forall_mem_append.mpr ⟨h.teams, List.forall_mem_singleton.mpr hTeam⟩
        · exact List.forall_mem_append.mpr ⟨h.filteredTeams, List.forall_mem_singleton.mpr hTeam⟩
  · refine ⟨h.rounds, h.snapshots, h.outstanding, h.teams, fun team hMem => ?_⟩
    simp only [textDidChange, reloadData, filterTeams] at hMem
    split_ifs at hMem
    · exact h.teams team hMem
    · exact h.teams team (List.mem_of_mem_filter hMem)

/-- Whatever calls, deliveries, fetches and searches come in which order, the list
shows only teams that suit the judge and that the judge holds or has scored. -/
theorem shown_teams_handed (hKeyed : origin.Keyed) (hEmpty : origin.judgingQueue = .empty)
    {events : List QueueScreenEvent} (hEvents : ∀ event ∈ events, event.FetchesOwn)
    {final : QueueScreen}
    (hRun : run (nextQueueScreen inRange judgeId) (.start judgeId (.start origin)) events =
      some final) :
    ∀ team ∈ final.screen.filteredTeams, Matches origin judgeId team.teamId ∧
      (team.teamId ∈ final.rounds.root.judgingQueue.queues judgeId ∨
        judgeId ∈ final.rounds.root.scores (teamKey team.teamId)) := by
  have hStart : ShowsHanded origin judgeId (.start judgeId (.start origin)) := .start hEmpty
  have hFinal : ShowsHanded origin judgeId final :=
    run_invariant_of_enabled (nextQueueScreen inRange judgeId)
      (fun _ _ _ h hEvent hNext => h.next hKeyed hEvent hNext) hRun hEvents hStart
  intro team hMem
  obtain ⟨hMatches, hSeen⟩ := hFinal.filteredTeams team hMem
  exact ⟨hMatches, hSeen.imp_left List.mem_toFinset.mp⟩

/-- Fetches complete with the record of their team, and none is outstanding when a
snapshot is delivered. -/
def FetchesInTime (record : Int → TeamData) (s : QueueScreen) : QueueScreenEvent → Prop
  | .fetched teamId decoded => decoded = some (record teamId)
  | .deliver => s.screen.outstanding = []
  | _ => True

instance (record : Int → TeamData) (s : QueueScreen) (event : QueueScreenEvent) :
    Decidable (FetchesInTime record s event) := by
  cases event <;> unfold FetchesInTime <;> infer_instance

variable (judgeId) in
/-- `shown` is the value delivered last; the newest value on its way is the queue. -/
def Follows (record : Int → TeamData) (s : QueueScreen) : Prop :=
  ∃ shown, (s.screen.teams ++ s.screen.outstanding.map record).Perm (shown.map record) ∧
    (shown :: s.snapshots).getLast? = some (s.rounds.root.judgingQueue.queues judgeId)

theorem getLast?_changedTo {values : List (List Int)} {before : List Int}
    (h : values.getLast? = some before) (after : List Int) :
    (values ++ changedTo before after).getLast? = some after := by
  unfold changedTo
  split_ifs with hSame
  · rw [List.append_nil, h, hSame]
  · simp

theorem Follows.next {record : Int → TeamData} {s after : QueueScreen} {event : QueueScreenEvent}
    (h : Follows judgeId record s) (hEvent : FetchesInTime record s event)
    (hNext : nextQueueScreen inRange judgeId s event = some after) :
    Follows judgeId record after := by
  obtain ⟨shown, hPerm, hLast⟩ := h
  rcases nextQueueScreen_cases inRange judgeId hNext with ⟨fuel, call, rounds, _, hRound, rfl⟩ |
    ⟨first, second, snapshots, _, hSnapshots, rfl⟩ | ⟨teamIds, snapshots, rfl, hSnapshots, rfl⟩ |
    ⟨teamId, decoded, rfl, hMem, rfl⟩ | ⟨searchText, _, rfl⟩
  · refine ⟨shown, hPerm, ?_⟩
    rw [QueueScreen.withRounds, ← List.cons_append, ← List.cons_append]
    exact getLast?_changedTo (getLast?_changedTo hLast _) _
  · refine ⟨shown, hPerm, ?_⟩
    rw [hSnapshots, List.getLast?_cons_cons, List.getLast?_cons_cons] at hLast
    rwa [List.getLast?_cons_cons]
  · refine ⟨teamIds, ?_, ?_⟩
    · have hNone : s.screen.outstanding = [] := hEvent
      simp [clearAndFetch, hNone]
    · rwa [hSnapshots, List.getLast?_cons_cons] at hLast
  · refine ⟨shown, ?_, hLast⟩
    have hList : nextList inRange .teamListVC s.screen (.fetched teamId decoded) =
        some (fetchedTeam .teamListVC s.screen teamId decoded) := if_pos hMem
    exact (nextList_perm hList hEvent).trans hPerm
  · exact ⟨shown, hPerm, hLast⟩

theorem Follows.start (record : Int → TeamData) (rounds : Rounds) :
    Follows judgeId record (.start judgeId rounds) :=
  ⟨[], List.Perm.refl _, rfl⟩

/-- Once every snapshot and every fetch has come, and no snapshot came too early,
the list is the judge's queue: at most three different teams, each of the judge's
group and not yet scored by the judge. -/
theorem settled_list_is_queue (hKeyed : origin.Keyed) (hEmpty : origin.judgingQueue = .empty)
    {record : Int → TeamData} {events : List QueueScreenEvent} {final : QueueScreen}
    (hRun : run (nextQueueScreen inRange judgeId) (.start judgeId (.start origin)) events =
      some final)
    (hInTime : Along (nextQueueScreen inRange judgeId) (FetchesInTime record)
      (.start judgeId (.start origin)) events)
    (hDelivered : final.snapshots = []) (hFetched : final.screen.outstanding = []) :
    ∃ queue, queue = final.rounds.root.judgingQueue.queues judgeId ∧
      final.screen.teams.Perm (queue.map record) ∧ queue.length ≤ 3 ∧ queue.Nodup ∧
      ∀ teamId ∈ queue, Matches origin judgeId teamId ∧
        judgeId ∉ final.rounds.root.scores (teamKey teamId) := by
  have hFollows : Follows judgeId record final :=
    run_invariant_along _ (fun _ _ _ h hEvent hNext => h.next hEvent hNext) hRun hInTime
      (Follows.start record _)
  have hStep : ∀ s event after, RoundsValid origin s.rounds →
      nextQueueScreen inRange judgeId s event = some after → RoundsValid origin after.rounds := by
    intro s event after h hNext
    rcases nextQueueScreen_cases inRange judgeId hNext with ⟨fuel, call, rounds, _, hRound, rfl⟩ |
      ⟨_, _, _, _, _, rfl⟩ | ⟨_, _, _, _, rfl⟩ | ⟨_, _, _, _, rfl⟩ | ⟨_, _, rfl⟩
    · exact h.next hKeyed hRound
    · exact h
    · exact h
    · exact h
    · exact h
  have hRounds : RoundsValid origin final.rounds :=
    run_invariant (nextQueueScreen inRange judgeId) hStep hRun (RoundsValid.start hEmpty)
  obtain ⟨shown, hPerm, hLast⟩ := hFollows
  rw [hDelivered] at hLast
  obtain rfl : shown = final.rounds.root.judgingQueue.queues judgeId := Option.some.inj hLast
  rw [hFetched, List.map_nil, List.append_nil] at hPerm
  refine ⟨_, rfl, hPerm, hRounds.root.queue.length_le judgeId, hRounds.root.queue.nodup judgeId,
    fun teamId hMem => ⟨hRounds.root.queue.matching judgeId teamId hMem, ?_⟩⟩
  have hSound := hRounds.steps.sound (allotment_sound hEmpty)
  exact hSound.notDone judgeId teamId (List.mem_toFinset.mpr hMem)

end Run

namespace Contest

/-- The judge opens the list and scores the first of the three teams. -/
def listOpened : List QueueScreenEvent :=
  [.deliver, .round 5 (.assignTeams .stable judgeA), .deliver, .fetched 2 (some (teamData 2)),
    .fetched 1 (some (teamData 1)), .fetched 3 (some (teamData 3)),
    .round 5 (.submitScores .stable judgeA 1 ⟨3, 3, 3, 3, ""⟩ "-M1"), .deliver,
    .fetched 2 (some (teamData 2)), .fetched 3 (some (teamData 3))]

private theorem listOpened_run :
    ∃ final ∈ run (nextQueueScreen inRange judgeA) (.start judgeA (.start threeTeams)) listOpened,
      final.snapshots = [] ∧ final.screen.outstanding = [] := by
  decide

/-- Team 1 has been scored and the list still shows it. -/
theorem listOpened_handed :
    ∃ final, run (nextQueueScreen inRange judgeA) (.start judgeA (.start threeTeams))
        (listOpened.take 7) = some final ∧
      ∀ team ∈ final.screen.filteredTeams, Matches threeTeams judgeA team.teamId ∧
        (team.teamId ∈ final.rounds.root.judgingQueue.queues judgeA ∨
          judgeA ∈ final.rounds.root.scores (teamKey team.teamId)) := by
  have hEvents : ∀ event ∈ listOpened.take 7, event.FetchesOwn := by
    simp [listOpened, QueueScreenEvent.FetchesOwn, teamData]
  obtain ⟨final, hRun, _⟩ : ∃ final ∈ run (nextQueueScreen inRange judgeA)
      (.start judgeA (.start threeTeams)) (listOpened.take 7), final.screen.outstanding = [] := by
    decide
  exact ⟨final, hRun, shown_teams_handed threeTeams_keyed rfl hEvents hRun⟩

theorem listOpened_settled :
    ∃ final, run (nextQueueScreen inRange judgeA) (.start judgeA (.start threeTeams)) listOpened =
        some final ∧
      ∃ queue, queue = final.rounds.root.judgingQueue.queues judgeA ∧
        final.screen.teams.Perm (queue.map teamData) ∧ queue.length ≤ 3 ∧ queue.Nodup ∧
        ∀ teamId ∈ queue, Matches threeTeams judgeA teamId ∧
          judgeA ∉ final.rounds.root.scores (teamKey teamId) := by
  obtain ⟨final, hRun, hDelivered, hFetched⟩ := listOpened_run
  have hInTime : Along (nextQueueScreen inRange judgeA) (FetchesInTime teamData)
      (.start judgeA (.start threeTeams)) listOpened := by
    decide
  exact ⟨final, hRun,
    settled_list_is_queue threeTeams_keyed rfl hRun hInTime hDelivered hFetched⟩

end Contest

end CICJudging
