import CICJudging.Functions.Rounds

/-! What a contest comes to, one call after the other: no judge is handed a team
twice, none is left waiting by a refill that comes to an end, and once all queues
are empty every team has been scored by everyone it suits. -/
namespace CICJudging

open Transition Allotment

section Served

variable {origin : Root}

/-- A refill that writes leaves the queue full or every team of the judge's group
in the queue or scored. -/
theorem satisfied_append {root : Root} (hKeyed : root.Keyed) (hValid : RootValid origin root)
    {sorts : SortCalls} {judgeId : JudgeId} {ids : List Int}
    (hIds : (scanWindow sorts root judgeId).map Team.teamId = ids.map some)
    (hRefill : Refill root judgeId ids) :
    Satisfied (Matches origin) 3
      (root.setJudgingQueue (root.judgingQueue.append judgeId ids)).allotment judgeId := by
  have hHeld : (root.setJudgingQueue (root.judgingQueue.append judgeId ids)).allotment.held judgeId =
      (root.judgingQueue.queues judgeId ++ ids).toFinset := by
    simp [Root.allotment]
  have hOld := hValid.queue.length_le judgeId
  have hRoom := hRefill.length_le
  rw [openSlots] at hRoom
  by_cases hFull : ids.length = 3 - (root.judgingQueue.queues judgeId).length
  · refine Or.inl ?_
    have hNodup := hRefill.fresh.nodup_append (hValid.queue.nodup judgeId)
    rw [hHeld, List.toFinset_card_of_nodup hNodup, List.length_append]
    omega
  · -- The scan went through both lists to their ends.
    have hAll : scanWindow sorts root judgeId = scanOrder sorts root judgeId := by
      have hLength := congrArg List.length hIds
      rw [List.length_map, List.length_map, scanWindow, List.length_take, openSlots] at hLength
      refine List.take_of_length_le ?_
      rw [openSlots]
      omega
    refine Or.inr fun teamId hMatches => ?_
    by_cases hScored : judgeId ∈ root.scores (teamKey teamId)
    · exact Or.inr hScored
    · have hOwn := (Matches.congr hValid.judges hValid.teams).mpr hMatches
      obtain ⟨⟨teamID, team⟩, hEligible, hId⟩ := (eligible_iff_of_keyed hKeyed).mpr ⟨hOwn, hScored⟩
      have hTeam : team ∈ scanWindow sorts root judgeId :=
        hAll ▸ mem_scanOrder.mpr ⟨teamID, hEligible⟩
      have hMem : teamId ∈ ids := (mem_ids_of_window hIds).mpr ⟨team, hTeam, hId⟩
      refine Or.inl ?_
      rw [hHeld, List.mem_toFinset]
      exact List.mem_append_right _ hMem

/-- The calls and submissions of other judges change nothing for a judge. -/
theorem satisfied_refilled_of_ne (root : Root) {event : QueueEvent} {k : JudgeId}
    (hne : k ≠ event.judgeId) :
    Satisfied (Matches origin) 3 (event.refilled root).allotment k ↔
      Satisfied (Matches origin) 3 root.allotment k := by
  cases event with
  | assignTeams sorts judgeId => rfl
  | submitScores sorts judgeId teamId scores autoId =>
      rw [QueueEvent.refilled, allotment_removedRoot]
      exact satisfied_finish_of_ne hne teamId

variable (origin) in
/-- The contest so far: a valid database, an allotment step by step, and no judge
waiting whose last refill came to an end. -/
structure RoundsValid (s : Rounds) : Prop where
  root : RootValid origin s.root
  steps : Steps (Matches origin) 3 origin.allotment s.root.allotment
  served : ∀ judgeId, s.served judgeId = true → Satisfied (Matches origin) 3 s.root.allotment judgeId

theorem RoundsValid.start (hEmpty : origin.judgingQueue = .empty) :
    RoundsValid origin (.start origin) where
  root := ⟨rfl, rfl, hEmpty ▸ QueueValid.empty origin⟩
  steps := .refl
  served := fun judgeId hServed => by cases hServed

theorem RoundsValid.next (hKeyed : origin.Keyed) {s after : Rounds} {event : Nat × QueueEvent}
    (h : RoundsValid origin s) (hNext : nextRound s event = some after) :
    RoundsValid origin after := by
  obtain ⟨hRefilled, hAfter⟩ := nextRound_valid hKeyed h.root hNext
  refine ⟨hAfter, h.steps.trans (nextRound_steps hKeyed h.root hNext), fun k hServed => ?_⟩
  have hKeyed' : (event.2.refilled s.root).Keyed :=
    fun entry hMem => hKeyed entry (hRefilled.teams ▸ hMem)
  by_cases hk : k = event.2.judgeId
  · subst hk
    rcases nextRound_cases hNext with ⟨ids, hIds, hRefill, rfl⟩ | rfl
    · exact satisfied_append hKeyed' hRefilled hIds hRefill
    · simp at hServed
  · rcases nextRound_cases hNext with ⟨ids, _, _, rfl⟩ | rfl
    · simp only [ne_eq, hk, not_false_eq_true, Function.update_of_ne] at hServed
      rw [allotment_append, satisfied_give_of_ne hk, satisfied_refilled_of_ne s.root hk]
      exact h.served k hServed
    · simp only [ne_eq, hk, not_false_eq_true, Function.update_of_ne] at hServed
      exact (satisfied_refilled_of_ne s.root hk).mpr (h.served k hServed)

theorem run_roundsValid (hKeyed : origin.Keyed) (hEmpty : origin.judgingQueue = .empty)
    {events : List (Nat × QueueEvent)} {final : Rounds}
    (hRun : run nextRound (.start origin) events = some final) : RoundsValid origin final :=
  run_invariant nextRound (fun _ _ _ h hNext => h.next hKeyed hNext) hRun (.start hEmpty)

theorem allotment_sound (hEmpty : origin.judgingQueue = .empty) :
    Sound (Matches origin) 3 origin.allotment := by
  have hNone : ∀ judgeId, origin.allotment.held judgeId = ∅ := by
    simp [Root.allotment, hEmpty, JudgingQueue.empty]
  constructor
  · simp [hNone]
  · simp [hNone]
  · simp [hNone]

/-- No judge ever holds a team that the judge has scored. -/
theorem queued_unscored (hKeyed : origin.Keyed) (hEmpty : origin.judgingQueue = .empty)
    {events : List (Nat × QueueEvent)} {final : Rounds}
    (hRun : run nextRound (.start origin) events = some final) (judgeId : JudgeId) :
    ∀ teamId ∈ final.root.judgingQueue.queues judgeId,
      judgeId ∉ final.root.scores (teamKey teamId) := by
  have hValid := run_roundsValid hKeyed hEmpty hRun
  have hSound := hValid.steps.sound (allotment_sound hEmpty)
  intro teamId hMem
  exact hSound.notDone judgeId teamId (List.mem_toFinset.mpr hMem)

/-- A judge whose last refill came to an end has three teams, or every team of the
group in the queue or scored, whatever the other judges have done since. -/
theorem served_not_waiting (hKeyed : origin.Keyed) (hEmpty : origin.judgingQueue = .empty)
    {events : List (Nat × QueueEvent)} {final : Rounds}
    (hRun : run nextRound (.start origin) events = some final) {judgeId : JudgeId}
    (hServed : final.served judgeId = true) :
    (final.root.judgingQueue.queues judgeId).length = 3 ∨
      ∀ teamId, Matches origin judgeId teamId →
        teamId ∈ final.root.judgingQueue.queues judgeId ∨
          judgeId ∈ final.root.scores (teamKey teamId) := by
  have hValid := run_roundsValid hKeyed hEmpty hRun
  rcases hValid.served judgeId hServed with hFull | hAll
  · refine Or.inl ?_
    rwa [Root.allotment, List.toFinset_card_of_nodup (hValid.root.queue.nodup judgeId)] at hFull
  · exact Or.inr fun teamId hMatches => (hAll teamId hMatches).imp_left List.mem_toFinset.mp

/-- The teams that a round adds to the judge's queue. -/
def newTeams (judgeId : JudgeId) (s after : Rounds) : List Int :=
  (after.root.judgingQueue.queues judgeId).filter fun teamId =>
    decide (teamId ∉ s.root.judgingQueue.queues judgeId)

theorem mem_newTeams {judgeId : JudgeId} {s after : Rounds} {teamId : Int} :
    teamId ∈ newTeams judgeId s after ↔ teamId ∈ after.root.judgingQueue.queues judgeId ∧
      teamId ∉ s.root.judgingQueue.queues judgeId := by
  simp [newTeams]

/-- A team that the judge has scored is never added. -/
theorem newTeams_unseen (hKeyed : origin.Keyed) {s after : Rounds} {event : Nat × QueueEvent}
    (hSound : Sound (Matches origin) 3 s.root.allotment) (hValid : RootValid origin s.root)
    (hNext : nextRound s event = some after) (judgeId : JudgeId) :
    ∀ teamId ∈ newTeams judgeId s after, ¬s.root.allotment.Seen judgeId teamId := by
  intro teamId hMem
  obtain ⟨hHeld, hNew⟩ := mem_newTeams.mp hMem
  have hSteps := nextRound_steps hKeyed hValid hNext
  have hUnscored := (hSteps.sound hSound).notDone judgeId teamId (List.mem_toFinset.mpr hHeld)
  rintro (hOld | hDone)
  · exact hNew (List.mem_toFinset.mp hOld)
  · exact hUnscored (hSteps.done hDone)

/-- Over a whole contest no judge is handed the same team twice, nor one that the
judge had scored before. -/
theorem handedOut_nodup (hKeyed : origin.Keyed) (hEmpty : origin.judgingQueue = .empty)
    {events : List (Nat × QueueEvent)} {final : Rounds}
    (hRun : run nextRound (.start origin) events = some final) (judgeId : JudgeId) :
    (emitted nextRound (newTeams judgeId) (.start origin) events).Nodup ∧
      ∀ teamId ∈ emitted nextRound (newTeams judgeId) (.start origin) events,
        judgeId ∉ origin.scores (teamKey teamId) := by
  have hStep : ∀ s event after, RoundsValid origin s → nextRound s event = some after →
      RoundsValid origin after ∧ (newTeams judgeId s after).Nodup ∧
        (∀ teamId ∈ newTeams judgeId s after, ¬s.root.allotment.Seen judgeId teamId ∧
          after.root.allotment.Seen judgeId teamId) ∧
        ∀ teamId, s.root.allotment.Seen judgeId teamId →
          after.root.allotment.Seen judgeId teamId := by
    intro s event after hValid hNext
    have hSound := hValid.steps.sound (allotment_sound hEmpty)
    have hAfter := hValid.next hKeyed hNext
    refine ⟨hAfter, (hAfter.root.queue.nodup judgeId).filter _, fun teamId hMem => ⟨?_, ?_⟩, ?_⟩
    · exact newTeams_unseen hKeyed hSound hValid.root hNext judgeId teamId hMem
    · exact Or.inl (List.mem_toFinset.mpr (mem_newTeams.mp hMem).1)
    · exact fun teamId hSeen => (nextRound_steps hKeyed hValid.root hNext).seen hSeen
  obtain ⟨hNodup, hUnseen⟩ := emitted_nodup nextRound hStep hRun (.start hEmpty)
  exact ⟨hNodup, fun teamId hMem hScored => hUnseen teamId hMem (Or.inr hScored)⟩

/-- Every registered judge has come to the end of the queue. -/
structure Finished (origin : Root) (final : Rounds) : Prop where
  served : ∀ judgeId, (origin.judges.lookup judgeId).isSome → final.served judgeId = true
  empty : ∀ judgeId, (origin.judges.lookup judgeId).isSome →
    final.root.judgingQueue.queues judgeId = []

theorem Matches.registered {root : Root} {judgeId : JudgeId} {teamId : Int}
    (h : Matches root judgeId teamId) : (root.judges.lookup judgeId).isSome := by
  obtain ⟨judge, _, hJudge, _⟩ := h
  exact Option.isSome_iff_exists.mpr ⟨judge, hJudge⟩

theorem RoundsValid.all_scored {final : Rounds} (h : RoundsValid origin final)
    (hFinished : Finished origin final) {judgeId : JudgeId} {teamId : Int}
    (hMatches : Matches origin judgeId teamId) : judgeId ∈ final.root.scores (teamKey teamId) := by
  have hNone := hFinished.empty judgeId hMatches.registered
  have hSatisfied := h.served judgeId (hFinished.served judgeId hMatches.registered)
  exact hSatisfied.all_done (by decide) (by simp [Root.allotment, hNone]) teamId hMatches

/-- By the end each judge has scored every team of the judge's group. -/
theorem finished_all_scored (hKeyed : origin.Keyed) (hEmpty : origin.judgingQueue = .empty)
    {events : List (Nat × QueueEvent)} {final : Rounds}
    (hRun : run nextRound (.start origin) events = some final) (hFinished : Finished origin final) :
    ∀ judgeId teamId, Matches origin judgeId teamId →
      judgeId ∈ final.root.scores (teamKey teamId) :=
  fun _ _ => (run_roundsValid hKeyed hEmpty hRun).all_scored hFinished

/-- The judge submits for a team of the judge's own group. -/
def SubmitsSuited (origin : Root) : QueueEvent → Prop
  | .assignTeams _ _ => True
  | .submitScores _ judgeId teamId _ _ => Matches origin judgeId teamId

/-- All records are of teams that suit the judge who made them. -/
def ScoresSuited (origin root : Root) : Prop :=
  ∀ teamID judgeId, judgeId ∈ root.scores teamID →
    ∃ teamId, teamID = teamKey teamId ∧ Matches origin judgeId teamId

theorem nextRound_scoresSuited {s after : Rounds} {event : Nat × QueueEvent}
    (hScores : ScoresSuited origin s.root) (hSubmits : SubmitsSuited origin event.2)
    (hNext : nextRound s event = some after) : ScoresSuited origin after.root := by
  have hRefilled : ScoresSuited origin (event.2.refilled s.root) := by
    obtain ⟨fuel, event⟩ := event
    cases event with
    | assignTeams sorts judgeId => exact hScores
    | submitScores sorts judgeId teamId scores autoId =>
        intro teamID k hMem
        rcases Root.mem_setScores.mp hMem with ⟨rfl, rfl⟩ | hOld
        · exact ⟨teamId, rfl, hSubmits⟩
        · exact hScores teamID k hOld
  rcases nextRound_cases hNext with ⟨ids, _, _, rfl⟩ | rfl
  · exact hRefilled
  · exact hRefilled

theorem run_scoresSuited {events : List (Nat × QueueEvent)} {s final : Rounds}
    (hRun : run nextRound s events = some final) (hScores : ScoresSuited origin s.root)
    (hSubmits : ∀ event ∈ events, SubmitsSuited origin event.2) :
    ScoresSuited origin final.root := by
  have hStep : ∀ (s : Rounds) (event : Nat × QueueEvent) (after : Rounds),
      ScoresSuited origin s.root → SubmitsSuited origin event.2 → nextRound s event = some after →
        ScoresSuited origin after.root :=
    fun _ _ _ hScores hSubmits hNext => nextRound_scoresSuited hScores hSubmits hNext
  exact run_invariant_of_enabled nextRound hStep hRun hSubmits hScores

/-- Whether a stored team suits a judge depends on the group of the team alone. -/
theorem matches_iff_of_mem {root : Root} {judgeId : JudgeId} {teamId : Int} {team : Team}
    (hMem : (teamKey teamId, team) ∈ root.teams) :
    Matches root judgeId teamId ↔
      ∃ judge, root.judges.lookup judgeId = some judge ∧ isPreferredTeam judge team = true := by
  constructor
  · rintro ⟨judge, other, hJudge, hOther, hPreferred⟩
    have hSame : (teamKey teamId, other) = (teamKey teamId, team) :=
      List.inj_on_of_nodup_map root.teams_nodup hOther hMem rfl
    cases hSame
    exact ⟨judge, hJudge, hPreferred⟩
  · rintro ⟨judge, hJudge, hPreferred⟩
    exact ⟨judge, team, hJudge, hMem, hPreferred⟩

/-- All teams of a group have been scored equally often by the end of a contest in
which judges score only teams of their own group. -/
theorem finished_equally_scored (hKeyed : origin.Keyed) (hEmpty : origin.judgingQueue = .empty)
    (hNoScores : ∀ teamID, origin.scores teamID = ∅) {events : List (Nat × QueueEvent)}
    (hSubmits : ∀ event ∈ events, SubmitsSuited origin event.2) {final : Rounds}
    (hRun : run nextRound (.start origin) events = some final) (hFinished : Finished origin final) :
    ∀ entry ∈ origin.teams, ∀ other ∈ origin.teams,
      entry.2.affinityGroup = other.2.affinityGroup →
        final.root.scoreCount entry.1 = final.root.scoreCount other.1 := by
  have hSuited : ScoresSuited origin final.root := by
    refine run_scoresSuited hRun (fun teamID k hMem => ?_) hSubmits
    rw [Rounds.start, hNoScores] at hMem
    exact absurd hMem (Finmap.notMem_empty)
  have hScored : ∀ entry ∈ origin.teams, ∀ k, k ∈ final.root.scores entry.1 ↔
      ∃ judge, origin.judges.lookup k = some judge ∧ isPreferredTeam judge entry.2 = true := by
    intro entry hMem k
    obtain ⟨teamId, _, hKey⟩ := hKeyed entry hMem
    have hEntry : (teamKey teamId, entry.2) ∈ origin.teams := hKey ▸ hMem
    rw [hKey, ← matches_iff_of_mem hEntry]
    constructor
    · intro hRecord
      obtain ⟨own, hOwn, hMatches⟩ := hSuited _ k hRecord
      rwa [teamKey_injective hOwn]
    · exact (run_roundsValid hKeyed hEmpty hRun).all_scored hFinished
  intro entry hEntry other hOther hGroup
  have hSame : ∀ judge, isPreferredTeam judge entry.2 = isPreferredTeam judge other.2 := by
    intro judge
    simp only [isPreferredTeam, hGroup]
  refine congrArg Finset.card (Finset.ext fun k => ?_)
  rw [Finmap.mem_keys, Finmap.mem_keys, hScored entry hEntry, hScored other hOther]
  simp only [hSame]

end Served

namespace Contest

/-- Both judges ask for teams and then score the three that there are. The refills
after the first two submissions of each judge never end. -/
def bothScoreAll : List (Nat × QueueEvent) :=
  [(5, .assignTeams .stable judgeA), (5, .assignTeams .stable judgeB)] ++
    [(judgeA, 1), (judgeA, 2), (judgeB, 1), (judgeA, 3), (judgeB, 2), (judgeB, 3)].map
      fun (judgeId, teamId) =>
        (5, .submitScores .stable judgeId teamId ⟨3, 3, 3, 3, ""⟩ ("-M" ++ teamKey teamId))

private theorem bothScoreAll_run : ∃ final ∈ run nextRound (.start threeTeams) bothScoreAll,
    (∀ judgeId ∈ [judgeA, judgeB], final.served judgeId = true) ∧
      ∀ judgeId ∈ [judgeA, judgeB], final.root.judgingQueue.queues judgeId = [] := by
  decide

private theorem registered_threeTeams {judgeId : JudgeId}
    (h : (threeTeams.judges.lookup judgeId).isSome) : judgeId ∈ [judgeA, judgeB] := by
  by_contra hNone
  simp only [List.mem_cons, List.not_mem_nil, or_false, not_or] at hNone
  simp [threeTeams, root, List.lookup, beq_eq_false_iff_ne.mpr hNone.1,
    beq_eq_false_iff_ne.mpr hNone.2] at h

private theorem bothScoreAll_finished :
    ∃ final, run nextRound (.start threeTeams) bothScoreAll = some final ∧
      Finished threeTeams final := by
  obtain ⟨final, hRun, hServed, hEmpty⟩ := bothScoreAll_run
  refine ⟨final, hRun, fun judgeId hRegistered => ?_, fun judgeId hRegistered => ?_⟩
  · exact hServed judgeId (registered_threeTeams hRegistered)
  · exact hEmpty judgeId (registered_threeTeams hRegistered)

/-- After the first submission the judge holds the other two teams. -/
theorem firstScored_unscored :
    ∃ final, run nextRound (.start threeTeams) (bothScoreAll.take 3) = some final ∧
      final.root.judgingQueue.queues judgeA = [2, 3] ∧
        ∀ teamId ∈ final.root.judgingQueue.queues judgeA,
          judgeA ∉ final.root.scores (teamKey teamId) := by
  obtain ⟨final, hRun, hQueue⟩ : ∃ final ∈ run nextRound (.start threeTeams) (bothScoreAll.take 3),
      final.root.judgingQueue.queues judgeA = [2, 3] := by decide
  exact ⟨final, hRun, hQueue, queued_unscored threeTeams_keyed rfl hRun judgeA⟩

theorem bothAssigned_not_waiting :
    ∃ final, run nextRound (.start threeTeams) (bothScoreAll.take 2) = some final ∧
      ((final.root.judgingQueue.queues judgeB).length = 3 ∨
        ∀ teamId, Matches threeTeams judgeB teamId →
          teamId ∈ final.root.judgingQueue.queues judgeB ∨
            judgeB ∈ final.root.scores (teamKey teamId)) := by
  obtain ⟨final, hRun, hServed⟩ : ∃ final ∈ run nextRound (.start threeTeams) (bothScoreAll.take 2),
      final.served judgeB = true := by decide
  exact ⟨final, hRun, served_not_waiting threeTeams_keyed rfl hRun hServed⟩

theorem bothScoreAll_handedOut :
    (emitted nextRound (newTeams judgeA) (.start threeTeams) bothScoreAll).Nodup ∧
      ∀ teamId ∈ emitted nextRound (newTeams judgeA) (.start threeTeams) bothScoreAll,
        judgeA ∉ threeTeams.scores (teamKey teamId) := by
  obtain ⟨final, hRun, _⟩ := bothScoreAll_run
  exact handedOut_nodup threeTeams_keyed rfl hRun judgeA

theorem bothScoreAll_all_scored :
    ∃ final, run nextRound (.start threeTeams) bothScoreAll = some final ∧
      ∀ judgeId teamId, Matches threeTeams judgeId teamId →
        judgeId ∈ final.root.scores (teamKey teamId) := by
  obtain ⟨final, hRun, hFinished⟩ := bothScoreAll_finished
  exact ⟨final, hRun, finished_all_scored threeTeams_keyed rfl hRun hFinished⟩

theorem bothScoreAll_equally_scored :
    ∃ final, run nextRound (.start threeTeams) bothScoreAll = some final ∧
      ∀ entry ∈ threeTeams.teams, ∀ other ∈ threeTeams.teams,
        entry.2.affinityGroup = other.2.affinityGroup →
          final.root.scoreCount entry.1 = final.root.scoreCount other.1 := by
  obtain ⟨final, hRun, hFinished⟩ := bothScoreAll_finished
  have hSuits : ∀ judgeId ∈ [judgeA, judgeB], ∀ teamId ∈ [1, 2, 3],
      Matches threeTeams judgeId teamId := by
    intro judgeId hJudge teamId hTeam
    refine ⟨⟨some "None"⟩, (record teamId).2, ?_, List.mem_map_of_mem hTeam, rfl⟩
    simp only [List.mem_cons, List.not_mem_nil, or_false] at hJudge
    rcases hJudge with rfl | rfl <;> rfl
  have hSubmits : ∀ event ∈ bothScoreAll, SubmitsSuited threeTeams event.2 := by
    simp only [bothScoreAll, List.map_cons, List.map_nil, List.cons_append, List.nil_append,
      List.forall_mem_cons, SubmitsSuited, true_and]
    simp [hSuits]
  exact ⟨final, hRun, finished_equally_scored threeTeams_keyed rfl (fun _ => rfl) hSubmits hRun
    hFinished⟩

end Contest

end CICJudging
