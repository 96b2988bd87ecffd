import CICJudging.Functions.SubmitRace
import CICJudging.Database.PushId
import CICJudging.Database.SortedDictionary

/-! The log under `judgedTeams`. The score of a team is stored under its id and
replaced by the next one; the log gets a new child every time. -/
namespace CICJudging

open ReadModifyWrite Transition

/-- One `submitScores` that goes through. The keys of `childByAutoId` are taken to differ. -/
structure Submission where
  teamId : Int
  scores : ScoresData
  autoId : String
  deriving DecidableEq

/-- Both writes of the client. -/
def Submission.apply (judgeId : JudgeId) (root : Root) (submission : Submission) : Root :=
  (root.setScores submission.teamId judgeId submission.scores).pushJudgedTeam judgeId
    submission.autoId submission.teamId

def submitAll (judgeId : JudgeId) (root : Root) (submissions : List Submission) : Root :=
  submissions.foldl (Submission.apply judgeId) root

theorem Submission.apply_eq_runOps (fuel : Nat) (sorts : SortCalls) (judgeId : JudgeId)
    (root : Root) (submission : Submission) :
    runOps (submitScores fuel sorts judgeId submission.teamId submission.scores submission.autoId
      .client) root = some (submission.apply judgeId root) := rfl

def Root.empty : Root where
  judges := []
  teams := []
  teams_nodup := List.nodup_nil
  judgingQueue := .empty
  scores := fun _ => ∅
  judgedTeams := fun _ => []

/-- The values of the judge's log, which the Judged Teams list shows. -/
def loggedTeamIds (root : Root) (judgeId : JudgeId) : List Int :=
  (root.judgedTeams judgeId).map Prod.snd

/-- `teamIds.count` of the label "Scored N Teams". -/
def judgedCount (root : Root) (judgeId : JudgeId) : Nat := (root.judgedTeams judgeId).length

/-- The teams with a record of the judge. -/
def scoredTeams (root : Root) (judgeId : JudgeId) : Set Int :=
  {teamId | judgeId ∈ root.scores (teamKey teamId)}

/-- The log lists every scored team, once, and counts them. -/
structure LogAgrees (root : Root) (judgeId : JudgeId) : Prop where
  mem_iff : ∀ teamId, teamId ∈ loggedTeamIds root judgeId ↔ teamId ∈ scoredTeams root judgeId
  nodup : (loggedTeamIds root judgeId).Nodup
  count : judgedCount root judgeId = (scoredTeams root judgeId).ncard

section Run

variable {judgeId : JudgeId} {root : Root}

theorem mem_scoredTeams_apply {submission : Submission} {teamId : Int} :
    teamId ∈ scoredTeams (submission.apply judgeId root) judgeId ↔
      teamId = submission.teamId ∨ teamId ∈ scoredTeams root judgeId := by
  simp [scoredTeams, Submission.apply, Root.mem_setScores]

theorem mem_scoredTeams_submitAll {submissions : List Submission} {teamId : Int} :
    teamId ∈ scoredTeams (submitAll judgeId root submissions) judgeId ↔
      teamId ∈ submissions.map Submission.teamId ∨ teamId ∈ scoredTeams root judgeId := by
  induction submissions generalizing root with
  | nil => simp [submitAll]
  | cons submission submissions ih =>
      rw [submitAll, List.foldl_cons, ← submitAll, ih, mem_scoredTeams_apply, List.map_cons,
        List.mem_cons]
      tauto

/-- The log of another judge and its teams are not touched. -/
theorem loggedTeamIds_apply_of_ne {k : JudgeId} (hne : k ≠ judgeId) (submission : Submission) :
    loggedTeamIds (submission.apply judgeId root) k = loggedTeamIds root k := by
  simp [loggedTeamIds, Submission.apply, Root.pushJudgedTeam, hne]

theorem loggedTeamIds_apply (submission : Submission) :
    loggedTeamIds (submission.apply judgeId root) judgeId =
      loggedTeamIds root judgeId ++ [submission.teamId] := by
  simp [loggedTeamIds, Submission.apply, Root.pushJudgedTeam]

/-- Every submission adds its team to the log, whether it is there or not. -/
theorem loggedTeamIds_submitAll (submissions : List Submission) :
    loggedTeamIds (submitAll judgeId root submissions) judgeId =
      loggedTeamIds root judgeId ++ submissions.map Submission.teamId := by
  induction submissions generalizing root with
  | nil => simp [submitAll]
  | cons submission submissions ih =>
      rw [submitAll, List.foldl_cons, ← submitAll, ih, loggedTeamIds_apply]
      simp

end Run

theorem judgedCount_eq (root : Root) (judgeId : JudgeId) :
    judgedCount root judgeId = (loggedTeamIds root judgeId).length :=
  (List.length_map _).symm

/-- From an empty database the log agrees with the scores exactly if the judge
has submitted for no team twice. An edit repeats its team in the log. -/
theorem judgedLog_agrees_iff (judgeId : JudgeId) (submissions : List Submission) :
    LogAgrees (submitAll judgeId .empty submissions) judgeId ↔
      (submissions.map Submission.teamId).Nodup := by
  have hIds : loggedTeamIds (submitAll judgeId .empty submissions) judgeId =
      submissions.map Submission.teamId := loggedTeamIds_submitAll submissions
  have hScored : scoredTeams (submitAll judgeId .empty submissions) judgeId =
      ((submissions.map Submission.teamId).toFinset : Set Int) := by
    ext teamId
    rw [mem_scoredTeams_submitAll, Finset.mem_coe, List.mem_toFinset]
    have hEmpty : teamId ∉ scoredTeams .empty judgeId := Finmap.notMem_empty
    exact or_iff_left hEmpty
  constructor
  · exact fun hAgrees => hIds ▸ hAgrees.nodup
  · intro hNodup
    refine ⟨fun teamId => ?_, hIds ▸ hNodup, ?_⟩
    · rw [hIds, hScored, Finset.mem_coe, List.mem_toFinset]
    · rw [judgedCount_eq, hIds, hScored, Set.ncard_coe_finset, List.toFinset_card_of_nodup hNodup]

/-- A first submission and an edit: the team is in the log twice. -/
theorem edited_log_disagrees :
    ¬LogAgrees (submitAll Contest.judgeA .empty
      [⟨7, ⟨3, 3, 3, 3, ""⟩, "-M1"⟩, ⟨7, ⟨4, 3, 3, 3, ""⟩, "-M2"⟩]) Contest.judgeA :=
  fun hAgrees => absurd hAgrees.nodup (by decide)

/-- The submissions of any number of judges, in order. -/
def submitEach (root : Root) (submissions : List (JudgeId × Submission)) : Root :=
  submissions.foldl (fun root submitted => submitted.2.apply submitted.1 root) root

/-- The children that a judge's submissions add to the log. -/
def loggedBy (judgeId : JudgeId) (submissions : List (JudgeId × Submission)) :
    List (String × Int) :=
  (submissions.filter fun submitted => submitted.1 = judgeId).map fun submitted =>
    (submitted.2.autoId, submitted.2.teamId)

theorem judgedTeams_submitEach (judgeId : JudgeId) (root : Root)
    (submissions : List (JudgeId × Submission)) :
    (submitEach root submissions).judgedTeams judgeId =
      root.judgedTeams judgeId ++ loggedBy judgeId submissions := by
  induction submissions generalizing root with
  | nil => simp [submitEach, loggedBy]
  | cons submitted submissions ih =>
      rw [submitEach, List.foldl_cons, ← submitEach, ih]
      by_cases hJudge : submitted.1 = judgeId
      · simp [Submission.apply, Root.pushJudgedTeam, loggedBy, hJudge]
      · simp [Submission.apply, Root.pushJudgedTeam, loggedBy, hJudge, Ne.symm hJudge]

/-- The log as the database hands it over, in the order of the keys. -/
def childrenInOrder (root : Root) (judgeId : JudgeId) : List (String × Int) :=
  (root.judgedTeams judgeId).mergeSort fun first second => (keyOrder first.1 second.1).isLE

/-- That is the order of the dictionary that the client makes of the log. -/
theorem fromDictionary_judgedTeams {root : Root} {judgeId : JudgeId}
    (h : FImmutableSortedDictionary.Apart keyOrder (root.judgedTeams judgeId)) :
    ∃ children, FImmutableSortedDictionary.fromDictionary keyOrder (root.judgedTeams judgeId) =
        some children ∧ children.entries = childrenInOrder root judgeId := by
  obtain ⟨children, hBuild, -, hEntries⟩ := FImmutableSortedDictionary.fromDictionary_eq_some h
  exact ⟨children, hBuild, hEntries⟩

/-- The log of a judge who submits from one device, which other judges may use too, has one
child for each submission and hands them over in the order of the submissions, as long as
the device's reckoning of the server's time is not set back. -/
theorem log_keeps_order {toDouble : ℚ → ℚ} (judgeId : JudgeId)
    {submissions : List (JudgeId × Submission)} {events : List AutoIdEvent} {final : AutoIds}
    (hRun : run (nextAutoId toDouble) .start events = some final)
    (hEra : Along (nextAutoId toDouble) (InEra toDouble) .start events)
    (hForward : Along (nextAutoId toDouble) (KeepsForward toDouble) .start events)
    (hKeys : ((loggedBy judgeId submissions).map Prod.fst).Sublist final.keys) :
    childrenInOrder (submitEach .empty submissions) judgeId = loggedBy judgeId submissions ∧
      (((submitEach .empty submissions).judgedTeams judgeId).map Prod.fst).Nodup := by
  have hLog : (submitEach .empty submissions).judgedTeams judgeId = loggedBy judgeId submissions :=
    judgedTeams_submitEach judgeId .empty submissions
  have hIncreasing := List.isChain_iff_pairwise.mp ((run_increasing_iff hRun hEra).mpr hForward)
  have hPairwise := hIncreasing.sublist hKeys
  constructor
  · rw [childrenInOrder, hLog]
    refine List.mergeSort_of_pairwise ((List.pairwise_map.mp hPairwise).imp fun hLess => ?_)
    rw [hLess]
    rfl
  · rw [hLog]
    refine hPairwise.imp fun hLess hSame => ?_
    rw [hSame, keyOrder_self] at hLess
    cases hLess

namespace Contest

/-- Two judges who pass one device around. -/
def threeSubmissions : List (JudgeId × Submission) :=
  [(judgeA, ⟨7, ⟨3, 3, 3, 3, ""⟩, "-M2CkT--44444444444z"⟩),
    (judgeB, ⟨7, ⟨3, 3, 3, 3, ""⟩, "-M2CkT--44444444445-"⟩),
    (judgeA, ⟨2, ⟨4, 3, 3, 3, ""⟩, "-M2CkT6o------------"⟩)]

theorem threeSubmissions_keep_order :
    (childrenInOrder (submitEach .empty threeSubmissions) judgeA =
        [("-M2CkT--44444444444z", 7), ("-M2CkT6o------------", 2)] ∧
      (((submitEach .empty threeSubmissions).judgedTeams judgeA).map Prod.fst).Nodup) ∧
    childrenInOrder (submitEach .empty threeSubmissions) judgeB =
        [("-M2CkT--44444444445-", 7)] ∧
      (((submitEach .empty threeSubmissions).judgedTeams judgeB).map Prod.fst).Nodup := by
  obtain ⟨final, hRun, hKeys⟩ := threeKeys_run
  constructor
  · exact log_keeps_order judgeA hRun threeKeys_inEra threeKeys_keepForward (hKeys ▸ by decide)
  · exact log_keeps_order judgeB hRun threeKeys_inEra threeKeys_keepForward (hKeys ▸ by decide)

end Contest

end CICJudging
