import CICJudging.App.JudgedTeams
import CICJudging.App.TeamLists

/-! One device: who is signed in, which screen is up, and the two singletons that
decide whether a score may be entered, edited or submitted. -/
namespace CICJudging

open Transition

inductive Screen where
  | loginVC
  | list (vc : ListVC)
  | scoringVC (presenting : ListVC) (teamId : Int)
  deriving DecidableEq

/-- `configuration` is `AppConfigurations.shared`, which exists from the launch
on, and `judgedTeams` is `JudgedTeams.shared` once something has accessed it. -/
structure Device where
  currentUser : Option JudgeId
  screen : Screen
  configuration : ConfigurationData
  judgedTeams : Option JudgedTeams
  root : Root

def Device.launch (currentUser : Option JudgeId) (root : Root) : Device where
  currentUser
  screen := if currentUser.isSome then .list .teamListVC else .loginVC
  configuration := ⟨1, 1⟩
  judgedTeams := none
  root

/-- An access to `JudgedTeams.shared` by a screen of the signed-in judge. -/
def Device.access (device : Device) : Option (JudgeId × JudgedTeams) :=
  device.currentUser.map fun judgeId =>
    (judgeId, device.judgedTeams.getD (.create device.root judgeId))

/-- Whether a tap on a team opens the scoring screen. The alert about closed
edits opens it when it is dismissed. -/
def didSelectOpens (vc : ListVC) (configuration : ConfigurationData) (isTeamScored : Bool) : Bool :=
  match vc with
  | .teamListVC => !decide (configuration.allowSubmissions = 0)
  | .filterTeamsVC _ =>
      if isTeamScored && decide (configuration.allowEdits = 0) then true
      else if !isTeamScored && decide (configuration.allowSubmissions = 0) then false
      else true

/-- The two tests of `submitScores`. -/
def submitGoesThrough (configuration : ConfigurationData) (isTeamScored : Bool) : Bool :=
  if isTeamScored && decide (configuration.allowEdits = 0) then false
  else if !isTeamScored && decide (configuration.allowSubmissions = 0) then false
  else true

/-- A score tap and the notes cell access the cache as a submission does. -/
inductive DeviceEvent where
  | signIn (judgeId : JudgeId)
  | logOut
  | deliverConfiguration (configuration : ConfigurationData)
  | deliverJudgedTeams
  | showTeamsList (filterVCType : FilterVCType)
  | dismiss
  | didSelectRow (teamId : Int)
  | configureNotesCell
  | submitScores (scores : ScoresData) (autoId : String)

/-- The team list decides without the cache, the other lists with it. -/
def Device.didSelectRow (device : Device) (vc : ListVC) (teamId : Int) : Option Device :=
  match vc with
  | .teamListVC =>
      if didSelectOpens vc device.configuration false then
        some { device with screen := .scoringVC vc teamId }
      else some device
  | .filterTeamsVC _ =>
      device.access.map fun (_, shared) =>
        if didSelectOpens vc device.configuration (decide (teamId ∈ shared.judgedTeamIds)) then
          { device with judgedTeams := some shared, screen := .scoringVC vc teamId }
        else { device with judgedTeams := some shared }

def Device.submitScores (device : Device) (presenting : ListVC) (submission : Submission) :
    Option Device :=
  device.access.map fun (judgeId, shared) =>
    if submitGoesThrough device.configuration
        (decide (submission.teamId ∈ shared.judgedTeamIds)) then
      let root := submission.apply judgeId device.root
      { device with
        root, judgedTeams := some (shared.notify root judgeId), screen := .list presenting }
    else { device with judgedTeams := some shared }

/-- `none` where the screen that is up has no such event. -/
def nextDevice (device : Device) (event : DeviceEvent) : Option Device :=
  match event, device.screen with
  | .signIn judgeId, .loginVC =>
      some { device with currentUser := some judgeId, screen := .list .teamListVC }
  | .logOut, .list .teamListVC => some { device with currentUser := none, screen := .loginVC }
  | .deliverConfiguration configuration, _ => some { device with configuration }
  | .deliverJudgedTeams, _ =>
      (device.judgedTeams.bind JudgedTeams.deliver).map fun shared =>
        { device with judgedTeams := some shared }
  | .showTeamsList filterVCType, .list .teamListVC =>
      some { device with screen := .list (.filterTeamsVC filterVCType) }
  | .dismiss, .list (.filterTeamsVC _) => some { device with screen := .list .teamListVC }
  | .dismiss, .scoringVC presenting _ => some { device with screen := .list presenting }
  | .didSelectRow teamId, .list vc => device.didSelectRow vc teamId
  | .configureNotesCell, .scoringVC _ _ =>
      device.access.map fun (_, shared) => { device with judgedTeams := some shared }
  | .submitScores scores autoId, .scoringVC presenting teamId =>
      device.submitScores presenting ⟨teamId, scores, autoId⟩
  | _, _ => none

/-- What a step can do to the cache and to the database: nothing, a delivery, an
access, or a submission by the judge who is signed in. -/
theorem nextDevice_cases {device after : Device} {event : DeviceEvent}
    (h : nextDevice device event = some after) :
    (after.root = device.root ∧ after.judgedTeams = device.judgedTeams) ∨
    (after.root = device.root ∧ ∃ shared delivered, device.judgedTeams = some shared ∧
      shared.deliver = some delivered ∧ after.judgedTeams = some delivered) ∨
    (after.root = device.root ∧ ∃ judgeId shared, device.access = some (judgeId, shared) ∧
      after.judgedTeams = some shared) ∨
    (∃ judgeId shared, ∃ submission : Submission, device.access = some (judgeId, shared) ∧
      after.root = submission.apply judgeId device.root ∧
      after.judgedTeams = some (shared.notify after.root judgeId)) := by
  unfold nextDevice at h
  split at h
  · cases h
    exact Or.inl ⟨rfl, rfl⟩
  · cases h
    exact Or.inl ⟨rfl, rfl⟩
  · cases h
    exact Or.inl ⟨rfl, rfl⟩
  · obtain ⟨delivered, hDeliver, rfl⟩ := Option.map_eq_some_iff.mp h
    obtain ⟨shared, hShared, hDeliver⟩ := Option.bind_eq_some_iff.mp hDeliver
    exact Or.inr (Or.inl ⟨rfl, shared, delivered, hShared, hDeliver, rfl⟩)
  · cases h
    exact Or.inl ⟨rfl, rfl⟩
  · cases h
    exact Or.inl ⟨rfl, rfl⟩
  · cases h
    exact Or.inl ⟨rfl, rfl⟩
  · next teamId vc hScreen =>
      cases vc with
      | teamListVC =>
          simp only [Device.didSelectRow] at h
          split_ifs at h <;> cases h <;> exact Or.inl ⟨rfl, rfl⟩
      | filterTeamsVC filterVCType =>
          obtain ⟨⟨judgeId, shared⟩, hAccess, rfl⟩ := Option.map_eq_some_iff.mp h
          refine Or.inr (Or.inr (Or.inl ?_))
          dsimp only
          split_ifs <;> exact ⟨rfl, judgeId, shared, hAccess, rfl⟩
  · obtain ⟨⟨judgeId, shared⟩, hAccess, rfl⟩ := Option.map_eq_some_iff.mp h
    exact Or.inr (Or.inr (Or.inl ⟨rfl, judgeId, shared, hAccess, rfl⟩))
  · obtain ⟨⟨judgeId, shared⟩, hAccess, rfl⟩ := Option.map_eq_some_iff.mp h
    dsimp only
    split_ifs
    · exact Or.inr (Or.inr (Or.inr ⟨judgeId, shared, _, hAccess, rfl, rfl⟩))
    · exact Or.inr (Or.inr (Or.inl ⟨rfl, judgeId, shared, hAccess, rfl⟩))
  · cases h

/-- The submission that this event would make, by whom and with which cache. -/
def Device.submitting (device : Device) : DeviceEvent → Option (JudgeId × JudgedTeams × Int)
  | .submitScores _ _ =>
      match device.screen with
      | .scoringVC _ teamId => device.access.map fun (judgeId, shared) => (judgeId, shared, teamId)
      | _ => none
  | _ => none

/-- A submission that goes through while edits are closed is for a team without
a record, and one while submissions are closed for a team with one. -/
def EnforcesClosing (device : Device) (event : DeviceEvent) : Prop :=
  ∀ judgeId shared teamId, device.submitting event = some (judgeId, shared, teamId) →
    submitGoesThrough device.configuration (decide (teamId ∈ shared.judgedTeamIds)) = true →
    (device.configuration.allowEdits = 0 → teamId ∉ scoredTeams device.root judgeId) ∧
    (device.configuration.allowSubmissions = 0 → teamId ∈ scoredTeams device.root judgeId)

/-- When one of the two is closed and the other is not, the cache knows as much
about the team as the decision needs. -/
def CacheSuffices (device : Device) (event : DeviceEvent) : Prop :=
  ∀ judgeId shared teamId, device.submitting event = some (judgeId, shared, teamId) →
    (device.configuration.allowEdits = 0 → device.configuration.allowSubmissions ≠ 0 →
      teamId ∈ scoredTeams device.root judgeId → teamId ∈ shared.judgedTeamIds) ∧
    (device.configuration.allowSubmissions = 0 → device.configuration.allowEdits ≠ 0 →
      teamId ∈ shared.judgedTeamIds → teamId ∈ scoredTeams device.root judgeId)

theorem enforcesClosing_iff {device : Device} {event : DeviceEvent} :
    EnforcesClosing device event ↔ CacheSuffices device event := by
  refine forall_congr' fun judgeId => forall_congr' fun shared => forall_congr' fun teamId => ?_
  refine forall_congr' fun _ => ?_
  by_cases hEdits : device.configuration.allowEdits = 0 <;>
    by_cases hSubmissions : device.configuration.allowSubmissions = 0 <;>
    by_cases hCached : teamId ∈ shared.judgedTeamIds <;>
    simp [submitGoesThrough, hEdits, hSubmissions, hCached]

/-- The cache was created for the judge who submits, and no snapshot is pending. -/
def CacheCurrent (device : Device) (event : DeviceEvent) : Prop :=
  ∀ submitting ∈ device.submitting event, ∃ shared, device.judgedTeams = some shared ∧
    device.currentUser = some shared.judgeId ∧ shared.pending = []

/-- The log of every judge lists the teams that the judge has scored. -/
def LogsMatch (root : Root) : Prop :=
  ∀ judgeId teamId, teamId ∈ loggedTeamIds root judgeId ↔ teamId ∈ scoredTeams root judgeId

theorem LogsMatch.apply {root : Root} (h : LogsMatch root) (judgeId : JudgeId)
    (submission : Submission) : LogsMatch (submission.apply judgeId root) := by
  intro k teamId
  by_cases hk : k = judgeId
  · subst hk
    rw [loggedTeamIds_apply, mem_scoredTeams_apply, List.mem_append, List.mem_singleton, h, or_comm]
  · rw [loggedTeamIds_apply_of_ne hk, h]
    simp [scoredTeams, Submission.apply, Root.mem_setScores, hk]

/-- With everything delivered the cache would show the log it observes. -/
structure CacheFollows (device : Device) : Prop where
  logs : LogsMatch device.root
  settled : ∀ shared, device.judgedTeams = some shared →
    shared.settled = loggedTeamIds device.root shared.judgeId

theorem CacheFollows.access {device : Device} (h : CacheFollows device) {judgeId : JudgeId}
    {shared : JudgedTeams} (hAccess : device.access = some (judgeId, shared)) :
    shared.settled = loggedTeamIds device.root shared.judgeId := by
  obtain ⟨_, _, hPair⟩ := Option.map_eq_some_iff.mp hAccess
  cases hShared : device.judgedTeams with
  | some cached =>
      rw [hShared] at hPair
      cases hPair
      exact h.settled cached hShared
  | none =>
      rw [hShared] at hPair
      cases hPair
      exact JudgedTeams.settled_create device.root judgeId

theorem CacheFollows.step {device after : Device} {event : DeviceEvent} (h : CacheFollows device)
    (hNext : nextDevice device event = some after) : CacheFollows after := by
  rcases nextDevice_cases hNext with ⟨hRoot, hSame⟩ |
    ⟨hRoot, shared, delivered, hShared, hDeliver, hAfter⟩ |
    ⟨hRoot, judgeId, shared, hAccess, hAfter⟩ |
    ⟨judgeId, shared, submission, hAccess, hRoot, hAfter⟩
  · exact ⟨hRoot ▸ h.logs, fun shared hShared => hRoot ▸ h.settled shared (hSame ▸ hShared)⟩
  · refine ⟨hRoot ▸ h.logs, fun shared' hShared' => ?_⟩
    obtain rfl := Option.some.inj (hAfter.symm.trans hShared')
    obtain ⟨hSettled, hOwner⟩ := JudgedTeams.settled_deliver hDeliver
    rw [hSettled, hOwner, hRoot]
    exact h.settled shared hShared
  · refine ⟨hRoot ▸ h.logs, fun shared' hShared' => ?_⟩
    obtain rfl := Option.some.inj (hAfter.symm.trans hShared')
    rw [hRoot]
    exact h.access hAccess
  · refine ⟨hRoot ▸ h.logs.apply judgeId submission, fun shared' hShared' => ?_⟩
    obtain rfl := Option.some.inj (hAfter.symm.trans hShared')
    rw [JudgedTeams.notify_judgeId, hRoot]
    by_cases hOwner : judgeId = shared.judgeId
    · subst hOwner
      exact JudgedTeams.settled_notify (by simp [loggedTeamIds_apply])
    · rw [JudgedTeams.notify_of_ne hOwner, h.access hAccess,
        loggedTeamIds_apply_of_ne (Ne.symm hOwner)]

theorem CacheFollows.launch {root : Root} (hLogs : LogsMatch root) (currentUser : Option JudgeId) :
    CacheFollows (.launch currentUser root) :=
  ⟨hLogs, fun shared hShared => by cases hShared⟩

theorem CacheFollows.suffices {device : Device} {event : DeviceEvent} (h : CacheFollows device)
    (hCurrent : CacheCurrent device event) : CacheSuffices device event := by
  intro judgeId shared teamId hSubmitting
  obtain ⟨cached, hCached, hUser, hPending⟩ := hCurrent _ hSubmitting
  have hAccess : device.access = some (cached.judgeId, cached) := by
    simp [Device.access, hUser, hCached]
  have hSame : cached.judgeId = judgeId ∧ cached = shared := by
    unfold Device.submitting at hSubmitting
    split at hSubmitting
    · split at hSubmitting
      · simp only [hAccess, Option.map_some, Option.some.injEq, Prod.mk.injEq] at hSubmitting
        exact ⟨hSubmitting.1, hSubmitting.2.1⟩
      · cases hSubmitting
    · cases hSubmitting
  obtain ⟨rfl, rfl⟩ := hSame
  have hIds : cached.judgedTeamIds = loggedTeamIds device.root cached.judgeId := by
    rw [← JudgedTeams.settled_of_pending_nil hPending]
    exact h.settled cached hCached
  rw [hIds, h.logs]
  exact ⟨fun _ _ hMem => hMem, fun _ _ hMem => hMem⟩

/-- Closing is enforced in exactly the runs in which the cache suffices at every
submission. It does if the cache was created for the judge who submits and has
received every snapshot, and the logs matched the scores at the launch. -/
theorem closing_enforced_iff (currentUser : Option JudgeId) (root : Root)
    (events : List DeviceEvent) :
    (Along nextDevice EnforcesClosing (.launch currentUser root) events ↔
      Along nextDevice CacheSuffices (.launch currentUser root) events) ∧
    (LogsMatch root → Along nextDevice CacheCurrent (.launch currentUser root) events →
      Along nextDevice EnforcesClosing (.launch currentUser root) events) := by
  have hIff : Along nextDevice EnforcesClosing (.launch currentUser root) events ↔
      Along nextDevice CacheSuffices (.launch currentUser root) events :=
    along_congr nextDevice fun _ _ => enforcesClosing_iff
  refine ⟨hIff, fun hLogs hCurrent => hIff.mpr ?_⟩
  exact Along.mono nextDevice (fun _ _ _ hFollows hNext => hFollows.step hNext)
    (fun _ _ hFollows hNow => hFollows.suffices hNow) (CacheFollows.launch hLogs currentUser) hCurrent

namespace Contest

/-- The first judge has scored team 1, on another device or in another run. -/
def alreadyScored : Root :=
  Submission.apply judgeA fourTeams ⟨1, ⟨3, 3, 3, 3, ""⟩, "-M1"⟩

/-- Edits are closed before the screen of a scored team is left. -/
def editAfterClosing : List DeviceEvent :=
  [.showTeamsList .allTeams, .didSelectRow 1, .deliverConfiguration ⟨0, 1⟩]

/-- The snapshot of the log is still pending, so the team does not count as
scored and the edit goes through. -/
theorem closed_edit_submitted :
    ∃ device, run nextDevice (.launch (some judgeA) alreadyScored) editAfterClosing = some device ∧
      ¬EnforcesClosing device (.submitScores ⟨5, 5, 5, 5, ""⟩ "-M2") := by
  refine ⟨_, rfl, fun hEnforces => ?_⟩
  have hClosed := hEnforces judgeA (.create alreadyScored judgeA) 1 rfl (by decide)
  have hScored : 1 ∈ scoredTeams alreadyScored judgeA := mem_scoredTeams_apply.mpr (Or.inl rfl)
  exact hClosed.1 rfl hScored

theorem alreadyScored_logsMatch : LogsMatch alreadyScored := by
  refine LogsMatch.apply (fun judgeId teamId => iff_of_false List.not_mem_nil ?_) _ _
  exact Finmap.notMem_empty

/-- With the snapshot delivered before the tap on submit the edit is refused. -/
theorem closed_edit_refused :
    Along nextDevice EnforcesClosing (.launch (some judgeA) alreadyScored)
      (editAfterClosing ++ [.deliverJudgedTeams, .submitScores ⟨5, 5, 5, 5, ""⟩ "-M2"]) := by
  refine (closing_enforced_iff (some judgeA) alreadyScored _).2 alreadyScored_logsMatch ?_
  refine ⟨nofun, fun listed hListed => ⟨nofun, fun opened hOpened => ⟨nofun, fun closed hClosed =>
    ⟨nofun, fun delivered hDelivered => ⟨fun _ _ => ?_, fun _ _ => trivial⟩⟩⟩⟩⟩
  cases Option.some.inj hListed
  cases Option.some.inj hOpened
  cases Option.some.inj hClosed
  cases Option.some.inj hDelivered
  exact ⟨_, rfl, rfl, rfl⟩

end Contest

end CICJudging
