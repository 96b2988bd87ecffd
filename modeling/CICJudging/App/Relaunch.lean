import CICJudging.Library.Transition
import CICJudging.Database.Root

/-! Launches of the app. The auth user and the defaults survive a termination; a
launch without the flag `hasRunBefore` signs the user out, and a log-out removes
the flag. -/
namespace CICJudging

open Transition

inductive RootViewController where
  | loginVC
  | teamListVC
  deriving DecidableEq

/-- `visible` is `none` while no process of the app runs. -/
structure Phone where
  currentUser : Option JudgeId
  hasRunBefore : Bool
  visible : Option RootViewController
  deriving DecidableEq

/-- The defaults are empty after an install; the auth SDK may still know a user. -/
def Phone.afterInstall (currentUser : Option JudgeId) : Phone := ⟨currentUser, false, none⟩

/-- The scene connects: the first launch signs out whoever is still known. -/
def Phone.launch (phone : Phone) : Phone :=
  let currentUser := if phone.hasRunBefore = false then none else phone.currentUser
  { currentUser
    hasRunBefore := true
    visible := some (if currentUser.isSome then .teamListVC else .loginVC) }

/-- A sign-in whose credential the SDK has accepted. -/
def Phone.submitOtp (phone : Phone) (judgeId : JudgeId) : Phone :=
  { phone with currentUser := some judgeId, visible := some .teamListVC }

def Phone.logOutUser (phone : Phone) : Phone :=
  { phone with currentUser := none, hasRunBefore := false, visible := some .loginVC }

inductive PhoneEvent where
  | launch
  | terminate
  | signIn (judgeId : JudgeId)
  | logOut
  deriving DecidableEq

/-- `none` where the screen that is up has no such action. -/
def nextPhone (phone : Phone) (event : PhoneEvent) : Option Phone :=
  match event, phone.visible with
  | .launch, none => some phone.launch
  | .terminate, some _ => some { phone with visible := none }
  | .signIn judgeId, some .loginVC => some (phone.submitOtp judgeId)
  | .logOut, some .teamListVC => some phone.logOutUser
  | _, _ => none

theorem nextPhone_cases {phone after : Phone} {event : PhoneEvent}
    (h : nextPhone phone event = some after) :
    (event = .launch ∧ phone.visible = none ∧ after = phone.launch) ∨
    (event = .terminate ∧ phone.visible.isSome ∧ after = { phone with visible := none }) ∨
    (∃ judgeId, event = .signIn judgeId ∧ phone.visible.isSome ∧ after = phone.submitOtp judgeId) ∨
    (event = .logOut ∧ phone.visible.isSome ∧ after = phone.logOutUser) := by
  unfold nextPhone at h
  split at h
  · next hVisible => exact Or.inl ⟨rfl, hVisible, (Option.some.inj h).symm⟩
  · next hVisible => exact Or.inr (Or.inl ⟨rfl, by simp [hVisible], (Option.some.inj h).symm⟩)
  · next judgeId hVisible =>
      exact Or.inr (Or.inr (Or.inl ⟨judgeId, rfl, by simp [hVisible], (Option.some.inj h).symm⟩))
  · next hVisible =>
      exact Or.inr (Or.inr (Or.inr ⟨rfl, by simp [hVisible], (Option.some.inj h).symm⟩))
  · cases h

/-- A later sign-in or log-out of the user replaces an earlier one. -/
def signedInLast : List PhoneEvent → Bool :=
  List.foldl (fun signedIn event =>
    match event with
    | .signIn _ => true
    | .logOut => false
    | _ => signedIn) false

/-- The user has logged out in the process that runs or ran last. -/
def loggedOutSinceLaunch : List PhoneEvent → Bool :=
  List.foldl (fun loggedOut event =>
    match event with
    | .launch => false
    | .logOut => true
    | _ => loggedOut) false

/-- At every launch but the first the root is the team list exactly if the user
signed in last. -/
def RootFollowsUser (past : List PhoneEvent) (phone : Phone) (event : PhoneEvent) : Prop :=
  event = .launch → .launch ∈ past → ∀ after, nextPhone phone event = some after →
    (after.visible = some .teamListVC ↔ signedInLast past = true)

/-- The process that a launch follows has not ended with a user signed in after a
log-out. -/
def SignedInOnce (past : List PhoneEvent) (phone : Phone) (event : PhoneEvent) : Prop :=
  event = .launch → phone.visible = none → .launch ∈ past →
    signedInLast past = true → loggedOutSinceLaunch past = false

theorem signedInLast_snoc (past : List PhoneEvent) (event : PhoneEvent) :
    signedInLast (past ++ [event]) =
      match event with
      | .signIn _ => true
      | .logOut => false
      | _ => signedInLast past := by
  simp only [signedInLast, List.foldl_append, List.foldl_cons, List.foldl_nil]

theorem loggedOutSinceLaunch_snoc (past : List PhoneEvent) (event : PhoneEvent) :
    loggedOutSinceLaunch (past ++ [event]) =
      match event with
      | .launch => false
      | .logOut => true
      | _ => loggedOutSinceLaunch past := by
  simp only [loggedOutSinceLaunch, List.foldl_append, List.foldl_cons, List.foldl_nil]

/-- What the history says about the two stores, as long as no launch has signed a
user out. -/
structure StoresFollow (past : List PhoneEvent) (phone : Phone) : Prop where
  installed : .launch ∉ past → past = [] ∧ phone.visible = none ∧ phone.hasRunBefore = false
  user : .launch ∈ past → phone.currentUser.isSome = signedInLast past
  flag : .launch ∈ past → phone.hasRunBefore = !loggedOutSinceLaunch past

theorem StoresFollow.afterInstall (currentUser : Option JudgeId) :
    StoresFollow [] (.afterInstall currentUser) :=
  ⟨fun _ => ⟨rfl, rfl, rfl⟩, nofun, nofun⟩

theorem StoresFollow.launched {past : List PhoneEvent} {phone : Phone}
    (h : StoresFollow past phone) (hRuns : phone.visible.isSome) : .launch ∈ past := by
  by_contra hNot
  rw [(h.installed hNot).2.1] at hRuns
  cases hRuns

/-- The launch keeps a user who has not logged out before in that process. -/
theorem StoresFollow.launch_user {past : List PhoneEvent} {phone : Phone}
    (h : StoresFollow past phone) (hVisible : phone.visible = none)
    (hOnce : SignedInOnce past phone .launch) :
    phone.launch.currentUser.isSome = signedInLast past := by
  by_cases hFirst : .launch ∈ past
  · simp only [Phone.launch, h.flag hFirst]
    cases hSigned : signedInLast past with
    | true => simp [hOnce rfl hVisible hFirst hSigned, h.user hFirst, hSigned]
    | false => cases loggedOutSinceLaunch past <;> simp [h.user hFirst, hSigned]
  · obtain ⟨rfl, _, hFlag⟩ := h.installed hFirst
    simp [Phone.launch, hFlag, signedInLast]

/-- After the first launch only the two stores matter. -/
theorem StoresFollow.of_launched {past : List PhoneEvent} {phone : Phone} (hMem : .launch ∈ past)
    (hUser : phone.currentUser.isSome = signedInLast past)
    (hFlag : phone.hasRunBefore = !loggedOutSinceLaunch past) : StoresFollow past phone :=
  ⟨fun hNot => absurd hMem hNot, fun _ => hUser, fun _ => hFlag⟩

theorem StoresFollow.step {past : List PhoneEvent} {phone after : Phone} {event : PhoneEvent}
    (h : StoresFollow past phone) (hOnce : SignedInOnce past phone event)
    (hNext : nextPhone phone event = some after) : StoresFollow (past ++ [event]) after := by
  rcases nextPhone_cases hNext with ⟨rfl, hVisible, rfl⟩ | ⟨rfl, hRuns, rfl⟩ |
    ⟨judgeId, rfl, hRuns, rfl⟩ | ⟨rfl, hRuns, rfl⟩
  · refine .of_launched (by simp) ?_ ?_
    · rw [signedInLast_snoc]
      exact h.launch_user hVisible hOnce
    · rw [loggedOutSinceLaunch_snoc]
      rfl
  · have hMem := h.launched hRuns
    refine .of_launched (List.mem_append_left _ hMem) ?_ ?_
    · rw [signedInLast_snoc]
      exact h.user hMem
    · rw [loggedOutSinceLaunch_snoc]
      exact h.flag hMem
  · have hMem := h.launched hRuns
    refine .of_launched (List.mem_append_left _ hMem) ?_ ?_
    · rw [signedInLast_snoc]
      rfl
    · rw [loggedOutSinceLaunch_snoc]
      exact h.flag hMem
  · have hMem := h.launched hRuns
    refine .of_launched (List.mem_append_left _ hMem) ?_ ?_
    · rw [signedInLast_snoc]
      rfl
    · rw [loggedOutSinceLaunch_snoc]
      rfl

theorem Phone.launch_visible (phone : Phone) :
    phone.launch.visible = some .teamListVC ↔ phone.launch.currentUser.isSome = true := by
  simp only [Phone.launch, Option.some.injEq]
  split_ifs <;> simp_all

theorem rootFollowsUser_of_once {past : List PhoneEvent} {phone : Phone} {event : PhoneEvent}
    (h : StoresFollow past phone) (hOnce : SignedInOnce past phone event) :
    RootFollowsUser past phone event := by
  rintro rfl - after hNext
  rcases nextPhone_cases hNext with ⟨_, hVisible, rfl⟩ | ⟨hEvent, _⟩ | ⟨_, hEvent, _⟩ | ⟨hEvent, _⟩
  · rw [phone.launch_visible, h.launch_user hVisible hOnce]
  · cases hEvent
  · cases hEvent
  · cases hEvent

/-- The flag that the log-out removed signs out whoever has signed in since. -/
theorem once_of_rootFollowsUser {past : List PhoneEvent} {phone : Phone} {event : PhoneEvent}
    (h : StoresFollow past phone) (hRoot : RootFollowsUser past phone event) :
    SignedInOnce past phone event := by
  rintro rfl hVisible hStarted hSigned
  have hNext : nextPhone phone .launch = some phone.launch := by simp [nextPhone, hVisible]
  have hUser := (hRoot rfl hStarted _ hNext).mpr hSigned
  rw [phone.launch_visible] at hUser
  cases hOut : loggedOutSinceLaunch past with
  | false => rfl
  | true => simp [Phone.launch, h.flag hStarted, hOut] at hUser

/-- In every run after an install the root of every launch but the first follows
the last sign-in or log-out exactly if no process ends with a user signed in after
a log-out and is launched again. -/
theorem session_survives_iff (currentUser : Option JudgeId) (events : List PhoneEvent) :
    AlongHistory nextPhone RootFollowsUser [] (.afterInstall currentUser) events ↔
      AlongHistory nextPhone SignedInOnce [] (.afterInstall currentUser) events := by
  have hInstalled := StoresFollow.afterInstall currentUser
  constructor
  · refine AlongHistory.mono nextPhone ?_ ?_ hInstalled
    · exact fun _ _ _ _ h hRoot hNext => h.step (once_of_rootFollowsUser h hRoot) hNext
    · exact fun _ _ _ h hRoot => once_of_rootFollowsUser h hRoot
  · refine AlongHistory.mono nextPhone ?_ ?_ hInstalled
    · exact fun _ _ _ _ h hOnce hNext => h.step hOnce hNext
    · exact fun _ _ _ h hOnce => rootFollowsUser_of_once h hOnce

namespace Contest

/-- The judge signs in, logs out and signs in again in one process. -/
def signedInAgain : List PhoneEvent :=
  [.launch, .signIn judgeA, .logOut, .signIn judgeA, .terminate]

/-- The next launch signs the judge out. -/
theorem signedInAgain_signed_out :
    ∃ phone, run nextPhone (.afterInstall none) signedInAgain = some phone ∧
      ¬RootFollowsUser signedInAgain phone .launch := by
  refine ⟨_, rfl, fun hRoot => ?_⟩
  have hShown := (hRoot rfl (by decide) _ rfl).mpr rfl
  exact absurd hShown (by decide)

end Contest

end CICJudging
