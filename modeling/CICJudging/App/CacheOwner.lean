import CICJudging.App.JudgedTeams

/-! Whose cache `JudgedTeams.shared` is, over the sign-ins and log-outs of one
process. The observer stays with the judge of the first access, and it ignores
the snapshot of a node that has been deleted. -/
namespace CICJudging

open Transition

/-- `judgedTeams/<judge>` set as a whole. The keys are those of `childByAutoId`. -/
def Root.setJudgedTeams (root : Root) (judgeId : JudgeId) (entries : List (String × Int)) : Root :=
  { root with judgedTeams := Function.update root.judgedTeams judgeId entries }

theorem loggedTeamIds_setJudgedTeams (root : Root) (judgeId : JudgeId)
    (entries : List (String × Int)) :
    loggedTeamIds (root.setJudgedTeams judgeId entries) judgeId = entries.map Prod.snd := by
  simp [loggedTeamIds, Root.setJudgedTeams]

theorem loggedTeamIds_setJudgedTeams_of_ne {judgeId k : JudgeId} (hne : k ≠ judgeId) (root : Root)
    (entries : List (String × Int)) :
    loggedTeamIds (root.setJudgedTeams judgeId entries) k = loggedTeamIds root k := by
  simp [loggedTeamIds, Root.setJudgedTeams, hne]

/-- `judgedTeams` is `JudgedTeams.shared` once it has been accessed. -/
structure Session where
  currentUser : Option JudgeId
  judgedTeams : Option JudgedTeams
  root : Root

def Session.launch (currentUser : Option JudgeId) (root : Root) : Session :=
  ⟨currentUser, none, root⟩

/-- A change is any new value of a judge's node, the empty one being its deletion. -/
inductive SessionEvent where
  | signIn (judgeId : JudgeId)
  | logOut
  | access
  | change (judgeId : JudgeId) (entries : List (String × Int))
  | deliver
  deriving DecidableEq

/-- `none` where the event cannot happen. Neither a sign-in nor a log-out touches
the cache. -/
def nextSession (session : Session) : SessionEvent → Option Session
  | .signIn judgeId =>
      if session.currentUser.isNone then some { session with currentUser := some judgeId } else none
  | .logOut => session.currentUser.map fun _ => { session with currentUser := none }
  | .access => session.currentUser.map fun judgeId =>
      { session with
        judgedTeams := some (session.judgedTeams.getD (.create session.root judgeId)) }
  | .change judgeId entries =>
      let root := session.root.setJudgedTeams judgeId entries
      some { session with
        root, judgedTeams := session.judgedTeams.map fun shared => shared.notify root judgeId }
  | .deliver => (session.judgedTeams.bind JudgedTeams.deliver).map fun shared =>
      { session with judgedTeams := some shared }

/-- The signed-in judge's permissions are decided from the judge's own log. -/
def CacheBelongs (session : Session) : Prop :=
  ∀ judgeId ∈ session.currentUser, ∀ shared ∈ session.judgedTeams, shared.pending = [] →
    ∀ teamId, teamId ∈ shared.judgedTeamIds ↔ teamId ∈ loggedTeamIds session.root judgeId

/-- A sign-in is by the judge whose cache there is, if there is one, and a change
does not delete the node that it observes. -/
def KeepsCache (session : Session) : SessionEvent → Prop
  | .signIn judgeId => ∀ shared ∈ session.judgedTeams, judgeId = shared.judgeId
  | .change judgeId entries => ∀ shared ∈ session.judgedTeams, judgeId = shared.judgeId →
      entries = [] → session.root.judgedTeams judgeId = []
  | _ => True

/-- The cache is that of the signed-in judge, and once what is pending has been
delivered it is the log. -/
structure SessionFollows (session : Session) : Prop where
  owner : ∀ judgeId ∈ session.currentUser, ∀ shared ∈ session.judgedTeams,
    judgeId = shared.judgeId
  log : ∀ shared ∈ session.judgedTeams,
    shared.settled = loggedTeamIds session.root shared.judgeId

theorem SessionFollows.launch (currentUser : Option JudgeId) (root : Root) :
    SessionFollows (.launch currentUser root) := ⟨nofun, nofun⟩

theorem SessionFollows.belongs {session : Session} (h : SessionFollows session) :
    CacheBelongs session := by
  intro judgeId hUser shared hShared hPending teamId
  rw [h.owner judgeId hUser shared hShared, ← h.log shared hShared,
    JudgedTeams.settled_of_pending_nil hPending]

theorem SessionFollows.access {session : Session} (h : SessionFollows session) {judgeId : JudgeId}
    (hUser : session.currentUser = some judgeId) :
    SessionFollows { session with
      judgedTeams := some (session.judgedTeams.getD (.create session.root judgeId)) } := by
  cases hShared : session.judgedTeams with
  | none =>
      constructor
      · rintro k hk shared ⟨⟩
        exact (Option.some.inj (hUser.symm.trans hk)).symm
      · rintro shared ⟨⟩
        exact JudgedTeams.settled_create session.root judgeId
  | some shared =>
      exact ⟨fun k hk _ h' => h.owner k hk _ (hShared.trans h'), fun _ h' => h.log _ (hShared.trans h')⟩

theorem SessionFollows.change {session : Session} (h : SessionFollows session) {judgeId : JudgeId}
    {entries : List (String × Int)} (hKeeps : KeepsCache session (.change judgeId entries)) :
    SessionFollows { session with
      root := session.root.setJudgedTeams judgeId entries
      judgedTeams := session.judgedTeams.map fun shared =>
        shared.notify (session.root.setJudgedTeams judgeId entries) judgeId } := by
  constructor
  · intro k hk after hAfter
    obtain ⟨shared, hShared, rfl⟩ := Option.map_eq_some_iff.mp hAfter
    rw [JudgedTeams.notify_judgeId]
    exact h.owner k hk shared hShared
  · intro after hAfter
    obtain ⟨shared, hShared, rfl⟩ := Option.map_eq_some_iff.mp hAfter
    rw [JudgedTeams.notify_judgeId]
    by_cases hOwner : judgeId = shared.judgeId
    · subst hOwner
      by_cases hEmpty : entries = []
      · subst hEmpty
        have hLogged := loggedTeamIds_setJudgedTeams session.root shared.judgeId []
        rw [JudgedTeams.settled_notify_of_nil hLogged, hLogged, h.log shared hShared, loggedTeamIds,
          hKeeps shared hShared rfl rfl]
      · refine JudgedTeams.settled_notify ?_
        rwa [loggedTeamIds_setJudgedTeams, ne_eq, List.map_eq_nil_iff]
    · rw [JudgedTeams.notify_of_ne hOwner, loggedTeamIds_setJudgedTeams_of_ne (Ne.symm hOwner)]
      exact h.log shared hShared

theorem SessionFollows.step {session after : Session} {event : SessionEvent}
    (h : SessionFollows session) (hKeeps : KeepsCache session event)
    (hNext : nextSession session event = some after) : SessionFollows after := by
  cases event with
  | signIn judgeId =>
      obtain ⟨_, hAfter⟩ := Option.ite_none_right_eq_some.mp hNext
      cases hAfter
      refine ⟨?_, h.log⟩
      rintro k ⟨⟩ shared hShared
      exact hKeeps shared hShared
  | logOut =>
      obtain ⟨_, _, rfl⟩ := Option.map_eq_some_iff.mp hNext
      exact ⟨nofun, h.log⟩
  | access =>
      obtain ⟨judgeId, hUser, rfl⟩ := Option.map_eq_some_iff.mp hNext
      exact h.access hUser
  | change judgeId entries =>
      cases hNext
      exact h.change hKeeps
  | deliver =>
      obtain ⟨delivered, hDelivered, rfl⟩ := Option.map_eq_some_iff.mp hNext
      obtain ⟨shared, hShared, hDeliver⟩ := Option.bind_eq_some_iff.mp hDelivered
      obtain ⟨hSettled, hJudge⟩ := JudgedTeams.settled_deliver hDeliver
      constructor
      · rintro k hk _ ⟨⟩
        rw [hJudge]
        exact h.owner k hk shared hShared
      · rintro _ ⟨⟩
        rw [hSettled, hJudge]
        exact h.log shared hShared

/-- In a run of one process whose sign-ins are all by the judge of the cache and
whose changes never delete the node that it observes, the cache is the signed-in
judge's in every state. -/
theorem cache_belongs_of_kept {currentUser : Option JudgeId} {root : Root}
    {events : List SessionEvent}
    (hKept : Along nextSession KeepsCache (.launch currentUser root) events) :
    Throughout nextSession CacheBelongs (.launch currentUser root) events := by
  have hThroughout : Throughout nextSession SessionFollows (.launch currentUser root) events :=
    throughout_of_along nextSession (fun _ _ _ h hKeeps hNext => h.step hKeeps hNext) hKept
      (.launch currentUser root)
  exact hThroughout.mono nextSession fun _ h => h.belongs

/-- Everything pending has been delivered. -/
def Session.settled (session : Session) : Session :=
  { session with
    judgedTeams := session.judgedTeams.map fun shared => ⟨shared.judgeId, shared.settled, []⟩ }

theorem exists_settled (session : Session) :
    ∃ deliveries, Along nextSession KeepsCache session deliveries ∧
      run nextSession session deliveries = some session.settled := by
  obtain ⟨currentUser, judgedTeams, root⟩ := session
  cases judgedTeams with
  | none => exact ⟨[], trivial, rfl⟩
  | some shared =>
      obtain ⟨judgeId, judgedTeamIds, pending⟩ := shared
      induction pending generalizing judgedTeamIds with
      | nil => exact ⟨[], trivial, rfl⟩
      | cons teamIds pending ih =>
          obtain ⟨deliveries, hAlong, hRun⟩ := ih (JudgedTeams.receive judgedTeamIds teamIds)
          refine ⟨.deliver :: deliveries, ⟨trivial, fun m hNext => ?_⟩, hRun⟩
          cases hNext
          exact hAlong

/-- After a sign-in by another judge a team that the cache does not know can be
added to that judge's log. -/
theorem foreign_cache_of_signIn {session : Session} {judgeId : JudgeId} {shared : JudgedTeams}
    (hUser : session.currentUser = some judgeId) (hShared : session.judgedTeams = some shared)
    (hForeign : judgeId ≠ shared.judgeId) :
    ∃ rest final, Along nextSession KeepsCache session rest ∧
      run nextSession session rest = some final ∧ ¬CacheBelongs final := by
  obtain ⟨deliveries, hAlong, hRun⟩ := exists_settled session
  obtain ⟨teamId, hNew⟩ := Infinite.exists_notMem_finset shared.settled.toFinset
  refine ⟨deliveries ++ [.change judgeId [("", teamId)]], _, ?_,
    (run_append_eq_some nextSession).mpr ⟨_, hRun, rfl⟩, fun hBelongs => hNew ?_⟩
  · exact (along_append nextSession).mpr ⟨hAlong, fun m _ => ⟨nofun, fun _ _ => trivial⟩⟩
  · have hKnown := hBelongs judgeId hUser ⟨shared.judgeId, shared.settled, []⟩
      (by simp [Session.settled, hShared, JudgedTeams.notify, hForeign]) rfl teamId
    rw [loggedTeamIds_setJudgedTeams] at hKnown
    exact List.mem_toFinset.mpr (hKnown.mpr (by simp))

/-- After the observed node has been deleted the cache keeps what the log has lost. -/
theorem stale_cache_of_deletion {session : Session} (shared : JudgedTeams)
    (hOwner : ∀ judgeId ∈ session.currentUser, judgeId = shared.judgeId)
    (hShared : session.judgedTeams = some shared) (hKeeps : shared.settled ≠ [])
    (hDeleted : loggedTeamIds session.root shared.judgeId = []) :
    ∃ rest final, Along nextSession KeepsCache session rest ∧
      run nextSession session rest = some final ∧ ¬CacheBelongs final := by
  obtain ⟨deliveries, hAlong, hRun⟩ := exists_settled session
  obtain ⟨teamId, hStale⟩ := List.exists_mem_of_ne_nil _ hKeeps
  have hSettled : session.settled.judgedTeams = some ⟨shared.judgeId, shared.settled, []⟩ := by
    simp [Session.settled, hShared]
  have hWrong : ¬CacheBelongs { session.settled with currentUser := some shared.judgeId } := by
    intro hBelongs
    have hLogged := (hBelongs _ rfl _ hSettled rfl teamId).mp hStale
    exact List.not_mem_nil (hDeleted ▸ hLogged)
  cases hUser : session.currentUser with
  | some judgeId =>
      refine ⟨deliveries, session.settled, hAlong, hRun, ?_⟩
      have hJudge : session.settled.currentUser = some shared.judgeId :=
        hUser.trans (congrArg some (hOwner judgeId hUser))
      rwa [← hJudge] at hWrong
  | none =>
      have hNext : nextSession session.settled (.signIn shared.judgeId) =
          some { session.settled with currentUser := some shared.judgeId } := by
        simp [nextSession, Session.settled, hUser]
      refine ⟨deliveries ++ [.signIn shared.judgeId], _, ?_,
        (run_append_eq_some nextSession).mpr ⟨_, hRun, ?_⟩, hWrong⟩
      · refine (along_append nextSession).mpr ⟨hAlong, fun m hm => ⟨fun after hAfter => ?_, fun _ _ => trivial⟩⟩
        obtain rfl := Option.some.inj (hRun.symm.trans hm)
        obtain rfl := Option.some.inj (hSettled.symm.trans hAfter)
        rfl
      · exact (run_cons_eq_some nextSession).mpr ⟨_, hNext, rfl⟩

/-- Any other sign-in or deletion lets harmless events follow that end in a state
where the signed-in judge's cache is not the judge's log. -/
theorem exists_wrong_cache {session after : Session} {event : SessionEvent}
    (h : SessionFollows session) (hNext : nextSession session event = some after)
    (hNotKept : ¬KeepsCache session event) :
    ∃ rest final, Along nextSession KeepsCache after rest ∧
      run nextSession after rest = some final ∧ ¬CacheBelongs final := by
  cases event with
  | signIn judgeId =>
      obtain ⟨_, hAfter⟩ := Option.ite_none_right_eq_some.mp hNext
      simp only [KeepsCache, not_forall] at hNotKept
      obtain ⟨shared, hShared, hForeign⟩ := hNotKept
      cases hAfter
      exact foreign_cache_of_signIn rfl hShared hForeign
  | change judgeId entries =>
      simp only [KeepsCache, not_forall] at hNotKept
      obtain ⟨shared, hShared, rfl, rfl, hLogged⟩ := hNotKept
      have hNil := loggedTeamIds_setJudgedTeams session.root shared.judgeId []
      cases hNext
      refine stale_cache_of_deletion (shared.notify _ shared.judgeId) ?_
        (by rw [hShared]; rfl) ?_ ?_
      · intro k hk
        rw [JudgedTeams.notify_judgeId]
        exact h.owner k hk shared hShared
      · rw [JudgedTeams.settled_notify_of_nil hNil, h.log shared hShared, loggedTeamIds, ne_eq,
          List.map_eq_nil_iff]
        exact hLogged
      · rw [JudgedTeams.notify_judgeId, hNil]
        rfl
  | _ => exact absurd trivial hNotKept

namespace Contest

/-- Judge A scores team 7 and logs out, and judge B takes the device. -/
def deviceHandedOver : List SessionEvent :=
  [.signIn judgeA, .access, .deliver, .change judgeA [("-M1", 7)], .deliver, .logOut, .signIn judgeB]

/-- Judge B is treated as having scored team 7. -/
theorem deviceHandedOver_foreign :
    ∃ final, run nextSession (.launch none threeTeams) deviceHandedOver = some final ∧
      ¬CacheBelongs final := by
  refine ⟨_, rfl, fun hBelongs => ?_⟩
  have hScored := (hBelongs judgeB rfl _ rfl rfl 7).mp (List.mem_singleton_self _)
  exact List.not_mem_nil hScored

/-- The same device handed back to judge A. -/
theorem deviceHandedBack_belongs :
    Throughout nextSession CacheBelongs (.launch none threeTeams)
      [.signIn judgeA, .access, .deliver, .logOut, .signIn judgeA] := by
  refine cache_belongs_of_kept ⟨nofun, ?_⟩
  rintro _ ⟨⟩
  refine ⟨trivial, ?_⟩
  rintro _ ⟨⟩
  refine ⟨trivial, ?_⟩
  rintro _ ⟨⟩
  refine ⟨trivial, ?_⟩
  rintro _ ⟨⟩
  refine ⟨?_, fun _ _ => trivial⟩
  rintro _ ⟨⟩
  rfl

end Contest

end CICJudging
