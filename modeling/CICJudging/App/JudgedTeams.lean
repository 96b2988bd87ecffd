import CICJudging.App.JudgedLog

/-! The cache `JudgedTeams.shared`. The first access creates it for the judge who
is signed in then, and it stays for as long as the process does. -/
namespace CICJudging

/-- `pending` lists the snapshots that the observer has still to receive, oldest
first; an empty one is a node that does not exist. -/
structure JudgedTeams where
  judgeId : JudgeId
  judgedTeamIds : List Int
  pending : List (List Int)

namespace JudgedTeams

/-- `init` registers the observer, which will first be sent the log as it is. -/
def create (root : Root) (judgeId : JudgeId) : JudgedTeams :=
  ⟨judgeId, [], [loggedTeamIds root judgeId]⟩

/-- The observer takes over the values of a map and ignores anything else. -/
def receive (judgedTeamIds teamIds : List Int) : List Int :=
  if teamIds = [] then judgedTeamIds else teamIds

def deliver (shared : JudgedTeams) : Option JudgedTeams :=
  match shared.pending with
  | [] => none
  | teamIds :: pending =>
      some { shared with judgedTeamIds := receive shared.judgedTeamIds teamIds, pending }

/-- The log of some judge has changed; only the judge of the path matters. -/
def notify (shared : JudgedTeams) (root : Root) (judgeId : JudgeId) : JudgedTeams :=
  if judgeId = shared.judgeId then
    { shared with pending := shared.pending ++ [loggedTeamIds root judgeId] }
  else shared

/-- The ids once all that is pending has been delivered. -/
def settled (shared : JudgedTeams) : List Int :=
  shared.pending.foldl receive shared.judgedTeamIds

theorem settled_create (root : Root) (judgeId : JudgeId) :
    (create root judgeId).settled = loggedTeamIds root judgeId := by
  by_cases h : loggedTeamIds root judgeId = [] <;> simp [settled, create, receive, h]

theorem settled_deliver {shared after : JudgedTeams} (h : shared.deliver = some after) :
    after.settled = shared.settled ∧ after.judgeId = shared.judgeId := by
  unfold deliver at h
  split at h
  · cases h
  · next teamIds pending hPending =>
      cases h
      simp [settled, hPending]

theorem settled_of_pending_nil {shared : JudgedTeams} (h : shared.pending = []) :
    shared.settled = shared.judgedTeamIds := by
  simp [settled, h]

@[simp] theorem notify_judgeId (shared : JudgedTeams) (root : Root) (judgeId : JudgeId) :
    (shared.notify root judgeId).judgeId = shared.judgeId := by
  unfold notify
  split_ifs <;> rfl

theorem settled_notify {shared : JudgedTeams} {root : Root}
    (h : loggedTeamIds root shared.judgeId ≠ []) :
    (shared.notify root shared.judgeId).settled = loggedTeamIds root shared.judgeId := by
  simp [settled, notify, receive, h]

/-- A deleted node leaves the ids as they are. -/
theorem settled_notify_of_nil {shared : JudgedTeams} {root : Root}
    (h : loggedTeamIds root shared.judgeId = []) :
    (shared.notify root shared.judgeId).settled = shared.settled := by
  simp [settled, notify, receive, h]

theorem notify_of_ne {shared : JudgedTeams} {judgeId : JudgeId} (hne : judgeId ≠ shared.judgeId)
    (root : Root) : shared.notify root judgeId = shared := if_neg hne

end JudgedTeams

end CICJudging
