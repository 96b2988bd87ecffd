import Mathlib

/-! The root of the database as the cloud functions and the app see it. Absent
nodes and empty nodes are the same in this database, so a missing queue is the
empty list and a missing `judgeAssigned` entry is `none`. -/
namespace CICJudging

/-- The child of `judgingQueue` that is not a judge's list. -/
def judgeAssignedKey : String := "judgeAssigned"

/-- Judges are keyed by the last ten characters of a phone number, so no key is a
name that every JavaScript object has, such as `toString`. A judge's list is stored
beside `judgeAssigned`, so that key is not a judge. -/
structure JudgeId where
  key : String
  ne_judgeAssigned : key ≠ judgeAssignedKey
  deriving DecidableEq

/-- The fields of a judge record that the functions read. -/
structure Judge where
  affinityGroup : Option String
  deriving DecidableEq

/-- A value under a team record's own `scores` key. Only an array has a length. -/
inductive OwnScores where
  | array (length : Nat)
  | object
  deriving DecidableEq

/-- The fields of a team record that the functions read; each may be missing. The
ids are exact as JavaScript numbers, at most 2 ^ 53 in size. -/
structure Team where
  affinityGroup : Option String
  teamId : Option Int
  scores : Option OwnScores
  deriving DecidableEq

/-- The record that a judge submits for a team. -/
structure ScoresData where
  innovation : Int
  presentation : Int
  usability : Int
  viability : Int
  notes : String
  deriving DecidableEq

/-- The two switches of the organisers. -/
structure ConfigurationData where
  allowEdits : Int
  allowSubmissions : Int
  deriving DecidableEq

/-- The object key of a numeric team id. -/
def teamKey (teamId : Int) : String := teamId.repr

theorem teamKey_injective : Function.Injective teamKey := fun _ _ h => Int.repr_injective h

@[simp] theorem teamKey_inj {a b : Int} : teamKey a = teamKey b ↔ a = b := teamKey_injective.eq_iff

/-- The `judgingQueue` node: one list of team ids for each judge, and the judge
that claimed a team for each claimed team key. -/
structure JudgingQueue where
  queues : JudgeId → List Int
  judgeAssigned : String → Option JudgeId

def JudgingQueue.empty : JudgingQueue := ⟨fun _ => [], fun _ => none⟩

/-- `teams` lists the children in the order in which `for (const teamID in teams)`
visits them. Distinct children have distinct keys. -/
structure Root where
  judges : List (JudgeId × Judge)
  teams : List (String × Team)
  teams_nodup : (teams.map Prod.fst).Nodup
  judgingQueue : JudgingQueue
  scores : String → Finmap fun _ : JudgeId => ScoresData
  judgedTeams : JudgeId → List (String × Int)

namespace Root

def setJudgingQueue (root : Root) (queue : JudgingQueue) : Root :=
  { root with judgingQueue := queue }

/-- `scores/<team>/<judge>` set to a record. -/
def setScores (root : Root) (teamId : Int) (judgeId : JudgeId) (scores : ScoresData) : Root :=
  { root with
    scores := Function.update root.scores (teamKey teamId)
      ((root.scores (teamKey teamId)).insert judgeId scores) }

/-- A child of `judgedTeams/<judge>` set to a team id, under its own key. -/
def pushJudgedTeam (root : Root) (judgeId : JudgeId) (autoId : String) (teamId : Int) : Root :=
  { root with
    judgedTeams := Function.update root.judgedTeams judgeId
      (root.judgedTeams judgeId ++ [(autoId, teamId)]) }

/-- The number of judges with a record under `scores/<team>`. -/
def scoreCount (root : Root) (teamID : String) : Nat := (root.scores teamID).keys.card

/-- Every record is stored under its own id. -/
def Keyed (root : Root) : Prop :=
  ∀ entry ∈ root.teams, ∃ teamId, entry.2.teamId = some teamId ∧ entry.1 = teamKey teamId

@[simp] theorem setJudgingQueue_judgingQueue (root : Root) (queue : JudgingQueue) :
    (root.setJudgingQueue queue).judgingQueue = queue := rfl

@[simp] theorem setScores_judgedTeams (root : Root) (teamId : Int) (judgeId : JudgeId)
    (scores : ScoresData) :
    (root.setScores teamId judgeId scores).judgedTeams = root.judgedTeams := rfl

@[simp] theorem pushJudgedTeam_scores (root : Root) (judgeId : JudgeId) (autoId : String)
    (teamId : Int) : (root.pushJudgedTeam judgeId autoId teamId).scores = root.scores := rfl

/-- A judge has a record for a team after a submission if it had one before or
the submission is that record. -/
theorem mem_setScores {root : Root} {teamId : Int} {judgeId k : JudgeId} {scores : ScoresData}
    {teamID : String} :
    k ∈ (root.setScores teamId judgeId scores).scores teamID ↔
      (teamID = teamKey teamId ∧ k = judgeId) ∨ k ∈ root.scores teamID := by
  by_cases hKey : teamID = teamKey teamId
  · subst hKey
    simp [setScores, Finmap.mem_insert]
  · simp [setScores, hKey]

end Root

namespace Contest

def judgeA : JudgeId := ⟨"4045550101", by decide⟩

def judgeB : JudgeId := ⟨"4045550102", by decide⟩

def record (teamId : Int) : String × Team := (teamKey teamId, ⟨some "Health", some teamId, none⟩)

/-- Two judges without a preferred group and one team for each id. -/
def root (ids : List Int) (hNodup : ids.Nodup) (queue : JudgingQueue) : Root where
  judges := [(judgeA, ⟨some "None"⟩), (judgeB, ⟨some "None"⟩)]
  teams := ids.map record
  teams_nodup := by
    rw [List.map_map]
    exact hNodup.map teamKey_injective
  judgingQueue := queue
  scores := fun _ => ∅
  judgedTeams := fun _ => []

theorem root_keyed (ids : List Int) (hNodup : ids.Nodup) (queue : JudgingQueue) :
    (root ids hNodup queue).Keyed := by
  intro entry hMem
  obtain ⟨teamId, _, rfl⟩ := List.mem_map.mp hMem
  exact ⟨teamId, rfl, rfl⟩

def threeTeams : Root := root [1, 2, 3] (by decide) .empty

def fourTeams : Root := root [1, 2, 3, 4] (by decide) .empty

theorem threeTeams_keyed : threeTeams.Keyed := root_keyed _ _ _

theorem fourTeams_keyed : fourTeams.Keyed := root_keyed _ _ _

end Contest

end CICJudging
