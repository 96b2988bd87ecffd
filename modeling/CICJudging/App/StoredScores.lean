import CICJudging.App.Decodables
import CICJudging.App.JudgedLog
import CICJudging.App.ScoringScreen
import CICJudging.Database.Node
import CICJudging.Library.Text

/-! The score records in the tree of nodes. What the two writes of a submission make of
the tree is what the submission makes of the root. -/
namespace CICJudging

open Text
open FNode (Pruned Write leafAt_emptyNode)

theorem isDigit_of_mem_toDigits {n : Nat} {c : Char} (h : c ∈ Nat.toDigits 10 n) :
    c.isDigit = true :=
  Nat.isDigit_of_mem_toDigits (by decide) (by decide) h

theorem mem_teamKey {teamId : Int} {c : Char} (h : c ∈ (teamKey teamId).toList) :
    c = '-' ∨ c.isDigit = true := by
  cases teamId with
  | ofNat n =>
      rw [Int.ofNat_eq_natCast, teamKey_natCast] at h
      exact .inr (isDigit_of_mem_toDigits h)
  | negSucc n =>
      rw [teamKey_negSucc, List.mem_cons] at h
      exact h.imp_right isDigit_of_mem_toDigits

theorem utf16_replicate_zero (n : Nat) : utf16 (List.replicate n '0') = zeros n := by
  induction n with
  | zero => rfl
  | succ n ih =>
      rw [zeros, List.replicate_succ, List.replicate_succ, ← zeros, ← ih]
      rfl

/-- A team's key is no zero with a sign. -/
theorem not_zeroPair_teamKey (teamId : Int) (b : NSString) :
    ¬ZeroPair (utf16 (teamKey teamId).toList) b := by
  rintro ⟨n, hPos, -, hText, -⟩
  obtain ⟨n, rfl⟩ := Nat.exists_eq_succ_of_ne_zero hPos.ne'
  have hKey : (teamKey teamId).toList = '-' :: '0' :: List.replicate n '0' := by
    refine utf16_injective (hText.trans ?_)
    rw [← utf16_replicate_zero]
    rfl
  cases teamId with
  | ofNat m =>
      rw [Int.ofNat_eq_natCast, teamKey_natCast] at hKey
      have hSign : '-' ∈ Nat.toDigits 10 m := hKey ▸ List.mem_cons_self ..
      exact absurd (isDigit_of_mem_toDigits hSign) (by decide)
  | negSucc m =>
      rw [teamKey_negSucc, List.cons.injEq] at hKey
      have hHead : (Nat.toDigits 10 (m + 1)).head? = some '0' := hKey.2 ▸ rfl
      exact absurd (head_toDigits_eq_zero hHead) (Nat.succ_ne_zero m)

/-- The keys of two teams never tie. -/
theorem keyOrder_teamKey {a b : Int} (h : keyOrder (teamKey a) (teamKey b) = .eq) : a = b := by
  rcases compareNames_eq_iff.mp h with hSame | hPair | hPair
  · exact teamKey_injective (String.toList_injective (utf16_injective hSame))
  · exact absurd hPair (not_zeroPair_teamKey a _)
  · exact absurd hPair (not_zeroPair_teamKey b _)

theorem teamKey_ne_priority (teamId : Int) : teamKey teamId ≠ priorityName := by
  intro h
  have hDot : '.' ∈ (teamKey teamId).toList := by rw [h]; decide
  rcases mem_teamKey hDot with h | h <;> revert h <;> decide

def ScoreValue.leafValue : ScoreValue → LeafValue
  | int score => .number score
  | string note => .string note

def ScoringCriterion.childName (criterion : ScoringCriterion) : ChildName :=
  ⟨criterion.rawValue, by cases criterion <;> decide⟩

/-- A node with the five values, as `setValue` makes one of the dictionary of scores. -/
structure RecordNode (scores : ScoresData) where
  node : FNode
  pruned : Pruned node
  leafAt : ∀ criterion : ScoringCriterion,
    node.leafAt [criterion.childName] = some (scores.value criterion).leafValue

theorem scores_ne_priority : "scores" ≠ priorityName := by decide

theorem judgedTeams_ne_priority : "judgedTeams" ≠ priorityName := by decide

/-- Judges whose keys name a child each. -/
structure Panel (Seat : Type*) where
  judgeId : Seat → JudgeId
  ne_priority : ∀ seat, (judgeId seat).key ≠ priorityName
  apart : ∀ first second, keyOrder (judgeId first).key (judgeId second).key = .eq → first = second

namespace Panel

variable {Seat : Type*} (panel : Panel Seat)

def name (seat : Seat) : ChildName := ⟨(panel.judgeId seat).key, panel.ne_priority seat⟩

theorem judgeId_inj {first second : Seat} (h : panel.judgeId first = panel.judgeId second) :
    first = second :=
  panel.apart first second (h ▸ keyOrder_self _)

/-- `scores/<team>/<judge>` -/
def scoresPath (teamId : Int) (seat : Seat) : List ChildName :=
  [⟨"scores", scores_ne_priority⟩, ⟨teamKey teamId, teamKey_ne_priority teamId⟩, panel.name seat]

/-- `judgedTeams/<judge>/<autoId>` -/
def judgedTeamsPath (seat : Seat) (autoId : ChildName) : List ChildName :=
  [⟨"judgedTeams", judgedTeams_ne_priority⟩, panel.name seat, autoId]

/-- The place of a value in another record. -/
theorem apart_scoresPath {teamId other : Int} {seat seat' : Seat} (criterion : ChildName)
    (h : ¬(other = teamId ∧ seat' = seat)) :
    PathStore.Apart (panel.scoresPath teamId seat)
      (panel.scoresPath other seat' ++ [criterion]) := by
  have hNames : ¬((⟨teamKey other, teamKey_ne_priority other⟩ : ChildName) ≈
        ⟨teamKey teamId, teamKey_ne_priority teamId⟩ ∧ panel.name seat' ≈ panel.name seat) :=
    fun hSame => h ⟨keyOrder_teamKey hSame.1, panel.apart seat' seat hSame.2⟩
  constructor
  · simp only [scoresPath, PathStore.rest, List.cons_append, List.nil_append]
    split_ifs with hScores hTeam hJudge
    · exact absurd ⟨hTeam, hJudge⟩ hNames
    all_goals rfl
  · simp only [scoresPath, PathStore.rest, List.cons_append, List.nil_append]
    split_ifs <;> rfl

theorem apart_judgedTeamsPath (seat seat' : Seat) (autoId criterion : ChildName) (teamId : Int) :
    PathStore.Apart (panel.judgedTeamsPath seat autoId)
      (panel.scoresPath teamId seat' ++ [criterion]) := by
  have hNe : ¬(⟨"scores", scores_ne_priority⟩ : ChildName) ≈
      ⟨"judgedTeams", judgedTeams_ne_priority⟩ := by decide +kernel
  exact ⟨if_neg hNe, if_neg fun hSame => hNe (Setoid.symm hSame)⟩

end Panel

/-- A judge's submission, with the node of its record. -/
structure Submitted (Seat : Type*) where
  seat : Seat
  submission : Submission
  record : RecordNode submission.scores
  autoId_ne : submission.autoId ≠ priorityName

section Submitted

variable {Seat : Type*} (panel : Panel Seat)

/-- Both `setValue` calls. -/
def Submitted.writes (s : Submitted Seat) : List Write :=
  [⟨panel.scoresPath s.submission.teamId s.seat, s.record.node, s.record.pruned⟩,
    ⟨panel.judgedTeamsPath s.seat ⟨s.submission.autoId, s.autoId_ne⟩,
      .leaf (.number s.submission.teamId) .emptyNode, .ofLeaf⟩]

def Submitted.apply (root : Root) (s : Submitted Seat) : Root :=
  s.submission.apply (panel.judgeId s.seat) root

/-- The tree has the values of the records of the root, and none where there is no record. -/
def StoresScores (root : Root) (n : FNode) : Prop :=
  ∀ (teamId : Int) (seat : Seat) (criterion : ScoringCriterion),
    n.leafAt (panel.scoresPath teamId seat ++ [criterion.childName]) =
      ((root.scores (teamKey teamId)).lookup (panel.judgeId seat)).map fun scores =>
        (scores.value criterion).leafValue

variable {panel} {root : Root} {n : FNode}

theorem StoresScores.empty : StoresScores panel .empty .emptyNode := by
  intro teamId seat criterion
  rw [leafAt_emptyNode]
  rfl

theorem lookup_apply_self (s : Submitted Seat) :
    ((s.apply panel root).scores (teamKey s.submission.teamId)).lookup (panel.judgeId s.seat) =
      some s.submission.scores := by
  simp [Submitted.apply, Submission.apply, Root.setScores]

theorem lookup_apply_of_ne (s : Submitted Seat) {teamId : Int} {seat : Seat}
    (h : ¬(teamId = s.submission.teamId ∧ seat = s.seat)) :
    ((s.apply panel root).scores (teamKey teamId)).lookup (panel.judgeId seat) =
      (root.scores (teamKey teamId)).lookup (panel.judgeId seat) := by
  by_cases hTeam : teamId = s.submission.teamId
  · have hJudge : panel.judgeId seat ≠ panel.judgeId s.seat :=
      fun hSame => h ⟨hTeam, panel.judgeId_inj hSame⟩
    simp [Submitted.apply, Submission.apply, Root.setScores, hTeam,
      Finmap.lookup_insert_of_ne _ hJudge]
  · simp [Submitted.apply, Submission.apply, Root.setScores, hTeam]

/-- The two writes of a submission raise nothing and keep tree and root in agreement. -/
theorem StoresScores.submit (hPruned : Pruned n) (h : StoresScores panel root n)
    (s : Submitted Seat) :
    ∃ n', Transition.run Write.apply n (s.writes panel) = some n' ∧ Pruned n' ∧
      StoresScores panel (s.apply panel root) n' := by
  obtain ⟨m, hRecord, hBetween, hLeaves⟩ := FNode.updateChild_spec hPruned s.record.pruned
    (panel.scoresPath s.submission.teamId s.seat)
  obtain ⟨n', hLog, hAfter, hLogged⟩ := FNode.updateChild_spec hBetween
    (@Pruned.ofLeaf (.number s.submission.teamId) .emptyNode)
    (panel.judgedTeamsPath s.seat ⟨s.submission.autoId, s.autoId_ne⟩)
  refine ⟨n', ?_, hAfter, fun teamId seat criterion => ?_⟩
  · exact (Transition.run_cons_eq_some _).mpr
      ⟨m, hRecord, (Transition.run_cons_eq_some _).mpr ⟨n', hLog, rfl⟩⟩
  · rw [hLogged, PathStore.graft_of_apart (panel.apart_judgedTeamsPath ..), hLeaves]
    by_cases hSame : teamId = s.submission.teamId ∧ seat = s.seat
    · obtain ⟨rfl, rfl⟩ := hSame
      rw [PathStore.graft_below, s.record.leafAt, lookup_apply_self, Option.map_some]
    · rw [PathStore.graft_of_apart (panel.apart_scoresPath _ hSame), h, lookup_apply_of_ne s hSame]

/-- Whatever the judges submit, for whatever teams and in whatever order, the tree keeps
the records that the root has. -/
theorem submissions_stored (hPruned : Pruned n) (h : StoresScores panel root n)
    (submissions : List (Submitted Seat)) :
    ∃ n', Transition.run Write.apply n (submissions.flatMap (Submitted.writes panel)) = some n' ∧
      Pruned n' ∧ StoresScores panel (submissions.foldl (Submitted.apply panel) root) n' := by
  induction submissions generalizing root n with
  | nil => exact ⟨n, rfl, hPruned, h⟩
  | cons s submissions ih =>
      obtain ⟨m, hFirst, hBetween, hStored⟩ := h.submit hPruned s
      obtain ⟨n', hRest, hAfter, hFinal⟩ := ih hBetween hStored
      exact ⟨n', (Transition.run_append_eq_some _).mpr ⟨m, hFirst, hRest⟩, hAfter, hFinal⟩

end Submitted

/-- The order of the keys. -/
def criteriaInOrder : List ScoringCriterion :=
  [.innovation, .notes, .presentation, .usability, .viability]

def recordEntry (scores : ScoresData) (criterion : ScoringCriterion) : String × FNode :=
  (criterion.rawValue, .leaf (scores.value criterion).leafValue .emptyNode)

theorem recordEntries_sorted (scores : ScoresData) :
    SortedEntries.Sorted keyOrder (criteriaInOrder.map (recordEntry scores)) := by
  have hKeys : criteriaInOrder.Pairwise fun first second =>
      keyOrder first.rawValue second.rawValue = .lt := by decide +kernel
  exact List.pairwise_map.mpr hKeys

theorem recordEntries_wellFormed (scores : ScoresData) :
    FImmutableSortedDictionary.WellFormed keyOrder
      (.array (criteriaInOrder.map (recordEntry scores))) :=
  ⟨recordEntries_sorted scores, show 5 ≤ 25 by decide⟩

def recordNode (scores : ScoresData) : RecordNode scores where
  node := .node none (.array (criteriaInOrder.map (recordEntry scores)))
  pruned := by
    apply Pruned.ofChildren (recordEntries_wellFormed scores)
    · exact fun hNil => absurd (List.map_eq_nil_iff.mp hNil) (by decide)
    · exact List.forall_mem_map.mpr fun criterion _ => criterion.childName.ne_priority
    · exact List.forall_mem_map.mpr fun _ _ => .ofLeaf
    · exact List.forall_mem_map.mpr fun _ _ => rfl
  leafAt := by
    intro criterion
    have hMem : recordEntry scores criterion ∈ criteriaInOrder.map (recordEntry scores) :=
      List.mem_map_of_mem (by cases criterion <;> decide)
    have hLookup := SortedEntries.lookup_of_mem (recordEntries_sorted scores) hMem
    rw [FNode.leafAt_cons, FNode.getImmediateChild_node,
      FImmutableSortedDictionary.get_eq_lookup (recordEntries_wellFormed scores)]
    exact congrArg (fun child => (child.getD .emptyNode).leafValue) hLookup

namespace Contest

def panel : Panel Bool where
  judgeId seat := if seat then judgeA else judgeB
  ne_priority := by decide
  apart := by decide +kernel

def firstScore : Submitted Bool :=
  ⟨true, ⟨7, ⟨3, 4, 5, 2, "ok"⟩, "-M1"⟩, recordNode _, by decide⟩

def secondScore : Submitted Bool :=
  ⟨false, ⟨7, ⟨1, 1, 1, 1, ""⟩, "-M2"⟩, recordNode _, by decide⟩

theorem scores_stored :
    ∃ n', Transition.run Write.apply .emptyNode
        ([firstScore, secondScore].flatMap (Submitted.writes panel)) = some n' ∧
      Pruned n' ∧
      StoresScores panel ([firstScore, secondScore].foldl (Submitted.apply panel) .empty) n' :=
  submissions_stored .ofEmpty .empty _

end Contest

end CICJudging
