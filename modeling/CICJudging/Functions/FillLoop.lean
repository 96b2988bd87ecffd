import CICJudging.Library.WhileLoop
import CICJudging.Functions.Compare

/-! The while loop that `processAssignedQueue` runs twice, once over the
unassigned teams and once over all eligible teams. The index moves only on the
branch that adds a team, so a team that cannot be added stops all progress. -/
namespace CICJudging

/-- The variables that the loop assigns. -/
structure FillState where
  i : Nat
  judgeAssignedTeams : List Int
  assignedTeams : String → Option JudgeId
  teamsAdded : Int

namespace FillState

/-- The body of the branch that adds a team. -/
def push (judgeId : JudgeId) (s : FillState) (currTeamId : Int) : FillState where
  i := s.i + 1
  judgeAssignedTeams := s.judgeAssignedTeams ++ [currTeamId]
  assignedTeams := Function.update s.assignedTeams (teamKey currTeamId) (some judgeId)
  teamsAdded := s.teamsAdded + 1

def pushAll (judgeId : JudgeId) (s : FillState) (ids : List Int) : FillState :=
  ids.foldl (push judgeId) s

@[simp] theorem pushAll_nil (judgeId : JudgeId) (s : FillState) : s.pushAll judgeId [] = s := rfl

@[simp] theorem pushAll_cons (judgeId : JudgeId) (s : FillState) (id : Int) (ids : List Int) :
    s.pushAll judgeId (id :: ids) = (s.push judgeId id).pushAll judgeId ids := rfl

theorem pushAll_judgeAssignedTeams (judgeId : JudgeId) (s : FillState) (ids : List Int) :
    (s.pushAll judgeId ids).judgeAssignedTeams = s.judgeAssignedTeams ++ ids := by
  induction ids generalizing s with
  | nil => simp
  | cons id ids ih => simp [ih, push]

theorem pushAll_teamsAdded (judgeId : JudgeId) (s : FillState) (ids : List Int) :
    (s.pushAll judgeId ids).teamsAdded = s.teamsAdded + ids.length := by
  induction ids generalizing s with
  | nil => simp
  | cons id ids ih =>
      simp only [pushAll_cons, ih, push, List.length_cons, Nat.cast_add, Nat.cast_one]
      omega

theorem pushAll_assignedTeams (judgeId : JudgeId) (s : FillState) (ids : List Int) (teamID : String) :
    (s.pushAll judgeId ids).assignedTeams teamID =
      if teamID ∈ ids.map teamKey then some judgeId else s.assignedTeams teamID := by
  induction ids generalizing s with
  | nil => simp
  | cons id ids ih =>
      rw [pushAll_cons, ih]
      by_cases hTail : teamID ∈ ids.map teamKey
      · simp [hTail]
      · by_cases hHead : teamID = teamKey id <;> simp [push, hTail, hHead]

end FillState

def fillGuard (candidates : List Team) (teamsToAdd : Int) (s : FillState) : Bool :=
  decide (s.i < candidates.length) && decide (s.teamsAdded < teamsToAdd)

def fillBody (candidates : List Team) (judgeId : JudgeId) (s : FillState) : FillState :=
  match candidates[s.i]?.bind Team.teamId with
  | some currTeamId => if currTeamId ∈ s.judgeAssignedTeams then s else s.push judgeId currTeamId
  | none => s

def fill (candidates : List Team) (judgeId : JudgeId) (teamsToAdd : Int) :
    Nat → FillState → Option FillState :=
  WhileLoop.run (fillGuard candidates teamsToAdd) (fillBody candidates judgeId)

/-- Ids that may be appended to a queue without repeating one. -/
def Fresh (queue ids : List Int) : Prop := ids.Nodup ∧ ∀ id ∈ ids, id ∉ queue

theorem Fresh.nodup_append {queue ids : List Int} (h : Fresh queue ids) (hQueue : queue.Nodup) :
    (queue ++ ids).Nodup :=
  hQueue.append h.1 fun id hq hi => h.2 id hi hq

theorem fresh_cons {queue ids : List Int} {id : Int} :
    Fresh queue (id :: ids) ↔ id ∉ queue ∧ Fresh (queue ++ [id]) ids := by
  simp only [Fresh, List.nodup_cons, List.mem_cons, List.mem_append, List.not_mem_nil, or_false]
  constructor
  · rintro ⟨⟨hHead, hNodup⟩, hAll⟩
    refine ⟨hAll id (Or.inl rfl), hNodup, fun x hx hor => ?_⟩
    rcases hor with hq | rfl
    · exact hAll x (Or.inr hx) hq
    · exact hHead hx
  · rintro ⟨hq, hNodup, hAll⟩
    refine ⟨⟨fun hMem => hAll id hMem (Or.inr rfl), hNodup⟩, fun x hx => ?_⟩
    rcases hx with rfl | hx
    · exact hq
    · exact fun h => hAll x hx (Or.inl h)

theorem fresh_append {queue first second : List Int} :
    Fresh queue (first ++ second) ↔ Fresh queue first ∧ Fresh (queue ++ first) second := by
  induction first generalizing queue with
  | nil => simp [Fresh]
  | cons id first ih =>
      rw [List.cons_append, fresh_cons, ih, fresh_cons, and_assoc, List.append_assoc]
      rfl

/-- The candidates that the loop visits: as many as there is room for, from
the index on. -/
def FillState.window (candidates : List Team) (teamsToAdd : Int) (s : FillState) : List Team :=
  (candidates.drop s.i).take (teamsToAdd - s.teamsAdded).toNat

theorem window_of_not_guard {candidates : List Team} {teamsToAdd : Int} {s : FillState}
    (h : fillGuard candidates teamsToAdd s = false) : s.window candidates teamsToAdd = [] := by
  simp only [fillGuard, Bool.and_eq_false_iff, decide_eq_false_iff_not, not_lt] at h
  unfold FillState.window
  rcases h with hEnd | hFull
  · simp [List.drop_eq_nil_of_le hEnd]
  · simp [show (teamsToAdd - s.teamsAdded).toNat = 0 by omega]

theorem window_of_guard {candidates : List Team} {teamsToAdd : Int} {s : FillState}
    (h : fillGuard candidates teamsToAdd s = true) (judgeId : JudgeId) (id : Int) :
    ∃ team, candidates[s.i]? = some team ∧
      s.window candidates teamsToAdd = team :: (s.push judgeId id).window candidates teamsToAdd := by
  simp only [fillGuard, Bool.and_eq_true, decide_eq_true_eq] at h
  obtain ⟨hIndex, hRoom⟩ := h
  refine ⟨candidates[s.i], List.getElem?_eq_getElem hIndex, ?_⟩
  have hCount : (teamsToAdd - s.teamsAdded).toNat = (teamsToAdd - (s.teamsAdded + 1)).toNat + 1 := by
    omega
  simp only [FillState.window, FillState.push, hCount, List.drop_eq_getElem_cons hIndex,
    List.take_succ_cons]

/-- What a returning loop has done: every candidate it had room for carries an
id, these ids repeat neither each other nor the queue, and all were appended. -/
theorem fill_eq_some {candidates : List Team} {judgeId : JudgeId} {teamsToAdd : Int} {fuel : Nat}
    {s t : FillState} (hRun : fill candidates judgeId teamsToAdd fuel s = some t) :
    ∃ ids, (s.window candidates teamsToAdd).map Team.teamId = ids.map some ∧
      Fresh s.judgeAssignedTeams ids ∧ t = s.pushAll judgeId ids := by
  induction fuel generalizing s with
  | zero => cases hRun
  | succ fuel ih =>
      cases hg : fillGuard candidates teamsToAdd s with
      | false =>
          rw [fill, WhileLoop.run_of_not_guard _ _ hg] at hRun
          cases hRun
          exact ⟨[], by simp [window_of_not_guard hg], ⟨by simp, by simp⟩, rfl⟩
      | true =>
          -- A candidate without a new id leaves the state as it is, for ever.
          have hMoves : fillBody candidates judgeId s ≠ s := fun hStuck => by
            rw [fill, WhileLoop.run_stuck _ _ hg hStuck] at hRun
            cases hRun
          rw [fill, WhileLoop.run_of_guard _ _ hg] at hRun
          obtain ⟨team, hTeam, _⟩ := window_of_guard hg judgeId 0
          cases hId : team.teamId with
          | none => simp [fillBody, hTeam, hId] at hMoves
          | some id =>
              by_cases hMem : id ∈ s.judgeAssignedTeams
              · simp [fillBody, hTeam, hId, hMem] at hMoves
              · have hBody : fillBody candidates judgeId s = s.push judgeId id := by
                  simp [fillBody, hTeam, hId, hMem]
                rw [hBody] at hRun
                obtain ⟨ids, hIds, hFresh, rfl⟩ := ih hRun
                obtain ⟨_, hTeam', hWindow⟩ := window_of_guard hg judgeId id
                obtain rfl := Option.some.inj (hTeam.symm.trans hTeam')
                refine ⟨id :: ids, ?_, fresh_cons.mpr ⟨hMem, hFresh⟩, rfl⟩
                rw [hWindow, List.map_cons, hId, hIds, List.map_cons]

/-- Conversely such candidates are all appended and the loop returns, after one
test for each of them and the one that fails. -/
theorem fill_of_fresh {candidates : List Team} {judgeId : JudgeId} {teamsToAdd : Int}
    {s : FillState} {ids : List Int} {fuel : Nat} (hFuel : ids.length < fuel)
    (hIds : (s.window candidates teamsToAdd).map Team.teamId = ids.map some)
    (hFresh : Fresh s.judgeAssignedTeams ids) :
    fill candidates judgeId teamsToAdd fuel s = some (s.pushAll judgeId ids) := by
  induction ids generalizing s fuel with
  | nil =>
      obtain ⟨fuel, rfl⟩ : ∃ more, fuel = more + 1 := ⟨fuel - 1, by simp at hFuel; omega⟩
      cases hg : fillGuard candidates teamsToAdd s with
      | false => exact WhileLoop.run_of_not_guard _ _ hg fuel
      | true =>
          obtain ⟨_, _, hWindow⟩ := window_of_guard hg judgeId 0
          simp [hWindow] at hIds
  | cons id ids ih =>
      obtain ⟨fuel, rfl⟩ : ∃ more, fuel = more + 1 := ⟨fuel - 1, by simp at hFuel; omega⟩
      cases hg : fillGuard candidates teamsToAdd s with
      | false => simp [window_of_not_guard hg] at hIds
      | true =>
          obtain ⟨team, hTeam, hWindow⟩ := window_of_guard hg judgeId id
          rw [hWindow, List.map_cons, List.map_cons, List.cons.injEq] at hIds
          obtain ⟨hMem, hRest⟩ := fresh_cons.mp hFresh
          have hBody : fillBody candidates judgeId s = s.push judgeId id := by
            simp [fillBody, hTeam, hIds.1, hMem]
          rw [fill, WhileLoop.run_of_guard _ _ hg, hBody]
          exact ih (by simp at hFuel; omega) hIds.2 hRest

end CICJudging
