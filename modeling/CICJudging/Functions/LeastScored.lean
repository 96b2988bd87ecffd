import CICJudging.Functions.FillTermination

/-! Which teams are handed out first. The comparator looks for `scores` inside
the team record, but the scores of all judges are a tree of their own. -/
namespace CICJudging

/-- An unassigned team that the judge may be given and does not hold yet. -/
structure Candidate (root : Root) (judgeId : JudgeId) (entry : String × Team) : Prop where
  eligible : Eligible root judgeId entry
  unassigned : root.judgingQueue.judgeAssigned entry.1 = none
  notHeld : ∀ id ∈ entry.2.teamId, id ∉ root.judgingQueue.queues judgeId

/-- The team is in the queue after the call and was not before. -/
def Appended (root : Root) (judgeId : JudgeId) (response : Response) (team : Team) : Prop :=
  ∃ id ∈ team.teamId, id ∈ response.teams ∧ id ∉ root.judgingQueue.queues judgeId

/-- No candidate is left out for one that more judges have scored. -/
def LeastScoredFirst (root : Root) (judgeId : JudgeId) (response : Response) : Prop :=
  ∀ entry other, Candidate root judgeId entry → Candidate root judgeId other →
    Appended root judgeId response entry.2 → ¬Appended root judgeId response other.2 →
    root.scoreCount entry.1 ≤ root.scoreCount other.1

def InWindow (sorts : SortCalls) (root : Root) (judgeId : JudgeId) (judge : Judge) (team : Team) :
    Prop :=
  ∃ placed ∈ unassignedWindow sorts root judgeId judge, placed.teamId = team.teamId

section Registered

variable {sorts : SortCalls} {root : Root} {judgeId : JudgeId} {judge : Judge}

theorem Candidate.mem_filteredTeams {entry : String × Team}
    (hJudge : root.judges.lookup judgeId = some judge) (h : Candidate root judgeId entry) :
    entry.2 ∈ filteredTeams root judgeId judge :=
  (CICJudging.mem_filteredTeams hJudge).mpr ⟨entry.1, h.eligible, h.unassigned⟩

/-- The loop over all eligible teams adds no candidate of its own: it runs only
when the loop over the unassigned ones has taken them all. -/
theorem Candidate.appended_iff {entry : String × Team} {response : Response}
    (hJudge : root.judges.lookup judgeId = some judge) (h : Candidate root judgeId entry)
    (hReturns : Returns sorts root judgeId response) :
    Appended root judgeId response entry.2 ↔ InWindow sorts root judgeId judge entry.2 := by
  obtain ⟨ids, hIds, _, rfl⟩ := hReturns.refill
  rw [scanWindow_of_registered hJudge] at hIds
  constructor
  · rintro ⟨id, hId, hMem, hOld⟩
    obtain ⟨team, hTeam, hTeamId⟩ :=
      (mem_ids_of_window hIds).mp ((List.mem_append.mp hMem).resolve_left hOld)
    rcases List.mem_append.mp hTeam with hFirst | hSecond
    · exact ⟨team, hFirst, hTeamId.trans hId.symm⟩
    · have hRoom : (filteredTeams root judgeId judge).length < openSlots root judgeId := by
        have hPos := List.length_pos_of_mem hSecond
        rw [List.length_take] at hPos
        omega
      refine ⟨entry.2, ?_, rfl⟩
      rw [unassignedWindow, List.take_of_length_le
        ((sorts.filteredTeams.perm _).length_eq.trans_le hRoom.le)]
      exact (sorts.filteredTeams.perm _).mem_iff.mpr (h.mem_filteredTeams hJudge)
  · rintro ⟨placed, hPlaced, hSame⟩
    have hSome : placed.teamId ∈ ids.map some := by
      rw [← hIds]
      exact List.mem_map_of_mem (List.mem_append_left _ hPlaced)
    obtain ⟨id, hMem, hId⟩ := List.mem_map.mp hSome
    have hOwn : id ∈ entry.2.teamId := (hId.trans hSame).symm
    exact ⟨id, hOwn, List.mem_append_right _ hMem, h.notHeld id hOwn⟩

/-- With one outcome of the sort, the call is fair exactly when no candidate
that the sort leaves behind has fewer scores than one it puts in front. -/
theorem leastScoredFirst_iff_window (hJudge : root.judges.lookup judgeId = some judge)
    {response : Response} (hReturns : Returns sorts root judgeId response) :
    LeastScoredFirst root judgeId response ↔
      ∀ entry other, Candidate root judgeId entry → Candidate root judgeId other →
        InWindow sorts root judgeId judge entry.2 → ¬InWindow sorts root judgeId judge other.2 →
        root.scoreCount entry.1 ≤ root.scoreCount other.1 := by
  refine forall_congr' fun entry => forall_congr' fun other => ?_
  refine forall_congr' fun hEntry => forall_congr' fun hOther => ?_
  rw [hEntry.appended_iff hJudge hReturns, hOther.appended_iff hJudge hReturns]

theorem Candidate.isNew_eq_true {entry : String × Team} (h : Candidate root judgeId entry) :
    isNew root judgeId entry.2 = true := decide_eq_true h.notHeld

variable (root judgeId judge) in
def candidates : List Team := (filteredTeams root judgeId judge).filter (isNew root judgeId)

theorem Candidate.mem_candidates {entry : String × Team}
    (hJudge : root.judges.lookup judgeId = some judge) (h : Candidate root judgeId entry) :
    entry.2 ∈ candidates root judgeId judge :=
  List.mem_filter.mpr ⟨h.mem_filteredTeams hJudge, h.isNew_eq_true⟩

theorem isNew_of_mem_window (hJudge : root.judges.lookup judgeId = some judge)
    {response : Response} (hReturns : Returns sorts root judgeId response) :
    ∀ team ∈ unassignedWindow sorts root judgeId judge, isNew root judgeId team = true := by
  intro team hTeam
  refine isNew_of_mem_scanWindow hReturns ?_
  rw [scanWindow_of_registered hJudge]
  exact List.mem_append_left _ hTeam

/-- If there are no more candidates than room, none is left out. -/
theorem Candidate.inWindow_of_few {entry : String × Team}
    (hJudge : root.judges.lookup judgeId = some judge) (h : Candidate root judgeId entry)
    {response : Response} (hReturns : Returns sorts root judgeId response)
    (hFew : (candidates root judgeId judge).length ≤ openSlots root judgeId) :
    InWindow sorts root judgeId judge entry.2 := by
  refine ⟨entry.2, ?_, rfl⟩
  set sorted := sorts.filteredTeams.sort (filteredTeams root judgeId judge) with hSorted
  have hPerm : sorted.Perm (filteredTeams root judgeId judge) := sorts.filteredTeams.perm _
  have hTake : (sorted.take (openSlots root judgeId)).filter (isNew root judgeId) =
      sorted.take (openSlots root judgeId) :=
    List.filter_eq_self.mpr (isNew_of_mem_window hJudge hReturns)
  have hCount : (sorted.take (openSlots root judgeId)).length +
      ((sorted.drop (openSlots root judgeId)).filter (isNew root judgeId)).length ≤
        openSlots root judgeId := by
    have hFilter := (hPerm.filter (isNew root judgeId)).length_eq
    rw [← List.take_append_drop (openSlots root judgeId) sorted, List.filter_append, hTake,
      List.length_append] at hFilter
    exact hFilter.trans_le hFew
  have hMem : entry.2 ∈ sorted := hPerm.mem_iff.mpr (h.mem_filteredTeams hJudge)
  rw [← List.take_append_drop (openSlots root judgeId) sorted, List.mem_append] at hMem
  rcases hMem with hFirst | hLast
  · exact hFirst
  · have hLeft := List.length_pos_of_mem hLast
    have hNew := List.length_pos_of_mem (List.mem_filter.mpr ⟨hLast, h.isNew_eq_true⟩)
    simp only [List.length_take, List.length_drop] at hCount hLeft
    omega

theorem candidates_sublist :
    (candidates root judgeId judge).Sublist (preferredTeams root judgeId judge) :=
  List.filter_sublist.trans filteredTeams_sublist

theorem candidates_teamIds_nodup (hKeyed : root.Keyed) :
    ((candidates root judgeId judge).map Team.teamId).Nodup :=
  (preferredTeams_teamIds_nodup hKeyed).sublist (candidates_sublist.map _)

theorem unassignedWindow_of_sort {arranged rest : List Team}
    (hSort : sorts.filteredTeams.sort (filteredTeams root judgeId judge) = arranged ++ rest)
    (hRoom : openSlots root judgeId ≤ arranged.length) :
    unassignedWindow sorts root judgeId judge = arranged.take (openSlots root judgeId) := by
  rw [unassignedWindow, hSort, List.take_append_of_le_length hRoom]

/-- With enough candidates in front the first loop fills the queue, and neither
loop meets a team that it cannot add. -/
theorem exists_returns_of_sort (hJudge : root.judges.lookup judgeId = some judge)
    (hKeyed : root.Keyed) {arranged rest : List Team}
    (hPerm : arranged.Perm (candidates root judgeId judge))
    (hSort : sorts.filteredTeams.sort (filteredTeams root judgeId judge) = arranged ++ rest)
    (hRoom : openSlots root judgeId ≤ arranged.length) :
    ∃ response, Returns sorts root judgeId response := by
  rw [exists_returns_iff hKeyed hJudge, unassignedWindow_of_sort hSort hRoom]
  refine ⟨fun team hTeam => ?_, fun team hTeam => ?_⟩
  · have hCandidate : team ∈ candidates root judgeId judge :=
      hPerm.mem_iff.mp (List.mem_of_mem_take hTeam)
    exact (List.mem_filter.mp hCandidate).2
  · have hAll := (sorts.filteredTeams.perm (filteredTeams root judgeId judge)).length_eq
    rw [hSort, List.length_append] at hAll
    rw [eligibleWindow, Nat.sub_eq_zero_of_le (by omega), List.take_zero] at hTeam
    exact absurd hTeam List.not_mem_nil

private theorem exists_perm_take {α : Type} [DecidableEq α] {l : List α} (hNodup : l.Nodup)
    {a b : α} (ha : a ∈ l) (hb : b ∈ l) (hne : b ≠ a) {n : Nat} (hPos : 0 < n)
    (hShort : n < l.length) : ∃ l' : List α, l'.Perm l ∧ a ∈ l'.take n ∧ b ∉ l'.take n := by
  have hRest : b ∈ l.erase a := (List.mem_erase_of_ne hne).mpr hb
  have hPerm : (a :: ((l.erase a).erase b ++ [b])).Perm l :=
    ((List.perm_append_singleton b _).cons a).trans
      (((List.perm_cons_erase hRest).symm.cons a).trans (List.perm_cons_erase ha).symm)
  obtain ⟨m, rfl⟩ : ∃ m, n = m + 1 := ⟨n - 1, by omega⟩
  have hLength := hPerm.length_eq
  simp only [List.length_cons, List.length_append, List.length_nil] at hLength
  refine ⟨_, hPerm, by simp, ?_⟩
  rw [List.take_succ_cons, List.take_append_of_le_length (by omega), List.mem_cons]
  rintro (hEq | hMem)
  · exact hne hEq
  · exact (hNodup.erase a).not_mem_erase (List.mem_of_mem_take hMem)

/-- Some engine hands out the first of two candidates and leaves the second, as
soon as there is room for one team and not for all candidates. -/
theorem exists_unfair_return (hJudge : root.judges.lookup judgeId = some judge)
    (hKeyed : root.Keyed) (hPlain : ∀ entry ∈ root.teams, entry.2.scores = none)
    {entry other : String × Team} (hEntry : Candidate root judgeId entry)
    (hOther : Candidate root judgeId other) (hne : other.2.teamId ≠ entry.2.teamId)
    (hPos : 0 < openSlots root judgeId)
    (hMany : openSlots root judgeId < (candidates root judgeId judge).length) :
    ∃ sorts response, Returns sorts root judgeId response ∧
      InWindow sorts root judgeId judge entry.2 ∧ ¬InWindow sorts root judgeId judge other.2 := by
  have hIds : ((candidates root judgeId judge).map Team.teamId).Nodup :=
    candidates_teamIds_nodup hKeyed
  obtain ⟨arranged, hPerm, hFirst, hLast⟩ := exists_perm_take hIds.of_map
    (hEntry.mem_candidates hJudge) (hOther.mem_candidates hJudge) (fun h => hne (congrArg _ h))
    hPos hMany
  set rest := (filteredTeams root judgeId judge).filter fun team => !isNew root judgeId team
  have hArranged : (arranged ++ rest).Perm (filteredTeams root judgeId judge) :=
    (hPerm.append_right rest).trans (List.filter_append_perm _ _)
  have hEqual : (arranged ++ rest).Pairwise fun team1 team2 => compare team1 team2 ≤ 0 :=
    pairwise_compare_of_plain fun team hTeam =>
      plain_of_mem_preferredTeams hPlain team
        (filteredTeams_sublist.subset (hArranged.mem_iff.mp hTeam))
  let sorts : SortCalls := ⟨.arrange _ (arranged ++ rest) hArranged hEqual, .stable⟩
  have hSort : sorts.filteredTeams.sort (filteredTeams root judgeId judge) = arranged ++ rest :=
    ArraySort.arrange_sort hArranged hEqual
  have hRoom : openSlots root judgeId ≤ arranged.length := hPerm.length_eq ▸ hMany.le
  obtain ⟨response, hReturns⟩ := exists_returns_of_sort hJudge hKeyed hPerm hSort hRoom
  refine ⟨sorts, response, hReturns, ?_, ?_⟩
  · exact ⟨entry.2, unassignedWindow_of_sort hSort hRoom ▸ hFirst, rfl⟩
  · rintro ⟨placed, hPlaced, hSame⟩
    rw [unassignedWindow_of_sort hSort hRoom] at hPlaced
    have hPlacedMem := hPerm.mem_iff.mp (List.mem_of_mem_take hPlaced)
    have hSameTeam : placed = other.2 :=
      List.inj_on_of_nodup_map hIds hPlacedMem (hOther.mem_candidates hJudge) hSame
    exact hLast (hSameTeam ▸ hPlaced)

theorem teamId_ne_of_scoreCount_ne (hKeyed : root.Keyed) {entry other : String × Team}
    (hEntry : Candidate root judgeId entry) (hOther : Candidate root judgeId other)
    (hCount : root.scoreCount other.1 ≠ root.scoreCount entry.1) :
    other.2.teamId ≠ entry.2.teamId := by
  intro hSame
  obtain ⟨id, hId, hKey⟩ := hKeyed entry hEntry.eligible.mem
  obtain ⟨id', hId', hKey'⟩ := hKeyed other hOther.eligible.mem
  obtain rfl := Option.some.inj (hId.symm.trans (hSame.symm.trans hId'))
  exact hCount (by rw [hKey, hKey'])

/-- Which candidates come first is decided by the sort alone. Records without
`scores` of their own are equal to the comparator, so every engine hands out the
least-scored candidates only where there is nothing to choose. -/
theorem leastScoredFirst_iff (hJudge : root.judges.lookup judgeId = some judge) :
    (∀ sorts response, Returns sorts root judgeId response →
      (LeastScoredFirst root judgeId response ↔
        ∀ entry other, Candidate root judgeId entry → Candidate root judgeId other →
          InWindow sorts root judgeId judge entry.2 → ¬InWindow sorts root judgeId judge other.2 →
          root.scoreCount entry.1 ≤ root.scoreCount other.1)) ∧
    (root.Keyed → (∀ entry ∈ root.teams, entry.2.scores = none) →
      ((∀ sorts response, Returns sorts root judgeId response →
          LeastScoredFirst root judgeId response) ↔
        openSlots root judgeId = 0 ∨
        (candidates root judgeId judge).length ≤ openSlots root judgeId ∨
        ∀ entry other, Candidate root judgeId entry → Candidate root judgeId other →
          root.scoreCount entry.1 = root.scoreCount other.1)) := by
  refine ⟨fun _ _ hReturns => leastScoredFirst_iff_window hJudge hReturns,
    fun hKeyed hPlain => ⟨fun hFair => ?_, fun hCases sorts response hReturns => ?_⟩⟩
  · by_contra hNone
    simp only [not_or, not_le] at hNone
    obtain ⟨hPos, hMany, hDiffer⟩ := hNone
    -- Whichever of the two has more records can be put first.
    have hLe : ∀ entry other, Candidate root judgeId entry → Candidate root judgeId other →
        root.scoreCount entry.1 ≤ root.scoreCount other.1 := by
      intro entry other hEntry hOther
      by_contra hMore
      obtain ⟨sorts, response, hReturns, hIn, hOut⟩ := exists_unfair_return hJudge hKeyed hPlain
        hEntry hOther (teamId_ne_of_scoreCount_ne hKeyed hEntry hOther (by omega)) (by omega) hMany
      exact hMore ((leastScoredFirst_iff_window hJudge hReturns).mp (hFair sorts response hReturns)
        entry other hEntry hOther hIn hOut)
    exact hDiffer fun entry other hEntry hOther =>
      (hLe entry other hEntry hOther).antisymm (hLe other entry hOther hEntry)
  · rw [leastScoredFirst_iff_window hJudge hReturns]
    intro entry other hEntry hOther hIn hOut
    rcases hCases with hFull | hFew | hEqual
    · obtain ⟨placed, hPlaced, _⟩ := hIn
      simp [unassignedWindow, hFull] at hPlaced
    · exact absurd (hOther.inWindow_of_few hJudge hReturns hFew) hOut
    · exact (hEqual entry other hEntry hOther).le

end Registered

namespace Contest

/-- The second judge has scored team 1 and nobody any other team. -/
def oneScored : Root := fourTeams.setScores 1 judgeB ⟨3, 3, 3, 3, ""⟩

private theorem candidate_oneScored {teamId : Int} (hMem : record teamId ∈ oneScored.teams)
    (hUnscored : judgeA ∉ oneScored.scores (teamKey teamId)) :
    Candidate oneScored judgeA (record teamId) :=
  ⟨⟨hMem, ⟨⟨some "None"⟩, rfl, rfl⟩, hUnscored⟩, rfl, fun _ _ => List.not_mem_nil⟩

/-- The first judge is given the scored team 1 and not the unscored team 4. -/
theorem oneScored_unfair :
    ∃ response, Returns .stable oneScored judgeA response ∧
      ¬LeastScoredFirst oneScored judgeA response := by
  obtain ⟨response, hReturns, hTeams⟩ : ∃ response, Returns .stable oneScored judgeA response ∧
      response.teams = [1, 2, 3] :=
    ⟨_, returns_iff.mpr ⟨_, [1, 2, 3], rfl, by decide, ⟨by decide, by decide⟩, rfl⟩, rfl⟩
  refine ⟨response, hReturns, fun hFair => ?_⟩
  have hLe := hFair (record 1) (record 4) (candidate_oneScored (by decide) (by decide))
    (candidate_oneScored (by decide) (by decide))
    ⟨1, rfl, by simp [hTeams], List.not_mem_nil⟩
    (by rintro ⟨id, hId, hMem, _⟩; cases hId; simp [hTeams] at hMem)
  exact absurd hLe (by decide)

/-- Without any score the four teams are as good as each other. -/
theorem noneScored_fair :
    ∃ response, Returns .stable fourTeams judgeA response ∧
      LeastScoredFirst fourTeams judgeA response := by
  have hJudge : fourTeams.judges.lookup judgeA = some ⟨some "None"⟩ := rfl
  have hFair := ((leastScoredFirst_iff hJudge).2 fourTeams_keyed (by decide)).mpr
    (Or.inr (Or.inr fun _ _ _ _ => rfl))
  have hReturns : Returns .stable fourTeams judgeA _ :=
    returns_iff.mpr ⟨_, [1, 2, 3], rfl, by decide, ⟨by decide, by decide⟩, rfl⟩
  exact ⟨_, hReturns, hFair _ _ hReturns⟩

end Contest

end CICJudging
