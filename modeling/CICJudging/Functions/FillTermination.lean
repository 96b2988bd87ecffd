import CICJudging.Functions.AssignedQueue

/-! When the two loops come to an end. Both stay for ever at a team that is in the
queue already, and the second one goes through the teams of the first again. -/
namespace CICJudging

theorem Root.Keyed.teamIds_nodup {root : Root} (hKeyed : root.Keyed) :
    (root.teams.map fun entry => entry.2.teamId).Nodup := by
  refine List.Nodup.of_map (fun id => teamKey (id.getD 0)) ?_
  rw [List.map_map]
  have hKeys : root.teams.map ((fun id => teamKey (id.getD 0)) ∘ fun entry => entry.2.teamId) =
      root.teams.map Prod.fst := by
    refine List.map_congr_left fun entry hMem => ?_
    obtain ⟨id, hId, hKey⟩ := hKeyed entry hMem
    simp [hId, hKey]
  rw [hKeys]
  exact root.teams_nodup

section Loops

variable (sorts : SortCalls) (root : Root) (judgeId : JudgeId) (judge : Judge)

/-- The teams that the second loop visits, counted from its sorted list. -/
def eligibleWindow : List Team :=
  (sorts.preferredTeams.sort (preferredTeams root judgeId judge)).take
    (openSlots root judgeId - (filteredTeams root judgeId judge).length)

variable {sorts root judgeId judge}

theorem filteredTeams_sublist :
    (filteredTeams root judgeId judge).Sublist (preferredTeams root judgeId judge) := by
  rw [filteredTeams, preferredTeams, ← List.filter_filter]
  exact List.filter_sublist.map _

theorem preferredTeams_teamIds_nodup (hKeyed : root.Keyed) :
    ((preferredTeams root judgeId judge).map Team.teamId).Nodup := by
  refine List.Nodup.sublist ?_ hKeyed.teamIds_nodup
  rw [preferredTeams, List.map_map]
  exact List.filter_sublist.map _

theorem teamId_of_mem_preferredTeams (hKeyed : root.Keyed) {team : Team}
    (hMem : team ∈ preferredTeams root judgeId judge) : ∃ id, team.teamId = some id := by
  obtain ⟨entry, hEntry, rfl⟩ := List.mem_map.mp hMem
  obtain ⟨id, hId, _⟩ := hKeyed entry (List.mem_of_mem_filter hEntry)
  exact ⟨id, hId⟩

theorem isNew_iff {team : Team} {id : Int} (hId : team.teamId = some id) :
    isNew root judgeId team = true ↔ id ∉ root.judgingQueue.queues judgeId := by
  simp [isNew, hId]

theorem mem_unassignedWindow {team : Team} (h : team ∈ unassignedWindow sorts root judgeId judge) :
    team ∈ filteredTeams root judgeId judge :=
  (sorts.filteredTeams.perm _).mem_iff.mp (List.mem_of_mem_take h)

theorem mem_eligibleWindow {team : Team} (h : team ∈ eligibleWindow sorts root judgeId judge) :
    team ∈ preferredTeams root judgeId judge :=
  (sorts.preferredTeams.perm _).mem_iff.mp (List.mem_of_mem_take h)

/-- The second loop has something to visit only if the first visits its whole list. -/
theorem unassignedWindow_of_mem {team : Team} (h : team ∈ eligibleWindow sorts root judgeId judge) :
    unassignedWindow sorts root judgeId judge =
      sorts.filteredTeams.sort (filteredTeams root judgeId judge) := by
  have hRoom := List.length_pos_of_mem h
  rw [eligibleWindow, List.length_take] at hRoom
  refine List.take_of_length_le ?_
  rw [(sorts.filteredTeams.perm _).length_eq]
  omega

/-- What either loop visits is new to the queue, or the call would not return. -/
theorem isNew_of_mem_scanWindow {response : Response} (hReturns : Returns sorts root judgeId response)
    {team : Team} (hTeam : team ∈ scanWindow sorts root judgeId) :
    isNew root judgeId team = true := by
  obtain ⟨ids, hIds, hRefill, _⟩ := hReturns.refill
  exact decide_eq_true fun id hId =>
    hRefill.fresh.2 id ((mem_ids_of_window hIds).mpr ⟨team, hTeam, hId⟩)

theorem windows_teamIds_nodup (hKeyed : root.Keyed)
    (hOwn : ∀ team ∈ eligibleWindow sorts root judgeId judge, team ∉ filteredTeams root judgeId judge) :
    ((unassignedWindow sorts root judgeId judge ++ eligibleWindow sorts root judgeId judge).map
      Team.teamId).Nodup := by
  have hPreferred : ((preferredTeams root judgeId judge).map Team.teamId).Nodup :=
    preferredTeams_teamIds_nodup hKeyed
  have hFiltered : ((filteredTeams root judgeId judge).map Team.teamId).Nodup :=
    hPreferred.sublist (filteredTeams_sublist.map _)
  rw [List.map_append]
  refine List.Nodup.append ?_ ?_ ?_
  · refine (((sorts.filteredTeams.perm _).map Team.teamId).nodup_iff.mpr hFiltered).sublist ?_
    exact (List.take_sublist _ _).map _
  · refine (((sorts.preferredTeams.perm _).map Team.teamId).nodup_iff.mpr hPreferred).sublist ?_
    exact (List.take_sublist _ _).map _
  · intro id hFirst hSecond
    obtain ⟨team, hTeam, rfl⟩ := List.mem_map.mp hFirst
    obtain ⟨other, hOther, hSame⟩ := List.mem_map.mp hSecond
    have hEq : other = team := List.inj_on_of_nodup_map hPreferred (mem_eligibleWindow hOther)
      (filteredTeams_sublist.subset (mem_unassignedWindow hTeam)) hSame
    exact hOwn other hOther (hEq ▸ mem_unassignedWindow hTeam)

/-- With one outcome of the sorts the call returns exactly when the teams that the
first loop visits are new to the queue, and those that the second one visits are
new and none of the first list. -/
theorem exists_returns_iff (hKeyed : root.Keyed)
    (hJudge : root.judges.lookup judgeId = some judge) :
    (∃ response, Returns sorts root judgeId response) ↔
      (∀ team ∈ unassignedWindow sorts root judgeId judge, isNew root judgeId team = true) ∧
      ∀ team ∈ eligibleWindow sorts root judgeId judge,
        isNew root judgeId team = true ∧ team ∉ filteredTeams root judgeId judge := by
  have hWindow : scanWindow sorts root judgeId =
      unassignedWindow sorts root judgeId judge ++ eligibleWindow sorts root judgeId judge :=
    scanWindow_of_registered hJudge
  constructor
  · rintro ⟨response, hReturns⟩
    have hNew : ∀ team ∈ scanWindow sorts root judgeId, isNew root judgeId team = true :=
      fun team hTeam => isNew_of_mem_scanWindow hReturns hTeam
    rw [hWindow] at hNew
    refine ⟨fun team hTeam => hNew team (List.mem_append_left _ hTeam), fun team hTeam =>
      ⟨hNew team (List.mem_append_right _ hTeam), fun hFiltered => ?_⟩⟩
    -- The first loop has added the team by then.
    have hFirst : team ∈ unassignedWindow sorts root judgeId judge := by
      rw [unassignedWindow_of_mem hTeam]
      exact (sorts.filteredTeams.perm _).mem_iff.mpr hFiltered
    obtain ⟨ids, hIds, hRefill, _⟩ := hReturns.refill
    have hNodup : ((scanWindow sorts root judgeId).map Team.teamId).Nodup :=
      hIds ▸ hRefill.fresh.1.map (Option.some_injective _)
    rw [hWindow, List.map_append] at hNodup
    exact List.disjoint_of_nodup_append hNodup (List.mem_map_of_mem hFirst)
      (List.mem_map_of_mem hTeam)
  · rintro ⟨hFirst, hSecond⟩
    have hNew : ∀ team ∈ scanWindow sorts root judgeId,
        ∃ id, team.teamId = some id ∧ id ∉ root.judgingQueue.queues judgeId := by
      intro team hTeam
      rw [hWindow, List.mem_append] at hTeam
      have hEligible : team ∈ preferredTeams root judgeId judge :=
        hTeam.elim (fun h => filteredTeams_sublist.subset (mem_unassignedWindow h)) mem_eligibleWindow
      obtain ⟨id, hId⟩ := teamId_of_mem_preferredTeams hKeyed hEligible
      exact ⟨id, hId, (isNew_iff hId).mp (hTeam.elim (hFirst team) fun h => (hSecond team h).1)⟩
    have hIds : (scanWindow sorts root judgeId).map Team.teamId =
        ((scanWindow sorts root judgeId).map fun team => team.teamId.getD 0).map some := by
      rw [List.map_map]
      refine List.map_congr_left fun team hTeam => ?_
      obtain ⟨id, hId, _⟩ := hNew team hTeam
      simp [hId]
    refine ⟨_, returns_iff.mpr ⟨_, _, teamLists_of_registered hJudge, hIds, ⟨?_, ?_⟩, rfl⟩⟩
    · refine List.Nodup.of_map some ?_
      rw [← hIds, hWindow]
      exact windows_teamIds_nodup hKeyed fun team hTeam => (hSecond team hTeam).2
    · intro id hMem
      obtain ⟨team, hTeam, rfl⟩ := List.mem_map.mp hMem
      obtain ⟨id, hId, hOld⟩ := hNew team hTeam
      simpa [hId] using hOld

theorem plain_of_mem_preferredTeams (hPlain : ∀ entry ∈ root.teams, entry.2.scores = none) :
    ∀ team ∈ preferredTeams root judgeId judge, team.scores = none := by
  intro team hMem
  obtain ⟨entry, hEntry, rfl⟩ := List.mem_map.mp hMem
  exact hPlain entry (List.mem_of_mem_filter hEntry)

/-- The call ends whatever the sorts return if the queue is full, or if the judge
holds no unassigned team and these either fill the queue or do not exist, and
then the judge holds no eligible team at all. -/
def NothingToSkip (root : Root) (judgeId : JudgeId) (judge : Judge) : Prop :=
  openSlots root judgeId = 0 ∨
    (∀ team ∈ filteredTeams root judgeId judge, isNew root judgeId team = true) ∧
      (openSlots root judgeId ≤ (filteredTeams root judgeId judge).length ∨
        filteredTeams root judgeId judge = [] ∧
          ∀ team ∈ preferredTeams root judgeId judge, isNew root judgeId team = true)

theorem NothingToSkip.returns (h : NothingToSkip root judgeId judge) (hKeyed : root.Keyed)
    (hJudge : root.judges.lookup judgeId = some judge) (sorts : SortCalls) :
    ∃ response, Returns sorts root judgeId response := by
  rw [exists_returns_iff hKeyed hJudge]
  rcases h with hFull | ⟨hNew, hRoom⟩
  · simp [unassignedWindow, eligibleWindow, hFull]
  · refine ⟨fun team hTeam => hNew team (mem_unassignedWindow hTeam), fun team hTeam => ?_⟩
    rcases hRoom with hMany | ⟨hNone, hEligible⟩
    · rw [eligibleWindow, Nat.sub_eq_zero_of_le hMany, List.take_zero] at hTeam
      exact absurd hTeam List.not_mem_nil
    · exact ⟨hEligible team (mem_eligibleWindow hTeam), hNone ▸ List.not_mem_nil⟩

/-- Records without scores of their own can come in any order, and in some order
the first team visited is the one that the judge holds already. -/
theorem nothingToSkip_of_returns (hKeyed : root.Keyed)
    (hJudge : root.judges.lookup judgeId = some judge)
    (hPlain : ∀ entry ∈ root.teams, entry.2.scores = none)
    (hReturns : ∀ sorts, ∃ response, Returns sorts root judgeId response) :
    NothingToSkip root judgeId judge := by
  simp only [exists_returns_iff hKeyed hJudge] at hReturns
  have hPlainEligible : ∀ team ∈ preferredTeams root judgeId judge, team.scores = none :=
    plain_of_mem_preferredTeams hPlain
  by_cases hFull : openSlots root judgeId = 0
  · exact Or.inl hFull
  obtain ⟨room, hRoom⟩ : ∃ room, openSlots root judgeId = room + 1 :=
    ⟨openSlots root judgeId - 1, by omega⟩
  refine Or.inr ⟨fun team hTeam => ?_, ?_⟩
  · obtain ⟨first, rest, hSort⟩ := ArraySort.exists_sort_first
      (fun other hOther => hPlainEligible other (filteredTeams_sublist.subset hOther)) hTeam
    refine (hReturns ⟨first, .stable⟩).1 team ?_
    rw [unassignedWindow, hSort, hRoom, List.take_succ_cons]
    exact List.mem_cons_self ..
  · by_cases hMany : openSlots root judgeId ≤ (filteredTeams root judgeId judge).length
    · exact Or.inl hMany
    obtain ⟨left, hLeft⟩ :
        ∃ left, openSlots root judgeId - (filteredTeams root judgeId judge).length = left + 1 :=
      ⟨openSlots root judgeId - (filteredTeams root judgeId judge).length - 1, by omega⟩
    have hVisited : ∀ team ∈ preferredTeams root judgeId judge,
        isNew root judgeId team = true ∧ team ∉ filteredTeams root judgeId judge := by
      intro team hTeam
      obtain ⟨second, rest, hSort⟩ := ArraySort.exists_sort_first hPlainEligible hTeam
      refine (hReturns ⟨.stable, second⟩).2 team ?_
      rw [eligibleWindow, hSort, hLeft, List.take_succ_cons]
      exact List.mem_cons_self ..
    refine Or.inr ⟨List.eq_nil_iff_forall_not_mem.mpr fun team hTeam => ?_, ?_⟩
    · exact (hVisited team (filteredTeams_sublist.subset hTeam)).2 hTeam
    · exact fun team hTeam => (hVisited team hTeam).1

/-- Both loops end, for one outcome of the sorts, exactly if neither visits a team
that the queue has by then; for every outcome, exactly if there is none to skip. -/
theorem bothLoops_end_iff (hKeyed : root.Keyed)
    (hJudge : root.judges.lookup judgeId = some judge) :
    (∀ sorts, (∃ response, Returns sorts root judgeId response) ↔
      (∀ team ∈ unassignedWindow sorts root judgeId judge, isNew root judgeId team = true) ∧
      ∀ team ∈ eligibleWindow sorts root judgeId judge,
        isNew root judgeId team = true ∧ team ∉ filteredTeams root judgeId judge) ∧
    ((∀ entry ∈ root.teams, entry.2.scores = none) →
      ((∀ sorts, ∃ response, Returns sorts root judgeId response) ↔
        NothingToSkip root judgeId judge)) := by
  refine ⟨fun sorts => exists_returns_iff hKeyed hJudge, fun hPlain => ⟨?_, ?_⟩⟩
  · exact nothingToSkip_of_returns hKeyed hJudge hPlain
  · exact fun hNothing sorts => hNothing.returns hKeyed hJudge sorts

end Loops

namespace Contest

/-- The first judge holds the only team there is. -/
def onlyTeamHeld : Root := root [1] (by decide) (JudgingQueue.empty.append judgeA [1])

/-- The app asks for teams again, and the second loop stays at this team. -/
theorem onlyTeamHeld_never_ends :
    ¬∃ sorts response, Returns sorts onlyTeamHeld judgeA response := by
  have hJudge : onlyTeamHeld.judges.lookup judgeA = some ⟨some "None"⟩ := rfl
  have hKeyed : onlyTeamHeld.Keyed := root_keyed _ _ _
  rintro ⟨sorts, hReturns⟩
  obtain ⟨-, hSecond⟩ := (exists_returns_iff hKeyed hJudge).mp hReturns
  have hSort : sorts.preferredTeams.sort (preferredTeams onlyTeamHeld judgeA ⟨some "None"⟩) =
      [(record 1).2] := List.perm_singleton.mp (sorts.preferredTeams.perm _)
  have hVisited : (record 1).2 ∈ eligibleWindow sorts onlyTeamHeld judgeA ⟨some "None"⟩ := by
    rw [eligibleWindow, hSort]
    decide
  exact absurd (hSecond _ hVisited).1 (by decide)

/-- Without a team in the queue there is nothing to skip. -/
theorem fourTeams_loops_end : ∃ response, Returns .stable fourTeams judgeA response := by
  have hJudge : fourTeams.judges.lookup judgeA = some ⟨some "None"⟩ := rfl
  have hNothing : NothingToSkip fourTeams judgeA ⟨some "None"⟩ := Or.inr (by decide)
  exact ((bothLoops_end_iff fourTeams_keyed hJudge).2 (by decide)).mpr hNothing .stable

end Contest

end CICJudging
