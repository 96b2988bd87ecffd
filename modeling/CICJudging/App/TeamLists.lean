import CICJudging.Library.Transition
import Mathlib.Data.List.Perm.Basic
import Mathlib.Data.Fintype.Basic

/-! The two list screens. A snapshot of ids empties the lists and starts one
fetch for each id; a fetch appends its team when it completes, whichever
snapshot it was started for. Only a completion or a search reloads the table. -/
namespace CICJudging

open Transition

/-- The fields of a decoded team that the lists read. -/
structure TeamData where
  teamId : Int
  teamName : String
  deriving DecidableEq

inductive FilterVCType where
  | judgedTeams
  | allTeams
  deriving DecidableEq

inductive ListVC where
  | teamListVC
  | filterTeamsVC (filterVCType : FilterVCType)
  deriving DecidableEq

/-- `shownRows` is the row count that the table took at its last `reloadData`,
and `outstanding` the fetches that have not completed. -/
structure ListScreen where
  teams : List TeamData
  filteredTeams : List TeamData
  searchText : String
  shownRows : Nat
  outstanding : List Int

def numberOfRowsInSection (vc : ListVC) (filteredTeams : List TeamData) : Nat :=
  match vc with
  | .teamListVC => filteredTeams.length + 1
  | .filterTeamsVC _ => filteredTeams.length

def reloadData (vc : ListVC) (screen : ListScreen) : ListScreen :=
  { screen with shownRows := numberOfRowsInSection vc screen.filteredTeams }

/-- The table asks for its row count once when it appears. -/
def ListScreen.initial (vc : ListVC) : ListScreen :=
  reloadData vc ⟨[], [], "", 0, []⟩

/-- The observer of a list of ids. A value that is no such list has none. -/
def clearAndFetch (screen : ListScreen) (teamIds : List Int) : ListScreen :=
  { screen with teams := [], filteredTeams := [], outstanding := screen.outstanding ++ teamIds }

/-- The observer of `judgingQueue/<judge>`. -/
def fetchTeamData (screen : ListScreen) (teamIds : List Int) : ListScreen :=
  clearAndFetch screen teamIds

/-- The observer of `judgedTeams/<judge>`, with the values of the map. -/
def fetchTeamsList (screen : ListScreen) (teamIds : List Int) : ListScreen :=
  clearAndFetch screen teamIds

/-- The completion of the fetch of one team. -/
def fetchedTeam (vc : ListVC) (screen : ListScreen) (teamId : Int) (decoded : Option TeamData) :
    ListScreen :=
  let screen := { screen with outstanding := screen.outstanding.erase teamId }
  match decoded with
  | some decodedTeam =>
      reloadData vc { screen with
        teams := screen.teams ++ [decodedTeam]
        filteredTeams := screen.filteredTeams ++ [decodedTeam] }
  | none => screen

/-- The single snapshot of all teams. -/
def fetchedAllTeams (vc : ListVC) (screen : ListScreen) (decoded : Option (List TeamData)) :
    ListScreen :=
  match decoded with
  | some decodedTeams =>
      reloadData vc { screen with teams := decodedTeams, filteredTeams := decodedTeams }
  | none => screen

section Screen

variable (inRange : String → String → Bool)

/-- `inRange` is `range(of:options: .caseInsensitive)` of the text in a name. -/
def filterTeams (teams : List TeamData) (searchText : String) : List TeamData :=
  if searchText = "" then teams else teams.filter fun team => inRange searchText team.teamName

def textDidChange (vc : ListVC) (screen : ListScreen) (searchText : String) : ListScreen :=
  reloadData vc { screen with
    searchText
    filteredTeams := filterTeams inRange screen.teams searchText }

inductive ListEvent where
  | snapshot (teamIds : List Int)
  | fetched (teamId : Int) (decoded : Option TeamData)
  | allTeams (decoded : Option (List TeamData))
  | search (searchText : String)
  deriving DecidableEq

/-- `none` for an event that the screen does not have. -/
def nextList (vc : ListVC) (screen : ListScreen) (event : ListEvent) : Option ListScreen :=
  match event, vc with
  | .snapshot teamIds, .teamListVC => some (fetchTeamData screen teamIds)
  | .snapshot teamIds, .filterTeamsVC .judgedTeams => some (fetchTeamsList screen teamIds)
  | .snapshot _, .filterTeamsVC .allTeams => none
  | .fetched teamId decoded, vc =>
      if teamId ∈ screen.outstanding then some (fetchedTeam vc screen teamId decoded) else none
  | .allTeams decoded, .filterTeamsVC .allTeams =>
      some (fetchedAllTeams (.filterTeamsVC .allTeams) screen decoded)
  | .allTeams _, _ => none
  | .search searchText, vc => some (textDidChange inRange vc screen searchText)

/-- The four things an event can do to a screen. -/
theorem nextList_cases {vc : ListVC} {screen after : ListScreen} {event : ListEvent}
    (h : nextList inRange vc screen event = some after) :
    (∃ teamIds, event = .snapshot teamIds ∧ after = clearAndFetch screen teamIds) ∨
    (∃ teamId decoded, event = .fetched teamId decoded ∧ teamId ∈ screen.outstanding ∧
      after = fetchedTeam vc screen teamId decoded) ∨
    (∃ decoded, event = .allTeams decoded ∧ vc = .filterTeamsVC .allTeams ∧
      after = fetchedAllTeams vc screen decoded) ∨
    (∃ searchText, event = .search searchText ∧
      after = textDidChange inRange vc screen searchText) := by
  unfold nextList at h
  split at h
  · exact Or.inl ⟨_, rfl, (Option.some.inj h).symm⟩
  · exact Or.inl ⟨_, rfl, (Option.some.inj h).symm⟩
  · cases h
  · split_ifs at h with hMem
    exact Or.inr (Or.inl ⟨_, _, rfl, hMem, (Option.some.inj h).symm⟩)
  · exact Or.inr (Or.inr (Or.inl ⟨_, rfl, rfl, (Option.some.inj h).symm⟩))
  · cases h
  · exact Or.inr (Or.inr (Or.inr ⟨_, rfl, (Option.some.inj h).symm⟩))

theorem nextList_snapshot {inRange : String → String → Bool} {vc : ListVC}
    {screen after : ListScreen} {teamIds : List Int}
    (h : nextList inRange vc screen (.snapshot teamIds) = some after) :
    after = clearAndFetch screen teamIds := by
  rcases nextList_cases inRange h with ⟨_, hEvent, rfl⟩ | ⟨_, _, hEvent, _⟩ | ⟨_, hEvent, _⟩ |
    ⟨_, hEvent, _⟩ <;> cases hEvent
  rfl

variable {inRange}

/-- The event starts no new list: it is a completion with the record of its team,
or a search. -/
def Completes (record : Int → TeamData) : ListEvent → Prop
  | .fetched teamId decoded => decoded = some (record teamId)
  | .search _ => True
  | _ => False

/-- The teams shown and those still to come stay the same between snapshots. -/
theorem nextList_perm {record : Int → TeamData} {vc : ListVC} {screen after : ListScreen}
    {event : ListEvent} (hNext : nextList inRange vc screen event = some after)
    (hEvent : Completes record event) :
    (after.teams ++ after.outstanding.map record).Perm
      (screen.teams ++ screen.outstanding.map record) := by
  rcases nextList_cases inRange hNext with ⟨teamIds, rfl, rfl⟩ |
    ⟨teamId, decoded, rfl, hMem, rfl⟩ | ⟨decoded, rfl, _, rfl⟩ | ⟨searchText, rfl, rfl⟩
  · cases hEvent
  · obtain rfl : decoded = some (record teamId) := hEvent
    simp only [fetchedTeam, reloadData, List.append_assoc, List.singleton_append]
    exact (((List.perm_cons_erase hMem).map record).symm).append_left screen.teams
  · cases hEvent
  · exact List.Perm.refl _

theorem run_perm {record : Int → TeamData} {vc : ListVC} {screen final : ListScreen}
    {events : List ListEvent} (hRun : run (nextList inRange vc) screen events = some final)
    (hEvents : ∀ event ∈ events, Completes record event) :
    (final.teams ++ final.outstanding.map record).Perm
      (screen.teams ++ screen.outstanding.map record) := by
  induction events generalizing screen with
  | nil =>
      cases hRun
      exact List.Perm.refl _
  | cons event events ih =>
      obtain ⟨middle, hNext, hRest⟩ := (run_cons_eq_some _).mp hRun
      have hHead := nextList_perm hNext (hEvents event (List.mem_cons_self ..))
      exact (ih hRest fun other hMem => hEvents other (List.mem_cons_of_mem _ hMem)).trans hHead

/-- Once the last snapshot has been delivered and every fetch has completed, the
teams are those of that snapshot exactly if no fetch was outstanding when it
was delivered. -/
theorem teams_converge_iff {record : Int → TeamData} {vc : ListVC} {final : ListScreen}
    {earlier later : List ListEvent} {teamIds : List Int}
    (hRun : run (nextList inRange vc) (.initial vc) (earlier ++ .snapshot teamIds :: later) =
      some final)
    (hEvents : ∀ event ∈ later, Completes record event) (hDone : final.outstanding = []) :
    final.teams.Perm (teamIds.map record) ↔
      ∃ before, run (nextList inRange vc) (.initial vc) earlier = some before ∧
        before.outstanding = [] := by
  obtain ⟨before, hEarlier, hLater⟩ := (run_append_eq_some _).mp hRun
  obtain ⟨cleared, hNext, hRest⟩ := (run_cons_eq_some _).mp hLater
  have hPerm := run_perm hRest hEvents
  rw [hDone, nextList_snapshot hNext] at hPerm
  simp only [clearAndFetch, List.map_nil, List.append_nil, List.nil_append, List.map_append] at hPerm
  simp only [hEarlier, Option.some.injEq, exists_eq_left']
  constructor
  · intro hShown
    have hLength := (hPerm.symm.trans hShown).length_eq
    simp only [List.length_append, List.length_map] at hLength
    exact List.length_eq_zero_iff.mp (by omega)
  · intro hNone
    simpa [hNone] using hPerm

inductive Trap where
  | indexOutOfRange
  deriving DecidableEq

/-- `filteredTeams[indexPath.row]` -/
def filteredTeam (screen : ListScreen) (row : Nat) : Except Trap TeamData :=
  match screen.filteredTeams[row]? with
  | some team => .ok team
  | none => .error .indexOutOfRange

/-- The team that a row is about; the last row of the team list is the search
row. Its guard compares with the array, not with the rows shown. -/
def rowTeam (vc : ListVC) (screen : ListScreen) (row : Nat) : Except Trap (Option TeamData) :=
  match vc with
  | .teamListVC =>
      if row = screen.filteredTeams.length then .ok none else (filteredTeam screen row).map some
  | .filterTeamsVC _ => (filteredTeam screen row).map some

/-- The team of the cell, or the search cell. -/
def cellForRowAt (vc : ListVC) (screen : ListScreen) (row : Nat) : Except Trap (Option TeamData) :=
  rowTeam vc screen row

/-- The team to score, or nothing on the search row. -/
def didSelectRowAt (vc : ListVC) (screen : ListScreen) (row : Nat) :
    Except Trap (Option TeamData) :=
  rowTeam vc screen row

/-- Whatever row the table shows may be asked for or tapped. -/
def RowsSafe (vc : ListVC) (screen : ListScreen) : Prop :=
  ∀ row < screen.shownRows,
    (cellForRowAt vc screen row).isOk = true ∧ (didSelectRowAt vc screen row).isOk = true

/-- A snapshot finds no team among the rows shown. -/
def NoTeamShown (vc : ListVC) (screen : ListScreen) : ListEvent → Prop
  | .snapshot _ => screen.shownRows ≤ numberOfRowsInSection vc []
  | _ => True

theorem rowTeam_isOk_iff {vc : ListVC} {screen : ListScreen} {row : Nat} :
    (rowTeam vc screen row).isOk = true ↔ row < numberOfRowsInSection vc screen.filteredTeams := by
  have hTeam : ((filteredTeam screen row).map some).isOk = true ↔
      row < screen.filteredTeams.length := by
    by_cases hRow : row < screen.filteredTeams.length
    · simp [filteredTeam, hRow, Except.map, Except.isOk, Except.toBool]
    · simp [filteredTeam, hRow, Except.map, Except.isOk, Except.toBool]
  cases vc with
  | teamListVC =>
      simp only [rowTeam, numberOfRowsInSection]
      split_ifs with hLast
      · exact iff_of_true rfl (by omega)
      · rw [hTeam]
        omega
  | filterTeamsVC filterVCType => exact hTeam

theorem rowsSafe_iff {vc : ListVC} {screen : ListScreen} :
    RowsSafe vc screen ↔ screen.shownRows ≤ numberOfRowsInSection vc screen.filteredTeams := by
  simp only [RowsSafe, cellForRowAt, didSelectRowAt, and_self, rowTeam_isOk_iff]
  constructor
  · intro h
    by_contra hMore
    exact absurd (h _ (not_le.mp hMore)) (lt_irrefl _)
  · exact fun h row hRow => hRow.trans_le h

theorem rowsSafe_reloadData (vc : ListVC) (screen : ListScreen) :
    RowsSafe vc (reloadData vc screen) := rowsSafe_iff.mpr le_rfl

/-- Every event but a snapshot leaves the table with the rows of the list. -/
theorem rowsSafe_step {vc : ListVC} {screen after : ListScreen} {event : ListEvent}
    (hSafe : RowsSafe vc screen) (hNext : nextList inRange vc screen event = some after) :
    RowsSafe vc after ↔ NoTeamShown vc screen event := by
  rcases nextList_cases inRange hNext with ⟨teamIds, rfl, rfl⟩ |
    ⟨teamId, decoded, rfl, hMem, rfl⟩ | ⟨decoded, rfl, _, rfl⟩ | ⟨searchText, rfl, rfl⟩
  · exact rowsSafe_iff
  · refine iff_of_true ?_ trivial
    cases decoded with
    | some team => exact rowsSafe_reloadData vc _
    | none => exact hSafe
  · refine iff_of_true ?_ trivial
    cases decoded with
    | some decodedTeams => exact rowsSafe_reloadData vc _
    | none => exact hSafe
  · exact iff_of_true (rowsSafe_reloadData vc _) trivial

/-- In a run from the opening of the screen every row access is in bounds in
every state exactly if no snapshot is delivered while a team is shown. -/
theorem rowAccess_inBounds_iff {vc : ListVC} {events : List ListEvent}
    (hRun : (run (nextList inRange vc) (.initial vc) events).isSome) :
    Throughout (nextList inRange vc) (RowsSafe vc) (.initial vc) events ↔
      Along (nextList inRange vc) (NoTeamShown vc) (.initial vc) events :=
  throughout_iff_along _ (fun _ _ _ hSafe hNext => rowsSafe_step hSafe hNext) hRun
    (rowsSafe_reloadData vc _)

end Screen

namespace Contest

/-- Search by ASCII letters, their case ignored. -/
def inRange (searchText teamName : String) : Bool :=
  decide (searchText.toLower.toList <:+: teamName.toLower.toList)

def teamData (teamId : Int) : TeamData := ⟨teamId, "Team " ++ toString teamId⟩

def fetched (teamId : Int) : ListEvent := .fetched teamId (some (teamData teamId))

/-- A submission removes team 1 before the list of the two teams is complete. -/
theorem removed_team_shown :
    ∃ final, run (nextList inRange .teamListVC) (.initial .teamListVC)
        [.snapshot [1, 2], .snapshot [2], fetched 1, fetched 2, fetched 2] = some final ∧
      final.outstanding = [] ∧ ¬final.teams.Perm ([2].map teamData) :=
  ⟨_, rfl, rfl, by decide⟩

/-- The same with the fetches of the first snapshot done. -/
theorem removed_team_gone :
    ∃ final, run (nextList inRange .teamListVC) (.initial .teamListVC)
        ([.snapshot [1, 2], fetched 2, fetched 1] ++ .snapshot [2] :: [fetched 2]) = some final ∧
      final.teams.Perm ([2].map teamData) := by
  obtain ⟨final, hRun, hDone⟩ : ∃ final, run (nextList inRange .teamListVC)
      (.initial .teamListVC) ([.snapshot [1, 2], fetched 2, fetched 1] ++
        .snapshot [2] :: [fetched 2]) = some final ∧ final.outstanding = [] := ⟨_, rfl, rfl⟩
  refine ⟨final, hRun, (teams_converge_iff hRun ?_ hDone).mpr ⟨_, rfl, rfl⟩⟩
  intro event hMem
  obtain rfl := List.mem_singleton.mp hMem
  rfl

/-- The snapshot that follows a submission arrives while two teams are shown; a
tap on the second row then traps. -/
theorem shown_row_traps :
    ∃ final, run (nextList inRange .teamListVC) (.initial .teamListVC)
        [.snapshot [1, 2], fetched 1, fetched 2, .snapshot [2]] = some final ∧
      1 < final.shownRows ∧
      didSelectRowAt .teamListVC final 1 = .error .indexOutOfRange :=
  ⟨_, rfl, by decide, by decide⟩

/-- Rows are safe while the first snapshot is being loaded. -/
theorem loading_rows_safe :
    Throughout (nextList inRange .teamListVC) (RowsSafe .teamListVC) (.initial .teamListVC)
      [.snapshot [1, 2], fetched 2, fetched 1] :=
  (rowAccess_inBounds_iff rfl).mpr
    ⟨le_rfl, fun _ _ => ⟨trivial, fun _ _ => ⟨trivial, fun _ _ => trivial⟩⟩⟩

end Contest

end CICJudging
