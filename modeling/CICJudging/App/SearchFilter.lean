import CICJudging.App.TeamLists

/-! The list on the screen and the search field. A search filters the teams that
are there; teams that arrive later are shown whatever the field says. -/
namespace CICJudging

open Transition

section Search

variable (inRange : String → String → Bool)

/-- The search text is empty or occurs in the name. -/
def Found (searchText : String) (team : TeamData) : Prop :=
  searchText = "" ∨ inRange searchText team.teamName = true

/-- The list shown is the list of all teams, filtered by the text in the field. -/
def ShowsFiltered (screen : ListScreen) : Prop :=
  screen.filteredTeams = filterTeams inRange screen.teams screen.searchText

/-- Every team that arrives is one that the text in the field finds. -/
def ArrivesFound (screen : ListScreen) : ListEvent → Prop
  | .fetched _ (some decodedTeam) => Found inRange screen.searchText decodedTeam
  | .allTeams (some decodedTeams) => ∀ team ∈ decodedTeams, Found inRange screen.searchText team
  | _ => True

theorem filterTeams_append (first second : List TeamData) (searchText : String) :
    filterTeams inRange (first ++ second) searchText =
      filterTeams inRange first searchText ++ filterTeams inRange second searchText := by
  unfold filterTeams
  split_ifs
  · rfl
  · exact List.filter_append ..

theorem filterTeams_eq_self_iff {teams : List TeamData} {searchText : String} :
    filterTeams inRange teams searchText = teams ↔ ∀ team ∈ teams, Found inRange searchText team := by
  unfold filterTeams Found
  split_ifs with hText
  · simp [hText]
  · simp [List.filter_eq_self, hText]

variable {inRange}

theorem showsFiltered_step {vc : ListVC} {screen after : ListScreen} {event : ListEvent}
    (hShows : ShowsFiltered inRange screen) (hNext : nextList inRange vc screen event = some after) :
    ShowsFiltered inRange after ↔ ArrivesFound inRange screen event := by
  rcases nextList_cases inRange hNext with ⟨teamIds, rfl, rfl⟩ |
    ⟨teamId, decoded, rfl, hMem, rfl⟩ | ⟨decoded, rfl, _, rfl⟩ | ⟨searchText, rfl, rfl⟩
  · have hEmpty : filterTeams inRange [] screen.searchText = [] :=
      (filterTeams_eq_self_iff inRange).mpr fun _ hMem => absurd hMem List.not_mem_nil
    exact iff_of_true hEmpty.symm trivial
  · cases decoded with
    | none => exact iff_of_true hShows trivial
    | some decodedTeam =>
        have hFound : Found inRange screen.searchText decodedTeam ↔
            filterTeams inRange [decodedTeam] screen.searchText = [decodedTeam] := by
          simp [filterTeams_eq_self_iff]
        simp only [ShowsFiltered, fetchedTeam, reloadData, ArrivesFound, hFound, filterTeams_append]
        rw [← hShows, List.append_cancel_left_eq, eq_comm]
  · cases decoded with
    | none => exact iff_of_true hShows trivial
    | some decodedTeams =>
        simp only [ShowsFiltered, fetchedAllTeams, reloadData, ArrivesFound]
        rw [eq_comm, filterTeams_eq_self_iff]
  · exact iff_of_true rfl trivial

/-- In a run from the opening of the screen the filtered list is shown in every
state exactly if no team arrives that the text in the field does not find. -/
theorem shownList_filtered_iff {vc : ListVC} {events : List ListEvent}
    (hRun : (run (nextList inRange vc) (.initial vc) events).isSome) :
    Throughout (nextList inRange vc) (ShowsFiltered inRange) (.initial vc) events ↔
      Along (nextList inRange vc) (ArrivesFound inRange) (.initial vc) events := by
  have hInitial : ShowsFiltered inRange (.initial vc) := rfl
  exact throughout_iff_along _ (fun _ _ _ hShows hNext => showsFiltered_step hShows hNext) hRun hInitial

end Search

namespace Contest

/-- The judge searches for a name while the only team is being fetched. -/
def searchWhileLoading : List ListEvent := [.snapshot [1], .search "Robot", fetched 1]

theorem robot_not_found : ¬Found inRange "Robot" (teamData 1) := by
  unfold Found
  decide +kernel

/-- The team appears although the field asks for another name. -/
theorem other_team_shown :
    ∃ final, run (nextList inRange (.filterTeamsVC .judgedTeams))
        (.initial (.filterTeamsVC .judgedTeams)) searchWhileLoading = some final ∧
      ¬ShowsFiltered inRange final := by
  refine ⟨_, rfl, fun hShows => robot_not_found ?_⟩
  have hKept : filterTeams inRange [teamData 1] "Robot" = [teamData 1] := hShows.symm
  exact (filterTeams_eq_self_iff inRange).mp hKept _ (List.mem_singleton_self _)

/-- A search after the fetch shows the filtered list throughout. -/
theorem loaded_list_filtered :
    Throughout (nextList inRange (.filterTeamsVC .judgedTeams)) (ShowsFiltered inRange)
      (.initial (.filterTeamsVC .judgedTeams)) [.snapshot [1], fetched 1, .search "Robot"] := by
  refine (shownList_filtered_iff rfl).mpr ⟨trivial, fun listed hListed => ⟨?_, fun _ _ => ⟨trivial,
    fun _ _ => trivial⟩⟩⟩
  cases Option.some.inj hListed
  exact Or.inl rfl

end Contest

end CICJudging
