import CICJudging.Database.Export
import CICJudging.App.Observers

/-! The list of all teams against what is stored. The decoder needs an object,
and the client hands it an array where the team ids are dense. -/
namespace CICJudging

open Json

/-- A record that is well formed under the key of an id. -/
structure StoredTeam where
  teamId : Nat
  record : Value
  team : TeamData
  wellFormed : decodeTeamData record = .ok team

/-- The children of `teams`, in the order in which a dictionary of them is visited. -/
structure StoredTeams where
  entries : List StoredTeam
  ne_nil : entries ≠ []
  nodup : (entries.map StoredTeam.teamId).Nodup

namespace StoredTeams

def children (stored : StoredTeams) : List (String × Value) :=
  stored.entries.map fun entry => (teamKey entry.teamId, entry.record)

def teams (stored : StoredTeams) : List TeamData := stored.entries.map StoredTeam.team

/-- The ids leave so many gaps that the node is handed over as a dictionary. -/
def Sparse (stored : StoredTeams) : Prop :=
  ∃ entry ∈ stored.entries, 2 * stored.entries.length ≤ entry.teamId

/-- Every id is an `Int` of the app. -/
def FitInt (stored : StoredTeams) : Prop := ∀ entry ∈ stored.entries, entry.teamId < 2 ^ 63

theorem children_ne_nil (stored : StoredTeams) : stored.children ≠ [] := by
  simpa [children] using stored.ne_nil

theorem length_children (stored : StoredTeams) : stored.children.length = stored.entries.length :=
  List.length_map _

/-- Every key is an index; what decides is the largest one. -/
theorem valForExport_children (stored : StoredTeams) :
    (∃ entry ∈ stored.entries, 2 * stored.entries.length ≤ min entry.teamId (2 ^ 63 - 1)) ∧
        valForExport stored.children = .object stored.children ∨
      (∀ entry ∈ stored.entries, min entry.teamId (2 ^ 63 - 1) < 2 * stored.entries.length) ∧
        ∃ elements, valForExport stored.children = .array elements := by
  have hKeys : ∀ child ∈ stored.children, (keyAsNum child.1).isSome := by
    intro child hMem
    obtain ⟨entry, _, rfl⟩ := List.mem_map.mp hMem
    rw [keyAsNum_teamKey]
    rfl
  have hMax : maxKey stored.children < 2 * stored.entries.length ↔
      ∀ entry ∈ stored.entries, min entry.teamId (2 ^ 63 - 1) < 2 * stored.entries.length := by
    have hPos := List.length_pos_of_ne_nil stored.ne_nil
    rw [maxKey_lt_iff (by omega), children, List.forall_mem_map]
    simp only [keyAsNum_teamKey, Option.getD_some]
  rcases valForExport_cases stored.children_ne_nil with ⟨hObject, hValue⟩ | ⟨_, hDense, hValue⟩
  · refine Or.inl ⟨?_, hValue⟩
    rcases hObject with ⟨child, hMem, hNone⟩ | hLarge
    · exact absurd hNone (Option.isSome_iff_ne_none.mp (hKeys child hMem))
    · rw [length_children] at hLarge
      by_contra hNot
      simp only [not_exists, not_and, not_le] at hNot
      exact absurd (hMax.mpr hNot) (by omega)
  · rw [length_children] at hDense
    exact Or.inr ⟨hMax.mp hDense, hValue⟩

/-- The dictionary decodes if every key is an `Int`. -/
theorem decodeTeams_object (stored : StoredTeams) (hFit : stored.FitInt) :
    decodeTeams (.object stored.children) =
      .ok (stored.entries.map fun entry => ((entry.teamId : Int), entry.team)) := by
  refine dictionary_object ?_ ?_
  · rw [List.map_map]
    have hNodup := stored.nodup.map (f := fun teamId : Nat => (teamId : Int)) Nat.cast_injective
    rwa [List.map_map] at hNodup
  · rw [children, List.forall₂_map_left_iff, List.forall₂_map_right_iff]
    refine List.forall₂_same.mpr fun entry hMem => ⟨?_, entry.wellFormed⟩
    rw [intOfString_teamKey, if_pos (fitsInt64_natCast.mpr (hFit entry hMem))]

theorem decodeTeams_object_of_not_fitInt (stored : StoredTeams) (hFit : ¬stored.FitInt) :
    ∃ error, decodeTeams (.object stored.children) = .error error := by
  simp only [FitInt, not_forall] at hFit
  obtain ⟨entry, hMem, hLarge⟩ := hFit
  have hChild : (teamKey entry.teamId, entry.record) ∈ stored.children :=
    List.mem_map.mpr ⟨entry, hMem, rfl⟩
  exact dictionary_object_of_badKey hChild
    (by rw [intOfString_teamKey, if_neg (mt fitsInt64_natCast.mp hLarge)])

/-- The value decodes exactly if it is a dictionary with keys that are `Int`s. -/
theorem decodeTeams_valForExport (stored : StoredTeams) :
    (stored.Sparse ∧ stored.FitInt ∧ decodeTeams (valForExport stored.children) =
        .ok (stored.entries.map fun entry => ((entry.teamId : Int), entry.team))) ∨
      ¬(stored.Sparse ∧ stored.FitInt) ∧
        ∃ error, decodeTeams (valForExport stored.children) = .error error := by
  rcases stored.valForExport_children with ⟨⟨entry, hMem, hLarge⟩, hValue⟩ | ⟨hDense, elements, hValue⟩
  · rw [hValue]
    by_cases hFit : stored.FitInt
    · exact Or.inl ⟨⟨entry, hMem, hLarge.trans (min_le_left _ _)⟩, hFit, stored.decodeTeams_object hFit⟩
    · exact Or.inr ⟨fun h => hFit h.2, stored.decodeTeams_object_of_not_fitInt hFit⟩
  · rw [hValue]
    refine Or.inr ⟨?_, _, rfl⟩
    rintro ⟨⟨entry, hMem, hSparse⟩, hFit⟩
    have hEntry := hDense entry hMem
    rw [min_eq_left (Nat.le_sub_one_of_lt (hFit entry hMem))] at hEntry
    omega

theorem isTopLevel_valForExport (stored : StoredTeams) :
    (valForExport stored.children).isTopLevel = true := by
  rcases stored.valForExport_children with ⟨_, hValue⟩ | ⟨_, elements, hValue⟩
  · rw [hValue]
    rfl
  · rw [hValue]
    rfl

/-- After its snapshot the list of all teams, empty before, holds each stored team
once exactly if some id is at least twice the number of teams and all are `Int`s. -/
theorem allTeams_shown_iff (stored : StoredTeams) {before : ListScreen} (hBefore : before.teams = []) :
    (∃ after, observeAllTeams (valForExport stored.children) before = some after ∧
        after.teams.Perm stored.teams) ↔ stored.Sparse ∧ stored.FitInt := by
  rw [observeAllTeams_eq_fetchedAllTeams before stored.isTopLevel_valForExport]
  rcases stored.decodeTeams_valForExport with ⟨hSparse, hFit, hDecode⟩ | ⟨hNot, error, hDecode⟩
  · rw [hDecode]
    refine iff_of_true ⟨_, rfl, List.Perm.of_eq ?_⟩ ⟨hSparse, hFit⟩
    simp [fetchedAllTeams, reloadData, Except.toOption, teams]
  · rw [hDecode]
    refine iff_of_false ?_ hNot
    rintro ⟨after, hAfter, hShown⟩
    obtain rfl := Option.some.inj hAfter
    have hEmpty : (fetchedAllTeams (.filterTeamsVC .allTeams) before none).teams = [] := hBefore
    have hNone : stored.teams = [] := (hEmpty ▸ hShown).nil_eq.symm
    exact stored.ne_nil (List.map_eq_nil_iff.mp hNone)

end StoredTeams

namespace Contest

def teamRecord (teamId : Nat) : Value :=
  .object [("affinityGroup", .string "Health"), ("descp", .string ""), ("logoUrl", .string ""),
    ("posterUrl", .string ""), ("projectUrl", .string ""), ("resumeUrl", .string ""),
    ("team", .array [.string "Ada"]), ("teamId", .number teamId),
    ("teamName", .string ("Team " ++ toString teamId)), ("timestamp", .string ""),
    ("videoUrl", .string "")]

theorem decodeTeamData_teamRecord {teamId : Nat} (h : teamId < 2 ^ 63) :
    decodeTeamData (teamRecord teamId) = .ok (teamData teamId) := by
  have hFits : FitsInt64 teamId := by unfold FitsInt64; omega
  have hInt : int (.number teamId) = .ok (teamId : Int) := by simp [int, hFits]
  have hTeamId : field "teamId" int (teamRecord teamId) = .ok (teamId : Int) := hInt
  unfold decodeTeamData
  rw [hTeamId]
  rfl

def storedTeam (teamId : Nat) (h : teamId < 2 ^ 63) : StoredTeam :=
  ⟨teamId, teamRecord teamId, teamData teamId, decodeTeamData_teamRecord h⟩

/-- Three teams that are numbered from one. -/
def numberedTeams : StoredTeams where
  entries := [storedTeam 1 (by decide), storedTeam 2 (by decide), storedTeam 3 (by decide)]
  ne_nil := List.cons_ne_nil _ _
  nodup := by decide

/-- The list of all teams stays empty. -/
theorem numberedTeams_not_shown :
    ¬∃ screen, observeAllTeams (valForExport numberedTeams.children)
        (.initial (.filterTeamsVC .allTeams)) = some screen ∧
      screen.teams.Perm numberedTeams.teams := by
  have hHandled : observeAllTeams (valForExport numberedTeams.children)
      (.initial (.filterTeamsVC .allTeams)) = some (.initial (.filterTeamsVC .allTeams)) := rfl
  rw [hHandled]
  rintro ⟨screen, hScreen, hShown⟩
  cases Option.some.inj hScreen
  exact List.cons_ne_nil _ _ hShown.nil_eq.symm

/-- One team that is numbered from two. -/
def gappedTeam : StoredTeams where
  entries := [storedTeam 2 (by decide)]
  ne_nil := List.cons_ne_nil _ _
  nodup := by decide

theorem gappedTeam_shown :
    ∃ after, observeAllTeams (valForExport gappedTeam.children)
        (.initial (.filterTeamsVC .allTeams)) = some after ∧
      after.teams.Perm gappedTeam.teams := by
  refine (gappedTeam.allTeams_shown_iff rfl).mpr ⟨⟨_, List.mem_singleton_self _, ?_⟩, ?_⟩
  · decide
  · intro entry hMem
    obtain rfl := List.mem_singleton.mp hMem
    decide

end Contest

end CICJudging
