import CICJudging.Database.Root

/-! The comparator of the team sorts and what a call to `sort` may return. -/
namespace CICJudging

/-- `("scores" in team ? team.scores : []).length`; an object has no length. -/
def Team.scoresLength (team : Team) : Option Nat :=
  match team.scores with
  | none => some 0
  | some (.array length) => some length
  | some .object => none

/-- A comparison with a missing length is false both ways. -/
def compare (team1 team2 : Team) : Int :=
  match team1.scoresLength, team2.scoresLength with
  | some length1, some length2 =>
      if length1 > length2 then 1 else if length1 < length2 then -1 else 0
  | _, _ => 0

/-- One call of `sort(compare)`. The result is a permutation; it is ordered by
the comparator when the comparator is consistent, which missing lengths break.
Which of several ordered permutations is returned is up to the engine. -/
structure ArraySort where
  sort : List Team → List Team
  perm : ∀ teams, (sort teams).Perm teams
  ordered : ∀ teams, (∀ team ∈ teams, team.scoresLength.isSome) →
    (sort teams).Pairwise fun team1 team2 => compare team1 team2 ≤ 0

/-- The two sort calls of one run of `processAssignedQueue`. -/
structure SortCalls where
  filteredTeams : ArraySort
  preferredTeams : ArraySort

theorem compare_le_zero_iff {team1 team2 : Team} {length1 length2 : Nat}
    (h1 : team1.scoresLength = some length1) (h2 : team2.scoresLength = some length2) :
    compare team1 team2 ≤ 0 ↔ length1 ≤ length2 := by
  simp only [compare, h1, h2]
  split_ifs <;> omega

/-- Records without a `scores` field of their own all compare as equal. -/
theorem compare_eq_zero_of_plain {team1 team2 : Team} (h1 : team1.scores = none)
    (h2 : team2.scores = none) : compare team1 team2 = 0 := by
  simp [compare, Team.scoresLength, h1, h2]

/-- Any arrangement of such records is in order for the comparator. -/
theorem pairwise_compare_of_plain {teams : List Team} (hPlain : ∀ team ∈ teams, team.scores = none) :
    teams.Pairwise fun team1 team2 => compare team1 team2 ≤ 0 :=
  List.pairwise_of_forall_mem_list fun team1 h1 team2 h2 =>
    (compare_eq_zero_of_plain (hPlain team1 h1) (hPlain team2 h2)).le

namespace ArraySort

private def le (team1 team2 : Team) : Prop :=
  team1.scoresLength.getD 0 ≤ team2.scoresLength.getD 0

private instance : DecidableRel le := fun _ _ => inferInstanceAs (Decidable (_ ≤ _))

private instance : Std.Total le := ⟨fun _ _ => Nat.le_total _ _⟩

private instance : IsTrans Team le := ⟨fun _ _ _ => Nat.le_trans⟩

theorem compare_le_zero_of_le {team1 team2 : Team} (h1 : team1.scoresLength.isSome)
    (h2 : team2.scoresLength.isSome) (h : le team1 team2) : compare team1 team2 ≤ 0 := by
  obtain ⟨length1, h1⟩ := Option.isSome_iff_exists.mp h1
  obtain ⟨length2, h2⟩ := Option.isSome_iff_exists.mp h2
  rw [compare_le_zero_iff h1 h2]
  simpa [le, h1, h2] using h

/-- The stable sort, by insertion. -/
def stable : ArraySort where
  sort teams := teams.insertionSort le
  perm teams := teams.perm_insertionSort le
  ordered teams hSome := by
    have hMem : ∀ team ∈ teams.insertionSort le, team.scoresLength.isSome :=
      fun team h => hSome team ((teams.perm_insertionSort le).mem_iff.mp h)
    refine (teams.pairwise_insertionSort le).imp_of_mem ?_
    exact fun h1 h2 => compare_le_zero_of_le (hMem _ h1) (hMem _ h2)

/-- An engine that returns a given arrangement of one list. -/
def arrange (teams arranged : List Team) (hPerm : arranged.Perm teams)
    (hOrdered : arranged.Pairwise fun team1 team2 => compare team1 team2 ≤ 0) : ArraySort where
  sort list := if list = teams then arranged else stable.sort list
  perm list := by
    split_ifs with h
    · exact h ▸ hPerm
    · exact stable.perm list
  ordered list hSome := by
    split_ifs
    · exact hOrdered
    · exact stable.ordered list hSome

theorem arrange_sort {teams arranged : List Team} (hPerm : arranged.Perm teams)
    (hOrdered : arranged.Pairwise fun team1 team2 => compare team1 team2 ≤ 0) :
    (arrange teams arranged hPerm hOrdered).sort teams = arranged := if_pos rfl

/-- Some engine puts a given record first where all are equal to the comparator. -/
theorem exists_sort_first {teams : List Team} (hPlain : ∀ team ∈ teams, team.scores = none)
    {team : Team} (hMem : team ∈ teams) : ∃ s : ArraySort, ∃ rest, s.sort teams = team :: rest := by
  have hPerm : (team :: teams.erase team).Perm teams := (List.perm_cons_erase hMem).symm
  have hOrdered : (team :: teams.erase team).Pairwise fun team1 team2 => compare team1 team2 ≤ 0 :=
    pairwise_compare_of_plain fun other hOther => hPlain other (hPerm.mem_iff.mp hOther)
  exact ⟨arrange teams _ hPerm hOrdered, _, arrange_sort hPerm hOrdered⟩

end ArraySort

def SortCalls.stable : SortCalls := ⟨.stable, .stable⟩

end CICJudging
