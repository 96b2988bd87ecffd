import Mathlib.Data.List.Basic
import Mathlib.Tactic.Common

/-! The greedy scan of a list into a bounded collection: each element that is
not held yet is taken, in order, as long as there is room. -/
namespace GreedyScan

variable {α : Type*} [DecidableEq α]

/-- The elements that are taken; the collection holds `held` before the scan. -/
def scan (capacity : Nat) (held : List α) : List α → List α
  | [] => []
  | a :: rest =>
      if capacity ≤ held.length then []
      else if a ∈ held then scan capacity held rest
      else a :: scan capacity (held ++ [a]) rest

theorem scan_full {capacity : Nat} {held : List α} (h : capacity ≤ held.length) (l : List α) :
    scan capacity held l = [] := by
  cases l with
  | nil => rfl
  | cons a rest => simp [scan, h]

/-- A scan that meets nothing it has to skip takes the front of the list. -/
theorem scan_of_new {capacity : Nat} {held l : List α}
    (hNodup : (l.take (capacity - held.length)).Nodup)
    (hNew : ∀ a ∈ l.take (capacity - held.length), a ∉ held) :
    scan capacity held l = l.take (capacity - held.length) := by
  induction l generalizing held with
  | nil => simp [scan]
  | cons a rest ih =>
      by_cases hFull : capacity ≤ held.length
      · rw [scan_full hFull, Nat.sub_eq_zero_of_le hFull, List.take_zero]
      · obtain ⟨room, hRoom⟩ : ∃ room, capacity - held.length = room + 1 :=
          ⟨capacity - held.length - 1, by omega⟩
        have hRest : capacity - (held ++ [a]).length = room := by
          rw [List.length_append, List.length_singleton]
          omega
        rw [hRoom, List.take_succ_cons] at hNodup hNew
        obtain ⟨hHead, hTail⟩ := List.nodup_cons.mp hNodup
        have hNotHeld : a ∉ held := hNew a (List.mem_cons_self ..)
        rw [hRoom, List.take_succ_cons, scan, if_neg hFull, if_neg hNotHeld, ih, hRest]
        · rwa [hRest]
        · rw [hRest]
          intro b hb hMem
          rcases List.mem_append.mp hMem with hOld | hOwn
          · exact hNew b (List.mem_cons_of_mem _ hb) hOld
          · exact hHead (List.mem_singleton.mp hOwn ▸ hb)

end GreedyScan
