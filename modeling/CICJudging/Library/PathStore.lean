import Mathlib.Data.Setoid.Basic
import Mathlib.Tactic.Common

/-! Values at the ends of paths. Writing a store at a path replaces all that is below
the path, and a value above it gives way unless nothing is written. -/
namespace PathStore

variable {Name Value : Type*} [Setoid Name] [DecidableRel fun first second : Name => first ≈ second]

/-- What is left of the second path below the first one. -/
def rest : List Name → List Name → Option (List Name)
  | [], path => some path
  | _ :: _, [] => none
  | name :: path, other :: others => if other ≈ name then rest path others else none

/-- Neither path is above the other. -/
def Apart (first second : List Name) : Prop := rest first second = none ∧ rest second first = none

/-- There is no value. -/
def Empty (store : List Name → Option Value) : Prop := ∀ path, store path = none

open Classical in
/-- The store with another one written at the path. -/
noncomputable def graft (store : List Name → Option Value) (path : List Name)
    (sub : List Name → Option Value) (query : List Name) : Option Value :=
  match rest path query with
  | some below => sub below
  | none => if (rest query path).isSome ∧ ¬Empty sub then none else store query

variable {store sub other : List Name → Option Value} {name first : Name}
  {path tail query : List Name}

theorem graft_nil : graft store [] sub = sub := by
  funext query
  cases query <;> rfl

open Classical in
theorem graft_cons_nil :
    graft store (name :: path) sub [] = if Empty sub then store [] else none := by
  simp [graft, rest]

theorem graft_cons_of_not_same (h : ¬first ≈ name) :
    graft store (name :: path) sub (first :: tail) = store (first :: tail) := by
  have hSymm : ¬name ≈ first := fun hSame => h (Setoid.symm hSame)
  simp [graft, rest, h, hSymm]

theorem graft_cons_of_same (h : first ≈ name) :
    graft store (name :: path) sub (first :: tail) =
      graft (fun below => store (first :: below)) path sub tail := by
  have hBelow : rest (name :: path) (first :: tail) = rest path tail := if_pos h
  have hAbove : rest (first :: tail) (name :: path) = rest tail path := if_pos (Setoid.symm h)
  rw [graft, graft, hBelow, hAbove]

/-- What is apart from the path stays. -/
theorem graft_of_apart (h : Apart path query) : graft store path sub query = store query := by
  simp [graft, h.1, h.2]

/-- What is written is found below the path. -/
theorem graft_below : graft store path sub (path ++ query) = sub query := by
  induction path generalizing store with
  | nil => rw [graft_nil, List.nil_append]
  | cons name path ih => rw [List.cons_append, graft_cons_of_same (Setoid.refl name), ih]

theorem Empty.graft (hStore : Empty store) (hSub : Empty sub) : Empty (graft store path sub) := by
  intro query
  rw [PathStore.graft]
  split
  · exact hSub _
  · split_ifs
    · rfl
    · exact hStore query

/-- What is written has a value if the store does below the path. -/
theorem Empty.of_graft (h : Empty (PathStore.graft store path sub)) : Empty sub :=
  fun query => graft_below.symm.trans (h (path ++ query))

/-- Writes at paths apart do not depend on their order. -/
theorem graft_comm {path' : List Name} (h : Apart path path') :
    graft (graft store path sub) path' other = graft (graft store path' other) path sub := by
  induction path generalizing path' store with
  | nil => cases h.1
  | cons name path ih =>
      cases path' with
      | nil => cases h.2
      | cons name' path' =>
          funext query
          cases query with
          | nil =>
              simp only [graft_cons_nil]
              split_ifs <;> rfl
          | cons first tail =>
              by_cases hFirst : first ≈ name
              · by_cases hOther : first ≈ name'
                · have hNames : name ≈ name' := Setoid.trans (Setoid.symm hFirst) hOther
                  have hTails : Apart path path' := by
                    simpa [Apart, rest, hNames, Setoid.symm hNames] using h
                  have hInner : (fun below => graft store (name :: path) sub (first :: below)) =
                      graft (fun below => store (first :: below)) path sub :=
                    funext fun below => graft_cons_of_same hFirst
                  have hOuter : (fun below => graft store (name' :: path') other (first :: below)) =
                      graft (fun below => store (first :: below)) path' other :=
                    funext fun below => graft_cons_of_same hOther
                  rw [graft_cons_of_same hOther, graft_cons_of_same hFirst, hInner, hOuter,
                    ih hTails]
                · have hOuter : (fun below => graft store (name' :: path') other (first :: below)) =
                      fun below => store (first :: below) :=
                    funext fun below => graft_cons_of_not_same hOther
                  rw [graft_cons_of_not_same hOther, graft_cons_of_same hFirst,
                    graft_cons_of_same hFirst, hOuter]
              · by_cases hOther : first ≈ name'
                · have hInner : (fun below => graft store (name :: path) sub (first :: below)) =
                      fun below => store (first :: below) :=
                    funext fun below => graft_cons_of_not_same hFirst
                  rw [graft_cons_of_not_same hFirst, graft_cons_of_same hOther,
                    graft_cons_of_same hOther, hInner]
                · rw [graft_cons_of_not_same hFirst, graft_cons_of_not_same hOther,
                    graft_cons_of_not_same hOther, graft_cons_of_not_same hFirst]

end PathStore
