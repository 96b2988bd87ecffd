import CICJudging.Library.Transition
import CICJudging.Database.TreeBuilder
import CICJudging.Database.TreeRemoval

/-! The sorted dictionary of the children of a node: an array of entries up to 25 keys
and a tree from there on, both the same map in the same order. -/
namespace CICJudging

open SortedEntries (Sorted)

universe u v

inductive FImmutableSortedDictionary (K : Type u) (V : Type v) where
  | array (keysAndValues : List (K × V))
  | tree (root : FLLRBNode K V)

namespace FImmutableSortedDictionary

variable {K : Type u} {V : Type v}

/-- SORTED_DICTIONARY_ARRAY_TO_RB_TREE_SIZE_THRESHOLD. -/
def sizeThreshold : Nat := 25

/-- What enumerateKeysAndObjects hands over. -/
def entries : FImmutableSortedDictionary K V → List (K × V)
  | array keysAndValues => keysAndValues
  | tree root => root.entries

section Operations

variable (cmp : K → K → Ordering) (key : K) (value : V)

/-- The position of the key, if it is there. -/
def findKey : List (K × V) → Option Nat
  | [] => none
  | entry :: rest =>
      match cmp key entry.1 with
      | .eq => some 0
      | .lt => none
      | .gt => (findKey rest).map (· + 1)

def findInsertPositionForKey : List (K × V) → Nat
  | [] => 0
  | entry :: rest => if cmp entry.1 key = .lt then findInsertPositionForKey rest + 1 else 0

def sortUsingComparator (dictionary : List (K × V)) : List (K × V) :=
  dictionary.mergeSort fun first second => (cmp first.1 second.1).isLE

/-- Neighbours that are not ascending are an exception. -/
def sortedKeyList (dictionary : List (K × V)) : Option (List (K × V)) :=
  let sorted := sortUsingComparator cmp dictionary
  if sorted.IsChain fun first second => cmp first.1 second.1 = .lt then some sorted else none

def treeFromDictionary (dictionary : List (K × V)) : Option (FImmutableSortedDictionary K V) := do
  let sorted ← sortedKeyList cmp dictionary
  let root ← FLLRBNode.fromSortedKeys sorted
  return tree root

def arrayFromDictionary (dictionary : List (K × V)) : Option (FImmutableSortedDictionary K V) :=
  (sortedKeyList cmp dictionary).map array

def fromDictionary (dictionary : List (K × V)) : Option (FImmutableSortedDictionary K V) :=
  if dictionary.length ≤ sizeThreshold then arrayFromDictionary cmp dictionary
  else treeFromDictionary cmp dictionary

def insertKey : FImmutableSortedDictionary K V → Option (FImmutableSortedDictionary K V)
  | array keysAndValues =>
      match findKey cmp key keysAndValues with
      | none =>
          if sizeThreshold ≤ keysAndValues.length then
            treeFromDictionary cmp (keysAndValues ++ [(key, value)])
          else
            let newPos := findInsertPositionForKey cmp key keysAndValues
            some (array (keysAndValues.insertIdx newPos (key, value)))
      | some pos => some (array (keysAndValues.set pos (key, value)))
  | tree root => some (tree (root.insertKey cmp key value).setBlack)

def get : FImmutableSortedDictionary K V → Option V
  | array keysAndValues =>
      (findKey cmp key keysAndValues).bind fun pos => (keysAndValues[pos]?).map Prod.snd
  | tree root => root.get cmp key

def removeKey : FImmutableSortedDictionary K V → FImmutableSortedDictionary K V
  | array keysAndValues =>
      match findKey cmp key keysAndValues with
      | none => array keysAndValues
      | some pos => array (keysAndValues.eraseIdx pos)
  | tree root =>
      if (root.get cmp key).isSome then tree (root.remove cmp key root.count).setBlack
      else tree root

end Operations

/-- The keys in order, a short array, or a tree that check accepts with a black root. -/
def WellFormed (cmp : K → K → Ordering) (dictionary : FImmutableSortedDictionary K V) : Prop :=
  Sorted cmp dictionary.entries ∧
    match dictionary with
    | array keysAndValues => keysAndValues.length ≤ sizeThreshold
    | tree root => ∃ h, FLLRBNode.Balanced false h root

section Array

variable {cmp : K → K → Ordering} {key : K} {value : V} {keysAndValues : List (K × V)}

theorem findKey_eq_some {pos : Nat} (h : findKey cmp key keysAndValues = some pos) :
    ∃ front entry back, keysAndValues = front ++ entry :: back ∧ front.length = pos ∧
      cmp key entry.1 = .eq := by
  induction keysAndValues generalizing pos with
  | nil => cases h
  | cons first rest ih =>
      rw [findKey] at h
      split at h
      next hTie =>
          cases h
          exact ⟨[], first, rest, rfl, rfl, hTie⟩
      next => cases h
      next =>
          obtain ⟨pos', hFind, rfl⟩ := Option.map_eq_some_iff.mp h
          obtain ⟨front, entry, back, rfl, rfl, hTie⟩ := ih hFind
          exact ⟨first :: front, entry, back, rfl, rfl, hTie⟩

variable [Std.TransCmp cmp]

theorem findKey_eq_none (hOrder : Sorted cmp keysAndValues)
    (h : findKey cmp key keysAndValues = none) :
    ∀ entry ∈ keysAndValues, cmp key entry.1 ≠ .eq := by
  induction keysAndValues with
  | nil => exact fun _ hMem => absurd hMem List.not_mem_nil
  | cons first rest ih =>
      rw [findKey] at h
      split at h
      next => cases h
      next hSmaller =>
          have hAll : ∀ entry ∈ first :: rest, cmp key entry.1 = .lt :=
            @Sorted.lt_back _ _ cmp _ key [] rest first hOrder hSmaller
          intro entry hMem
          rw [hAll entry hMem]
          decide
      next hLarger =>
          refine List.forall_mem_cons.mpr ⟨by rw [hLarger]; decide, ?_⟩
          exact ih (List.Pairwise.of_cons hOrder) (Option.map_eq_none_iff.mp h)

theorem get_array (hOrder : Sorted cmp keysAndValues) :
    (array keysAndValues).get cmp key = SortedEntries.lookup cmp key keysAndValues := by
  rw [get]
  cases hFind : findKey cmp key keysAndValues with
  | none => rw [SortedEntries.lookup_eq_none_iff.mpr (findKey_eq_none hOrder hFind)]; rfl
  | some pos =>
      obtain ⟨front, entry, back, rfl, rfl, hTie⟩ := findKey_eq_some hFind
      rw [SortedEntries.lookup_of_eq hOrder hTie]
      simp

theorem set_position {pos : Nat} (hOrder : Sorted cmp keysAndValues)
    (h : findKey cmp key keysAndValues = some pos) :
    keysAndValues.set pos (key, value) = SortedEntries.insert cmp true key value keysAndValues := by
  obtain ⟨front, entry, back, rfl, rfl, hTie⟩ := findKey_eq_some h
  rw [SortedEntries.insert_of_eq hOrder hTie]
  simp

theorem eraseIdx_position {pos : Nat} (hOrder : Sorted cmp keysAndValues)
    (h : findKey cmp key keysAndValues = some pos) :
    keysAndValues.eraseIdx pos = SortedEntries.erase cmp key keysAndValues := by
  obtain ⟨front, entry, back, rfl, rfl, hTie⟩ := findKey_eq_some h
  rw [SortedEntries.erase_of_eq hOrder hTie, List.eraseIdx_append_of_length_le (Nat.le_refl _),
    Nat.sub_self, List.eraseIdx_cons_zero]

theorem insertIdx_position (hOrder : Sorted cmp keysAndValues)
    (h : findKey cmp key keysAndValues = none) :
    keysAndValues.insertIdx (findInsertPositionForKey cmp key keysAndValues) (key, value) =
      SortedEntries.insert cmp true key value keysAndValues := by
  induction keysAndValues with
  | nil => rfl
  | cons first rest ih =>
      have hApart := findKey_eq_none hOrder h first (List.mem_cons_self ..)
      rw [findInsertPositionForKey, SortedEntries.insert]
      cases hFirst : cmp key first.1 with
      | eq => exact absurd hFirst hApart
      | lt =>
          rw [if_neg (by rw [Std.OrientedCmp.gt_of_lt hFirst]; decide)]
          rfl
      | gt =>
          rw [findKey, hFirst] at h
          rw [if_pos (Std.OrientedCmp.lt_of_gt hFirst), List.insertIdx_succ_cons,
            ih (List.Pairwise.of_cons hOrder) (Option.map_eq_none_iff.mp h)]

end Array

section Build

variable {cmp : K → K → Ordering} [Std.TransCmp cmp] {dictionary sortedKeys : List (K × V)}

theorem sortUsingComparator_pairwise : (sortUsingComparator cmp dictionary).Pairwise
    fun first second => (cmp first.1 second.1).isLE := by
  refine List.pairwise_mergeSort (fun _ _ _ => Std.TransCmp.isLE_trans) (fun first second => ?_) _
  rw [@Std.OrientedCmp.eq_swap _ cmp]
  cases cmp second.1 first.1 <;> rfl

theorem isChain_iff_sorted :
    (dictionary.IsChain fun first second => cmp first.1 second.1 = .lt) ↔ Sorted cmp dictionary :=
  have : Trans (fun first second : K × V => cmp first.1 second.1 = .lt)
      (fun first second : K × V => cmp first.1 second.1 = .lt)
      (fun first second : K × V => cmp first.1 second.1 = .lt) := ⟨Std.TransCmp.lt_trans⟩
  List.isChain_iff_pairwise

/-- No two keys tie. -/
def Apart (cmp : K → K → Ordering) (dictionary : List (K × V)) : Prop :=
  dictionary.Pairwise fun first second => cmp first.1 second.1 ≠ .eq

theorem Apart.perm (h : Apart cmp dictionary) (hPerm : sortedKeys.Perm dictionary) :
    Apart cmp sortedKeys :=
  (hPerm.pairwise_iff fun hNe hEq => hNe (Std.OrientedCmp.eq_symm hEq)).mpr h

omit [Std.TransCmp cmp] in
theorem apart_of_sorted (h : Sorted cmp dictionary) : Apart cmp dictionary :=
  h.imp fun hLess => by rw [hLess]; decide

theorem Apart.sorted (h : Apart cmp dictionary) :
    Sorted cmp (sortUsingComparator cmp dictionary) := by
  have hApart := h.perm (List.mergeSort_perm dictionary fun first second =>
    (cmp first.1 second.1).isLE)
  refine (sortUsingComparator_pairwise.and hApart).imp ?_
  rintro first second ⟨hLE, hNe⟩
  cases hOrder : cmp first.1 second.1 with
  | lt => rfl
  | eq => exact absurd hOrder hNe
  | gt =>
      rw [hOrder] at hLE
      cases hLE

/-- Keys that tie are the only exception, and there is one order to return. -/
theorem sortedKeyList_eq_some_iff :
    sortedKeyList cmp dictionary = some sortedKeys ↔
      Sorted cmp sortedKeys ∧ sortedKeys.Perm dictionary := by
  have hSame : (sortUsingComparator cmp dictionary).Perm dictionary := List.mergeSort_perm ..
  rw [sortedKeyList]
  simp only [isChain_iff_sorted, Option.ite_none_right_eq_some, Option.some.injEq]
  constructor
  · rintro ⟨hAscending, rfl⟩
    exact ⟨hAscending, hSame⟩
  · rintro ⟨hSorted, hPerm⟩
    have hAscending := ((apart_of_sorted hSorted).perm hPerm.symm).sorted
    refine ⟨hAscending, (hSame.trans hPerm.symm).eq_of_pairwise ?_ hAscending hSorted⟩
    intro first second _ _ hLess hMore
    rw [Std.OrientedCmp.gt_of_lt hLess] at hMore
    cases hMore

/-- The list is the only one that is sorted with these entries, or there is none. -/
theorem sortedKeyList_isSome_iff :
    (sortedKeyList cmp dictionary).isSome ↔ Apart cmp dictionary := by
  rw [Option.isSome_iff_exists]
  constructor
  · rintro ⟨sortedKeys, hSome⟩
    obtain ⟨hSorted, hPerm⟩ := sortedKeyList_eq_some_iff.mp hSome
    exact (apart_of_sorted hSorted).perm hPerm.symm
  · exact fun h => ⟨_, sortedKeyList_eq_some_iff.mpr ⟨h.sorted, List.mergeSort_perm ..⟩⟩

theorem treeFromDictionary_eq_some (h : Sorted cmp sortedKeys)
    (hPerm : sortedKeys.Perm dictionary) :
    ∃ root n, treeFromDictionary cmp dictionary = some (tree root) ∧
      FLLRBNode.Balanced false n root ∧ root.entries = sortedKeys := by
  obtain ⟨root, n, hBuild, hBalanced, hEntries⟩ := FLLRBNode.fromSortedKeys_spec sortedKeys
  refine ⟨root, n, ?_, hBalanced, hEntries⟩
  simp [treeFromDictionary, sortedKeyList_eq_some_iff.mpr ⟨h, hPerm⟩, hBuild]

/-- Either form, by the number of keys: the entries in their order. -/
theorem fromDictionary_eq_some (h : Apart cmp dictionary) :
    ∃ d, fromDictionary cmp dictionary = some d ∧ WellFormed cmp d ∧
      d.entries = sortUsingComparator cmp dictionary := by
  have hPerm : (sortUsingComparator cmp dictionary).Perm dictionary := List.mergeSort_perm ..
  rw [fromDictionary]
  split_ifs with hSize
  · refine ⟨array (sortUsingComparator cmp dictionary), ?_, ⟨h.sorted, ?_⟩, rfl⟩
    · rw [arrayFromDictionary, sortedKeyList_eq_some_iff.mpr ⟨h.sorted, hPerm⟩]
      rfl
    · exact hPerm.length_eq.trans_le hSize
  · obtain ⟨root, n, hTree, hBalanced, hEntries⟩ := treeFromDictionary_eq_some h.sorted hPerm
    refine ⟨tree root, hTree, ⟨?_, n, hBalanced⟩, hEntries⟩
    rw [entries, hEntries]
    exact h.sorted

/-- Keys that tie raise the exception; all others are in the dictionary. -/
theorem fromDictionary_spec (cmp : K → K → Ordering) [Std.TransCmp cmp]
    (dictionary : List (K × V)) :
    ((fromDictionary cmp dictionary).isSome ↔ Apart cmp dictionary) ∧
      ∀ d, fromDictionary cmp dictionary = some d →
        WellFormed cmp d ∧ d.entries.Perm dictionary := by
  have hSome (h : (fromDictionary cmp dictionary).isSome) : Apart cmp dictionary := by
    refine sortedKeyList_isSome_iff.mp ?_
    rw [fromDictionary] at h
    split_ifs at h
    · rwa [arrayFromDictionary, Option.isSome_map] at h
    · obtain ⟨d, hTree⟩ := Option.isSome_iff_exists.mp h
      obtain ⟨sortedKeys, hList, -⟩ := Option.bind_eq_some_iff.mp hTree
      exact hList ▸ rfl
  refine ⟨⟨hSome, fun h => ?_⟩, fun d hd => ?_⟩
  · obtain ⟨d, hd, -⟩ := fromDictionary_eq_some h
    exact hd ▸ rfl
  · obtain ⟨d', hd', hWellFormed, hEntries⟩ := fromDictionary_eq_some (hSome (hd ▸ rfl))
    obtain rfl := Option.some.inj (hd'.symm.trans hd)
    rw [hEntries]
    exact ⟨hWellFormed, List.mergeSort_perm ..⟩

theorem fromDictionary_numbers :
    ((fromDictionary (Ord.compare : Nat → Nat → Ordering) [(7, "x"), (3, "y")]).isSome ↔
        Apart Ord.compare [(7, "x"), (3, "y")]) ∧
      ∀ d, fromDictionary (Ord.compare : Nat → Nat → Ordering) [(7, "x"), (3, "y")] = some d →
        WellFormed Ord.compare d ∧ d.entries.Perm [(7, "x"), (3, "y")] :=
  fromDictionary_spec Ord.compare [(7, "x"), (3, "y")]

end Build

section Step

variable {cmp : K → K → Ordering} [Std.TransCmp cmp] {d : FImmutableSortedDictionary K V}

theorem get_eq_lookup (h : WellFormed cmp d) (key : K) :
    d.get cmp key = SortedEntries.lookup cmp key d.entries := by
  cases d with
  | array keysAndValues => exact get_array h.1
  | tree root => exact FLLRBNode.get_eq_lookup h.1

/-- Nothing is raised, and the entries are those of one insertion. The array has the
new key in the place of one that ties, the tree keeps the old one. -/
theorem insertKey_spec (h : WellFormed cmp d) (key : K) (value : V) :
    ∃ d' rekey, d.insertKey cmp key value = some d' ∧ WellFormed cmp d' ∧
      d'.entries = SortedEntries.insert cmp rekey key value d.entries := by
  cases d with
  | array keysAndValues =>
      obtain ⟨hOrder, hForm⟩ : Sorted cmp keysAndValues ∧ keysAndValues.length ≤ sizeThreshold := h
      have hNew : Sorted cmp (SortedEntries.insert cmp true key value keysAndValues) :=
        Sorted.insert hOrder
      rw [insertKey]
      cases hFind : findKey cmp key keysAndValues with
      | some pos =>
          have hEntries := @set_position _ _ cmp key value keysAndValues _ pos hOrder hFind
          refine ⟨_, true, rfl, ⟨?_, ?_⟩, hEntries⟩
          · rwa [entries, hEntries]
          · exact List.length_set.trans_le hForm
      | none =>
          have hPerm : (SortedEntries.insert cmp true key value keysAndValues).Perm
              ((key, value) :: keysAndValues) :=
            SortedEntries.insert_perm (findKey_eq_none hOrder hFind)
          dsimp only
          split_ifs with hSize
          · obtain ⟨root, n, hTree, hBalanced, hEntries⟩ := treeFromDictionary_eq_some hNew
              (hPerm.trans (List.perm_append_singleton ..).symm)
            exact ⟨tree root, true, hTree, ⟨by rwa [entries, hEntries], n, hBalanced⟩, hEntries⟩
          · have hEntries := @insertIdx_position _ _ cmp key value keysAndValues _ hOrder hFind
            refine ⟨_, true, rfl, ⟨?_, ?_⟩, hEntries⟩
            · rwa [entries, hEntries]
            · dsimp only
              rw [hEntries, hPerm.length_eq, List.length_cons]
              omega
  | tree root =>
      obtain ⟨hOrder, n, hBalanced⟩ := h
      have hEntries : (root.insertKey cmp key value).setBlack.entries =
          SortedEntries.insert cmp false key value root.entries :=
        (FLLRBNode.entries_copyWith_color false _).trans (FLLRBNode.entries_insertKey hOrder)
      refine ⟨_, false, rfl, ⟨?_, ?_⟩, hEntries⟩
      · rw [entries, hEntries]
        exact Sorted.insert hOrder
      · exact (FLLRBNode.insertKey_inserted cmp key value hBalanced).setBlack

theorem removeKey_spec (h : WellFormed cmp d) (key : K) :
    WellFormed cmp (d.removeKey cmp key) ∧
      (d.removeKey cmp key).entries = SortedEntries.erase cmp key d.entries := by
  have hErased : Sorted cmp (SortedEntries.erase cmp key d.entries) := Sorted.erase h.1
  cases d with
  | array keysAndValues =>
      obtain ⟨hOrder, hForm⟩ : Sorted cmp keysAndValues ∧ keysAndValues.length ≤ sizeThreshold := h
      rw [removeKey]
      cases hFind : findKey cmp key keysAndValues with
      | none =>
          have hSame := SortedEntries.erase_eq_self (findKey_eq_none hOrder hFind)
          exact ⟨⟨hOrder, hForm⟩, hSame.symm⟩
      | some pos =>
          have hEntries := eraseIdx_position hOrder hFind
          refine ⟨⟨?_, ?_⟩, hEntries⟩
          · rwa [entries, hEntries]
          · exact (List.length_eraseIdx_le ..).trans hForm
  | tree root =>
      obtain ⟨hOrder, n, hBalanced⟩ := h
      rw [removeKey]
      split_ifs with hFound
      · obtain ⟨hShape, hEntries⟩ := @FLLRBNode.Balanced.remove _ _ cmp _ n root key hBalanced hOrder
        exact ⟨⟨by rwa [entries, hEntries], hShape⟩, hEntries⟩
      · have hNone : SortedEntries.lookup cmp key root.entries = none := by
          rwa [← FLLRBNode.get_eq_lookup hOrder, ← Option.not_isSome_iff_eq_none]
        have hSame := SortedEntries.erase_eq_self (SortedEntries.lookup_eq_none_iff.mp hNone)
        exact ⟨⟨hOrder, n, hBalanced⟩, hSame.symm⟩

end Step

section Neighbours

/-- The right ends of the nodes: the inner loop of getPredecessorKey. -/
def lastKey : FLLRBNode K V → Option K
  | .empty => none
  | .node _ _ key _ right => if right.isEmpty then some key else lastKey right

/-- `none` is the exception for a key that is not there. -/
def predecessor (cmp : K → K → Ordering) (key : K) :
    Option K → FLLRBNode K V → Option (Option K)
  | _, .empty => none
  | rightParent, .node _ left nodeKey _ right =>
      match cmp key nodeKey with
      | .eq => some (if left.isEmpty then rightParent else lastKey left)
      | .lt => predecessor cmp key rightParent left
      | .gt => predecessor cmp key (some nodeKey) right

def getPredecessorKey (cmp : K → K → Ordering) (key : K) :
    FImmutableSortedDictionary K V → Option (Option K)
  | array keysAndValues =>
      (findKey cmp key keysAndValues).map fun pos =>
        if pos = 0 then none else keysAndValues[pos - 1]?.map Prod.fst
  | tree root => predecessor cmp key none root

theorem lastKey_eq (node : FLLRBNode K V) : lastKey node = node.entries.getLast?.map Prod.fst := by
  induction node with
  | empty => rfl
  | node red left key value right _ ihRight =>
      rw [lastKey]
      cases right with
      | empty => simp [FLLRBNode.entries]
      | node => simp [ihRight, FLLRBNode.entries, List.getLast?_append, List.getLast?_cons]

variable {cmp : K → K → Ordering} [Std.TransCmp cmp] {d : FImmutableSortedDictionary K V}

/-- On the way down the last key passed on the left is the closest smaller one. -/
theorem predecessor_eq {node : FLLRBNode K V} (h : Sorted cmp node.entries) (key : K)
    (rightParent : Option K) :
    predecessor cmp key rightParent node = (SortedEntries.lookup cmp key node.entries).map fun _ =>
      ((SortedEntries.before cmp key node.entries).getLast?.map Prod.fst).or rightParent := by
  induction node generalizing rightParent with
  | empty => rfl
  | node red left nodeKey value right ihLeft ihRight =>
      obtain ⟨hLeft, hRight, -⟩ := Sorted.append_iff.mp h
      rw [predecessor, FLLRBNode.entries]
      split
      next hTie =>
          rw [SortedEntries.lookup_of_eq h hTie, SortedEntries.before_of_eq h hTie, Option.map_some]
          cases left with
          | empty => rfl
          | node => simp [lastKey_eq, FLLRBNode.entries, List.getLast?_append, List.getLast?_cons]
      next hLess =>
          rw [ihLeft hLeft, SortedEntries.lookup_of_lt h hLess, SortedEntries.before_of_lt h hLess]
      next hMore =>
          rw [ihRight hRight, SortedEntries.lookup_of_gt h hMore, SortedEntries.before_of_gt h hMore]
          simp only [List.getLast?_append, List.getLast?_cons, Option.some_or, Option.map_some]
          cases (SortedEntries.before cmp key right.entries).getLast? <;> rfl

/-- Both forms agree on the key before a key: the last of the smaller ones, none before
the first one, and an exception for a key that is not there. -/
theorem getPredecessorKey_eq (h : WellFormed cmp d) (key : K) :
    d.getPredecessorKey cmp key = (d.get cmp key).map fun _ =>
      (SortedEntries.before cmp key d.entries).getLast?.map Prod.fst := by
  rw [get_eq_lookup h]
  cases d with
  | tree root =>
      rw [getPredecessorKey, predecessor_eq h.1]
      simp [entries]
  | array keysAndValues =>
      obtain ⟨hOrder, -⟩ : Sorted cmp keysAndValues ∧ keysAndValues.length ≤ sizeThreshold := h
      rw [getPredecessorKey, entries]
      cases hFind : findKey cmp key keysAndValues with
      | none => rw [SortedEntries.lookup_eq_none_iff.mpr (findKey_eq_none hOrder hFind)]; rfl
      | some pos =>
          obtain ⟨front, entry, back, rfl, rfl, hTie⟩ := findKey_eq_some hFind
          rw [SortedEntries.lookup_of_eq hOrder hTie, SortedEntries.before_of_eq hOrder hTie,
            Option.map_some, Option.map_some, List.getLast?_eq_getElem?]
          cases front with
          | nil => rfl
          | cons first rest =>
              have hIndex : (first :: rest ++ entry :: back)[(first :: rest).length - 1]? =
                  (first :: rest)[(first :: rest).length - 1]? :=
                List.getElem?_append_left (by simp)
              rw [if_neg (by simp), hIndex]

def threeKeys : FImmutableSortedDictionary Nat String := array [(2, "b"), (5, "e"), (9, "i")]

theorem threeKeys_wellFormed : WellFormed Ord.compare threeKeys := ⟨by decide, show 3 ≤ 25 by decide⟩

/-- The same entries once the dictionary has been a tree. -/
def threeNodes : FImmutableSortedDictionary Nat String :=
  tree (.node false (.node false .empty 2 "b" .empty) 5 "e" (.node false .empty 9 "i" .empty))

theorem threeNodes_wellFormed : WellFormed Ord.compare threeNodes :=
  ⟨by decide, 2, .black (.black .empty .empty) (.black .empty .empty)⟩

theorem threeKeys_predecessor :
    (threeKeys.getPredecessorKey Ord.compare 9 =
      (threeKeys.get Ord.compare 9).map fun _ =>
        (SortedEntries.before Ord.compare 9 threeKeys.entries).getLast?.map Prod.fst) ∧
    threeNodes.getPredecessorKey Ord.compare 9 =
      (threeNodes.get Ord.compare 9).map fun _ =>
        (SortedEntries.before Ord.compare 9 threeNodes.entries).getLast?.map Prod.fst :=
  ⟨getPredecessorKey_eq threeKeys_wellFormed 9, getPredecessorKey_eq threeNodes_wellFormed 9⟩

end Neighbours

/-- What is done to a dictionary; each returns a new one. -/
inductive Operation (K : Type u) (V : Type v) where
  | insertKey (key : K) (value : V)
  | removeKey (key : K)

/-- The next dictionary, unless the step raises an exception. -/
def step (cmp : K → K → Ordering) (d : FImmutableSortedDictionary K V) :
    Operation K V → Option (FImmutableSortedDictionary K V)
  | .insertKey key value => d.insertKey cmp key value
  | .removeKey key => some (d.removeKey cmp key)

/-- What the operation leaves at a key, if its own key ties with it. -/
def written (cmp : K → K → Ordering) (key : K) : Operation K V → Option (Option V)
  | .insertKey aKey value => if cmp key aKey = .eq then some (some value) else none
  | .removeKey aKey => if cmp key aKey = .eq then some none else none

section Run

variable {cmp : K → K → Ordering} [Std.TransCmp cmp] {d d' : FImmutableSortedDictionary K V}

theorem step_spec (h : WellFormed cmp d) (operation : Operation K V) :
    ∃ d', step cmp d operation = some d' ∧ WellFormed cmp d' := by
  cases operation with
  | insertKey key value =>
      obtain ⟨d', _, hInsert, hWellFormed, -⟩ := insertKey_spec h key value
      exact ⟨d', hInsert, hWellFormed⟩
  | removeKey key => exact ⟨_, rfl, (removeKey_spec h key).1⟩

theorem step_get (h : WellFormed cmp d) {operation : Operation K V}
    (hStep : step cmp d operation = some d') (key : K) :
    d'.get cmp key = (written cmp key operation).getD (d.get cmp key) := by
  cases operation with
  | insertKey aKey value =>
      obtain ⟨_, rekey, hInsert, hWellFormed, hEntries⟩ := insertKey_spec h aKey value
      obtain rfl := Option.some.inj (hInsert.symm.trans hStep)
      rw [get_eq_lookup hWellFormed, hEntries, SortedEntries.lookup_insert, get_eq_lookup h, written]
      split_ifs <;> rfl
  | removeKey aKey =>
      obtain ⟨hWellFormed, hEntries⟩ := removeKey_spec h aKey
      obtain rfl := Option.some.inj hStep
      rw [get_eq_lookup hWellFormed, hEntries, SortedEntries.lookup_erase, get_eq_lookup h, written]
      split_ifs <;> rfl

/-- No operations raise anything, and the dictionary stays sorted and balanced. -/
theorem run_wellFormed (h : WellFormed cmp d) (operations : List (Operation K V)) :
    ∃ d', Transition.run (step cmp) d operations = some d' ∧ WellFormed cmp d' :=
  @Transition.exists_run _ _ (step cmp) (WellFormed cmp) (fun _ => True)
    (fun _ operation hd _ => step_spec hd operation) d operations h fun _ _ => trivial

/-- Across the change of form too, a key has what the last operation on it left there. -/
theorem run_get (h : WellFormed cmp d) (operations : List (Operation K V)) :
    ∃ d', Transition.run (step cmp) d operations = some d' ∧ WellFormed cmp d' ∧
      ∀ key, d'.get cmp key =
        ((operations.filterMap (written cmp key)).getLast?).getD (d.get cmp key) := by
  obtain ⟨d', hRun, hWellFormed⟩ := run_wellFormed h operations
  refine ⟨d', hRun, hWellFormed, fun key => ?_⟩
  refine Transition.run_last_write_of_invariant (step cmp) (fun s => s.get cmp key)
    (fun s operation s' hs hStep => ?_) (fun s operation s' hs hStep => step_get hs hStep key) hRun h
  obtain ⟨_, hNext, hKept⟩ := step_spec hs operation
  exact Option.some.inj (hNext.symm.trans hStep) ▸ hKept

theorem run_get_threeKeys :
    (∃ d', Transition.run (step Ord.compare) threeKeys [.insertKey 5 "E", .removeKey 2] = some d' ∧
      WellFormed Ord.compare d' ∧ ∀ key, d'.get Ord.compare key =
        (([.insertKey 5 "E", .removeKey 2].filterMap (written Ord.compare key)).getLast?).getD
          (threeKeys.get Ord.compare key)) ∧
    ∃ d', Transition.run (step Ord.compare) threeNodes [.insertKey 5 "E", .removeKey 2] = some d' ∧
      WellFormed Ord.compare d' ∧ ∀ key, d'.get Ord.compare key =
        (([.insertKey 5 "E", .removeKey 2].filterMap (written Ord.compare key)).getLast?).getD
          (threeNodes.get Ord.compare key) :=
  ⟨run_get threeKeys_wellFormed _, run_get threeNodes_wellFormed _⟩

/-- A short array, or a tree that passes its own checks and where a search takes no
more than twice the depth of a perfect tree. -/
def Shallow (cmp : K → K → Ordering) : FImmutableSortedDictionary K V → Prop
  | array keysAndValues => keysAndValues.length ≤ sizeThreshold
  | tree root => root.check.isSome ∧ root.checkMaxDepth = some true ∧
      ∀ key, root.comparisons cmp key ≤ 2 * Nat.log2 (root.count + 1)

theorem run_shallow (operations : List (Operation K V)) :
    ∃ d', Transition.run (step cmp) (array []) operations = some d' ∧ Shallow cmp d' := by
  have hEmpty : WellFormed cmp (array [] : FImmutableSortedDictionary K V) :=
    ⟨List.Pairwise.nil, Nat.zero_le _⟩
  obtain ⟨d', hRun, -, hForm⟩ := run_wellFormed hEmpty operations
  refine ⟨d', hRun, ?_⟩
  cases d' with
  | array => exact hForm
  | tree root =>
      obtain ⟨h, hBalanced⟩ := hForm
      refine ⟨?_, hBalanced.checkMaxDepth, hBalanced.comparisons_le_log2 cmp⟩
      exact Option.isSome_iff_exists.mpr ⟨h, FLLRBNode.check_eq_some_iff.mpr ⟨false, hBalanced⟩⟩

theorem run_shallow_numbers :
    ∃ d', Transition.run (step (Ord.compare : Nat → Nat → Ordering)) (array [])
      ((List.range 40).map fun key => .insertKey key "") = some d' ∧ Shallow Ord.compare d' :=
  run_shallow _

end Run

end FImmutableSortedDictionary

end CICJudging
