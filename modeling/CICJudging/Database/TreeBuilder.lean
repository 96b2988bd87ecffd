import CICJudging.Database.SortedTree

/-! A tree built at once from sorted keys: a chain of pennants, two of a size or one
by the digits of the length in base 1-2. -/
namespace CICJudging

namespace FLLRBNode

universe u v

variable {K : Type u} {V : Type v}

/-- A length of 0 is the empty tree; a key beyond the list is an exception. -/
def buildBalancedTree (keys : List (K × V)) (startIndex length : Nat) :
    Option (FLLRBNode K V) :=
  let bounded := Nat.min (keys.length - startIndex) length
  if bounded = 0 then some empty
  else if bounded = 1 then
    keys[startIndex]?.map fun entry => node false empty entry.1 entry.2 empty
  else do
    let middle := bounded / 2
    let left ← buildBalancedTree keys startIndex middle
    let right ← buildBalancedTree keys (startIndex + middle + 1) middle
    let entry ← keys[startIndex + middle]?
    return node false left entry.1 entry.2 right
termination_by length
decreasing_by
  all_goals
    have hBound : Nat.min (keys.length - startIndex) length ≤ length := Nat.min_le_right ..
    omega

/-- The last keys before the index, under the pennants that hang to the left. -/
def buildPennant (keys : List (K × V)) (color : Bool) (chunkSize index : Nat)
    (left : FLLRBNode K V) : Option (FLLRBNode K V) := do
  let childTree ← buildBalancedTree keys (index - chunkSize + 1) (chunkSize - 1)
  let entry ← keys[index - chunkSize]?
  return node color left entry.1 entry.2 childTree

/-- The digits that are left, the index of the next pennant. -/
def rootFrom12List (keys : List (K × V)) (bits : Nat) : Nat → Nat → Option (FLLRBNode K V)
  | 0, _ => some empty
  | count + 1, index =>
      let chunkSize := 2 ^ count
      let isOne := !bits.testBit count
      if isOne then do
        let left ← rootFrom12List keys bits count (index - chunkSize)
        buildPennant keys false chunkSize index left
      else do
        let left ← rootFrom12List keys bits count (index - chunkSize - chunkSize)
        let red ← buildPennant keys true chunkSize (index - chunkSize) left
        buildPennant keys false chunkSize index red

/-- All keys: the digits of the length plus one, but for the leading one. -/
def fromSortedKeys (keys : List (K × V)) : Option (FLLRBNode K V) :=
  let count := Nat.log2 (keys.length + 1)
  let bits := (keys.length + 1) &&& (2 ^ count - 1)
  rootFrom12List keys bits count keys.length

section Build

variable {keys : List (K × V)}

theorem take_middle {startIndex m : Nat} (h : startIndex + m < keys.length) :
    (keys.drop startIndex).take (m + (m + 1)) =
      (keys.drop startIndex).take m ++
        keys[startIndex + m] :: (keys.drop (startIndex + m + 1)).take m := by
  rw [List.take_add, List.drop_drop, List.drop_eq_getElem_cons h, List.take_succ_cons]

theorem buildBalancedTree_spec {j startIndex : Nat} (h : startIndex + (2 ^ j - 1) ≤ keys.length) :
    ∃ n, buildBalancedTree keys startIndex (2 ^ j - 1) = some n ∧ Balanced false j n ∧
      n.entries = (keys.drop startIndex).take (2 ^ j - 1) := by
  induction j generalizing startIndex with
  | zero =>
      refine ⟨empty, ?_, .empty, ?_⟩
      · rw [buildBalancedTree]
        simp
      · simp [entries]
  | succ j ih =>
      obtain ⟨m, hm⟩ : ∃ m, 2 ^ j - 1 = m := ⟨_, rfl⟩
      have hPos : 0 < 2 ^ j := Nat.two_pow_pos j
      have hDouble : 2 ^ (j + 1) - 1 = m + (m + 1) := by
        rw [Nat.pow_succ]
        omega
      rw [hDouble] at h ⊢
      rw [hm] at ih
      have hIndex : startIndex + m < keys.length := by omega
      have hBounded : Nat.min (keys.length - startIndex) (m + (m + 1)) = m + (m + 1) :=
        Nat.min_eq_right (by omega)
      obtain ⟨left, hLeft, hLeftBalanced, hLeftEntries⟩ := @ih startIndex (by omega)
      obtain ⟨right, hRight, hRightBalanced, hRightEntries⟩ :=
        @ih (startIndex + m + 1) (by omega)
      refine ⟨node false left keys[startIndex + m].1 keys[startIndex + m].2 right, ?_,
        .black hLeftBalanced hRightBalanced, ?_⟩
      · have hEntry : keys[startIndex + m]? = some keys[startIndex + m] :=
          List.getElem?_eq_getElem hIndex
        rw [buildBalancedTree, hBounded]
        by_cases hOne : m = 0
        · subst hOne
          have hNothing (index : Nat) : buildBalancedTree keys index 0 = some empty := by
            rw [buildBalancedTree]
            simp
          cases Option.some.inj (hLeft.symm.trans (hNothing _))
          cases Option.some.inj (hRight.symm.trans (hNothing _))
          simp only [Nat.add_zero, Nat.zero_add] at hEntry ⊢
          simp [hEntry]
        · have hMiddle : (m + (m + 1)) / 2 = m := by omega
          rw [if_neg (by omega), if_neg (by omega)]
          simp [hMiddle, hLeft, hRight, hEntry]
      · rw [entries, hLeftEntries, hRightEntries, take_middle hIndex]

theorem buildPennant_spec {color : Bool} {j index : Nat} {left : FLLRBNode K V}
    (hIndex : index + 2 ^ j ≤ keys.length) (hEntries : left.entries = keys.take index) :
    ∃ key value childTree, buildPennant keys color (2 ^ j) (index + 2 ^ j) left =
        some (node color left key value childTree) ∧
      Balanced false j childTree ∧
      (node color left key value childTree).entries = keys.take (index + 2 ^ j) := by
  have hPos : 0 < 2 ^ j := Nat.two_pow_pos j
  have hLess : index < keys.length := by omega
  obtain ⟨childTree, hBuild, hBalanced, hChild⟩ :=
    @buildBalancedTree_spec _ _ keys j (index + 1) (by omega)
  refine ⟨keys[index].1, keys[index].2, childTree, ?_, hBalanced, ?_⟩
  · rw [buildPennant, Nat.add_sub_cancel, hBuild, List.getElem?_eq_getElem hLess]
    rfl
  · have hSplit : keys.take (index + 2 ^ j) =
        keys.take index ++ keys[index] :: (keys.drop (index + 1)).take (2 ^ j - 1) := by
      obtain ⟨m, hm⟩ : ∃ m, 2 ^ j = m + 1 := ⟨2 ^ j - 1, by omega⟩
      rw [hm, List.take_add, List.drop_eq_getElem_cons hLess, List.take_succ_cons,
        Nat.add_sub_cancel]
    rw [entries, hEntries, hChild, hSplit]

/-- The keys under the pennants of the digits that are left. -/
def pennantSize (bits : Nat) : Nat → Nat
  | 0 => 0
  | count + 1 => pennantSize bits count + 2 ^ count + (if bits.testBit count then 2 ^ count else 0)

theorem pennantSize_eq (bits count : Nat) :
    pennantSize bits count = 2 ^ count - 1 + bits % 2 ^ count := by
  induction count with
  | zero => simp [pennantSize, Nat.mod_one]
  | succ count ih =>
      have hPos : 0 < 2 ^ count := Nat.two_pow_pos count
      have hDigit : bits / 2 ^ count % 2 = (bits.testBit count).toNat :=
        (Nat.toNat_testBit bits count).symm
      rw [pennantSize, ih, Nat.mod_pow_succ, hDigit, Nat.pow_succ]
      cases bits.testBit count
      · rw [if_neg Bool.false_ne_true, Bool.toNat_false]
        omega
      · rw [if_pos rfl, Bool.toNat_true]
        omega

theorem rootFrom12List_spec {bits count : Nat} (h : pennantSize bits count ≤ keys.length) :
    ∃ n, rootFrom12List keys bits count (pennantSize bits count) = some n ∧
      Balanced false count n ∧ n.entries = keys.take (pennantSize bits count) := by
  induction count with
  | zero => exact ⟨empty, rfl, .empty, by simp [pennantSize, entries]⟩
  | succ count ih =>
      have hPos : 0 < 2 ^ count := Nat.two_pow_pos count
      rw [pennantSize] at h ⊢
      rw [rootFrom12List]
      cases hBit : bits.testBit count with
      | false =>
          rw [hBit, if_neg Bool.false_ne_true, Nat.add_zero] at h
          obtain ⟨left, hLeft, hBalanced, hEntries⟩ := ih (by omega)
          obtain ⟨key, value, childTree, hBuild, hChild, hAll⟩ :=
            @buildPennant_spec _ _ keys false count _ left h hEntries
          refine ⟨node false left key value childTree, ?_, .black hBalanced hChild, hAll⟩
          simp [hLeft, hBuild]
      | true =>
          rw [hBit, if_pos rfl] at h
          obtain ⟨left, hLeft, hBalanced, hEntries⟩ := ih (by omega)
          obtain ⟨redKey, redValue, redTree, hRed, hRedChild, hRedAll⟩ :=
            @buildPennant_spec _ _ keys true count _ left (by omega) hEntries
          obtain ⟨key, value, childTree, hBuild, hChild, hAll⟩ :=
            @buildPennant_spec _ _ keys false count _ _ h hRedAll
          refine ⟨_, ?_, .black (.red hBalanced hRedChild) hChild, hAll⟩
          simp [hLeft, hRed, hBuild]

theorem pennantSize_length (length : Nat) :
    pennantSize ((length + 1) &&& (2 ^ Nat.log2 (length + 1) - 1)) (Nat.log2 (length + 1)) =
      length := by
  have hLow : 2 ^ Nat.log2 (length + 1) ≤ length + 1 := Nat.log2_self_le (Nat.succ_ne_zero _)
  have hHigh : length + 1 < 2 ^ (Nat.log2 (length + 1) + 1) := Nat.lt_log2_self
  have hPos : 0 < 2 ^ Nat.log2 (length + 1) := Nat.two_pow_pos _
  rw [pennantSize_eq, Nat.and_two_pow_sub_one_eq_mod, Nat.mod_mod]
  rw [Nat.pow_succ] at hHigh
  rw [Nat.mod_eq_sub_mod hLow, Nat.mod_eq_of_lt (by omega)]
  omega

/-- No key is out of range, check accepts the tree, and it has the keys in their order. -/
theorem fromSortedKeys_spec (keys : List (K × V)) :
    ∃ n h, fromSortedKeys keys = some n ∧ Balanced false h n ∧ n.entries = keys := by
  have hSize := pennantSize_length keys.length
  obtain ⟨n, hRoot, hBalanced, hEntries⟩ := rootFrom12List_spec (Nat.le_of_eq hSize)
  rw [hSize] at hRoot hEntries
  exact ⟨n, _, hRoot, hBalanced, hEntries.trans List.take_length⟩

end Build

end FLLRBNode

end CICJudging
