import CICJudging.Library.SortedEntries

/-! The left-leaning red-black tree of the children of a node: its rotations, what
its own check accepts, insertion and lookup. -/
namespace CICJudging

open SortedEntries (Sorted)

universe u v

inductive FLLRBNode (K : Type u) (V : Type v) where
  | empty
  | node (red : Bool) (left : FLLRBNode K V) (key : K) (value : V) (right : FLLRBNode K V)
  deriving DecidableEq

namespace FLLRBNode

variable {K : Type u} {V : Type v}

/-- The empty node has no children; its nil is as empty. -/
def left : FLLRBNode K V → FLLRBNode K V
  | empty => empty
  | node _ left .. => left

def right : FLLRBNode K V → FLLRBNode K V
  | empty => empty
  | node _ _ _ _ right => right

def isEmpty : FLLRBNode K V → Bool
  | empty => true
  | node .. => false

def isRed : FLLRBNode K V → Bool
  | empty => false
  | node red .. => red

def count : FLLRBNode K V → Nat
  | empty => 0
  | node _ left _ _ right => left.count + 1 + right.count

/-- The keys and values that inorderTraversal hands over. -/
def entries : FLLRBNode K V → List (K × V)
  | empty => []
  | node _ left key value right => left.entries ++ (key, value) :: right.entries

section Parts

variable (red : Bool) (l r : FLLRBNode K V) (key : K) (value : V)

@[simp] theorem left_node : (node red l key value r).left = l := rfl

@[simp] theorem right_node : (node red l key value r).right = r := rfl

@[simp] theorem isRed_node : (node red l key value r).isRed = red := rfl

@[simp] theorem isEmpty_node : (node red l key value r).isEmpty = false := rfl

@[simp] theorem isRed_empty : (empty : FLLRBNode K V).isRed = false := rfl

@[simp] theorem isEmpty_empty : (empty : FLLRBNode K V).isEmpty = true := rfl

@[simp] theorem left_empty : (empty : FLLRBNode K V).left = empty := rfl

end Parts

/-- What is not given is kept. -/
def copyWith (aKey : Option K) (aValue : Option V) (aColor : Option Bool)
    (aLeft aRight : Option (FLLRBNode K V)) : FLLRBNode K V → FLLRBNode K V
  | empty => empty
  | node red left key value right =>
      node (aColor.getD red) (aLeft.getD left) (aKey.getD key) (aValue.getD value)
        (aRight.getD right)

def rotateLeft (n : FLLRBNode K V) : FLLRBNode K V :=
  let nl := n.copyWith none none (some true) none (some n.right.left)
  n.right.copyWith none none (some n.isRed) (some nl) none

def rotateRight (n : FLLRBNode K V) : FLLRBNode K V :=
  let nr := n.copyWith none none (some true) (some n.left.right) none
  n.left.copyWith none none (some n.isRed) none (some nr)

def colorFlip (n : FLLRBNode K V) : FLLRBNode K V :=
  let nleft := n.left.copyWith none none (some !n.left.isRed) none none
  let nright := n.right.copyWith none none (some !n.right.isRed) none none
  n.copyWith none none (some !n.isRed) (some nleft) (some nright)

def fixUp (n : FLLRBNode K V) : FLLRBNode K V :=
  let n := if n.right.isRed && !n.left.isRed then n.rotateLeft else n
  let n := if n.left.isRed && n.left.left.isRed then n.rotateRight else n
  if n.left.isRed && n.right.isRed then n.colorFlip else n

def setBlack (n : FLLRBNode K V) : FLLRBNode K V := n.copyWith none none (some false) none none

section Insert

variable (cmp : K → K → Ordering)

def insertKey (aKey : K) (aValue : V) : FLLRBNode K V → FLLRBNode K V
  | empty => node true empty aKey aValue empty
  | node red left key value right =>
      match cmp aKey key with
      | .lt => fixUp (node red (insertKey aKey aValue left) key value right)
      | .eq => fixUp (node red left key aValue right)
      | .gt => fixUp (node red left key value (insertKey aKey aValue right))

def get (key : K) : FLLRBNode K V → Option V
  | empty => none
  | node _ left nodeKey value right =>
      match cmp key nodeKey with
      | .lt => get key left
      | .eq => some value
      | .gt => get key right

end Insert

/-- The black depth, or an exception: a red node with a red child, a red right child,
or children of different depths. -/
def check : FLLRBNode K V → Option Nat
  | empty => some 0
  | node red left _ _ right =>
      if red && left.isRed then none
      else if right.isRed then none
      else
        match left.check, right.check with
        | some blackDepth, some other =>
            if blackDepth = other then some (blackDepth + if red then 0 else 1) else none
        | _, _ => none

/-- The black depth is at most the depth of a perfect tree with so many keys. -/
def checkMaxDepth (n : FLLRBNode K V) : Option Bool :=
  n.check.map fun blackDepth => decide (2 ^ blackDepth ≤ n.count + 1)

/-- The calls of the comparator by get. -/
def comparisons (cmp : K → K → Ordering) (key : K) : FLLRBNode K V → Nat
  | empty => 0
  | node _ left nodeKey _ right =>
      match cmp key nodeKey with
      | .lt => comparisons cmp key left + 1
      | .eq => 1
      | .gt => comparisons cmp key right + 1

/-- The trees that check accepts, by the color of the root and the black depth. -/
inductive Balanced : Bool → Nat → FLLRBNode K V → Prop where
  | empty : Balanced false 0 empty
  | red {h : Nat} {l r : FLLRBNode K V} {k : K} {v : V} :
      Balanced false h l → Balanced false h r → Balanced true h (node true l k v r)
  | black {c : Bool} {h : Nat} {l r : FLLRBNode K V} {k : K} {v : V} :
      Balanced c h l → Balanced false h r → Balanced false (h + 1) (node false l k v r)

section Shape

variable {n l r : FLLRBNode K V} {k : K} {v : V} {c : Bool} {h : Nat}

theorem Balanced.isRed (hBalanced : Balanced c h n) : n.isRed = c := by
  cases hBalanced <;> rfl

theorem check_eq_some_iff : n.check = some h ↔ ∃ c, Balanced c h n := by
  induction n generalizing h with
  | empty =>
      constructor
      · intro hCheck
        cases hCheck
        exact ⟨false, .empty⟩
      · rintro ⟨c, hBalanced⟩
        cases hBalanced
        rfl
  | node red left key value right ihLeft ihRight =>
      constructor
      · intro hCheck
        rw [check] at hCheck
        rw [Option.ite_none_left_eq_some, Option.ite_none_left_eq_some] at hCheck
        obtain ⟨hRed, hRight, hCheck⟩ := hCheck
        cases hLeft : left.check with
        | none => rw [hLeft] at hCheck; cases hCheck
        | some blackDepth =>
            cases hOther : right.check with
            | none => rw [hLeft, hOther] at hCheck; cases hCheck
            | some other =>
                obtain ⟨cl, hl⟩ := ihLeft.mp hLeft
                obtain ⟨cr, hr⟩ := ihRight.mp hOther
                rw [hr.isRed, Bool.not_eq_true] at hRight
                subst hRight
                simp only [hLeft, hOther, Option.ite_none_right_eq_some] at hCheck
                obtain ⟨rfl, hDepth⟩ := hCheck
                cases hDepth
                cases red with
                | true =>
                    rw [Bool.true_and, hl.isRed, Bool.not_eq_true] at hRed
                    subst hRed
                    exact ⟨true, .red hl hr⟩
                | false => exact ⟨false, .black hl hr⟩
      · rintro ⟨c, hBalanced⟩
        cases hBalanced with
        | red hLeft hRight =>
            rw [check, hLeft.isRed, hRight.isRed, ihLeft.mpr ⟨_, hLeft⟩, ihRight.mpr ⟨_, hRight⟩]
            simp
        | black hLeft hRight =>
            rw [check, hRight.isRed, ihLeft.mpr ⟨_, hLeft⟩, ihRight.mpr ⟨_, hRight⟩]
            simp

theorem Balanced.two_pow_le (hBalanced : Balanced c h n) : 2 ^ h ≤ n.count + 1 := by
  induction hBalanced with
  | empty => exact Nat.le_refl _
  | red _ _ ihLeft ihRight =>
      rw [count]
      omega
  | black _ _ ihLeft ihRight =>
      rw [count, Nat.pow_succ]
      omega

theorem Balanced.checkMaxDepth (hBalanced : Balanced c h n) : n.checkMaxDepth = some true := by
  rw [FLLRBNode.checkMaxDepth, check_eq_some_iff.mpr ⟨c, hBalanced⟩, Option.map_some,
    decide_eq_true hBalanced.two_pow_le]

/-- Every second node of a path may be red. -/
theorem Balanced.comparisons_le (hBalanced : Balanced c h n) (cmp : K → K → Ordering) (key : K) :
    n.comparisons cmp key ≤ 2 * h + c.toNat := by
  induction hBalanced with
  | empty => exact Nat.zero_le _
  | red _ _ ihLeft ihRight =>
      rw [comparisons]
      simp only [Bool.toNat_false, Bool.toNat_true] at *
      split <;> omega
  | @black c h l r k v _ _ ihLeft ihRight =>
      have hColor := Bool.toNat_le c
      rw [comparisons]
      simp only [Bool.toNat_false] at *
      split <;> omega

theorem Balanced.comparisons_le_log2 (hBalanced : Balanced false h n) (cmp : K → K → Ordering)
    (key : K) : n.comparisons cmp key ≤ 2 * Nat.log2 (n.count + 1) := by
  have hDepth : h ≤ Nat.log2 (n.count + 1) :=
    (Nat.le_log2 (Nat.succ_ne_zero _)).mpr hBalanced.two_pow_le
  have hPath := hBalanced.comparisons_le cmp key
  rw [Bool.toNat_false] at hPath
  omega

theorem fixUp_eq_self (hRight : r.isRed = false) (hLeft : (l.isRed && l.left.isRed) = false) :
    fixUp (node c l k v r) = node c l k v r := by
  simp [fixUp, hRight, hLeft]

/-- A red right child under a black left one leans to the left. -/
theorem fixUp_lean {a b : FLLRBNode K V} {k' : K} {v' : V} (hLeft : l.isRed = false)
    (hRight : b.isRed = false) :
    fixUp (node c l k v (node true a k' v' b)) = node c (node true l k v a) k' v' b := by
  simp [fixUp, rotateLeft, copyWith, hLeft, hRight]

/-- Two red children become black. -/
theorem fixUp_flip {a b a' b' : FLLRBNode K V} {k₁ k₂ : K} {v₁ v₂ : V} (hLeft : a.isRed = false) :
    fixUp (node c (node true a k₁ v₁ b) k v (node true a' k₂ v₂ b')) =
      node (!c) (node false a k₁ v₁ b) k v (node false a' k₂ v₂ b') := by
  simp [fixUp, colorFlip, copyWith, hLeft]

/-- Two reds in a row on the left are turned up. -/
theorem fixUp_turn {a b b' : FLLRBNode K V} {k₁ k₂ : K} {v₁ v₂ : V} (hRight : r.isRed = false) :
    fixUp (node c (node true (node true a k₁ v₁ b) k₂ v₂ b') k v r) =
      node (!c) (node false a k₁ v₁ b) k₂ v₂ (node false b' k v r) := by
  simp [fixUp, rotateRight, colorFlip, copyWith, hRight]

end Shape

section Order

variable {cmp : K → K → Ordering} {key : K} {value : V} {n : FLLRBNode K V}

theorem entries_copyWith_color (color : Bool) (n : FLLRBNode K V) :
    (n.copyWith none none (some color) none none).entries = n.entries := by
  cases n <;> rfl

theorem entries_rotateLeft (h : n.right.isRed = true) : n.rotateLeft.entries = n.entries := by
  cases n with
  | empty => rfl
  | node c l k v r =>
      cases r with
      | empty => cases h
      | node => simp [rotateLeft, copyWith, entries]

theorem entries_rotateRight (h : n.left.isRed = true) : n.rotateRight.entries = n.entries := by
  cases n with
  | empty => rfl
  | node c l k v r =>
      cases l with
      | empty => cases h
      | node => simp [rotateRight, copyWith, entries]

theorem entries_colorFlip (n : FLLRBNode K V) : n.colorFlip.entries = n.entries := by
  cases n with
  | empty => rfl
  | node c l k v r => cases l <;> cases r <;> rfl

theorem entries_fixUp (n : FLLRBNode K V) : n.fixUp.entries = n.entries := by
  have hLeaning : (if n.right.isRed && !n.left.isRed then n.rotateLeft else n).entries = n.entries := by
    split_ifs with h
    · exact entries_rotateLeft (Bool.and_eq_true_iff.mp h).1
    · rfl
  rw [fixUp, ← hLeaning]
  generalize (if n.right.isRed && !n.left.isRed then n.rotateLeft else n) = n
  have hTurn : (if n.left.isRed && n.left.left.isRed then n.rotateRight else n).entries =
      n.entries := by
    split_ifs with h
    · exact entries_rotateRight (Bool.and_eq_true_iff.mp h).1
    · rfl
  rw [← hTurn]
  generalize (if n.left.isRed && n.left.left.isRed then n.rotateRight else n) = n
  split_ifs
  · exact entries_colorFlip n
  · rfl

variable [Std.TransCmp cmp]

/-- Insertion writes the entry into the sorted entries; a key that ties stays. -/
theorem entries_insertKey (h : Sorted cmp n.entries) :
    (n.insertKey cmp key value).entries = SortedEntries.insert cmp false key value n.entries := by
  induction n with
  | empty => rfl
  | node red l k v r ihLeft ihRight =>
      obtain ⟨hLeft, hRight, -⟩ := Sorted.append_iff.mp h
      rw [insertKey]
      split
      next hKey => rw [entries_fixUp, entries, ihLeft hLeft, entries, SortedEntries.insert_of_lt h hKey]
      next hKey => rw [entries_fixUp, entries, entries, SortedEntries.insert_of_eq h hKey]; rfl
      next hKey => rw [entries_fixUp, entries, ihRight hRight, entries, SortedEntries.insert_of_gt h hKey]

theorem get_eq_lookup (h : Sorted cmp n.entries) :
    n.get cmp key = SortedEntries.lookup cmp key n.entries := by
  induction n with
  | empty => rfl
  | node red l k v r ihLeft ihRight =>
      obtain ⟨hLeft, hRight, -⟩ := Sorted.append_iff.mp h
      rw [get, entries]
      split
      next hKey => rw [ihLeft hLeft, SortedEntries.lookup_of_lt h hKey]
      next hKey => rw [SortedEntries.lookup_of_eq h hKey]
      next hKey => rw [ihRight hRight, SortedEntries.lookup_of_gt h hKey]

end Order

section InsertBalance

variable {n : FLLRBNode K V} {c : Bool} {h : Nat}

/-- What an insertion leaves: under a red root, the new red may touch it. -/
inductive Inserted (c : Bool) : Nat → FLLRBNode K V → Prop where
  | balanced {c' : Bool} {h : Nat} {n : FLLRBNode K V} : Balanced c' h n → Inserted c h n
  | redRed {h : Nat} {l r : FLLRBNode K V} {k : K} {v : V} :
      c = true → Balanced true h l → Balanced false h r → Inserted c h (node true l k v r)

theorem Inserted.setBlack (hInserted : Inserted c h n) : ∃ h', Balanced false h' n.setBlack := by
  cases hInserted with
  | balanced hBalanced =>
      cases hBalanced with
      | empty => exact ⟨0, .empty⟩
      | red hLeft hRight => exact ⟨_, .black hLeft hRight⟩
      | black hLeft hRight => exact ⟨_, .black hLeft hRight⟩
  | redRed _ hLeft hRight => exact ⟨_, .black hLeft hRight⟩

theorem Balanced.not_redRed (hBalanced : Balanced c h n) :
    (n.isRed && n.left.isRed) = false := by
  cases hBalanced with
  | empty => rfl
  | red hLeft _ => exact hLeft.isRed
  | black _ _ => rfl

/-- Children that are balanced, the right one black, are left alone. -/
theorem fixUp_balanced {c' : Bool} {h' : Nat} {l r : FLLRBNode K V} {k : K} {v : V} {color : Bool}
    (hLeft : Balanced c h l) (hRight : Balanced c' h' r) (hBlack : c' = false) :
    fixUp (node color l k v r) = node color l k v r :=
  fixUp_eq_self (hRight.isRed.trans hBlack) hLeft.not_redRed

section Rebuilt

variable {l r : FLLRBNode K V} {k : K} {v : V}

theorem Inserted.red_left (hNew : Inserted false h l) (hRight : Balanced false h r) :
    Inserted true h (fixUp (node true l k v r)) := by
  cases hNew with
  | @balanced c' _ _ hLeft =>
      rw [fixUp_balanced hLeft hRight rfl]
      cases c' with
      | true => exact .redRed rfl hLeft hRight
      | false => exact .balanced (.red hLeft hRight)
  | redRed hc => cases hc

/-- A new red on the right leans over, and may leave two reds in a row. -/
theorem Inserted.red_right (hLeft : Balanced false h l) (hNew : Inserted false h r) :
    Inserted true h (fixUp (node true l k v r)) := by
  cases hNew with
  | @balanced c' _ _ hRight =>
      cases c' with
      | true =>
          obtain _ | ⟨hInner, hOuter⟩ := hRight
          rw [fixUp_lean hLeft.isRed hOuter.isRed]
          exact .redRed rfl (.red hLeft hInner) hOuter
      | false =>
          rw [fixUp_balanced hLeft hRight rfl]
          exact .balanced (.red hLeft hRight)
  | redRed hc => cases hc

/-- Two reds in a row end under a black node. -/
theorem Inserted.black_left (hNew : Inserted c h l) (hRight : Balanced false h r) :
    Inserted false (h + 1) (fixUp (node false l k v r)) := by
  cases hNew with
  | balanced hLeft =>
      rw [fixUp_balanced hLeft hRight rfl]
      exact .balanced (.black hLeft hRight)
  | redRed _ hTop hLow =>
      obtain _ | ⟨hFirst, hSecond⟩ := hTop
      rw [fixUp_turn hRight.isRed]
      exact .balanced (.red (.black hFirst hSecond) (.black hLow hRight))

theorem Inserted.black_right (hLeft : Balanced c h l) (hNew : Inserted false h r) :
    Inserted false (h + 1) (fixUp (node false l k v r)) := by
  cases hNew with
  | @balanced c' _ _ hRight =>
      cases c' with
      | false =>
          rw [fixUp_balanced hLeft hRight rfl]
          exact .balanced (.black hLeft hRight)
      | true =>
          obtain _ | ⟨hInner, hOuter⟩ := hRight
          cases c with
          | false =>
              rw [fixUp_lean hLeft.isRed hOuter.isRed]
              exact .balanced (.black (.red hLeft hInner) hOuter)
          | true =>
              obtain _ | ⟨hFirst, hSecond⟩ := hLeft
              rw [fixUp_flip hFirst.isRed]
              exact .balanced (.red (.black hFirst hSecond) (.black hInner hOuter))
  | redRed hc => cases hc

end Rebuilt

theorem insertKey_inserted (cmp : K → K → Ordering) (key : K) (value : V)
    (hBalanced : Balanced c h n) : Inserted c h (n.insertKey cmp key value) := by
  induction hBalanced with
  | empty => exact .balanced (.red .empty .empty)
  | red hLeft hRight ihLeft ihRight =>
      rw [insertKey]
      split
      next => exact .red_left ihLeft hRight
      next =>
          rw [fixUp_balanced hLeft hRight rfl]
          exact .balanced (.red hLeft hRight)
      next => exact .red_right hLeft ihRight
  | black hLeft hRight ihLeft ihRight =>
      rw [insertKey]
      split
      next => exact .black_left ihLeft hRight
      next =>
          rw [fixUp_balanced hLeft hRight rfl]
          exact .balanced (.black hLeft hRight)
      next => exact .black_right hLeft ihRight

end InsertBalance

end FLLRBNode

end CICJudging
