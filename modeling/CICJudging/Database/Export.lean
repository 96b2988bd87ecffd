import CICJudging.Library.Json
import CICJudging.Library.Text
import CICJudging.Database.Root

/-! The value of a node with children, as the client hands it to an observer. A
node whose keys look like the indices of an array becomes one. -/
namespace CICJudging

open Json Text

/-- The scanner stops at the largest 64-bit number. -/
def intForString (string : String) : Option Nat :=
  (decimalValue string.toList).map fun number => min number (2 ^ 63 - 1)

/-- The key as an index. Leading zeros make it a string. -/
def keyAsNum (key : String) : Option Nat :=
  if key.toList.head? = some '0' ∧ 1 < key.toList.length then none else intForString key

def maxKey (children : List (String × Value)) : Nat :=
  (children.map fun child => (keyAsNum child.1).getD 0).foldl max 0

def valForExport (children : List (String × Value)) : Value :=
  let numKeys := children.length
  let allIntegerKeys := children.all fun child => (keyAsNum child.1).isSome
  if children.isEmpty then .null
  else if allIntegerKeys ∧ maxKey children < 2 * numKeys then
    .array ((List.range (maxKey children + 1)).map fun i => (children.lookup (Nat.repr i)).getD .null)
  else .object children

/-- The two shapes of a node that has children. -/
theorem valForExport_cases {children : List (String × Value)} (h : children ≠ []) :
    ((∃ child ∈ children, keyAsNum child.1 = none) ∨ 2 * children.length ≤ maxKey children) ∧
        valForExport children = .object children ∨
      (∀ child ∈ children, (keyAsNum child.1).isSome) ∧ maxKey children < 2 * children.length ∧
        ∃ elements, valForExport children = .array elements := by
  unfold valForExport
  rw [if_neg (by simpa using h)]
  split_ifs with hArray
  · exact Or.inr ⟨by simpa using hArray.1, hArray.2, _, rfl⟩
  · refine Or.inl ⟨?_, rfl⟩
    rw [not_and_or] at hArray
    refine hArray.imp ?_ not_lt.mp
    intro hAll
    simpa using hAll

private theorem foldl_max_lt_iff {keys : List Nat} {start bound : Nat} :
    keys.foldl max start < bound ↔ start < bound ∧ ∀ key ∈ keys, key < bound := by
  induction keys generalizing start with
  | nil => simp
  | cons key keys ih => simp [ih, and_assoc]

theorem maxKey_lt_iff {children : List (String × Value)} {bound : Nat} (hBound : 0 < bound) :
    maxKey children < bound ↔ ∀ child ∈ children, (keyAsNum child.1).getD 0 < bound := by
  rw [maxKey, foldl_max_lt_iff, and_iff_right hBound, List.forall_mem_map]

theorem keyAsNum_teamKey (n : Nat) : keyAsNum (teamKey n) = some (min n (2 ^ 63 - 1)) := by
  have hDigits : (teamKey n).toList = Nat.toDigits 10 n := Nat.toList_repr
  have hPlain : ¬((Nat.toDigits 10 n).head? = some '0' ∧ 1 < (Nat.toDigits 10 n).length) := by
    rintro ⟨hHead, hLong⟩
    obtain rfl := head_toDigits_eq_zero hHead
    exact absurd hLong (by decide)
  rw [keyAsNum, hDigits, if_neg hPlain, intForString, hDigits, decimalValue_toDigits]
  rfl

end CICJudging
