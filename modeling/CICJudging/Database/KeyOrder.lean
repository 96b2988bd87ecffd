import Mathlib

/-! The order of the children of a node. Keys that look like 32-bit numbers come
first, by value and then by length; all others by their UTF-16 code units. -/
namespace CICJudging

/-- An `NSString` is its code units. -/
abbrev NSString := List UInt16

def minus : UInt16 := 45

/-- The loop over the characters; `none` at one that is not a digit. -/
def scanDigits (value : Nat) : NSString → Option Nat
  | [] => some value
  | c :: rest => if c < 48 ∨ 57 < c then none else scanDigits (value * 10 + (c.toNat - 48)) rest

def tryParseStringToInt (str : NSString) : Option Int :=
  if 11 < str.length ∨ str.length = 0 then none
  else
    let negative := str.head? = some minus
    if negative ∧ str.length = 1 then none
    else do
      let value ← scanDigits 0 (if negative then str.tail else str)
      let value : Int := if negative then -value else value
      if value < -2147483648 ∨ 2147483647 < value then none else some value

/-- The two sentinels are told apart by identity, whatever their text. -/
inductive ChildKey where
  | minName
  | maxName
  | name (text : NSString)
  deriving DecidableEq

def compareNames (a b : NSString) : Ordering :=
  match tryParseStringToInt a, tryParseStringToInt b with
  | some aAsInt, some bAsInt =>
      if aAsInt > bAsInt then .gt
      else if aAsInt < bAsInt then .lt
      else if a.length > b.length then .gt
      else if a.length < b.length then .lt
      else .eq
  | some _, none => .lt
  | none, some _ => .gt
  | none, none => compare a b

def compareKey : ChildKey → ChildKey → Ordering
  | .minName, .minName => .eq
  | .maxName, .maxName => .eq
  | .minName, _ => .lt
  | _, .maxName => .lt
  | _, .minName => .gt
  | .maxName, _ => .gt
  | .name a, .name b => compareNames a b

/-- Two numbers are compared by value and then by the length of their texts. -/
theorem compareNames_of_ints {a b : NSString} {m n : Int} (ha : tryParseStringToInt a = some m)
    (hb : tryParseStringToInt b = some n) :
    compareNames a b =
      compareLex (compareOn Prod.fst) (compareOn Prod.snd) (m, a.length) (n, b.length) := by
  simp only [compareNames, ha, hb, compareLex, compareOn]
  rcases lt_trichotomy m n with h | rfl | h
  · rw [compare_lt_iff_lt.mpr h, if_neg (by omega), if_pos h]
    rfl
  · rw [compare_eq_iff_eq.mpr rfl, if_neg (by omega), if_neg (by omega)]
    rcases lt_trichotomy a.length b.length with hl | hl | hl
    · rw [compare_lt_iff_lt.mpr hl, if_neg (by omega), if_pos hl]
      rfl
    · rw [compare_eq_iff_eq.mpr hl, if_neg (by omega), if_neg (by omega)]
      rfl
    · rw [compare_gt_iff_gt.mpr hl, if_pos hl]
      rfl
  · rw [compare_gt_iff_gt.mpr h, if_pos h]
    rfl

theorem compareNames_swap (a b : NSString) : compareNames a b = (compareNames b a).swap := by
  cases ha : tryParseStringToInt a with
  | none =>
      cases hb : tryParseStringToInt b with
      | none =>
          simp only [compareNames, ha, hb]
          exact Std.OrientedCmp.eq_swap
      | some n => simp [compareNames, ha, hb]
  | some m =>
      cases hb : tryParseStringToInt b with
      | none => simp [compareNames, ha, hb]
      | some n =>
          rw [compareNames_of_ints ha hb, compareNames_of_ints hb ha]
          exact Std.OrientedCmp.eq_swap

theorem compareNames_isLE_trans {a b c : NSString} (hab : (compareNames a b).isLE)
    (hbc : (compareNames b c).isLE) : (compareNames a c).isLE := by
  cases ha : tryParseStringToInt a with
  | none =>
      cases hb : tryParseStringToInt b with
      | some n => simp [compareNames, ha, hb] at hab
      | none =>
          cases hc : tryParseStringToInt c with
          | some k => simp [compareNames, hb, hc] at hbc
          | none =>
              simp only [compareNames, ha, hb, hc] at hab hbc ⊢
              exact Std.TransCmp.isLE_trans hab hbc
  | some m =>
      cases hc : tryParseStringToInt c with
      | none => simp [compareNames, ha, hc]
      | some k =>
          cases hb : tryParseStringToInt b with
          | none => simp [compareNames, hb, hc] at hbc
          | some n =>
              rw [compareNames_of_ints ha hb] at hab
              rw [compareNames_of_ints hb hc] at hbc
              rw [compareNames_of_ints ha hc]
              exact Std.TransCmp.isLE_trans hab hbc

instance : Std.TransCmp compareNames where
  eq_swap := compareNames_swap _ _
  isLE_trans := compareNames_isLE_trans

theorem compareKey_swap (a b : ChildKey) : compareKey a b = (compareKey b a).swap := by
  cases a <;> cases b <;> try rfl
  exact compareNames_swap _ _

theorem compareKey_isLE_trans {a b c : ChildKey} (hab : (compareKey a b).isLE)
    (hbc : (compareKey b c).isLE) : (compareKey a c).isLE := by
  cases a <;> cases b <;> cases c <;> simp [compareKey] at hab hbc ⊢
  exact compareNames_isLE_trans hab hbc

instance : Std.TransCmp compareKey where
  eq_swap := compareKey_swap _ _
  isLE_trans := compareKey_isLE_trans

/-- Texts of one length with one value are the same text. -/
theorem scanDigits_inj {a b : NSString} (hLength : a.length = b.length) {u v r : Nat}
    (ha : scanDigits u a = some r) (hb : scanDigits v b = some r) : u = v ∧ a = b := by
  induction a generalizing b u v with
  | nil =>
      obtain rfl := List.length_eq_zero_iff.mp hLength.symm
      exact ⟨(Option.some.inj ha).trans (Option.some.inj hb).symm, rfl⟩
  | cons c a ih =>
      obtain ⟨d, b, rfl⟩ := List.exists_cons_of_length_eq_add_one hLength.symm
      simp only [scanDigits, UInt16.lt_iff_toNat_lt, Option.ite_none_left_eq_some] at ha hb
      obtain ⟨hc, ha⟩ := ha
      obtain ⟨hd, hb⟩ := hb
      obtain ⟨hValue, rfl⟩ := ih (Nat.succ.inj hLength) ha hb
      simp only [UInt16.reduceToNat, not_or, not_lt] at hc hd
      exact ⟨by omega, by rw [UInt16.toNat_inj.mp (show c.toNat = d.toNat by omega)]⟩

def zeros (n : Nat) : NSString := List.replicate n 48

theorem scanDigits_zeros (n : Nat) : scanDigits 0 (zeros n) = some 0 := by
  induction n with
  | zero => rfl
  | succ n ih => simpa [zeros, List.replicate_succ, scanDigits] using ih

theorem eq_zeros_of_scanDigits {text : NSString} (h : scanDigits 0 text = some 0) :
    text = zeros text.length :=
  (scanDigits_inj (by simp [zeros]) h (scanDigits_zeros text.length)).2

/-- The texts that count as numbers, with a sign or without. -/
theorem tryParseStringToInt_eq_some {str : NSString} {value : Int}
    (h : tryParseStringToInt str = some value) :
    str.length ≤ 11 ∧
      ((∃ digits n, str = minus :: digits ∧ digits ≠ [] ∧ scanDigits 0 digits = some n ∧
          value = -n) ∨
        ∃ n, str ≠ [] ∧ scanDigits 0 str = some n ∧ value = n) := by
  unfold tryParseStringToInt at h
  dsimp only at h
  split_ifs at h with hLength hSingle hNegative
  all_goals
    rw [not_or, not_lt] at hLength
    refine ⟨hLength.1, ?_⟩
    obtain ⟨n, hScan, hRange⟩ := Option.bind_eq_some_iff.mp h
    rw [Option.ite_none_left_eq_some, Option.some.injEq] at hRange
  · obtain ⟨digits, rfl⟩ : ∃ digits, str = minus :: digits := by
      cases str with
      | nil => cases hNegative
      | cons c digits => exact ⟨digits, by rw [Option.some.inj hNegative]⟩
    refine Or.inl ⟨digits, n, rfl, ?_, hScan, hRange.2.symm⟩
    rintro rfl
    exact hSingle ⟨hNegative, rfl⟩
  · refine Or.inr ⟨n, ?_, hScan, hRange.2.symm⟩
    rintro rfl
    exact hLength.2 rfl

/-- Zero with a minus sign and zero without one, in texts of the same length. -/
def ZeroPair (a b : NSString) : Prop :=
  ∃ n, 0 < n ∧ n ≤ 10 ∧ a = minus :: zeros n ∧ b = zeros (n + 1)

theorem ZeroPair.parse {a b : NSString} (h : ZeroPair a b) :
    tryParseStringToInt a = some 0 ∧ tryParseStringToInt b = some 0 ∧ a.length = b.length := by
  obtain ⟨n, hPos, hLe, rfl, rfl⟩ := h
  have hUnsigned : (zeros (n + 1)).head? ≠ some minus := by
    simp [zeros, minus, List.replicate_succ]
  refine ⟨?_, ?_, by simp [zeros]⟩
  · have hLength : (minus :: zeros n).length = n + 1 := by simp [zeros]
    simp [tryParseStringToInt, hLength, scanDigits_zeros, show ¬11 < n + 1 by omega,
      show n ≠ 0 by omega]
  · have hLength : (zeros (n + 1)).length = n + 1 := by simp [zeros]
    simp [tryParseStringToInt, hLength, hUnsigned, scanDigits_zeros, show ¬11 < n + 1 by omega]

theorem zeroPair_of_parse {digits b : NSString} {m n : Nat} (hNonempty : digits ≠ [])
    (hShort : (minus :: digits).length ≤ 11) (hm : scanDigits 0 digits = some m)
    (hn : scanDigits 0 b = some n) (hValue : -(m : Int) = n)
    (hLength : (minus :: digits).length = b.length) : ZeroPair (minus :: digits) b := by
  obtain rfl : m = 0 := by omega
  obtain rfl : n = 0 := by omega
  rw [List.length_cons] at hLength hShort
  refine ⟨digits.length, List.length_pos_of_ne_nil hNonempty, by omega, ?_, ?_⟩
  · rw [← eq_zeros_of_scanDigits hm]
  · rw [hLength]
    exact eq_zeros_of_scanDigits hn

/-- The comparator takes two names for one exactly if they are the same or are zero
spelled with a sign and without at one length. -/
theorem compareNames_eq_iff {a b : NSString} :
    compareNames a b = .eq ↔ a = b ∨ ZeroPair a b ∨ ZeroPair b a := by
  constructor
  · intro hEq
    cases ha : tryParseStringToInt a with
    | none =>
        cases hb : tryParseStringToInt b with
        | none =>
            simp only [compareNames, ha, hb] at hEq
            exact Or.inl (Std.LawfulEqCmp.eq_of_compare hEq)
        | some n => simp [compareNames, ha, hb] at hEq
    | some m =>
        cases hb : tryParseStringToInt b with
        | none => simp [compareNames, ha, hb] at hEq
        | some n =>
            rw [compareNames_of_ints ha hb, compareLex_eq_eq] at hEq
            obtain rfl : m = n := compare_eq_iff_eq.mp hEq.1
            have hLength : a.length = b.length := compare_eq_iff_eq.mp hEq.2
            obtain ⟨hShort, hA⟩ := tryParseStringToInt_eq_some ha
            obtain ⟨_, hB⟩ := tryParseStringToInt_eq_some hb
            rcases hA with ⟨digits, k, rfl, hSome, hk, rfl⟩ | ⟨k, hSome, hk, rfl⟩
            · rcases hB with ⟨digits', l, rfl, _, hl, hValue⟩ | ⟨l, _, hl, hValue⟩
              · obtain rfl : k = l := by omega
                exact Or.inl (by rw [(scanDigits_inj (Nat.succ.inj hLength) hk hl).2])
              · exact Or.inr (Or.inl (zeroPair_of_parse hSome hShort hk hl hValue hLength))
            · rcases hB with ⟨digits', l, rfl, hSome', hl, hValue⟩ | ⟨l, _, hl, hValue⟩
              · exact Or.inr (Or.inr
                  (zeroPair_of_parse hSome' (hLength ▸ hShort) hl hk hValue.symm hLength.symm))
              · obtain rfl : k = l := by omega
                exact Or.inl (scanDigits_inj hLength hk hl).2
  · have hPair : ∀ {a b : NSString}, ZeroPair a b → compareNames a b = .eq := by
      intro a b h
      obtain ⟨ha, hb, hLength⟩ := h.parse
      rw [compareNames_of_ints ha hb, hLength]
      exact Std.ReflCmp.compare_self
    rintro (rfl | h | h)
    · exact Std.ReflCmp.compare_self
    · exact hPair h
    · exact Std.OrientedCmp.eq_comm.mp (hPair h)

/-- The comparator is a total preorder with the sentinels at its ends, and two keys
tie only if they are the same or spell zero with a sign and without. -/
theorem keys_ordered :
    (∀ a b, compareKey a b = (compareKey b a).swap) ∧
    (∀ a b c, (compareKey a b).isLE → (compareKey b c).isLE → (compareKey a c).isLE) ∧
    (∀ a, (compareKey .minName a).isLE ∧ (compareKey a .maxName).isLE) ∧
    ∀ a b, compareKey a b = .eq ↔ a = b ∨ ∃ x y, a = .name x ∧ b = .name y ∧
      (ZeroPair x y ∨ ZeroPair y x) := by
  refine ⟨compareKey_swap, fun _ _ _ => compareKey_isLE_trans, fun a => ?_, fun a b => ?_⟩
  · cases a <;> exact ⟨rfl, rfl⟩
  · cases a <;> cases b <;> simp [compareKey, compareNames_eq_iff]

theorem compare_lt_iff_lt_units {a b : NSString} : compare a b = .lt ↔ a < b := by
  induction a generalizing b with
  | nil => cases b <;> simp [compare, List.compareLex]
  | cons c a ih =>
      cases b with
      | nil => simp
      | cons d b =>
          have hLess : compare c d = .lt ↔ c < d := compareOfLessAndEq_eq_lt
          have hSame : compare c d = .eq ↔ c = d := Std.LawfulEqCmp.compare_eq_iff_eq
          rw [List.compare_cons_cons, Ordering.then_eq_lt, hLess, hSame, ih,
            List.cons_lt_cons_iff]

/-- Texts longer than eleven characters come in the order of their code units. -/
theorem compareKey_of_long {a b : NSString} (ha : 11 < a.length) (hb : 11 < b.length) :
    compareKey (.name a) (.name b) = .lt ↔ a < b := by
  have hNone : ∀ text : NSString, 11 < text.length → tryParseStringToInt text = none :=
    fun text hLong => if_pos (Or.inl hLong)
  simp only [compareKey, compareNames, hNone a ha, hNone b hb]
  exact compare_lt_iff_lt_units

end CICJudging
