import Mathlib

/-! Texts of a fixed length in lexicographic order: the digits of a number, most
significant first, and the next text of the same length. -/
namespace Positional

section Digits

variable {base : Nat} [NeZero base]

/-- The last digits of a number, as many as asked for. -/
def radixDigits : Nat → Nat → List (Fin base)
  | 0, _ => []
  | count + 1, value => radixDigits count (value / base) ++ [Fin.ofNat base (value % base)]

@[simp] theorem length_radixDigits (count value : Nat) :
    (radixDigits count value : List (Fin base)).length = count := by
  induction count generalizing value with
  | zero => rfl
  | succ count ih => simp [radixDigits, ih]

end Digits

section Order

variable {α : Type*} [LT α]

/-- What comes after a smaller text of the same length does not matter. -/
theorem append_lt_append {first second : List α} (hLength : first.length = second.length)
    (h : first < second) (firstRest secondRest : List α) :
    first ++ firstRest < second ++ secondRest := by
  induction first generalizing second with
  | nil =>
      obtain rfl := List.length_eq_zero_iff.mp hLength.symm
      exact absurd h (List.not_lt_nil _)
  | cons x first ih =>
      obtain ⟨y, second, rfl⟩ := List.exists_cons_of_length_eq_add_one hLength.symm
      rw [List.cons_append, List.cons_append, List.cons_lt_cons_iff]
      refine (List.cons_lt_cons_iff.mp h).imp_right fun ⟨hHead, hTail⟩ => ⟨hHead, ?_⟩
      exact ih (Nat.succ.inj hLength) hTail

end Order

/-- Numbers that fit are ordered as their digits are. -/
theorem radixDigits_lt_radixDigits {base : Nat} [NeZero base] {count value other : Nat}
    (hLess : value < other) (hFits : other < base ^ count) :
    (radixDigits count value : List (Fin base)) < radixDigits count other := by
  induction count generalizing value other with
  | zero =>
      rw [pow_zero] at hFits
      omega
  | succ count ih =>
      have hPos : 0 < base := Nat.pos_of_neZero base
      rcases (Nat.div_le_div_right (c := base) hLess.le).lt_or_eq with hHigh | hHigh
      · have hOther : other / base < base ^ count := by
          rw [Nat.div_lt_iff_lt_mul hPos, ← pow_succ]
          exact hFits
        exact append_lt_append (by simp) (ih hHigh hOther) _ _
      · rw [radixDigits, radixDigits, hHigh]
        refine List.append_left_lt (List.cons_lt_cons_iff.mpr (Or.inl ?_))
        have hLow : value % base < other % base := by
          have hValue := Nat.div_add_mod value base
          have hOther := Nat.div_add_mod other base
          rw [hHigh] at hValue
          omega
        rw [Fin.lt_def]
        simpa using hLow

section Increment

variable {α : Type*} [DecidableEq α] (top zero : α) (succ : α → α)

/-- Count up from the place before the index. Places at the top carry to the place
before; `none` is a carry out of the first. -/
def increment (chars : List α) : Nat → Option (List α)
  | 0 => none
  | i + 1 =>
      match chars[i]? with
      | none => none
      | some c => if c = top then increment (chars.set i zero) i else some (chars.set i (succ c))

variable {top zero succ} [LT α]

/-- The text is longer by nothing and larger in the first place that changes. -/
theorem increment_place (hSucc : ∀ c, c ≠ top → c < succ c) {chars after : List α} {count : Nat}
    (h : increment top zero succ chars count = some after) :
    after.length = chars.length ∧ ∃ i, ∃ c d : α, i < count ∧ chars[i]? = some c ∧
      after[i]? = some d ∧ c < d ∧ after.take i = chars.take i := by
  induction count generalizing chars with
  | zero => cases h
  | succ count ih =>
      rw [increment] at h
      split at h
      · cases h
      · next c hPlace =>
          split_ifs at h with hTop
          · obtain ⟨hLength, i, c', d, hLess, hOld, hNew, hLarger, hTake⟩ := ih h
            refine ⟨by simpa using hLength, i, c', d, Nat.lt_succ_of_lt hLess, ?_, hNew, hLarger, ?_⟩
            · rwa [List.getElem?_set_ne hLess.ne'] at hOld
            · rw [hTake, List.take_set_of_le hLess.le]
          · cases h
            obtain ⟨hIndex, _⟩ := List.getElem?_eq_some_iff.mp hPlace
            refine ⟨List.length_set, count, c, succ c, Nat.lt_succ_self count, hPlace, ?_, hSucc c hTop,
              List.take_set_of_le le_rfl⟩
            rw [List.getElem?_set_self hIndex]

theorem lt_of_increment (hSucc : ∀ c, c ≠ top → c < succ c) {chars after : List α} {count : Nat}
    (h : increment top zero succ chars count = some after) :
    after.length = chars.length ∧ chars < after := by
  obtain ⟨hLength, i, c, d, _, hOld, hNew, hLarger, hTake⟩ := increment_place hSucc h
  refine ⟨hLength, ?_⟩
  obtain ⟨hOldIndex, rfl⟩ := List.getElem?_eq_some_iff.mp hOld
  obtain ⟨hNewIndex, rfl⟩ := List.getElem?_eq_some_iff.mp hNew
  rw [← List.take_append_drop i chars, ← List.take_append_drop i after, hTake,
    List.drop_eq_getElem_cons hOldIndex, List.drop_eq_getElem_cons hNewIndex]
  exact List.append_left_lt (List.cons_lt_cons_iff.mpr (Or.inl hLarger))

end Increment

end Positional
