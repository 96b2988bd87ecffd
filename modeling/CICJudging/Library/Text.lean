import Mathlib.Computability.RegularExpressions
import Mathlib.Data.List.DropRight

/-! Text as lists of characters: character classes and optional parts of a
regular expression, the characters of a text that meet a test at its end, decimal
numbers, and percent escapes. -/
namespace Text

section Patterns

open RegularExpression

variable {α : Type*}

/-- Any one of the characters. -/
def anyOf (characters : List α) : RegularExpression α := (characters.map char).sum

def optional (pattern : RegularExpression α) : RegularExpression α := pattern + 1

theorem mem_anyOf {characters text : List α} :
    text ∈ (anyOf characters).matches' ↔ ∃ c ∈ characters, text = [c] := by
  induction characters with
  | nil => simp [anyOf, Language.notMem_zero]
  | cons c rest ih =>
      have hCons : anyOf (c :: rest) = char c + anyOf rest := by simp [anyOf]
      rw [hCons, matches'_add, Language.mem_add, ih, matches'_char, List.exists_mem_cons_iff]
      rfl

theorem mem_optional {pattern : RegularExpression α} {text : List α} :
    text ∈ (optional pattern).matches' ↔ text ∈ pattern.matches' ∨ text = [] := by
  rw [optional, matches'_add, Language.mem_add, matches'_epsilon, Language.mem_one]

theorem mem_mul {first second : RegularExpression α} {text : List α} :
    text ∈ (first * second).matches' ↔
      ∃ front ∈ first.matches', ∃ back ∈ second.matches', front ++ back = text := by
  rw [matches'_mul, Language.mem_mul]

/-- A repeated character class matches texts of that length. -/
theorem mem_anyOf_pow {characters : List α} {count : Nat} {text : List α} :
    text ∈ (anyOf characters ^ count).matches' ↔
      text.length = count ∧ ∀ c ∈ text, c ∈ characters := by
  rw [matches'_pow]
  induction count generalizing text with
  | zero =>
      rw [pow_zero, Language.mem_one, List.length_eq_zero_iff]
      exact ⟨fun h => ⟨h, by simp [h]⟩, And.left⟩
  | succ count ih =>
      rw [pow_succ', Language.mem_mul]
      constructor
      · rintro ⟨front, hFront, back, hBack, rfl⟩
        obtain ⟨c, hMem, rfl⟩ := mem_anyOf.mp hFront
        obtain ⟨hLength, hAll⟩ := ih.mp hBack
        exact ⟨by simp [hLength], by simpa using ⟨hMem, hAll⟩⟩
      · rintro ⟨hLength, hAll⟩
        cases text with
        | nil => cases hLength
        | cons c rest =>
            have hRest : rest.length = count := Nat.succ.inj hLength
            refine ⟨[c], mem_anyOf.mpr ⟨c, hAll c (List.mem_cons_self ..), rfl⟩, rest, ?_, rfl⟩
            exact ih.mpr ⟨hRest, fun d hMem => hAll d (List.mem_cons_of_mem _ hMem)⟩

end Patterns

section Ends

variable {α : Type*}

theorem rdrop_append_rtake (text : List α) (count : Nat) :
    text.rdrop count ++ text.rtake count = text := List.take_append_drop _ _

theorem rtake_append_of_length {front back : List α} {count : Nat} (h : back.length = count) :
    (front ++ back).rtake count = back := by
  subst h
  simp [List.rtake]

theorem rdrop_append_of_length {front back : List α} {count : Nat} (h : back.length = count) :
    (front ++ back).rdrop count = front := by
  subst h
  simp [List.rdrop]

theorem length_rtake {text : List α} {count : Nat} (h : count ≤ text.length) :
    (text.rtake count).length = count := by
  rw [List.rtake, List.length_drop]
  omega

/-- The last characters that meet the test are the last characters, if those do. -/
theorem rtake_filter_eq_iff (test : α → Bool) {text : List α} {count : Nat}
    (h : count ≤ text.length) :
    text.rtake count = (text.filter test).rtake count ↔ ∀ c ∈ text.rtake count, test c = true := by
  constructor
  · intro hEq c hMem
    rw [hEq] at hMem
    exact (List.mem_filter.mp (List.mem_of_mem_drop hMem)).2
  · intro hAll
    have hFilter : text.filter test = (text.rdrop count).filter test ++ text.rtake count := by
      conv_lhs => rw [← rdrop_append_rtake text count, List.filter_append, List.filter_eq_self.mpr hAll]
    rw [hFilter, rtake_append_of_length (length_rtake h)]

end Ends

section Decimal

/-- The value of a text of decimal digits. -/
def decimalValue (digits : List Char) : Option Nat :=
  if digits ≠ [] ∧ digits.all Char.isDigit then some (Nat.ofDigitChars 10 digits 0) else none

theorem decimalValue_toDigits (n : Nat) : decimalValue (Nat.toDigits 10 n) = some n := by
  have hDigits : (Nat.toDigits 10 n).all Char.isDigit = true :=
    List.all_eq_true.mpr fun _ hMem => Nat.isDigit_of_mem_toDigits (by decide) (by decide) hMem
  rw [decimalValue, if_pos ⟨Nat.toDigits_ne_nil, hDigits⟩, Nat.ofDigitChars_ten_toDigits]

theorem toDigits_eq_cons (n : Nat) : ∃ c rest, Nat.toDigits 10 n = c :: rest ∧ c.isDigit = true := by
  obtain ⟨c, rest, hDigits⟩ := List.exists_cons_of_ne_nil (Nat.toDigits_ne_nil (n := n) (b := 10))
  refine ⟨c, rest, hDigits, Nat.isDigit_of_mem_toDigits (by decide) (by decide) (n := n) (b := 10) ?_⟩
  exact hDigits ▸ List.mem_cons_self ..

/-- Only zero is written with a zero in front. -/
theorem head_toDigits_eq_zero {n : Nat} (h : (Nat.toDigits 10 n).head? = some '0') : n = 0 := by
  induction n using Nat.strongRecOn with
  | ind n ih =>
      by_cases hSmall : n < 10
      · rw [Nat.toDigits_of_lt_base hSmall] at h
        exact Nat.digitChar_eq_zero.mp (Option.some.inj h)
      · rw [Nat.toDigits_of_base_le (by decide) (by omega)] at h
        obtain ⟨c, rest, hDigits, _⟩ := toDigits_eq_cons (n / 10)
        have hHead : (Nat.toDigits 10 (n / 10)).head? = some '0' := by
          rw [hDigits] at h ⊢
          exact h
        have hZero := ih (n / 10) (by omega) hHead
        omega

end Decimal

section PercentEscapes

/-- The value of a byte as a hexadecimal digit. -/
def hexValue (byte : UInt8) : Option UInt8 :=
  if 48 ≤ byte ∧ byte ≤ 57 then some (byte - 48)
  else if 65 ≤ byte ∧ byte ≤ 70 then some (byte - 55)
  else if 97 ≤ byte ∧ byte ≤ 102 then some (byte - 87)
  else none

/-- A percent sign that two hexadecimal digits do not follow has no decoding. -/
def percentDecode : List UInt8 → Option (List UInt8)
  | [] => some []
  | byte :: rest =>
      if byte ≠ 37 then (percentDecode rest).map (byte :: ·)
      else match rest with
        | high :: low :: rest => do
            let highValue ← hexValue high
            let lowValue ← hexValue low
            let decoded ← percentDecode rest
            return (16 * highValue + lowValue) :: decoded
        | _ => none

/-- The decoded bytes must be UTF-8 again. -/
def removingPercentEncoding (text : List Char) : Option (List Char) := do
  let bytes ← percentDecode (text.flatMap String.utf8EncodeChar)
  let characters ← bytes.toByteArray.utf8Decode?
  return characters.toList

theorem percentDecode_of_notMem {bytes : List UInt8} (h : 37 ∉ bytes) :
    percentDecode bytes = some bytes := by
  induction bytes with
  | nil => rfl
  | cons byte rest ih =>
      rw [List.mem_cons, not_or] at h
      rw [percentDecode.eq_def]
      simp [Ne.symm h.1, ih h.2]

theorem utf8EncodeChar_of_ascii {c : Char} (h : c.toNat < 128) :
    String.utf8EncodeChar c = [c.val.toUInt8] := by
  refine String.utf8EncodeChar_eq_singleton (Char.utf8Size_eq_one_iff.mpr ?_)
  exact UInt32.le_iff_toNat_le.mpr (Nat.le_of_lt_succ h)

/-- Text in ASCII without a percent sign is its own decoding. -/
theorem removingPercentEncoding_of_ascii {text : List Char}
    (hAscii : ∀ c ∈ text, c.toNat < 128 ∧ c ≠ '%') : removingPercentEncoding text = some text := by
  have hBytes : 37 ∉ text.flatMap String.utf8EncodeChar := by
    intro hMem
    obtain ⟨c, hChar, hByte⟩ := List.mem_flatMap.mp hMem
    obtain ⟨hSmall, hNotPercent⟩ := hAscii c hChar
    rw [utf8EncodeChar_of_ascii hSmall, List.mem_singleton] at hByte
    refine hNotPercent (Char.toNat_inj.mp ?_)
    have hValue := congrArg UInt8.toNat hByte
    have hFits : c.val.toNat < 2 ^ 8 := Nat.lt_trans hSmall (by decide)
    rw [UInt32.toNat_toUInt8, Nat.mod_eq_of_lt hFits] at hValue
    exact hValue.symm
  have hDecode : (text.flatMap String.utf8EncodeChar).toByteArray.utf8Decode? =
      some text.toArray := List.utf8Decode?_utf8Encode
  simp [removingPercentEncoding, percentDecode_of_notMem hBytes, hDecode]

end PercentEscapes

end Text
