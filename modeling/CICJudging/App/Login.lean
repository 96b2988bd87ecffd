import CICJudging.Library.Text
import CICJudging.Database.Root

/-! Log-in with a phone number: what the field accepts, the key under which the
judge is looked up, the number that is verified, and the key of the judge who is
then signed in. -/
namespace CICJudging

open RegularExpression Text

/-- ASCII text of a field of one line. The line breaks of ASCII are the characters
10 to 13. -/
structure FieldText where
  text : List Char
  ascii : ∀ c ∈ text, c.toNat < 128
  oneLine : ∀ c ∈ text, c.toNat < 10 ∨ 13 < c.toNat

/-- The class `\d`, in ASCII. -/
def digitCharacters : List Char := ['0', '1', '2', '3', '4', '5', '6', '7', '8', '9']

/-- The class `\s`, in ASCII: tab, line feed, form feed, carriage return, space. -/
def whitespaceCharacters : List Char :=
  [Char.ofNat 9, Char.ofNat 10, Char.ofNat 12, Char.ofNat 13, ' ']

/-- The class `[\s.-]`. -/
def separatorCharacters : List Char := whitespaceCharacters ++ ['.', '-']

def digit : RegularExpression Char := anyOf digitCharacters

/-- The part `\+\d{1,2}[\s]?`. -/
def countryCode : RegularExpression Char :=
  anyOf ['+'] * ((digit ^ 1 + digit ^ 2) * optional (anyOf whitespaceCharacters))

/-- The part `\(?\d{3}\)?[\s.-]?\d{3}[\s.-]?\d{4}`. -/
def nationalNumber : RegularExpression Char :=
  optional (anyOf ['(']) * (digit ^ 3 * (optional (anyOf [')']) *
    (optional (anyOf separatorCharacters) * (digit ^ 3 *
      (optional (anyOf separatorCharacters) * digit ^ 4)))))

/-- The pattern between its two anchors, which stand at the ends of a text of
one line. -/
def regexString : RegularExpression Char := optional countryCode * nationalNumber

def validatePhoneNumber (phoneNumber : FieldText) : Bool := regexString.rmatch phoneNumber.text

/-- The characters that `hasChild` refuses in a path, beside the empty path. -/
def invalidPathCharacters : List Char := ['[', ']', '.', '#', '$']

def isValidPathString (pathString : List Char) : Bool :=
  !pathString.isEmpty && pathString.all fun c => !invalidPathCharacters.contains c

/-- `hasChild` on the snapshot of `judges`; `none` is the exception that it raises. -/
def checkIfUserRegistred (root : Root) (phoneNumber : List Char) : Option Bool :=
  if isValidPathString phoneNumber then
    some (root.judges.any fun entry => entry.1.key == String.ofList phoneNumber)
  else none

inductive NumberSubmission where
  | invalidInput
  | invalidPathException
  | notRegistered (lookupKey : List Char)
  | verifyPhoneNumber (lookupKey phoneNumber : List Char)
  deriving DecidableEq

def lookupKey (phoneNumber : List Char) : List Char := phoneNumber.rtake 10

/-- A text of ten characters has no country code yet. -/
def withCountryCode (phoneNumber : List Char) : List Char :=
  if phoneNumber.length = 10 then '+' :: '1' :: phoneNumber else phoneNumber

/-- `_submitNumber`, with the dialogs it shows as results. -/
def submitNumber (root : Root) (phoneNumberTxtFld : FieldText) : NumberSubmission :=
  let phoneNumber := phoneNumberTxtFld.text
  if !validatePhoneNumber phoneNumberTxtFld then .invalidInput
  else match checkIfUserRegistred root (lookupKey phoneNumber) with
    | none => .invalidPathException
    | some false => .notRegistered (lookupKey phoneNumber)
    | some true => .verifyPhoneNumber (lookupKey phoneNumber) (withCountryCode phoneNumber)

/-- The key of the signed-in judge; `phoneNumber` is what the account holds. -/
def getUserPhoneNumber (phoneNumber : Option (List Char)) : List Char :=
  ((removingPercentEncoding (phoneNumber.getD [])).getD []).rtake 10

structure PhoneNumber where
  country : List Char
  national : List Char
  deriving DecidableEq

def digits (text : List Char) : List Char := text.filter fun c => digitCharacters.contains c

/-- The last ten digits, with the digits before them if a country code is written
and with 1 if none is. -/
def denoted (text : List Char) : PhoneNumber where
  country := if text.head? = some '+' then (digits text).rdrop 10 else ['1']
  national := (digits text).rtake 10

def PhoneNumber.e164 (number : PhoneNumber) : List Char :=
  '+' :: (number.country ++ number.national)

/-- A number with a country code that is the given one. -/
def AsksFor (phoneNumber : List Char) (number : PhoneNumber) : Prop :=
  phoneNumber.head? = some '+' ∧ denoted phoneNumber = number

/-- The last ten characters are digits, and nothing but a country code is before them. -/
def SpelledPlainly (phoneNumber : List Char) : Prop :=
  (∀ c ∈ phoneNumber.rtake 10, c ∈ digitCharacters) ∧
    (phoneNumber.length = 10 ∨ phoneNumber.head? = some '+')

theorem digits_append (first second : List Char) :
    digits (first ++ second) = digits first ++ digits second := List.filter_append ..

theorem digits_eq_self {text : List Char} (h : ∀ c ∈ text, c ∈ digitCharacters) :
    digits text = text :=
  List.filter_eq_self.mpr fun c hMem => List.contains_iff_mem.mpr (h c hMem)

theorem mem_digits {text : List Char} {c : Char} (h : c ∈ digits text) : c ∈ digitCharacters :=
  List.contains_iff_mem.mp (List.mem_filter.mp h).2

theorem digit_class : ∀ c ∈ digitCharacters, c.toNat < 128 ∧ c ≠ '%' := by
  simp [digitCharacters]

theorem whitespace_class : ∀ c ∈ whitespaceCharacters, c ∉ digitCharacters ∧ c ≠ '+' := by
  simp [whitespaceCharacters, digitCharacters]

theorem separator_class : ∀ c ∈ separatorCharacters, c ∉ digitCharacters ∧ c ≠ '+' := by
  simp [separatorCharacters, whitespaceCharacters, digitCharacters]

/-- A character that may be left out adds no digit and no plus sign. -/
theorem optional_spelling {characters text : List Char}
    (hClass : ∀ c ∈ characters, c ∉ digitCharacters ∧ c ≠ '+')
    (h : text ∈ (optional (anyOf characters)).matches') : digits text = [] ∧ '+' ∉ text := by
  rcases mem_optional.mp h with hText | rfl
  · obtain ⟨c, hMem, rfl⟩ := mem_anyOf.mp hText
    obtain ⟨hDigit, hPlus⟩ := hClass c hMem
    exact ⟨by simp [digits, hDigit], by simpa using hPlus.symm⟩
  · exact ⟨rfl, List.not_mem_nil⟩

theorem digits_spelling {count : Nat} {text : List Char} (h : text ∈ (digit ^ count).matches') :
    digits text = text ∧ text.length = count ∧ '+' ∉ text := by
  obtain ⟨hLength, hAll⟩ := mem_anyOf_pow.mp h
  exact ⟨digits_eq_self hAll, hLength, fun hMem => absurd (hAll _ hMem) (by decide)⟩

theorem nationalNumber_spelling {text : List Char} (h : text ∈ nationalNumber.matches') :
    (digits text).length = 10 ∧ '+' ∉ text := by
  obtain ⟨opening, hOpening, _, hFromArea, rfl⟩ := mem_mul.mp h
  obtain ⟨area, hArea, _, hFromClosing, rfl⟩ := mem_mul.mp hFromArea
  obtain ⟨closing, hClosing, _, hFromFirst, rfl⟩ := mem_mul.mp hFromClosing
  obtain ⟨firstSeparator, hFirst, _, hFromExchange, rfl⟩ := mem_mul.mp hFromFirst
  obtain ⟨exchange, hExchange, _, hFromSecond, rfl⟩ := mem_mul.mp hFromExchange
  obtain ⟨secondSeparator, hSecond, line, hLine, rfl⟩ := mem_mul.mp hFromSecond
  obtain ⟨hOpening, hOpeningPlus⟩ := optional_spelling (by simp [digitCharacters]) hOpening
  obtain ⟨hArea, hAreaLength, hAreaPlus⟩ := digits_spelling hArea
  obtain ⟨hClosing, hClosingPlus⟩ := optional_spelling (by simp [digitCharacters]) hClosing
  obtain ⟨hFirst, hFirstPlus⟩ := optional_spelling separator_class hFirst
  obtain ⟨hExchange, hExchangeLength, hExchangePlus⟩ := digits_spelling hExchange
  obtain ⟨hSecond, hSecondPlus⟩ := optional_spelling separator_class hSecond
  obtain ⟨hLine, hLineLength, hLinePlus⟩ := digits_spelling hLine
  constructor
  · simp [digits_append, hOpening, hArea, hClosing, hFirst, hExchange, hSecond, hLine,
      hAreaLength, hExchangeLength, hLineLength]
  · simp [hOpeningPlus, hAreaPlus, hClosingPlus, hFirstPlus, hExchangePlus, hSecondPlus, hLinePlus]

theorem countryCode_spelling {text : List Char} (h : text ∈ countryCode.matches') :
    text.head? = some '+' ∧ ((digits text).length = 1 ∨ (digits text).length = 2) := by
  obtain ⟨plus, hPlus, _, hFromCode, rfl⟩ := mem_mul.mp h
  obtain ⟨c, hMem, rfl⟩ := mem_anyOf.mp hPlus
  obtain rfl := List.mem_singleton.mp hMem
  obtain ⟨code, hCode, space, hSpace, rfl⟩ := mem_mul.mp hFromCode
  have hPlusDigits : digits ['+'] = [] := by decide
  obtain ⟨hSpace, _⟩ := optional_spelling whitespace_class hSpace
  refine ⟨rfl, ?_⟩
  rw [digits_append, digits_append, hPlusDigits, hSpace, List.nil_append, List.append_nil]
  rw [matches'_add, Language.mem_add] at hCode
  rcases hCode with hOne | hTwo
  · obtain ⟨hDigits, hLength, _⟩ := digits_spelling hOne
    exact Or.inl (by rw [hDigits, hLength])
  · obtain ⟨hDigits, hLength, _⟩ := digits_spelling hTwo
    exact Or.inr (by rw [hDigits, hLength])

/-- An accepted text has ten national digits, and before them one or two digits
of a country code exactly if it starts with a plus sign. -/
theorem accepted_digits {phoneNumber : FieldText} (hValid : validatePhoneNumber phoneNumber = true) :
    ∃ written national, digits phoneNumber.text = written ++ national ∧ national.length = 10 ∧
      (phoneNumber.text.head? = some '+' ∧ (written.length = 1 ∨ written.length = 2) ∨
        phoneNumber.text.head? ≠ some '+' ∧ written = []) := by
  obtain ⟨front, hFront, back, hBack, hText⟩ :=
    mem_mul.mp ((rmatch_iff_matches' regexString phoneNumber.text).mp hValid)
  obtain ⟨hNational, hNoPlus⟩ := nationalNumber_spelling hBack
  rw [← hText]
  rcases mem_optional.mp hFront with hCode | rfl
  · obtain ⟨hPlus, hLength⟩ := countryCode_spelling hCode
    refine ⟨digits front, digits back, digits_append .., hNational, Or.inl ⟨?_, hLength⟩⟩
    simp [List.head?_append, hPlus]
  · exact ⟨[], digits back, rfl, hNational, Or.inr ⟨fun hHead => hNoPlus (List.mem_of_head? hHead), rfl⟩⟩

/-- For an accepted text the key has the national digits and the number that is
verified is the one denoted exactly if the text is spelled plainly. -/
theorem faithful_iff_spelledPlainly {phoneNumber : FieldText}
    (hValid : validatePhoneNumber phoneNumber = true) :
    lookupKey phoneNumber.text = (denoted phoneNumber.text).national ∧
        AsksFor (withCountryCode phoneNumber.text) (denoted phoneNumber.text) ↔
      SpelledPlainly phoneNumber.text := by
  obtain ⟨written, national, hDigits, hNational, _⟩ := accepted_digits hValid
  generalize phoneNumber.text = text at hDigits ⊢
  have hEnough : 10 ≤ text.length := by
    have hLength := List.length_filter_le (fun c => digitCharacters.contains c) text
    have hCount : (digits text).length = written.length + 10 := by simp [hDigits, hNational]
    unfold digits at hCount
    omega
  have hKey : lookupKey text = (denoted text).national ↔
      ∀ c ∈ text.rtake 10, c ∈ digitCharacters := by
    have hLast := rtake_filter_eq_iff (fun c => digitCharacters.contains c) hEnough
    simp only [List.contains_iff_mem] at hLast
    exact hLast
  rw [hKey, SpelledPlainly]
  refine and_congr_right fun hAll => ?_
  unfold withCountryCode
  split_ifs with hTen
  · have hWhole : text.rtake 10 = text := by simp [List.rtake, hTen]
    rw [hWhole] at hAll
    have hHead : text.head? ≠ some '+' := fun hPlus =>
      absurd (hAll '+' (List.mem_of_head? hPlus)) (by decide)
    refine iff_of_true ⟨rfl, ?_⟩ (Or.inl hTen)
    have hDigitsText : digits text = text := digits_eq_self hAll
    have hWithCode : digits ('+' :: '1' :: text) = ['1'] ++ text := by
      change digits ['+', '1'] ++ digits text = _
      rw [hDigitsText]
      rfl
    unfold denoted
    rw [hWithCode, hDigitsText, hWhole, rtake_append_of_length hTen, rdrop_append_of_length hTen,
      if_neg hHead]
    rfl
  · simp [AsksFor, hTen]

theorem denoted_national_length {phoneNumber : FieldText}
    (hValid : validatePhoneNumber phoneNumber = true) :
    (denoted phoneNumber.text).national.length = 10 := by
  obtain ⟨written, national, hDigits, hNational, _⟩ := accepted_digits hValid
  simp [denoted, hDigits, rtake_append_of_length hNational, hNational]

theorem denoted_country_length {phoneNumber : FieldText}
    (hValid : validatePhoneNumber phoneNumber = true) :
    (denoted phoneNumber.text).country.length = 1 ∨
      (denoted phoneNumber.text).country.length = 2 := by
  obtain ⟨written, national, hDigits, hNational, ⟨hPlus, hWritten⟩ | ⟨hPlus, _⟩⟩ :=
    accepted_digits hValid
  · rwa [denoted, if_pos hPlus, hDigits, rdrop_append_of_length hNational]
  · rw [denoted, if_neg hPlus]
    exact Or.inl rfl

theorem mem_e164 {text : List Char} {c : Char} (h : c ∈ (denoted text).e164) :
    c = '+' ∨ c ∈ digitCharacters := by
  rcases List.mem_cons.mp h with rfl | hDigit
  · exact Or.inl rfl
  · refine Or.inr ?_
    rcases List.mem_append.mp hDigit with hCountry | hNational
    · simp only [denoted] at hCountry
      split_ifs at hCountry
      · exact mem_digits (List.mem_of_mem_take hCountry)
      · obtain rfl := List.mem_singleton.mp hCountry
        simp [digitCharacters]
    · exact mem_digits (List.mem_of_mem_drop hNational)

/-- Signing in with the denoted number gives the key that its judge was looked up by. -/
theorem getUserPhoneNumber_e164 {phoneNumber : FieldText}
    (hValid : validatePhoneNumber phoneNumber = true) :
    getUserPhoneNumber (some (denoted phoneNumber.text).e164) =
      (denoted phoneNumber.text).national := by
  have hAscii : ∀ c ∈ (denoted phoneNumber.text).e164, c.toNat < 128 ∧ c ≠ '%' := by
    intro c hMem
    rcases mem_e164 hMem with rfl | hDigit
    · decide
    · exact digit_class c hDigit
  rw [getUserPhoneNumber, Option.getD_some, removingPercentEncoding_of_ascii hAscii,
    Option.getD_some, PhoneNumber.e164, ← List.cons_append]
  exact rtake_append_of_length (denoted_national_length hValid)

theorem isValidPathString_of_digits {key : List Char} (hLength : key.length = 10)
    (hDigits : ∀ c ∈ key, c ∈ digitCharacters) : isValidPathString key = true := by
  have hClass : ∀ c ∈ digitCharacters, invalidPathCharacters.contains c = false := by
    simp [digitCharacters, invalidPathCharacters]
  have hNonempty : key ≠ [] := fun hNil => by simp [hNil] at hLength
  simp only [isValidPathString, Bool.and_eq_true, List.all_eq_true, Bool.not_eq_true',
    List.isEmpty_eq_false_iff]
  exact ⟨hNonempty, fun c hMem => hClass c (hDigits c hMem)⟩

/-- What a submission of the number has to do with the number that the text denotes. -/
structure FaithfulLogin (root : Root) (phoneNumber : FieldText) (number : PhoneNumber) : Prop where
  national_length : number.national.length = 10
  country_length : number.country.length = 1 ∨ number.country.length = 2
  lookedUp : ∃ registered, checkIfUserRegistred root number.national = some registered ∧
    submitNumber root phoneNumber =
      if registered then .verifyPhoneNumber number.national (withCountryCode phoneNumber.text)
      else .notRegistered number.national
  verified : AsksFor (withCountryCode phoneNumber.text) number
  signedIn : getUserPhoneNumber (some number.e164) = number.national

/-- A plainly spelled number is looked up and verified faithfully, and two of
them have the same key exactly if their national digits agree, whatever their
country codes are. -/
theorem plain_login_faithful (root : Root) {phoneNumber : FieldText}
    (hValid : validatePhoneNumber phoneNumber = true) (hPlain : SpelledPlainly phoneNumber.text) :
    FaithfulLogin root phoneNumber (denoted phoneNumber.text) ∧
      ∀ other : FieldText, validatePhoneNumber other = true → SpelledPlainly other.text →
        (lookupKey phoneNumber.text = lookupKey other.text ↔
          (denoted phoneNumber.text).national = (denoted other.text).national) := by
  obtain ⟨hKey, hAsks⟩ := (faithful_iff_spelledPlainly hValid).mpr hPlain
  have hLength := denoted_national_length hValid
  constructor
  · refine ⟨hLength, denoted_country_length hValid, ?_, hAsks, getUserPhoneNumber_e164 hValid⟩
    have hPath : isValidPathString (denoted phoneNumber.text).national = true :=
      isValidPathString_of_digits hLength fun c hMem => mem_digits (List.mem_of_mem_drop hMem)
    refine ⟨_, if_pos hPath, ?_⟩
    simp only [submitNumber, hValid, Bool.not_true, Bool.false_eq_true, if_false, hKey,
      checkIfUserRegistred, if_pos hPath]
    cases root.judges.any _ <;> rfl
  · intro other hOtherValid hOtherPlain
    rw [hKey, ((faithful_iff_spelledPlainly hOtherValid).mpr hOtherPlain).1]

namespace Contest

/-- The number of a judge as typed with the country code of the contest. -/
def american : FieldText where
  text := ['+', '1', '4', '0', '4', '5', '5', '5', '0', '1', '0', '1']
  ascii := by simp
  oneLine := by simp

/-- The same national digits under another country code. -/
def british : FieldText where
  text := ['+', '4', '4', '4', '0', '4', '5', '5', '5', '0', '1', '0', '1']
  ascii := by simp
  oneLine := by simp

/-- Two accepted texts have one key although they denote different numbers. -/
theorem country_code_not_in_key :
    ¬∀ first second : FieldText, validatePhoneNumber first = true →
      validatePhoneNumber second = true →
        (lookupKey first.text = lookupKey second.text ↔ denoted first.text = denoted second.text) := by
  intro hFaithful
  have hSame := (hFaithful american british (by decide +kernel) (by decide +kernel)).mp rfl
  exact absurd hSame (by decide +kernel)

theorem american_login_faithful :
    FaithfulLogin threeTeams american (denoted american.text) ∧
      ∀ other : FieldText, validatePhoneNumber other = true → SpelledPlainly other.text →
        (lookupKey american.text = lookupKey other.text ↔
          (denoted american.text).national = (denoted other.text).national) := by
  refine plain_login_faithful threeTeams (by decide +kernel) ⟨?_, Or.inr rfl⟩
  simp [american, List.rtake, digitCharacters]

end Contest

end CICJudging
