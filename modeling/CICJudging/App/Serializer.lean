import CICJudging.App.ScoringCells

/-! The data of callable functions as the client sends and reads it: numbers of 64
bits travel as texts in a dictionary of two keys, and everything else as it is. -/
namespace CICJudging

/-- The types of numbers that are sent as they are. -/
inductive PlainType where
  | i | s | l | I | S | f | d | B | c | C
  deriving DecidableEq

/-- A number by its objCType. The payload of a plain number is its bits. -/
inductive NSNumber where
  | longLong (value : Int64)
  | unsignedLongLong (value : UInt64)
  | plain (objCType : PlainType) (bits : UInt64)
  | unknown (objCType description : String)
  deriving DecidableEq

/-- The keys of a dictionary are texts, in the order of its enumeration. -/
inductive NSObject where
  | null
  | number (number : NSNumber)
  | string (text : String)
  | array (objects : List NSObject)
  | dictionary (entries : List (String × NSObject))
  | other (className description : String)

namespace NSObject

mutual

/-- The object, and the objects inside of it at any depth. -/
def inside : NSObject → List NSObject
  | .array objects => .array objects :: insideAll objects
  | .dictionary entries => .dictionary entries :: insideEntries entries
  | object => [object]

def insideAll : List NSObject → List NSObject
  | [] => []
  | object :: rest => object.inside ++ insideAll rest

def insideEntries : List (String × NSObject) → List NSObject
  | [] => []
  | (_, object) :: rest => object.inside ++ insideEntries rest

end

@[elab_as_elim]
theorem inductOn {motive : NSObject → Prop} (object : NSObject) (null : motive .null)
    (number : ∀ number, motive (.number number)) (string : ∀ text, motive (.string text))
    (array : ∀ objects, (∀ object ∈ objects, motive object) → motive (.array objects))
    (dictionary :
      ∀ entries, (∀ entry ∈ entries, motive entry.2) → motive (.dictionary entries))
    (other : ∀ className description, motive (.other className description)) : motive object :=
  @NSObject.rec motive (fun objects => ∀ object ∈ objects, motive object)
    (fun entries => ∀ entry ∈ entries, motive entry.2) (fun entry => motive entry.2)
    null number string array dictionary other nofun
    (fun _ _ hFirst hRest => List.forall_mem_cons.mpr ⟨hFirst, hRest⟩) nofun
    (fun _ _ hFirst hRest => List.forall_mem_cons.mpr ⟨hFirst, hRest⟩) (fun _ _ h => h) object

theorem insideAll_eq (objects : List NSObject) :
    insideAll objects = objects.flatMap inside := by
  induction objects with
  | nil => rfl
  | cons object rest ih => rw [insideAll, ih, List.flatMap_cons]

theorem insideEntries_eq (entries : List (String × NSObject)) :
    insideEntries entries = entries.flatMap fun entry => entry.2.inside := by
  induction entries with
  | nil => rfl
  | cons entry rest ih => rw [insideEntries, ih, List.flatMap_cons]

end NSObject

namespace FUNSerializer

open NSObject (insideAll_eq insideEntries_eq)

def kLongType : String := "type.googleapis.com/google.protobuf.Int64Value"

def kUnsignedLongType : String := "type.googleapis.com/google.protobuf.UInt64Value"

def wrapped (type value : String) : NSObject :=
  .dictionary [("@type", .string type), ("value", .string value)]

/-- What FUNThrowInvalidArgument raises. -/
structure InvalidArgument where
  message : String

def unsupportedType (className description : String) : InvalidArgument :=
  ⟨s!"Unsupported type: {className} for value {description}"⟩

def encodeNumber : NSNumber → Except InvalidArgument NSObject
  | .longLong value => .ok (wrapped kLongType (toString value.toInt))
  | .unsignedLongLong value => .ok (wrapped kUnsignedLongType (toString value.toNat))
  | .plain objCType bits => .ok (.number (.plain objCType bits))
  | .unknown objCType description =>
      .error ⟨s!"Unknown NSNumber objCType {objCType} on {description}"⟩

mutual

def encode : NSObject → Except InvalidArgument NSObject
  | .null => .ok .null
  | .number number => encodeNumber number
  | .string text => .ok (.string text)
  | .dictionary entries => (encodeEntries entries).map .dictionary
  | .array objects => (encodeAll objects).map .array
  | .other className description =>
      .error (unsupportedType className description)

def encodeAll : List NSObject → Except InvalidArgument (List NSObject)
  | [] => .ok []
  | object :: rest => do
      let first ← encode object
      let others ← encodeAll rest
      return first :: others

def encodeEntries : List (String × NSObject) → Except InvalidArgument (List (String × NSObject))
  | [] => .ok []
  | (key, object) :: rest => do
      let first ← encode object
      let others ← encodeEntries rest
      return (key, first) :: others

end

/-- An error for the caller, or an exception. -/
inductive Fault where
  | invalidNumber (value : String) (wrapped : List (String × NSObject))
  | unrecognizedSelector
  | invalidArgument (raised : InvalidArgument)

def EINVAL : Nat := 22

def ERANGE : Nat := 34

def isSpace (c : Char) : Bool := c == ' ' || (9 ≤ c.toNat && c.toNat ≤ 13)

/-- An optional sign: whether it is a minus, and the text after it. -/
def readSign : List Char → Bool × List Char
  | '+' :: rest => (false, rest)
  | '-' :: rest => (true, rest)
  | text => (false, text)

/-- The characters of UTF8String, up to the first NUL. -/
def cString (text : String) : List Char := text.toList.takeWhile (· ≠ '\x00')

/-- The value, the text after it and errno. -/
def strtoull (str : List Char) (errno : Nat) : UInt64 × List Char × Nat :=
  let (negative, text) := readSign (str.dropWhile isSpace)
  let digits := text.takeWhile Char.isDigit
  let rest := text.dropWhile Char.isDigit
  let value := Nat.ofDigitChars 10 digits 0
  if digits = [] then (0, str, EINVAL)
  else if UInt64.size ≤ value then (UInt64.ofNat (UInt64.size - 1), rest, ERANGE)
  else if negative then (0 - UInt64.ofNat value, rest, errno)
  else (UInt64.ofNat value, rest, errno)

section Decode

variable (numberFromString : String → Option NSNumber)

/-- The branch of kLongType. -/
def parseLong (wrapped : List (String × NSObject)) :
    NSObject → Nat → Except Fault (Option NSNumber) × Nat
  | .string text, errno =>
      match numberFromString text with
      | some number => (.ok (some number), errno)
      | none => (.error (.invalidNumber text wrapped), errno)
  | _, errno => (.error .unrecognizedSelector, errno)

/-- The branch of kUnsignedLongType: errno is not cleared before strtoull. -/
def parseUnsignedLong (wrapped : List (String × NSObject)) :
    NSObject → Nat → Except Fault (Option NSNumber) × Nat
  | .string text, errno =>
      let (number, rest, errno) := strtoull (cString text) errno
      if errno = ERANGE ∨ rest ≠ [] then (.error (.invalidNumber text wrapped), errno)
      else (.ok (some (.unsignedLongLong number)), errno)
  | _, errno => (.error .unrecognizedSelector, errno)

/-- Without both keys, and of an unknown type, the dictionary is not a number. -/
def decodeWrappedType (wrapped : List (String × NSObject)) (errno : Nat) :
    Except Fault (Option NSNumber) × Nat :=
  match wrapped.lookup "@type", wrapped.lookup "value" with
  | some (.string type), some value =>
      if type = kLongType then parseLong numberFromString wrapped value errno
      else if type = kUnsignedLongType then parseUnsignedLong wrapped value errno
      else (.ok none, errno)
  | some _, some _ => (.error .unrecognizedSelector, errno)
  | _, _ => (.ok none, errno)

/-- The first error or exception ends the decoding; errno stays as it is. -/
def andThen {α β : Type} (first : Except Fault α × Nat)
    (next : α → Nat → Except Fault β × Nat) : Except Fault β × Nat :=
  match first with
  | (.ok value, errno) => next value errno
  | (.error fault, errno) => (.error fault, errno)

mutual

def decode : NSObject → Nat → Except Fault NSObject × Nat
  | .dictionary entries, errno =>
      andThen (decodeWrappedType numberFromString entries errno) fun number errno =>
        match number with
        | some number => (.ok (.number number), errno)
        | none => andThen (decodeEntries entries errno) fun decoded errno =>
            (.ok (.dictionary decoded), errno)
  | .array objects, errno =>
      andThen (decodeAll objects errno) fun decoded errno => (.ok (.array decoded), errno)
  | .other className description, errno =>
      (.error (.invalidArgument (unsupportedType className description)), errno)
  | object, errno => (.ok object, errno)

def decodeAll : List NSObject → Nat → Except Fault (List NSObject) × Nat
  | [], errno => (.ok [], errno)
  | object :: rest, errno =>
      andThen (decode object errno) fun first errno =>
        andThen (decodeAll rest errno) fun others errno => (.ok (first :: others), errno)

def decodeEntries :
    List (String × NSObject) → Nat → Except Fault (List (String × NSObject)) × Nat
  | [], errno => (.ok [], errno)
  | (key, object) :: rest, errno =>
      andThen (decode object errno) fun first errno =>
        andThen (decodeEntries rest errno) fun others errno => (.ok ((key, first) :: others), errno)

end

end Decode

/-- The dictionary is taken for a wrapped number, whatever it was meant to be. -/
def ReadsAsWrapped (entries : List (String × NSObject)) : Prop :=
  match entries.lookup "@type", entries.lookup "value" with
  | some (.string type), some _ => type = kLongType ∨ type = kUnsignedLongType
  | some _, some _ => True
  | _, _ => False

instance (entries : List (String × NSObject)) : Decidable (ReadsAsWrapped entries) := by
  unfold ReadsAsWrapped
  split <;> infer_instance

/-- What can be sent and read back while errno is as given. -/
def Survives (errno : Nat) : NSObject → Prop
  | .number (.unsignedLongLong _) => errno ≠ ERANGE
  | .dictionary entries => ¬ ReadsAsWrapped entries
  | _ => True

instance (errno : Nat) (object : NSObject) : Decidable (Survives errno object) := by
  unfold Survives
  split <;> infer_instance

section Encoded

/-- The entries have the same keys in the same order, and each value is the encoding. -/
abbrev EncodesTo : List (String × NSObject) → List (String × NSObject) → Prop :=
  List.Forall₂ fun entry encoded => entry.1 = encoded.1 ∧ encode entry.2 = .ok encoded.2

theorem encodeAll_eq_ok {objects encoded : List NSObject} (h : encodeAll objects = .ok encoded) :
    List.Forall₂ (fun object result => encode object = .ok result) objects encoded := by
  induction objects generalizing encoded with
  | nil => cases h; exact .nil
  | cons object rest ih =>
      rw [encodeAll] at h
      cases hFirst : encode object with
      | error => rw [hFirst] at h; cases h
      | ok first =>
          cases hOthers : encodeAll rest with
          | error => rw [hFirst, hOthers] at h; cases h
          | ok others =>
              rw [hFirst, hOthers] at h
              cases h
              exact .cons hFirst (ih hOthers)

theorem encodeEntries_eq_ok {entries encoded : List (String × NSObject)}
    (h : encodeEntries entries = .ok encoded) : EncodesTo entries encoded := by
  induction entries generalizing encoded with
  | nil => cases h; exact .nil
  | cons entry rest ih =>
      rw [encodeEntries] at h
      cases hFirst : encode entry.2 with
      | error => rw [hFirst] at h; cases h
      | ok first =>
          cases hOthers : encodeEntries rest with
          | error => rw [hFirst, hOthers] at h; cases h
          | ok others =>
              rw [hFirst, hOthers] at h
              cases h
              exact .cons ⟨rfl, hFirst⟩ (ih hOthers)

theorem encode_array_eq_ok {objects : List NSObject} {encoded : NSObject}
    (h : encode (.array objects) = .ok encoded) :
    ∃ results, encoded = .array results ∧
      List.Forall₂ (fun object result => encode object = .ok result) objects results := by
  rw [encode] at h
  cases hAll : encodeAll objects with
  | error => rw [hAll] at h; cases h
  | ok results =>
      rw [hAll] at h
      cases h
      exact ⟨results, rfl, encodeAll_eq_ok hAll⟩

theorem encode_dictionary_eq_ok {entries : List (String × NSObject)} {encoded : NSObject}
    (h : encode (.dictionary entries) = .ok encoded) :
    ∃ results, encoded = .dictionary results ∧ EncodesTo entries results := by
  rw [encode] at h
  cases hAll : encodeEntries entries with
  | error => rw [hAll] at h; cases h
  | ok results =>
      rw [hAll] at h
      cases h
      exact ⟨results, rfl, encodeEntries_eq_ok hAll⟩

/-- A text is sent as it is, and nothing else is sent as a text. -/
theorem encode_string {object : NSObject} {text : String} (h : encode object = .ok (.string text)) :
    object = .string text := by
  cases object with
  | null => cases h
  | number number => cases number <;> cases h
  | string _ => cases h; rfl
  | array objects =>
      obtain ⟨_, hArray, _⟩ := encode_array_eq_ok h
      cases hArray
  | dictionary entries =>
      obtain ⟨_, hDictionary, _⟩ := encode_dictionary_eq_ok h
      cases hDictionary
  | other className description => cases h

theorem lookup_encoded {entries encoded : List (String × NSObject)} (h : EncodesTo entries encoded)
    (key : String) :
    Option.Rel (fun object result => encode object = .ok result) (entries.lookup key)
      (encoded.lookup key) := by
  induction h with
  | nil => exact .none
  | @cons entry result entries results hHead _ ih =>
      obtain ⟨name, object⟩ := entry
      obtain ⟨name', result⟩ := result
      obtain ⟨hKey, hEncode⟩ := hHead
      cases hKey
      rw [List.lookup_cons, List.lookup_cons]
      cases key == name with
      | true => exact .some hEncode
      | false => exact ih

theorem readsAsWrapped_encoded {entries encoded : List (String × NSObject)}
    (h : EncodesTo entries encoded) : ReadsAsWrapped encoded ↔ ReadsAsWrapped entries := by
  have hType := lookup_encoded h "@type"
  have hValue := lookup_encoded h "value"
  unfold ReadsAsWrapped
  generalize entries.lookup "@type" = type, encoded.lookup "@type" = type' at hType ⊢
  generalize entries.lookup "value" = value, encoded.lookup "value" = value' at hValue ⊢
  cases hType with
  | none => rfl
  | @some type type' hType =>
      cases hValue with
      | none => cases type <;> cases type' <;> rfl
      | some _ =>
          cases type with
          | string text =>
              cases hType
              rfl
          | _ =>
            cases type' with
            | string text => cases encode_string hType
            | _ => exact Iff.rfl

end Encoded

theorem strtoull_digits {c : Char} {rest : List Char} (hAll : ∀ d ∈ c :: rest, d.isDigit = true)
    (hFits : Nat.ofDigitChars 10 (c :: rest) 0 < UInt64.size) (errno : Nat) :
    strtoull (c :: rest) errno = (UInt64.ofNat (Nat.ofDigitChars 10 (c :: rest) 0), [], errno) := by
  have hHead : c.isDigit = true := hAll c (List.mem_cons_self ..)
  have hSpace : isSpace c = false := by
    rw [Char.isDigit, Bool.and_eq_true, decide_eq_true_eq, decide_eq_true_eq] at hHead
    have hLow : 48 ≤ c.toNat := UInt32.le_iff_toNat_le.mp hHead.1
    rw [isSpace, Bool.or_eq_false_iff]
    refine ⟨beq_false_of_ne ?_, ?_⟩
    · rintro rfl
      exact absurd hLow (by decide)
    · simp only [Bool.and_eq_false_iff, decide_eq_false_iff_not]
      omega
  have hSign : readSign (c :: rest) = (false, c :: rest) := by
    unfold readSign
    split
    next h => cases h; cases hHead
    next h => cases h; cases hHead
    next => rfl
  have hTake : (c :: rest).takeWhile Char.isDigit = c :: rest :=
    List.takeWhile_eq_self_iff.mpr hAll
  have hDrop : (c :: rest).dropWhile Char.isDigit = [] := List.dropWhile_eq_nil_iff.mpr hAll
  rw [strtoull, List.dropWhile_cons_of_neg (by rw [hSpace]; decide), hSign]
  dsimp only
  rw [hTake, hDrop, if_neg (List.cons_ne_nil _ _), if_neg (Nat.not_le.mpr hFits),
    if_neg Bool.false_ne_true]

/-- The text of an unsigned long long is read back, and errno stays. -/
theorem strtoull_toString (value : UInt64) (errno : Nat) :
    strtoull (cString (toString value.toNat)) errno = (value, [], errno) := by
  obtain ⟨c, rest, hDigits, -⟩ := Text.toDigits_eq_cons value.toNat
  have hAll : ∀ d ∈ c :: rest, d.isDigit = true := fun d hMem =>
    Nat.isDigit_of_mem_toDigits (by decide) (by decide) (hDigits ▸ hMem)
  have hText : (toString value.toNat).toList = c :: rest := Nat.toList_repr.trans hDigits
  have hNul : (c :: rest).takeWhile (· ≠ '\x00') = c :: rest := by
    refine List.takeWhile_eq_self_iff.mpr fun d hMem => decide_eq_true ?_
    rintro rfl
    cases hAll _ hMem
  have hValue : Nat.ofDigitChars 10 (c :: rest) 0 = value.toNat := by
    rw [← hDigits, Nat.ofDigitChars_ten_toDigits]
  have hFits : Nat.ofDigitChars 10 (c :: rest) 0 < UInt64.size := hValue ▸ value.toNat_lt
  rw [cString, hText, hNul, strtoull_digits hAll hFits, hValue, UInt64.ofNat_toNat]

section RoundTrip

variable {numberFromString : String → Option NSNumber}

theorem parseLong_ne_none (wrapped : List (String × NSObject)) (value : NSObject) (errno : Nat) :
    (parseLong numberFromString wrapped value errno).1 ≠ .ok none := by
  unfold parseLong
  split
  · split <;> nofun
  · nofun

theorem parseUnsignedLong_ne_none (wrapped : List (String × NSObject)) (value : NSObject)
    (errno : Nat) : (parseUnsignedLong wrapped value errno).1 ≠ .ok none := by
  unfold parseUnsignedLong
  split
  · dsimp only
    split <;> nofun
  · nofun

theorem decodeWrappedType_of_not_reads {entries : List (String × NSObject)}
    (h : ¬ ReadsAsWrapped entries) (errno : Nat) :
    decodeWrappedType numberFromString entries errno = (.ok none, errno) := by
  unfold ReadsAsWrapped at h
  unfold decodeWrappedType
  split at h
  next =>
      rw [not_or] at h
      exact (if_neg h.1).trans (if_neg h.2)
  next => exact absurd trivial h
  next => rfl

theorem decodeWrappedType_of_reads {entries : List (String × NSObject)}
    (h : ReadsAsWrapped entries) (errno : Nat) :
    (decodeWrappedType numberFromString entries errno).1 ≠ .ok none := by
  unfold ReadsAsWrapped at h
  unfold decodeWrappedType
  split at h
  next type value hType hValue =>
      split_ifs with hLong hUnsigned
      · exact parseLong_ne_none entries value errno
      · exact parseUnsignedLong_ne_none entries value errno
      · exact absurd h (not_or.mpr ⟨hLong, hUnsigned⟩)
  next => nofun
  next => exact h.elim

theorem decodeWrappedType_wrapped {type : String} {value : NSObject} (errno : Nat) :
    decodeWrappedType numberFromString [("@type", .string type), ("value", value)] errno =
      if type = kLongType then
        parseLong numberFromString [("@type", .string type), ("value", value)] value errno
      else if type = kUnsignedLongType then
        parseUnsignedLong [("@type", .string type), ("value", value)] value errno
      else (.ok none, errno) := rfl

theorem decode_longLong {value : Int64}
    (hReads : numberFromString (toString value.toInt) = some (.longLong value)) (errno : Nat) :
    decode numberFromString (wrapped kLongType (toString value.toInt)) errno =
      (.ok (.number (.longLong value)), errno) := by
  rw [wrapped, decode, decodeWrappedType_wrapped, if_pos rfl, parseLong, hReads]
  rfl

theorem decode_unsignedLongLong (value : UInt64) {errno : Nat} (h : errno ≠ ERANGE) :
    decode numberFromString (wrapped kUnsignedLongType (toString value.toNat)) errno =
      (.ok (.number (.unsignedLongLong value)), errno) := by
  rw [wrapped, decode, decodeWrappedType_wrapped, if_neg (by decide), if_pos rfl, parseUnsignedLong,
    strtoull_toString]
  dsimp only
  rw [if_neg (by simpa using h)]
  rfl

/-- A number in range is refused where errno is left over from an earlier one. -/
theorem decode_unsignedLongLong_of_erange (value : UInt64) :
    ∃ fault, decode numberFromString (wrapped kUnsignedLongType (toString value.toNat)) ERANGE =
      (.error fault, ERANGE) := by
  rw [wrapped, decode, decodeWrappedType_wrapped, if_neg (by decide), if_pos rfl, parseUnsignedLong,
    strtoull_toString]
  exact ⟨_, rfl⟩

theorem andThen_ok {α β : Type} (value : α) (errno : Nat)
    (next : α → Nat → Except Fault β × Nat) :
    andThen (.ok value, errno) next = next value errno := rfl

theorem andThen_fst_eq_ok {α β : Type} {first : Except Fault α × Nat}
    {next : α → Nat → Except Fault β × Nat} {result : β}
    (h : (andThen first next).1 = .ok result) :
    ∃ value, first.1 = .ok value ∧ (next value first.2).1 = .ok result := by
  obtain ⟨value | fault, errno⟩ := first
  · cases h
  · exact ⟨_, rfl, h⟩

variable {errno : Nat}

/-- The induction is on the object; errno is the same before each part of it. -/
theorem decode_of_survives
    (hReads : ∀ value : Int64, numberFromString (toString value.toInt) = some (.longLong value))
    {object encoded : NSObject} (hEncode : encode object = .ok encoded)
    (hSurvives : ∀ inner ∈ object.inside, Survives errno inner) :
    decode numberFromString encoded errno = (.ok object, errno) := by
  induction object using NSObject.inductOn generalizing encoded with
  | null => cases hEncode; rfl
  | string text => cases hEncode; rfl
  | other className description => cases hEncode
  | number number =>
      cases number with
      | longLong value =>
          cases hEncode
          exact decode_longLong (hReads value) errno
      | unsignedLongLong value =>
          cases hEncode
          exact decode_unsignedLongLong value (hSurvives _ (List.mem_singleton_self _))
      | plain objCType bits => cases hEncode; rfl
      | unknown objCType description => cases hEncode
  | array objects ih =>
      obtain ⟨results, rfl, hResults⟩ := encode_array_eq_ok hEncode
      rw [NSObject.inside, insideAll_eq, List.forall_mem_cons, List.forall_mem_flatMap] at hSurvives
      have hAll : decodeAll numberFromString results errno = (.ok objects, errno) := by
        have hInside := hSurvives.2
        clear hEncode hSurvives
        induction hResults with
        | nil => rfl
        | @cons object result rest results hHead _ ihRest =>
            rw [List.forall_mem_cons] at ih hInside
            rw [decodeAll, ih.1 hHead hInside.1, andThen_ok, ihRest ih.2 hInside.2, andThen_ok]
      rw [decode, hAll]
      rfl
  | dictionary entries ih =>
      obtain ⟨results, rfl, hResults⟩ := encode_dictionary_eq_ok hEncode
      rw [NSObject.inside, insideEntries_eq, List.forall_mem_cons,
        List.forall_mem_flatMap] at hSurvives
      have hNot : ¬ ReadsAsWrapped results := mt (readsAsWrapped_encoded hResults).mp hSurvives.1
      have hAll : decodeEntries numberFromString results errno = (.ok entries, errno) := by
        have hInside := hSurvives.2
        clear hEncode hSurvives hNot
        induction hResults with
        | nil => rfl
        | @cons entry result rest results hHead _ ihRest =>
            obtain ⟨key, object⟩ := entry
            obtain ⟨key', result⟩ := result
            obtain ⟨hKey, hObject⟩ := hHead
            cases hKey
            rw [List.forall_mem_cons] at ih hInside
            rw [decodeEntries, ih.1 hObject hInside.1, andThen_ok, ihRest ih.2 hInside.2,
              andThen_ok]
      rw [decode, decodeWrappedType_of_not_reads hNot, andThen_ok]
      simp only [hAll, andThen_ok]

/-- A dictionary that reads as a wrapped number never comes back as a dictionary. -/
theorem decode_dictionary_ne {entries decoded : List (String × NSObject)}
    (h : ReadsAsWrapped entries) :
    (decode numberFromString (.dictionary entries) errno).1 ≠ .ok (.dictionary decoded) := by
  intro hDecode
  rw [decode] at hDecode
  obtain ⟨number, hNumber, hNext⟩ := andThen_fst_eq_ok hDecode
  cases number with
  | none => exact decodeWrappedType_of_reads h errno hNumber
  | some number => cases hNext

theorem survives_of_decode
    (hReads : ∀ value : Int64, numberFromString (toString value.toInt) = some (.longLong value))
    {object encoded : NSObject} (hEncode : encode object = .ok encoded)
    (hDecode : (decode numberFromString encoded errno).1 = .ok object) :
    ∀ inner ∈ object.inside, Survives errno inner := by
  induction object using NSObject.inductOn generalizing encoded with
  | null => simp [NSObject.inside, Survives]
  | string text => simp [NSObject.inside, Survives]
  | other className description => cases hEncode
  | number number =>
      cases number with
      | unsignedLongLong value =>
          cases hEncode
          simp only [NSObject.inside, List.mem_singleton, forall_eq, Survives]
          rintro rfl
          obtain ⟨fault, hFault⟩ := @decode_unsignedLongLong_of_erange numberFromString value
          rw [hFault] at hDecode
          cases hDecode
      | _ => simp [NSObject.inside, Survives]
  | array objects ih =>
      obtain ⟨results, rfl, hResults⟩ := encode_array_eq_ok hEncode
      rw [NSObject.inside, insideAll_eq, List.forall_mem_cons, List.forall_mem_flatMap]
      refine ⟨trivial, ?_⟩
      rw [decode] at hDecode
      obtain ⟨decoded, hAll, hSame⟩ := andThen_fst_eq_ok hDecode
      cases hSame
      clear hEncode hDecode
      induction hResults with
      | nil => simp
      | @cons object result rest results hHead _ ihRest =>
          rw [List.forall_mem_cons] at ih ⊢
          rw [decodeAll] at hAll
          obtain ⟨first, hFirst, hAll⟩ := andThen_fst_eq_ok hAll
          obtain ⟨others, hOthers, hSame⟩ := andThen_fst_eq_ok hAll
          cases hSame
          have hHere := ih.1 hHead hFirst
          rw [decode_of_survives hReads hHead hHere] at hOthers
          exact ⟨hHere, ihRest ih.2 hOthers⟩
  | dictionary entries ih =>
      obtain ⟨results, rfl, hResults⟩ := encode_dictionary_eq_ok hEncode
      rw [NSObject.inside, insideEntries_eq, List.forall_mem_cons, List.forall_mem_flatMap]
      have hNot : ¬ ReadsAsWrapped results := fun hReads => decode_dictionary_ne hReads hDecode
      refine ⟨mt (readsAsWrapped_encoded hResults).mpr hNot, ?_⟩
      rw [decode, decodeWrappedType_of_not_reads hNot, andThen_ok] at hDecode
      obtain ⟨decoded, hAll, hSame⟩ := andThen_fst_eq_ok hDecode
      cases hSame
      clear hEncode hDecode hNot
      induction hResults with
      | nil => simp
      | @cons entry result rest results hHead _ ihRest =>
          obtain ⟨key, object⟩ := entry
          obtain ⟨key', result⟩ := result
          obtain ⟨hKey, hObject⟩ := hHead
          cases hKey
          rw [List.forall_mem_cons] at ih ⊢
          rw [decodeEntries] at hAll
          obtain ⟨first, hFirst, hAll⟩ := andThen_fst_eq_ok hAll
          obtain ⟨others, hOthers, hSame⟩ := andThen_fst_eq_ok hAll
          cases hSame
          have hHere := ih.1 hObject hFirst
          rw [decode_of_survives hReads hObject hHere] at hOthers
          exact ⟨hHere, ihRest ih.2 hOthers⟩

/-- What was sent is read back if and only if no dictionary in it reads as a wrapped
number, and no unsigned number is read while errno is ERANGE. -/
theorem decode_encode_iff
    (hReads : ∀ value : Int64, numberFromString (toString value.toInt) = some (.longLong value))
    {object encoded : NSObject} (hEncode : encode object = .ok encoded) :
    (decode numberFromString encoded errno).1 = .ok object ↔
      ∀ inner ∈ object.inside, Survives errno inner :=
  ⟨survives_of_decode hReads hEncode,
    fun hSurvives => congrArg Prod.fst (decode_of_survives hReads hEncode hSurvives)⟩

end RoundTrip

/-- A formatter that reads whole numbers. -/
def wholeNumber (text : String) : Option NSNumber :=
  (intOfString text).map fun value => .longLong (Int64.ofInt value)

theorem wholeNumber_toString (value : Int64) :
    wholeNumber (toString value.toInt) = some (.longLong value) := by
  rw [wholeNumber, intOfString_toString ⟨value.le_toInt, value.toInt_lt⟩, Option.map_some,
    Int64.ofInt_toInt]

def teamVotes : NSObject :=
  .dictionary [("teamId", .number (.longLong 5)),
    ("votes", .array [.number (.unsignedLongLong 7), .null])]

def teamVotesSent : NSObject :=
  .dictionary [("teamId", wrapped kLongType "5"),
    ("votes", .array [wrapped kUnsignedLongType "7", .null])]

theorem teamVotes_returns :
    (decode wholeNumber teamVotesSent 0).1 = .ok teamVotes ∧
      (decode wholeNumber teamVotesSent ERANGE).1 ≠ .ok teamVotes :=
  have hSent : encode teamVotes = .ok teamVotesSent := rfl
  ⟨(decode_encode_iff wholeNumber_toString hSent).mpr (by decide),
    mt (decode_encode_iff wholeNumber_toString hSent).mp (by decide)⟩

section Sent

theorem exists_of_forall₂_right {α β : Type} {relation : α → β → Prop} {first : List α}
    {second : List β} (h : List.Forall₂ relation first second) {b : β} (hMem : b ∈ second) :
    ∃ a ∈ first, relation a b := by
  induction h with
  | nil => cases hMem
  | cons hHead _ ih =>
      rcases List.mem_cons.mp hMem with rfl | hMem
      · exact ⟨_, List.mem_cons_self .., hHead⟩
      · obtain ⟨a, hIn, hRelated⟩ := ih hMem
        exact ⟨a, List.mem_cons_of_mem _ hIn, hRelated⟩

/-- Not a number of 64 bits, and supported. -/
def SentAsIs : NSObject → Prop
  | .number (.plain _ _) => True
  | .number _ => False
  | .other _ _ => False
  | _ => True

theorem sentAsIs_encoded {object encoded : NSObject} (hEncode : encode object = .ok encoded) :
    ∀ inner ∈ encoded.inside, SentAsIs inner := by
  induction object using NSObject.inductOn generalizing encoded with
  | null => cases hEncode; simp [NSObject.inside, SentAsIs]
  | string text => cases hEncode; simp [NSObject.inside, SentAsIs]
  | other className description => cases hEncode
  | number number =>
      cases number with
      | unknown objCType description => cases hEncode
      | _ => cases hEncode; simp [wrapped, NSObject.inside, NSObject.insideEntries, SentAsIs]
  | array objects ih =>
      obtain ⟨results, rfl, hResults⟩ := encode_array_eq_ok hEncode
      rw [NSObject.inside, insideAll_eq, List.forall_mem_cons, List.forall_mem_flatMap]
      refine ⟨trivial, fun result hMem => ?_⟩
      obtain ⟨object, hObject, hResult⟩ := exists_of_forall₂_right hResults hMem
      exact ih object hObject hResult
  | dictionary entries ih =>
      obtain ⟨results, rfl, hResults⟩ := encode_dictionary_eq_ok hEncode
      rw [NSObject.inside, insideEntries_eq, List.forall_mem_cons, List.forall_mem_flatMap]
      refine ⟨trivial, fun result hMem => ?_⟩
      obtain ⟨entry, hEntry, hResult⟩ := exists_of_forall₂_right hResults hMem
      exact ih entry hEntry hResult.2

theorem encode_of_sentAsIs {object : NSObject} (h : ∀ inner ∈ object.inside, SentAsIs inner) :
    encode object = .ok object := by
  induction object using NSObject.inductOn with
  | null => rfl
  | string text => rfl
  | other className description => exact (h _ (List.mem_singleton_self _)).elim
  | number number =>
      cases number with
      | plain objCType bits => rfl
      | _ => exact (h _ (List.mem_singleton_self _)).elim
  | array objects ih =>
      rw [NSObject.inside, insideAll_eq, List.forall_mem_cons, List.forall_mem_flatMap] at h
      have hAll : encodeAll objects = .ok objects := by
        replace h := h.2
        induction objects with
        | nil => rfl
        | cons object rest ihRest =>
            rw [List.forall_mem_cons] at ih h
            rw [encodeAll, ih.1 h.1, ihRest ih.2 h.2]
            rfl
      rw [encode, hAll]
      rfl
  | dictionary entries ih =>
      rw [NSObject.inside, insideEntries_eq, List.forall_mem_cons, List.forall_mem_flatMap] at h
      have hAll : encodeEntries entries = .ok entries := by
        replace h := h.2
        induction entries with
        | nil => rfl
        | cons entry rest ihRest =>
            rw [List.forall_mem_cons] at ih h
            rw [encodeEntries, ih.1 h.1, ihRest ih.2 h.2]
            rfl
      rw [encode, hAll]
      rfl

/-- What is sent holds no number of 64 bits, and is sent unchanged. -/
theorem encoded_sentAsIs {object encoded : NSObject} (hEncode : encode object = .ok encoded) :
    (∀ inner ∈ encoded.inside, SentAsIs inner) ∧ encode encoded = .ok encoded :=
  have hInside := sentAsIs_encoded hEncode
  ⟨hInside, encode_of_sentAsIs hInside⟩

theorem teamVotes_sentAsIs :
    (∀ inner ∈ teamVotesSent.inside, SentAsIs inner) ∧ encode teamVotesSent = .ok teamVotesSent :=
  encoded_sentAsIs (show encode teamVotes = .ok teamVotesSent from rfl)

end Sent

section Refused

variable {numberFromString : String → Option NSNumber} {errno : Nat}

/-- What the branch of kUnsignedLongType does not take: a text without digits, or with more
after them, or past 64 bits, and any text but the empty one while errno is ERANGE. -/
def UnsignedRefused (errno : Nat) (str : List Char) : Prop :=
  let text := (readSign (str.dropWhile isSpace)).2
  let digits := text.takeWhile Char.isDigit
  str ≠ [] ∧
    (digits = [] ∨ text.dropWhile Char.isDigit ≠ [] ∨
      UInt64.size ≤ Nat.ofDigitChars 10 digits 0 ∨ errno = ERANGE)

/-- A wrapped number whose text the parser of its type refuses, where errno is as given
before the decoding. -/
structure RefusedNumber (numberFromString : String → Option NSNumber) (errno : Nat)
    (value : String) (wrapped : List (String × NSObject)) : Prop where
  text : wrapped.lookup "value" = some (.string value)
  refused :
    (wrapped.lookup "@type" = some (.string kLongType) ∧ numberFromString value = none) ∨
      (wrapped.lookup "@type" = some (.string kUnsignedLongType) ∧
        UnsignedRefused errno (cString value))

theorem strtoull_refused_iff {str : List Char} :
    (strtoull str errno).2.2 = ERANGE ∨ (strtoull str errno).2.1 ≠ [] ↔
      UnsignedRefused errno str := by
  rw [UnsignedRefused]
  by_cases hNil : str = []
  · subst hNil
    simp [strtoull, readSign, EINVAL, ERANGE]
  · rw [strtoull, and_iff_right hNil]
    generalize readSign (str.dropWhile isSpace) = signed
    dsimp only
    by_cases hDigits : signed.2.takeWhile Char.isDigit = []
    · simp [hDigits, hNil]
    · rw [if_neg hDigits, or_iff_right hDigits]
      by_cases hSize : UInt64.size ≤ Nat.ofDigitChars 10 (signed.2.takeWhile Char.isDigit) 0
      · simp [hSize]
      · rw [if_neg hSize, or_iff_right hSize]
        cases signed.1 <;> exact or_comm

theorem parseUnsignedLong_error_iff {wrapped : List (String × NSObject)} {value : String} :
    (parseUnsignedLong wrapped (.string value) errno).1 = .error (.invalidNumber value wrapped) ↔
      UnsignedRefused errno (cString value) := by
  rw [parseUnsignedLong, ← strtoull_refused_iff]
  dsimp only
  split_ifs with hRefused
  · exact iff_of_true rfl hRefused
  · exact iff_of_false nofun hRefused

/-- An earlier number never leaves ERANGE behind. -/
theorem RefusedNumber.of_before {before : Nat} {value : String}
    {wrapped : List (String × NSObject)} (hErrno : before = ERANGE → errno = ERANGE)
    (h : RefusedNumber numberFromString before value wrapped) :
    RefusedNumber numberFromString errno value wrapped := by
  refine ⟨h.text, h.refused.imp_right (And.imp_right (And.imp_right ?_))⟩
  exact Or.imp_right (Or.imp_right (Or.imp_right hErrno))

theorem decodeWrappedType_error_iff {entries blamed : List (String × NSObject)} {value : String} :
    (decodeWrappedType numberFromString entries errno).1 = .error (.invalidNumber value blamed) ↔
      blamed = entries ∧ RefusedNumber numberFromString errno value entries := by
  constructor
  · intro h
    unfold decodeWrappedType at h
    split at h
    next type object hType hValue =>
        split_ifs at h with hLong hUnsigned
        · cases object with
          | string text =>
              rw [parseLong] at h
              cases hRead : numberFromString text with
              | some number => rw [hRead] at h; cases h
              | none =>
                  rw [hRead] at h
                  cases h
                  exact ⟨rfl, hValue, .inl ⟨hLong ▸ hType, hRead⟩⟩
          | _ => cases h
        · cases object with
          | string text =>
              obtain ⟨rfl, rfl⟩ : text = value ∧ entries = blamed := by
                rw [parseUnsignedLong] at h
                dsimp only at h
                split_ifs at h
                cases h
                exact ⟨rfl, rfl⟩
              exact ⟨rfl, hValue, .inr ⟨hUnsigned ▸ hType, parseUnsignedLong_error_iff.mp h⟩⟩
          | _ => cases h
    · cases h
    · cases h
  · rintro ⟨rfl, hText, ⟨hType, hRead⟩ | ⟨hType, hRead⟩⟩
    · simp only [decodeWrappedType, hType, hText, parseLong, hRead, if_pos]
    · have hOther : kUnsignedLongType ≠ kLongType := by decide
      simp only [decodeWrappedType, hType, hText, if_neg hOther, if_pos]
      exact parseUnsignedLong_error_iff.mpr hRead

theorem parseLong_errno (wrapped : List (String × NSObject)) (object : NSObject) :
    (parseLong numberFromString wrapped object errno).2 = errno := by
  unfold parseLong
  split
  · split <;> rfl
  · rfl

theorem parseUnsignedLong_errno {wrapped : List (String × NSObject)} {object : NSObject}
    {number : Option NSNumber} (h : (parseUnsignedLong wrapped object errno).1 = .ok number) :
    (parseUnsignedLong wrapped object errno).2 ≠ ERANGE := by
  revert h
  unfold parseUnsignedLong
  split
  · dsimp only
    split_ifs with hRefused
    · nofun
    · exact fun _ hErrno => hRefused (Or.inl hErrno)
  · nofun

/-- A number that is read leaves errno as it is, or clears it of ERANGE. -/
theorem decodeWrappedType_errno {entries : List (String × NSObject)} {number : Option NSNumber}
    (h : (decodeWrappedType numberFromString entries errno).1 = .ok number)
    (hAfter : (decodeWrappedType numberFromString entries errno).2 = ERANGE) : errno = ERANGE := by
  revert h hAfter
  unfold decodeWrappedType
  split
  next type object hType hValue =>
      split_ifs with hLong hUnsigned
      · exact fun _ hAfter => (parseLong_errno entries object).symm.trans hAfter
      · exact fun hRead hAfter => absurd hAfter (parseUnsignedLong_errno hRead)
      · exact fun _ hAfter => hAfter
  next => nofun
  next => exact fun _ hAfter => hAfter

/-- A decoding of these objects: it leaves no new ERANGE behind, and its errors name a
refused number among them. -/
structure Blames (numberFromString : String → Option NSNumber) (objects : List NSObject)
    {α : Type} (decoding : Nat → Except Fault α × Nat) : Prop where
  errno : ∀ {errno result}, (decoding errno).1 = .ok result →
    (decoding errno).2 = ERANGE → errno = ERANGE
  error : ∀ {errno value blamed}, (decoding errno).1 = .error (.invalidNumber value blamed) →
    .dictionary blamed ∈ objects ∧ RefusedNumber numberFromString errno value blamed

namespace Blames

variable {objects more : List NSObject} {α β : Type}

theorem ok (value : α) : Blames numberFromString objects fun errno => (.ok value, errno) :=
  ⟨fun _ hAfter => hAfter, nofun⟩

theorem andThen {first : Nat → Except Fault α × Nat} {next : α → Nat → Except Fault β × Nat}
    (hFirst : Blames numberFromString objects first)
    (hNext : ∀ value, Blames numberFromString objects (next value)) :
    Blames numberFromString objects fun errno => FUNSerializer.andThen (first errno) next := by
  constructor
  · intro errno result h hAfter
    cases hResult : first errno with
    | mk outcome before =>
        rw [hResult] at h hAfter
        cases outcome with
        | error fault => cases h
        | ok value =>
            refine hFirst.errno (congrArg Prod.fst hResult) ?_
            rw [hResult]
            exact (hNext value).errno h hAfter
  · intro errno text blamed h
    cases hResult : first errno with
    | mk outcome before =>
        rw [hResult] at h
        cases outcome with
        | error fault =>
            cases h
            exact hFirst.error (congrArg Prod.fst hResult)
        | ok value =>
            obtain ⟨hMem, hRefused⟩ := (hNext value).error h
            refine ⟨hMem, hRefused.of_before fun hBefore => ?_⟩
            refine hFirst.errno (congrArg Prod.fst hResult) ?_
            rw [hResult]
            exact hBefore

theorem mono (hSubset : objects ⊆ more) {decoding : Nat → Except Fault α × Nat}
    (h : Blames numberFromString objects decoding) : Blames numberFromString more decoding :=
  ⟨h.errno, fun hError => (h.error hError).imp_left fun hMem => hSubset hMem⟩

theorem decodeWrappedType (entries : List (String × NSObject)) :
    Blames numberFromString (NSObject.dictionary entries).inside
      (FUNSerializer.decodeWrappedType numberFromString entries) := by
  refine ⟨decodeWrappedType_errno, fun hError => ?_⟩
  obtain ⟨rfl, hRefused⟩ := decodeWrappedType_error_iff.mp hError
  exact ⟨List.mem_cons_self .., hRefused⟩

theorem decodeAll {list : List NSObject}
    (h : ∀ object ∈ list, Blames numberFromString object.inside (decode numberFromString object)) :
    Blames numberFromString (NSObject.insideAll list)
      (FUNSerializer.decodeAll numberFromString list) := by
  induction list with
  | nil => exact ok []
  | cons object rest ih =>
      rw [List.forall_mem_cons] at h
      refine andThen (h.1.mono (List.subset_append_left ..)) fun first => ?_
      exact andThen ((ih h.2).mono (List.subset_append_right ..)) fun others => ok _

theorem decodeEntries {entries : List (String × NSObject)}
    (h : ∀ entry ∈ entries,
      Blames numberFromString entry.2.inside (decode numberFromString entry.2)) :
    Blames numberFromString (NSObject.insideEntries entries)
      (FUNSerializer.decodeEntries numberFromString entries) := by
  induction entries with
  | nil => exact ok []
  | cons entry rest ih =>
      rw [List.forall_mem_cons] at h
      refine andThen (h.1.mono (List.subset_append_left ..)) fun first => ?_
      exact andThen ((ih h.2).mono (List.subset_append_right ..)) fun others => ok _

theorem decode (object : NSObject) :
    Blames numberFromString object.inside (FUNSerializer.decode numberFromString object) := by
  induction object using NSObject.inductOn with
  | null => exact ok _
  | number number => exact ok _
  | string text => exact ok _
  | other className description => exact ⟨nofun, nofun⟩
  | array objects ih =>
      exact andThen ((decodeAll ih).mono (List.subset_cons_self ..)) fun decoded => ok _
  | dictionary entries ih =>
      refine andThen (decodeWrappedType entries) fun number => ?_
      cases number with
      | some number => exact ok _
      | none => exact andThen ((decodeEntries ih).mono (List.subset_cons_self ..)) fun decoded => ok _

end Blames

/-- An error of decode names a dictionary of the object whose text is refused, and which
alone gives that error. -/
theorem decode_error {object : NSObject} {value : String} {blamed : List (String × NSObject)}
    (h : (decode numberFromString object errno).1 = .error (.invalidNumber value blamed)) :
    .dictionary blamed ∈ object.inside ∧ RefusedNumber numberFromString errno value blamed ∧
      (decode numberFromString (.dictionary blamed) errno).1 =
        .error (.invalidNumber value blamed) := by
  obtain ⟨hMem, hRefused⟩ := (Blames.decode object).error h
  refine ⟨hMem, hRefused, ?_⟩
  have hAlone := decodeWrappedType_error_iff.mpr ⟨rfl, hRefused⟩
  rw [decode]
  generalize decodeWrappedType numberFromString blamed errno = outcome at hAlone ⊢
  obtain ⟨_, after⟩ := outcome
  cases hAlone
  rfl

end Refused

def tooLarge : List (String × NSObject) :=
  [("@type", .string kUnsignedLongType), ("value", .string "18446744073709551616")]

def seven : List (String × NSObject) :=
  [("@type", .string kUnsignedLongType), ("value", .string "7")]

/-- The second text is refused only because errno is ERANGE before the decoding. -/
theorem tooLarge_refused :
    (.dictionary tooLarge ∈ (NSObject.array [.null, .dictionary tooLarge]).inside ∧
      RefusedNumber wholeNumber 0 "18446744073709551616" tooLarge ∧
      (decode wholeNumber (.dictionary tooLarge) 0).1 =
        .error (.invalidNumber "18446744073709551616" tooLarge)) ∧
    .dictionary seven ∈ (NSObject.array [.null, .dictionary seven]).inside ∧
      RefusedNumber wholeNumber ERANGE "7" seven ∧
      (decode wholeNumber (.dictionary seven) ERANGE).1 = .error (.invalidNumber "7" seven) :=
  ⟨decode_error (show (decode wholeNumber (.array [.null, .dictionary tooLarge]) 0).1 =
      .error (.invalidNumber "18446744073709551616" tooLarge) from rfl),
    decode_error (show (decode wholeNumber (.array [.null, .dictionary seven]) ERANGE).1 =
      .error (.invalidNumber "7" seven) from rfl)⟩

end FUNSerializer

end CICJudging
