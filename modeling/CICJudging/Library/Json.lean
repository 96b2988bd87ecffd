import Mathlib.Algebra.Ring.Int.Defs
import Mathlib.Data.Rat.Defs
import Mathlib.Data.List.Basic
import Mathlib.Tactic.Common

/-! JSON values and decoders. A decoder takes a whole value or throws; records
need all their keys and ignore others. -/
namespace Json

inductive Value where
  | null
  | bool (value : Bool)
  | number (value : ℚ)
  | string (value : String)
  | array (elements : List Value)
  | object (fields : List (String × Value))

/-- Only arrays and objects can be written as the top of a JSON text. -/
def Value.isTopLevel : Value → Bool
  | array _ => true
  | object _ => true
  | _ => false

inductive DecodingError where
  | keyNotFound (key : String)
  | typeMismatch
  | dataCorrupted
  deriving DecidableEq

abbrev Decoder (α : Type) := Value → Except DecodingError α

def FitsInt64 (value : Int) : Prop := -2 ^ 63 ≤ value ∧ value < 2 ^ 63

instance (value : Int) : Decidable (FitsInt64 value) := by
  unfold FitsInt64
  infer_instance

/-- A number with a fraction or beyond 64 bits does not fit. -/
def int : Decoder Int
  | .number value =>
      if value.den = 1 ∧ FitsInt64 value.num then .ok value.num else .error .dataCorrupted
  | _ => .error .typeMismatch

def string : Decoder String
  | .string value => .ok value
  | _ => .error .typeMismatch

def array {α : Type} (element : Decoder α) : Decoder (List α)
  | .array elements => elements.mapM element
  | _ => .error .typeMismatch

/-- A key of a record. -/
def field {α : Type} (key : String) (decode : Decoder α) : Decoder α
  | .object fields =>
      match fields.lookup key with
      | some value => decode value
      | none => .error (.keyNotFound key)
  | _ => .error .typeMismatch

/-- Among distinct keys the field that is there is the one that is found. -/
theorem field_of_mem {α : Type} {decode : Decoder α} {fields : List (String × Value)} {key : String}
    {value : Value} (hNodup : (fields.map Prod.fst).Nodup) (hMem : (key, value) ∈ fields) :
    field key decode (.object fields) = decode value := by
  have hLookup : fields.lookup key = some value := by
    obtain ⟨front, back, rfl⟩ := List.append_of_mem hMem
    refine List.lookup_eq_some_iff.mpr ⟨front, back, rfl, fun other hOther => ?_⟩
    rw [List.map_append, List.map_cons, List.nodup_append] at hNodup
    have hNe := hNodup.2.2 other.1 (List.mem_map_of_mem hOther) key (List.mem_cons_self ..)
    simpa using hNe.symm
  simp only [field, hLookup]

section Dictionary

variable {Key α : Type} [DecidableEq Key]

/-- A key that is there already gets the new value. -/
def insertEntry (entries : List (Key × α)) (entry : Key × α) : List (Key × α) :=
  entries.filter (fun other => other.1 ≠ entry.1) ++ [entry]

section Fields

variable (decodeKey : String → Option Key) (decode : Decoder α)

/-- A key that does not decode throws, and so does its value. -/
def addField (entries : List (Key × α)) (field : String × Value) :
    Except DecodingError (List (Key × α)) :=
  match decodeKey field.1 with
  | none => .error .typeMismatch
  | some key => (decode field.2).map fun value => insertEntry entries (key, value)

/-- An object as a dictionary. -/
def dictionary : Decoder (List (Key × α))
  | .object fields => fields.foldlM (addField decodeKey decode) []
  | _ => .error .typeMismatch

end Fields

theorem insertEntry_of_notMem {entries : List (Key × α)} {entry : Key × α}
    (h : entry.1 ∉ entries.map Prod.fst) : insertEntry entries entry = entries ++ [entry] := by
  rw [insertEntry, List.filter_eq_self.mpr]
  intro other hMem
  refine decide_eq_true fun hSame => h ?_
  exact hSame ▸ List.mem_map_of_mem hMem

variable {decodeKey : String → Option Key} {decode : Decoder α}

/-- The field is a key and a value that decode as the entry. -/
def DecodesAs (decodeKey : String → Option Key) (decode : Decoder α) (field : String × Value)
    (entry : Key × α) : Prop :=
  decodeKey field.1 = some entry.1 ∧ decode field.2 = .ok entry.2

theorem addField_of_decodesAs {entries : List (Key × α)} {field : String × Value}
    {entry : Key × α} (h : DecodesAs decodeKey decode field entry)
    (hNew : entry.1 ∉ entries.map Prod.fst) :
    addField decodeKey decode entries field = .ok (entries ++ [entry]) := by
  rw [addField, h.1, h.2, ← insertEntry_of_notMem hNew]
  rfl

theorem foldlM_addField (earlier : List (Key × α)) {entries : List (Key × α)}
    {fields : List (String × Value)}
    (hNodup : ((earlier ++ entries).map Prod.fst).Nodup)
    (hDecode : List.Forall₂ (DecodesAs decodeKey decode) fields entries) :
    fields.foldlM (addField decodeKey decode) earlier = .ok (earlier ++ entries) := by
  induction hDecode generalizing earlier with
  | nil => rw [List.append_nil]; rfl
  | @cons field entry fields entries hHead hTail ih =>
      have hNew : entry.1 ∉ earlier.map Prod.fst := by
        rw [List.map_append, List.map_cons, List.nodup_append] at hNodup
        exact fun hMem => hNodup.2.2 _ hMem _ (List.mem_cons_self ..) rfl
      have hRest := ih (earlier ++ [entry]) (by simpa using hNodup)
      rw [List.append_assoc, List.singleton_append] at hRest
      rw [List.foldlM_cons, addField_of_decodesAs hHead hNew, ← hRest]
      rfl

/-- Fields with distinct keys, all of which decode, decode as the dictionary of
their entries. -/
theorem dictionary_object {fields : List (String × Value)} {entries : List (Key × α)}
    (hNodup : (entries.map Prod.fst).Nodup)
    (hDecode : List.Forall₂ (DecodesAs decodeKey decode) fields entries) :
    dictionary decodeKey decode (.object fields) = .ok entries :=
  foldlM_addField [] hNodup hDecode

/-- One key that does not decode makes the whole object fail. -/
theorem dictionary_object_of_badKey {fields : List (String × Value)} {field : String × Value}
    (hMem : field ∈ fields) (hKey : decodeKey field.1 = none) :
    ∃ error, dictionary decodeKey decode (.object fields) = .error error := by
  have hFold : ∀ earlier, ∃ error,
      fields.foldlM (addField decodeKey decode) earlier = .error error := by
    induction fields with
    | nil => cases hMem
    | cons head fields ih =>
        intro earlier
        rw [List.foldlM_cons]
        cases hAdd : addField decodeKey decode earlier head with
        | error error => exact ⟨error, rfl⟩
        | ok entries =>
            rcases List.mem_cons.mp hMem with rfl | hTail
            · simp [addField, hKey] at hAdd
            · exact ih hTail entries
  exact hFold []

end Dictionary

end Json
