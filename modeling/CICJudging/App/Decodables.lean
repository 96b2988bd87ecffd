import CICJudging.Library.Json
import CICJudging.Library.Text
import CICJudging.App.TeamLists
import CICJudging.Database.Root

/-! The records that the app decodes from snapshots, field by field. -/
namespace CICJudging

open Json Text

/-- The fields of a message. -/
structure MessageData where
  timestamp : String
  message : String
  priority : String
  deriving DecidableEq

/-- All eleven fields must be there, the ones that the lists do not read too. -/
def decodeTeamData : Decoder TeamData := fun value => do
  let _affinityGroup ← field "affinityGroup" string value
  let _descp ← field "descp" string value
  let _logoUrl ← field "logoUrl" string value
  let _posterUrl ← field "posterUrl" string value
  let _projectUrl ← field "projectUrl" string value
  let _resumeUrl ← field "resumeUrl" string value
  let _team ← field "team" (array string) value
  let teamId ← field "teamId" int value
  let teamName ← field "teamName" string value
  let _timestamp ← field "timestamp" string value
  let _videoUrl ← field "videoUrl" string value
  return { teamId, teamName }

def decodeScoresData : Decoder ScoresData := fun value => do
  let innovation ← field "innovation" int value
  let presentation ← field "presentation" int value
  let usability ← field "usability" int value
  let viability ← field "viability" int value
  let notes ← field "notes" string value
  return { innovation, presentation, usability, viability, notes }

def decodeMessageData : Decoder MessageData := fun value => do
  let timestamp ← field "timestamp" string value
  let message ← field "message" string value
  let priority ← field "priority" string value
  return { timestamp, message, priority }

def decodeConfigurationData : Decoder ConfigurationData := fun value => do
  let allowEdits ← field "allowEdits" int value
  let allowSubmissions ← field "allowSubmissions" int value
  return { allowEdits, allowSubmissions }

/-- `Int(_:)` of a text: an optional sign and decimal digits, within 64 bits. -/
def intOfString (text : String) : Option Int :=
  let value : Option Int :=
    match text.toList with
    | '-' :: digits => (decimalValue digits).map fun magnitude : Nat => -(magnitude : Int)
    | '+' :: digits => (decimalValue digits).map fun magnitude : Nat => (magnitude : Int)
    | digits => (decimalValue digits).map fun magnitude : Nat => (magnitude : Int)
  value.filter fun number => FitsInt64 number

/-- `[String: MessageData]` -/
def decodeMessages : Decoder (List (String × MessageData)) := dictionary some decodeMessageData

/-- `[Int: TeamData]` -/
def decodeTeams : Decoder (List (Int × TeamData)) := dictionary intOfString decodeTeamData

theorem teamKey_natCast (n : Nat) : (teamKey n).toList = Nat.toDigits 10 n := Nat.toList_repr

theorem teamKey_negSucc (n : Nat) :
    (teamKey (Int.negSucc n)).toList = '-' :: Nat.toDigits 10 (n + 1) := by
  simp [teamKey, Int.repr, Nat.toList_repr]

theorem toDigits_ne_cons {n : Nat} {c : Char} {rest : List Char} (hDigit : c.isDigit = false) :
    Nat.toDigits 10 n ≠ c :: rest := by
  obtain ⟨first, others, hDigits, hFirst⟩ := toDigits_eq_cons n
  rw [hDigits]
  rintro ⟨⟩
  rw [hDigit] at hFirst
  cases hFirst

theorem fitsInt64_natCast {n : Nat} : FitsInt64 n ↔ n < 2 ^ 63 := by
  unfold FitsInt64
  omega

/-- A number is read back from its text if it has 64 bits. -/
theorem intOfString_teamKey (value : Int) :
    intOfString (teamKey value) = if FitsInt64 value then some value else none := by
  cases value with
  | ofNat n =>
      rw [intOfString, Int.ofNat_eq_natCast, teamKey_natCast]
      split
      · next hMinus => exact absurd hMinus (toDigits_ne_cons rfl)
      · next hPlus => exact absurd hPlus (toDigits_ne_cons rfl)
      · simp [decimalValue_toDigits, Option.filter]
  | negSucc n =>
      have hValue : -((n + 1 : Nat) : Int) = Int.negSucc n := rfl
      simp only [intOfString, teamKey_negSucc, decimalValue_toDigits, Option.map_some, hValue]
      simp [Option.filter]

theorem intOfString_toString {value : Int} (h : FitsInt64 value) :
    intOfString (toString value) = some value :=
  (intOfString_teamKey value).trans (if_pos h)

end CICJudging
