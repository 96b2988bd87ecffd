import CICJudging.Library.Handler
import CICJudging.App.Decodables

/-! The observers that encode a snapshot as JSON text and decode it again inside
one `do`. The `catch` sees what the decoder throws, and not the exception that
the encoder raises for a value that is neither an array nor an object. -/
namespace CICJudging

open Json Handler

/-- What the observers assign, one statement after the other. -/
abbrev SnapshotHandler (State : Type) := Handler State DecodingError

/-- `JSONSerialization.data`; the data stands for the value that it encodes. -/
def dataWithJSONObject {State : Type} (value : Value) : SnapshotHandler State Value :=
  if value.isTopLevel then pure value else raise

/-- `AppConfigurations.init`; a missing node has the value `null`. -/
def AppConfigurations.observe (value : Value) : ConfigurationData → Option ConfigurationData :=
  doCatch do
    let data ← dataWithJSONObject value
    let decodedConfigurations ← attempt (decodeConfigurationData data)
    assign fun _ => decodedConfigurations

/-- `shownRows` is the row count that the table took at its last `reloadData`. -/
structure NotificationVC where
  messagesData : List MessageData
  shownRows : Nat
  deriving DecidableEq

/-- The comparison that sorts the messages. `parseISODateString` is the point in
time that a timestamp denotes. -/
def laterFirst (parseISODateString : String → Int) (message1 message2 : MessageData) : Bool :=
  parseISODateString message1.timestamp ≥ parseISODateString message2.timestamp

theorem pairwise_mergeSort_laterFirst (parseISODateString : String → Int)
    (messages : List MessageData) :
    (messages.mergeSort (laterFirst parseISODateString)).Pairwise fun message1 message2 =>
      parseISODateString message2.timestamp ≤ parseISODateString message1.timestamp := by
  have hTrans : ∀ first second third, laterFirst parseISODateString first second = true →
      laterFirst parseISODateString second third = true →
        laterFirst parseISODateString first third = true := by
    simp only [laterFirst, decide_eq_true_eq]
    omega
  have hTotal : ∀ first second, (laterFirst parseISODateString first second ||
      laterFirst parseISODateString second first) = true := by
    simp only [laterFirst, Bool.or_eq_true, decide_eq_true_eq]
    omega
  exact (List.pairwise_mergeSort hTrans hTotal messages).imp of_decide_eq_true

/-- The observer of `messages`. -/
def NotificationVC.fetchMessages (parseISODateString : String → Int) (value : Value) :
    NotificationVC → Option NotificationVC :=
  doCatch do
    let data ← dataWithJSONObject value
    let decodedMessages ← attempt (decodeMessages data)
    assign fun screen => { screen with messagesData := decodedMessages.map Prod.snd }
    assign fun screen => { screen with
      messagesData := screen.messagesData.mergeSort (laterFirst parseISODateString) }
    assign fun screen => { screen with shownRows := screen.messagesData.length }

/-- The single snapshot of `teams` in the list of all teams. -/
def observeAllTeams (value : Value) : ListScreen → Option ListScreen :=
  doCatch do
    let data ← dataWithJSONObject value
    let decodedTeams ← attempt (decodeTeams data)
    assign fun screen => { screen with teams := decodedTeams.map Prod.snd }
    assign fun screen => { screen with filteredTeams := screen.teams }
    assign (reloadData (.filterTeamsVC .allTeams))

/-- The single snapshot of one team, in the team list and in the list of judged teams. -/
def observeTeam (vc : ListVC) (value : Value) : ListScreen → Option ListScreen :=
  doCatch do
    let data ← dataWithJSONObject value
    let decodedTeam ← attempt (decodeTeamData data)
    assign fun screen => { screen with teams := screen.teams ++ [decodedTeam] }
    assign fun screen => { screen with filteredTeams := screen.filteredTeams ++ [decodedTeam] }
    assign (reloadData vc)

theorem doCatch_dataWithJSONObject {State : Type} (value : Value)
    (next : Value → SnapshotHandler State Unit) (state : State) :
    doCatch (dataWithJSONObject value >>= next) state =
      if value.isTopLevel then doCatch (next value) state else none := by
  unfold dataWithJSONObject
  split_ifs
  · exact doCatch_pure_bind ..
  · exact doCatch_raise_bind ..

/-- The three ways in which an observer of this shape can end: an exception, a
caught error before the first assignment, or all the assignments. -/
theorem doCatch_decode_cases {State Data : Type} (value : Value) (decode : Decoder Data)
    {update : Data → SnapshotHandler State Unit} {assigned : Data → State → State}
    (hAssign : ∀ decoded state, doCatch (update decoded) state = some (assigned decoded state))
    {handled : Option State} (state : State)
    (hHandled : handled = doCatch (do
      let data ← dataWithJSONObject value
      let decoded ← attempt (decode data)
      update decoded) state) :
    (value.isTopLevel = false ∧ handled = none) ∨
    (value.isTopLevel = true ∧ (∃ error, decode value = .error error) ∧ handled = some state) ∨
    (value.isTopLevel = true ∧ ∃ decoded, decode value = .ok decoded ∧
      handled = some (assigned decoded state)) := by
  subst hHandled
  rw [doCatch_dataWithJSONObject]
  cases value.isTopLevel with
  | false => exact Or.inl ⟨rfl, rfl⟩
  | true =>
      rw [if_pos rfl, doCatch_attempt_bind]
      cases decode value with
      | error error => exact Or.inr (Or.inl ⟨rfl, ⟨error, rfl⟩, rfl⟩)
      | ok decoded => exact Or.inr (Or.inr ⟨rfl, decoded, rfl, hAssign decoded state⟩)

/-- The list screens that fetch team by team share one kind of observer. -/
inductive Observer where
  | configuration
  | messages (parseISODateString : String → Int)
  | allTeams
  | team (vc : ListVC)

namespace Observer

def State : Observer → Type
  | configuration => ConfigurationData
  | messages _ => NotificationVC
  | allTeams => ListScreen
  | team _ => ListScreen

def Decoded : Observer → Type
  | configuration => ConfigurationData
  | messages _ => List (String × MessageData)
  | allTeams => List (Int × TeamData)
  | team _ => TeamData

def decode : (observer : Observer) → Decoder observer.Decoded
  | configuration => decodeConfigurationData
  | messages _ => decodeMessages
  | allTeams => decodeTeams
  | team _ => decodeTeamData

def handle : (observer : Observer) → Value → observer.State → Option observer.State
  | configuration => AppConfigurations.observe
  | messages parseISODateString => NotificationVC.fetchMessages parseISODateString
  | allTeams => observeAllTeams
  | team vc => observeTeam vc

/-- Everything that shows the decoded value is taken from the whole of it. Keys that read
as one `Int`, such as "1" and "01", are one team by then: the decoder has joined them. -/
def UpdatedFrom : (observer : Observer) → observer.Decoded → observer.State → observer.State → Prop
  | configuration, decoded, _, after => after = decoded
  | messages parseISODateString, decoded, _, after =>
      after.messagesData.Perm (decoded.map Prod.snd) ∧
        after.messagesData.Pairwise (fun message1 message2 =>
          parseISODateString message2.timestamp ≤ parseISODateString message1.timestamp) ∧
        after.shownRows = decoded.length
  | allTeams, (decoded : List (Int × TeamData)), _, (after : ListScreen) =>
      after.teams = decoded.map Prod.snd ∧ after.filteredTeams = decoded.map Prod.snd ∧
        after.shownRows = decoded.length
  | team vc, (decoded : TeamData), (before : ListScreen), (after : ListScreen) =>
      after.teams = before.teams ++ [decoded] ∧
        after.filteredTeams = before.filteredTeams ++ [decoded] ∧
        after.shownRows = numberOfRowsInSection vc after.filteredTeams

/-- The handler runs to completion, with the state updated from the whole value
or as it was. -/
def WholeOrNothing (observer : Observer) (value : Value) (state : observer.State) : Prop :=
  ∃ after, observer.handle value state = some after ∧
    ((∃ decoded, observer.decode value = .ok decoded ∧ observer.UpdatedFrom decoded state after) ∨
      after = state)

/-- What the assignments of each observer come to. -/
def assigned : (observer : Observer) → observer.Decoded → observer.State → observer.State
  | configuration, decoded, _ => decoded
  | messages parseISODateString, (decoded : List (String × MessageData)), _ =>
      let messagesData := (decoded.map Prod.snd).mergeSort (laterFirst parseISODateString)
      NotificationVC.mk messagesData messagesData.length
  | allTeams, (decoded : List (Int × TeamData)), (screen : ListScreen) =>
      let teams := decoded.map Prod.snd
      ListScreen.mk teams teams screen.searchText teams.length screen.outstanding
  | team vc, (decoded : TeamData), (screen : ListScreen) =>
      let filteredTeams := screen.filteredTeams ++ [decoded]
      ListScreen.mk (screen.teams ++ [decoded]) filteredTeams screen.searchText
        (numberOfRowsInSection vc filteredTeams) screen.outstanding

theorem handle_cases (observer : Observer) (value : Value) (state : observer.State) :
    (value.isTopLevel = false ∧ observer.handle value state = none) ∨
    (value.isTopLevel = true ∧ (∃ error, observer.decode value = .error error) ∧
      observer.handle value state = some state) ∨
    (value.isTopLevel = true ∧ ∃ decoded, observer.decode value = .ok decoded ∧
      observer.handle value state = some (observer.assigned decoded state)) := by
  cases observer with
  | configuration =>
      exact doCatch_decode_cases value decodeConfigurationData (fun _ _ => rfl) state rfl
  | messages parseISODateString =>
      exact doCatch_decode_cases value decodeMessages (fun _ _ => rfl) state rfl
  | allTeams => exact doCatch_decode_cases value decodeTeams (fun _ _ => rfl) state rfl
  | team vc => exact doCatch_decode_cases value decodeTeamData (fun _ _ => rfl) state rfl

theorem updatedFrom_assigned (observer : Observer) (decoded : observer.Decoded)
    (state : observer.State) :
    observer.UpdatedFrom decoded state (observer.assigned decoded state) := by
  cases observer with
  | configuration => rfl
  | messages parseISODateString =>
      have hSorted := pairwise_mergeSort_laterFirst parseISODateString (List.map Prod.snd decoded)
      refine ⟨List.mergeSort_perm _ _, hSorted, ?_⟩
      exact (List.length_mergeSort _).trans (List.length_map _)
  | allTeams => exact ⟨rfl, rfl, List.length_map _⟩
  | team vc => exact ⟨rfl, rfl, rfl⟩

/-- Every observer takes over the whole value or leaves its state alone exactly
if the value is an array or an object. -/
theorem wholeOrNothing_iff (observer : Observer) (value : Value) (state : observer.State) :
    observer.WholeOrNothing value state ↔ value.isTopLevel = true := by
  rcases observer.handle_cases value state with ⟨hScalar, hRaised⟩ | ⟨hTop, _, hHandled⟩ |
    ⟨hTop, decoded, hDecoded, hHandled⟩
  · refine iff_of_false ?_ (by simp [hScalar])
    rintro ⟨after, hHandled, _⟩
    exact Option.some_ne_none _ (hHandled.symm.trans hRaised)
  · exact iff_of_true ⟨state, hHandled, Or.inr rfl⟩ hTop
  · exact iff_of_true
      ⟨_, hHandled, Or.inl ⟨decoded, hDecoded, observer.updatedFrom_assigned decoded state⟩⟩ hTop

/-- At the first launch of a contest without settings the app ends. -/
theorem absent_configuration_raises :
    ¬configuration.WholeOrNothing .null (ConfigurationData.mk 1 1) := by
  rintro ⟨after, hHandled, _⟩
  cases hHandled

end Observer

/-- The completion of a fetch is the observer of the team, once the fetch is no
longer outstanding. -/
theorem observeTeam_eq_fetchedTeam (vc : ListVC) (screen : ListScreen) (teamId : Int) {value : Value}
    (hTop : value.isTopLevel = true) :
    observeTeam vc value { screen with outstanding := screen.outstanding.erase teamId } =
      some (fetchedTeam vc screen teamId (decodeTeamData value).toOption) := by
  rcases Observer.handle_cases (.team vc) value
      { screen with outstanding := screen.outstanding.erase teamId } with
    ⟨hScalar, _⟩ | ⟨_, ⟨error, hError⟩, hHandled⟩ | ⟨_, decoded, hDecoded, hHandled⟩
  · cases hScalar.symm.trans hTop
  · have hDecode : decodeTeamData value = .error error := hError
    rw [hDecode]
    exact hHandled
  · have hDecode : decodeTeamData value = .ok decoded := hDecoded
    rw [hDecode]
    exact hHandled

theorem observeAllTeams_eq_fetchedAllTeams (screen : ListScreen) {value : Value}
    (hTop : value.isTopLevel = true) :
    observeAllTeams value screen = some (fetchedAllTeams (.filterTeamsVC .allTeams) screen
      ((decodeTeams value).toOption.map fun decodedTeams => decodedTeams.map Prod.snd)) := by
  rcases Observer.handle_cases .allTeams value screen with
    ⟨hScalar, _⟩ | ⟨_, ⟨error, hError⟩, hHandled⟩ | ⟨_, decoded, hDecoded, hHandled⟩
  · cases hScalar.symm.trans hTop
  · have hDecode : decodeTeams value = .error error := hError
    rw [hDecode]
    exact hHandled
  · have hDecode : decodeTeams value = .ok decoded := hDecoded
    rw [hDecode]
    exact hHandled

end CICJudging
