import CICJudging.Library.Transition
import CICJudging.Database.Root

/-! The scoring screen. Taps and notes write one key of a dictionary, a snapshot
of the stored record writes all five, and a submission sends the dictionary. -/
namespace CICJudging

open Transition

inductive ScoringCriterion where
  | usability
  | innovation
  | viability
  | presentation
  | notes
  deriving DecidableEq

/-- The key of the dictionary and of the stored record. -/
def ScoringCriterion.rawValue : ScoringCriterion → String
  | usability => "usability"
  | innovation => "innovation"
  | viability => "viability"
  | presentation => "presentation"
  | notes => "notes"

theorem ScoringCriterion.rawValue_injective : Function.Injective rawValue := by
  intro first second h
  cases first <;> cases second <;> first | rfl | exact absurd h (by decide)

/-- The criteria that have a cell with score buttons. -/
def scoringCriterionList : List ScoringCriterion :=
  [.usability, .innovation, .viability, .presentation]

/-- The values of the untyped dictionary that the screen puts there. -/
inductive ScoreValue where
  | int (score : Int)
  | string (note : String)
  deriving DecidableEq

def ScoreValue.asInt : ScoreValue → Option Int
  | int score => some score
  | string _ => none

abbrev ScoreDictionary := String → Option ScoreValue

def ScoreDictionary.set (scores : ScoreDictionary) (key : String) (value : ScoreValue) :
    ScoreDictionary := Function.update scores key (some value)

/-- The five assignments that a decoded record makes, and the initial ones. -/
def ScoreDictionary.setAll (scores : ScoreDictionary) (value : ScoringCriterion → ScoreValue) :
    ScoreDictionary :=
  [.usability, .innovation, .presentation, .viability, .notes].foldl
    (fun scores criterion => ScoreDictionary.set scores criterion.rawValue (value criterion)) scores

def ScoresData.value (data : ScoresData) : ScoringCriterion → ScoreValue
  | .usability => .int data.usability
  | .innovation => .int data.innovation
  | .viability => .int data.viability
  | .presentation => .int data.presentation
  | .notes => .string data.notes

/-- What the screen keeps: the dictionary and the total in its header. -/
structure ScoringVC where
  scores : ScoreDictionary
  defaultTotalScore : Int
  totalScoreLbl : String

def defaultValue : ScoringCriterion → ScoreValue
  | .notes => .string ""
  | _ => .int 1

def ScoringVC.initial : ScoringVC where
  scores := ScoreDictionary.setAll (fun _ => none) defaultValue
  defaultTotalScore := 4
  totalScoreLbl := toString (4 : Int)

/-- Forced casts: a missing or wrongly typed value ends the app. So does a sum past 64
bits, which only absurd stored scores have; it is not modelled. -/
def calculateTotalScore (scores : ScoreDictionary) : Option Int := do
  let innovation ← (scores "innovation").bind ScoreValue.asInt
  let usability ← (scores "usability").bind ScoreValue.asInt
  let presentation ← (scores "presentation").bind ScoreValue.asInt
  let viability ← (scores "viability").bind ScoreValue.asInt
  return innovation + usability + presentation + viability

/-- The handler of the notification that the cells post. -/
def manageScoreUpdate (screen : ScoringVC) (scoreCriterion : String) :
    ScoreValue → Option ScoringVC
  | .int newScore => do
      let scores := screen.scores.set scoreCriterion (.int newScore)
      let newTotalScore ← calculateTotalScore scores
      return { screen with scores, totalScoreLbl := toString newTotalScore }
  | .string newNote =>
      some { screen with scores := screen.scores.set scoreCriterion (.string newNote) }

/-- The observer of the stored record, once it has decoded. -/
def fetchPreviousScores (screen : ScoringVC) (decodedScores : ScoresData) : Option ScoringVC := do
  let scores := screen.scores.setAll decodedScores.value
  let defaultTotalScore ← calculateTotalScore scores
  return { scores, defaultTotalScore, totalScoreLbl := toString defaultTotalScore }

/-- The test that a score button makes before it takes a score. -/
def disallowEdits (configuration : ConfigurationData) (isTeamScored : Bool) : Bool :=
  isTeamScored && decide (configuration.allowEdits = 0) ||
    decide (configuration.allowSubmissions = 0)

/-- The `userInfo` of the notification that a tap on a score button posts. -/
def broadcastScore (configuration : ConfigurationData) (isTeamScored : Bool)
    (scoringCriterion : ScoringCriterion) (newScore : Int) : Option (String × ScoreValue) :=
  if !disallowEdits configuration isTeamScored then
    some (scoringCriterion.rawValue, .int newScore)
  else none

/-- The `userInfo` that every change of the notes posts. -/
def textViewDidChange (text : String) : String × ScoreValue :=
  (ScoringCriterion.notes.rawValue, .string text)

/-- A tap comes with what the two singletons show at that moment. -/
inductive ScreenEvent where
  | tap (criterion : ScoringCriterion) (score : Int) (configuration : ConfigurationData)
      (isTeamScored : Bool)
  | note (text : String)
  | snapshot
  deriving DecidableEq

/-- Only the four cells have buttons, and these are 1 to 5. -/
def ScreenEvent.Enabled : ScreenEvent → Prop
  | tap criterion score _ _ => criterion ∈ scoringCriterionList ∧ 1 ≤ score ∧ score ≤ 5
  | _ => True

instance (event : ScreenEvent) : Decidable event.Enabled := by
  cases event <;> unfold ScreenEvent.Enabled <;> infer_instance

/-- A snapshot of a record that does not exist is ignored. -/
def nextScreen (stored : Option ScoresData) (screen : ScoringVC) : ScreenEvent → Option ScoringVC
  | .tap criterion score configuration isTeamScored =>
      match broadcastScore configuration isTeamScored criterion score with
      | some (scoreCriterion, newScore) => manageScoreUpdate screen scoreCriterion newScore
      | none => some screen
  | .note text => manageScoreUpdate screen (textViewDidChange text).1 (textViewDidChange text).2
  | .snapshot =>
      match stored with
      | none => some screen
      | some decodedScores => fetchPreviousScores screen decodedScores

/-- The dictionary holds an integer for each criterion. -/
def ScoreDictionary.Typed (scores : ScoreDictionary) : Prop :=
  ∀ criterion ∈ scoringCriterionList, ∃ score, scores criterion.rawValue = some (.int score)

theorem ScoreDictionary.set_rawValue (scores : ScoreDictionary) (key criterion : ScoringCriterion)
    (value : ScoreValue) :
    scores.set key.rawValue value criterion.rawValue =
      if criterion = key then some value else scores criterion.rawValue := by
  simp [set, Function.update_apply, ScoringCriterion.rawValue_injective.eq_iff]

theorem ScoreDictionary.Typed.set_int {scores : ScoreDictionary} (h : scores.Typed)
    (key : ScoringCriterion) (score : Int) : (scores.set key.rawValue (.int score)).Typed := by
  intro criterion hMem
  rw [set_rawValue]
  split_ifs
  · exact ⟨score, rfl⟩
  · exact h criterion hMem

theorem ScoreDictionary.Typed.set_notes {scores : ScoreDictionary} (h : scores.Typed)
    (value : ScoreValue) : (scores.set ScoringCriterion.notes.rawValue value).Typed := by
  intro criterion hMem
  rw [set_rawValue, if_neg (by rintro rfl; exact absurd hMem (by decide))]
  exact h criterion hMem

theorem ScoreDictionary.setAll_rawValue (scores : ScoreDictionary)
    (value : ScoringCriterion → ScoreValue) (criterion : ScoringCriterion) :
    scores.setAll value criterion.rawValue = some (value criterion) := by
  simp only [setAll, List.foldl_cons, List.foldl_nil, set_rawValue]
  cases criterion <;> rfl

theorem ScoreDictionary.typed_setAll (scores : ScoreDictionary) (data : ScoresData) :
    (scores.setAll data.value).Typed := by
  intro criterion hMem
  rw [setAll_rawValue]
  cases criterion with
  | notes => exact absurd hMem (by decide)
  | _ => exact ⟨_, rfl⟩

theorem ScoringVC.initial_typed : ScoringVC.initial.scores.Typed :=
  ScoreDictionary.typed_setAll _ ⟨1, 1, 1, 1, ""⟩

/-- The sum of the four scores, whatever else the dictionary holds. -/
def ScoreDictionary.total (scores : ScoreDictionary) : Int :=
  (scoringCriterionList.map fun criterion =>
    ((scores criterion.rawValue).bind ScoreValue.asInt).getD 0).sum

/-- The forced casts succeed, and the sum is that of the four scores. -/
theorem calculateTotalScore_of_typed {scores : ScoreDictionary} (h : scores.Typed) :
    calculateTotalScore scores = some scores.total := by
  obtain ⟨usability, hUsability⟩ := h .usability (by decide)
  obtain ⟨innovation, hInnovation⟩ := h .innovation (by decide)
  obtain ⟨viability, hViability⟩ := h .viability (by decide)
  obtain ⟨presentation, hPresentation⟩ := h .presentation (by decide)
  have hTotal : scores.total = innovation + usability + presentation + viability := by
    simp only [ScoreDictionary.total, scoringCriterionList, List.map_cons, List.map_nil,
      List.sum_cons, List.sum_nil, hUsability, hInnovation, hViability, hPresentation,
      Option.bind_some, ScoreValue.asInt, Option.getD_some]
    omega
  simp only [ScoringCriterion.rawValue] at hUsability hInnovation hViability hPresentation
  rw [hTotal]
  simp [calculateTotalScore, hUsability, hInnovation, hViability, hPresentation, ScoreValue.asInt]

theorem manageScoreUpdate_scores {screen after : ScoringVC} {key : String} {value : ScoreValue}
    (h : manageScoreUpdate screen key value = some after) :
    after.scores = screen.scores.set key value := by
  cases value with
  | int score =>
      obtain ⟨total, _, hAfter⟩ := Option.bind_eq_some_iff.mp h
      cases hAfter
      rfl
  | string note =>
      cases h
      rfl

theorem fetchPreviousScores_of_typed {screen : ScoringVC} {data : ScoresData}
    (h : (screen.scores.setAll data.value).Typed) :
    fetchPreviousScores screen data =
      some ⟨screen.scores.setAll data.value, (screen.scores.setAll data.value).total,
        toString (screen.scores.setAll data.value).total⟩ := by
  simp only [fetchPreviousScores, calculateTotalScore_of_typed h]
  rfl

theorem fetchPreviousScores_scores {screen after : ScoringVC} {data : ScoresData}
    (h : fetchPreviousScores screen data = some after) :
    after.scores = screen.scores.setAll data.value := by
  unfold fetchPreviousScores at h
  obtain ⟨total, _, hAfter⟩ := Option.bind_eq_some_iff.mp h
  cases hAfter
  rfl

/-- No event that the cells can send ends the app. -/
theorem nextScreen_typed (stored : Option ScoresData) {screen : ScoringVC} {event : ScreenEvent}
    (h : screen.scores.Typed) (hEnabled : event.Enabled) :
    ∃ after, nextScreen stored screen event = some after ∧ after.scores.Typed := by
  cases event with
  | tap criterion score configuration isTeamScored =>
      simp only [nextScreen, broadcastScore]
      cases disallowEdits configuration isTeamScored with
      | true => exact ⟨screen, rfl, h⟩
      | false =>
          have hTyped := h.set_int criterion score
          have hTotal := calculateTotalScore_of_typed hTyped
          exact ⟨_, Option.bind_eq_some_iff.mpr ⟨_, hTotal, rfl⟩, hTyped⟩
  | note text => exact ⟨_, rfl, h.set_notes _⟩
  | snapshot =>
      cases stored with
      | none => exact ⟨screen, rfl, h⟩
      | some data =>
          have hTyped := screen.scores.typed_setAll data
          exact ⟨_, fetchPreviousScores_of_typed hTyped, hTyped⟩

/-- What the judge enters for a criterion, or for the notes, in this event. A
button that takes no scores at that moment does not even show the tap. -/
def entered (criterion : ScoringCriterion) : ScreenEvent → Option ScoreValue
  | .tap tapped score configuration isTeamScored =>
      if !disallowEdits configuration isTeamScored && decide (criterion = tapped) then
        some (.int score)
      else none
  | .note text => if criterion = .notes then some (.string text) else none
  | .snapshot => none

/-- What the event writes under a key, whoever chose the value. -/
def written (stored : Option ScoresData) (criterion : ScoringCriterion) :
    ScreenEvent → Option ScoreValue
  | .snapshot => stored.map fun data => data.value criterion
  | event => entered criterion event

theorem nextScreen_value {stored : Option ScoresData} {screen after : ScoringVC}
    {event : ScreenEvent} (h : nextScreen stored screen event = some after)
    (criterion : ScoringCriterion) :
    after.scores criterion.rawValue =
      ((written stored criterion event).map some).getD (screen.scores criterion.rawValue) := by
  cases event with
  | tap tapped score configuration isTeamScored =>
      simp only [nextScreen, broadcastScore] at h
      cases hClosed : disallowEdits configuration isTeamScored with
      | true =>
          rw [hClosed] at h
          cases h
          simp [written, entered, hClosed]
      | false =>
          rw [hClosed] at h
          have hUpdate : manageScoreUpdate screen tapped.rawValue (.int score) = some after := h
          rw [manageScoreUpdate_scores hUpdate, ScoreDictionary.set_rawValue]
          by_cases hTapped : criterion = tapped <;> simp [written, entered, hClosed, hTapped]
  | note text =>
      have hUpdate : manageScoreUpdate screen ScoringCriterion.notes.rawValue (.string text) =
        some after := h
      rw [manageScoreUpdate_scores hUpdate, ScoreDictionary.set_rawValue]
      simp only [written, entered]
      split_ifs <;> rfl
  | snapshot =>
      cases stored with
      | none =>
          cases h
          rfl
      | some data =>
          rw [fetchPreviousScores_scores h, ScoreDictionary.setAll_rawValue]
          rfl

/-- The last event that wrote a key decides its value. -/
theorem run_value {stored : Option ScoresData} {final : ScoringVC} {events : List ScreenEvent}
    (hRun : run (nextScreen stored) .initial events = some final) (criterion : ScoringCriterion) :
    final.scores criterion.rawValue =
      some (((events.filterMap (written stored criterion)).getLast?).getD
        (defaultValue criterion)) := by
  have hLast := run_last_write (nextScreen stored)
    (fun screen => screen.scores criterion.rawValue)
    (fun _ _ _ hNext => nextScreen_value hNext criterion) hRun
  have hInitial : ScoringVC.initial.scores criterion.rawValue = some (defaultValue criterion) :=
    ScoreDictionary.setAll_rawValue _ _ criterion
  rw [hLast, hInitial, ← List.map_filterMap, List.getLast?_map]
  cases (events.filterMap (written stored criterion)).getLast? <;> rfl

/-- The judge's last entry for the criterion in this screen. -/
def lastEntered (criterion : ScoringCriterion) (events : List ScreenEvent) : Option ScoreValue :=
  (events.filterMap (entered criterion)).getLast?

/-- What the record should hold: the last entry, else the stored value, else the
default. -/
def chosen (stored : Option ScoresData) (events : List ScreenEvent)
    (criterion : ScoringCriterion) : ScoreValue :=
  (lastEntered criterion events).getD
    ((stored.map fun data => data.value criterion).getD (defaultValue criterion))

/-- The events since the judge's last entry for the criterion, or since the screen
opened, latest first. -/
def sinceEntered (criterion : ScoringCriterion) (events : List ScreenEvent) : List ScreenEvent :=
  events.reverse.takeWhile fun event => (entered criterion event).isNone

/-- For this criterion the snapshots of the record came when they did no harm:
none after an entry of another value, and at least one if there is no entry and
the record has not the default. -/
def SnapshotInTime (data : ScoresData) (events : List ScreenEvent)
    (criterion : ScoringCriterion) : Prop :=
  match lastEntered criterion events with
  | some value => .snapshot ∈ sinceEntered criterion events → data.value criterion = value
  | none => .snapshot ∉ sinceEntered criterion events →
      data.value criterion = defaultValue criterion

private theorem getLast?_filterMap_snoc {α β : Type} (f : α → Option β) (l : List α) (a : α) :
    ((l ++ [a]).filterMap f).getLast? = (f a).or (l.filterMap f).getLast? := by
  cases h : f a <;> simp [h]

theorem sinceEntered_snoc (criterion : ScoringCriterion) (events : List ScreenEvent)
    (event : ScreenEvent) :
    sinceEntered criterion (events ++ [event]) =
      if (entered criterion event).isNone then event :: sinceEntered criterion events else [] := by
  simp [sinceEntered, List.takeWhile_cons]

/-- A stored record wins over the entries made before its last snapshot. -/
theorem lastWritten_eq (data : ScoresData) (criterion : ScoringCriterion)
    (events : List ScreenEvent) :
    (events.filterMap (written (some data) criterion)).getLast? =
      if .snapshot ∈ sinceEntered criterion events then some (data.value criterion)
      else lastEntered criterion events := by
  induction events using List.reverseRecOn with
  | nil => rfl
  | append_singleton events event ih =>
      rw [getLast?_filterMap_snoc, lastEntered, getLast?_filterMap_snoc, ih, sinceEntered_snoc]
      cases event with
      | snapshot => simp [written, entered]
      | tap tapped score configuration isTeamScored =>
          by_cases hTaken : !disallowEdits configuration isTeamScored && decide (criterion = tapped)
          · simp [written, entered, hTaken, lastEntered]
          · simp [written, entered, hTaken, lastEntered]
      | note text =>
          by_cases hNotes : criterion = .notes <;> simp [written, entered, hNotes, lastEntered]

theorem lastWritten_of_absent (criterion : ScoringCriterion) (events : List ScreenEvent) :
    (events.filterMap (written none criterion)).getLast? = lastEntered criterion events := by
  have hSame : written none criterion = entered criterion := by
    funext event
    cases event <;> rfl
  rw [hSame, lastEntered]

theorem submitted_value_iff (data : ScoresData) (events : List ScreenEvent)
    (criterion : ScoringCriterion) :
    ((events.filterMap (written (some data) criterion)).getLast?).getD (defaultValue criterion) =
      chosen (some data) events criterion ↔ SnapshotInTime data events criterion := by
  rw [lastWritten_eq, chosen, SnapshotInTime]
  by_cases hSnapshot : .snapshot ∈ sinceEntered criterion events
  · cases lastEntered criterion events <;> simp [hSnapshot]
  · cases lastEntered criterion events <;> simp [hSnapshot, eq_comm]

/-- No forced cast of the screen fails, and the dictionary that a submission writes holds the
judge's choices exactly if no record is stored or the snapshots of the stored
one came in time for every key. -/
theorem submitted_scores_iff (stored : Option ScoresData) {events : List ScreenEvent}
    (hEnabled : ∀ event ∈ events, event.Enabled) :
    ∃ final, run (nextScreen stored) .initial events = some final ∧
      ((∀ criterion, final.scores criterion.rawValue = some (chosen stored events criterion)) ↔
        ∀ data ∈ stored, ∀ criterion, SnapshotInTime data events criterion) := by
  obtain ⟨final, hRun, _⟩ := exists_run (nextScreen stored)
    (fun _ _ hTyped hEvent => nextScreen_typed stored hTyped hEvent) ScoringVC.initial_typed hEnabled
  refine ⟨final, hRun, ?_⟩
  simp only [run_value hRun, Option.some.injEq]
  cases stored with
  | none =>
      refine iff_of_true (fun criterion => ?_) (by simp)
      rw [lastWritten_of_absent]
      rfl
  | some data => simp only [submitted_value_iff, Option.mem_def, Option.some.injEq, forall_eq']

/-- A judge who edits a stored record taps 5 before the record is there: its
arrival puts the old score back. -/
theorem tapped_score_overwritten :
    ∃ final, run (nextScreen (some ⟨2, 2, 2, 2, "ok"⟩)) .initial [.tap .usability 5 ⟨1, 1⟩ true, .snapshot] =
        some final ∧
      ¬∀ criterion, final.scores criterion.rawValue =
        some (chosen (some ⟨2, 2, 2, 2, "ok"⟩) [.tap .usability 5 ⟨1, 1⟩ true, .snapshot] criterion) := by
  refine ⟨_, rfl, fun hChosen => ?_⟩
  exact absurd (hChosen .usability) (by decide)

/-- The same two events in the other order. -/
theorem tapped_score_submitted :
    ∃ final, run (nextScreen (some ⟨2, 2, 2, 2, "ok"⟩)) .initial [.snapshot, .tap .usability 5 ⟨1, 1⟩ true] =
        some final ∧
      ∀ criterion, final.scores criterion.rawValue =
        some (chosen (some ⟨2, 2, 2, 2, "ok"⟩) [.snapshot, .tap .usability 5 ⟨1, 1⟩ true] criterion) := by
  have hEnabled : ∀ event ∈ [.snapshot, .tap .usability 5 ⟨1, 1⟩ true], ScreenEvent.Enabled event := by decide
  obtain ⟨final, hRun, hIff⟩ := submitted_scores_iff (some ⟨2, 2, 2, 2, "ok"⟩) hEnabled
  refine ⟨final, hRun, hIff.mpr ?_⟩
  rintro data ⟨⟩ criterion
  cases criterion with
  | usability => exact fun hSnapshot => absurd hSnapshot (by decide)
  | _ => exact fun hMissing => absurd (by decide) hMissing

end CICJudging
