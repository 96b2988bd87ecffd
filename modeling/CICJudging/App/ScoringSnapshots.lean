import CICJudging.App.ScoringScreen
import CICJudging.App.Observers
import CICJudging.Database.Export

/-! The scoring screen against whatever is stored under the judge's scores: any
object or nothing, well formed or not. -/
namespace CICJudging

open Transition Json Handler

/-- The observer of the stored record; `null` is a snapshot that does not exist. -/
def observeScores (value : Value) (screen : ScoringVC) : Option ScoringVC :=
  match value with
  | .null => some screen
  | value => doCatch (do
      let data ← dataWithJSONObject value
      let decodedScores ← attempt (decodeScoresData data)
      trapping fun screen => fetchPreviousScores screen decodedScores) screen

/-- All four scores are ones that a cell can give. -/
def ScoresData.InRange (data : ScoresData) : Prop :=
  ∀ score ∈ [data.usability, data.innovation, data.viability, data.presentation],
    1 ≤ score ∧ score ≤ 5

inductive ScoringEvent where
  | tap (criterion : ScoringCriterion) (score : Int) (configuration : ConfigurationData)
      (isTeamScored : Bool)
  | note (text : String)
  | delivered (value : Value)

/-- Nothing or any object is delivered. Whether it decodes is not assumed, only
that the scores of one that does are scores. -/
def ScoringEvent.Enabled : ScoringEvent → Prop
  | tap criterion score _ _ => criterion ∈ scoringCriterionList ∧ 1 ≤ score ∧ score ≤ 5
  | note _ => True
  | delivered value => (value = .null ∨ ∃ fields, value = .object fields) ∧
      ∀ data, decodeScoresData value = .ok data → data.InRange

def nextScoring (screen : ScoringVC) : ScoringEvent → Option ScoringVC
  | .tap criterion score configuration isTeamScored =>
      nextScreen none screen (.tap criterion score configuration isTeamScored)
  | .note text => nextScreen none screen (.note text)
  | .delivered value => observeScores value screen

/-- A score from 1 to 5 for each criterion with buttons, a text for the notes,
and nothing else. -/
structure ScoreDictionary.WellFormed (scores : ScoreDictionary) : Prop where
  score : ∀ criterion ∈ scoringCriterionList,
    ∃ score, scores criterion.rawValue = some (.int score) ∧ 1 ≤ score ∧ score ≤ 5
  notes : ∃ note, scores ScoringCriterion.notes.rawValue = some (.string note)
  other : ∀ key, (∀ criterion : ScoringCriterion, key ≠ criterion.rawValue) → scores key = none

structure ScoringVC.Consistent (screen : ScoringVC) : Prop where
  scores : screen.scores.WellFormed
  label : screen.totalScoreLbl = toString screen.scores.total

namespace ScoreDictionary

variable {scores : ScoreDictionary}

theorem set_other {key : String} (criterion : ScoringCriterion) (value : ScoreValue)
    (hKey : ∀ criterion : ScoringCriterion, key ≠ criterion.rawValue) :
    scores.set criterion.rawValue value key = scores key :=
  Function.update_of_ne (hKey criterion) _ _

theorem setAll_other (value : ScoringCriterion → ScoreValue) {key : String}
    (hKey : ∀ criterion : ScoringCriterion, key ≠ criterion.rawValue) :
    scores.setAll value key = scores key := by
  simp only [setAll, List.foldl_cons, List.foldl_nil, set_other _ _ hKey]

theorem WellFormed.typed (h : scores.WellFormed) : scores.Typed := by
  intro criterion hMem
  obtain ⟨score, hScore, _⟩ := h.score criterion hMem
  exact ⟨score, hScore⟩

theorem WellFormed.set_int (h : scores.WellFormed) {criterion : ScoringCriterion} {score : Int}
    (hMem : criterion ∈ scoringCriterionList) (hRange : 1 ≤ score ∧ score ≤ 5) :
    (scores.set criterion.rawValue (.int score)).WellFormed := by
  refine ⟨fun other hOther => ?_, ?_, fun key hKey => ?_⟩
  · rw [set_rawValue]
    split_ifs
    · exact ⟨score, rfl, hRange⟩
    · exact h.score other hOther
  · rw [set_rawValue, if_neg (by rintro rfl; exact absurd hMem (by decide))]
    exact h.notes
  · rw [set_other criterion _ hKey]
    exact h.other key hKey

theorem WellFormed.set_notes (h : scores.WellFormed) (note : String) :
    (scores.set ScoringCriterion.notes.rawValue (.string note)).WellFormed := by
  refine ⟨fun other hOther => ?_, ⟨note, ?_⟩, fun key hKey => ?_⟩
  · rw [set_rawValue, if_neg (by rintro rfl; exact absurd hOther (by decide))]
    exact h.score other hOther
  · rw [set_rawValue, if_pos rfl]
  · rw [set_other .notes _ hKey]
    exact h.other key hKey

/-- A decoded record writes all five keys, whatever was under them. -/
theorem wellFormed_setAll (hOther : ∀ key,
      (∀ criterion : ScoringCriterion, key ≠ criterion.rawValue) → scores key = none)
    {data : ScoresData} (hRange : data.InRange) : (scores.setAll data.value).WellFormed := by
  refine ⟨fun criterion hMem => ?_, ⟨data.notes, ?_⟩, fun key hKey => ?_⟩
  · rw [setAll_rawValue]
    cases criterion with
    | notes => exact absurd hMem (by decide)
    | _ => exact ⟨_, rfl, hRange _ (by simp)⟩
  · rw [setAll_rawValue]
    rfl
  · rw [setAll_other _ hKey]
    exact hOther key hKey

end ScoreDictionary

theorem ScoreDictionary.total_set_notes (scores : ScoreDictionary) (value : ScoreValue) :
    (scores.set ScoringCriterion.notes.rawValue value).total = scores.total := by
  have hSame : ∀ criterion ∈ scoringCriterionList,
      ((scores.set ScoringCriterion.notes.rawValue value criterion.rawValue).bind
        ScoreValue.asInt).getD 0 = ((scores criterion.rawValue).bind ScoreValue.asInt).getD 0 := by
    intro criterion hMem
    rw [set_rawValue, if_neg (by rintro rfl; exact absurd hMem (by decide))]
  rw [total, total, List.map_congr_left hSame]

theorem observeScores_object (fields : List (String × Value)) (screen : ScoringVC) :
    observeScores (.object fields) screen =
      match decodeScoresData (.object fields) with
      | .ok data => fetchPreviousScores screen data
      | .error _ => some screen := by
  have hTop : (Value.object fields).isTopLevel = true := rfl
  simp only [observeScores]
  rw [doCatch_dataWithJSONObject, if_pos hTop, doCatch_attempt_bind]
  cases decodeScoresData (.object fields) <;> simp

/-- A delivery of nothing or of an object that does not decode changes nothing. -/
theorem observeScores_of_error {value : Value} {error : DecodingError}
    (hValue : value = .null ∨ ∃ fields, value = .object fields)
    (hError : decodeScoresData value = .error error) (screen : ScoringVC) :
    observeScores value screen = some screen := by
  rcases hValue with rfl | ⟨fields, rfl⟩
  · rfl
  · rw [observeScores_object, hError]

namespace ScoringVC.Consistent

variable {screen : ScoringVC}

theorem initial : ScoringVC.initial.Consistent := by
  have hRange : ScoresData.InRange ⟨1, 1, 1, 1, ""⟩ := by simp [ScoresData.InRange]
  exact ⟨ScoreDictionary.wellFormed_setAll (fun _ _ => rfl) hRange, rfl⟩

theorem fetched (h : screen.Consistent) {data : ScoresData} (hRange : data.InRange) :
    ∃ after, fetchPreviousScores screen data = some after ∧ after.Consistent := by
  have hScores := ScoreDictionary.wellFormed_setAll h.scores.other hRange
  exact ⟨_, fetchPreviousScores_of_typed hScores.typed, hScores, rfl⟩

theorem delivered (h : screen.Consistent) {value : Value}
    (hEnabled : (ScoringEvent.delivered value).Enabled) :
    ∃ after, observeScores value screen = some after ∧ after.Consistent := by
  obtain ⟨hValue, hRange⟩ := hEnabled
  rcases hValue with rfl | ⟨fields, rfl⟩
  · exact ⟨screen, rfl, h⟩
  · rw [observeScores_object]
    cases hDecode : decodeScoresData (.object fields) with
    | error error => exact ⟨screen, rfl, h⟩
    | ok data => exact h.fetched (hRange data hDecode)

theorem step (h : screen.Consistent) {event : ScoringEvent} (hEnabled : event.Enabled) :
    ∃ after, nextScoring screen event = some after ∧ after.Consistent := by
  cases event with
  | tap criterion score configuration isTeamScored =>
      simp only [nextScoring, nextScreen, broadcastScore]
      cases disallowEdits configuration isTeamScored with
      | true => exact ⟨screen, rfl, h⟩
      | false =>
          let scores := screen.scores.set criterion.rawValue (.int score)
          have hScores : scores.WellFormed := h.scores.set_int hEnabled.1 hEnabled.2
          refine ⟨⟨scores, screen.defaultTotalScore, toString scores.total⟩, ?_, hScores, rfl⟩
          exact Option.bind_eq_some_iff.mpr ⟨_, calculateTotalScore_of_typed hScores.typed, rfl⟩
  | note text =>
      have hTotal := screen.scores.total_set_notes (.string text)
      exact ⟨_, rfl, h.scores.set_notes text, h.label.trans (congrArg toString hTotal.symm)⟩
  | delivered value => exact h.delivered hEnabled

end ScoringVC.Consistent

def ScoreValue.toJson : ScoreValue → Value
  | int score => .number score
  | string note => .string note

/-- The children that `setValue` stores for the dictionary, in any order. -/
structure WrittenAs (scores : ScoreDictionary) (fields : List (String × Value)) : Prop where
  nodup : (fields.map Prod.fst).Nodup
  mem_iff : ∀ key value, (key, value) ∈ fields ↔
    ∃ score, scores key = some score ∧ value = score.toJson

/-- A dictionary with a value for each criterion and nothing else can be stored. -/
theorem ScoreDictionary.WellFormed.exists_written {scores : ScoreDictionary} (h : scores.WellFormed) :
    ∃ fields, WrittenAs scores fields := by
  have hValue : ∀ criterion : ScoringCriterion, ∃ value, scores criterion.rawValue = some value := by
    intro criterion
    by_cases hMem : criterion ∈ scoringCriterionList
    · obtain ⟨score, hScore, _⟩ := h.score criterion hMem
      exact ⟨_, hScore⟩
    · obtain ⟨note, hNote⟩ := h.notes
      cases criterion with
      | notes => exact ⟨_, hNote⟩
      | _ => exact absurd (by decide) hMem
  choose value hValue using hValue
  refine ⟨[ScoringCriterion.usability, .innovation, .presentation, .viability, .notes].map
    fun criterion => (criterion.rawValue, (value criterion).toJson), ?nodup, fun key stored => ?mem⟩
  case nodup =>
    rw [List.map_map]
    exact List.Nodup.map ScoringCriterion.rawValue_injective (by decide)
  case mem =>
    rw [List.mem_map]
    constructor
    · rintro ⟨criterion, _, hField⟩
      cases hField
      exact ⟨value criterion, hValue criterion, rfl⟩
    · rintro ⟨score, hScore, rfl⟩
      by_cases hKey : ∃ criterion : ScoringCriterion, key = criterion.rawValue
      · obtain ⟨criterion, rfl⟩ := hKey
        obtain rfl := Option.some.inj ((hValue criterion).symm.trans hScore)
        exact ⟨criterion, by cases criterion <;> decide, rfl⟩
      · rw [h.other key (not_exists.mp hKey)] at hScore
        cases hScore

section Written

variable {scores : ScoreDictionary} {fields : List (String × Value)}

theorem WrittenAs.field_eq (h : WrittenAs scores fields) {α : Type} {decode : Decoder α}
    {key : String} {score : ScoreValue} (hScore : scores key = some score) :
    field key decode (.object fields) = decode score.toJson :=
  field_of_mem h.nodup ((h.mem_iff key _).mpr ⟨score, hScore, rfl⟩)

theorem int_toJson {score : Int} (hRange : 1 ≤ score ∧ score ≤ 5) :
    Json.int (ScoreValue.int score).toJson = .ok score := by
  have hFits : FitsInt64 score := by unfold FitsInt64; omega
  simp [Json.int, ScoreValue.toJson, hFits]

/-- What is stored decodes as what the dictionary holds. -/
theorem WrittenAs.decodes (hWritten : WrittenAs scores fields) (h : scores.WellFormed) :
    ∃ data, decodeScoresData (.object fields) = .ok data ∧ data.InRange ∧
      ∀ criterion, scores criterion.rawValue = some (data.value criterion) := by
  obtain ⟨usability, hUsability, hUsabilityRange⟩ := h.score .usability (by decide)
  obtain ⟨innovation, hInnovation, hInnovationRange⟩ := h.score .innovation (by decide)
  obtain ⟨viability, hViability, hViabilityRange⟩ := h.score .viability (by decide)
  obtain ⟨presentation, hPresentation, hPresentationRange⟩ := h.score .presentation (by decide)
  obtain ⟨notes, hNotes⟩ := h.notes
  refine ⟨⟨innovation, presentation, usability, viability, notes⟩, ?_, ?_, ?_⟩
  · have hInnovationField : field "innovation" int (.object fields) = .ok innovation :=
      (hWritten.field_eq hInnovation).trans (int_toJson hInnovationRange)
    have hPresentationField : field "presentation" int (.object fields) = .ok presentation :=
      (hWritten.field_eq hPresentation).trans (int_toJson hPresentationRange)
    have hUsabilityField : field "usability" int (.object fields) = .ok usability :=
      (hWritten.field_eq hUsability).trans (int_toJson hUsabilityRange)
    have hViabilityField : field "viability" int (.object fields) = .ok viability :=
      (hWritten.field_eq hViability).trans (int_toJson hViabilityRange)
    have hNotesField : field "notes" string (.object fields) = .ok notes :=
      hWritten.field_eq hNotes
    rw [decodeScoresData, hInnovationField, hPresentationField, hUsabilityField, hViabilityField,
      hNotesField]
    rfl
  · simp [ScoresData.InRange, hUsabilityRange, hInnovationRange, hViabilityRange,
      hPresentationRange]
  · intro criterion
    cases criterion <;> assumption

/-- The node of a dictionary with a text key is handed over as a dictionary. -/
theorem WrittenAs.valForExport_eq (hWritten : WrittenAs scores fields) (h : scores.WellFormed) :
    valForExport fields = .object fields := by
  obtain ⟨note, hNotes⟩ := h.notes
  have hMem : (ScoringCriterion.notes.rawValue, (ScoreValue.string note).toJson) ∈ fields :=
    (hWritten.mem_iff _ _).mpr ⟨_, hNotes, rfl⟩
  have hText : keyAsNum ScoringCriterion.notes.rawValue = none := by decide
  rcases valForExport_cases (List.ne_nil_of_mem hMem) with ⟨_, hValue⟩ | ⟨hKeys, _⟩
  · exact hValue
  · exact absurd (hKeys _ hMem) (by simp [hText])

/-- Delivered to any other screen, the stored dictionary replaces its values. -/
theorem WrittenAs.restores {submitted other : ScoringVC}
    (hWritten : WrittenAs submitted.scores fields) (hSubmitted : submitted.Consistent)
    (hOther : other.Consistent) :
    ∃ after, observeScores (valForExport fields) other = some after ∧
      after.scores = submitted.scores ∧ after.totalScoreLbl = submitted.totalScoreLbl := by
  obtain ⟨data, hDecode, hRange, hValues⟩ := hWritten.decodes hSubmitted.scores
  have hSame : other.scores.setAll data.value = submitted.scores := by
    funext key
    by_cases hKey : ∃ criterion : ScoringCriterion, key = criterion.rawValue
    · obtain ⟨criterion, rfl⟩ := hKey
      rw [ScoreDictionary.setAll_rawValue, hValues]
    · simp only [not_exists] at hKey
      rw [ScoreDictionary.setAll_other _ hKey, hOther.scores.other key hKey,
        hSubmitted.scores.other key hKey]
  have hScores := ScoreDictionary.wellFormed_setAll hOther.scores.other hRange
  rw [hWritten.valForExport_eq hSubmitted.scores, observeScores_object, hDecode]
  refine ⟨_, fetchPreviousScores_of_typed hScores.typed, hSame, ?_⟩
  rw [hSame]
  exact hSubmitted.label.symm

end Written

/-- What holds of a screen that a run has reached. Any other run of a screen of
the same team may have reached `other`. -/
structure ScoringVC.Faithful (submitted : ScoringVC) : Prop where
  consistent : submitted.Consistent
  undecodable : ∀ value, (value = .null ∨ ∃ fields, value = .object fields) →
    (∃ error, decodeScoresData value = .error error) →
      nextScoring submitted (.delivered value) = some submitted
  written : ∃ fields, WrittenAs submitted.scores fields
  restores : ∀ fields, WrittenAs submitted.scores fields → ∀ otherEvents other,
    (∀ event ∈ otherEvents, ScoringEvent.Enabled event) →
      run nextScoring .initial otherEvents = some other →
        ∃ after, nextScoring other (.delivered (valForExport fields)) = some after ∧
          after.scores = submitted.scores ∧ after.totalScoreLbl = submitted.totalScoreLbl

theorem exists_consistent_run {events : List ScoringEvent}
    (hEnabled : ∀ event ∈ events, event.Enabled) :
    ∃ final, run nextScoring .initial events = some final ∧ final.Consistent :=
  exists_run nextScoring (fun _ _ h hEvent => h.step hEvent) ScoringVC.Consistent.initial hEnabled

/-- In every run of the screen no cast traps, the dictionary holds its five
values, the total is their sum, what does not decode changes nothing, and what
the screen stores brings any screen of the team to the same scores and total. -/
theorem scoring_screen_faithful {events : List ScoringEvent}
    (hEnabled : ∀ event ∈ events, event.Enabled) :
    ∃ submitted, run nextScoring .initial events = some submitted ∧ submitted.Faithful := by
  obtain ⟨submitted, hRun, hConsistent⟩ := exists_consistent_run hEnabled
  refine ⟨submitted, hRun, hConsistent, ?_, hConsistent.scores.exists_written, ?_⟩
  · rintro value hValue ⟨error, hError⟩
    exact observeScores_of_error hValue hError submitted
  · intro fields hWritten otherEvents other hOtherEnabled hOtherRun
    obtain ⟨reached, hReached, hOther⟩ := exists_consistent_run hOtherEnabled
    obtain rfl := Option.some.inj (hOtherRun.symm.trans hReached)
    exact hWritten.restores hConsistent hOther

/-- A tap, a note and a record whose scores are texts. -/
theorem malformed_record_faithful :
    ∃ submitted, run nextScoring .initial [.tap .usability 5 ⟨1, 1⟩ false, .note "ok",
        .delivered (.object [("usability", .string "5")])] = some submitted ∧
      submitted.Faithful := by
  refine scoring_screen_faithful fun event hMem => ?_
  simp only [List.mem_cons, List.not_mem_nil, or_false] at hMem
  rcases hMem with rfl | rfl | rfl
  · exact ⟨by decide, by decide⟩
  · trivial
  · refine ⟨Or.inr ⟨_, rfl⟩, fun data hDecode => ?_⟩
    cases hDecode

end CICJudging
