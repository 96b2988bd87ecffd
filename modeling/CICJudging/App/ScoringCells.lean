import CICJudging.App.ScoringSnapshots

/-! The table of the scoring screen. Its cells keep their own copies of the scores,
which they are given when the table asks for them; a tap changes the copy and
notifies the screen, and a stored record replaces all the cells. -/
namespace CICJudging

open Transition Json Handler Text

/-- `gold` tells which of the views under `scoringBtnStkVw` have the background of
the chosen score. -/
structure ScoringCell where
  scoringCriterion : ScoringCriterion
  score : Int
  scoreLbl : String
  gold : Int → Bool

/-- `ScoringCell()` -/
def ScoringCell.new : ScoringCell where
  scoringCriterion := .innovation
  score := 1
  scoreLbl := ""
  gold := fun _ => false

/-- The buttons have the tags 1 to 5 and the stack view itself has 0. -/
def viewWithTag (tag : Int) : Option Int := if 0 ≤ tag ∧ tag ≤ 5 then some tag else none

def ScoringCell.setBackground (cell : ScoringCell) (tag : Int) (techGold : Bool) : ScoringCell :=
  match viewWithTag tag with
  | some view => { cell with gold := Function.update cell.gold view techGold }
  | none => cell

def ScoringCell.configureCell (cell : ScoringCell) (scoringCriterion : ScoringCriterion)
    (initialScore : Int) : ScoringCell :=
  let cell := { cell with
    scoringCriterion, score := initialScore, scoreLbl := toString initialScore ++ "/5" }
  cell.setBackground initialScore true

/-- The cell after a tap on the button with this tag, and the notification it posts. -/
def ScoringCell.broadcastScore (cell : ScoringCell) (configuration : ConfigurationData)
    (isTeamScored : Bool) (sender : Int) : ScoringCell × Option (String × ScoreValue) :=
  if !disallowEdits configuration isTeamScored then
    let cell := (cell.setBackground cell.score false).setBackground sender true
    ({ cell with score := sender, scoreLbl := toString sender ++ "/5" },
      some (cell.scoringCriterion.rawValue, .int sender))
  else (cell, none)

structure NotesCell where
  text : String
  isEditable : Bool

/-- `NotesCell()` -/
def NotesCell.new : NotesCell where
  text := ""
  isEditable := true

/-- Whether notes may be edited is decided here, once for the cell. -/
def NotesCell.configureCell (cell : NotesCell) (noteText : String)
    (configuration : ConfigurationData) (isTeamScored : Bool) : NotesCell :=
  let cell := if disallowEdits configuration isTeamScored then { cell with isEditable := false }
    else cell
  { cell with text := noteText }

/-- A newline ends the editing instead. -/
def shouldChangeTextIn (replacementText : String) : Bool := !decide (replacementText = "\n")

def ScoreValue.asString : ScoreValue → Option String
  | int _ => none
  | string note => some note

/-- The screen with the cells that its table shows, by row. -/
structure ScoringTable where
  screen : ScoringVC
  scoringCells : Nat → Option ScoringCell
  notesCell : Option NotesCell

namespace ScoringTable

def initial : ScoringTable := ⟨.initial, fun _ => none, none⟩

def setCell (table : ScoringTable) (row : Nat) (cell : ScoringCell) : ScoringTable :=
  { table with scoringCells := Function.update table.scoringCells row (some cell) }

/-- The table asks for the cell of a row. The fifth is the notes cell; the button
to submit, and an empty cell for any other row, keep nothing. -/
def cellForRowAt (table : ScoringTable) (configuration : ConfigurationData) (isTeamScored : Bool)
    (row : Nat) : ScoringTable :=
  match scoringCriterionList[row]? with
  | some criterion =>
      let initialScore := ((table.screen.scores criterion.rawValue).bind ScoreValue.asInt).getD 1
      table.setCell row (ScoringCell.new.configureCell criterion initialScore)
  | none =>
      if row = 4 then
        let noteText := ((table.screen.scores "notes").bind ScoreValue.asString).getD ""
        let cell := NotesCell.new.configureCell noteText configuration isTeamScored
        { table with notesCell := some cell }
      else table

/-- A row that is scrolled away; cells are not reused. -/
def didEndDisplaying (table : ScoringTable) (row : Nat) : ScoringTable :=
  if row = 4 then { table with notesCell := none }
  else { table with scoringCells := Function.update table.scoringCells row none }

/-- After `reloadData` the table asks for its rows again. -/
def reloadData (table : ScoringTable) : ScoringTable :=
  { table with scoringCells := fun _ => none, notesCell := none }

/-- What the cells post goes to the handler of the screen. -/
def post (table : ScoringTable) (userInfo : String × ScoreValue) : Option ScoringTable :=
  (manageScoreUpdate table.screen userInfo.1 userInfo.2).map fun screen => { table with screen }

/-- A tap on a button, if the row is there. -/
def tap (table : ScoringTable) (configuration : ConfigurationData) (isTeamScored : Bool)
    (row : Nat) (sender : Int) : Option ScoringTable :=
  match table.scoringCells row with
  | none => some table
  | some cell =>
      match cell.broadcastScore configuration isTeamScored sender with
      | (cell, some userInfo) => (table.setCell row cell).post userInfo
      | (cell, none) => some (table.setCell row cell)

/-- The text of the notes becomes `newText` by the insertion of `replacementText`. -/
def changeText (table : ScoringTable) (replacementText newText : String) : Option ScoringTable :=
  match table.notesCell with
  | none => some table
  | some cell =>
      if cell.isEditable && shouldChangeTextIn replacementText then
        { table with notesCell := some { cell with text := newText } }.post (textViewDidChange newText)
      else some table

/-- The observer of the stored record. -/
def observe (table : ScoringTable) (value : Value) : Option ScoringTable :=
  match value with
  | .null => some table
  | value => doCatch (do
      let data ← dataWithJSONObject value
      let decodedScores ← attempt (decodeScoresData data)
      trapping fun table : ScoringTable =>
        (fetchPreviousScores table.screen decodedScores).map fun screen =>
          reloadData { table with screen }) table

end ScoringTable

/-- Taps and new cells come with what the two singletons show at that moment. -/
inductive TableEvent where
  | cellForRow (row : Nat) (configuration : ConfigurationData) (isTeamScored : Bool)
  | didEndDisplaying (row : Nat)
  | tap (row : Nat) (sender : Int) (configuration : ConfigurationData) (isTeamScored : Bool)
  | changeText (replacementText newText : String)
  | delivered (value : Value)

def nextTable (table : ScoringTable) : TableEvent → Option ScoringTable
  | .cellForRow row configuration isTeamScored =>
      some (table.cellForRowAt configuration isTeamScored row)
  | .didEndDisplaying row => some (table.didEndDisplaying row)
  | .tap row sender configuration isTeamScored => table.tap configuration isTeamScored row sender
  | .changeText replacementText newText => table.changeText replacementText newText
  | .delivered value => table.observe value

/-- There are buttons for 1 to 5, and stored scores are scores. -/
def TableEvent.Enabled : TableEvent → Prop
  | tap _ sender _ _ => 1 ≤ sender ∧ sender ≤ 5
  | delivered value => (ScoringEvent.delivered value).Enabled
  | _ => True

/-- The label and the one golden button are those of the score. -/
structure ScoringCell.Shows (cell : ScoringCell) (score : Int) : Prop where
  kept : cell.score = score
  label : cell.scoreLbl = toString score ++ "/5"
  gold : ∀ tag, cell.gold tag = true ↔ tag = score

theorem viewWithTag_of_score {tag : Int} (h : 1 ≤ tag ∧ tag ≤ 5) : viewWithTag tag = some tag :=
  if_pos ⟨by omega, h.2⟩

theorem ScoringCell.shows_configureCell (criterion : ScoringCriterion) {score : Int}
    (h : 1 ≤ score ∧ score ≤ 5) :
    (ScoringCell.new.configureCell criterion score).Shows score ∧
      (ScoringCell.new.configureCell criterion score).scoringCriterion = criterion := by
  simp only [configureCell, setBackground, viewWithTag_of_score h]
  refine ⟨⟨rfl, rfl, fun tag => ?_⟩, trivial⟩
  by_cases hTag : tag = score <;> simp [new, hTag]

/-- A tap that is taken moves the background and the label to the new score. -/
theorem ScoringCell.Shows.broadcastScore {cell : ScoringCell} {score sender : Int}
    (h : cell.Shows score) (hScore : 1 ≤ score ∧ score ≤ 5) (hSender : 1 ≤ sender ∧ sender ≤ 5)
    {configuration : ConfigurationData} {isTeamScored : Bool}
    (hOpen : disallowEdits configuration isTeamScored = false) :
    ∃ after, cell.broadcastScore configuration isTeamScored sender =
        (after, some (cell.scoringCriterion.rawValue, .int sender)) ∧
      after.Shows sender ∧ after.scoringCriterion = cell.scoringCriterion := by
  simp only [ScoringCell.broadcastScore, hOpen, Bool.not_false, if_true, setBackground, h.kept,
    viewWithTag_of_score hScore, viewWithTag_of_score hSender]
  refine ⟨_, rfl, ⟨rfl, rfl, fun tag => ?_⟩, rfl⟩
  by_cases hNew : tag = sender
  · simp [hNew]
  · by_cases hOld : tag = score
    · simp [hOld, Function.update_apply]
    · simp [hNew, hOld, h.gold]

/-- Every cell shows what the dictionary holds for its row. -/
structure ScoringTable.Coherent (table : ScoringTable) : Prop where
  screen : table.screen.Consistent
  scoring : ∀ row cell, table.scoringCells row = some cell →
    ∃ score, scoringCriterionList[row]? = some cell.scoringCriterion ∧
      table.screen.scores cell.scoringCriterion.rawValue = some (.int score) ∧ cell.Shows score
  notes : ∀ cell, table.notesCell = some cell →
    table.screen.scores ScoringCriterion.notes.rawValue = some (.string cell.text)

namespace ScoringTable.Coherent

variable {table : ScoringTable}

theorem initial : ScoringTable.initial.Coherent where
  screen := ScoringVC.Consistent.initial
  scoring := nofun
  notes := nofun

/-- A cell is given the score that the dictionary holds at that moment. -/
theorem cellForRowAt (h : table.Coherent) (configuration : ConfigurationData)
    (isTeamScored : Bool) (row : Nat) :
    (table.cellForRowAt configuration isTeamScored row).Coherent := by
  unfold ScoringTable.cellForRowAt
  cases hRow : scoringCriterionList[row]? with
  | some criterion =>
      obtain ⟨score, hScore, hRange⟩ := h.screen.scores.score criterion (List.mem_of_getElem? hRow)
      obtain ⟨hShows, hCriterion⟩ := ScoringCell.shows_configureCell criterion hRange
      simp only [hScore, Option.bind_some, ScoreValue.asInt, Option.getD_some]
      refine ⟨h.screen, fun other cell hCell => ?_, h.notes⟩
      by_cases hOther : other = row
      · subst hOther
        simp only [setCell, Function.update_self, Option.some.injEq] at hCell
        subst hCell
        exact ⟨score, by rw [hCriterion, hRow], by rw [hCriterion]; exact hScore, hShows⟩
      · simp only [setCell, Function.update_of_ne hOther] at hCell
        exact h.scoring other cell hCell
  | none =>
      dsimp only
      split_ifs
      · obtain ⟨note, hNote⟩ := h.screen.scores.notes
        refine ⟨h.screen, h.scoring, fun cell hCell => ?_⟩
        cases hCell
        rw [hNote]
        simp [NotesCell.configureCell, show table.screen.scores "notes" = _ from hNote,
          ScoreValue.asString]
      · exact h

theorem didEndDisplaying (h : table.Coherent) (row : Nat) : (table.didEndDisplaying row).Coherent := by
  unfold ScoringTable.didEndDisplaying
  split_ifs
  · exact ⟨h.screen, h.scoring, nofun⟩
  · refine ⟨h.screen, fun other cell hCell => ?_, h.notes⟩
    by_cases hOther : other = row
    · simp [hOther] at hCell
    · simp only [Function.update_of_ne hOther] at hCell
      exact h.scoring other cell hCell

/-- No criterion has two rows. -/
theorem row_eq {row other : Nat} {criterion : ScoringCriterion}
    (hRow : scoringCriterionList[row]? = some criterion)
    (hOther : scoringCriterionList[other]? = some criterion) : other = row := by
  have hNodup : scoringCriterionList.Nodup := by decide
  obtain ⟨hLength, _⟩ := List.getElem?_eq_some_iff.mp hOther
  exact (List.getElem?_inj hLength hNodup).mp (hOther.trans hRow.symm)

/-- A new score in the dictionary and in the cell of its row. -/
theorem setCell (h : table.Coherent) {screen : ScoringVC} {row : Nat} {newCell : ScoringCell}
    {score : Int} (hConsistent : screen.Consistent)
    (hRow : scoringCriterionList[row]? = some newCell.scoringCriterion)
    (hScores : screen.scores = table.screen.scores.set newCell.scoringCriterion.rawValue (.int score))
    (hShows : newCell.Shows score) : { table.setCell row newCell with screen }.Coherent where
  screen := hConsistent
  scoring := by
    intro other cell hCell
    by_cases hSame : other = row
    · subst hSame
      simp only [ScoringTable.setCell, Function.update_self, Option.some.injEq] at hCell
      subst hCell
      refine ⟨score, hRow, ?_, hShows⟩
      rw [hScores, ScoreDictionary.set_rawValue, if_pos rfl]
    · simp only [ScoringTable.setCell, Function.update_of_ne hSame] at hCell
      obtain ⟨old, hOldRow, hOld, hOldShows⟩ := h.scoring other cell hCell
      refine ⟨old, hOldRow, ?_, hOldShows⟩
      rw [hScores, ScoreDictionary.set_rawValue, if_neg, hOld]
      intro hCriterion
      rw [hCriterion] at hOldRow
      exact hSame (row_eq hRow hOldRow)
  notes := by
    intro cell hCell
    rw [hScores, ScoreDictionary.set_rawValue, if_neg]
    · exact h.notes cell hCell
    · intro hCriterion
      rw [← hCriterion] at hRow
      exact absurd (List.mem_of_getElem? hRow) (by decide)

/-- A tap that is taken changes its own cell and the entry of its criterion. -/
theorem tap (h : table.Coherent) (configuration : ConfigurationData) (isTeamScored : Bool)
    (row : Nat) {sender : Int} (hSender : 1 ≤ sender ∧ sender ≤ 5) :
    ∃ after, table.tap configuration isTeamScored row sender = some after ∧ after.Coherent := by
  unfold ScoringTable.tap
  cases hCell : table.scoringCells row with
  | none => exact ⟨table, rfl, h⟩
  | some cell =>
      obtain ⟨score, hRow, hScore, hShows⟩ := h.scoring row cell hCell
      have hMem : cell.scoringCriterion ∈ scoringCriterionList := List.mem_of_getElem? hRow
      cases hClosed : disallowEdits configuration isTeamScored with
      | true =>
          refine ⟨table, ?_, h⟩
          have hSame : Function.update table.scoringCells row (some cell) = table.scoringCells := by
            rw [← hCell, Function.update_eq_self]
          simp [ScoringCell.broadcastScore, hClosed, ScoringTable.setCell, hSame]
      | false =>
          obtain ⟨old, hOld, hRange⟩ := h.screen.scores.score _ hMem
          obtain rfl : score = old := by
            rw [hScore] at hOld
            cases hOld
            rfl
          obtain ⟨newCell, hBroadcast, hNewShows, hNewCriterion⟩ :=
            hShows.broadcastScore hRange hSender hClosed
          have hEnabled : (ScoringEvent.tap cell.scoringCriterion sender configuration
              isTeamScored).Enabled := ⟨hMem, hSender⟩
          obtain ⟨screen, hScreen, hConsistent⟩ := h.screen.step hEnabled
          have hUpdate : manageScoreUpdate table.screen cell.scoringCriterion.rawValue
              (.int sender) = some screen := by
            simpa [nextScoring, nextScreen, CICJudging.broadcastScore, hClosed] using hScreen
          have hPosted : (table.setCell row newCell).screen = table.screen := rfl
          refine ⟨{ table.setCell row newCell with screen }, ?_, ?_⟩
          · simp only [hBroadcast, ScoringTable.post]
            rw [hPosted, hUpdate]
            rfl
          · rw [← hNewCriterion] at hRow hUpdate
            exact h.setCell hConsistent hRow (manageScoreUpdate_scores hUpdate) hNewShows

theorem changeText (h : table.Coherent) (replacementText newText : String) :
    ∃ after, table.changeText replacementText newText = some after ∧ after.Coherent := by
  unfold ScoringTable.changeText
  cases hCell : table.notesCell with
  | none => exact ⟨table, rfl, h⟩
  | some cell =>
      dsimp only
      split_ifs with hTyped
      · have hMem : ∀ criterion ∈ scoringCriterionList, criterion ≠ .notes := by decide
        have hEnabled : (ScoringEvent.note newText).Enabled := trivial
        obtain ⟨screen, hScreen, hConsistent⟩ := h.screen.step hEnabled
        have hUpdate : manageScoreUpdate table.screen ScoringCriterion.notes.rawValue
            (.string newText) = some screen := hScreen
        have hScores := manageScoreUpdate_scores hUpdate
        refine ⟨⟨screen, table.scoringCells, some { cell with text := newText }⟩, ?_, hConsistent, ?_, ?_⟩
        · simp only [ScoringTable.post, textViewDidChange, hUpdate]
          rfl
        · intro row other hOther
          obtain ⟨score, hRow, hScore, hShows⟩ := h.scoring row other hOther
          refine ⟨score, hRow, ?_, hShows⟩
          rw [hScores, ScoreDictionary.set_rawValue, if_neg (hMem _ (List.mem_of_getElem? hRow)),
            hScore]
        · intro other hOther
          cases hOther
          rw [hScores, ScoreDictionary.set_rawValue, if_pos rfl]
      · exact ⟨table, rfl, h⟩

end ScoringTable.Coherent

/-- The observer does to the screen what it does without the table. -/
theorem ScoringTable.observe_screen (table : ScoringTable) (value : Value) :
    (table.observe value).map ScoringTable.screen = observeScores value table.screen := by
  cases value with
  | null => rfl
  | _ =>
      simp only [ScoringTable.observe, observeScores, doCatch_dataWithJSONObject,
        doCatch_attempt_bind]
      split_ifs
      · cases decodeScoresData _ <;> simp [Option.map_map, Function.comp_def, reloadData]
      · rfl

/-- Either the record is not taken, or all cells are gone. -/
theorem ScoringTable.observe_cases {table after : ScoringTable} {value : Value}
    (h : table.observe value = some after) :
    after = table ∨ (after.scoringCells = fun _ => none) ∧ after.notesCell = none := by
  cases value with
  | null => exact Or.inl (Option.some.inj h).symm
  | _ =>
      simp only [ScoringTable.observe, doCatch_dataWithJSONObject, doCatch_attempt_bind] at h
      split_ifs at h
      split at h
      · rw [doCatch_trapping] at h
        obtain ⟨screen, _, rfl⟩ := Option.map_eq_some_iff.mp h
        exact Or.inr ⟨rfl, rfl⟩
      · exact Or.inl (Option.some.inj h).symm

theorem ScoringTable.Coherent.observe {table : ScoringTable} (h : table.Coherent) {value : Value}
    (hEnabled : (ScoringEvent.delivered value).Enabled) :
    ∃ after, table.observe value = some after ∧ after.Coherent := by
  obtain ⟨screen, hScreen, hConsistent⟩ := h.screen.step hEnabled
  rw [nextScoring, ← table.observe_screen] at hScreen
  obtain ⟨after, hAfter, rfl⟩ := Option.map_eq_some_iff.mp hScreen
  refine ⟨after, hAfter, ?_⟩
  rcases ScoringTable.observe_cases hAfter with rfl | ⟨hScoring, hNotes⟩
  · exact h
  · exact ⟨hConsistent, by simp [hScoring], by simp [hNotes]⟩

theorem ScoringTable.Coherent.next {table : ScoringTable} {event : TableEvent} (h : table.Coherent)
    (hEnabled : event.Enabled) :
    ∃ after, nextTable table event = some after ∧ after.Coherent := by
  cases event with
  | cellForRow row configuration isTeamScored =>
      exact ⟨_, rfl, h.cellForRowAt configuration isTeamScored row⟩
  | didEndDisplaying row => exact ⟨_, rfl, h.didEndDisplaying row⟩
  | tap row sender configuration isTeamScored => exact h.tap configuration isTeamScored row hEnabled
  | changeText replacementText newText => exact h.changeText replacementText newText
  | delivered value => exact h.observe hEnabled

/-- The total that the details screen is given. -/
def ScoringVC.presentTeamDetails (screen : ScoringVC) : Int :=
  (intOfString screen.totalScoreLbl).getD 0

theorem ScoreDictionary.WellFormed.total_bounds {scores : ScoreDictionary} (h : scores.WellFormed) :
    4 ≤ scores.total ∧ scores.total ≤ 20 := by
  obtain ⟨usability, hUsability, _⟩ := h.score .usability (by decide)
  obtain ⟨innovation, hInnovation, _⟩ := h.score .innovation (by decide)
  obtain ⟨viability, hViability, _⟩ := h.score .viability (by decide)
  obtain ⟨presentation, hPresentation, _⟩ := h.score .presentation (by decide)
  simp only [ScoreDictionary.total, scoringCriterionList, List.map_cons, List.map_nil,
    List.sum_cons, List.sum_nil, hUsability, hInnovation, hViability, hPresentation,
    Option.bind_some, ScoreValue.asInt, Option.getD_some]
  omega

theorem ScoringVC.Consistent.presentTeamDetails {screen : ScoringVC} (h : screen.Consistent) :
    screen.presentTeamDetails = screen.scores.total := by
  have hBounds := h.scores.total_bounds
  have hFits : FitsInt64 screen.scores.total := by unfold FitsInt64; omega
  rw [ScoringVC.presentTeamDetails, h.label, intOfString_toString hFits, Option.getD_some]

/-- Whatever the table asks for and the judge does, in any order and with records
delivered in between: no cast traps, each cell on the screen shows the entry of the
dictionary that a submission would send, and the details screen gets the total. -/
theorem scoring_table_coherent {events : List TableEvent} (hEnabled : ∀ event ∈ events, event.Enabled) :
    ∃ final, run nextTable .initial events = some final ∧ final.Coherent ∧
      final.screen.presentTeamDetails = final.screen.scores.total := by
  obtain ⟨final, hRun, hCoherent⟩ :=
    exists_run nextTable (fun _ _ h hEvent => h.next hEvent) ScoringTable.Coherent.initial hEnabled
  exact ⟨final, hRun, hCoherent, hCoherent.screen.presentTeamDetails⟩

/-- The row of usability is shown, gets a tap, and is replaced with a stored record. -/
theorem tapped_table_coherent :
    ∃ final, run nextTable .initial [.cellForRow 0 ⟨1, 1⟩ false, .tap 0 5 ⟨1, 1⟩ false,
        .delivered .null, .cellForRow 4 ⟨1, 1⟩ false, .changeText "k" "ok"] = some final ∧
      final.Coherent ∧ final.screen.presentTeamDetails = final.screen.scores.total := by
  refine scoring_table_coherent fun event hMem => ?_
  simp only [List.mem_cons, List.not_mem_nil, or_false] at hMem
  rcases hMem with rfl | rfl | rfl | rfl | rfl
  · trivial
  · exact ⟨by decide, by decide⟩
  · exact ⟨Or.inl rfl, fun data hDecode => by cases hDecode⟩
  · trivial
  · trivial

/-- Edits are closed for the team when a cell is made or tapped. -/
def TableEvent.Closed : TableEvent → Prop
  | cellForRow _ configuration isTeamScored => disallowEdits configuration isTeamScored = true
  | tap _ _ configuration isTeamScored => disallowEdits configuration isTeamScored = true
  | _ => True

def TableEvent.delivery : TableEvent → Option ScoringEvent
  | delivered value => some (.delivered value)
  | _ => none

/-- The notes on the screen cannot be edited. -/
def ScoringTable.NotesLocked (table : ScoringTable) : Prop :=
  ∀ cell, table.notesCell = some cell → cell.isEditable = false

theorem ScoringTable.NotesLocked.next {table after : ScoringTable} {event : TableEvent}
    (hLocked : table.NotesLocked) (hClosed : event.Closed)
    (hNext : nextTable table event = some after) :
    after.NotesLocked ∧ run nextScoring table.screen event.delivery.toList = some after.screen := by
  cases event with
  | cellForRow row configuration isTeamScored =>
      have hClosed : disallowEdits configuration isTeamScored = true := hClosed
      cases hNext
      unfold ScoringTable.cellForRowAt
      split
      · exact ⟨hLocked, rfl⟩
      · split_ifs
        · refine ⟨fun cell hCell => ?_, rfl⟩
          cases hCell
          simp [NotesCell.configureCell, hClosed]
        · exact ⟨hLocked, rfl⟩
  | didEndDisplaying row =>
      cases hNext
      unfold ScoringTable.didEndDisplaying
      split_ifs
      · exact ⟨nofun, rfl⟩
      · exact ⟨hLocked, rfl⟩
  | tap row sender configuration isTeamScored =>
      have hClosed : disallowEdits configuration isTeamScored = true := hClosed
      simp only [nextTable, ScoringTable.tap, ScoringCell.broadcastScore, hClosed] at hNext
      split at hNext
      · cases hNext
        exact ⟨hLocked, rfl⟩
      · cases hNext
        exact ⟨hLocked, rfl⟩
  | changeText replacementText newText =>
      simp only [nextTable, ScoringTable.changeText] at hNext
      split at hNext
      · cases hNext
        exact ⟨hLocked, rfl⟩
      · next cell hCell =>
          simp only [hLocked cell hCell, Bool.false_and, Bool.false_eq_true, if_false] at hNext
          cases hNext
          exact ⟨hLocked, rfl⟩
  | delivered value =>
      have hObserve : table.observe value = some after := hNext
      have hScreen : observeScores value table.screen = some after.screen := by
        rw [← table.observe_screen, hObserve]
        rfl
      refine ⟨?_, by simp [TableEvent.delivery, run, nextScoring, hScreen]⟩
      rcases ScoringTable.observe_cases hObserve with rfl | ⟨_, hNotes⟩
      · exact hLocked
      · exact fun cell hCell => by rw [hNotes] at hCell; cases hCell

theorem ScoringTable.NotesLocked.run {table final : ScoringTable} {events : List TableEvent}
    (hLocked : table.NotesLocked) (hClosed : ∀ event ∈ events, event.Closed)
    (hRun : run nextTable table events = some final) :
    Transition.run nextScoring table.screen (events.filterMap TableEvent.delivery) =
      some final.screen := by
  induction events generalizing table with
  | nil =>
      cases hRun
      rfl
  | cons event rest ih =>
      obtain ⟨middle, hNext, hRest⟩ := (run_cons_eq_some nextTable).mp hRun
      obtain ⟨hMiddle, hStep⟩ := hLocked.next (hClosed event (List.mem_cons_self ..)) hNext
      have hTail := ih hMiddle (fun other hMem => hClosed other (List.mem_cons_of_mem _ hMem)) hRest
      have hSplit : (event :: rest).filterMap TableEvent.delivery =
          event.delivery.toList ++ rest.filterMap TableEvent.delivery := by
        cases hDelivery : event.delivery <;> simp [hDelivery]
      rw [hSplit, run_append, hStep]
      exact hTail

/-- While edits are closed for the team nothing that the judge does on the screen
reaches the dictionary: it holds what the records delivered so far make of it. -/
theorem closed_table_read_only {events : List TableEvent} (hClosed : ∀ event ∈ events, event.Closed)
    {final : ScoringTable} (hRun : run nextTable .initial events = some final) :
    run nextScoring .initial (events.filterMap TableEvent.delivery) = some final.screen := by
  have hStart : ScoringTable.initial.NotesLocked := nofun
  exact hStart.run hClosed hRun

/-- Taps and notes of a judge after submissions have been closed. -/
def afterClosing : List TableEvent :=
  [.cellForRow 0 ⟨1, 0⟩ false, .tap 0 5 ⟨1, 0⟩ false, .cellForRow 4 ⟨1, 0⟩ false,
    .changeText "k" "ok"]

theorem afterClosing_ignored :
    ∃ final, run nextTable .initial afterClosing = some final ∧
      run nextScoring .initial (afterClosing.filterMap TableEvent.delivery) = some final.screen := by
  have hClosed : ∀ event ∈ afterClosing, event.Closed := by
    intro event hMem
    simp only [afterClosing, List.mem_cons, List.not_mem_nil, or_false] at hMem
    rcases hMem with rfl | rfl | rfl | rfl
    · rfl
    · rfl
    · rfl
    · trivial
  have hRun : (run nextTable .initial afterClosing).isSome := rfl
  obtain ⟨final, hFinal⟩ := Option.isSome_iff_exists.mp hRun
  exact ⟨final, hFinal, closed_table_read_only hClosed hFinal⟩

end CICJudging
