import Mathlib.Logic.Relation
import Mathlib.Tactic.Common

/-! Runs of a partial deterministic transition function. A label carries every
choice the environment makes, so nondeterminism is quantification over label
lists. Invariants and conditions on steps are lifted from one step to runs. -/
namespace Transition

variable {State Label : Type*} (next : State → Label → Option State)

/-- Take the labels in order. A label that is not enabled ends the run with
`none`; nothing is skipped. -/
def run : State → List Label → Option State
  | s, [] => some s
  | s, l :: rest => (next s l).bind fun s' => run s' rest

theorem run_cons (s : State) (l : Label) (rest : List Label) :
    run next s (l :: rest) = (next s l).bind fun s' => run next s' rest := rfl

theorem run_cons_eq_some {s t : State} {l : Label} {rest : List Label} :
    run next s (l :: rest) = some t ↔ ∃ m, next s l = some m ∧ run next m rest = some t := by
  simp [run_cons, Option.bind_eq_some_iff]

theorem run_append (s : State) (first second : List Label) :
    run next s (first ++ second) = (run next s first).bind fun m => run next m second := by
  induction first generalizing s with
  | nil => rfl
  | cons l first ih =>
      simp only [List.cons_append, run_cons, Option.bind_assoc, ih]

theorem run_append_eq_some {s t : State} {first second : List Label} :
    run next s (first ++ second) = some t ↔
      ∃ m, run next s first = some m ∧ run next m second = some t := by
  simp [run_append, Option.bind_eq_some_iff]

/-- What every enabled step preserves, every run preserves. -/
theorem run_invariant {Inv : State → Prop}
    (hStep : ∀ s l s', Inv s → next s l = some s' → Inv s')
    {s t : State} {labels : List Label} (hRun : run next s labels = some t) (hInv : Inv s) :
    Inv t := by
  induction labels generalizing s with
  | nil =>
      cases hRun
      exact hInv
  | cons l rest ih =>
      obtain ⟨m, hNext, hRest⟩ := (run_cons_eq_some next).mp hRun
      exact ih hRest (hStep s l m hInv hNext)

/-- As above, for what only the steps with labels of a kind preserve. -/
theorem run_invariant_of_enabled {Inv : State → Prop} {Enabled : Label → Prop}
    (hStep : ∀ s l s', Inv s → Enabled l → next s l = some s' → Inv s')
    {s t : State} {labels : List Label} (hRun : run next s labels = some t)
    (hEnabled : ∀ l ∈ labels, Enabled l) (hInv : Inv s) : Inv t := by
  induction labels generalizing s with
  | nil =>
      cases hRun
      exact hInv
  | cons l rest ih =>
      obtain ⟨m, hNext, hRest⟩ := (run_cons_eq_some next).mp hRun
      obtain ⟨hHead, hTail⟩ := List.forall_mem_cons.mp hEnabled
      exact ih hRest hTail (hStep s l m hInv hHead hNext)

/-- For a property of the state together with the labels taken so far. -/
theorem run_history {Inv : List Label → State → Prop}
    (hStep : ∀ past s l s', Inv past s → next s l = some s' → Inv (past ++ [l]) s')
    {s t : State} {past labels : List Label} (hRun : run next s labels = some t)
    (hInv : Inv past s) : Inv (past ++ labels) t := by
  induction labels generalizing s past with
  | nil =>
      cases hRun
      rwa [List.append_nil]
  | cons l rest ih =>
      obtain ⟨m, hNext, hRest⟩ := (run_cons_eq_some next).mp hRun
      simpa using ih hRest (hStep past s l m hInv hNext)

/-- Steps that are enabled wherever the invariant holds never end a run. -/
theorem exists_run {Inv : State → Prop} {Enabled : Label → Prop}
    (hStep : ∀ s l, Inv s → Enabled l → ∃ s', next s l = some s' ∧ Inv s')
    {s : State} {labels : List Label} (hInv : Inv s) (hEnabled : ∀ l ∈ labels, Enabled l) :
    ∃ t, run next s labels = some t ∧ Inv t := by
  induction labels generalizing s with
  | nil => exact ⟨s, rfl, hInv⟩
  | cons l rest ih =>
      obtain ⟨m, hNext, hm⟩ := hStep s l hInv (hEnabled l (List.mem_cons_self ..))
      obtain ⟨t, hRest, ht⟩ := ih hm fun k hk => hEnabled k (List.mem_cons_of_mem _ hk)
      exact ⟨t, (run_cons_eq_some next).mpr ⟨m, hNext, hRest⟩, ht⟩

/-- A part of the state that each label either sets or leaves alone has the value
that was set last. -/
theorem run_last_write_of_invariant {Value : Type*} (view : State → Value)
    {write : Label → Option Value} {Inv : State → Prop}
    (hInvariant : ∀ s l s', Inv s → next s l = some s' → Inv s')
    (hStep : ∀ s l s', Inv s → next s l = some s' → view s' = (write l).getD (view s))
    {s t : State} {labels : List Label} (hRun : run next s labels = some t) (hInv : Inv s) :
    view t = ((labels.filterMap write).getLast?).getD (view s) := by
  induction labels generalizing s with
  | nil =>
      cases hRun
      rfl
  | cons l rest ih =>
      obtain ⟨m, hNext, hRest⟩ := (run_cons_eq_some next).mp hRun
      rw [ih hRest (hInvariant s l m hInv hNext), hStep s l m hInv hNext]
      cases hWrite : write l <;> simp [hWrite, List.getLast?_cons]

theorem run_last_write {Value : Type*} (view : State → Value) {write : Label → Option Value}
    (hStep : ∀ s l s', next s l = some s' → view s' = (write l).getD (view s))
    {s t : State} {labels : List Label} (hRun : run next s labels = some t) :
    view t = ((labels.filterMap write).getLast?).getD (view s) :=
  run_last_write_of_invariant next view (fun _ _ _ _ _ => trivial)
    (fun s l s' _ hNext => hStep s l s' hNext) hRun trivial

/-- The condition holds of the state and the label at every step taken. -/
def Along (P : State → Label → Prop) : State → List Label → Prop
  | _, [] => True
  | s, l :: rest => P s l ∧ ∀ s', next s l = some s' → Along P s' rest

instance decidableAlong (P : State → Label → Prop) [∀ s l, Decidable (P s l)] :
    (s : State) → (labels : List Label) → Decidable (Along next P s labels)
  | _, [] => .isTrue trivial
  | s, l :: rest =>
      match hNext : next s l with
      | none => decidable_of_iff (P s l) (by simp [Along, hNext])
      | some m =>
          have := decidableAlong P m rest
          decidable_of_iff (P s l ∧ Along next P m rest) (by simp [Along, hNext])

/-- What the steps that meet the condition preserve, a run of such steps preserves. -/
theorem run_invariant_along {Inv : State → Prop} {P : State → Label → Prop}
    (hStep : ∀ s l s', Inv s → P s l → next s l = some s' → Inv s') {s t : State}
    {labels : List Label} (hRun : run next s labels = some t) (hAlong : Along next P s labels)
    (hInv : Inv s) : Inv t := by
  induction labels generalizing s with
  | nil =>
      cases hRun
      exact hInv
  | cons l rest ih =>
      obtain ⟨m, hNext, hRest⟩ := (run_cons_eq_some next).mp hRun
      exact ih hRest (hAlong.2 m hNext) (hStep s l m hInv hAlong.1 hNext)

/-- A condition on the steps implies another wherever an invariant holds. -/
theorem Along.mono {Inv : State → Prop} {P Q : State → Label → Prop}
    (hStep : ∀ s l s', Inv s → next s l = some s' → Inv s')
    (hImp : ∀ s l, Inv s → P s l → Q s l) {s : State} {labels : List Label} (hInv : Inv s)
    (hAlong : Along next P s labels) : Along next Q s labels := by
  induction labels generalizing s with
  | nil => trivial
  | cons l rest ih =>
      exact ⟨hImp s l hInv hAlong.1, fun m hNext => ih (hStep s l m hInv hNext) (hAlong.2 m hNext)⟩

theorem along_append {P : State → Label → Prop} {s : State} {first second : List Label} :
    Along next P s (first ++ second) ↔
      Along next P s first ∧ ∀ m, run next s first = some m → Along next P m second := by
  induction first generalizing s with
  | nil => simp [Along, run]
  | cons l first ih =>
      simp only [List.cons_append, Along, ih, run_cons_eq_some, forall_and, and_assoc,
        forall_exists_index, and_imp]
      refine and_congr_right fun _ => and_congr_right fun _ => ?_
      exact ⟨fun h t m hNext hRun => h m hNext t hRun, fun h m hNext t hRun => h t m hNext hRun⟩

theorem along_congr {P Q : State → Label → Prop} (h : ∀ s l, P s l ↔ Q s l) {s : State}
    {labels : List Label} : Along next P s labels ↔ Along next Q s labels := by
  have hEq : P = Q := funext₂ fun s l => propext (h s l)
  rw [hEq]

/-- As `Along`, for a condition that also looks at the labels taken before. -/
def AlongHistory (P : List Label → State → Label → Prop) : List Label → State → List Label → Prop
  | _, _, [] => True
  | past, s, l :: rest =>
      P past s l ∧ ∀ s', next s l = some s' → AlongHistory P (past ++ [l]) s' rest

/-- A condition on the steps implies another where an invariant holds that it keeps. -/
theorem AlongHistory.mono {Inv : List Label → State → Prop}
    {P Q : List Label → State → Label → Prop}
    (hStep : ∀ past s l s', Inv past s → P past s l → next s l = some s' → Inv (past ++ [l]) s')
    (hImp : ∀ past s l, Inv past s → P past s l → Q past s l) {past : List Label} {s : State}
    {labels : List Label} (hInv : Inv past s) (hAlong : AlongHistory next P past s labels) :
    AlongHistory next Q past s labels := by
  induction labels generalizing past s with
  | nil => trivial
  | cons l rest ih =>
      refine ⟨hImp past s l hInv hAlong.1, fun m hNext => ?_⟩
      exact ih (hStep past s l m hInv hAlong.1 hNext) (hAlong.2 m hNext)

/-- Every state of the run is safe, the first and the last one included. -/
def Throughout (Safe : State → Prop) : State → List Label → Prop
  | s, [] => Safe s
  | s, l :: rest => Safe s ∧ ∀ s', next s l = some s' → Throughout Safe s' rest

theorem Throughout.head {Safe : State → Prop} {s : State} {labels : List Label}
    (h : Throughout next Safe s labels) : Safe s := by
  cases labels with
  | nil => exact h
  | cons l rest => exact h.1

theorem Throughout.mono {Safe Weaker : State → Prop} (hImp : ∀ s, Safe s → Weaker s) {s : State}
    {labels : List Label} (h : Throughout next Safe s labels) : Throughout next Weaker s labels := by
  induction labels generalizing s with
  | nil => exact hImp s h
  | cons l rest ih => exact ⟨hImp s h.1, fun m hNext => ih (h.2 m hNext)⟩

/-- Safety is kept along a run whose steps all meet a condition that keeps it. -/
theorem throughout_of_along {Safe : State → Prop} {P : State → Label → Prop}
    (hStep : ∀ s l s', Safe s → P s l → next s l = some s' → Safe s')
    {s : State} {labels : List Label} (hAlong : Along next P s labels) (hSafe : Safe s) :
    Throughout next Safe s labels := by
  induction labels generalizing s with
  | nil => exact hSafe
  | cons l rest ih =>
      exact ⟨hSafe, fun m hNext => ih (hAlong.2 m hNext) (hStep s l m hSafe hAlong.1 hNext)⟩

/-- Where the condition is also necessary at each step from a safe state, the
run is safe throughout only if all its steps meet it. -/
theorem along_of_throughout {Inv Safe : State → Prop} {P : State → Label → Prop}
    (hInvariant : ∀ s l s', Inv s → next s l = some s' → Inv s')
    (hStep : ∀ s l s', Inv s → Safe s → next s l = some s' → Safe s' → P s l)
    {s t : State} {labels : List Label} (hRun : run next s labels = some t) (hInv : Inv s)
    (hSafe : Throughout next Safe s labels) : Along next P s labels := by
  induction labels generalizing s with
  | nil => trivial
  | cons l rest ih =>
      obtain ⟨m, hNext, hRest⟩ := (run_cons_eq_some next).mp hRun
      have hTail := hSafe.2 m hNext
      refine ⟨hStep s l m hInv hSafe.1 hNext hTail.head, fun m' hNext' => ?_⟩
      obtain rfl := Option.some.inj (hNext.symm.trans hNext')
      exact ih hRest (hInvariant s l m hInv hNext) hTail

/-- A condition that decides at each step from a safe state whether the next one
is safe decides it for the run. -/
theorem throughout_iff_along {Safe : State → Prop} {P : State → Label → Prop}
    (hStep : ∀ s l s', Safe s → next s l = some s' → (Safe s' ↔ P s l))
    {s : State} {labels : List Label} (hSome : (run next s labels).isSome) (hSafe : Safe s) :
    Throughout next Safe s labels ↔ Along next P s labels := by
  obtain ⟨t, hRun⟩ := Option.isSome_iff_exists.mp hSome
  constructor
  · refine along_of_throughout next (fun _ _ _ _ _ => trivial) ?_ hRun trivial
    exact fun _ _ _ _ hNow hNext hAfter => (hStep _ _ _ hNow hNext).mp hAfter
  · intro hAlong
    refine throughout_of_along next ?_ hAlong hSafe
    exact fun _ _ _ hNow hHolds hNext => (hStep _ _ _ hNow hNext).mpr hHolds

/-- Where each step ends in a property exactly if it starts in it and meets a condition,
a run ends in it exactly if it starts in it and all its steps meet the condition. -/
theorem final_iff_along {Inv Safe : State → Prop} {P Q : State → Label → Prop}
    (hInvariant : ∀ s l s', Inv s → Q s l → next s l = some s' → Inv s')
    (hStep : ∀ s l s', Inv s → Q s l → next s l = some s' → (Safe s' ↔ Safe s ∧ P s l))
    {s t : State} {labels : List Label} (hRun : run next s labels = some t)
    (hAlong : Along next Q s labels) (hInv : Inv s) : Safe t ↔ Safe s ∧ Along next P s labels := by
  induction labels generalizing s with
  | nil =>
      cases hRun
      exact (and_iff_left trivial).symm
  | cons l rest ih =>
      obtain ⟨m, hNext, hRest⟩ := (run_cons_eq_some next).mp hRun
      have hTail : (∀ s', next s l = some s' → Along next P s' rest) ↔ Along next P m rest :=
        ⟨fun h => h m hNext, fun h s' hNext' => Option.some.inj (hNext.symm.trans hNext') ▸ h⟩
      rw [ih hRest (hAlong.2 m hNext) (hInvariant s l m hInv hAlong.1 hNext),
        hStep s l m hInv hAlong.1 hNext, Along, hTail, and_assoc]

/-- What the steps of a run give out, in order. -/
def emitted {Out : Type*} (emit : State → State → List Out) : State → List Label → List Out
  | _, [] => []
  | s, l :: rest =>
      match next s l with
      | some s' => emit s s' ++ emitted emit s' rest
      | none => []

theorem emitted_cons_of_next {Out : Type*} (emit : State → State → List Out) {s s' : State}
    {l : Label} (hNext : next s l = some s') (rest : List Label) :
    emitted next emit s (l :: rest) = emit s s' ++ emitted next emit s' rest := by
  simp only [emitted, hNext]

/-- If a step gives out only what has not been seen yet and what it gives out is
seen from then on, nothing is given out twice. -/
theorem emitted_nodup {Out : Type*} {emit : State → State → List Out} {Inv : State → Prop}
    {Seen : State → Out → Prop}
    (hStep : ∀ s l s', Inv s → next s l = some s' →
      Inv s' ∧ (emit s s').Nodup ∧ (∀ out ∈ emit s s', ¬Seen s out ∧ Seen s' out) ∧
        ∀ out, Seen s out → Seen s' out)
    {s t : State} {labels : List Label} (hRun : run next s labels = some t) (hInv : Inv s) :
    (emitted next emit s labels).Nodup ∧ ∀ out ∈ emitted next emit s labels, ¬Seen s out := by
  induction labels generalizing s with
  | nil => exact ⟨List.nodup_nil, fun _ hMem => absurd hMem List.not_mem_nil⟩
  | cons l rest ih =>
      obtain ⟨m, hNext, hRest⟩ := (run_cons_eq_some next).mp hRun
      obtain ⟨hInv', hNodup, hNew, hMono⟩ := hStep s l m hInv hNext
      obtain ⟨hTail, hUnseen⟩ := ih hRest hInv'
      rw [emitted_cons_of_next next emit hNext]
      constructor
      · refine List.nodup_append.mpr ⟨hNodup, hTail, fun out hNow other hLater hEq => ?_⟩
        exact hUnseen other hLater (hEq ▸ (hNew out hNow).2)
      · intro out hMem
        rcases List.mem_append.mp hMem with hNow | hLater
        · exact (hNew out hNow).1
        · exact fun hSeen => hUnseen out hLater (hMono out hSeen)

end Transition
