import CICJudging.Library.ReadModifyWrite

/-! Parts of a store, seen through a view, and the threads that have a say in them. -/
namespace ReadModifyWrite

open Transition

variable {ι σ Value : Type*} (view : σ → Value)

/-- The operation leaves the view as it is, whatever its block has read. -/
def Op.Leaves : Op σ → Prop
  | .update f => ∀ s, view (f s) = view s
  | .block compute => ∀ seen s f, compute seen = some f → view (f s) = view s

/-- The operation leaves the view as it is, or puts back what its block has read. -/
def Op.Restores : Op σ → Prop
  | .update f => ∀ s, view (f s) = view s
  | .block compute => ∀ seen s f, compute seen = some f → view (f s) = view seen

/-- The operation reads nothing, and what it does to the view depends on the view. -/
def Op.Through : Op σ → Prop
  | .update f => ∀ s t, view s = view t → view (f s) = view (f t)
  | .block _ => False

variable {view} [DecidableEq ι]

variable (view) in
/-- The view had this value at the start or right after a step of an owner. -/
def ShownByOwner (start : Config ι σ) (own : ι → Prop) (schedule : List ι) (value : Value) : Prop :=
  ∃ past, past <+: schedule ∧ (past = [] ∨ ∃ i, past.getLast? = some i ∧ own i) ∧
    ∃ c, exec start past = some c ∧ view c.store = value

theorem ShownByOwner.mono {start : Config ι σ} {own : ι → Prop} {schedule : List ι} {value : Value}
    (h : ShownByOwner view start own schedule value) (more : List ι) :
    ShownByOwner view start own (schedule ++ more) value := by
  obtain ⟨past, hPrefix, hLast, hShown⟩ := h
  exact ⟨past, hPrefix.trans (List.prefix_append ..), hLast, hShown⟩

/-- The store, and every snapshot still to be written back, shows what an owner left. -/
structure FromOwners (view : σ → Value) (start : Config ι σ) (own : ι → Prop) (past : List ι)
    (c : Config ι σ) : Prop where
  reached : exec start past = some c
  store : ShownByOwner view start own past (view c.store)
  held : ∀ i v, (c.threads i).held = some v → ShownByOwner view start own past (view v)
  others : ∀ i, ¬own i → ∀ op ∈ (c.threads i).todo, op.Restores view

private theorem FromOwners.set {start c : Config ι σ} {own : ι → Prop} {past : List ι}
    (h : FromOwners view start own past c) {i : ι} {store : σ} {thread : Thread σ}
    (hReached : exec start (past ++ [i]) = some (c.set store i thread))
    (hStore : ¬own i → ShownByOwner view start own (past ++ [i]) (view store))
    (hHeld : ∀ v, thread.held = some v → ShownByOwner view start own (past ++ [i]) (view v))
    (hTodo : ∀ op ∈ thread.todo, op ∈ (c.threads i).todo) :
    FromOwners view start own (past ++ [i]) (c.set store i thread) := by
  constructor
  case reached => exact hReached
  case store =>
    by_cases hOwn : own i
    · exact ⟨_, List.prefix_rfl, Or.inr ⟨i, by simp, hOwn⟩, _, hReached, rfl⟩
    · exact hStore hOwn
  case held =>
    exact Config.forall_set (fun _ thread => ∀ v, thread.held = some v →
      ShownByOwner view start own (past ++ [i]) (view v)) store hHeld
        fun k _ v hv => (h.held k v hv).mono [i]
  case others =>
    exact Config.forall_set (fun k thread => ¬own k → ∀ op ∈ thread.todo, op.Restores view) store
      (fun hOwn op hop => h.others i hOwn op (hTodo op hop)) fun k _ => h.others k

theorem FromOwners.step {start c d : Config ι σ} {own : ι → Prop} {past : List ι} {i : ι}
    (h : FromOwners view start own past c) (hStep : step c i = some d) :
    FromOwners view start own (past ++ [i]) d := by
  have hReached : exec start (past ++ [i]) = some d :=
    (run_append_eq_some _).mpr ⟨c, h.reached, by simp [run, hStep]⟩
  rcases step_cases hStep with ⟨held, f, rest, hThread, rfl⟩ | ⟨compute, rest, hThread, rfl⟩ |
    ⟨seen, compute, rest, f, hThread, hf, rfl⟩
  · refine h.set hReached (fun hOwn => ?_) (by simp) (by simp +contextual [hThread])
    have hUpdate := h.others i hOwn (.update f) (by simp [hThread])
    exact hUpdate c.store ▸ h.store.mono [i]
  · exact h.set hReached (fun _ => h.store.mono [i])
      (fun v hv => Option.some.inj hv ▸ h.store.mono [i]) (by simp [hThread])
  · refine h.set hReached (fun hOwn => ?_) (by simp) (by simp +contextual [hThread])
    have hBlock := h.others i hOwn (.block compute) (by simp [hThread])
    exact hBlock seen c.store f hf ▸ (h.held i seen (by simp [hThread])).mono [i]

/-- If everyone but the owners only puts back what was read, then in every
interleaving the view has a value that it had at the start or that an owner left. -/
theorem exec_restores {store : σ} {programs : ι → List (Op σ)} {own : ι → Prop}
    (hOthers : ∀ i, ¬own i → ∀ op ∈ programs i, op.Restores view) {schedule : List ι}
    {c : Config ι σ} (hRun : exec (Config.start store programs) schedule = some c) :
    ShownByOwner view (Config.start store programs) own schedule (view c.store) := by
  have hStart : FromOwners view (Config.start store programs) own []
      (Config.start store programs) := by
    refine ⟨rfl, ⟨[], List.prefix_rfl, Or.inl rfl, _, rfl, rfl⟩, fun i v hv => ?_, hOthers⟩
    simp [Config.start] at hv
  exact (run_history step (fun _ _ _ _ h hStep => h.step hStep) hRun hStart).store

/-- The same view, and the same threads but for the quiet ones. -/
structure AgreeBut (view : σ → Value) (quiet : ι → Bool) (c c' : Config ι σ) : Prop where
  store : view c.store = view c'.store
  threads : ∀ i, quiet i = false → c.threads i = c'.threads i

section Quiet

variable {quiet : ι → Bool} {c d c' : Config ι σ} {i : ι}

/-- A quiet thread takes a step that the other run does without. -/
theorem AgreeBut.step_quiet (h : AgreeBut view quiet c c') (hStep : step c i = some d)
    (hCase : quiet i = true) (hQuiet : ∀ op ∈ (c.threads i).todo, op.Leaves view) :
    AgreeBut view quiet d c' := by
  have hOthers : ∀ store thread k, quiet k = false →
      (c.set store i thread).threads k = c'.threads k := by
    intro store thread k hk
    have hne : k ≠ i := fun hEq => by rw [hEq, hCase] at hk; cases hk
    rw [c.set_threads_of_ne store hne, h.threads k hk]
  rcases step_cases hStep with ⟨held, f, rest, hThread, rfl⟩ | ⟨compute, rest, _, rfl⟩ |
    ⟨seen, compute, rest, f, hThread, hf, rfl⟩
  · have hLeaves := hQuiet (.update f) (by simp [hThread])
    exact ⟨(hLeaves c.store).trans h.store, hOthers _ _⟩
  · exact ⟨h.store, hOthers _ _⟩
  · have hLeaves := hQuiet (.block compute) (by simp [hThread])
    exact ⟨(hLeaves seen c.store f hf).trans h.store, hOthers _ _⟩

/-- The other run follows a thread that is not quiet. -/
theorem AgreeBut.step_loud (h : AgreeBut view quiet c c') (hStep : step c i = some d)
    (hCase : quiet i = false) (hLoud : ∀ op ∈ (c.threads i).todo, op.Through view) :
    ∃ d', step c' i = some d' ∧ AgreeBut view quiet d d' := by
  have hNoBlock : ∀ compute, Op.block compute ∉ (c.threads i).todo :=
    fun compute hMem => hLoud _ hMem
  rcases step_cases hStep with ⟨held, f, rest, hThread, rfl⟩ | ⟨compute, rest, hThread, rfl⟩ |
    ⟨seen, compute, rest, f, hThread, hf, rfl⟩
  · have hThrough := hLoud (.update f) (by simp [hThread])
    refine ⟨c'.set (f c'.store) i ⟨none, rest⟩, ?_, hThrough _ _ h.store, ?_⟩
    · simp [step, ← h.threads i hCase, hThread]
    · intro k hk
      by_cases hne : k = i
      · rw [hne, Config.set_threads_self, Config.set_threads_self]
      · rw [c.set_threads_of_ne _ hne, c'.set_threads_of_ne _ hne, h.threads k hk]
  · exact absurd (by simp [hThread]) (hNoBlock compute)
  · exact absurd (by simp [hThread]) (hNoBlock compute)

end Quiet

/-- Without the threads that leave the view alone, the others take the same steps and
leave the same view. -/
theorem exec_without {quiet : ι → Bool} {c d c' : Config ι σ} {schedule : List ι}
    (hRun : exec c schedule = some d) (h : AgreeBut view quiet c c')
    (hQuiet : ∀ i, quiet i = true → ∀ op ∈ (c.threads i).todo, op.Leaves view)
    (hLoud : ∀ i, quiet i = false → ∀ op ∈ (c.threads i).todo, op.Through view) :
    ∃ d', exec c' (schedule.filter fun i => !quiet i) = some d' ∧ AgreeBut view quiet d d' := by
  induction schedule generalizing c c' with
  | nil =>
      cases hRun
      exact ⟨c', rfl, h⟩
  | cons i rest ih =>
      obtain ⟨m, hStep, hRest⟩ := (run_cons_eq_some step).mp hRun
      have hQuiet' : ∀ k, quiet k = true → ∀ op ∈ (m.threads k).todo, op.Leaves view :=
        fun k hk op hop => hQuiet k hk op (step_todo_subset hStep k op hop)
      have hLoud' : ∀ k, quiet k = false → ∀ op ∈ (m.threads k).todo, op.Through view :=
        fun k hk op hop => hLoud k hk op (step_todo_subset hStep k op hop)
      cases hCase : quiet i with
      | true =>
          rw [List.filter_cons_of_neg (by simp [hCase])]
          exact ih hRest (h.step_quiet hStep hCase (hQuiet i hCase)) hQuiet' hLoud'
      | false =>
          rw [List.filter_cons_of_pos (by simp [hCase])]
          obtain ⟨m', hStep', hAgree⟩ := h.step_loud hStep hCase (hLoud i hCase)
          obtain ⟨d', hRun', hResult⟩ := ih hRest hAgree hQuiet' hLoud'
          exact ⟨d', (run_cons_eq_some step).mpr ⟨m', hStep', hRun'⟩, hResult⟩

/-- The operation keeps the fact, whatever its block has read. -/
def Op.Stable (fact : σ → Prop) : Op σ → Prop
  | .update f => ∀ s, fact s → fact (f s)
  | .block compute => ∀ seen s f, compute seen = some f → fact s → fact (f s)

theorem Op.Leaves.stable {op : Op σ} {fact : σ → Prop} (h : op.Leaves view)
    (hFact : ∀ s t, view t = view s → fact s → fact t) : op.Stable fact := by
  cases op with
  | update f => exact fun s => hFact s (f s) (h s)
  | block compute => exact fun seen s f hf => hFact s (f s) (h seen s f hf)

/-- The update is still to come, or the fact that it establishes holds. -/
def Config.Established (i : ι) (f : σ → σ) (later : List (Op σ)) (fact : σ → Prop)
    (c : Config ι σ) : Prop :=
  (∃ before, (c.threads i).todo = before ++ .update f :: later) ∨
    ((c.threads i).todo.length ≤ later.length ∧ fact c.store)

/-- One operation of the thread gone, with the fact kept or just established. -/
private theorem Config.Established.advance {c : Config ι σ} {i : ι} {f : σ → σ}
    {later rest : List (Op σ)} {fact : σ → Prop} {op : Op σ} {store : σ}
    (h : c.Established i f later fact) (hTodo : (c.threads i).todo = op :: rest)
    (hFact : fact c.store ∨ op = .update f → fact store) :
    (c.set store i ⟨none, rest⟩).Established i f later fact := by
  rcases h with ⟨before, hBefore⟩ | ⟨hLength, hHolds⟩
  · rw [hTodo] at hBefore
    cases before with
    | nil =>
        obtain ⟨hOp, hRest⟩ := List.cons.inj hBefore
        exact Or.inr ⟨by simp [hRest], hFact (Or.inr hOp)⟩
    | cons first before =>
        exact Or.inl ⟨before, by simpa using (List.cons.inj hBefore).2⟩
  · rw [hTodo, List.length_cons] at hLength
    refine Or.inr ⟨?_, hFact (Or.inl hHolds)⟩
    rw [set_threads_self]
    exact Nat.le_of_succ_le hLength

private theorem Config.Established.other {c : Config ι σ} {i k : ι} {f : σ → σ}
    {later : List (Op σ)} {fact : σ → Prop} {store : σ} (hne : i ≠ k) (thread : Thread σ)
    (h : c.Established i f later fact) (hFact : fact c.store → fact store) :
    (c.set store k thread).Established i f later fact := by
  rw [Config.Established, set_threads_of_ne _ _ hne]
  exact h.imp_right fun ⟨hLength, hHolds⟩ => ⟨hLength, hFact hHolds⟩

theorem Config.Established.step {c d : Config ι σ} {i k : ι} {f : σ → σ} {later : List (Op σ)}
    {fact : σ → Prop} (hStable : ∀ op ∈ (c.threads k).todo, op.Stable fact)
    (hUpdate : ∀ s, fact (f s)) (h : c.Established i f later fact) (hStep : step c k = some d) :
    d.Established i f later fact := by
  rcases step_cases hStep with ⟨held, g, rest, hThread, rfl⟩ | ⟨compute, rest, hThread, rfl⟩ |
    ⟨seen, compute, rest, g, hThread, hg, rfl⟩
  · have hKeep : fact c.store → fact (g c.store) := hStable (.update g) (by simp [hThread]) c.store
    by_cases hk : i = k
    · subst hk
      have hTodo : (c.threads i).todo = .update g :: rest := by rw [hThread]
      refine h.advance hTodo fun hCase => hCase.elim hKeep fun hOp => ?_
      cases hOp
      exact hUpdate c.store
    · exact h.other hk _ hKeep
  · by_cases hk : i = k
    · subst hk
      simpa [Config.Established, hThread] using h
    · exact h.other hk _ id
  · have hKeep : fact c.store → fact (g c.store) :=
      hStable (.block compute) (by simp [hThread]) seen c.store g hg
    by_cases hk : i = k
    · subst hk
      have hTodo : (c.threads i).todo = .block compute :: rest := by rw [hThread]
      exact h.advance hTodo fun hCase => hCase.elim hKeep nofun
    · exact h.other hk _ hKeep

/-- In every interleaving, what an update establishes and every operation keeps
holds once the update is no longer to come. -/
theorem exec_established {store : σ} {programs : ι → List (Op σ)} {i : ι} {f : σ → σ}
    {before later : List (Op σ)} {fact : σ → Prop}
    (hProgram : programs i = before ++ .update f :: later) (hUpdate : ∀ s, fact (f s))
    (hStable : ∀ k, ∀ op ∈ programs k, op.Stable fact) {schedule : List ι} {c : Config ι σ}
    (hRun : exec (Config.start store programs) schedule = some c)
    (hDone : (c.threads i).todo.length ≤ later.length) : fact c.store := by
  have hStep : ∀ (c : Config ι σ) k d,
      (c.Established i f later fact ∧ ∀ k, ∀ op ∈ (c.threads k).todo, op.Stable fact) →
      step c k = some d →
      (d.Established i f later fact ∧ ∀ k, ∀ op ∈ (d.threads k).todo, op.Stable fact) := by
    rintro c k d ⟨hEstablished, hTodo⟩ hStep
    exact ⟨hEstablished.step (hTodo k) hUpdate hStep,
      fun k op hop => hTodo k op (step_todo_subset hStep k op hop)⟩
  rcases (run_invariant step hStep hRun ⟨Or.inl ⟨before, hProgram⟩, hStable⟩).1 with ⟨before, hBefore⟩ | ⟨_, hFact⟩
  · rw [hBefore, List.length_append, List.length_cons] at hDone
    omega
  · exact hFact

end ReadModifyWrite
