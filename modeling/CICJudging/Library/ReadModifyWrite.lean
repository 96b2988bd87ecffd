import CICJudging.Library.Transition
import Mathlib.Logic.Function.Basic
import Mathlib.Data.List.Sublists
import Mathlib.Data.Fintype.Basic

/-! Programs over one shared store whose operations are atomic updates or
read-modify-write blocks. A block reads the whole store in one step and writes
in a later step of its own; what it writes depends on what it read, however
old that has become. No lock and no transaction is part of the semantics. -/
namespace ReadModifyWrite

open Transition

variable {ι σ : Type*}

/-- A block that does not return on the store it read is `none` and writes
nothing. What it writes may touch only a part of the current store. -/
inductive Op (σ : Type*) where
  | update (f : σ → σ)
  | block (compute : σ → Option (σ → σ))

/-- The operation executed alone, with no step of another thread inside it. -/
def Op.apply : Op σ → σ → Option σ
  | .update f, s => some (f s)
  | .block compute, s => (compute s).map fun f => f s

def runOps : List (Op σ) → σ → Option σ
  | [], s => some s
  | op :: rest, s => (op.apply s).bind (runOps rest)

theorem runOps_append (first second : List (Op σ)) (s : σ) :
    runOps (first ++ second) s = (runOps first s).bind (runOps second) := by
  induction first generalizing s with
  | nil => rfl
  | cons op first ih =>
      simp only [List.cons_append, runOps, Option.bind_assoc]
      exact congrArg _ (funext ih)

theorem runOps_cons_eq_some {op : Op σ} {rest : List (Op σ)} {s t : σ} :
    runOps (op :: rest) s = some t ↔ ∃ m, op.apply s = some m ∧ runOps rest m = some t := by
  simp [runOps, Option.bind_eq_some_iff]

/-- The operations in order, up to the first that does not return, and whether
all of them did. -/
def runUntilHalt : List (Op σ) → σ → σ × Bool
  | [], s => (s, true)
  | op :: rest, s =>
      match op.apply s with
      | some t => runUntilHalt rest t
      | none => (s, false)

theorem runUntilHalt_cons_of_apply {op : Op σ} {s t : σ} (h : op.apply s = some t)
    (rest : List (Op σ)) : runUntilHalt (op :: rest) s = runUntilHalt rest t := by
  simp only [runUntilHalt, h]

/-- `held` is the store as the current block read it, from its read step to
its write step. -/
structure Thread (σ : Type*) where
  held : Option σ
  todo : List (Op σ)

structure Config (ι σ : Type*) where
  store : σ
  threads : ι → Thread σ

def Config.start (store : σ) (programs : ι → List (Op σ)) : Config ι σ :=
  ⟨store, fun i => ⟨none, programs i⟩⟩

def Config.Done (c : Config ι σ) : Prop := ∀ i, c.threads i = ⟨none, []⟩

theorem Config.done_iff {c : Config ι σ} :
    c.Done ↔ ∀ i, (c.threads i).held.isNone = true ∧ (c.threads i).todo.isEmpty = true := by
  refine forall_congr' fun i => ?_
  obtain ⟨held, todo⟩ := c.threads i
  simp

instance [Fintype ι] (c : Config ι σ) : Decidable c.Done :=
  decidable_of_iff _ Config.done_iff.symm

variable [DecidableEq ι]

def Config.set (c : Config ι σ) (store : σ) (i : ι) (thread : Thread σ) : Config ι σ :=
  ⟨store, Function.update c.threads i thread⟩

@[simp] theorem Config.set_store (c : Config ι σ) (store : σ) (i : ι) (thread : Thread σ) :
    (c.set store i thread).store = store := rfl

@[simp] theorem Config.set_threads_self (c : Config ι σ) (store : σ) (i : ι) (thread : Thread σ) :
    (c.set store i thread).threads i = thread := Function.update_self ..

theorem Config.set_threads_of_ne (c : Config ι σ) (store : σ) {i k : ι} (hne : k ≠ i)
    (thread : Thread σ) : (c.set store i thread).threads k = c.threads k :=
  Function.update_of_ne hne ..

/-- What holds of the new thread and of all others holds of every thread. -/
theorem Config.forall_set (p : ι → Thread σ → Prop) {c : Config ι σ} (store : σ) {i : ι}
    {thread : Thread σ} (hNew : p i thread) (hOld : ∀ k, k ≠ i → p k (c.threads k)) (k : ι) :
    p k ((c.set store i thread).threads k) :=
  (Function.forall_update_iff c.threads p).mpr ⟨hNew, hOld⟩ k

/-- One step of thread `i`: an update, the read of a block, or its write. -/
def step (c : Config ι σ) (i : ι) : Option (Config ι σ) :=
  match c.threads i with
  | ⟨_, []⟩ => none
  | ⟨_, .update f :: rest⟩ => some (c.set (f c.store) i ⟨none, rest⟩)
  | ⟨none, .block compute :: rest⟩ => some (c.set c.store i ⟨some c.store, .block compute :: rest⟩)
  | ⟨some seen, .block compute :: rest⟩ =>
      (compute seen).map fun f => c.set (f c.store) i ⟨none, rest⟩

/-- Every interleaving is a list of thread names, each entry one step. -/
abbrev exec : Config ι σ → List ι → Option (Config ι σ) := run step

/-- Thread `i` runs its next operation from its read to its write at once. -/
def serialStep (c : Config ι σ) (i : ι) : Option (Config ι σ) :=
  match (c.threads i).todo with
  | [] => none
  | op :: rest => (op.apply c.store).map fun s => c.set s i ⟨none, rest⟩

abbrev execSerial : Config ι σ → List ι → Option (Config ι σ) := run serialStep

/-- The three things a step can be: it changes the store by the next update,
takes a snapshot for the next block, or writes what the block computed. -/
theorem step_cases {c d : Config ι σ} {i : ι} (hStep : step c i = some d) :
    (∃ held f rest, c.threads i = ⟨held, .update f :: rest⟩ ∧ d = c.set (f c.store) i ⟨none, rest⟩) ∨
    (∃ compute rest, c.threads i = ⟨none, .block compute :: rest⟩ ∧
      d = c.set c.store i ⟨some c.store, .block compute :: rest⟩) ∨
    (∃ seen compute rest f, c.threads i = ⟨some seen, .block compute :: rest⟩ ∧
      compute seen = some f ∧ d = c.set (f c.store) i ⟨none, rest⟩) := by
  unfold step at hStep
  split at hStep
  · cases hStep
  · next held f rest hThread => exact Or.inl ⟨held, f, rest, hThread, (Option.some.inj hStep).symm⟩
  · next compute rest hThread =>
      exact Or.inr (Or.inl ⟨compute, rest, hThread, (Option.some.inj hStep).symm⟩)
  · next seen compute rest hThread =>
      obtain ⟨f, hf, rfl⟩ := Option.map_eq_some_iff.mp hStep
      exact Or.inr (Or.inr ⟨seen, compute, rest, f, hThread, hf, rfl⟩)

theorem step_todo_subset {c d : Config ι σ} {i : ι} (hStep : step c i = some d) :
    ∀ k, ∀ op ∈ (d.threads k).todo, op ∈ (c.threads k).todo := by
  have hSet : ∀ store thread, (∀ op ∈ thread.todo, op ∈ (c.threads i).todo) →
      ∀ k, ∀ op ∈ ((c.set store i thread).threads k).todo, op ∈ (c.threads k).todo :=
    fun store thread hTodo => Config.forall_set
      (fun k thread => ∀ op ∈ thread.todo, op ∈ (c.threads k).todo) store hTodo fun _ _ _ hop => hop
  rcases step_cases hStep with ⟨held, f, rest, hThread, rfl⟩ | ⟨compute, rest, hThread, rfl⟩ |
    ⟨seen, compute, rest, f, hThread, hf, rfl⟩
  · exact hSet _ _ (by simp +contextual [hThread])
  · exact hSet _ _ (by simp [hThread])
  · exact hSet _ _ (by simp +contextual [hThread])

/-- The operation that takes effect in this step. The read of a block has no
effect on the store. -/
def effect (c : Config ι σ) (i : ι) : Option (Op σ) :=
  match c.threads i with
  | ⟨_, .update f :: _⟩ => some (.update f)
  | ⟨some _, .block compute :: _⟩ => some (.block compute)
  | _ => none

/-- The operations in the order in which they took effect, with their threads. -/
def effects : Config ι σ → List ι → List (ι × Op σ)
  | _, [] => []
  | c, i :: rest =>
      ((effect c i).map fun op => (i, op)).toList ++ ((step c i).map fun d => effects d rest).getD []

/-- No operation takes effect while a block of another thread is between its
read and its write. -/
def Undisturbed : Config ι σ → List ι → Prop :=
  Along step fun c i => (effect c i).isSome → ∀ k, k ≠ i → (c.threads k).held = none

theorem effects_cons_of_step {c d : Config ι σ} {i : ι} (hStep : step c i = some d)
    (rest : List ι) :
    effects c (i :: rest) =
      ((effect c i).map fun op => (i, op)).toList ++ effects d rest := by
  simp [effects, hStep]

/-- The operation keeps the invariant even when its block read an older store,
provided that the older store satisfied the invariant too. -/
def Op.Preserves (Inv : σ → Prop) : Op σ → Prop
  | .update f => ∀ s, Inv s → Inv (f s)
  | .block compute => ∀ seen s f, Inv seen → Inv s → compute seen = some f → Inv (f s)

/-- The store, everything read and not yet written back, and all that is still
to run respect the invariant. -/
structure Config.Keeps (Inv : σ → Prop) (c : Config ι σ) : Prop where
  store : Inv c.store
  held : ∀ i v, (c.threads i).held = some v → Inv v
  todo : ∀ i, ∀ op ∈ (c.threads i).todo, op.Preserves Inv

omit [DecidableEq ι] in
theorem Config.Keeps.start {Inv : σ → Prop} {store : σ} {programs : ι → List (Op σ)}
    (hStore : Inv store) (hPrograms : ∀ i, ∀ op ∈ programs i, op.Preserves Inv) :
    (Config.start store programs).Keeps Inv :=
  ⟨hStore, fun _ _ h => by simp [Config.start] at h, hPrograms⟩

private theorem Config.Keeps.set {Inv : σ → Prop} {c : Config ι σ} (hKeeps : c.Keeps Inv)
    {store : σ} (hStore : Inv store) (i : ι) (thread : Thread σ)
    (hHeld : ∀ v, thread.held = some v → Inv v)
    (hTodo : ∀ op ∈ thread.todo, op ∈ (c.threads i).todo) :
    (c.set store i thread).Keeps Inv := by
  refine ⟨hStore, ?_, ?_⟩
  · exact Config.forall_set (fun _ thread => ∀ v, thread.held = some v → Inv v) store hHeld
      fun k _ => hKeeps.held k
  · exact Config.forall_set (fun _ thread => ∀ op ∈ thread.todo, op.Preserves Inv) store
      (fun op hop => hKeeps.todo i op (hTodo op hop)) fun k _ => hKeeps.todo k

theorem Config.Keeps.step {Inv : σ → Prop} {c d : Config ι σ} {i : ι} (hKeeps : c.Keeps Inv)
    (hStep : step c i = some d) : d.Keeps Inv := by
  rcases step_cases hStep with ⟨held, f, rest, hThread, rfl⟩ | ⟨compute, rest, hThread, rfl⟩ |
    ⟨seen, compute, rest, f, hThread, hf, rfl⟩
  · have hUpdate := hKeeps.todo i (.update f) (by simp [hThread])
    exact hKeeps.set (hUpdate _ hKeeps.store) i _ (by simp) (by simp +contextual [hThread])
  · exact hKeeps.set hKeeps.store i _ (by simp [hKeeps.store]) (by simp [hThread])
  · have hSeen := hKeeps.held i seen (by simp [hThread])
    have hBlock := hKeeps.todo i (.block compute) (by simp [hThread])
    exact hKeeps.set (hBlock seen _ f hSeen hKeeps.store hf) i _ (by simp)
      (by simp +contextual [hThread])

/-- An invariant that each operation keeps from possibly stale reads holds of
the store in every interleaving. -/
theorem exec_invariant {Inv : σ → Prop} {c d : Config ι σ} {schedule : List ι}
    (hRun : exec c schedule = some d) (hKeeps : c.Keeps Inv) : d.Keeps Inv :=
  run_invariant step (fun _ _ _ h hStep => h.step hStep) hRun hKeeps

/-- Forget the reads in progress. -/
def Config.settle (c : Config ι σ) : Config ι σ :=
  ⟨c.store, fun i => ⟨none, (c.threads i).todo⟩⟩

omit [DecidableEq ι] in
@[simp] theorem Config.settle_store (c : Config ι σ) : c.settle.store = c.store := rfl

omit [DecidableEq ι] in
@[simp] theorem Config.settle_todo (c : Config ι σ) (i : ι) :
    (c.settle.threads i).todo = (c.threads i).todo := rfl

/-- Every read in progress still shows the current store. -/
def Config.Fresh (c : Config ι σ) : Prop := ∀ i v, (c.threads i).held = some v → v = c.store

omit [DecidableEq ι] in
theorem Config.settle_of_idle {c : Config ι σ} (hIdle : ∀ i, (c.threads i).held = none) :
    c.settle = c := by
  obtain ⟨store, threads⟩ := c
  simp only [Config.settle, Config.mk.injEq, true_and]
  funext i
  exact congrArg (Thread.mk · (threads i).todo) (hIdle i).symm

private theorem Config.settle_set (c : Config ι σ) (store : σ) (i : ι) (thread : Thread σ) :
    (c.set store i thread).settle = c.settle.set store i ⟨none, thread.todo⟩ := by
  simp only [Config.settle, Config.set, Config.mk.injEq, true_and]
  funext k
  by_cases hk : k = i
  · subst hk
    simp
  · simp [Function.update_of_ne hk]

private theorem Config.settle_read (c : Config ι σ) (i : ι) (v : Option σ) :
    (c.set c.store i ⟨v, (c.threads i).todo⟩).settle = c.settle := by
  rw [Config.settle_set]
  simp [Config.set, Config.settle]

/-- After an effect with no other block between its read and its write, there
is no read in progress at all. -/
private theorem Config.Fresh.of_write {c : Config ι σ} {i : ι} (store : σ) (rest : List (Op σ))
    (hOthers : ∀ k, k ≠ i → (c.threads k).held = none) : (c.set store i ⟨none, rest⟩).Fresh := by
  refine Config.forall_set (fun _ thread => ∀ v, thread.held = some v → v = store) store ?_ ?_
  · exact fun v hv => nomatch hv
  · intro k hk v hv
    rw [hOthers k hk] at hv
    cases hv

/-- A step of an undisturbed run is invisible in the settled configuration, or
is the next operation of its thread run alone. -/
theorem settle_step {c d : Config ι σ} {i : ι} (hStep : step c i = some d) (hFresh : c.Fresh)
    (hOthers : (effect c i).isSome → ∀ k, k ≠ i → (c.threads k).held = none) :
    d.Fresh ∧ ((effect c i = none ∧ d.settle = c.settle) ∨
      ((effect c i).isSome ∧ serialStep c.settle i = some d.settle)) := by
  rcases step_cases hStep with ⟨held, f, rest, hThread, rfl⟩ | ⟨compute, rest, hThread, rfl⟩ |
    ⟨seen, compute, rest, f, hThread, hf, rfl⟩
  · have hEffect : (effect c i).isSome := by simp [effect, hThread]
    refine ⟨Config.Fresh.of_write _ rest (hOthers hEffect), Or.inr ⟨hEffect, ?_⟩⟩
    simp [serialStep, Config.settle_set, hThread, Op.apply]
  · have hTodo : Op.block compute :: rest = (c.threads i).todo := by rw [hThread]
    refine ⟨?_, Or.inl ⟨by simp [effect, hThread], ?_⟩⟩
    · exact Config.forall_set (fun _ thread => ∀ v, thread.held = some v → v = c.store) c.store
        (fun v hv => (Option.some.inj hv).symm) fun k _ => hFresh k
    · rw [hTodo]
      exact c.settle_read i _
  · have hEffect : (effect c i).isSome := by simp [effect, hThread]
    have hSeen : seen = c.store := hFresh i seen (by simp [hThread])
    subst hSeen
    refine ⟨Config.Fresh.of_write _ rest (hOthers hEffect), Or.inr ⟨hEffect, ?_⟩⟩
    simp [serialStep, Config.settle_set, hThread, Op.apply, hf]

private theorem settle_exec {c d : Config ι σ} {schedule : List ι}
    (hRun : exec c schedule = some d) (hFresh : c.Fresh) (hUndisturbed : Undisturbed c schedule) :
    execSerial c.settle ((effects c schedule).map Prod.fst) = some d.settle := by
  induction schedule generalizing c with
  | nil =>
      cases hRun
      rfl
  | cons i rest ih =>
      obtain ⟨m, hStep, hRest⟩ := (run_cons_eq_some step).mp hRun
      obtain ⟨hFresh', hCase⟩ := settle_step hStep hFresh hUndisturbed.1
      have hTail := ih hRest hFresh' (hUndisturbed.2 m hStep)
      rw [effects_cons_of_step hStep]
      rcases hCase with ⟨hNone, hSame⟩ | ⟨hSome, hSerial⟩
      · rw [hSame] at hTail
        simpa [hNone] using hTail
      · obtain ⟨op, hOp⟩ := Option.isSome_iff_exists.mp hSome
        simp only [hOp, Option.map_some, Option.toList_some, List.cons_append, List.nil_append,
          List.map_cons]
        exact (run_cons_eq_some serialStep).mpr ⟨_, hSerial, hTail⟩

/-- If no effect falls inside another thread's block, running the operations
one at a time in the order of their effects ends in the same configuration. -/
theorem serial_of_undisturbed {c d : Config ι σ} {schedule : List ι}
    (hRun : exec c schedule = some d) (hIdle : ∀ i, (c.threads i).held = none) (hDone : d.Done)
    (hUndisturbed : Undisturbed c schedule) :
    execSerial c ((effects c schedule).map Prod.fst) = some d := by
  have hFresh : c.Fresh := fun i v hv => by simp [hIdle i] at hv
  have hSettled := settle_exec hRun hFresh hUndisturbed
  rwa [Config.settle_of_idle hIdle, Config.settle_of_idle fun i => by rw [hDone i]] at hSettled

/-- On stores of the invariant the block's write does not depend on the store
it lands on: it replaces whatever is there by what it computed. -/
def Op.Overwrites (Inv : σ → Prop) : Op σ → Prop
  | .update f => ∀ s, Inv s → Inv (f s)
  | .block compute =>
      ∀ seen s f, Inv seen → Inv s → compute seen = some f → Inv (f s) ∧ f s = f seen

theorem Op.Overwrites.preserves {Inv : σ → Prop} {op : Op σ} (h : op.Overwrites Inv) :
    op.Preserves Inv := by
  cases op with
  | update f => exact h
  | block compute => exact fun seen s f hSeen hs hf => (h seen s f hSeen hs hf).1

/-- The value comes from running some of the operations that took effect, one
at a time, in the order of their effects. -/
def Explained (origin : σ) (done : List (Op σ)) (s : σ) : Prop :=
  ∃ chain, chain.Sublist done ∧ runOps chain origin = some s

/-- As above, and the last operation that took effect is among them. -/
def ExplainedByLast (origin : σ) (done : List (Op σ)) (s : σ) : Prop :=
  ∃ chain, chain.Sublist done ∧ chain.getLast? = done.getLast? ∧ runOps chain origin = some s

theorem ExplainedByLast.explained {origin s : σ} {done : List (Op σ)}
    (h : ExplainedByLast origin done s) : Explained origin done s := by
  obtain ⟨chain, hSub, _, hChain⟩ := h
  exact ⟨chain, hSub, hChain⟩

theorem Explained.mono {origin s : σ} {done : List (Op σ)} (more : List (Op σ))
    (h : Explained origin done s) : Explained origin (done ++ more) s := by
  obtain ⟨chain, hSub, hChain⟩ := h
  exact ⟨chain, hSub.trans (List.sublist_append_left ..), hChain⟩

theorem Explained.snoc {origin s t : σ} {done : List (Op σ)} {op : Op σ}
    (h : Explained origin done s) (hOp : op.apply s = some t) :
    ExplainedByLast origin (done ++ [op]) t := by
  obtain ⟨chain, hSub, hChain⟩ := h
  refine ⟨chain ++ [op], hSub.append (List.Sublist.refl _), by simp, ?_⟩
  simp [runOps_append, hChain, runOps, hOp]

/-- The history of the store and the history of each snapshot, as far as the
operations done so far explain them. -/
structure Config.History (origin : σ) (done : List (Op σ)) (c : Config ι σ) : Prop where
  store : ExplainedByLast origin done c.store
  held : ∀ i v, (c.threads i).held = some v → Explained origin done v

private theorem Config.History.set {origin : σ} {done more : List (Op σ)} {c : Config ι σ}
    (hHistory : c.History origin done) {store : σ} {i : ι} {thread : Thread σ}
    (hStore : ExplainedByLast origin (done ++ more) store)
    (hHeld : ∀ v, thread.held = some v → Explained origin (done ++ more) v) :
    (c.set store i thread).History origin (done ++ more) := by
  refine ⟨hStore, Config.forall_set (fun _ thread => ∀ v, thread.held = some v →
    Explained origin (done ++ more) v) store hHeld ?_⟩
  exact fun k _ v hv => (hHistory.held k v hv).mono more

private theorem Config.History.step {Inv : σ → Prop} {origin : σ} {done : List (Op σ)}
    {c d : Config ι σ} {i : ι} (hHistory : c.History origin done) (hKeeps : c.Keeps Inv)
    (hOps : ∀ op ∈ (c.threads i).todo, op.Overwrites Inv) (hStep : step c i = some d) :
    d.History origin (done ++ (effect c i).toList) := by
  rcases step_cases hStep with ⟨held, f, rest, hThread, rfl⟩ | ⟨compute, rest, hThread, rfl⟩ |
    ⟨seen, compute, rest, f, hThread, hf, rfl⟩
  · have hEffect : effect c i = some (.update f) := by simp [effect, hThread]
    rw [hEffect]
    exact hHistory.set (hHistory.store.explained.snoc rfl) (by simp)
  · have hEffect : effect c i = none := by simp [effect, hThread]
    rw [hEffect]
    refine hHistory.set (by simpa using hHistory.store) fun v hv => ?_
    cases hv
    simpa using hHistory.store.explained
  · have hEffect : effect c i = some (.block compute) := by simp [effect, hThread]
    have hSeen : (c.threads i).held = some seen := by rw [hThread]
    have hOver := hOps (.block compute) (by simp [hThread]) seen c.store f
      (hKeeps.held i seen hSeen) hKeeps.store hf
    -- The write lands on the current store but equals what it would be on `seen`.
    rw [hEffect, hOver.2]
    exact hHistory.set ((hHistory.held i seen hSeen).snoc (by simp [Op.apply, hf])) (by simp)

private theorem exec_history {Inv : σ → Prop} {origin : σ} {done : List (Op σ)}
    {c d : Config ι σ} {schedule : List ι} (hRun : exec c schedule = some d)
    (hHistory : c.History origin done) (hKeeps : c.Keeps Inv)
    (hOps : ∀ i, ∀ op ∈ (c.threads i).todo, op.Overwrites Inv) :
    d.History origin (done ++ (effects c schedule).map Prod.snd) := by
  induction schedule generalizing c done with
  | nil =>
      cases hRun
      simpa [effects] using hHistory
  | cons i rest ih =>
      obtain ⟨m, hStep, hRest⟩ := (run_cons_eq_some step).mp hRun
      have hTail := ih hRest (hHistory.step hKeeps (hOps i) hStep) (hKeeps.step hStep)
        (fun k op hop => hOps k op (step_todo_subset hStep k op hop))
      rw [effects_cons_of_step hStep, List.map_append, ← List.append_assoc]
      cases hEffect : effect c i <;> simpa [hEffect] using hTail

/-- Whatever the interleaving, the store is what some of the operations give
when they run one at a time in the order of their effects, the last one
included. The operations left out are the updates that were overwritten. -/
theorem exec_explained {Inv : σ → Prop} {c d : Config ι σ} {schedule : List ι}
    (hRun : exec c schedule = some d) (hIdle : ∀ i, (c.threads i).held = none)
    (hStore : Inv c.store) (hOps : ∀ i, ∀ op ∈ (c.threads i).todo, op.Overwrites Inv) :
    ExplainedByLast c.store ((effects c schedule).map Prod.snd) d.store := by
  have hKeeps : c.Keeps Inv :=
    ⟨hStore, fun i v hv => by simp [hIdle i] at hv, fun i op hop => (hOps i op hop).preserves⟩
  have hHistory : c.History c.store [] :=
    ⟨⟨[], List.Sublist.refl _, rfl, rfl⟩, fun i v hv => by simp [hIdle i] at hv⟩
  simpa using (exec_history hRun hHistory hKeeps hOps).store

end ReadModifyWrite
