import Nupkux.Kernel.ProcessTable

/-!
# Scheduling rounds

`schedule` looks for a ready task behind the current one and falls back to the kernel task 0.
So between two moments at which it falls back the selected tasks climb through the table, and
the scan cannot climb past a task that stays ready without selecting it.
-/

namespace Nupkux

namespace Kernel

/-- A task `schedule` can select: it waits for the processor, or is blocked with a pending
signal. -/
def Ready (k : Kernel) (i : Nat) : Prop :=
  (k.tasks i).InUse ∧ ((k.tasks i).state = .waiting ∨
    (k.tasks i).state = .blocked ∧ (k.tasks i).signals ≠ 0)

/-- Where the second loop of `schedule` starts. -/
def scanStart (k : Kernel) : Nat := (k.current.pid + 1).toNat

/-- The slots hold the tasks of their numbers, and slot 0 the kernel task. -/
structure Numbered (k : Kernel) : Prop where
  /-- A slot in use holds the task of its own number. -/
  pid : ∀ i < nrTasks, (k.tasks i).pid = i ∨ (k.tasks i).pid = noTask
  /-- The kernel task is in use. -/
  kernelTask : (k.tasks 0).pid = 0

/-- What may happen between two switches: other tasks change arbitrarily; the task that runs
stays the current one and keeps its number. -/
structure Interlude (k k' : Kernel) : Prop where
  /-- The task that was switched to runs. -/
  currentTask : k'.currentTask = k.currentTask
  /-- It keeps its number. -/
  pid : k'.current.pid = k.current.pid
  /-- The slots stay numbered. -/
  numbered : k'.Numbered

variable {k k' : Kernel} {t : Nat}

/-- The process table keeps its slots numbered. -/
theorem TableInvariant.numbered (invariant : k.TableInvariant) : k.Numbered :=
  ⟨invariant.pid, (invariant.pid 0 (by decide)).resolve_right invariant.kernelTask.1⟩

/-- The scan finds a task waiting exactly when it was ready before. -/
theorem waiting_wakeSignalled (inside : t ≤ nrTasks) :
    (k.wakeSignalled.tasks t).InUse ∧ (k.wakeSignalled.tasks t).state = .waiting ↔ k.Ready t := by
  unfold Ready
  simp only [wakeSignalled]
  by_cases woken : t ≤ nrTasks ∧ (k.tasks t).InUse ∧ (k.tasks t).signals ≠ 0 ∧
      (k.tasks t).state = .blocked
  · rw [if_pos woken]
    exact ⟨fun found => ⟨found.1, .inr ⟨woken.2.2.2, woken.2.2.1⟩⟩, fun ready => ⟨ready.1, rfl⟩⟩
  · rw [if_neg woken]
    constructor
    · rintro ⟨inUse, waiting⟩
      exact ⟨inUse, .inl waiting⟩
    · rintro ⟨inUse, waiting | ⟨blocked, pending⟩⟩
      · exact ⟨inUse, waiting⟩
      · exact absurd ⟨inside, inUse, pending, blocked⟩ woken

/-- The scan starts behind the current task, whatever state it is in. -/
theorem scanStart_wakeSignalled (k : Kernel) : k.suspend.wakeSignalled.scanStart = k.scanStart := by
  unfold scanStart current
  rw [wakeSignalled_suspend_tasks]
  rfl

/-- The scan selects the first ready task. -/
theorem firstWaiting_eq_some {start : Nat} : k.wakeSignalled.firstWaiting start = some t ↔
    k.Ready t ∧ (start ≤ t ∧ t < nrTasks) ∧ ∀ i, start ≤ i → i < t → ¬k.Ready i := by
  have one : ∀ i < nrTasks, decide ((k.wakeSignalled.tasks i).InUse ∧
      (k.wakeSignalled.tasks i).state = .waiting) = true ↔ k.Ready i := by
    intro i inside
    rw [decide_eq_true_iff]
    exact waiting_wakeSignalled (Nat.le_of_lt inside)
  unfold firstWaiting
  rw [List.find?_range'_eq_some, List.mem_range'_1]
  constructor
  · rintro ⟨found, inside, first⟩
    have high : t < nrTasks := by omega
    refine ⟨(one t high).mp found, ⟨inside.1, high⟩, fun i low below ready => ?_⟩
    have passed := first i low below
    rw [(one i (by omega)).mpr ready] at passed
    cases passed
  · rintro ⟨ready, inside, first⟩
    refine ⟨(one t inside.2).mpr ready, by omega, fun i low below => ?_⟩
    rw [Bool.not_eq_true', ← Bool.not_eq_true]
    exact mt (one i (by omega)).mp (first i low below)

/-- The task that is selected, read off the scan. -/
theorem nextTask_eq (k : Kernel) :
    k.nextTask = (k.suspend.wakeSignalled.firstWaiting k.scanStart).getD 0 := by
  rw [← scanStart_wakeSignalled]
  rfl

/-- A selected task other than the kernel task is ready and behind the current one. -/
theorem nextTask_ready (user : k.nextTask ≠ 0) :
    k.suspend.Ready k.nextTask ∧ k.scanStart ≤ k.nextTask ∧ k.nextTask < nrTasks := by
  rw [nextTask_eq] at *
  cases found : k.suspend.wakeSignalled.firstWaiting k.scanStart with
  | none =>
    rw [found] at user
    exact absurd rfl user
  | some i =>
    obtain ⟨ready, inside, _⟩ := firstWaiting_eq_some.mp found
    exact ⟨ready, inside⟩

/-- The scan does not pass a task that is ready. -/
theorem nextTask_le (ready : k.suspend.Ready t) (low : k.scanStart ≤ t) (high : t < nrTasks) :
    k.scanStart ≤ k.nextTask ∧ k.nextTask ≤ t := by
  rw [nextTask_eq]
  cases found : k.suspend.wakeSignalled.firstWaiting k.scanStart with
  | none =>
    exfalso
    unfold firstWaiting at found
    rw [List.find?_range'_eq_none] at found
    have passed := found t low (by omega)
    rw [decide_eq_true (waiting_wakeSignalled (Nat.le_of_lt high) |>.mpr ready)] at passed
    cases passed
  | some i =>
    obtain ⟨_, inside, first⟩ := firstWaiting_eq_some.mp found
    refine ⟨inside.1, Nat.le_of_not_lt fun below => ?_⟩
    exact first t low below ready

/-- Suspending the current task changes no number. -/
theorem pid_suspend (k : Kernel) (i : Nat) : (k.suspend.tasks i).pid = (k.tasks i).pid := by
  unfold suspend
  rw [setTask_tasks]
  split
  · rename_i same
    rw [same]
    split <;> rfl
  · rfl

/-- A selected task is in the table. -/
theorem nextTask_lt (k : Kernel) : k.nextTask < nrTasks := by
  by_cases first : k.nextTask = 0
  · rw [first]
    decide
  · exact (nextTask_ready first).2.2

/-- The current task after a switch has the number of its slot. -/
theorem Interlude.number (interlude : k.switchTask.Interlude k') :
    k.switchTask.current.pid = k.nextTask := by
  rw [← interlude.pid]
  have current : k'.currentTask = k.nextTask := interlude.currentTask
  have same : k'.current.pid = (k.tasks k.nextTask).pid := by
    rw [interlude.pid, switchTask_eq_dispatch]
    unfold Kernel.current
    rw [dispatch_currentTask, dispatch_tasks]
  by_cases first : k.nextTask = 0
  · unfold Kernel.current
    rw [current, first]
    exact interlude.numbered.kernelTask
  · have inUse := (nextTask_ready first).1.1
    rw [Task.InUse, pid_suspend, ← same] at inUse
    have numbers := interlude.numbered.pid k.nextTask k.nextTask_lt
    rw [← current] at numbers
    exact (numbers.resolve_right inUse).trans (congrArg Nat.cast current)

/-- The scan after a switch to a task starts behind this task. -/
theorem Interlude.scanStart (interlude : k.switchTask.Interlude k') :
    k'.scanStart = k.nextTask + 1 := by
  unfold Kernel.scanStart
  rw [interlude.pid, interlude.number]
  rfl

/-- Switching tasks changes no number. -/
theorem Numbered.switchTask (numbered : k.Numbered) : k.switchTask.Numbered := by
  have same : ∀ i, (k.switchTask.tasks i).pid = (k.tasks i).pid := by
    intro i
    rw [switchTask_eq_dispatch, dispatch_tasks]
  refine ⟨fun i inside => ?_, ?_⟩
  · rw [same]
    exact numbered.pid i inside
  · rw [same]
    exact numbered.kernelTask

variable {before : Nat → Kernel} {first last : Nat}

/-- Between two selections of the kernel task every selected task is behind the one selected
before it. -/
theorem selections_increase
    (run : ∀ i, first ≤ i → i < last → (before i).switchTask.Interlude (before (i + 1)))
    (user : ∀ i, first < i → i < last → (before i).nextTask ≠ 0)
    {i j : Nat} (low : first < i) (ordered : i < j) (high : j < last) :
    (before i).nextTask < (before j).nextTask := by
  induction j with
  | zero => omega
  | succ j ih =>
    have behind := (nextTask_ready (user (j + 1) (by omega) high)).2.1
    rw [(run j (by omega) (by omega)).scanStart] at behind
    rcases Nat.lt_succ_iff_lt_or_eq.mp ordered with earlier | same
    · have := ih earlier (by omega)
      omega
    · rw [same]
      omega

/-- The scan does not climb past a task that stays ready and is not selected. -/
theorem scanStart_le
    (run : ∀ i, first ≤ i → i < last → (before i).switchTask.Interlude (before (i + 1)))
    (start : (before first).nextTask = 0) (positive : t ≠ 0) (inside : t < nrTasks)
    (ready : ∀ i, first < i → i ≤ last → (before i).suspend.Ready t)
    (passed : ∀ i, first < i → i < last → (before i).nextTask ≠ t)
    {i : Nat} (low : first < i) (high : i ≤ last) : (before i).scanStart ≤ t := by
  induction i with
  | zero => omega
  | succ i ih =>
    rw [(run i (by omega) (by omega)).scanStart]
    rcases Nat.lt_succ_iff_lt_or_eq.mp low with later | same
    · have scan := ih later (by omega)
      have selected := nextTask_le (ready i later (by omega)) scan inside
      have other := passed i later (by omega)
      omega
    · rw [← same, start]
      omega

end Kernel

open Kernel in
/-- A scheduling round, from one selection of the kernel task to the next one, with any
changes to the other tasks between the switches: the selected tasks have increasing numbers,
and a task that is ready whenever `schedule` is called, until it is selected, is selected
exactly once. -/
theorem scheduling_round {before : Nat → Kernel} {first last : Nat} (ordered : first < last)
    (run : ∀ i, first ≤ i → i < last → (before i).switchTask.Interlude (before (i + 1)))
    (start : (before first).nextTask = 0) (finish : (before last).nextTask = 0)
    (user : ∀ i, first < i → i < last → (before i).nextTask ≠ 0) :
    (∀ i j, first < i → i < j → j < last →
      (before i).switchTask.current.pid < (before j).switchTask.current.pid) ∧
    ∀ t, t ≠ 0 → t < nrTasks →
      (∀ i, first < i → i ≤ last → (∀ j, first < j → j < i → (before j).nextTask ≠ t) →
        (before i).suspend.Ready t) →
      ∃! i, (first < i ∧ i < last) ∧ (before i).nextTask = t := by
  have climbs : ∀ i j, first < i → i < j → j < last →
      (before i).nextTask < (before j).nextTask :=
    fun i j low later high => selections_increase run user low later high
  refine ⟨fun i j low later high => ?_, fun t positive inside ready => ?_⟩
  · rw [(run i (by omega) (by omega)).number, (run j (by omega) high).number]
    exact Int.ofNat_lt.mpr (climbs i j low later high)
  · have selected : ∃ i, (first < i ∧ i < last) ∧ (before i).nextTask = t := by
      by_contra none
      have passed : ∀ i, first < i → i < last → (before i).nextTask ≠ t :=
        fun i low high same => none ⟨i, ⟨low, high⟩, same⟩
      have always : ∀ i, first < i → i ≤ last → (before i).suspend.Ready t :=
        fun i low high => ready i low high fun j low' below => passed j low' (by omega)
      have scan := scanStart_le run start positive inside always passed ordered (Nat.le_refl last)
      have found := nextTask_le (always last ordered (Nat.le_refl last)) scan inside
      obtain ⟨previous, rfl⟩ := Nat.exists_eq_succ_of_ne_zero (Nat.ne_zero_of_lt ordered)
      rw [(run previous (by omega) (by omega)).scanStart] at found
      omega
    obtain ⟨i, range, same⟩ := selected
    refine ⟨i, ⟨range, same⟩, fun j other => ?_⟩
    obtain ⟨range', same'⟩ := other
    rcases Nat.lt_trichotomy j i with earlier | equal | later
    · have := climbs j i range'.1 earlier range.2
      omega
    · exact equal
    · have := climbs i j range.1 later range'.2
      omega

/-- The kernel task, which runs, and task 1 in some state. -/
def twoTasks (state : TaskState) : Kernel where
  tasks i :=
    if i = 0 then { pid := 0, state := .running }
    else if i = 1 then { pid := 1, state := state }
    else {}

/-- The slots of the two tasks are numbered. -/
theorem twoTasks_numbered (state : TaskState) : (twoTasks state).Numbered := by
  refine ⟨fun i _ => ?_, rfl⟩
  unfold twoTasks
  by_cases first : i = 0
  · simp [first]
  · by_cases second : i = 1
    · simp [second]
    · simp [first, second]

/-- A round in which task 1 is woken up and selected. -/
def wakingRound : Nat → Kernel
  | 0 => twoTasks .blocked
  | 1 => twoTasks .waiting
  | _ => (twoTasks .waiting).switchTask

/-- Task 1 is selected exactly once in this round. -/
theorem scheduling_round_woken :
    ∃! i, (0 < i ∧ i < 2) ∧ (wakingRound i).nextTask = 1 := by
  have run : ∀ i, 0 ≤ i → i < 2 →
      (wakingRound i).switchTask.Interlude (wakingRound (i + 1)) := by
    intro i _ below
    match i with
    | 0 => exact ⟨by decide, by decide, twoTasks_numbered _⟩
    | 1 => exact ⟨rfl, rfl, (twoTasks_numbered _).switchTask⟩
    | i + 2 => omega
  have user : ∀ i, 0 < i → i < 2 → (wakingRound i).nextTask ≠ 0 := by
    intro i low high
    obtain rfl : i = 1 := by omega
    decide
  refine (scheduling_round (by decide) run (by decide) (by decide) user).2 1 (by decide)
    (by decide) fun i low high passed => ?_
  have only : i = 1 ∨ i = 2 := by omega
  rcases only with rfl | rfl
  · exact ⟨by decide, .inl (by decide)⟩
  · exact absurd (by decide) (passed 1 (by decide) (by decide))

end Nupkux
