import Mathlib.Data.List.Find
import Nupkux.Kernel.ProcessTable

/-!
# What the scheduler looks at

`schedule` wakes tasks from the highest index down and starts at `tasks[NR_TASKS]`, one behind
the table; its search runs upwards and stops at the table's end. Two states with the same table
stand for two contents of the memory behind it.
-/

namespace Nupkux

/-- A blocked task with a pending signal, which `schedule` makes ready. -/
def Task.Wakes (t : Task) : Prop := t.InUse ∧ t.signals ≠ 0 ∧ t.state = .blocked

instance (t : Task) : Decidable t.Wakes := inferInstanceAs (Decidable (_ ∧ _))

/-- A task that is woken is changed. -/
theorem Task.Wakes.changed {t : Task} (wakes : t.Wakes) :
    ({ t with state := .waiting } : Task) ≠ t := by
  intro same
  have state := congrArg Task.state same
  rw [wakes.2.2] at state
  cases state

namespace Kernel

/-- The states have the same table and the same current task. -/
structure SameTable (k k' : Kernel) : Prop where
  tasks : ∀ i < nrTasks, k'.tasks i = k.tasks i
  currentTask : k'.currentTask = k.currentTask

/-- A call of `schedule` in each of two states does the same to the table, and nothing outside it.
-/
structure SchedulesAlike (k k' : Kernel) : Prop where
  /-- The same task is selected. -/
  selected : k'.schedule.2 = k.schedule.2
  /-- The tables are the same afterwards. -/
  table : ∀ i < nrTasks, k'.schedule.1.tasks i = k.schedule.1.tasks i
  /-- The memory behind the table is kept in the first state, -/
  outside : ∀ i, nrTasks ≤ i → k.schedule.1.tasks i = k.tasks i
  /-- and in the second. -/
  outside' : ∀ i, nrTasks ≤ i → k'.schedule.1.tasks i = k'.tasks i

variable {k k' : Kernel} {i : Nat}

/-- What the first loop of `schedule` leaves in a slot. -/
theorem wakeSignalled_tasks (k : Kernel) (i : Nat) : k.wakeSignalled.tasks i =
    if i ≤ nrTasks ∧ (k.tasks i).Wakes then { k.tasks i with state := .waiting }
    else k.tasks i := by
  unfold wakeSignalled Task.Wakes
  rfl

/-- The loop keeps the memory behind the table exactly if it does not look like a task to wake. -/
theorem wakeSignalled_outside : (∀ i, nrTasks ≤ i → k.wakeSignalled.tasks i = k.tasks i) ↔
    ¬(k.tasks nrTasks).Wakes := by
  constructor
  · intro kept wakes
    have same := kept nrTasks le_rfl
    rw [wakeSignalled_tasks, if_pos ⟨le_rfl, wakes⟩] at same
    exact Task.Wakes.changed wakes same
  · intro asleep i outside
    rw [wakeSignalled_tasks]
    apply if_neg
    rintro ⟨inside, wakes⟩
    have last : i = nrTasks := Nat.le_antisymm inside outside
    rw [last] at wakes
    exact asleep wakes

/-- The loop does the same to tables that are the same. -/
theorem SameTable.wakeSignalled (same : SameTable k k') :
    SameTable k.wakeSignalled k'.wakeSignalled where
  tasks i inside := by rw [wakeSignalled_tasks, wakeSignalled_tasks, same.tasks i inside]
  currentTask := same.currentTask

/-- The search depends on the table. -/
theorem SameTable.firstWaiting (same : SameTable k k') (start : Nat) :
    k'.firstWaiting start = k.firstWaiting start := by
  unfold Kernel.firstWaiting
  apply List.find?_congr
  intro i member
  have inside := List.mem_range'_1.mp member
  rw [same.tasks i (by omega)]

/-- `schedule` selects the same task and makes the same changes in the table, whatever is behind
it, -/
theorem SameTable.schedule (same : SameTable k k') (inside : k.currentTask < nrTasks) :
    k'.schedule.2 = k.schedule.2 ∧ SameTable k.schedule.1 k'.schedule.1 := by
  have woken := same.wakeSignalled
  have current : k'.wakeSignalled.current = k.wakeSignalled.current := by
    rw [Kernel.current, Kernel.current, woken.currentTask]
    exact woken.tasks _ inside
  refine ⟨?_, woken⟩
  unfold Kernel.schedule
  dsimp only
  rw [current, woken.firstWaiting]

/-- and it changes nothing outside the table if and only if neither memory holds what looks like a
blocked task with a pending signal at `tasks[NR_TASKS]`. -/
theorem schedule_alike_iff (same : SameTable k k') (inside : k.currentTask < nrTasks) :
    SchedulesAlike k k' ↔ ¬(k.tasks nrTasks).Wakes ∧ ¬(k'.tasks nrTasks).Wakes := by
  constructor
  · intro alike
    exact ⟨wakeSignalled_outside.mp alike.outside, wakeSignalled_outside.mp alike.outside'⟩
  · rintro ⟨asleep, asleep'⟩
    obtain ⟨selected, table⟩ := same.schedule inside
    exact ⟨selected, table.tasks, wakeSignalled_outside.mpr asleep,
      wakeSignalled_outside.mpr asleep'⟩

/-- After boot, with empty memory behind the table or a record there. -/
def bootedBefore (behind : Task) : Kernel :=
  { setupTasking Blocks.above { tasks := fun _ => {} } with
    tasks := fun i =>
      if i < nrTasks then (setupTasking Blocks.above { tasks := fun _ => {} }).tasks i
      else behind }

/-- Two memories without a task to wake: free, and ready. -/
theorem schedule_alike_iff_quiet :
    SchedulesAlike (bootedBefore {}) (bootedBefore { pid := 64, state := .waiting }) := by
  have same : SameTable (bootedBefore {}) (bootedBefore { pid := 64, state := .waiting }) := by
    refine ⟨fun i inside => ?_, rfl⟩
    unfold bootedBefore
    dsimp only
    rw [if_pos inside, if_pos inside]
  exact (schedule_alike_iff same (by decide)).mpr (by decide)

/-- A record behind the table that looks like a blocked task with a signal is changed. -/
theorem schedule_alike_not :
    let blocked : Task := { pid := 64, state := .blocked, signals := 1 }
    ((bootedBefore blocked).schedule.1.tasks 64).state = .waiting ∧
      ¬SchedulesAlike (bootedBefore {}) (bootedBefore blocked) := by
  intro blocked
  have woken : ((bootedBefore blocked).schedule.1.tasks 64).state = .waiting := by decide
  refine ⟨woken, fun alike => ?_⟩
  rw [alike.outside' 64 (by decide)] at woken
  cases woken

end Kernel

end Nupkux
