import Nupkux.Kernel.Exit
import Nupkux.Lib.Transition

/-!
# The process table over whole runs

What one step does to a slot is said once for each of its parts (`switchTask_tasks`,
`sysKill_signals`, `sysClose_slot`); the invariant `TableInvariant` follows from these by a
case analysis. A fork hands the fresh kernel stack to the parent and leaves the old one to
the child, so ownership of stacks is an invariant of the whole table and not of one slot.
-/

namespace Nupkux

/-- The fields of a slot that scheduling and reaping are about. -/
def Task.slot (t : Task) : Int × TaskState × Int × Nat :=
  (t.pid, t.state, t.exitCode, t.kernelStack)

namespace Kernel

variable {k : Kernel}

/-- What `setTask` leaves in a slot. -/
theorem setTask_tasks (k : Kernel) (i j : Nat) (change : Task → Task) :
    (k.setTask i change).tasks j = if j = i then change (k.tasks i) else k.tasks j := by
  simp only [setTask, Function.update_apply]

/-! ## Switching tasks -/

/-- The state of a slot when `schedule` is called. -/
def stateSuspended (k : Kernel) (i : Nat) : TaskState :=
  if i = k.currentTask ∧ (k.tasks i).state = .running then .waiting else (k.tasks i).state

/-- The state of a slot when `schedule` looks for the next task. -/
def stateAtSchedule (k : Kernel) (i : Nat) : TaskState :=
  if i ≤ nrTasks ∧ (k.tasks i).InUse ∧ (k.tasks i).signals ≠ 0 ∧ k.stateSuspended i = .blocked
  then .waiting else k.stateSuspended i

/-- The task `switch_task` makes the current one. -/
def nextTask (k : Kernel) : Nat := k.suspend.schedule.2

/-- The table `schedule` searches: only states have changed. -/
theorem wakeSignalled_suspend_tasks (k : Kernel) (i : Nat) :
    k.suspend.wakeSignalled.tasks i = { k.tasks i with state := k.stateAtSchedule i } := by
  simp only [wakeSignalled, suspend, setTask_tasks, stateAtSchedule, stateSuspended]
  by_cases same : i = k.currentTask
  · subst same
    by_cases running : (k.tasks k.currentTask).state = .running
    · simp [running, Task.InUse]
    · simp only [running, if_true, if_false, and_false, Task.InUse]
      split <;> rfl
  · simp only [same, if_false, false_and, Task.InUse]
    split <;> rfl

/-- A dispatch changes the states of the slots and no other field. -/
theorem dispatch_tasks (k : Kernel) (next i : Nat) :
    (k.dispatch next).tasks i = { k.tasks i with
      state := if i = next then .running else k.stateAtSchedule i } := by
  have table : (k.dispatch next).tasks i = if i = next
      then { k.suspend.wakeSignalled.tasks next with state := .running }
      else k.suspend.wakeSignalled.tasks i := by
    simp only [dispatch, resume, setTask_tasks]
  rw [table]
  by_cases same : i = next
  · rw [if_pos same, if_pos same, ← same, wakeSignalled_suspend_tasks]
  · rw [if_neg same, if_neg same, wakeSignalled_suspend_tasks]

/-- A dispatch makes the next task the current one. -/
@[simp] theorem dispatch_currentTask (k : Kernel) (next : Nat) :
    (k.dispatch next).currentTask = next := rfl

/-- A dispatch allocates and frees no stack. -/
@[simp] theorem dispatch_kernelStack (k : Kernel) (next : Nat) :
    (k.dispatch next).kernelStack = k.kernelStack := rfl

/-- `switch_task` dispatches the task that `schedule` chooses. -/
theorem switchTask_eq_dispatch (k : Kernel) : k.switchTask = k.dispatch k.nextTask := rfl

/-- A slot is a zombie for `schedule` exactly when it is one in the table. -/
theorem stateAtSchedule_zombie {i : Nat} :
    k.stateAtSchedule i = .zombie ↔ (k.tasks i).state = .zombie := by
  have suspended : k.stateSuspended i = .zombie ↔ (k.tasks i).state = .zombie := by
    unfold stateSuspended
    split
    · rename_i h
      simp [h.2]
    · rfl
  unfold stateAtSchedule
  split
  · rename_i h
    rw [← suspended, h.2.2.2]
    decide
  · exact suspended

/-- No slot is running for `schedule` when only the current one was. -/
theorem stateAtSchedule_ne_running {i : Nat}
    (only : (k.tasks i).state = .running → i = k.currentTask) :
    k.stateAtSchedule i ≠ .running := by
  unfold stateAtSchedule
  split
  · decide
  · unfold stateSuspended
    split
    · decide
    · rename_i h
      exact fun running => h ⟨only running, running⟩

/-- `schedule` may choose the task: the kernel task or a ready one of the table. -/
def Selectable (k : Kernel) (next : Nat) : Prop :=
  next = 0 ∨ next < nrTasks ∧ (k.tasks next).InUse ∧ k.stateAtSchedule next = .waiting

/-- The next task is the kernel task or a ready one of the table. -/
theorem nextTask_cases (k : Kernel) :
    k.nextTask = 0 ∨ k.nextTask < nrTasks ∧ (k.tasks k.nextTask).InUse ∧
      k.stateAtSchedule k.nextTask = .waiting := by
  unfold nextTask schedule firstWaiting
  dsimp only
  cases found : (List.range' (k.suspend.wakeSignalled.current.pid + 1).toNat
      (nrTasks - (k.suspend.wakeSignalled.current.pid + 1).toNat)).find? (fun i =>
        (k.suspend.wakeSignalled.tasks i).InUse ∧
          (k.suspend.wakeSignalled.tasks i).state = .waiting) with
  | none => exact .inl rfl
  | some i =>
    right
    have ready := List.find?_some found
    have inside := List.mem_range'_1.mp (List.mem_of_find?_eq_some found)
    simp only [decide_eq_true_eq, wakeSignalled_suspend_tasks] at ready
    refine ⟨?_, ready.1, ready.2⟩
    simp only [Option.getD_some]
    omega

/-! ## Signals -/

/-- Two states that differ in pending signals only. -/
def SignalsOnly (k k' : Kernel) : Prop :=
  ∃ signals : Nat → BitVec 32,
    k' = { k with tasks := fun i => { k.tasks i with signals := signals i } }

/-- Nothing changed. -/
theorem SignalsOnly.refl (k : Kernel) : SignalsOnly k k := ⟨fun i => (k.tasks i).signals, rfl⟩

/-- Two changes of signals are one. -/
theorem SignalsOnly.trans {k k' k'' : Kernel} (first : SignalsOnly k k')
    (second : SignalsOnly k' k'') : SignalsOnly k k'' := by
  obtain ⟨signals, rfl⟩ := first
  obtain ⟨signals', rfl⟩ := second
  exact ⟨signals', rfl⟩

/-- `send_signal` changes pending signals only. -/
theorem sendSignal_signals (k : Kernel) (i : Nat) (sign : Int) :
    SignalsOnly k (k.sendSignal i sign).1 := by
  unfold sendSignal
  split
  · refine ⟨fun j => if j = i then (k.tasks i).signals ||| (1#32 <<< (sign - 1).toNat)
      else (k.tasks j).signals, ?_⟩
    simp only [setTask]
    congr 1
    funext j
    by_cases same : j = i
    · subst same
      simp
    · simp [same]
  · exact .refl k

/-- What every `send_signal` keeps is kept by turns of a loop of `sys_kill`. -/
theorem signalOne_keeps {holds : Kernel → Prop} {sign : Int}
    (send : ∀ k i, holds k → holds (k.sendSignal i sign).1) (select : Task → Bool)
    (indices : List Nat) (progress : Kernel × Bool × Bool) (start : holds progress.1) :
    holds (indices.foldl (signalOne select sign) progress).1 := by
  induction indices generalizing progress with
  | nil => exact start
  | cons i rest ih =>
    rw [List.foldl_cons]
    apply ih
    unfold signalOne
    dsimp only
    split
    · exact send progress.1 i start
    · exact start

/-- The answer of `sys_kill` is given in the state its loop ends in. -/
theorem killAnswer_fst (outcome : Kernel × Bool × Bool) : (killAnswer outcome).1 = outcome.1 :=
  rfl

/-- What every `send_signal` keeps is kept by `sys_kill`. -/
theorem sysKill_keeps {holds : Kernel → Prop} {sign : Int}
    (send : ∀ k i, holds k → holds (k.sendSignal i sign).1) (pid : Int) (start : holds k) :
    holds (k.sysKill pid sign).1 := by
  have answered (select : Task → Bool) : holds (killAnswer (k.signalEach select sign)).1 := by
    rw [killAnswer_fst]
    exact signalOne_keeps send select (List.range nrTasks) (k, false, false) start
  unfold sysKill
  split
  · exact start
  · split
    · exact answered _
    · split
      · exact answered _
      · split
        · exact answered _
        · split
          · exact start
          · exact send k _ start

/-- `sys_kill` changes pending signals only. -/
theorem sysKill_signals (k : Kernel) (pid sign : Int) : SignalsOnly k (k.sysKill pid sign).1 :=
  sysKill_keeps (fun k' i so_far => so_far.trans (sendSignal_signals k' i sign)) pid (.refl k)

/-- Signals are no part of a slot. -/
theorem SignalsOnly.slot {k' : Kernel} (only : SignalsOnly k k') (i : Nat) :
    (k'.tasks i).slot = (k.tasks i).slot ∧ k'.currentTask = k.currentTask ∧
      k'.kernelStack = k.kernelStack := by
  obtain ⟨signals, rfl⟩ := only
  exact ⟨rfl, rfl, rfl⟩

/-! ## Exit -/

/-- Giving back a file changes the files and vnodes only. -/
theorem putFile_frame (k : Kernel) (f : Nat) :
    (k.putFile f).tasks = k.tasks ∧ (k.putFile f).currentTask = k.currentTask ∧
      (k.putFile f).kernelStack = k.kernelStack := by
  unfold putFile
  split
  · exact ⟨rfl, rfl, rfl⟩
  · split
    · exact ⟨rfl, rfl, rfl⟩
    · split <;> exact ⟨rfl, rfl, rfl⟩

/-- Closing a descriptor changes no slot. -/
theorem sysClose_slot (k : Kernel) (fd : Int) (i : Nat) :
    ((k.sysClose fd).1.tasks i).slot = (k.tasks i).slot ∧
      (k.sysClose fd).1.currentTask = k.currentTask ∧
      (k.sysClose fd).1.kernelStack = k.kernelStack := by
  unfold sysClose
  dsimp only
  split
  · exact ⟨rfl, rfl, rfl⟩
  · split
    · exact ⟨rfl, rfl, rfl⟩
    · obtain ⟨tasks, current, stack⟩ := putFile_frame (k.setFile fd.toNat 0)
        (k.current.files fd.toNat)
      refine ⟨?_, current, stack⟩
      rw [tasks]
      simp only [setFile, setTask_tasks]
      split
      · rename_i same
        rw [same]
        rfl
      · rfl

/-- Closing all descriptors changes no slot. -/
theorem closeAll_slot (bound : Nat) (k : Kernel) (i : Nat) :
    ((closeAll bound k).tasks i).slot = (k.tasks i).slot ∧
      (closeAll bound k).currentTask = k.currentTask ∧
      (closeAll bound k).kernelStack = k.kernelStack := by
  induction bound generalizing k with
  | zero => exact ⟨rfl, rfl, rfl⟩
  | succ fd ih =>
    obtain ⟨slot, current, stack⟩ := ih (k.sysClose fd).1
    obtain ⟨slot', current', stack'⟩ := sysClose_slot k fd i
    exact ⟨slot.trans slot', current.trans current', stack.trans stack'⟩

/-- The children of an exiting task change their parent only. -/
theorem orphanChildren_slot (k : Kernel) (i : Nat) :
    (k.orphanChildren.tasks i).slot = (k.tasks i).slot := by
  simp only [orphanChildren]
  split <;> rfl

/-- A task that terminates switches tasks in a table in which its slot has become a zombie
and its kernel stack is freed. -/
theorem terminate_slot (k : Kernel) (status : Int) :
    ∃ left : Kernel, k.terminate status = left.switchTask ∧
      left.currentTask = k.currentTask ∧
      left.kernelStack = k.kernelStack.erase k.current.kernelStack ∧
      ∀ i, (left.tasks i).slot = if i = k.currentTask
        then (k.current.pid, .zombie, status, k.current.kernelStack)
        else (k.tasks i).slot := by
  set gone := k.setTask k.currentTask
    (fun t => { t with state := .zombie, exitCode := status }) with gone_def
  have slots : ∀ i, (gone.tasks i).slot = if i = k.currentTask
      then (k.current.pid, .zombie, status, k.current.kernelStack) else (k.tasks i).slot := by
    intro i
    simp only [gone_def, setTask_tasks]
    split <;> rfl
  obtain ⟨signals, killed⟩ := sysKill_signals gone gone.current.parent SIGCHLD
  refine ⟨_, rfl, ?_, ?_, fun i => ?_⟩
  · simp only [← gone_def, killed]
    rfl
  · simp only [← gone_def, killed]
    have stack : gone.current.kernelStack = k.current.kernelStack := by
      simp [gone_def, Kernel.current, setTask]
    exact congrArg (AList.erase · k.kernelStack) stack
  · simp only [← gone_def, killed]
    exact slots i

/-- What the exiting task does before it terminates leaves every slot as it was. -/
theorem closed_slot (k : Kernel) (i : Nat) :
    ((closeAll nrOpen k.orphanChildren).tasks i).slot = (k.tasks i).slot ∧
      (closeAll nrOpen k.orphanChildren).currentTask = k.currentTask ∧
      (closeAll nrOpen k.orphanChildren).kernelStack = k.kernelStack := by
  obtain ⟨slot, current, stack⟩ := closeAll_slot nrOpen k.orphanChildren i
  exact ⟨slot.trans (orphanChildren_slot k i), current, stack⟩

/-- `sys_exit` switches tasks in a table in which the current slot has become a zombie and
its kernel stack is freed. -/
theorem sysExit_slot (k : Kernel) (status : Int) (user : k.current.pid ≠ 0) :
    ∃ left : Kernel, k.sysExit status = left.switchTask ∧
      left.currentTask = k.currentTask ∧
      left.kernelStack = k.kernelStack.erase k.current.kernelStack ∧
      ∀ i, (left.tasks i).slot = if i = k.currentTask
        then (k.current.pid, .zombie, status, k.current.kernelStack)
        else (k.tasks i).slot := by
  obtain ⟨_, current, freed⟩ := closed_slot k 0
  have slot : (closeAll nrOpen k.orphanChildren).current.slot = k.current.slot := by
    rw [Kernel.current, current]
    exact (closed_slot k k.currentTask).1
  have pid := congrArg (·.1) slot
  have stack := congrArg (·.2.2.2) slot
  simp only [Task.slot] at pid stack
  obtain ⟨left, ends, current', freed', slots⟩ := terminate_slot (closeAll nrOpen k.orphanChildren) status
  refine ⟨left, ?_, current'.trans current, ?_, fun i => ?_⟩
  · rw [← pid] at user
    simp only [sysExit, user, if_false, ends]
  · rw [freed', freed, stack]
  · rw [slots, current, pid, stack, (closed_slot k i).1]

/-! ## Fork -/

/-- A free slot is one of the table that is not in use. -/
theorem freeSlot_some {i : Nat} (found : k.freeSlot = some i) :
    i < nrTasks ∧ ¬(k.tasks i).InUse := by
  have free := List.find?_some found
  exact ⟨List.mem_range.mp (List.mem_of_find?_eq_some found), by simpa using free⟩

/-- What a successful `sys_fork` leaves in the slots: the child has the stack of the parent,
and the parent a fresh one. -/
theorem sysFork_slot {i : Nat} (width : Nat) (blocks : Blocks) (found : k.freeSlot = some i)
    (inUse : k.current.InUse) (j : Nat) :
    ((k.sysFork width blocks).1.tasks j).slot =
      if j = k.currentTask then (k.current.pid, k.current.state, k.current.exitCode,
        blocks.kernelStack.address k.kernelStack)
      else if j = i then ((i : Int), .waiting, 0, k.current.kernelStack)
      else (k.tasks j).slot := by
  have apart : k.currentTask ≠ i := by
    rintro rfl
    exact (freeSlot_some found).2 inUse
  simp only [sysFork, found, setTask_tasks, Function.update_apply]
  by_cases parent : j = k.currentTask
  · subst parent
    simp [apart, Task.slot, Kernel.current]
  · by_cases child : j = i
    · simp [child, Ne.symm apart, Task.slot, forkedTask]
    · simp [parent, child]

/-! ## The invariant -/

/-- The task of the slot owns its kernel stack: it is in use and has not exited. -/
def OwnsStack (k : Kernel) (i : Nat) : Prop :=
  i < nrTasks ∧ (k.tasks i).InUse ∧ (k.tasks i).state ≠ .zombie

/-- The task of the slot has exited with this code and has not been reaped. -/
def Exited (k : Kernel) (i : Nat) (code : Int) : Prop :=
  (k.tasks i).InUse ∧ (k.tasks i).state = .zombie ∧ (k.tasks i).exitCode = code

/-- What holds of the process table whenever `switch_task` is called, when the current task
may have stopped running or even exited. -/
structure Switchable (k : Kernel) : Prop where
  /-- A slot in use holds the task of its own number. -/
  pid : ∀ i < nrTasks, (k.tasks i).pid = i ∨ (k.tasks i).pid = noTask
  /-- No task but the current one is running. -/
  running : ∀ i < nrTasks, (k.tasks i).InUse → (k.tasks i).state = .running →
    i = k.currentTask
  /-- The kernel task never exits. -/
  kernelTask : (k.tasks 0).InUse ∧ (k.tasks 0).state ≠ .zombie
  /-- The stack of a task that has not exited is allocated. -/
  allocated : ∀ i, k.OwnsStack i → (k.tasks i).kernelStack ∈ k.kernelStack
  /-- Two tasks that have not exited have different stacks. -/
  distinct : ∀ i j, k.OwnsStack i → k.OwnsStack j →
    (k.tasks i).kernelStack = (k.tasks j).kernelStack → i = j

/-- The invariant of the process table. -/
structure TableInvariant (k : Kernel) : Prop extends Switchable k where
  /-- The current task is in the table, in use and running. -/
  current : k.currentTask < nrTasks ∧ k.current.InUse ∧ k.current.state = .running

/-- A task `schedule` may choose is in the table, in use and not a zombie. -/
theorem Switchable.selectable (switchable : k.Switchable) {next : Nat}
    (selectable : k.Selectable next) :
    next < nrTasks ∧ (k.tasks next).InUse ∧ (k.tasks next).state ≠ .zombie := by
  rcases selectable with first | ⟨inside, inUse, ready⟩
  · rw [first]
    exact ⟨by decide, switchable.kernelTask⟩
  · refine ⟨inside, inUse, fun zombie => ?_⟩
    rw [stateAtSchedule_zombie.mpr zombie] at ready
    cases ready

/-- The next task is in the table, in use and not a zombie. -/
theorem Switchable.next (switchable : k.Switchable) :
    k.nextTask < nrTasks ∧ (k.tasks k.nextTask).InUse ∧
      (k.tasks k.nextTask).state ≠ .zombie :=
  switchable.selectable k.nextTask_cases

/-- A dispatch of a task that has not exited changes who owns a stack for nobody. -/
theorem ownsStack_dispatch {next : Nat} (inUse : (k.tasks next).InUse)
    (awake : (k.tasks next).state ≠ .zombie) {i : Nat} :
    (k.dispatch next).OwnsStack i ↔ k.OwnsStack i := by
  simp only [OwnsStack, dispatch_tasks, Task.InUse]
  by_cases same : i = next
  · subst same
    simp only [Task.InUse] at inUse
    simp [inUse, awake]
  · simp [same, stateAtSchedule_zombie]

/-- A dispatch of any task that has not exited establishes the invariant. -/
theorem Switchable.dispatch (switchable : k.Switchable) {next : Nat} (inside' : next < nrTasks)
    (inUse' : (k.tasks next).InUse) (awake : (k.tasks next).state ≠ .zombie) :
    (k.dispatch next).TableInvariant := by
  have owner {i : Nat} := ownsStack_dispatch inUse' awake (i := i)
  refine ⟨⟨fun i inside => ?_, fun i inside inUse running => ?_, ⟨?_, ?_⟩, fun i owns => ?_,
    fun i j owns owns' same => ?_⟩, inside', ?_, ?_⟩
  · rw [dispatch_tasks]
    exact switchable.pid i inside
  · by_contra other
    rw [dispatch_currentTask] at other
    rw [dispatch_tasks] at inUse running
    simp only [other, if_false, Task.InUse] at inUse running
    exact stateAtSchedule_ne_running (switchable.running i inside inUse) running
  · rw [dispatch_tasks]
    exact switchable.kernelTask.1
  · rw [dispatch_tasks]
    dsimp only
    split
    · decide
    · exact fun zombie => switchable.kernelTask.2 (stateAtSchedule_zombie.mp zombie)
  · rw [dispatch_tasks, dispatch_kernelStack]
    exact switchable.allocated i (owner.mp owns)
  · rw [dispatch_tasks, dispatch_tasks] at same
    exact switchable.distinct i j (owner.mp owns) (owner.mp owns') same
  · simpa only [Kernel.current, dispatch_currentTask, dispatch_tasks, Task.InUse] using inUse'
  · simp only [Kernel.current, dispatch_currentTask, dispatch_tasks, if_true]

/-- `switch_task` establishes the invariant. -/
theorem Switchable.switchTask (switchable : k.Switchable) : k.switchTask.TableInvariant := by
  obtain ⟨inside, inUse, awake⟩ := switchable.next
  exact switchable.dispatch inside inUse awake

/-- A zombie stays one, and out of the processor, when tasks are switched. -/
theorem Switchable.exited (switchable : k.Switchable) {i : Nat} {code : Int}
    (exited : k.Exited i code) : k.switchTask.Exited i code ∧ k.switchTask.currentTask ≠ i := by
  have other : i ≠ k.nextTask := by
    rintro rfl
    exact switchable.next.2.2 exited.2.1
  refine ⟨?_, Ne.symm other⟩
  simp only [Exited, switchTask_eq_dispatch, dispatch_tasks, other, if_false,
    stateAtSchedule_zombie, Task.InUse]
  exact exited

/-- The current task has the number of its slot. -/
theorem TableInvariant.current_pid (invariant : k.TableInvariant) :
    k.current.pid = k.currentTask := by
  obtain ⟨inside, inUse, _⟩ := invariant.current
  exact (invariant.pid k.currentTask inside).resolve_right inUse

/-- What the invariant says of a state depends on its slots, current task and stacks. -/
theorem Switchable.congr {k' : Kernel} (switchable : k.Switchable)
    (slots : ∀ i, (k'.tasks i).slot = (k.tasks i).slot)
    (current : k'.currentTask = k.currentTask) (stack : k'.kernelStack = k.kernelStack) :
    k'.Switchable := by
  simp only [Task.slot, Prod.mk.injEq] at slots
  have owns : ∀ i, k'.OwnsStack i ↔ k.OwnsStack i := fun i => by
    simp only [OwnsStack, Task.InUse, slots]
  refine ⟨fun i inside => ?_, fun i inside => ?_, ?_, fun i => ?_, fun i j => ?_⟩
  · simpa only [slots] using switchable.pid i inside
  · simpa only [Task.InUse, slots, current] using switchable.running i inside
  · simpa only [Task.InUse, slots] using switchable.kernelTask
  · simpa only [owns, slots, stack] using switchable.allocated i
  · simpa only [owns, slots] using switchable.distinct i j

/-- A task that stops running may still switch tasks. -/
theorem TableInvariant.blocked (invariant : k.TableInvariant) :
    (k.setTask k.currentTask fun t => { t with state := .blocked }).Switchable := by
  have tasks (i : Nat) := setTask_tasks k k.currentTask i fun t => { t with state := .blocked }
  have owns : ∀ i, (k.setTask k.currentTask fun t => { t with state := .blocked }).OwnsStack i ↔
      k.OwnsStack i := by
    intro i
    obtain ⟨_, inUse, running⟩ := invariant.current
    simp only [OwnsStack, tasks, Task.InUse]
    by_cases same : i = k.currentTask
    · subst same
      simp only [Kernel.current] at running
      simp [running]
    · simp [same]
  have stack : ∀ i, ((k.setTask k.currentTask fun t => { t with state := .blocked }).tasks
      i).kernelStack = (k.tasks i).kernelStack := by
    intro i
    rw [tasks]
    split
    · rename_i same
      rw [same]
    · rfl
  refine ⟨fun i inside => ?_, fun i inside inUse running => ?_, ⟨?_, ?_⟩, fun i own => ?_,
    fun i j own own' same => ?_⟩
  · rw [tasks]
    split
    · rename_i same
      rw [← same]
      exact invariant.pid i inside
    · exact invariant.pid i inside
  · rw [tasks] at running inUse
    split at running
    · cases running
    · rename_i other
      rw [if_neg other] at inUse
      exact invariant.running i inside inUse running
  · rw [tasks]
    split
    · exact invariant.current.2.1
    · exact invariant.kernelTask.1
  · rw [tasks]
    split
    · simp
    · exact invariant.kernelTask.2
  · rw [stack]
    exact invariant.allocated i ((owns i).mp own)
  · rw [stack, stack] at same
    exact invariant.distinct i j ((owns i).mp own) ((owns j).mp own') same

/-- A task that exits leaves a table in which tasks may be switched. -/
theorem TableInvariant.left (invariant : k.TableInvariant) {left : Kernel} {status : Int}
    (user : k.current.pid ≠ 0) (current : left.currentTask = k.currentTask)
    (freed : left.kernelStack = k.kernelStack.erase k.current.kernelStack)
    (slots : ∀ i, (left.tasks i).slot = if i = k.currentTask
      then (k.current.pid, .zombie, status, k.current.kernelStack) else (k.tasks i).slot) :
    left.Switchable := by
  have zombie : (left.tasks k.currentTask).slot =
      (k.current.pid, .zombie, status, k.current.kernelStack) := by rw [slots, if_pos rfl]
  have other : ∀ i, i ≠ k.currentTask → (left.tasks i).slot = (k.tasks i).slot :=
    fun i differ => by rw [slots, if_neg differ]
  simp only [Task.slot, Prod.mk.injEq] at zombie other
  have zero : (0 : Nat) ≠ k.currentTask := by
    intro same
    rw [invariant.current_pid, ← same] at user
    exact user rfl
  have owns : ∀ i, left.OwnsStack i → i ≠ k.currentTask ∧ k.OwnsStack i := by
    rintro i ⟨inside, inUse, alive⟩
    have differ : i ≠ k.currentTask := by
      rintro rfl
      exact alive zombie.2.1
    obtain ⟨pid, state, _, _⟩ := other i differ
    exact ⟨differ, inside, by rwa [Task.InUse, ← pid], by rwa [← state]⟩
  refine ⟨fun i inside => ?_, fun i inside inUse running => ?_, ?_, fun i own => ?_,
    fun i j own own' same => ?_⟩
  · by_cases same : i = k.currentTask
    · subst same
      rw [zombie.1]
      exact .inl invariant.current_pid
    · rw [(other i same).1]
      exact invariant.pid i inside
  · by_contra differ
    rw [current] at differ
    obtain ⟨pid, state, _, _⟩ := other i differ
    rw [Task.InUse, pid] at inUse
    rw [state] at running
    exact differ (invariant.running i inside inUse running)
  · obtain ⟨pid, state, _, _⟩ := other 0 zero
    rw [Task.InUse, pid, state]
    exact invariant.kernelTask
  · obtain ⟨differ, own⟩ := owns i own
    rw [(other i differ).2.2.2, freed, AList.mem_erase]
    refine ⟨fun same => differ ?_, invariant.allocated i own⟩
    obtain ⟨inside, inUse, running⟩ := invariant.current
    exact invariant.distinct i k.currentTask own ⟨inside, inUse, by
      simp only [Kernel.current] at running
      simp [running]⟩ same
  · obtain ⟨differ, own⟩ := owns i own
    obtain ⟨differ', own'⟩ := owns j own'
    rw [(other i differ).2.2.2, (other j differ').2.2.2] at same
    exact invariant.distinct i j own own' same

end Kernel

/-! ## Runs -/

/-- One completed step of the process table. -/
inductive TaskCall where
  | fork
  | exit (status : Int)
  | pause
  | timer
  | kill (pid sign : Int)
  | waitpid (pid : Int)

/-- The steps: `sys_exit` is that of a task other than 0, and `sys_waitpid` has returned. -/
inductive TaskStep (width : Nat) : Kernel → TaskCall → Kernel → Prop
  | fork {k : Kernel} (blocks : Blocks) : TaskStep width k .fork (k.sysFork width blocks).1
  | exit {k : Kernel} (status : Int) (user : k.current.pid ≠ 0) :
      TaskStep width k (.exit status) (k.sysExit status)
  | pause {k : Kernel} : TaskStep width k .pause k.sysPause
  | timer {k : Kernel} : TaskStep width k .timer k.switchTask
  | kill {k : Kernel} (pid sign : Int) :
      TaskStep width k (.kill pid sign) (k.sysKill pid sign).1
  | waitpid {k k' : Kernel} {pid ret : Int} {statloc : Bool} {status : Option Int}
      (returns : k.sysWaitpid pid statloc = some (k', ret, status)) :
      TaskStep width k (.waitpid pid) k'

/-- Runs from `setup_tasking`. -/
def taskSystem (width : Nat) : TransitionSystem Kernel TaskCall where
  initial k := ∃ blocks boot, k = Kernel.setupTasking blocks boot
  step := TaskStep width

namespace Kernel

variable {k : Kernel}

/-- `setup_tasking` establishes the invariant. -/
theorem setupTasking_invariant (blocks : Blocks) (boot : Kernel) :
    (setupTasking blocks boot).TableInvariant := by
  have zero : ∀ i, (setupTasking blocks boot).OwnsStack i → i = 0 := by
    rintro i ⟨inside, inUse, _⟩
    by_contra other
    simp [setupTasking, other, inside, Task.InUse] at inUse
  refine ⟨⟨fun i inside => ?_, fun i inside inUse _ => ?_, ?_, fun i own => ?_,
    fun i j own own' _ => ?_⟩, ?_⟩
  · by_cases first : i = 0
    · simp [setupTasking, first]
    · simp [setupTasking, first, inside]
  · by_contra other
    simp only [setupTasking] at other inUse
    simp [other, inside, Task.InUse] at inUse
  · simp [setupTasking, Task.InUse, noTask]
  · rw [zero i own]
    simp [setupTasking]
  · rw [zero i own, zero j own']
  · simp [setupTasking, Kernel.current, Task.InUse, noTask, nrTasks]

/-- The states of the same slots satisfy the same invariant. -/
theorem TableInvariant.congr {k' : Kernel} (invariant : k.TableInvariant)
    (slots : ∀ i, (k'.tasks i).slot = (k.tasks i).slot)
    (current : k'.currentTask = k.currentTask) (stack : k'.kernelStack = k.kernelStack) :
    k'.TableInvariant := by
  refine ⟨invariant.toSwitchable.congr slots current stack, ?_⟩
  have slot := slots k.currentTask
  simp only [Task.slot, Prod.mk.injEq] at slot
  simpa only [Kernel.current, current, Task.InUse, slot] using invariant.current

/-- `sys_fork` keeps the invariant. -/
theorem TableInvariant.fork (invariant : k.TableInvariant) (width : Nat) (blocks : Blocks) :
    (k.sysFork width blocks).1.TableInvariant := by
  cases found : k.freeSlot with
  | none => simpa only [sysFork, found] using invariant
  | some child =>
    obtain ⟨inside, inUse, running⟩ := invariant.current
    obtain ⟨childInside, free⟩ := freeSlot_some found
    have apart : k.currentTask ≠ child := by
      rintro rfl
      exact free inUse
    set stack := blocks.kernelStack.address k.kernelStack with stack_def
    have fresh : stack ∉ k.kernelStack :=
      AList.lookup_eq_none.mp (blocks.kernelStack.address_fresh k.kernelStack)
    set k' := (k.sysFork width blocks).1 with forked_def
    have slots := sysFork_slot width blocks found inUse
    simp only [← forked_def, ← stack_def] at slots
    have current : k'.currentTask = k.currentTask := by simp [forked_def, sysFork, found, setTask]
    have allocated : ∀ a, a ∈ k'.kernelStack ↔ a = stack ∨ a ∈ k.kernelStack := by
      simp [forked_def, sysFork, found, setTask, ← stack_def]
    have parentSlot := slots k.currentTask
    have childSlot := slots child
    simp only [if_true, if_neg (Ne.symm apart)] at parentSlot childSlot
    have otherSlot : ∀ i, i ≠ k.currentTask → i ≠ child → (k'.tasks i).slot = (k.tasks i).slot :=
      fun i differ differ' => by rw [slots, if_neg differ, if_neg differ']
    simp only [Task.slot, Prod.mk.injEq] at parentSlot childSlot otherSlot
    have parentOwns : k.OwnsStack k.currentTask :=
      ⟨inside, inUse, by simp only [Kernel.current] at running; simp [running]⟩
    -- the stack of the parent is fresh, the child has the one of the parent
    have owned : ∀ i, k'.OwnsStack i → i = k.currentTask ∧ (k'.tasks i).kernelStack = stack ∨
        ∃ j, k.OwnsStack j ∧ (k'.tasks i).kernelStack = (k.tasks j).kernelStack ∧
          i = if j = k.currentTask then child else j := by
      rintro i ⟨inside', inUse', alive⟩
      by_cases parent : i = k.currentTask
      · subst parent
        exact .inl ⟨rfl, parentSlot.2.2.2⟩
      · by_cases isChild : i = child
        · subst isChild
          exact .inr ⟨k.currentTask, parentOwns, childSlot.2.2.2, by simp⟩
        · obtain ⟨pid, state, _, kept⟩ := otherSlot i parent isChild
          refine .inr ⟨i, ⟨inside', ?_, ?_⟩, kept, by simp [parent]⟩
          · rwa [Task.InUse, ← pid]
          · rwa [← state]
    refine ⟨⟨fun i inside' => ?_, fun i inside' inUse' running' => ?_, ?_, fun i own => ?_,
      fun i j own own' same => ?_⟩, ?_⟩
    · by_cases parent : i = k.currentTask
      · subst parent
        rw [parentSlot.1]
        exact .inl invariant.current_pid
      · by_cases isChild : i = child
        · subst isChild
          exact .inl childSlot.1
        · rw [(otherSlot i parent isChild).1]
          exact invariant.pid i inside'
    · rw [current]
      by_contra parent
      by_cases isChild : i = child
      · subst isChild
        rw [childSlot.2.1] at running'
        cases running'
      · obtain ⟨pid, state, _, _⟩ := otherSlot i parent isChild
        rw [Task.InUse, pid] at inUse'
        rw [state] at running'
        exact parent (invariant.running i inside' inUse' running')
    · by_cases parent : 0 = k.currentTask
      · rw [parent, Task.InUse, parentSlot.1, parentSlot.2.1, running]
        exact ⟨inUse, by decide⟩
      · have notChild : 0 ≠ child := by
          rintro rfl
          exact free invariant.kernelTask.1
        obtain ⟨pid, state, _, _⟩ := otherSlot 0 parent notChild
        rw [Task.InUse, pid, state]
        exact invariant.kernelTask
    · rw [allocated]
      rcases owned i own with ⟨_, isFresh⟩ | ⟨j, own', kept, _⟩
      · exact .inl isFresh
      · rw [kept]
        exact .inr (invariant.allocated j own')
    · rcases owned i own with ⟨rfl, isFresh⟩ | ⟨i', own₁, kept, place⟩ <;>
        rcases owned j own' with ⟨rfl, isFresh'⟩ | ⟨j', own₂, kept', place'⟩
      · rfl
      · rw [isFresh, kept'] at same
        exact absurd (same ▸ invariant.allocated j' own₂) fresh
      · rw [kept, isFresh'] at same
        exact absurd (same ▸ invariant.allocated i' own₁) fresh
      · rw [kept, kept'] at same
        rw [place, place', invariant.distinct i' j' own₁ own₂ same]
    · rw [Kernel.current, current, Task.InUse, parentSlot.1, parentSlot.2.1]
      exact ⟨inside, inUse, running⟩

/-- Reaping a zombie keeps the invariant. -/
theorem TableInvariant.reap (invariant : k.TableInvariant) {i : Nat} (nonzero : i ≠ 0)
    (zombie : (k.tasks i).state = .zombie) :
    (k.setTask i fun t => { t with pid := noTask }).TableInvariant := by
  have tasks (j : Nat) := setTask_tasks k i j fun t => { t with pid := noTask }
  have away : k.currentTask ≠ i := by
    rintro rfl
    have := invariant.current.2.2
    simp [Kernel.current, zombie] at this
  have owns : ∀ j, (k.setTask i fun t => { t with pid := noTask }).OwnsStack j →
      j ≠ i ∧ k.OwnsStack j := by
    rintro j ⟨inside, inUse, alive⟩
    rw [tasks] at inUse alive
    split at inUse
    · exact absurd rfl inUse
    · rename_i differ
      rw [if_neg differ] at alive
      exact ⟨differ, inside, inUse, alive⟩
  refine ⟨⟨fun j inside => ?_, fun j inside inUse running => ?_, ?_, fun j own => ?_,
    fun j j' own own' same => ?_⟩, ?_⟩
  · rw [tasks]
    split
    · exact .inr rfl
    · exact invariant.pid j inside
  · rw [tasks] at inUse running
    split at inUse
    · exact absurd rfl inUse
    · rename_i differ
      rw [if_neg differ] at running
      exact invariant.running j inside inUse running
  · rw [tasks, if_neg (Ne.symm nonzero)]
    exact invariant.kernelTask
  · obtain ⟨differ, own⟩ := owns j own
    rw [tasks, if_neg differ]
    exact invariant.allocated j own
  · obtain ⟨differ, own⟩ := owns j own
    obtain ⟨differ', own'⟩ := owns j' own'
    rw [tasks, tasks, if_neg differ, if_neg differ'] at same
    exact invariant.distinct j j' own own' same
  · rw [Kernel.current]
    change k.currentTask < nrTasks ∧ ((k.setTask i _).tasks k.currentTask).InUse ∧
      ((k.setTask i _).tasks k.currentTask).state = .running
    rw [tasks, if_neg away]
    exact invariant.current

/-- What a `sys_waitpid` that returns has done. -/
theorem sysWaitpid_cases {k' : Kernel} {pid ret : Int} {statloc : Bool} {status : Option Int}
    (returns : k.sysWaitpid pid statloc = some (k', ret, status)) :
    k' = k ∧ (pid ≤ 0 ∨ nrTasks ≤ pid) ∨
      0 < pid ∧ pid < nrTasks ∧ (k.tasks pid.toNat).state = .zombie ∧
        k' = k.setTask pid.toNat fun t => { t with pid := noTask } := by
  unfold sysWaitpid at returns
  split at returns
  · rename_i outside
    simp only [Option.some.injEq, Prod.mk.injEq] at returns
    exact .inl ⟨returns.1.symm, outside⟩
  · rename_i inside
    dsimp only at returns
    split at returns
    · cases returns
    · rename_i zombie
      simp only [Option.some.injEq, Prod.mk.injEq] at returns
      exact .inr ⟨by omega, by omega, not_not.mp zombie, returns.1.symm⟩

/-- Every step keeps the invariant. -/
theorem TableInvariant.step {k' : Kernel} {width : Nat} {call : TaskCall}
    (invariant : k.TableInvariant) (step : TaskStep width k call k') : k'.TableInvariant := by
  cases step with
  | fork blocks => exact invariant.fork width blocks
  | exit status user =>
    obtain ⟨left, ends, current, freed, slots⟩ := sysExit_slot k status user
    rw [ends]
    exact (invariant.left user current freed slots).switchTask
  | pause => exact invariant.blocked.switchTask
  | timer => exact invariant.toSwitchable.switchTask
  | kill pid sign =>
    have only := sysKill_signals k pid sign
    exact invariant.congr (fun i => (only.slot i).1) (only.slot 0).2.1 (only.slot 0).2.2
  | waitpid returns =>
    rcases sysWaitpid_cases returns with ⟨rfl, _⟩ | ⟨positive, _, zombie, rfl⟩
    · exact invariant
    · exact invariant.reap (by omega) zombie

/-- The exited task is left alone by every step that does not reap it. -/
theorem TableInvariant.exited {k' : Kernel} {width i : Nat} {code : Int} {call : TaskCall}
    (invariant : k.TableInvariant) (inside : i < nrTasks) (exited : k.Exited i code)
    (spared : call ≠ .waitpid i) (step : TaskStep width k call k') :
    k'.Exited i code ∧ k'.currentTask ≠ i := by
  have away : i ≠ k.currentTask := by
    rintro rfl
    have running := invariant.current.2.2
    rw [Kernel.current, exited.2.1] at running
    cases running
  have slotExited : ∀ t : Task, t.slot = (k.tasks i).slot →
      t.InUse ∧ t.state = .zombie ∧ t.exitCode = code := by
    intro t same
    simp only [Task.slot, Prod.mk.injEq] at same
    rw [Task.InUse, same.1, same.2.1, same.2.2.1]
    exact exited
  cases step with
  | fork blocks =>
    cases found : k.freeSlot with
    | none =>
      simp only [sysFork, found]
      exact ⟨exited, Ne.symm away⟩
    | some child =>
      have notChild : i ≠ child := by
        rintro rfl
        exact (freeSlot_some found).2 exited.1
      have slots := sysFork_slot width blocks found invariant.current.2.1 i
      rw [if_neg away, if_neg notChild] at slots
      refine ⟨slotExited _ slots, ?_⟩
      simpa [sysFork, found, setTask] using Ne.symm away
  | exit status user =>
    obtain ⟨left, ends, current, freed, slots⟩ := sysExit_slot k status user
    rw [ends]
    exact (invariant.left user current freed slots).exited
      (slotExited _ (by rw [slots, if_neg away]))
  | pause =>
    refine invariant.blocked.exited (slotExited _ ?_)
    rw [setTask_tasks, if_neg away]
  | timer => exact invariant.toSwitchable.exited exited
  | kill pid sign =>
    have only := sysKill_signals k pid sign
    exact ⟨slotExited _ (only.slot i).1, by rw [(only.slot 0).2.1]; exact Ne.symm away⟩
  | @waitpid _ pid _ _ _ returns =>
    rcases sysWaitpid_cases returns with ⟨rfl, _⟩ | ⟨positive, _, _, rfl⟩
    · exact ⟨exited, Ne.symm away⟩
    · have other : i ≠ pid.toNat := by
        rintro rfl
        exact spared (by rw [Int.toNat_of_nonneg (by omega)])
      refine ⟨slotExited _ ?_, Ne.symm away⟩
      rw [setTask_tasks, if_neg other]

/-- `sys_exit` makes the task that calls it a zombie with its exit status. -/
theorem TableInvariant.exits (invariant : k.TableInvariant) (status : Int)
    (user : k.current.pid ≠ 0) : (k.sysExit status).Exited k.currentTask status := by
  obtain ⟨left, ends, current, freed, slots⟩ := sysExit_slot k status user
  rw [ends]
  have zombie := slots k.currentTask
  simp only [if_true, Task.slot, Prod.mk.injEq] at zombie
  refine ((invariant.left user current freed slots).exited ⟨?_, zombie.2.1, zombie.2.2.1⟩).1
  rw [Task.InUse, zombie.1]
  exact invariant.current.2.1

end Kernel

/-- The process table, in every state reached from `setup_tasking`: a slot in use holds the
task of its number; the current task is in use and the only running one; a task that calls
`sys_exit` becomes a zombie that keeps its exit code and is not made current again until
`sys_waitpid` reaps it; and tasks that have not exited have allocated, pairwise distinct
kernel stacks. -/
theorem process_table_invariant {width : Nat} {k : Kernel}
    (reached : (taskSystem width).Reachable k) :
    (∀ i < nrTasks, (k.tasks i).pid = i ∨ (k.tasks i).pid = noTask) ∧
    (k.currentTask < nrTasks ∧ k.current.InUse ∧
      ∀ i < nrTasks, (k.tasks i).InUse → ((k.tasks i).state = .running ↔ i = k.currentTask)) ∧
    (∀ status, k.current.pid ≠ 0 → (k.sysExit status).Exited k.currentTask status) ∧
    (∀ i < nrTasks, ∀ code, k.Exited i code → ∀ calls k',
      (taskSystem width).Path (fun _ call => call ≠ .waitpid i) k calls k' →
        k'.Exited i code ∧ k'.currentTask ≠ i) ∧
    (∀ i j, k.OwnsStack i → k.OwnsStack j →
      (k.tasks i).kernelStack = (k.tasks j).kernelStack → i = j) ∧
    (∀ i, k.OwnsStack i → (k.tasks i).kernelStack ∈ k.kernelStack) := by
  have invariant : k.TableInvariant := by
    refine reached.invariant ?_ fun k call k' invariant _ step => invariant.step step
    rintro _ ⟨blocks, boot, rfl⟩
    exact Kernel.setupTasking_invariant blocks boot
  obtain ⟨inside, inUse, running⟩ := invariant.current
  refine ⟨invariant.pid, ⟨inside, inUse, fun i inside' inUse' =>
      ⟨invariant.running i inside' inUse', ?_⟩⟩,
    fun status user => invariant.exits status user,
    fun i inside' code exited calls k' path => ?_, invariant.distinct, invariant.allocated⟩
  · rintro rfl
    exact running
  · have kept := path.keeps
      (fun k' => k'.TableInvariant ∧ k'.Exited i code ∧ k'.currentTask ≠ i)
      (fun k call k' holds spared step =>
        ⟨holds.1.step step, holds.1.exited inside' holds.2.1 spared step⟩)
      ⟨invariant, exited, fun same => by
        rw [Kernel.current, same, exited.2.1] at running
        cases running⟩
    exact kept.2

/-- The blocks of allocators that return the address after the largest one in use. -/
def Blocks.above : Blocks := ⟨.above File, .above Unit, .above Unit⟩

/-- The invariant of the table after `setup_tasking` and one fork. -/
theorem process_table_invariant_fork :
    let boot : Kernel := { tasks := fun _ => {} }
    let k := (Kernel.sysFork ucharWidth Blocks.above (Kernel.setupTasking Blocks.above boot)).1
    ∀ i j, k.OwnsStack i → k.OwnsStack j →
      (k.tasks i).kernelStack = (k.tasks j).kernelStack → i = j := by
  intro boot k
  have started : (taskSystem ucharWidth).Reachable (Kernel.setupTasking Blocks.above boot) :=
    .start ⟨_, _, rfl⟩
  exact (process_table_invariant (started.next trivial (.fork Blocks.above))).2.2.2.2.1

end Nupkux
