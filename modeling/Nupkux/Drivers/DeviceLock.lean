import Nupkux.Lib.QueueLock
import Nupkux.Kernel.Bystanders

/-!
# Device locks

`device_lock` and `device_unlock` of `drivers.c`, one atomic part after the other, for any
number of devices and tasks. The request queue of a device is the list of the numbers in its
`request_t`s. Any ready task may be chosen when the timer fires, as `schedule` chooses one.
-/

namespace Nupkux

/-- How far a task is in `device_lock` or `device_unlock`. -/
inductive LockPosition where
  /-- In none of them. -/
  | idle
  /-- In the loop of `device_lock`, before its test. -/
  | testing (device : Nat)
  /-- The test of the loop has told the task to pause. -/
  | pausing (device : Nat)
  /-- In `device_unlock`, where the request is removed already. -/
  | waking (device : Nat)
  deriving DecidableEq, Repr, Inhabited

/-- The devices and where each task is. -/
structure Locking where
  kernel : Kernel
  /-- `dev->queue`. -/
  queue : Nat → List Int
  position : Nat → LockPosition
  /-- Whether a task is between its lock and its unlock of a device. -/
  holds : Nat → Nat → Bool

namespace Locking

/-- The current task goes on to another part. -/
def goto (s : Locking) (position : LockPosition) : Locking :=
  { s with position := Function.update s.position s.kernel.currentTask position }

/-- The current task is between its lock and its unlock of a device, or not. -/
def setHolds (s : Locking) (device : Nat) (held : Bool) : Locking :=
  let task := s.kernel.currentTask
  { s with holds := Function.update s.holds task (Function.update (s.holds task) device held) }

/-- The first part of `device_lock`: the request is appended. -/
def appendRequest (s : Locking) (device : Nat) : Locking :=
  let queue := s.queue device ++ [s.kernel.current.pid]
  { s with queue := Function.update s.queue device queue }.goto (.testing device)

/-- `dev->queue->pid != current_task->pid` does not hold. -/
def isFirst (s : Locking) (device : Nat) : Bool :=
  (s.queue device).head? == some s.kernel.current.pid

/-- The test of the loop of `device_lock`. -/
def testHead (s : Locking) (device : Nat) : Locking :=
  if s.isFirst device then (s.setHolds device true).goto .idle else s.goto (.pausing device)

/-- The body of the loop of `device_lock`. -/
def pauseTurn (s : Locking) (device : Nat) : Locking :=
  { s.goto (.testing device) with kernel := s.kernel.sysPause }

/-- The first part of `device_unlock`: the request is removed, if it is the first one. -/
def removeRequest (s : Locking) (device : Nat) : Locking :=
  if s.isFirst device then
    let s := { s with queue := Function.update s.queue device (s.queue device).tail }
    (s.setHolds device false).goto (.waking device)
  else s

/-- The last part of `device_unlock`: the task whose request is the first one is told. -/
def wakeHead (s : Locking) (device : Nat) : Locking :=
  match s.queue device with
  | [] => s.goto .idle
  | pid :: _ => { s.goto .idle with kernel := (s.kernel.sysKill pid SIGCONT).1 }

/-- The task waits in `device_lock` for the device. -/
def Waits (s : Locking) (i device : Nat) : Prop :=
  s.position i = .testing device ∨ s.position i = .pausing device

end Locking

/-- What the current task does; requests name it by its number. -/
inductive LockEvent where
  | call (call : TaskCall)
  | timer (next : Nat)
  | request (pid : Int) (device : Nat)
  | test (pid : Int) (device : Nat) (entered : Bool)
  | pause (device : Nat)
  | remove (pid : Int) (device : Nat)
  | wake (device : Nat)

/-- The steps of the current task, in `device_lock` and `device_unlock` or elsewhere, and the
timer. -/
inductive LockStep (width : Nat) : Locking → LockEvent → Locking → Prop
  | call {s : Locking} {call : TaskCall} {kernel : Kernel}
      (idle : s.position s.kernel.currentTask = .idle)
      (step : TaskStep width s.kernel call kernel) :
      LockStep width s (.call call) { s with kernel }
  | timer {s : Locking} {next : Nat} (selectable : s.kernel.Selectable next) :
      LockStep width s (.timer next) { s with kernel := s.kernel.dispatch next }
  | request {s : Locking} (device : Nat) (idle : s.position s.kernel.currentTask = .idle) :
      LockStep width s (.request s.kernel.current.pid device) (s.appendRequest device)
  | test {s : Locking} {device : Nat}
      (testing : s.position s.kernel.currentTask = .testing device) :
      LockStep width s (.test s.kernel.current.pid device (s.isFirst device))
        (s.testHead device)
  | pause {s : Locking} {device : Nat}
      (pausing : s.position s.kernel.currentTask = .pausing device) :
      LockStep width s (.pause device) (s.pauseTurn device)
  | remove {s : Locking} (device : Nat) (idle : s.position s.kernel.currentTask = .idle) :
      LockStep width s (.remove s.kernel.current.pid device) (s.removeRequest device)
  | wake {s : Locking} {device : Nat}
      (waking : s.position s.kernel.currentTask = .waking device) :
      LockStep width s (.wake device) (s.wakeHead device)

/-- The task that `schedule` does choose is one of those the timer may switch to. -/
theorem LockStep.switchTask (width : Nat) (s : Locking) :
    LockStep width s (.timer s.kernel.nextTask) { s with kernel := s.kernel.switchTask } :=
  .timer s.kernel.nextTask_cases

/-- Runs from `setup_tasking`, with no request. -/
def locking (width : Nat) : TransitionSystem Locking LockEvent where
  initial s := (∃ blocks boot, s.kernel = Kernel.setupTasking blocks boot) ∧
    (∀ d, s.queue d = []) ∧ (∀ i, s.position i = .idle) ∧ ∀ i d, s.holds i d = false
  step := LockStep width

/-- A task locks no device it holds, unlocks as the holder only, and does not exit while it
has a request. -/
def Disciplined (s : Locking) : LockEvent → Prop
  | .request _ device => s.holds s.kernel.currentTask device = false
  | .remove _ device => s.holds s.kernel.currentTask device = true
  | .call (.exit _) => ∀ device, s.kernel.current.pid ∉ s.queue device
  | _ => True

/-- What an event is to the lock of a device. -/
def lockAction (device : Nat) : LockEvent → Option (LockAction Int)
  | .request pid d => if d = device then some (.request pid) else none
  | .test pid d true => if d = device then some (.enter pid) else none
  | .remove pid d => if d = device then some (.leave pid) else none
  | _ => none

namespace Locking

/-- The lock of a device. -/
def view (device : Nat) (s : Locking) : QueueLock Int where
  queue := s.queue device
  entered := (s.queue device).head?.any fun pid => s.holds pid.toNat device

/-- What holds of the devices in every run. -/
structure Ordered (s : Locking) : Prop where
  table : s.kernel.TableInvariant
  /-- All tasks are in one process group. -/
  group : ∀ i < nrTasks, (s.kernel.tasks i).InUse → (s.kernel.tasks i).pgrp = 0
  /-- A request is that of a task that has not exited. -/
  present : ∀ d, ∀ pid ∈ s.queue d, ∃ i : Nat, pid = i ∧ i < nrTasks ∧
    (s.kernel.tasks i).InUse ∧ (s.kernel.tasks i).state ≠ .zombie
  /-- No task has two requests for a device. -/
  nodup : ∀ d, (s.queue d).Nodup
  /-- A task has a request while it waits for the device or holds it. -/
  member : ∀ d, ∀ i : Nat, (i : Int) ∈ s.queue d ↔ s.holds i d = true ∨ s.Waits i d
  /-- A task that holds a device does not wait for it. -/
  exclusive : ∀ d i, s.holds i d = true → ¬s.Waits i d
  /-- The holder has the first request. -/
  first : ∀ d, ∀ i : Nat, s.holds i d = true → (s.queue d).head? = some (i : Int)
  /-- A waiting task with the first request is told, or will be, or has not paused yet. -/
  woken : ∀ d, ∀ i : Nat, s.Waits i d → (s.queue d).head? = some (i : Int) →
    (∃ u, s.position u = .waking d) ∨ (s.kernel.tasks i).signals ≠ 0 ∨
      s.position i = .testing d ∧ (s.kernel.tasks i).state ≠ .blocked

variable {s : Locking} {d e i : Nat} {p : LockPosition}

@[simp] theorem goto_kernel : (s.goto p).kernel = s.kernel := rfl

@[simp] theorem goto_queue : (s.goto p).queue = s.queue := rfl

@[simp] theorem goto_holds : (s.goto p).holds = s.holds := rfl

/-- Only the current task goes on. -/
theorem goto_position : (s.goto p).position i =
    if i = s.kernel.currentTask then p else s.position i :=
  Function.update_apply ..

@[simp] theorem setHolds_kernel (b : Bool) : (s.setHolds d b).kernel = s.kernel := rfl

@[simp] theorem setHolds_position (b : Bool) : (s.setHolds d b).position = s.position := rfl

/-- Whether a device is held. -/
theorem setHolds_holds (b : Bool) : (s.setHolds d b).holds i e =
    if i = s.kernel.currentTask ∧ e = d then b else s.holds i e := by
  unfold setHolds
  dsimp only
  rw [Function.update_apply]
  by_cases here : i = s.kernel.currentTask
  · rw [if_pos here, Function.update_apply, here]
    by_cases same : e = d
    · rw [if_pos same, if_pos ⟨rfl, same⟩]
    · rw [if_neg same, if_neg fun both => same both.2]
  · rw [if_neg here, if_neg fun both => here both.1]

/-- The current task has the first request. -/
theorem Ordered.isFirst_iff (ordered : s.Ordered) :
    s.isFirst d = true ↔ (s.queue d).head? = some (s.kernel.currentTask : Int) := by
  rw [isFirst, beq_iff_eq, ordered.table.current_pid]

/-- A queue with a first request. -/
theorem front_rest {pid : Int} (front : (s.queue d).head? = some pid) :
    ∃ rest, s.queue d = pid :: rest :=
  ⟨(s.queue d).tail, (List.cons_head?_tail front).symm⟩

/-- A change of the process table keeps the order, if no task with a request dies and no
waiting task loses its signals or is newly blocked before it tests. -/
theorem Ordered.move (ordered : s.Ordered) {kernel : Kernel} (table : kernel.TableInvariant)
    (group : ∀ i < nrTasks, (kernel.tasks i).InUse → (kernel.tasks i).pgrp = 0)
    (death : ∀ d, ∀ i : Nat, (i : Int) ∈ s.queue d → i < nrTasks →
      (s.kernel.tasks i).InUse → (s.kernel.tasks i).state ≠ .zombie →
        (kernel.tasks i).death = (s.kernel.tasks i).death)
    (pending : ∀ d i, s.Waits i d → (s.kernel.tasks i).signals ≠ 0 →
      (kernel.tasks i).signals ≠ 0)
    (blocked : ∀ d i, s.position i = .testing d → (s.kernel.tasks i).InUse →
      (kernel.tasks i).state = .blocked → (s.kernel.tasks i).state = .blocked) :
    Ordered { s with kernel } := by
  refine ⟨table, group, fun d pid request => ?_, ordered.nodup, ordered.member,
    ordered.exclusive, ordered.first, fun d i waits first => ?_⟩
  · obtain ⟨i, rfl, inside, inUse, awake⟩ := ordered.present d pid request
    have same := death d i request inside inUse awake
    exact ⟨i, rfl, inside, (Task.inUse_of_death same).mpr inUse,
      fun zombie => awake ((Task.zombie_of_death same).mp zombie)⟩
  · rcases ordered.woken d i waits first with waking | signalled | ⟨testing, ready⟩
    · exact .inl waking
    · exact .inr (.inl (pending d i waits signalled))
    · obtain ⟨j, same, _, inUse, _⟩ := ordered.present d i ((ordered.member d i).mpr (.inr waits))
      rw [← Int.ofNat_inj.mp same] at inUse
      exact .inr (.inr ⟨testing, fun stuck => ready (blocked d i testing inUse stuck)⟩)

/-- A call of a task that is in no lock keeps the order. -/
theorem Ordered.call (ordered : s.Ordered) {width : Nat} {call : TaskCall} {kernel : Kernel}
    (idle : s.position s.kernel.currentTask = .idle)
    (step : TaskStep width s.kernel call kernel) (discipline : Disciplined s (.call call)) :
    Ordered { s with kernel } := by
  have table := ordered.table
  have away : ∀ d i, s.Waits i d → i ≠ s.kernel.currentTask := by
    rintro d i waits rfl
    simp [Waits, idle] at waits
  have inUse : ∀ d i, s.Waits i d → (s.kernel.tasks i).InUse := by
    intro d i waits
    obtain ⟨j, same, _, inUse, _⟩ := ordered.present d i ((ordered.member d i).mpr (.inr waits))
    exact Int.ofNat_inj.mp same ▸ inUse
  refine ordered.move (table.step step) (fun i inside inUse => ?_)
    (fun d i request inside inUse awake => ?_) (fun d i waits => ?_)
    (fun d i testing inUse blocked => ?_)
  · rcases step.group table inUse with ⟨before, same⟩ | same
    · rw [same, ordered.group i inside before]
    · rw [same]
      exact ordered.group _ table.current.1 table.current.2.1
  · refine step.death table inUse awake fun same status exits => ?_
    rw [exits] at discipline
    apply discipline d
    rw [table.current_pid, ← same]
    exact request
  · exact (step.undisturbed table (inUse d i waits) (away d i waits)).pending
  · exact (step.undisturbed table inUse (away d i (.inl testing))).blocked blocked

/-- A choice of the scheduler keeps the order. -/
theorem Ordered.timer (ordered : s.Ordered) {next : Nat} (selectable : s.kernel.Selectable next) :
    Ordered { s with kernel := s.kernel.dispatch next } := by
  obtain ⟨inside, inUse, awake⟩ := ordered.table.toSwitchable.selectable selectable
  have death := Kernel.dispatch_death awake
  have calm := Kernel.dispatch_undisturbed s.kernel next
  refine ordered.move (ordered.table.dispatch inside inUse awake) (fun i inside inUse => ?_)
    (fun d i _ _ _ _ => death i) (fun d i _ => (calm i).pending)
    (fun d i _ _ => (calm i).blocked)
  rw [(calm i).group]
  exact ordered.group i inside ((Task.inUse_of_death (death i)).mp inUse)

/-- A paused task that goes back to its test keeps the order: it was told before it paused, or
will be. -/
theorem Ordered.retest (ordered : s.Ordered) (pausing : s.position i = .pausing d) :
    Ordered { s with position := Function.update s.position i (.testing d) } := by
  have waits : ∀ e j, Waits { s with position := Function.update s.position i (.testing d) } j e ↔
      s.Waits j e := by
    intro e j
    by_cases same : j = i
    · rw [same]
      simp [Waits, pausing]
    · simp [Waits, same]
  refine ⟨ordered.table, ordered.group, ordered.present, ordered.nodup, fun e j => ?_,
    fun e j held => ?_, ordered.first, fun e j waiting first => ?_⟩
  · rw [waits]
    exact ordered.member e j
  · rw [waits]
    exact ordered.exclusive e j held
  · rcases ordered.woken e j ((waits e j).mp waiting) first with ⟨u, waking⟩ | signalled | testing
    · left
      refine ⟨u, ?_⟩
      have other : u ≠ i := by
        rintro rfl
        simp [pausing] at waking
      rw [← waking]
      exact Function.update_of_ne other ..
    · exact .inr (.inl signalled)
    · right; right
      have other : j ≠ i := by
        rintro rfl
        simp [pausing] at testing
      simpa only [Function.update_of_ne other] using testing

/-- The body of the loop of `device_lock` keeps the order. -/
theorem Ordered.pause (ordered : s.Ordered)
    (pausing : s.position s.kernel.currentTask = .pausing d) : (s.pauseTurn d).Ordered := by
  have table := ordered.table
  have paused : Ordered { s with kernel := s.kernel.sysPause } := by
    refine ordered.move table.blocked.switchTask (fun i inside inUse => ?_)
      (fun e i _ _ _ _ => (table.pause_keeps i).1) (fun e i _ => s.kernel.pause_pending)
      (fun e i testing _ blocked => ?_)
    · have step : TaskStep ucharWidth s.kernel .pause s.kernel.sysPause := .pause
      rcases step.group table inUse with ⟨before, same⟩ | same
      · rw [same, ordered.group i inside before]
      · rw [same]
        exact ordered.group _ table.current.1 table.current.2.1
    · have other : i ≠ s.kernel.currentTask := by
        rintro rfl
        simp [pausing] at testing
      exact (s.kernel.pause_undisturbed other).blocked blocked
  exact paused.retest pausing

/-- An unlocker that is done keeps the order when the task with the first request is told. -/
theorem Ordered.done (ordered : s.Ordered) (waking : s.position i = .waking d)
    (told : ∀ j : Nat, s.Waits j d → (s.queue d).head? = some (j : Int) →
      (s.kernel.tasks j).signals ≠ 0) :
    Ordered { s with position := Function.update s.position i .idle } := by
  have waits : ∀ e j, Waits { s with position := Function.update s.position i .idle } j e ↔
      s.Waits j e := by
    intro e j
    by_cases same : j = i
    · rw [same]
      simp [Waits, waking]
    · simp [Waits, same]
  refine ⟨ordered.table, ordered.group, ordered.present, ordered.nodup, fun e j => ?_,
    fun e j held => ?_, ordered.first, fun e j waiting first => ?_⟩
  · rw [waits]
    exact ordered.member e j
  · rw [waits]
    exact ordered.exclusive e j held
  · have before := (waits e j).mp waiting
    rcases ordered.woken e j before first with ⟨u, other⟩ | signalled | testing
    · by_cases same : u = i
      · rw [same, waking] at other
        cases other
        exact .inr (.inl (told j before first))
      · left
        refine ⟨u, ?_⟩
        rw [← other]
        exact Function.update_of_ne same ..
    · exact .inr (.inl signalled)
    · right; right
      have other : j ≠ i := by
        rintro rfl
        simp [waking] at testing
      simpa only [Function.update_of_ne other] using testing

/-- A wake-up keeps the order: a task with the first request is told. -/
theorem Ordered.wake (ordered : s.Ordered)
    (waking : s.position s.kernel.currentTask = .waking d) : (s.wakeHead d).Ordered := by
  unfold wakeHead
  split
  · rename_i empty
    refine ordered.done waking fun j _ first => ?_
    simp [empty] at first
  · rename_i pid rest queue
    have table := ordered.table
    have step : TaskStep ucharWidth s.kernel (.kill pid SIGCONT) (s.kernel.sysKill pid SIGCONT).1 :=
      .kill pid SIGCONT
    have calm := s.kernel.kill_undisturbed pid SIGCONT
    have keeps := s.kernel.kill_keeps pid SIGCONT
    have killed : Ordered { s with kernel := (s.kernel.sysKill pid SIGCONT).1 } := by
      refine ordered.move (table.step step) (fun i inside inUse => ?_)
        (fun e i _ _ _ _ => (keeps i).1) (fun e i _ => (calm i).pending)
        (fun e i _ _ => (calm i).blocked)
      rw [(calm i).group]
      exact ordered.group i inside ((Task.inUse_of_death (keeps i).1).mp inUse)
    refine killed.done waking fun j _ first => ?_
    obtain ⟨i, same, inside, inUse, _⟩ := ordered.present d pid (queue ▸ List.mem_cons_self)
    have number : i = j := by
      have front : (s.queue d).head? = some (j : Int) := first
      rw [queue, List.head?_cons, same] at front
      exact Int.ofNat_inj.mp (Option.some.inj front)
    rw [same, ← number]
    apply Kernel.kill_continues inside inUse
    rw [ordered.group i inside inUse]
    exact (ordered.group _ table.current.1 table.current.2.1).symm

/-- Who waits once the current task has gone on. -/
theorem waits_goto : (s.goto p).Waits i d ↔
    if i = s.kernel.currentTask then p = .testing d ∨ p = .pausing d else s.Waits i d := by
  unfold Waits
  rw [goto_position]
  by_cases here : i = s.kernel.currentTask
  · rw [if_pos here, if_pos here]
  · rw [if_neg here, if_neg here]

/-- A current task that goes on outside the loop waits for nothing. -/
theorem waits_leave (outside : ∀ d, p ≠ .testing d ∧ p ≠ .pausing d) :
    (s.goto p).Waits i d ↔ i ≠ s.kernel.currentTask ∧ s.Waits i d := by
  rw [waits_goto]
  by_cases here : i = s.kernel.currentTask
  · rw [if_pos here]
    simp [here, outside d]
  · rw [if_neg here]
    simp [here]

/-- Another unlocker is still there when the current task goes on. -/
theorem waking_goto (other : s.position s.kernel.currentTask ≠ .waking d)
    (waking : ∃ u, s.position u = .waking d) : ∃ u, (s.goto p).position u = .waking d := by
  obtain ⟨u, there⟩ := waking
  refine ⟨u, ?_⟩
  rw [goto_position, if_neg]
  · exact there
  · rintro rfl
    exact other there

/-- A request keeps the order. -/
theorem Ordered.request (ordered : s.Ordered) (idle : s.position s.kernel.currentTask = .idle)
    (free : s.holds s.kernel.currentTask d = false) : (s.appendRequest d).Ordered := by
  have table := ordered.table
  have queues : ∀ e, (s.appendRequest d).queue e =
      if e = d then s.queue d ++ [(s.kernel.currentTask : Int)] else s.queue e := by
    intro e
    rw [← table.current_pid]
    exact Function.update_apply ..
  have waits : ∀ j e, (s.appendRequest d).Waits j e ↔
      if j = s.kernel.currentTask then e = d else s.Waits j e := by
    intro j e
    unfold appendRequest
    rw [waits_goto]
    simp only [LockPosition.testing.injEq, reduceCtorEq, or_false, eq_comm]
    rfl
  have absent : (s.kernel.currentTask : Int) ∉ s.queue d := by
    rw [ordered.member]
    simp [free, Waits, idle]
  refine ⟨table, ordered.group, fun e pid => ?_, fun e => ?_, fun e j => ?_,
    fun e j held => ?_, fun e j held => ?_, fun e j waiting first => ?_⟩
  · rw [queues]
    split
    · intro request
      rcases List.mem_append.mp request with before | here
      · exact ordered.present d pid before
      · refine ⟨s.kernel.currentTask, List.mem_singleton.mp here, table.current.1,
          table.current.2.1, ?_⟩
        exact fun zombie => absurd (table.current.2.2.symm.trans zombie) (by decide)
    · exact ordered.present e pid
  · rw [queues]
    split
    · apply List.nodup_append.mpr
      refine ⟨ordered.nodup d, List.nodup_singleton _, fun pid request last single same => ?_⟩
      rw [List.mem_singleton.mp single] at same
      exact absent (same ▸ request)
    · exact ordered.nodup e
  · have before := ordered.member e j
    rw [queues, waits]
    show _ ↔ s.holds j e = true ∨ _
    by_cases here : j = s.kernel.currentTask
    · rw [if_pos here]
      by_cases same : e = d
      · simp [same, here]
      · rw [if_neg same, before, here]
        simp [Waits, idle, same]
    · rw [if_neg here]
      by_cases same : e = d
      · have strange : (j : Int) ≠ s.kernel.currentTask := fun equal => here (Int.ofNat_inj.mp equal)
        rw [if_pos same, List.mem_append, ← same, before]
        simp [strange]
      · rw [if_neg same, before]
  · rw [waits]
    split
    · rename_i here
      rintro rfl
      rw [here] at held
      exact absurd (held.symm.trans free) (by decide)
    · exact ordered.exclusive e j held
  · have front := ordered.first e j held
    rw [queues]
    split
    · rename_i same
      rw [same] at front
      rw [List.head?_append, front]
      rfl
    · exact front
  · rw [waits] at waiting
    rw [queues] at first
    by_cases here : j = s.kernel.currentTask
    · right; right
      rw [here]
      rw [if_pos here] at waiting
      refine ⟨?_, fun blocked => absurd (table.current.2.2.symm.trans blocked) (by decide)⟩
      unfold appendRequest
      rw [goto_position, waiting]
      exact if_pos rfl
    · rw [if_neg here] at waiting
      have front : (s.queue e).head? = some (j : Int) := by
        split at first
        · rename_i same
          rw [List.head?_append] at first
          cases empty : s.queue d with
          | nil =>
            rw [empty] at first
            exact absurd (Int.ofNat_inj.mp (Option.some.inj first)).symm here
          | cons head rest =>
            rw [empty] at first
            rw [same, empty]
            exact first
        · exact first
      rcases ordered.woken e j waiting front with waking | signalled | testing
      · exact .inl (waking_goto (by simp [idle]) waking)
      · exact .inr (.inl signalled)
      · right; right
        unfold appendRequest
        rw [goto_position, if_neg here]
        exact testing

/-- A successful test keeps the order. -/
theorem Ordered.enter (ordered : s.Ordered)
    (testing : s.position s.kernel.currentTask = .testing d)
    (front : (s.queue d).head? = some (s.kernel.currentTask : Int)) :
    ((s.setHolds d true).goto .idle).Ordered := by
  have request : (s.kernel.currentTask : Int) ∈ s.queue d := List.mem_of_head? front
  have waits : ∀ j e, ((s.setHolds d true).goto .idle).Waits j e ↔
      j ≠ s.kernel.currentTask ∧ s.Waits j e :=
    fun j e => waits_leave (by simp)
  have holds : ∀ j e, ((s.setHolds d true).goto .idle).holds j e = true ↔
      (j = s.kernel.currentTask ∧ e = d) ∨ s.holds j e = true := by
    intro j e
    rw [goto_holds, setHolds_holds]
    by_cases here : j = s.kernel.currentTask ∧ e = d
    · simp [here]
    · rw [if_neg here]
      simp [here]
  refine ⟨ordered.table, ordered.group, ordered.present, ordered.nodup, fun e j => ?_,
    fun e j held => ?_, fun e j held => ?_, fun e j waiting first => ?_⟩
  · rw [holds, waits]
    show (j : Int) ∈ s.queue e ↔ _
    by_cases here : j = s.kernel.currentTask
    · by_cases same : e = d
      · simp [here, same, request]
      · rw [ordered.member, here]
        simp [Waits, testing, Ne.symm same, same]
    · rw [ordered.member]
      simp [here]
  · rw [waits]
    rintro ⟨other, waiting⟩
    exact ordered.exclusive e j (((holds j e).mp held).resolve_left fun both => other both.1)
      waiting
  · rcases (holds j e).mp held with ⟨here, same⟩ | before
    · rw [here, same]
      exact front
    · exact ordered.first e j before
  · obtain ⟨other, before⟩ := (waits j e).mp waiting
    rcases ordered.woken e j before first with waking | signalled | still
    · exact .inl (waking_goto (by simp [setHolds, testing]) waking)
    · exact .inr (.inl signalled)
    · right; right
      rw [goto_position]
      show (if j = s.kernel.currentTask then _ else _) = _ ∧ _
      rw [if_neg other]
      exact still

/-- A test that fails keeps the order. -/
theorem Ordered.fail (ordered : s.Ordered)
    (testing : s.position s.kernel.currentTask = .testing d)
    (later : (s.queue d).head? ≠ some (s.kernel.currentTask : Int)) :
    (s.goto (.pausing d)).Ordered := by
  have waits : ∀ j e, (s.goto (.pausing d)).Waits j e ↔ s.Waits j e := by
    intro j e
    rw [waits_goto]
    by_cases here : j = s.kernel.currentTask
    · rw [if_pos here, here]
      simp [Waits, testing]
    · rw [if_neg here]
  refine ⟨ordered.table, ordered.group, ordered.present, ordered.nodup, fun e j => ?_,
    fun e j held => ?_, ordered.first, fun e j waiting first => ?_⟩
  · rw [waits]
    exact ordered.member e j
  · rw [waits]
    exact ordered.exclusive e j held
  · rcases ordered.woken e j ((waits j e).mp waiting) first with waking | signalled | still
    · exact .inl (waking_goto (by simp [testing]) waking)
    · exact .inr (.inl signalled)
    · right; right
      have other : j ≠ s.kernel.currentTask := by
        rintro rfl
        rw [testing, LockPosition.testing.injEq] at still
        rw [← still.1] at first
        exact later first
      rw [goto_position, if_neg other]
      exact still

/-- The removal of the request of the holder keeps the order: the unlocker is still there. -/
theorem Ordered.remove (ordered : s.Ordered) (idle : s.position s.kernel.currentTask = .idle)
    (held : s.holds s.kernel.currentTask d = true) : (s.removeRequest d).Ordered := by
  have front := ordered.first d _ held
  obtain ⟨rest, queue⟩ := front_rest front
  have distinct := ordered.nodup d
  rw [queue, List.nodup_cons] at distinct
  let removed : Locking := { s with queue := Function.update s.queue d rest }
  have result : s.removeRequest d = (removed.setHolds d false).goto (.waking d) := by
    rw [removeRequest, if_pos (ordered.isFirst_iff.mpr front), queue]
    rfl
  have queues : ∀ e, ((removed.setHolds d false).goto (.waking d)).queue e =
      if e = d then rest else s.queue e :=
    fun e => Function.update_apply ..
  have waits : ∀ j e, ((removed.setHolds d false).goto (.waking d)).Waits j e ↔
      j ≠ s.kernel.currentTask ∧ s.Waits j e :=
    fun j e => waits_leave (by simp)
  have holds : ∀ j e, ((removed.setHolds d false).goto (.waking d)).holds j e = true ↔
      ¬(j = s.kernel.currentTask ∧ e = d) ∧ s.holds j e = true := by
    intro j e
    rw [goto_holds, setHolds_holds]
    by_cases here : j = removed.kernel.currentTask ∧ e = d
    · rw [if_pos here]
      exact ⟨fun never => absurd never (by decide), fun both => absurd here both.1⟩
    · rw [if_neg here]
      exact ⟨fun before => ⟨here, before⟩, fun both => both.2⟩
  rw [result]
  refine ⟨ordered.table, ordered.group, fun e pid request => ?_, fun e => ?_, fun e j => ?_,
    fun e j still => ?_, fun e j still => ?_, fun e j waiting first => ?_⟩
  · rw [queues] at request
    split at request
    · exact ordered.present d pid (queue ▸ List.mem_cons_of_mem _ request)
    · exact ordered.present e pid request
  · rw [queues]
    split
    · exact distinct.2
    · exact ordered.nodup e
  · rw [queues, waits, holds]
    have before := ordered.member e j
    by_cases same : e = d
    · rw [if_pos same]
      rw [same, queue, List.mem_cons] at before
      by_cases here : j = s.kernel.currentTask
      · simp [here, same, distinct.1]
      · have strange : (j : Int) ≠ s.kernel.currentTask := fun equal => here (Int.ofNat_inj.mp equal)
        simpa [here, strange, same] using before
    · rw [if_neg same, before]
      by_cases here : j = s.kernel.currentTask
      · simp [here, same, Waits, idle]
      · simp [here]
  · rw [waits]
    exact fun both => ordered.exclusive e j ((holds j e).mp still).2 both.2
  · obtain ⟨other, before⟩ := (holds j e).mp still
    have front' := ordered.first e j before
    rw [queues]
    split
    · rename_i same
      rw [same, queue, List.head?_cons, Option.some.injEq, Int.ofNat_inj] at front'
      exact absurd ⟨front'.symm, same⟩ other
    · exact front'
  · obtain ⟨other, before⟩ := (waits j e).mp waiting
    by_cases same : e = d
    · left
      refine ⟨s.kernel.currentTask, ?_⟩
      rw [goto_position, same]
      exact if_pos rfl
    · rw [queues, if_neg same] at first
      rcases ordered.woken e j before first with waking | signalled | still
      · exact .inl (waking_goto (by simp [removed, idle]) waking)
      · exact .inr (.inl signalled)
      · right; right
        rw [goto_position, setHolds_kernel, if_neg other]
        exact still

/-- Every step of a disciplined run keeps the order. -/
theorem Ordered.step {width : Nat} {event : LockEvent} {s' : Locking} (ordered : s.Ordered)
    (discipline : Disciplined s event) (step : LockStep width s event s') : s'.Ordered := by
  cases step with
  | call idle step => exact ordered.call idle step discipline
  | timer selectable => exact ordered.timer selectable
  | request device idle => exact ordered.request idle discipline
  | test testing =>
    unfold testHead
    split
    · rename_i front
      exact ordered.enter testing (ordered.isFirst_iff.mp front)
    · rename_i later
      exact ordered.fail testing fun front => later (ordered.isFirst_iff.mpr front)
  | pause pausing => exact ordered.pause pausing
  | remove device idle => exact ordered.remove idle discipline
  | wake waking => exact ordered.wake waking

/-- The order holds at the start. -/
theorem ordered_start {width : Nat} (start : (locking width).initial s) : s.Ordered := by
  obtain ⟨⟨blocks, boot, kernel⟩, queue, idle, free⟩ := start
  refine ⟨kernel ▸ Kernel.setupTasking_invariant blocks boot, fun i inside inUse => ?_,
    fun d pid request => ?_, fun d => ?_, fun d i => ?_, fun d i held => ?_,
    fun d i held => ?_, fun d i _ first => ?_⟩
  · rw [kernel] at inUse ⊢
    unfold Kernel.setupTasking at inUse ⊢
    by_cases zero : i = 0
    · simp [zero]
    · simp [zero, inside, Task.InUse] at inUse
  · simp [queue] at request
  · simp [queue]
  · simp [queue, free, Waits, idle]
  · simp [free] at held
  · simp [free] at held
  · simp [queue] at first

/-- The lock of a device depends on its queue and its holders. -/
theorem view_congr {s' : Locking} (queue : s'.queue d = s.queue d)
    (holds : ∀ i, s'.holds i d = s.holds i d) : s'.view d = s.view d := by
  unfold view
  rw [queue]
  simp only [holds]

/-- The lock of a device with a first request. -/
theorem view_of_front {rest : List Int} (queue : s.queue d = (i : Int) :: rest) :
    s.view d = ⟨(i : Int) :: rest, s.holds i d⟩ := by
  unfold view
  rw [queue]
  rfl

/-- The lock of a device nobody holds. -/
theorem view_free (free : ∀ i, s.holds i d = false) : s.view d = ⟨s.queue d, false⟩ := by
  unfold view
  cases (s.queue d).head? with
  | none => rfl
  | some pid =>
    rw [Option.any_some, free]

/-- The request of a task that does not hold the device does not enter the lock. -/
theorem view_appendRequest (free : s.holds s.kernel.currentTask d = false)
    (pid : s.kernel.current.pid = s.kernel.currentTask) : (s.appendRequest d).view d =
      { s.view d with queue := (s.view d).queue ++ [(s.kernel.currentTask : Int)] } := by
  have queue : (s.appendRequest d).queue d = s.queue d ++ [(s.kernel.currentTask : Int)] := by
    rw [← pid]
    exact Function.update_self ..
  unfold view
  rw [queue]
  cases s.queue d with
  | nil =>
    rw [List.nil_append, List.head?_cons, List.head?_nil, Option.any_some, Option.any_none]
    congr 1
  | cons => rfl

/-- Nobody holds a device whose holder has removed its request. -/
theorem Ordered.remove_free (ordered : s.Ordered)
    (front : (s.queue d).head? = some (s.kernel.currentTask : Int)) :
    ∀ i, (s.removeRequest d).holds i d = false := by
  intro i
  rw [removeRequest, if_pos (ordered.isFirst_iff.mpr front), goto_holds, setHolds_holds]
  split
  · rfl
  · rename_i other
    by_contra held
    have holder := ordered.first d i (Bool.not_eq_false _ |>.mp held)
    rw [front, Option.some.injEq, Int.ofNat_inj] at holder
    exact other ⟨holder.symm, rfl⟩

/-- Every step of a disciplined run is a step of the lock of a device, or does not touch it. -/
theorem Ordered.simulates {width : Nat} {event : LockEvent} {s' : Locking} (ordered : s.Ordered)
    (discipline : Disciplined s event) (step : LockStep width s event s') (d : Nat) :
    (lockAction d event = none ∧ s'.view d = s.view d) ∨
      ∃ action, lockAction d event = some action ∧
        QueueLock.Step (s.view d) action (s'.view d) := by
  have pid := ordered.table.current_pid
  cases step with
  | call => exact .inl ⟨rfl, rfl⟩
  | timer => exact .inl ⟨rfl, rfl⟩
  | pause => exact .inl ⟨rfl, rfl⟩
  | wake =>
    refine .inl ⟨rfl, ?_⟩
    unfold wakeHead
    split
    · rfl
    · rfl
  | request device idle =>
    by_cases same : device = d
    · right
      subst same
      refine ⟨_, if_pos rfl, ?_⟩
      have free : s.holds s.kernel.currentTask device = false := discipline
      rw [view_appendRequest free pid, pid]
      apply QueueLock.Step.request
      show (s.kernel.currentTask : Int) ∉ s.queue device
      rw [ordered.member]
      simp [free, Waits, idle]
    · refine .inl ⟨if_neg same, view_congr ?_ fun _ => rfl⟩
      exact Function.update_of_ne (Ne.symm same) ..
  | @test device testing =>
    unfold testHead
    by_cases front : s.isFirst device = true
    · rw [front, if_pos rfl]
      by_cases same : device = d
      · right
        subst same
        refine ⟨_, if_pos rfl, ?_⟩
        obtain ⟨rest, queue⟩ := front_rest (ordered.isFirst_iff.mp front)
        have free : s.holds s.kernel.currentTask device = false := by
          by_contra held
          exact ordered.exclusive device _ (Bool.not_eq_false _ |>.mp held) (.inl testing)
        have entered : ((s.setHolds device true).goto .idle).holds s.kernel.currentTask device =
            true := by
          rw [goto_holds, setHolds_holds, if_pos ⟨rfl, rfl⟩]
        have queue' : ((s.setHolds device true).goto .idle).queue device =
            (s.kernel.currentTask : Int) :: rest := queue
        rw [view_of_front queue, view_of_front queue', free, entered, pid]
        exact .enter
      · refine .inl ⟨if_neg same, view_congr rfl fun i => ?_⟩
        rw [goto_holds, setHolds_holds, if_neg fun both => same both.2.symm]
    · rw [Bool.not_eq_true _ |>.mp front]
      exact .inl ⟨rfl, rfl⟩
  | remove device idle =>
    by_cases same : device = d
    · right
      subst same
      refine ⟨_, if_pos rfl, ?_⟩
      have held : s.holds s.kernel.currentTask device = true := discipline
      have front := ordered.first device _ held
      obtain ⟨rest, queue⟩ := front_rest front
      have left : (s.removeRequest device).queue device = rest := by
        rw [removeRequest, if_pos (ordered.isFirst_iff.mpr front), queue]
        exact Function.update_self ..
      rw [view_of_front queue, held, view_free (ordered.remove_free front), left, pid]
      exact .leave
    · refine .inl ⟨if_neg same, ?_⟩
      unfold removeRequest
      split
      · refine view_congr (Function.update_of_ne (Ne.symm same) ..) fun i => ?_
        rw [goto_holds, setHolds_holds, if_neg fun both => same both.2.symm]
      · rfl

end Locking

/-- The locks of all devices, in every disciplined run, whatever tasks `schedule` chooses: at
most one task is between its lock and its unlock of a device, the tasks enter in the order of
their requests, no request is lost or duplicated, and a waiting task whose request is the first
one does not stay blocked with no signal pending unless an unlocker has still to tell it. -/
theorem device_lock_protocol {width : Nat} {first s : Locking} {events : List LockEvent}
    (start : (locking width).initial first)
    (path : (locking width).Path Disciplined first events s) (d : Nat) :
    (∀ i j, s.holds i d = true → s.holds j d = true → i = j) ∧
    QueueLock.entries (events.filterMap (lockAction d)) <+:
      QueueLock.requests (events.filterMap (lockAction d)) ∧
    (QueueLock.requests (events.filterMap (lockAction d)) =
        QueueLock.departures (events.filterMap (lockAction d)) ++ s.queue d ∧
      (s.queue d).Nodup ∧
      ∀ i : Nat, (i : Int) ∈ s.queue d ↔ s.holds i d = true ∨ s.Waits i d) ∧
    ∀ i : Nat, s.Waits i d → (s.queue d).head? = some (i : Int) →
      (s.kernel.tasks i).state = .blocked → (s.kernel.tasks i).signals = 0 →
        ∃ u, s.position u = .waking d := by
  have begins := Locking.ordered_start start
  have keep : ∀ s event s', Locking.Ordered s → Disciplined s event →
      (locking width).step s event s' → Locking.Ordered s' :=
    fun _ _ _ ordered discipline step => ordered.step discipline step
  have ordered := path.keeps Locking.Ordered keep begins
  have initial : first.view d = {} := by
    unfold Locking.view
    rw [start.2.1 d]
    rfl
  have run : (QueueLock.system Int).Path TransitionSystem.Unrestricted (first.view d)
      (events.filterMap (lockAction d)) (s.view d) :=
    path.refines (Locking.view d) (lockAction d) Locking.Ordered keep
      (fun _ _ _ ordered discipline step => ordered.simulates discipline step d) begins
  rw [initial] at run
  have fair := QueueLock.fair_of_path run
  refine ⟨fun i j left right => ?_, fair.entries_prefix,
    ⟨fair.requests, ordered.nodup d, ordered.member d⟩, fun i waits front blocked silent => ?_⟩
  · have same := (ordered.first d i left).symm.trans (ordered.first d j right)
    rw [Option.some.injEq, Int.ofNat_inj] at same
    exact same
  · rcases ordered.woken d i waits front with waking | signalled | ⟨_, ready⟩
    · exact waking
    · exact absurd silent signalled
    · exact absurd blocked ready

namespace Locking

/-- Tasks 0 and 1, with no request. -/
def twoTasks : Locking where
  kernel := ((Kernel.setupTasking Blocks.above { tasks := fun _ => {} }).sysFork ucharWidth
    Blocks.above).1
  queue _ := []
  position _ := .idle
  holds _ _ := false

/-- Task 1 runs, after task 0 has requested device 0. -/
def preempted : Locking :=
  let s := twoTasks.appendRequest 0
  { s with kernel := s.kernel.dispatch 1 }

/-- Task 1 has requested device 0, too, and has paused. -/
def queued : Locking := ((preempted.appendRequest 0).testHead 0).pauseTurn 0

/-- Task 0 has entered and has removed its request. -/
def contended : Locking := (queued.testHead 0).removeRequest 0

/-- A run to that state. -/
theorem contended_path : ∃ first events, (locking ucharWidth).initial first ∧
    (locking ucharWidth).Path Disciplined first events contended := by
  let booted : Locking :=
    { twoTasks with kernel := Kernel.setupTasking Blocks.above { tasks := fun _ => {} } }
  have start : (locking ucharWidth).initial booted :=
    ⟨⟨Blocks.above, { tasks := fun _ => {} }, rfl⟩, fun _ => rfl, fun _ => rfl, fun _ _ => rfl⟩
  have fork : LockStep ucharWidth booted (.call .fork) twoTasks := .call rfl (.fork Blocks.above)
  have ask : LockStep ucharWidth twoTasks (.request _ 0) (twoTasks.appendRequest 0) :=
    .request 0 rfl
  have fire : LockStep ucharWidth (twoTasks.appendRequest 0) (.timer 1) preempted :=
    .timer (.inr (by decide +kernel))
  have ask' : LockStep ucharWidth preempted (.request _ 0) (preempted.appendRequest 0) :=
    .request 0 (by decide +kernel)
  have refuse : LockStep ucharWidth (preempted.appendRequest 0) (.test _ 0 _)
      ((preempted.appendRequest 0).testHead 0) := .test (by decide +kernel)
  have pause : LockStep ucharWidth ((preempted.appendRequest 0).testHead 0) (.pause 0) queued :=
    .pause (by decide +kernel)
  have enter : LockStep ucharWidth queued (.test _ 0 _) (queued.testHead 0) :=
    .test (by decide +kernel)
  have remove : LockStep ucharWidth (queued.testHead 0) (.remove _ 0) contended :=
    .remove 0 (by decide +kernel)
  have tick : ∀ s next, Disciplined s (.timer next) := fun _ _ => trivial
  have tests : ∀ s pid entered, Disciplined s (.test pid 0 entered) := fun _ _ _ => trivial
  have pauses : ∀ s, Disciplined s (.pause 0) := fun _ => trivial
  have free : ∀ pid, Disciplined twoTasks (.request pid 0) := fun _ => rfl
  have free' : ∀ pid, Disciplined preempted (.request pid 0) :=
    fun _ => show preempted.holds _ 0 = false by decide +kernel
  have held : ∀ pid, Disciplined (queued.testHead 0) (.remove pid 0) :=
    fun _ => show (queued.testHead 0).holds _ 0 = true by decide +kernel
  have forked : (locking ucharWidth).Path Disciplined booted _ twoTasks :=
    (TransitionSystem.Path.nil booted).snoc (show Disciplined _ (.call .fork) from trivial) fork
  have asked := (((forked.snoc (free _) ask).snoc (tick _ _) fire).snoc (free' _) ask')
  have waiting := (asked.snoc (tests _ _ _) refuse).snoc (pauses _) pause
  have entered := (waiting.snoc (tests _ _ _) enter).snoc (held _) remove
  exact ⟨booted, _, start, entered⟩

end Locking

/-- Task 1 waits with the first request, blocked and with no signal, and an unlocker has still
to tell it. -/
theorem device_lock_protocol_contended : ∃ u, Locking.contended.position u = .waking 0 := by
  obtain ⟨first, events, start, path⟩ := Locking.contended_path
  exact (device_lock_protocol start path 0).2.2.2 1 (by unfold Locking.Waits; decide +kernel)
    (by decide +kernel) (by decide +kernel) (by decide +kernel)

end Nupkux
