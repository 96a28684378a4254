import Nupkux.Fs.Vnode

/-!
# Tasks, scheduling and fork

The process table `tasks[NR_TASKS]` with what its tasks refer to: open-file objects, kernel
stacks, page directories and vnodes. The table is a function on all indices, because
`schedule` and `sys_kill` also look at `tasks[NR_TASKS]`; an index of `NR_TASKS` or more is
the memory after it. The saved registers of a task are read by the processor only and are
left out.
-/

namespace Nupkux

/-- `NR_TASKS`. -/
def nrTasks : Nat := 64

/-- `NO_TASK`. -/
def noTask : Int := -1

/-- `NR_OPEN`. -/
def nrOpen : Nat := 32

/-- `TASK_RUNNING` to `TASK_ZOMBIE`. -/
inductive TaskState where
  | running | waiting | uninterruptible | blocked | zombie
  deriving DecidableEq, Repr, Inhabited

/-- `struct _task`. -/
structure Task where
  pid : Int := noTask
  parent : Int := 0
  pgrp : Int := 0
  state : TaskState := .running
  directory : Nat := 0
  kernelStack : Nat := 0
  uid : Nat := 0
  euid : Nat := 0
  gid : Nat := 0
  egid : Nat := 0
  exitCode : Int := 0
  signals : BitVec 32 := 0
  pwd : Nat := 0
  root : Nat := 0
  closeOnExec : BitVec 32 := 0
  files : Nat → Nat := fun _ => 0
  deriving Inhabited

/-- `struct file`, an open-file object. -/
structure File where
  fd : Nat := 0
  flags : Nat := 0
  node : Nat := 0
  offset : Nat := 0
  count : Nat := 0
  deriving DecidableEq, Repr, Inhabited

/-- The process table and the objects its tasks hold. -/
structure Kernel where
  tasks : Nat → Task
  /-- The index `current_task` points to. -/
  currentTask : Nat := 0
  file : Store File := ∅
  /-- The kernel stacks that are allocated. -/
  kernelStack : Store Unit := ∅
  /-- The page directories that are allocated. -/
  directory : Store Unit := ∅
  /-- `current_directory`. -/
  currentDirectory : Nat := 0
  vfs : Vfs := {}
  /-- The open-file objects that were closed, by `close_fs`, `iput` and `free`, the first one
  first. -/
  closings : List Nat := []
  /-- The processor is halted for good. -/
  halted : Bool := false

/-- The blocks the allocators hand out during one call. -/
structure Blocks where
  file : Allocator File
  kernelStack : Allocator Unit
  directory : Allocator Unit

/-- `tasks[i].pid != NO_TASK`. -/
def Task.InUse (t : Task) : Prop := t.pid ≠ noTask

instance (t : Task) : Decidable t.InUse := inferInstanceAs (Decidable (t.pid ≠ noTask))

/-- `I_AM_ROOT()` for the current task. -/
def Task.isRoot (t : Task) : Bool := !(t.uid != 0 && t.euid != 0)

namespace Kernel

/-- `*current_task`. -/
def current (k : Kernel) : Task := k.tasks k.currentTask

/-- Change one slot of the table. -/
def setTask (k : Kernel) (i : Nat) (change : Task → Task) : Kernel :=
  { k with tasks := Function.update k.tasks i (change (k.tasks i)) }

/-- `setup_tasking`, after the kernel moved its stack: the running program becomes task 0. -/
def setupTasking (blocks : Blocks) (k : Kernel) : Kernel :=
  let stack := blocks.kernelStack.address k.kernelStack
  let first (t : Task) : Task :=
    { t with
      pid := 0
      pgrp := 0
      parent := 0
      state := .running
      directory := k.currentDirectory
      gid := 0
      egid := 0
      uid := 0
      euid := 0
      pwd := 0
      root := 0
      signals := 0
      closeOnExec := 0
      files := fun _ => 0
      kernelStack := stack }
  { k with
    tasks := fun i =>
      if i = 0 then first (k.tasks i)
      else if i < nrTasks then { k.tasks i with pid := noTask }
      else k.tasks i
    currentTask := 0
    kernelStack := k.kernelStack.insert stack () }

/-- The first loop of `schedule`: a blocked task with a pending signal becomes ready. The
loop starts at `tasks[NR_TASKS]`. -/
def wakeSignalled (k : Kernel) : Kernel :=
  { k with tasks := fun i =>
      let t := k.tasks i
      if i ≤ nrTasks ∧ t.InUse ∧ t.signals ≠ 0 ∧ t.state = .blocked then
        { t with state := .waiting }
      else t }

/-- The second loop of `schedule`: the first ready task from an index on. -/
def firstWaiting (k : Kernel) (start : Nat) : Option Nat :=
  (List.range' start (nrTasks - start)).find? fun i =>
    (k.tasks i).InUse ∧ (k.tasks i).state = .waiting

/-- `schedule`: the next ready task after the current one, or else the kernel task. -/
def schedule (k : Kernel) : Kernel × Nat :=
  let k := k.wakeSignalled
  (k, (k.firstWaiting (k.current.pid + 1).toNat).getD 0)

/-- The part of `switch_task` after `schedule`: a task becomes the current one. -/
def resume (k : Kernel) (next : Nat) : Kernel :=
  let k := { k with currentTask := next }.setTask next fun t => { t with state := .running }
  { k with currentDirectory := k.current.directory }

/-- The part of `switch_task` before `schedule`: a running task becomes ready. -/
def suspend (k : Kernel) : Kernel :=
  k.setTask k.currentTask fun t =>
    if t.state = .running then { t with state := .waiting } else t

/-- What `switch_task` does when `schedule` chooses the given task. -/
def dispatch (k : Kernel) (next : Nat) : Kernel := k.suspend.wakeSignalled.resume next

/-- `switch_task`. -/
def switchTask (k : Kernel) : Kernel :=
  let (k, next) := k.suspend.schedule
  k.resume next

/-- `sys_pause`. -/
def sysPause (k : Kernel) : Kernel :=
  (k.setTask k.currentTask fun t => { t with state := .blocked }).switchTask

/-- The loop of `sys_fork` over the descriptors below a bound, the highest first: every open
file gets one more reference. -/
def holdFiles (files : Nat → Nat) : Nat → Store File → Store File
  | 0, store => store
  | fd + 1, store =>
    holdFiles files fd (if files fd = 0 then store
      else store.modify (files fd) fun f => { f with count := (f.count + 1) % uintWidth })

/-- `if (node) node->count++`. -/
def holdNode (width : Nat) (v : Vfs) (node : Nat) : Vfs :=
  if node = 0 then v else v.hold width node

/-- The search of `sys_fork` for a free slot. -/
def freeSlot (k : Kernel) : Option Nat :=
  (List.range nrTasks).find? fun i => ¬(k.tasks i).InUse

/-- What `sys_fork` writes into the slot of the new task. -/
def forkedTask (parent : Task) (i directory : Nat) : Task :=
  { parent with
    pid := i
    exitCode := 0
    state := .waiting
    parent := parent.pid
    directory
    signals := 0 }

/-- `sys_fork`, up to its return in the parent. The new kernel stack goes to the parent; the
child keeps the one the parent had. -/
def sysFork (width : Nat) (blocks : Blocks) (k : Kernel) : Kernel × Int :=
  match k.freeSlot with
  | none => (k, -1)
  | some i =>
    let parentTask := k.current
    let directory := blocks.directory.address k.directory
    let newtask := forkedTask parentTask i directory
    let stack := blocks.kernelStack.address k.kernelStack
    let k :=
      { k with
        tasks := Function.update k.tasks i newtask
        directory := k.directory.insert directory ()
        file := holdFiles newtask.files nrOpen k.file
        vfs := holdNode width (holdNode width k.vfs parentTask.pwd) parentTask.root
        kernelStack := k.kernelStack.insert stack () }
    (k.setTask k.currentTask fun t => { t with kernelStack := stack }, i)

end Kernel

end Nupkux
