import Nupkux.Fs.Open

/-!
# Signals, exit and wait
-/

namespace Nupkux

/-- `SIGCHLD`. -/
def SIGCHLD : Int := 17

/-- `SIGCONT`. -/
def SIGCONT : Int := 18

namespace Kernel

/-- The permission rule of `send_signal`. -/
def maySignal (sender receiver : Task) (sign : Int) : Bool :=
  sender.isRoot || receiver.uid == sender.uid || receiver.uid == sender.euid ||
    receiver.euid == sender.uid || receiver.euid == sender.euid || sign == SIGCONT

/-- `send_signal(&tasks[i], sign)`. -/
def sendSignal (k : Kernel) (i : Nat) (sign : Int) : Kernel × Int :=
  if maySignal k.current (k.tasks i) sign then
    (k.setTask i fun t => { t with signals := t.signals ||| (1#32 <<< (sign - 1).toNat) }, 0)
  else (k, -EPERM)

/-- One turn of a loop of `sys_kill`: signal the task if it is in use and selected. The flags
are `perm` and `found`. -/
def signalOne (select : Task → Bool) (sign : Int) (progress : Kernel × Bool × Bool) (i : Nat) :
    Kernel × Bool × Bool :=
  let (k, perm, found) := progress
  if (k.tasks i).InUse ∧ select (k.tasks i) then
    let (k, ret) := k.sendSignal i sign
    (k, perm || ret != -EPERM, true)
  else (k, perm, found)

/-- One of the loops of `sys_kill`. -/
def signalEach (select : Task → Bool) (sign : Int) (k : Kernel) : Kernel × Bool × Bool :=
  (List.range nrTasks).foldl (signalOne select sign) (k, false, false)

/-- The end of `sys_kill` after one of its loops. -/
def killAnswer (outcome : Kernel × Bool × Bool) : Kernel × Int :=
  (outcome.1, if !outcome.2.2 then -ESRCH else if !outcome.2.1 then -EPERM else 0)

/-- `sys_kill`. -/
def sysKill (k : Kernel) (pid sign : Int) : Kernel × Int :=
  if sign < 1 ∨ 32 < sign then (k, -EINVAL)
  else if pid = 0 then killAnswer (k.signalEach (·.pgrp == k.current.pgrp) sign)
  else if pid = -1 then killAnswer (k.signalEach (fun _ => true) sign)
  else if pid < -1 then killAnswer (k.signalEach (·.pgrp == toInt (-pid)) sign)
  else if nrTasks < pid ∨ ¬(k.tasks pid.toNat).InUse then (k, -ESRCH)
  else k.sendSignal pid.toNat sign

/-- The first loop of `sys_exit`: init inherits the children of the current task. -/
def orphanChildren (k : Kernel) : Kernel :=
  { k with tasks := fun i =>
      let t := k.tasks i
      if i < nrTasks ∧ t.InUse ∧ t.parent = k.current.pid then { t with parent := 1 } else t }

/-- The second loop of `sys_exit`: close the descriptors below a bound, the highest first. -/
def closeAll : Nat → Kernel → Kernel
  | 0, k => k
  | fd + 1, k => closeAll fd (k.sysClose fd).1

/-- The end of `sys_exit` for a task other than 0, whose descriptors are closed: it becomes a
zombie, tells its parent, gives up its memory and switches to the next task. -/
def terminate (k : Kernel) (status : Int) : Kernel :=
  let k := k.setTask k.currentTask fun t => { t with state := .zombie, exitCode := status }
  let k := (k.sysKill k.current.parent SIGCHLD).1
  let k := { k with
    directory := k.directory.erase k.current.directory
    kernelStack := k.kernelStack.erase k.current.kernelStack }
  k.switchTask

/-- `sys_exit`. Task 0 halts the processor. -/
def sysExit (k : Kernel) (status : Int) : Kernel :=
  let k := closeAll nrOpen k.orphanChildren
  if k.current.pid = 0 then { k with halted := true } else k.terminate status

/-- `sys_waitpid`, once it has returned: a task that is no zombie keeps it waiting. The last
component is what it stores through `statloc`. -/
def sysWaitpid (k : Kernel) (pid : Int) (statloc : Bool) : Option (Kernel × Int × Option Int) :=
  if pid ≤ 0 ∨ nrTasks ≤ pid then some (k, -ECHILD, none)
  else
    let i := pid.toNat
    if (k.tasks i).state ≠ .zombie then none
    else some (k.setTask i fun t => { t with pid := noTask }, pid,
      if statloc then some (k.tasks i).exitCode else none)

end Kernel

end Nupkux
