import Nupkux.Kernel.Signals

/-!
# Who learns of an exit

`sys_exit` tells the parent of its task by `sys_kill(parent, SIGCHLD)`. By then a task that is
its own parent has been handed to init, and a `pid` of 0 is a process group; the condition for
a notice that reaches the parent and nobody else is stated in the process table before the call.
-/

namespace Nupkux

/-- A signal is pending. -/
def Task.Pending (t : Task) (sign : Int) : Prop := t.signals &&& signalBit sign = signalBit sign

instance (t : Task) (sign : Int) : Decidable (t.Pending sign) :=
  inferInstanceAs (Decidable (_ = _))

/-- The bit of a pending signal is set already. -/
theorem Task.or_signalBit {t : Task} {sign : Int} :
    t.signals ||| signalBit sign = t.signals ↔ t.Pending sign := by
  unfold Pending
  constructor
  · intro same
    rw [← same, BitVec.and_comm]
    apply BitVec.eq_of_getLsbD_eq
    intro i inside
    simp only [BitVec.getLsbD_and, BitVec.getLsbD_or]
    cases (signalBit sign).getLsbD i <;> simp
  · intro pending
    apply BitVec.eq_of_getLsbD_eq
    intro i inside
    have bit := congrArg (·.getLsbD i) pending
    simp only [BitVec.getLsbD_and] at bit
    rw [BitVec.getLsbD_or]
    cases set : (signalBit sign).getLsbD i
    · rw [Bool.or_false]
    · rw [set, Bool.and_true] at bit
      rw [bit, Bool.or_true]

/-- A signal that was sent is pending. -/
theorem Task.pending_of_or {t : Task} {signals : BitVec 32} {sign : Int}
    (sent : t.signals = signals ||| signalBit sign) : t.Pending sign := by
  rw [← Task.or_signalBit, sent, BitVec.or_assoc, BitVec.or_self]

/-- The fields by which `sys_kill` selects and admits a task. -/
def Task.identity (t : Task) : Int × Int × Nat × Nat := (t.pid, t.pgrp, t.uid, t.euid)

namespace Kernel

/-- The parent of the current task once its children have been handed to init. -/
def heir (k : Kernel) : Int :=
  if k.current.parent = k.current.pid then 1 else k.current.parent

/-- The signal of an exit has reached the parent and no other task. -/
structure NotifiesParent (k k' : Kernel) (p : Nat) : Prop where
  /-- `SIGCHLD` is pending for the parent. -/
  parent : (k'.tasks p).Pending SIGCHLD
  /-- The others have the signals they had. -/
  others : ∀ i, i ≠ p → (k'.tasks i).signals = (k.tasks i).signals

variable {k k' : Kernel} {pid sign : Int} {p : Nat}

/-- Who receives a signal depends on the identities of the tasks. -/
theorem receives_congr (current : k'.currentTask = k.currentTask)
    (same : ∀ i, (k'.tasks i).identity = (k.tasks i).identity) (i : Nat) :
    k'.Receives pid sign i ↔ k.Receives pid sign i := by
  have slot := same i
  have sender : k'.current.identity = k.current.identity := by
    rw [Kernel.current, Kernel.current, current]
    exact same _
  simp only [Task.identity, Prod.mk.injEq] at slot sender
  unfold Receives Selected maySignal Task.isRoot Task.InUse
  rw [slot.1, slot.2.1, slot.2.2.1, slot.2.2.2, sender.2.1, sender.2.2.1, sender.2.2.2]

/-- Handing the children to init keeps signals and identities. -/
theorem orphanChildren_identity (k : Kernel) (i : Nat) :
    (k.orphanChildren.tasks i).identity = (k.tasks i).identity ∧
      (k.orphanChildren.tasks i).signals = (k.tasks i).signals := by
  unfold orphanChildren
  dsimp only
  split <;> exact ⟨rfl, rfl⟩

/-- The parent of the current task when `sys_exit` has closed its descriptors. -/
theorem closed_parent (inside : k.currentTask < nrTasks) (inUse : k.current.InUse) :
    ((closeAll nrOpen k.orphanChildren).tasks k.currentTask).parent = k.heir := by
  rw [closeAll_parent]
  unfold orphanChildren heir
  dsimp only
  by_cases own : k.current.parent = k.current.pid
  · rw [if_pos ⟨inside, inUse, own⟩, if_pos own]
  · rw [if_neg fun orphan => own orphan.2.2, if_neg own]
    rfl

/-- Where `sys_kill` of a number of the table sends `SIGCHLD`. -/
theorem sysKill_sigchld (k : Kernel) (low : 0 ≤ pid) (high : pid < nrTasks) :
    (k.sysKill pid SIGCHLD).1 = k.deliver SIGCHLD (k.Receives pid SIGCHLD) := by
  have valid : ¬(SIGCHLD < 1 ∨ 32 < SIGCHLD) := by decide
  by_cases zero : pid = 0
  · rw [zero]
    exact (killsExactly_of_zero valid).delivered
  · exact (killsExactly_of_single valid (by omega) high).delivered

/-- The signals after the end of `sys_exit` of a task whose parent is in the table. -/
theorem terminate_signals (k : Kernel) (status : Int) (low : 0 ≤ k.current.parent)
    (high : k.current.parent < nrTasks) (i : Nat) :
    ((k.terminate status).tasks i).signals = if k.Receives k.current.parent SIGCHLD i
      then (k.tasks i).signals ||| signalBit SIGCHLD else (k.tasks i).signals := by
  set gone := k.setTask k.currentTask
    (fun t => { t with state := .zombie, exitCode := status }) with gone_def
  have zombie (i : Nat) : (gone.tasks i).identity = (k.tasks i).identity ∧
      (gone.tasks i).signals = (k.tasks i).signals ∧
      (gone.tasks i).parent = (k.tasks i).parent := by
    rw [gone_def, setTask_tasks]
    split
    · rename_i same
      rw [same]
      exact ⟨rfl, rfl, rfl⟩
    · exact ⟨rfl, rfl, rfl⟩
  have parent : gone.current.parent = k.current.parent := (zombie k.currentTask).2.2
  have ends : ((k.terminate status).tasks i).signals =
      ((gone.sysKill gone.current.parent SIGCHLD).1.tasks i).signals := by
    rw [terminate, ← gone_def, switchTask_eq_dispatch, dispatch_tasks]
  have current : gone.currentTask = k.currentTask := rfl
  have receives : gone.Receives k.current.parent SIGCHLD i ↔
      k.Receives k.current.parent SIGCHLD i := receives_congr current (fun i => (zombie i).1) i
  rw [ends, parent, sysKill_sigchld gone low high]
  unfold deliver
  dsimp only
  by_cases here : k.Receives k.current.parent SIGCHLD i
  · rw [if_pos (receives.mpr here), if_pos here, (zombie i).2.1]
  · rw [if_neg fun other => here (receives.mp other), if_neg here, (zombie i).2.1]

/-- The signals after `sys_exit` of a task whose parent is in the table: those that `SIGCHLD` to
the parent leaves in the table before the call. -/
theorem sysExit_signals (status : Int) (user : k.current.pid ≠ 0)
    (inside : k.currentTask < nrTasks) (inUse : k.current.InUse) (low : 0 ≤ k.heir)
    (high : k.heir < nrTasks) (i : Nat) :
    ((k.sysExit status).tasks i).signals = if k.Receives k.heir SIGCHLD i
      then (k.tasks i).signals ||| signalBit SIGCHLD else (k.tasks i).signals := by
  have closed (i : Nat) :
      ((closeAll nrOpen k.orphanChildren).tasks i).identity = (k.tasks i).identity ∧
        ((closeAll nrOpen k.orphanChildren).tasks i).signals = (k.tasks i).signals := by
    obtain ⟨files, flags, same⟩ := closeAll_task nrOpen k.orphanChildren i
    rw [same]
    exact orphanChildren_identity k i
  have current := (closeAll_slot nrOpen k.orphanChildren 0).2.1
  have parent := closed_parent inside inUse
  unfold sysExit
  generalize closeAll nrOpen k.orphanChildren = left at *
  change left.currentTask = k.currentTask at current
  rw [← current] at parent
  change left.current.parent = k.heir at parent
  have user' : left.current.pid ≠ 0 := by
    have same := congrArg (·.1) (closed k.currentTask).1
    simp only [Task.identity] at same
    rw [Kernel.current, current, same]
    exact user
  have receives : left.Receives k.heir SIGCHLD i ↔ k.Receives k.heir SIGCHLD i :=
    receives_congr current (fun i => (closed i).1) i
  dsimp only
  rw [if_neg user', terminate_signals left status (by rwa [parent]) (by rwa [parent]), parent,
    (closed i).2]
  by_cases here : k.Receives k.heir SIGCHLD i
  · rw [if_pos (receives.mpr here), if_pos here]
  · rw [if_neg fun other => here (receives.mp other), if_neg here]

/-- The exit of a task other than task 0 with its parent in the table notifies the parent and
nobody else if and only if `SIGCHLD` reaches the parent or is pending for it already, and every
other task that it reaches has it pending already. It reaches one task that admits it, or, for
parent 0, every such task of the group. -/
theorem sysExit_notifies_iff (status : Int) (user : k.current.pid ≠ 0)
    (inside : k.currentTask < nrTasks) (inUse : k.current.InUse)
    (parent : k.current.parent = p) (table : p < nrTasks) :
    NotifiesParent k (k.sysExit status) p ↔
      ((k.tasks p).Pending SIGCHLD ∨ k.Receives k.heir SIGCHLD p) ∧
        ∀ i, i ≠ p → k.Receives k.heir SIGCHLD i → (k.tasks i).Pending SIGCHLD := by
  have range : 0 ≤ k.heir ∧ k.heir < nrTasks := by
    unfold heir
    split
    · decide
    · omega
  have signals := sysExit_signals status user inside inUse range.1 range.2
  constructor
  · rintro ⟨notified, others⟩
    refine ⟨?_, fun i other here => ?_⟩
    · by_cases here : k.Receives k.heir SIGCHLD p
      · exact .inr here
      · have same := signals p
        rw [if_neg here] at same
        unfold Task.Pending at notified ⊢
        rw [same] at notified
        exact .inl notified
    · have same := others i other
      rw [signals i, if_pos here] at same
      exact Task.or_signalBit.mp same
  · rintro ⟨notified, others⟩
    refine ⟨?_, fun i other => ?_⟩
    · have same := signals p
      by_cases here : k.Receives k.heir SIGCHLD p
      · rw [if_pos here] at same
        exact Task.pending_of_or same
      · rw [if_neg here] at same
        unfold Task.Pending
        rw [same]
        exact notified.resolve_right here
    · rw [signals i]
      split
      · rename_i here
        exact Task.or_signalBit.mpr (others i other here)
      · rfl

/-- Task 1 has forked task 2, which runs. -/
def grandchild : Kernel :=
  let booted := setupTasking Blocks.above { tasks := fun _ => {} }
  let first := ((booted.sysFork ucharWidth Blocks.above).1).dispatch 1
  ((first.sysFork ucharWidth Blocks.above).1).dispatch 2

/-- The exit of task 2 is noticed by task 1 only. -/
theorem sysExit_notifies_iff_grandchild :
    NotifiesParent grandchild (grandchild.sysExit 3) 1 :=
  (sysExit_notifies_iff 3 (by decide) (by decide) (by decide) (by decide) (by decide)).mpr
    ⟨.inr (by decide), fun i other here => absurd here.1.2.2 (by
      have heir : grandchild.heir = 1 := by decide
      rw [heir]
      omega)⟩

/-- Task 0 has forked task 1, which runs. -/
def firstChild : Kernel :=
  ((setupTasking Blocks.above { tasks := fun _ => {} }).sysFork ucharWidth Blocks.above).1.dispatch 1

/-- The exit of a child of task 0 goes to the whole group: the exiting task signals itself. -/
theorem sysExit_notifies_not : firstChild.current.parent = 0 ∧
    ((firstChild.sysExit 3).tasks 1).signals ≠ (firstChild.tasks 1).signals ∧
    ¬NotifiesParent firstChild (firstChild.sysExit 3) 0 := by
  have changed : ((firstChild.sysExit 3).tasks 1).signals ≠ (firstChild.tasks 1).signals := by
    rw [sysExit_signals 3 (by decide) (by decide) (by decide) (by decide) (by decide)]
    decide
  exact ⟨by decide, changed, fun notified => changed (notified.others 1 (by decide))⟩

end Kernel

end Nupkux
