import Nupkux.Kernel.ProcessTable

/-!
# Bystanders

What the calls of one task do to the slots of other tasks: whether they live, whose children
they are, and whether a signal is pending that keeps them from staying blocked.
-/

namespace Nupkux

/-- The fields of a slot that say whether and how its task exited. -/
def Task.death (t : Task) : Int × Int × Bool := (t.pid, t.exitCode, t.state == .zombie)

namespace Task

/-- A slot that died like another one is in use when the other is. -/
theorem inUse_of_death {t u : Task} (same : t.death = u.death) : t.InUse ↔ u.InUse := by
  simp only [death, Prod.mk.injEq] at same
  rw [InUse, InUse, same.1]

/-- A slot that died like another one is a zombie when the other is. -/
theorem zombie_of_death {t u : Task} (same : t.death = u.death) :
    t.state = .zombie ↔ u.state = .zombie := by
  simp only [death, Prod.mk.injEq] at same
  rw [← beq_iff_eq (a := t.state), same.2.2, beq_iff_eq]

/-- A slot that died like another one has its exit code. -/
theorem exitCode_of_death {t u : Task} (same : t.death = u.death) : t.exitCode = u.exitCode := by
  simp only [death, Prod.mk.injEq] at same
  exact same.2.1

end Task

namespace Kernel

variable {k : Kernel}

/-- Switching tasks changes no parent. -/
theorem switchTask_parent (k : Kernel) (i : Nat) :
    (k.switchTask.tasks i).parent = (k.tasks i).parent := by
  rw [switchTask_eq_dispatch, dispatch_tasks]

/-- A dispatch of a task that has not exited brings none to death or back. -/
theorem dispatch_death {next : Nat} (awake : (k.tasks next).state ≠ .zombie) (i : Nat) :
    ((k.dispatch next).tasks i).death = (k.tasks i).death := by
  have zombie : (((k.dispatch next).tasks i).state == .zombie) =
      ((k.tasks i).state == .zombie) := by
    rw [dispatch_tasks]
    by_cases chosen : i = next
    · simp [chosen, awake]
    · simp only [if_neg chosen]
      rw [Bool.eq_iff_iff, beq_iff_eq, beq_iff_eq]
      exact stateAtSchedule_zombie
  rw [Task.death, zombie, dispatch_tasks]
  rfl

/-- Switching tasks brings none to death or back. -/
theorem Switchable.death (switchable : k.Switchable) (i : Nat) :
    (k.switchTask.tasks i).death = (k.tasks i).death :=
  dispatch_death switchable.next.2.2 i

/-- A slot that is the same to scheduling and reaping is as dead or alive as before. -/
theorem death_of_slot {t u : Task} (same : t.slot = u.slot) : t.death = u.death := by
  simp only [Task.slot, Prod.mk.injEq] at same
  rw [Task.death, Task.death, same.1, same.2.1, same.2.2.1]

/-- Closing a descriptor changes a slot in its descriptors only. -/
theorem sysClose_task (k : Kernel) (fd : Int) (i : Nat) : ∃ files flags,
    (k.sysClose fd).1.tasks i = { k.tasks i with files := files, closeOnExec := flags } := by
  unfold sysClose
  dsimp only
  split
  · exact ⟨_, _, rfl⟩
  · split
    · exact ⟨_, _, rfl⟩
    · rw [(putFile_frame _ _).1, setFile, setTask_tasks]
      split
      · rename_i same
        rw [same]
        exact ⟨_, _, rfl⟩
      · exact ⟨_, _, rfl⟩

/-- Closing all descriptors changes a slot in its descriptors only. -/
theorem closeAll_task (bound : Nat) (k : Kernel) (i : Nat) : ∃ files flags,
    (closeAll bound k).tasks i = { k.tasks i with files := files, closeOnExec := flags } := by
  induction bound generalizing k with
  | zero => exact ⟨_, _, rfl⟩
  | succ fd ih =>
    obtain ⟨files, flags, closed⟩ := ih (k.sysClose fd).1
    obtain ⟨_, _, first⟩ := sysClose_task k fd i
    rw [first] at closed
    exact ⟨files, flags, closed⟩

/-- Closing all descriptors changes no parent. -/
theorem closeAll_parent (bound : Nat) (k : Kernel) (i : Nat) :
    ((closeAll bound k).tasks i).parent = (k.tasks i).parent := by
  obtain ⟨_, _, closed⟩ := closeAll_task bound k i
  rw [closed]

/-- A task that terminates changes no parent. -/
theorem terminate_parent (k : Kernel) (status : Int) (i : Nat) :
    ((k.terminate status).tasks i).parent = (k.tasks i).parent := by
  unfold terminate
  dsimp only
  rw [switchTask_parent]
  obtain ⟨signals, killed⟩ := sysKill_signals
    (k.setTask k.currentTask fun t => { t with state := .zombie, exitCode := status })
    (k.setTask k.currentTask fun t => { t with state := .zombie, exitCode := status }).current.parent
    SIGCHLD
  rw [killed]
  show ((k.setTask _ _).tasks i).parent = _
  rw [setTask_tasks]
  split
  · rename_i same
    rw [same]
  · rfl

/-- Only the children of an exiting task get a new parent. -/
theorem sysExit_parent (k : Kernel) (status : Int) {i : Nat}
    (other : (k.tasks i).parent ≠ k.current.pid) :
    ((k.sysExit status).tasks i).parent = (k.tasks i).parent := by
  have closed : ((closeAll nrOpen k.orphanChildren).tasks i).parent = (k.tasks i).parent := by
    rw [closeAll_parent]
    unfold orphanChildren
    dsimp only
    rw [if_neg fun orphan => other orphan.2.2]
  unfold sysExit
  generalize closeAll nrOpen k.orphanChildren = closedAll at closed
  dsimp only
  split
  · exact closed
  · rw [terminate_parent, closed]

/-- An exiting task dies with its status and no other task does. -/
theorem TableInvariant.exit_death (invariant : k.TableInvariant) (status : Int)
    (user : k.current.pid ≠ 0) (i : Nat) : ((k.sysExit status).tasks i).death =
      if i = k.currentTask then (k.current.pid, status, true) else (k.tasks i).death := by
  obtain ⟨left, ends, current, freed, slots⟩ := sysExit_slot k status user
  rw [ends, (invariant.left user current freed slots).death]
  have slot := slots i
  split at slot
  · rename_i same
    rw [if_pos same]
    simp only [Task.slot, Prod.mk.injEq] at slot
    rw [Task.death, slot.1, slot.2.1, slot.2.2.1]
    rfl
  · rename_i other
    rw [if_neg other]
    exact death_of_slot slot

/-- The slot of a task is the same to its parent. -/
def Keeps (k k' : Kernel) (i : Nat) : Prop :=
  (k'.tasks i).death = (k.tasks i).death ∧ (k'.tasks i).parent = (k.tasks i).parent

/-- Switching tasks keeps every slot. -/
theorem Switchable.keeps (switchable : k.Switchable) (i : Nat) : k.Keeps k.switchTask i :=
  ⟨switchable.death i, switchTask_parent k i⟩

/-- `sys_pause` keeps every slot. -/
theorem TableInvariant.pause_keeps (invariant : k.TableInvariant) (i : Nat) :
    k.Keeps k.sysPause i := by
  have blocked : k.Keeps (k.setTask k.currentTask fun t => { t with state := .blocked }) i := by
    have running := invariant.current.2.2
    unfold Keeps
    rw [setTask_tasks]
    split
    · rename_i same
      subst same
      exact ⟨by rw [Task.death, Task.death, show (k.tasks k.currentTask).state = .running from
        running]; rfl, rfl⟩
    · exact ⟨rfl, rfl⟩
  obtain ⟨death, parent⟩ := invariant.blocked.keeps i
  exact ⟨death.trans blocked.1, parent.trans blocked.2⟩

/-- `sys_kill` keeps every slot. -/
theorem kill_keeps (k : Kernel) (pid sign : Int) (i : Nat) : k.Keeps (k.sysKill pid sign).1 i := by
  obtain ⟨signals, killed⟩ := sysKill_signals k pid sign
  rw [killed]
  exact ⟨rfl, rfl⟩

/-- What `sys_fork` does to a slot. -/
theorem sysFork_tasks {child : Nat} (width : Nat) (blocks : Blocks)
    (found : k.freeSlot = some child) (current : k.current.InUse) (i : Nat) :
    (k.sysFork width blocks).1.tasks i =
      if i = k.currentTask then
        { k.current with kernelStack := blocks.kernelStack.address k.kernelStack }
      else if i = child then
        forkedTask k.current child (blocks.directory.address k.directory)
      else k.tasks i := by
  have differ : k.currentTask ≠ child := by
    rintro same
    exact (freeSlot_some found).2 (same ▸ current)
  simp only [sysFork, found, setTask_tasks, Function.update_apply, if_neg differ]
  rfl

/-- `sys_fork` keeps every slot that was in use. -/
theorem fork_keeps (width : Nat) (blocks : Blocks) (current : k.current.InUse) {i : Nat}
    (inUse : (k.tasks i).InUse) : k.Keeps (k.sysFork width blocks).1 i := by
  cases found : k.freeSlot with
  | none =>
    unfold sysFork
    rw [found]
    exact ⟨rfl, rfl⟩
  | some child =>
    have differ : i ≠ child := by
      rintro rfl
      exact (freeSlot_some found).2 inUse
    unfold Keeps
    rw [sysFork_tasks width blocks found current, if_neg differ]
    split
    · rename_i same
      rw [same]
      exact ⟨rfl, rfl⟩
    · exact ⟨rfl, rfl⟩

end Kernel

/-! ## Pending signals -/

/-- The second task is the first one later on, when it has done nothing itself: it is in its
process group, a signal that was pending still is, and it is not newly blocked. -/
structure Task.Undisturbed (t u : Task) : Prop where
  group : u.pgrp = t.pgrp
  pending : t.signals ≠ 0 → u.signals ≠ 0
  blocked : u.state = .blocked → t.state = .blocked

/-- Nothing happened. -/
theorem Task.Undisturbed.refl (t : Task) : t.Undisturbed t := ⟨rfl, id, id⟩

/-- One thing after the other happened. -/
theorem Task.Undisturbed.trans {t u v : Task} (first : t.Undisturbed u)
    (second : u.Undisturbed v) : t.Undisturbed v where
  group := second.group.trans first.group
  pending := second.pending ∘ first.pending
  blocked := first.blocked ∘ second.blocked

namespace Kernel

variable {k : Kernel}

/-- A dispatch blocks nobody. -/
theorem dispatch_undisturbed (k : Kernel) (next i : Nat) :
    (k.tasks i).Undisturbed ((k.dispatch next).tasks i) := by
  rw [dispatch_tasks]
  refine ⟨rfl, id, fun blocked => ?_⟩
  have same : k.stateAtSchedule i = .blocked := by
    by_cases chosen : i = next
    · simp [chosen] at blocked
    · simpa [chosen] using blocked
  unfold stateAtSchedule at same
  split at same
  · cases same
  · unfold stateSuspended at same
    split at same
    · cases same
    · exact same

/-- What `send_signal` does to a slot. -/
theorem sendSignal_tasks (k : Kernel) (i j : Nat) (sign : Int) :
    (k.sendSignal i sign).1.tasks j = if maySignal k.current (k.tasks i) sign ∧ j = i
      then { k.tasks i with signals := (k.tasks i).signals ||| (1#32 <<< (sign - 1).toNat) }
      else k.tasks j := by
  unfold sendSignal
  by_cases permitted : maySignal k.current (k.tasks i) sign = true
  · rw [if_pos permitted, setTask_tasks]
    by_cases same : j = i
    · rw [if_pos same, if_pos ⟨permitted, same⟩]
    · rw [if_neg same, if_neg fun both => same both.2]
  · rw [if_neg permitted, if_neg fun both => permitted both.1]

/-- `send_signal` disturbs nobody. -/
theorem sendSignal_undisturbed (k : Kernel) (i : Nat) (sign : Int) (j : Nat) :
    (k.tasks j).Undisturbed ((k.sendSignal i sign).1.tasks j) := by
  rw [sendSignal_tasks]
  split
  · rename_i sent
    rw [sent.2]
    exact ⟨rfl, fun pending none => pending (BitVec.or_eq_zero_iff.mp none).1, id⟩
  · exact .refl _

/-- `sys_kill` disturbs nobody. -/
theorem kill_undisturbed (k : Kernel) (pid sign : Int) (i : Nat) :
    (k.tasks i).Undisturbed ((k.sysKill pid sign).1.tasks i) := by
  let holds (k' : Kernel) : Prop := (k.tasks i).Undisturbed (k'.tasks i)
  have send : ∀ k' j, holds k' → holds (k'.sendSignal j sign).1 :=
    fun k' j so_far => so_far.trans (sendSignal_undisturbed k' j sign i)
  exact sysKill_keeps send pid (.refl _)

/-- The children of an exiting task are not disturbed. -/
theorem orphanChildren_undisturbed (k : Kernel) (i : Nat) :
    (k.tasks i).Undisturbed (k.orphanChildren.tasks i) := by
  unfold orphanChildren
  dsimp only
  split
  · exact ⟨rfl, id, id⟩
  · exact .refl _

/-- A task that terminates disturbs nobody. -/
theorem terminate_undisturbed (k : Kernel) (status : Int) (i : Nat) :
    (k.tasks i).Undisturbed ((k.terminate status).tasks i) := by
  unfold terminate
  dsimp only
  rw [switchTask_eq_dispatch]
  refine .trans ?_ (dispatch_undisturbed _ _ i)
  refine .trans ?_ (kill_undisturbed _ _ _ i)
  rw [setTask_tasks]
  split
  · rename_i same
    rw [same]
    exact ⟨rfl, id, fun blocked => by cases blocked⟩
  · exact .refl _

/-- `sys_exit` disturbs nobody. -/
theorem exit_undisturbed (k : Kernel) (status : Int) (i : Nat) :
    (k.tasks i).Undisturbed ((k.sysExit status).tasks i) := by
  have closed : (k.tasks i).Undisturbed ((closeAll nrOpen k.orphanChildren).tasks i) := by
    refine .trans (orphanChildren_undisturbed k i) ?_
    obtain ⟨_, _, same⟩ := closeAll_task nrOpen k.orphanChildren i
    rw [same]
    exact ⟨rfl, id, id⟩
  unfold sysExit
  generalize closeAll nrOpen k.orphanChildren = closedAll at closed
  dsimp only
  split
  · exact closed
  · exact closed.trans (terminate_undisturbed closedAll status i)

/-- `sys_pause` disturbs nobody else. -/
theorem pause_undisturbed (k : Kernel) {i : Nat} (other : i ≠ k.currentTask) :
    (k.tasks i).Undisturbed (k.sysPause.tasks i) := by
  unfold sysPause
  rw [switchTask_eq_dispatch]
  refine .trans ?_ (dispatch_undisturbed _ _ i)
  rw [setTask_tasks, if_neg other]
  exact .refl _

/-- A signal stays pending in `sys_pause`, also that of the current task. -/
theorem pause_pending (k : Kernel) {i : Nat} (pending : (k.tasks i).signals ≠ 0) :
    (k.sysPause.tasks i).signals ≠ 0 := by
  unfold sysPause
  rw [switchTask_eq_dispatch]
  apply (dispatch_undisturbed _ _ i).pending
  rw [setTask_tasks]
  split
  · rename_i same
    exact same ▸ pending
  · exact pending

/-- `sys_waitpid` disturbs nobody. -/
theorem waitpid_undisturbed {k' : Kernel} {pid ret : Int} {statloc : Bool} {status : Option Int}
    (returns : k.sysWaitpid pid statloc = some (k', ret, status)) (i : Nat) :
    (k.tasks i).Undisturbed (k'.tasks i) := by
  rcases sysWaitpid_cases returns with ⟨rfl, _⟩ | ⟨_, _, _, rfl⟩
  · exact .refl _
  · rw [setTask_tasks]
    split
    · rename_i same
      rw [same]
      exact ⟨rfl, id, id⟩
    · exact .refl _

/-- `sys_fork` disturbs nobody. -/
theorem fork_undisturbed (width : Nat) (blocks : Blocks) (current : k.current.InUse) {i : Nat}
    (inUse : (k.tasks i).InUse) :
    (k.tasks i).Undisturbed ((k.sysFork width blocks).1.tasks i) := by
  cases found : k.freeSlot with
  | none =>
    unfold sysFork
    rw [found]
    exact .refl _
  | some child =>
    have differ : i ≠ child := by
      rintro rfl
      exact (freeSlot_some found).2 inUse
    rw [sysFork_tasks width blocks found current]
    split
    · rename_i same
      rw [same]
      exact ⟨rfl, id, id⟩
    · exact .refl _

/-- `SIGCONT` is never refused. -/
theorem sendSignal_continues (k : Kernel) (i : Nat) :
    ((k.sendSignal i SIGCONT).1.tasks i).signals ≠ 0 := by
  have permitted : maySignal k.current (k.tasks i) SIGCONT = true := by simp [maySignal]
  rw [sendSignal_tasks, if_pos ⟨permitted, rfl⟩]
  intro none
  exact absurd (BitVec.or_eq_zero_iff.mp none).2 (by decide)

/-- A loop of `sys_kill` over a process group reaches every member with `SIGCONT`. -/
theorem signalEach_continues {group : Int} {i : Nat} (inside : i < nrTasks)
    (inUse : (k.tasks i).InUse) (member : (k.tasks i).pgrp = group) :
    ((k.signalEach (·.pgrp == group) SIGCONT).1.tasks i).signals ≠ 0 := by
  obtain ⟨before, after, all⟩ := List.append_of_mem (List.mem_range.mpr inside)
  let present (k : Kernel) : Prop := (k.tasks i).InUse ∧ (k.tasks i).pgrp = group
  have stays : ∀ k j, present k → present (k.sendSignal j SIGCONT).1 := by
    intro k j here
    obtain ⟨signals, sent⟩ := sendSignal_signals k j SIGCONT
    rw [sent]
    exact here
  let pending (k : Kernel) : Prop := (k.tasks i).signals ≠ 0
  have pends : ∀ k j, pending k → pending (k.sendSignal j SIGCONT).1 :=
    fun k j => (sendSignal_undisturbed k j SIGCONT i).pending
  unfold signalEach
  rw [all, List.foldl_append, List.foldl_cons]
  apply signalOne_keeps pends
  have here : present _ :=
    signalOne_keeps stays (·.pgrp == group) before (k, false, false) ⟨inUse, member⟩
  generalize before.foldl _ _ = progress at here
  unfold signalOne
  dsimp only
  rw [if_pos ⟨here.1, beq_iff_eq.mpr here.2⟩]
  exact sendSignal_continues progress.1 i

/-- `SIGCONT` is never refused, so it is pending once `sys_kill` has sent it to a task of the
group of the sender. -/
theorem kill_continues {i : Nat} (inside : i < nrTasks) (inUse : (k.tasks i).InUse)
    (group : (k.tasks i).pgrp = k.current.pgrp) :
    ((k.sysKill i SIGCONT).1.tasks i).signals ≠ 0 := by
  have valid : ¬(SIGCONT < 1 ∨ 32 < SIGCONT) := by decide
  unfold sysKill
  rw [if_neg valid]
  by_cases zero : (i : Int) = 0
  · rw [if_pos zero]
    rw [killAnswer_fst]
    exact signalEach_continues inside inUse group
  · have ordinary : ¬(nrTasks < (i : Int) ∨ ¬(k.tasks (i : Int).toNat).InUse) := by
      rw [Int.toNat_natCast]
      exact not_or.mpr ⟨by omega, not_not.mpr inUse⟩
    rw [if_neg zero, if_neg (by omega), if_neg (by omega), if_neg ordinary, Int.toNat_natCast]
    exact sendSignal_continues k i

end Kernel

/-! ## Any call -/

namespace TaskStep

variable {width : Nat} {k k' : Kernel} {call : TaskCall}

/-- No call disturbs a task but the caller. -/
theorem undisturbed (invariant : k.TableInvariant) (step : TaskStep width k call k') {i : Nat}
    (inUse : (k.tasks i).InUse) (other : i ≠ k.currentTask) :
    (k.tasks i).Undisturbed (k'.tasks i) := by
  cases step with
  | fork blocks => exact Kernel.fork_undisturbed width blocks invariant.current.2.1 inUse
  | exit status _ => exact Kernel.exit_undisturbed k status i
  | pause => exact Kernel.pause_undisturbed k other
  | timer => exact Kernel.dispatch_undisturbed k k.nextTask i
  | kill pid sign => exact Kernel.kill_undisturbed k pid sign i
  | waitpid returns => exact Kernel.waitpid_undisturbed returns i

/-- A slot dies in `sys_exit` of its own task only, and `sys_waitpid` releases none that has
not died. -/
theorem death (invariant : k.TableInvariant) (step : TaskStep width k call k') {i : Nat}
    (inUse : (k.tasks i).InUse) (awake : (k.tasks i).state ≠ .zombie)
    (spared : i = k.currentTask → ∀ status, call ≠ .exit status) :
    (k'.tasks i).death = (k.tasks i).death := by
  cases step with
  | fork blocks => exact (Kernel.fork_keeps width blocks invariant.current.2.1 inUse).1
  | exit status user =>
    rw [invariant.exit_death status user, if_neg fun same => spared same status rfl]
  | pause => exact (invariant.pause_keeps i).1
  | timer => exact invariant.toSwitchable.death i
  | kill pid sign => exact (Kernel.kill_keeps k pid sign i).1
  | waitpid returns =>
    rcases Kernel.sysWaitpid_cases returns with ⟨rfl, _⟩ | ⟨_, _, zombie, rfl⟩
    · rfl
    · rw [Kernel.setTask_tasks, if_neg]
      rintro rfl
      exact awake zombie

/-- A task is of the process group it was in, or else in that of the caller, which forked it. -/
theorem group (invariant : k.TableInvariant) (step : TaskStep width k call k') {i : Nat}
    (inUse : (k'.tasks i).InUse) :
    (k.tasks i).InUse ∧ (k'.tasks i).pgrp = (k.tasks i).pgrp ∨
      (k'.tasks i).pgrp = k.current.pgrp := by
  cases step with
  | fork blocks =>
    have current := invariant.current.2.1
    by_cases before : (k.tasks i).InUse
    · exact .inl ⟨before, (Kernel.fork_undisturbed width blocks current before).group⟩
    · cases found : k.freeSlot with
      | none =>
        unfold Kernel.sysFork at inUse
        rw [found] at inUse
        exact absurd inUse before
      | some child =>
        right
        rw [Kernel.sysFork_tasks width blocks found current] at inUse ⊢
        split
        · rfl
        · rename_i other
          rw [if_neg other] at inUse
          split
          · rfl
          · rename_i differ
            rw [if_neg differ] at inUse
            exact absurd inUse before
  | exit status user =>
    have died := invariant.exit_death status user i
    have same := (Kernel.exit_undisturbed k status i).group
    split at died
    · rename_i here
      refine .inr (same.trans ?_)
      rw [here]
      rfl
    · exact .inl ⟨(Task.inUse_of_death died).mp inUse, same⟩
  | pause =>
    by_cases here : i = k.currentTask
    · right
      unfold Kernel.sysPause
      rw [Kernel.switchTask_eq_dispatch, (Kernel.dispatch_undisturbed _ _ i).group,
        Kernel.setTask_tasks, if_pos here]
      rfl
    · exact .inl ⟨(Task.inUse_of_death (invariant.pause_keeps i).1).mp inUse,
        (Kernel.pause_undisturbed k here).group⟩
  | timer =>
    exact .inl ⟨(Task.inUse_of_death (invariant.toSwitchable.death i)).mp inUse,
      (Kernel.dispatch_undisturbed k k.nextTask i).group⟩
  | kill pid sign =>
    exact .inl ⟨(Task.inUse_of_death (Kernel.kill_keeps k pid sign i).1).mp inUse,
      (Kernel.kill_undisturbed k pid sign i).group⟩
  | waitpid returns =>
    have same := (Kernel.waitpid_undisturbed returns i).group
    rcases Kernel.sysWaitpid_cases returns with ⟨rfl, _⟩ | ⟨_, _, _, rfl⟩
    · exact .inl ⟨inUse, rfl⟩
    · refine .inl ⟨?_, same⟩
      rw [Kernel.setTask_tasks] at inUse
      split at inUse
      · exact absurd rfl inUse
      · exact inUse

end TaskStep

end Nupkux
