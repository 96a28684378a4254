import Nupkux.Kernel.Bystanders

/-!
# Waiting for children

`sys_waitpid` is no atomic call: it loops until the slot is a zombie and releases the slot
after the loop, and other tasks run in between. A task inside it has a phase that says how far
it is. The history of a run says which termination statuses have not been delivered yet.
-/

namespace Nupkux

/-- How far a task is in `sys_waitpid`. -/
inductive WaitPhase where
  /-- Not in `sys_waitpid`. -/
  | idle
  /-- In the loop that waits for the slot to be a zombie. -/
  | waiting (pid : Nat) (statloc : Bool)
  /-- Behind the loop. -/
  | leaving (pid : Nat) (statloc : Bool)
  deriving DecidableEq, Repr, Inhabited

/-- The process table and where each task is in `sys_waitpid`. -/
structure Reaping where
  kernel : Kernel
  phase : Nat → WaitPhase

namespace Reaping

/-- The beginning of `sys_waitpid`, with its answer if it returns at once. -/
def waitCall (r : Reaping) (pid : Int) (statloc : Bool) : Reaping × Option Int :=
  if pid ≤ 0 ∨ nrTasks ≤ pid then (r, some (-ECHILD))
  else
    ({ r with
        phase := Function.update r.phase r.kernel.currentTask (.waiting pid.toNat statloc) }, none)

/-- One turn of the loop of `sys_waitpid`. -/
def waitTest (r : Reaping) (pid : Nat) (statloc : Bool) : Reaping :=
  if (r.kernel.tasks pid).state ≠ .zombie then r
  else { r with phase := Function.update r.phase r.kernel.currentTask (.leaving pid statloc) }

/-- The end of `sys_waitpid`: the slot is released. -/
def waitReturn (r : Reaping) (pid : Nat) : Reaping where
  kernel := r.kernel.setTask pid fun t => { t with pid := noTask }
  phase := Function.update r.phase r.kernel.currentTask .idle

/-- A slot that is handed to a new task is not inside `sys_waitpid`. -/
def clearPhase (r : Reaping) : Option Nat → Nat → WaitPhase
  | none => r.phase
  | some child => Function.update r.phase child .idle

end Reaping

/-- What happens to the process table; a task is named by its slot. A delivery says which task
returned which number from `sys_waitpid` and which status it stored or skipped. -/
inductive ReapEvent where
  | fork
  | exit (pid : Nat) (status : Int)
  | pause
  | timer
  | kill (pid sign : Int)
  | call (waiter : Nat) (pid : Int) (answer : Option Int)
  | test
  | deliver (waiter pid : Nat) (status : Int)
  deriving DecidableEq, Repr

/-- The steps of the current task, and the timer. -/
inductive ReapStep (width : Nat) : Reaping → ReapEvent → Reaping → Prop
  | fork {r : Reaping} (blocks : Blocks) (idle : r.phase r.kernel.currentTask = .idle) :
      ReapStep width r .fork
        { kernel := (r.kernel.sysFork width blocks).1, phase := r.clearPhase r.kernel.freeSlot }
  | exit {r : Reaping} (status : Int) (user : r.kernel.current.pid ≠ 0)
      (idle : r.phase r.kernel.currentTask = .idle) :
      ReapStep width r (.exit r.kernel.currentTask status)
        { r with kernel := r.kernel.sysExit status }
  | pause {r : Reaping} (idle : r.phase r.kernel.currentTask = .idle) :
      ReapStep width r .pause { r with kernel := r.kernel.sysPause }
  | timer {r : Reaping} : ReapStep width r .timer { r with kernel := r.kernel.switchTask }
  | kill {r : Reaping} (pid sign : Int) (idle : r.phase r.kernel.currentTask = .idle) :
      ReapStep width r (.kill pid sign) { r with kernel := (r.kernel.sysKill pid sign).1 }
  | call {r : Reaping} (pid : Int) (statloc : Bool)
      (idle : r.phase r.kernel.currentTask = .idle) :
      ReapStep width r (.call r.kernel.currentTask pid (r.waitCall pid statloc).2)
        (r.waitCall pid statloc).1
  | test {r : Reaping} {pid : Nat} {statloc : Bool}
      (waiting : r.phase r.kernel.currentTask = .waiting pid statloc) :
      ReapStep width r .test (r.waitTest pid statloc)
  | deliver {r : Reaping} {pid : Nat} {statloc : Bool}
      (leaving : r.phase r.kernel.currentTask = .leaving pid statloc) :
      ReapStep width r (.deliver r.kernel.currentTask pid (r.kernel.tasks pid).exitCode)
        (r.waitReturn pid)

/-- Runs from `setup_tasking`, with no task in `sys_waitpid`. -/
def reaping (width : Nat) : TransitionSystem Reaping ReapEvent where
  initial r := (∃ blocks boot, r.kernel = Kernel.setupTasking blocks boot) ∧
    ∀ i, r.phase i = .idle
  step := ReapStep width

/-- What an event does to the statuses that are not delivered yet. -/
def recordStatus (undelivered : Nat → Option Int) : ReapEvent → Nat → Option Int
  | .exit pid status => Function.update undelivered pid (some status)
  | .deliver _ pid _ => Function.update undelivered pid none
  | _ => undelivered

/-- The termination status of each task that exited and whose status was not delivered. -/
def undelivered (history : List ReapEvent) : Nat → Option Int :=
  history.foldl recordStatus fun _ => none

/-- The number is that of a child of the current task that has not been reaped. -/
def Kernel.UnreapedChild (k : Kernel) (pid : Int) : Prop :=
  (0 < pid ∧ pid < nrTasks) ∧ (k.tasks pid.toNat).InUse ∧
    (k.tasks pid.toNat).parent = k.current.pid

/-- `sys_waitpid` is asked for an unreaped child of the caller, or for a number it refuses. -/
def AsksForChild (r : Reaping) (pid : Int) : Prop :=
  (pid ≤ 0 ∨ nrTasks ≤ pid) ∨ r.kernel.UnreapedChild pid

/-- Every call of `sys_waitpid` asks for a child. -/
def ChildrenOnly (r : Reaping) : ReapEvent → Prop
  | .call _ pid _ => AsksForChild r pid
  | _ => True

/-! ## Runs in which every call asks for a child -/

/-- One more event at the end of a history. -/
theorem undelivered_snoc (history : List ReapEvent) (event : ReapEvent) :
    undelivered (history ++ [event]) = recordStatus (undelivered history) event := by
  rw [undelivered, List.foldl_append]
  rfl

/-- The task is in `sys_waitpid` for the slot. -/
def Reaping.AwaitsChild (r : Reaping) (waiter pid : Nat) : Prop :=
  ∃ statloc, r.phase waiter = .waiting pid statloc ∨ r.phase waiter = .leaving pid statloc

/-- A fork takes at most one slot out of `sys_waitpid`. -/
theorem Reaping.clearPhase_cases (r : Reaping) (slot : Option Nat) (w : Nat) :
    r.clearPhase slot w = r.phase w ∨ r.clearPhase slot w = .idle := by
  cases slot with
  | none => exact .inl rfl
  | some child =>
    rw [clearPhase, Function.update_apply]
    split
    · exact .inr rfl
    · exact .inl rfl

/-- What holds of a run in which every call asks for a child. -/
structure Sound (history : List ReapEvent) (r : Reaping) : Prop where
  table : r.kernel.TableInvariant
  /-- The status of a zombie was not delivered. -/
  kept : ∀ p < nrTasks, (r.kernel.tasks p).InUse → (r.kernel.tasks p).state = .zombie →
    undelivered history p = some (r.kernel.tasks p).exitCode
  /-- A task in `sys_waitpid` waits for a child of its own. -/
  child : ∀ w p, r.AwaitsChild w p →
    (0 < p ∧ p < nrTasks) ∧ (r.kernel.tasks p).InUse ∧ (r.kernel.tasks p).parent = w
  /-- Behind the loop that child is a zombie. -/
  zombie : ∀ w p statloc, r.phase w = .leaving p statloc → (r.kernel.tasks p).state = .zombie

section Steps

variable {width : Nat} {history history' : List ReapEvent} {r r' : Reaping}

/-- What keeps the slots in use, makes no new zombie and delivers nothing keeps a run sound. -/
theorem Sound.carry (sound : Sound history r) (table : r'.kernel.TableInvariant)
    (same : undelivered history' = undelivered history)
    (phases : ∀ w, r'.phase w = r.phase w ∨ r'.phase w = .idle)
    (keeps : ∀ p, (r.kernel.tasks p).InUse → r.kernel.Keeps r'.kernel p)
    (fresh : ∀ p, ¬(r.kernel.tasks p).InUse → (r'.kernel.tasks p).InUse →
      (r'.kernel.tasks p).state ≠ .zombie) : Sound history' r' := by
  have phase : ∀ w, r'.phase w ≠ .idle → r'.phase w = r.phase w :=
    fun w busy => (phases w).resolve_right busy
  have awaits : ∀ w p, r'.AwaitsChild w p → r.AwaitsChild w p := by
    intro w p awaits
    obtain ⟨statloc, entered | behind⟩ := awaits
    · exact ⟨statloc, .inl (by rw [← phase w (by simp [entered]), entered])⟩
    · exact ⟨statloc, .inr (by rw [← phase w (by simp [behind]), behind])⟩
  refine ⟨table, fun p inside inUse zombie => ?_, fun w p waits => ?_,
    fun w p statloc behind => ?_⟩
  · by_cases before : (r.kernel.tasks p).InUse
    · have death := (keeps p before).1
      rw [same, Task.exitCode_of_death death]
      exact sound.kept p inside before ((Task.zombie_of_death death).mp zombie)
    · exact absurd zombie (fresh p before inUse)
  · obtain ⟨inside, inUse, parent⟩ := sound.child w p (awaits w p waits)
    obtain ⟨death, kept⟩ := keeps p inUse
    exact ⟨inside, (Task.inUse_of_death death).mpr inUse, kept.trans parent⟩
  · have before : r.phase w = .leaving p statloc := by
      rw [← phase w (by simp [behind]), behind]
    obtain ⟨_, inUse, _⟩ := sound.child w p ⟨statloc, .inr before⟩
    exact (Task.zombie_of_death (keeps p inUse).1).mpr (sound.zombie w p statloc before)

/-- `sys_fork` keeps a run sound. -/
theorem Sound.fork (sound : Sound history r) (blocks : Blocks) :
    Sound (history ++ [.fork])
      { kernel := (r.kernel.sysFork width blocks).1, phase := r.clearPhase r.kernel.freeSlot } := by
  have current := sound.table.current.2.1
  refine sound.carry (sound.table.fork width blocks) (undelivered_snoc history .fork)
    (fun w => r.clearPhase_cases _ w) (fun p inUse => Kernel.fork_keeps width blocks current inUse)
    (fun p free inUse => ?_)
  cases found : r.kernel.freeSlot with
  | none =>
    rw [Kernel.sysFork, found] at inUse
    exact absurd inUse free
  | some child =>
    have other : p ≠ r.kernel.currentTask := by
      rintro rfl
      exact free current
    have slot := Kernel.sysFork_slot width blocks found current p
    rw [if_neg other] at slot
    split at slot
    · simp only [Task.slot, Prod.mk.injEq] at slot
      dsimp only
      rw [slot.2.1]
      decide
    · exact absurd ((Task.inUse_of_death (Kernel.death_of_slot slot)).mp inUse) free

/-- `sys_exit` keeps a run sound: the exiting task is in no `sys_waitpid`, so no child of a
waiting task gets a new parent. -/
theorem Sound.exit (sound : Sound history r) (status : Int) (user : r.kernel.current.pid ≠ 0)
    (idle : r.phase r.kernel.currentTask = .idle) :
    Sound (history ++ [.exit r.kernel.currentTask status])
      { r with kernel := r.kernel.sysExit status } := by
  have death := sound.table.exit_death status user
  have current := sound.table.current_pid
  have inUse' : ∀ p, (r.kernel.tasks p).InUse ↔ ((r.kernel.sysExit status).tasks p).InUse := by
    intro p
    have died := death p
    split at died
    · rename_i same
      simp only [Task.death, Prod.mk.injEq] at died
      rw [same] at died ⊢
      rw [Task.InUse, Task.InUse, died.1]
      rfl
    · exact (Task.inUse_of_death died).symm
  have exits : TaskStep ucharWidth r.kernel (.exit status) (r.kernel.sysExit status) :=
    .exit status user
  have table := sound.table.step exits
  have parents : ∀ p, (r.kernel.tasks p).parent ≠ r.kernel.current.pid →
      ((r.kernel.sysExit status).tasks p).parent = (r.kernel.tasks p).parent :=
    fun p stranger => r.kernel.sysExit_parent status stranger
  clear exits
  generalize r.kernel.sysExit status = left at *
  refine ⟨table, fun p inside inUse zombie => ?_, fun w p waits => ?_,
    fun w p statloc behind => ?_⟩
  · rw [undelivered_snoc, recordStatus, Function.update_apply]
    have died := death p
    split at died
    · rename_i same
      simp only [Task.death, Prod.mk.injEq] at died
      rw [if_pos same, died.2.1]
    · rename_i other
      rw [if_neg other, Task.exitCode_of_death died]
      exact sound.kept p inside ((inUse' p).mpr inUse) ((Task.zombie_of_death died).mp zombie)
  · obtain ⟨inside, inUse, parent⟩ := sound.child w p waits
    refine ⟨inside, (inUse' p).mp inUse, ?_⟩
    have other : w ≠ r.kernel.currentTask := by
      rintro rfl
      obtain ⟨statloc, entered | behind⟩ := waits
      · exact absurd (idle.symm.trans entered) (by simp)
      · exact absurd (idle.symm.trans behind) (by simp)
    have stranger : (r.kernel.tasks p).parent ≠ r.kernel.current.pid := by
      rw [parent, current]
      exact fun same => other (Int.ofNat_inj.mp same)
    exact (parents p stranger).trans parent
  · have died := death p
    have before := sound.zombie w p statloc behind
    split at died
    · simp only [Task.death, Prod.mk.injEq, beq_iff_eq] at died
      exact died.2.2
    · exact (Task.zombie_of_death died).mpr before

/-- A call that asks for a child keeps a run sound. -/
theorem Sound.call (sound : Sound history r) (pid : Int) (statloc : Bool)
    (asks : AsksForChild r pid) :
    Sound (history ++ [.call r.kernel.currentTask pid (r.waitCall pid statloc).2])
      (r.waitCall pid statloc).1 := by
  have same : undelivered (history ++ [.call r.kernel.currentTask pid (r.waitCall pid statloc).2]) =
      undelivered history := undelivered_snoc history _
  unfold Reaping.waitCall at same ⊢
  by_cases refused : pid ≤ 0 ∨ nrTasks ≤ pid
  · rw [if_pos refused] at same ⊢
    exact sound.carry sound.table same (fun _ => .inl rfl) (fun _ _ => ⟨rfl, rfl⟩)
      fun _ free inUse => absurd inUse free
  · obtain ⟨inside, inUse, parent⟩ := asks.resolve_left refused
    rw [if_neg refused] at same ⊢
    refine ⟨sound.table, fun p below inUse zombie => ?_, fun w p waits => ?_,
      fun w p statloc behind => ?_⟩
    · rw [same]
      exact sound.kept p below inUse zombie
    · by_cases here : w = r.kernel.currentTask
      · subst here
        have number : p = pid.toNat := by
          obtain ⟨_, entered | behind⟩ := waits
          · simp only [Function.update_self, WaitPhase.waiting.injEq] at entered
            exact entered.1.symm
          · simp at behind
        rw [number, ← sound.table.current_pid]
        exact ⟨by omega, inUse, parent⟩
      · have before : r.AwaitsChild w p := by
          simpa only [Reaping.AwaitsChild, Function.update_of_ne here] using waits
        exact sound.child w p before
    · have here : w ≠ r.kernel.currentTask := by
        rintro rfl
        simp at behind
      have before : r.phase w = .leaving p statloc := by
        simpa only [Function.update_of_ne here] using behind
      exact sound.zombie w p statloc before

/-- A turn of the loop keeps a run sound. -/
theorem Sound.test (sound : Sound history r) {pid : Nat} {statloc : Bool}
    (waiting : r.phase r.kernel.currentTask = .waiting pid statloc) :
    Sound (history ++ [.test]) (r.waitTest pid statloc) := by
  have same : undelivered (history ++ [.test]) = undelivered history := undelivered_snoc history _
  unfold Reaping.waitTest
  by_cases alive : (r.kernel.tasks pid).state ≠ .zombie
  · rw [if_pos alive]
    exact sound.carry sound.table same (fun _ => .inl rfl) (fun _ _ => ⟨rfl, rfl⟩)
      fun _ free inUse => absurd inUse free
  · rw [if_neg alive]
    have kept := sound.kept
    refine ⟨sound.table, by rwa [← same] at kept, fun w p waits => ?_,
      fun w p statloc' behind => ?_⟩
    · by_cases here : w = r.kernel.currentTask
      · subst here
        have number : p = pid := by
          obtain ⟨_, entered | behind⟩ := waits
          · simp at entered
          · simp only [Function.update_self, WaitPhase.leaving.injEq] at behind
            exact behind.1.symm
        subst number
        exact sound.child _ p ⟨statloc, .inl waiting⟩
      · have before : r.AwaitsChild w p := by
          simpa only [Reaping.AwaitsChild, Function.update_of_ne here] using waits
        exact sound.child w p before
    · by_cases here : w = r.kernel.currentTask
      · subst here
        simp only [Function.update_self, WaitPhase.leaving.injEq] at behind
        rw [← behind.1]
        exact Decidable.not_not.mp alive
      · have before : r.phase w = .leaving p statloc' := by
          simpa only [Function.update_of_ne here] using behind
        exact sound.zombie w p statloc' before

/-- A delivery keeps a run sound: no other task waits for the slot that is released. -/
theorem Sound.deliver (sound : Sound history r) {pid : Nat} {statloc : Bool}
    (leaving : r.phase r.kernel.currentTask = .leaving pid statloc) :
    Sound (history ++ [.deliver r.kernel.currentTask pid (r.kernel.tasks pid).exitCode])
      (r.waitReturn pid) := by
  obtain ⟨inside, inUse, parent⟩ := sound.child _ pid ⟨statloc, .inr leaving⟩
  have zombie := sound.zombie _ pid statloc leaving
  have tasks : ∀ p, p ≠ pid → (r.waitReturn pid).kernel.tasks p = r.kernel.tasks p := by
    intro p other
    rw [Reaping.waitReturn, Kernel.setTask_tasks, if_neg other]
  have others : ∀ w p, (r.waitReturn pid).AwaitsChild w p →
      w ≠ r.kernel.currentTask ∧ r.AwaitsChild w p := by
    intro w p waits
    have here : w ≠ r.kernel.currentTask := by
      rintro rfl
      simp [Reaping.AwaitsChild, Reaping.waitReturn] at waits
    refine ⟨here, ?_⟩
    simpa only [Reaping.AwaitsChild, Reaping.waitReturn, Function.update_of_ne here] using waits
  have differ : ∀ w p, (r.waitReturn pid).AwaitsChild w p → p ≠ pid := by
    rintro w p waits rfl
    obtain ⟨here, before⟩ := others w p waits
    exact here (Int.ofNat_inj.mp ((sound.child w p before).2.2.symm.trans parent))
  refine ⟨sound.table.reap (by omega) zombie, fun p below inUse' zombie' => ?_,
    fun w p waits => ?_, fun w p statloc' behind => ?_⟩
  · have other : p ≠ pid := by
      rintro rfl
      rw [Reaping.waitReturn, Kernel.setTask_tasks, if_pos rfl] at inUse'
      exact inUse' rfl
    rw [tasks p other] at inUse' zombie' ⊢
    rw [undelivered_snoc, recordStatus, Function.update_of_ne other]
    exact sound.kept p below inUse' zombie'
  · rw [tasks p (differ w p waits)]
    exact sound.child w p (others w p waits).2
  · have waits : (r.waitReturn pid).AwaitsChild w p := ⟨statloc', .inr behind⟩
    rw [tasks p (differ w p waits)]
    have before : r.phase w = .leaving p statloc' :=
      (Function.update_of_ne (others w p waits).1 _ _).symm.trans behind
    exact sound.zombie w p statloc' before

/-- Every step of a run in which every call asks for a child keeps it sound. -/
theorem Sound.step {event : ReapEvent} (sound : Sound history r) (asks : ChildrenOnly r event)
    (step : ReapStep width r event r') : Sound (history ++ [event]) r' := by
  cases step with
  | fork blocks _ => exact sound.fork blocks
  | exit status user idle => exact sound.exit status user idle
  | pause _ =>
    exact sound.carry sound.table.blocked.switchTask (undelivered_snoc history _)
      (fun _ => .inl rfl) (fun p _ => sound.table.pause_keeps p)
      fun p free inUse => absurd ((Task.inUse_of_death (sound.table.pause_keeps p).1).mp inUse) free
  | timer =>
    have keeps := sound.table.toSwitchable.keeps
    exact sound.carry sound.table.toSwitchable.switchTask (undelivered_snoc history _)
      (fun _ => .inl rfl) (fun p _ => keeps p)
      fun p free inUse => absurd ((Task.inUse_of_death (keeps p).1).mp inUse) free
  | kill pid sign _ =>
    have keeps := Kernel.kill_keeps r.kernel pid sign
    have killed : TaskStep width r.kernel (.kill pid sign) (r.kernel.sysKill pid sign).1 :=
      .kill pid sign
    exact sound.carry (sound.table.step killed) (undelivered_snoc history _)
      (fun _ => .inl rfl) (fun p _ => keeps p)
      fun p free inUse => absurd ((Task.inUse_of_death (keeps p).1).mp inUse) free
  | call pid statloc _ => exact sound.call pid statloc asks
  | test waiting => exact sound.test waiting
  | deliver leaving => exact sound.deliver leaving

end Steps

/-! ## The reaping protocol -/

section Protocol

variable {width : Nat} {first r : Reaping} {events : List ReapEvent}

/-- A run in which every call asks for a child is sound. -/
theorem sound_of_path (start : (reaping width).initial first)
    (path : (reaping width).Path ChildrenOnly first events r) : Sound events r := by
  induction path with
  | nil =>
    obtain ⟨⟨blocks, boot, kernel⟩, idle⟩ := start
    have asleep : ∀ w p, ¬first.AwaitsChild w p := by
      intro w p waits
      obtain ⟨statloc, phase | phase⟩ := waits
      · exact absurd ((idle w).symm.trans phase) (by simp)
      · exact absurd ((idle w).symm.trans phase) (by simp)
    refine ⟨kernel ▸ Kernel.setupTasking_invariant blocks boot, fun p inside inUse zombie => ?_,
      fun w p waits => absurd waits (asleep w p),
      fun w p statloc behind => absurd ⟨statloc, .inr behind⟩ (asleep w p)⟩
    rw [kernel] at inUse zombie
    unfold Kernel.setupTasking at inUse zombie
    by_cases zero : p = 0
    · simp [zero] at zombie
    · simp [zero, inside, Task.InUse] at inUse
  | snoc _ asks step ih => exact ih.step asks step

/-- A delivery of a sound run: a zombie child of the caller whose status was not delivered. -/
theorem Sound.delivery {w p : Nat} {status : Int} {r' : Reaping} (sound : Sound events r)
    (step : ReapStep width r (.deliver w p status) r') :
    r.kernel.UnreapedChild p ∧ w = r.kernel.currentTask ∧
      (r.kernel.tasks p).state = .zombie ∧ status = (r.kernel.tasks p).exitCode ∧
      undelivered events p = some status := by
  cases step with
  | deliver leaving =>
    obtain ⟨inside, inUse, parent⟩ := sound.child _ p ⟨_, .inr leaving⟩
    have zombie := sound.zombie _ p _ leaving
    have number : (Int.ofNat p).toNat = p := rfl
    refine ⟨⟨⟨by omega, by omega⟩, inUse, ?_⟩, rfl, zombie, rfl,
      sound.kept p inside.2 inUse zombie⟩
    rw [sound.table.current_pid]
    exact parent

/-- Every delivery in a run in which every call asks for a child has a status to deliver. -/
theorem delivers_once (start : (reaping width).initial first)
    (path : (reaping width).Path ChildrenOnly first events r) {earlier later : List ReapEvent}
    {w p : Nat} {status : Int} (split : events = earlier ++ .deliver w p status :: later) :
    undelivered earlier p = some status := by
  induction path generalizing later with
  | nil => simp at split
  | snoc path _ step ih =>
    rcases List.eq_nil_or_concat later with rfl | ⟨before, event, rfl⟩
    · obtain ⟨rfl, rfl⟩ := List.append_inj' split rfl |>.imp id List.singleton_inj.mp
      exact ((sound_of_path start path).delivery step).2.2.2.2
    · rw [List.concat_eq_append, ← List.cons_append, ← List.append_assoc] at split
      exact ih (List.append_inj' split rfl).1

/-- `sys_waitpid` refuses what is no child exactly when it is asked for a child. -/
theorem refuses_strangers (r : Reaping) (pid : Int) (statloc : Bool) :
    (¬r.kernel.UnreapedChild pid → r.waitCall pid statloc = (r, some (-ECHILD))) ↔
      AsksForChild r pid := by
  unfold AsksForChild Reaping.waitCall
  by_cases refused : pid ≤ 0 ∨ nrTasks ≤ pid
  · rw [if_pos refused]
    exact ⟨fun _ => .inl refused, fun _ _ => rfl⟩
  · rw [if_neg refused]
    constructor
    · intro refuses
      by_contra stranger
      simpa using congrArg Prod.snd (refuses fun child => stranger (.inr child))
    · intro asks stranger
      exact absurd (asks.resolve_left refused) stranger

/-- Without a task switch the three parts are `sys_waitpid` on a zombie. -/
theorem waitReturn_eq_sysWaitpid (r : Reaping) {pid : Int} (statloc : Bool)
    (inside : 0 < pid ∧ pid < nrTasks) (zombie : (r.kernel.tasks pid.toNat).state = .zombie) :
    r.kernel.sysWaitpid pid statloc = some
      ((((r.waitCall pid statloc).1.waitTest pid.toNat statloc).waitReturn pid.toNat).kernel, pid,
        if statloc then some (r.kernel.tasks pid.toNat).exitCode else none) := by
  have accepted : ¬(pid ≤ 0 ∨ nrTasks ≤ pid) := by omega
  have dead : ¬(r.kernel.tasks pid.toNat).state ≠ .zombie := not_not.mpr zombie
  rw [Kernel.sysWaitpid, if_neg accepted, Reaping.waitCall, if_neg accepted, Reaping.waitTest,
    if_neg dead]
  dsimp only
  rw [if_neg dead]
  rfl

/-- The reaping protocol, in every run in which `sys_waitpid` is only asked for unreaped
children of the caller or for numbers it refuses: no status is delivered twice, it is delivered
to the parent, and what is no unreaped child is refused. -/
theorem reaping_protocol (start : (reaping width).initial first)
    (path : (reaping width).Path ChildrenOnly first events r) :
    (∀ earlier later w p status, events = earlier ++ .deliver w p status :: later →
      undelivered earlier p = some status) ∧
    (∀ w p status r', (reaping width).step r (.deliver w p status) r' →
      r.kernel.UnreapedChild p ∧ w = r.kernel.currentTask ∧
        (r.kernel.tasks p).state = .zombie ∧ status = (r.kernel.tasks p).exitCode ∧
        undelivered events p = some status) ∧
    ∀ pid statloc, (¬r.kernel.UnreapedChild pid →
      r.waitCall pid statloc = (r, some (-ECHILD))) ↔ AsksForChild r pid :=
  ⟨fun _ _ _ _ _ split => delivers_once start path split,
    fun _ _ _ _ step => (sound_of_path start path).delivery step,
    refuses_strangers r⟩

end Protocol

/-- Nothing is in `sys_waitpid` after `setup_tasking`. -/
def Reaping.booted : Reaping where
  kernel := Kernel.setupTasking Blocks.above { tasks := fun _ => {} }
  phase _ := .idle

/-- Task 1 has been forked and has exited with status 7. -/
def Reaping.bereft : Reaping where
  kernel := ((booted.kernel.sysFork ucharWidth Blocks.above).1).switchTask.sysExit 7
  phase := Function.update (fun _ => .idle) 1 .idle

/-- A run to that state. -/
theorem bereft_path (allowed : Reaping → ReapEvent → Prop)
    (permits : ∀ r, allowed r .fork ∧ allowed r .timer ∧ allowed r (.exit 1 7)) :
    (reaping ucharWidth).Path allowed .booted [.fork, .timer, .exit 1 7] .bereft := by
  have booted : (reaping ucharWidth).Path allowed .booted [] .booted := .nil _
  have forked := booted.snoc (permits _).1 (.fork Blocks.above rfl)
  have switched := forked.snoc (permits _).2.1 .timer
  exact switched.snoc (permits _).2.2 (.exit 7 (by decide) (by decide))

/-- Task 0 is behind the loop of its call for task 1. -/
def Reaping.served (r : Reaping) : Reaping := (r.waitCall 1 true).1.waitTest 1 true

/-- A run to that state, which may be entered again. -/
theorem served_path {allowed : Reaping → ReapEvent → Prop} {r : Reaping} {events : List ReapEvent}
    (path : (reaping ucharWidth).Path allowed .booted events r)
    (permits : allowed r (.call 0 1 none) ∧ allowed (r.waitCall 1 true).1 .test)
    (idle : r.phase 0 = .idle) (current : r.kernel.currentTask = 0) :
    (reaping ucharWidth).Path allowed .booted (events ++ [.call 0 1 none] ++ [.test]) r.served := by
  have accepted : ¬((1 : Int) ≤ 0 ∨ nrTasks ≤ (1 : Int)) := by decide
  have call : ReapStep ucharWidth r (.call 0 1 none) (r.waitCall 1 true).1 := by
    have step : ReapStep ucharWidth r _ _ := .call 1 true (current ▸ idle)
    rwa [current, show (r.waitCall 1 true).2 = none by rw [Reaping.waitCall, if_neg accepted]]
      at step
  have test : ReapStep ucharWidth (r.waitCall 1 true).1 .test r.served := by
    refine .test ?_
    rw [Reaping.waitCall, if_neg accepted]
    exact Function.update_self ..
  exact (path.snoc permits.1 call).snoc permits.2 test

/-- Task 0 waits for task 1 and gets its status. -/
theorem reaping_protocol_delivers :
    Reaping.bereft.served.kernel.UnreapedChild 1 ∧
      undelivered [.fork, .timer, .exit 1 7, .call 0 1 none, .test] 1 = some 7 := by
  have start : (reaping ucharWidth).initial .booted :=
    ⟨⟨Blocks.above, { tasks := fun _ => {} }, rfl⟩, fun _ => rfl⟩
  have died := bereft_path ChildrenOnly fun _ => ⟨trivial, trivial, trivial⟩
  have child : AsksForChild .bereft 1 :=
    .inr ⟨by decide, by decide +kernel, by decide +kernel⟩
  have waited := served_path died ⟨child, trivial⟩ rfl (by decide +kernel)
  have behind : Reaping.bereft.served.phase Reaping.bereft.served.kernel.currentTask =
      .leaving 1 true := by decide +kernel
  have protocol := (reaping_protocol start waited).2.1 _ _ _ _ (.deliver behind)
  exact ⟨protocol.1, protocol.2.2.2.2.trans (by decide +kernel)⟩

/-- The slot stays that of a zombie when task 1 has been reaped, so its status is delivered
twice. -/
theorem reaping_protocol_twice :
    ¬∀ (width : Nat) (first r : Reaping) (events : List ReapEvent),
      (reaping width).initial first →
      (reaping width).Path TransitionSystem.Unrestricted first events r →
      ∀ earlier later w p status, events = earlier ++ .deliver w p status :: later →
        undelivered earlier p = some status := by
  intro claim
  have start : (reaping ucharWidth).initial .booted :=
    ⟨⟨Blocks.above, { tasks := fun _ => {} }, rfl⟩, fun _ => rfl⟩
  have died := bereft_path TransitionSystem.Unrestricted fun _ => ⟨trivial, trivial, trivial⟩
  have waited := served_path died ⟨trivial, trivial⟩ rfl (by decide +kernel)
  have behind : Reaping.bereft.served.phase Reaping.bereft.served.kernel.currentTask =
      .leaving 1 true := by decide +kernel
  have delivered := waited.snoc trivial (.deliver behind)
  have again := served_path delivered ⟨trivial, trivial⟩ (by decide +kernel) (by decide +kernel)
  have behind' : (Reaping.bereft.served.waitReturn 1).served.phase
      (Reaping.bereft.served.waitReturn 1).served.kernel.currentTask = .leaving 1 true := by
    decide +kernel
  have twice := claim _ _ _ _ start (again.snoc trivial (.deliver behind')) _ [] _ 1 _ rfl
  exact absurd twice (by decide +kernel)

end Nupkux
