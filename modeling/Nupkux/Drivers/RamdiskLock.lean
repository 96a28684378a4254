import Nupkux.Drivers.DeviceLock
import Nupkux.Drivers.Ramdisk

/-!
# Who has the RAM disk

`ramdisk_request` takes the device before it looks at its arguments and gives it back at its end.
What a call does to the queue of the device is one atomic part after the other; between two parts
other tasks request and leave the device as they like. The bytes that are copied are no concern
here, so a transfer leaves the queue alone.
-/

namespace Nupkux.Ramdisk

/-- How far a call of `ramdisk_request` is. -/
inductive RequestPosition where
  /-- Before its request is appended. -/
  | locking
  /-- In the loop of `device_lock`. -/
  | testing
  /-- After `device_lock`, before the sector is looked at. -/
  | locked
  /-- After the `switch`, before `device_unlock`. -/
  | unlocking
  | returned (result : Int)
  deriving DecidableEq

/-- The queue of the device, and how far the call is. -/
structure RequestState where
  queue : List Int
  position : RequestPosition

/-- What another task does to the queue. -/
inductive OtherEvent where
  | requests (pid : Int)
  | leaves (pid : Int)

/-- The queue after `device_unlock`, called by a task. -/
def deviceUnlock (pid : Int) (queue : List Int) : List Int :=
  if queue.head? = some pid then queue.tail else queue

/-- What tasks other than the caller do to the queue. -/
inductive OtherStep (pid : Int) : List Int → OtherEvent → List Int → Prop
  | requests {queue : List Int} {other : Int} (differ : other ≠ pid) :
      OtherStep pid queue (.requests other) (queue ++ [other])
  | leaves {rest : List Int} {other : Int} (differ : other ≠ pid) :
      OtherStep pid (other :: rest) (.leaves other) rest

/-- The parts of `ramdisk_request`, called by a task, with what others do between them. -/
inductive RequestStep (pid : Int) (sector count : Nat) :
    RequestState → Option OtherEvent → RequestState → Prop
  | append {queue : List Int} :
      RequestStep pid sector count ⟨queue, .locking⟩ none ⟨queue ++ [pid], .testing⟩
  | pause {first : Int} {rest : List Int} (waits : first ≠ pid) :
      RequestStep pid sector count ⟨first :: rest, .testing⟩ none ⟨first :: rest, .testing⟩
  | enter {rest : List Int} :
      RequestStep pid sector count ⟨pid :: rest, .testing⟩ none ⟨pid :: rest, .locked⟩
  | reject {queue : List Int} (past : sector > ramdiskSectorCount) :
      RequestStep pid sector count ⟨queue, .locked⟩ none ⟨queue, .returned 0⟩
  | transfer {queue : List Int} (onDisk : ¬sector > ramdiskSectorCount) :
      RequestStep pid sector count ⟨queue, .locked⟩ none ⟨queue, .unlocking⟩
  | unlock {first : Int} {rest : List Int} :
      RequestStep pid sector count ⟨first :: rest, .unlocking⟩ none
        ⟨deviceUnlock pid (first :: rest), .returned (toInt (clampedCount sector count))⟩
  | other {queue queue' : List Int} {position : RequestPosition} {event : OtherEvent}
      (step : OtherStep pid queue event queue') :
      RequestStep pid sector count ⟨queue, position⟩ (some event) ⟨queue', position⟩

/-- Calls of `ramdisk_request` on a queue. -/
def requesting (pid : Int) (sector count : Nat) (queue : List Int) :
    TransitionSystem RequestState (Option OtherEvent) where
  initial s := s = ⟨queue, .locking⟩
  step := RequestStep pid sector count

/-- What another task does to a queue without the caller. -/
def OtherEvent.apply (queue : List Int) : OtherEvent → List Int
  | .requests pid => queue ++ [pid]
  | .leaves pid => queue.erase pid

/-- The queue as it would be if the caller had not called. -/
def withoutCall (queue : List Int) (events : List (Option OtherEvent)) : List Int :=
  (events.filterMap id).foldl OtherEvent.apply queue

/-- Whenever the call returns, the queue is as if it had not been called. -/
def GivesBack (pid : Int) (sector count : Nat) (queue : List Int) : Prop :=
  ∀ events queue' result,
    (requesting pid sector count queue).Path TransitionSystem.Unrestricted ⟨queue, .locking⟩ events
      ⟨queue', .returned result⟩ →
    pid ∉ queue' ∧ queue' = withoutCall queue events

variable {pid : Int} {sector count : Nat} {queue : List Int}

/-- A request of one task more, between the requests of the others. -/
def Stands (pid : Int) (others queue : List Int) : RequestPosition → Prop
  | .locking => queue = others
  | .testing => ∃ before after, queue = before ++ pid :: after ∧ others = before ++ after
  | .locked => queue = pid :: others
  | .unlocking => queue = pid :: others
  | .returned _ => queue = others

/-- What others do, with a request of the caller among theirs. -/
theorem Stands.other {others queue' : List Int} {position : RequestPosition} {event : OtherEvent}
    (stands : Stands pid others queue position) (absent : pid ∉ others)
    (step : OtherStep pid queue event queue') :
    Stands pid (event.apply others) queue' position ∧ pid ∉ event.apply others := by
  cases step with
  | @requests _ other differ =>
    constructor
    · cases position with
      | locking => exact congrArg (· ++ [other]) stands
      | testing =>
        obtain ⟨before, after, rfl, rfl⟩ := stands
        exact ⟨before, after ++ [other], by simp, List.append_assoc ..⟩
      | locked => exact congrArg (· ++ [other]) stands
      | unlocking => exact congrArg (· ++ [other]) stands
      | returned _ => exact congrArg (· ++ [other]) stands
    · intro member
      rcases List.mem_append.mp member with before | new
      · exact absent before
      · exact differ (List.mem_singleton.mp new).symm
  | @leaves _ other differ =>
    constructor
    · cases position with
      | locking =>
        rw [← show other :: queue' = others from stands]
        exact (List.erase_cons_head other queue').symm
      | testing =>
        obtain ⟨before, after, split, rfl⟩ := stands
        cases before with
        | nil => exact absurd (List.cons.inj split).1 differ
        | cons first before =>
          obtain ⟨rfl, rfl⟩ := List.cons.inj split
          exact ⟨before, after, rfl, List.erase_cons_head ..⟩
      | locked => exact absurd (List.cons.inj stands).1 differ
      | unlocking => exact absurd (List.cons.inj stands).1 differ
      | returned _ =>
        rw [← show other :: queue' = others from stands]
        exact (List.erase_cons_head other queue').symm
    · intro member
      exact absent (List.mem_of_mem_erase member)

/-- Each part of a call that is not refused keeps the requests of the others as they are. -/
theorem Stands.step {others : List Int} {s s' : RequestState} {event : Option OtherEvent}
    (stands : Stands pid others s.queue s.position) (absent : pid ∉ others)
    (onDisk : sector ≤ ramdiskSectorCount) (step : RequestStep pid sector count s event s') :
    Stands pid (withoutCall others [event]) s'.queue s'.position ∧
      pid ∉ withoutCall others [event] := by
  cases step with
  | @append queue =>
    have same : queue = others := stands
    rw [same]
    exact ⟨⟨others, [], rfl, (List.append_nil others).symm⟩, absent⟩
  | pause => exact ⟨stands, absent⟩
  | @enter rest =>
    obtain ⟨before, after, split, rfl⟩ := stands
    cases before with
    | nil => exact ⟨split, absent⟩
    | cons first before =>
      have same : first = pid := (List.cons.inj split).1.symm
      exact absurd (same ▸ List.mem_cons_self) absent
  | reject past => exact absurd onDisk (Nat.not_le.mpr past)
  | transfer => exact ⟨stands, absent⟩
  | @unlock first rest =>
    have here : first :: rest = pid :: others := stands
    rw [here]
    exact ⟨if_pos rfl, absent⟩
  | other step => exact stands.other absent step

/-- Others after more of what they do. -/
theorem withoutCall_concat (others : List Int) (events : List (Option OtherEvent))
    (event : Option OtherEvent) :
    withoutCall others (events ++ [event]) = withoutCall (withoutCall others events) [event] := by
  rw [withoutCall, List.filterMap_append, List.foldl_append]
  rfl

/-- In every run of a call that is not refused, the others stand as without it. -/
theorem stands_of_path {s : RequestState} {events : List (Option OtherEvent)}
    (absent : pid ∉ queue) (onDisk : sector ≤ ramdiskSectorCount)
    (path : (requesting pid sector count queue).Path TransitionSystem.Unrestricted
      ⟨queue, .locking⟩ events s) :
    Stands pid (withoutCall queue events) s.queue s.position ∧ pid ∉ withoutCall queue events := by
  generalize start : (⟨queue, .locking⟩ : RequestState) = first at path
  induction path with
  | nil =>
    subst start
    exact ⟨rfl, absent⟩
  | snoc _ _ step ih =>
    rw [withoutCall_concat]
    exact ih.1.step ih.2 onDisk step

/-- The caller waits while others leave, one after the other. -/
theorem path_to_testing (absent : pid ∉ queue) {gone : Nat} (enough : gone ≤ queue.length)
    (sector count : Nat) :
    ∃ events, (requesting pid sector count queue).Path TransitionSystem.Unrestricted
      ⟨queue, .locking⟩ events ⟨queue.drop gone ++ [pid], .testing⟩ := by
  induction gone with
  | zero => exact ⟨[none], .snoc (.nil _) trivial .append⟩
  | succ gone ih =>
    obtain ⟨events, path⟩ := ih (Nat.le_of_succ_le enough)
    have differ : queue[gone] ≠ pid := by
      intro same
      apply absent
      rw [← same]
      exact List.getElem_mem enough
    have first : queue.drop gone = queue[gone] :: queue.drop (gone + 1) :=
      List.drop_eq_getElem_cons enough
    rw [first] at path
    exact ⟨_, path.snoc trivial (.other (.leaves differ))⟩

/-- A call that is refused leaves its request in the queue. -/
theorem not_givesBack_of_past (absent : pid ∉ queue) (past : sector > ramdiskSectorCount) :
    ¬GivesBack pid sector count queue := by
  intro givesBack
  obtain ⟨events, path⟩ := path_to_testing absent (Nat.le_refl queue.length) sector count
  rw [List.drop_length, List.nil_append] at path
  have refused := (path.snoc trivial .enter).snoc trivial (.reject past)
  exact (givesBack _ _ _ refused).1 (List.mem_singleton_self pid)

/-- A call gives the device back in every run if and only if its sector is not refused. -/
theorem givesBack_iff (absent : pid ∉ queue) :
    GivesBack pid sector count queue ↔ sector ≤ ramdiskSectorCount := by
  constructor
  · intro givesBack
    by_contra past
    exact not_givesBack_of_past absent (Nat.not_le.mp past) givesBack
  · intro onDisk events queue' result path
    obtain ⟨stands, gone⟩ := stands_of_path absent onDisk path
    have same : queue' = withoutCall queue events := stands
    rw [same]
    exact ⟨gone, rfl⟩

/-- A read of one sector of a device that two tasks have requested. -/
theorem givesBack_third : GivesBack 3 0 1 [1, 2] :=
  (givesBack_iff (by decide)).mpr (by decide)

/-- A read past the end of a device nobody has requested. -/
theorem givesBack_not : ¬GivesBack 1 2881 1 [] := not_givesBack_of_past (by decide) (by decide)

/-! ## The queue of a device among others -/

variable {s s' : Locking} {width device : Nat} {event : LockEvent}

/-- The first part of `device_lock`, of the current task. -/
theorem queue_appendRequest (s : Locking) (device : Nat) :
    (s.appendRequest device).queue device = s.queue device ++ [s.kernel.current.pid] :=
  Function.update_self ..

/-- The test of the loop of `device_lock`, of the current task. -/
theorem isFirst_iff (s : Locking) (device : Nat) :
    s.isFirst device = true ↔ ∃ rest, s.queue device = s.kernel.current.pid :: rest := by
  rw [Locking.isFirst, beq_iff_eq]
  constructor
  · exact Locking.front_rest
  · rintro ⟨rest, front⟩
    rw [front]
    rfl

/-- The first part of `device_unlock`, of the current task. -/
theorem queue_removeRequest (s : Locking) (device : Nat) :
    (s.removeRequest device).queue device =
      deviceUnlock s.kernel.current.pid (s.queue device) := by
  by_cases first : s.isFirst device = true
  · rw [Locking.removeRequest, if_pos first, deviceUnlock, if_pos (beq_iff_eq.mp first)]
    exact Function.update_self ..
  · rw [Locking.removeRequest, if_neg first, deviceUnlock,
      if_neg fun same => first (beq_iff_eq.mpr same)]

/-- The test leaves the queues alone. -/
theorem queue_testHead (s : Locking) (device : Nat) : (s.testHead device).queue = s.queue := by
  unfold Locking.testHead
  split <;> rfl

/-- So does telling the task with the first request. -/
theorem queue_wakeHead (s : Locking) (device : Nat) : (s.wakeHead device).queue = s.queue := by
  unfold Locking.wakeHead
  split <;> rfl

/-- The removal of a request leaves the other queues alone. -/
theorem queue_removeRequest_of_ne {d : Nat} (differ : device ≠ d) :
    (s.removeRequest d).queue device = s.queue device := by
  unfold Locking.removeRequest
  split
  · exact Function.update_of_ne differ ..
  · rfl

/-- A step of a task other than the caller is one of those that `OtherStep` allows, or leaves the
queue alone. -/
theorem otherStep_of_lockStep (step : LockStep width s event s')
    (other : s.kernel.current.pid ≠ pid) :
    s'.queue device = s.queue device ∨
      ∃ happens, OtherStep pid (s.queue device) happens (s'.queue device) := by
  cases step with
  | call => exact .inl rfl
  | timer => exact .inl rfl
  | request d =>
    by_cases same : d = device
    · subst same
      rw [queue_appendRequest]
      exact .inr ⟨_, .requests other⟩
    · exact .inl (Function.update_of_ne (Ne.symm same) ..)
  | test => exact .inl (congrFun (queue_testHead s _) device)
  | pause => exact .inl rfl
  | remove d =>
    by_cases same : device = d
    · subst same
      rw [queue_removeRequest]
      by_cases first : s.isFirst device = true
      · obtain ⟨rest, front⟩ := (isFirst_iff s device).mp first
        rw [front, deviceUnlock, List.head?_cons, if_pos rfl, List.tail_cons]
        exact .inr ⟨_, .leaves other⟩
      · exact .inl (if_neg fun front => first (beq_iff_eq.mpr front))
    · exact .inl (queue_removeRequest_of_ne same)
  | wake => exact .inl (congrFun (queue_wakeHead s _) device)

end Nupkux.Ramdisk
