import Nupkux.Lib.Transition
import Mathlib.Data.List.Basic

/-!
# Locks with a queue

A lock for which clients queue: a client appends its request, enters when its request is the
first one, and its request leaves the queue when it leaves. The clients are of any type. This
is the purpose of a fair lock; how a waiting client learns that it may enter is left to an
implementation.
-/

/-- What a client does to a lock. -/
inductive LockAction (Client : Type*) where
  | request (client : Client)
  | enter (client : Client)
  | leave (client : Client)
  deriving DecidableEq, Repr

/-- The requests, and whether the first client has entered. -/
structure QueueLock (Client : Type*) where
  queue : List Client := []
  entered : Bool := false
  deriving DecidableEq, Repr

namespace QueueLock

variable {Client : Type*}

/-- The steps of a lock. A client has one request at a time. -/
inductive Step : QueueLock Client → LockAction Client → QueueLock Client → Prop
  | request {lock : QueueLock Client} {client : Client} (fresh : client ∉ lock.queue) :
      Step lock (.request client) { lock with queue := lock.queue ++ [client] }
  | enter {client : Client} {rest : List Client} :
      Step ⟨client :: rest, false⟩ (.enter client) ⟨client :: rest, true⟩
  | leave {client : Client} {rest : List Client} :
      Step ⟨client :: rest, true⟩ (.leave client) ⟨rest, false⟩

/-- Runs from a lock nobody has requested. -/
def system (Client : Type*) : TransitionSystem (QueueLock Client) (LockAction Client) where
  initial lock := lock = {}
  step := Step

/-- The clients that requested the lock, in order. -/
def requests : List (LockAction Client) → List Client :=
  List.filterMap fun action => match action with
    | .request client => some client
    | _ => none

/-- The clients that entered, in order. -/
def entries : List (LockAction Client) → List Client :=
  List.filterMap fun action => match action with
    | .enter client => some client
    | _ => none

/-- The clients that left, in order. -/
def departures : List (LockAction Client) → List Client :=
  List.filterMap fun action => match action with
    | .leave client => some client
    | _ => none

/-- The client inside, if there is one. -/
def inside (lock : QueueLock Client) : List Client :=
  if lock.entered then lock.queue.take 1 else []

variable {first last : QueueLock Client} {actions : List (LockAction Client)}

/-- What holds after some actions: each request is answered once and in order. -/
structure Fair (actions : List (LockAction Client)) (lock : QueueLock Client) : Prop where
  /-- A request has left or is in the queue. -/
  requests : QueueLock.requests actions = departures actions ++ lock.queue
  /-- A client that entered has left or is inside. -/
  entries : QueueLock.entries actions = departures actions ++ lock.inside
  /-- Somebody is inside when the lock is entered. -/
  occupied : lock.entered = true → lock.queue ≠ []

/-- Requests behind the first one change nothing for who is inside. -/
theorem inside_append (queue more : List Client) (entered : Bool)
    (occupied : entered = true → queue ≠ []) :
    inside ⟨queue ++ more, entered⟩ = inside ⟨queue, entered⟩ := by
  cases entered with
  | false => rfl
  | true =>
    obtain ⟨first, rest, rfl⟩ := List.exists_cons_of_ne_nil (occupied rfl)
    rfl

/-- Every step is fair. -/
theorem Fair.step {lock next : QueueLock Client} {action : LockAction Client}
    (fair : Fair actions lock) (step : Step lock action next) :
    Fair (actions ++ [action]) next := by
  obtain ⟨asked, entered, occupied⟩ := fair
  unfold QueueLock.requests departures at asked
  unfold QueueLock.entries departures at entered
  cases step with
  | request _ =>
    refine ⟨?_, ?_, by simp⟩
    · simp [QueueLock.requests, departures, asked]
    · rw [inside_append _ _ _ occupied]
      simp [QueueLock.entries, departures, entered]
  | enter =>
    refine ⟨?_, ?_, by simp⟩
    · simp [QueueLock.requests, departures, asked]
    · simp [QueueLock.entries, departures, entered, inside]
  | leave =>
    refine ⟨?_, ?_, by simp⟩
    · simp [QueueLock.requests, departures, asked]
    · simp [QueueLock.entries, departures, entered, inside]

/-- Every run is fair. -/
theorem fair_of_path (path : (system Client).Path TransitionSystem.Unrestricted {} actions last) :
    Fair actions last := by
  generalize start : ({} : QueueLock Client) = first at path
  induction path with
  | nil =>
    subst start
    exact ⟨rfl, rfl, by simp⟩
  | snoc _ _ step ih => exact ih.step step

/-- Clients enter in the order of their requests. -/
theorem Fair.entries_prefix {lock : QueueLock Client} (fair : Fair actions lock) :
    QueueLock.entries actions <+: QueueLock.requests actions := by
  rw [fair.entries, fair.requests]
  apply (List.prefix_append_right_inj _).mpr
  unfold inside
  split
  · exact List.take_prefix 1 lock.queue
  · exact List.nil_prefix

end QueueLock
