import Nupkux.Kernel.Bystanders

/-!
# Who gets a signal

`sys_kill` is to set the bit of a signal in exactly the tasks that its `pid` selects and that
`send_signal` admits, and to answer by what it found. The loops over the table are reduced to
one statement about the slots below a bound; the single task needs the bound that the source
checks one too high.
-/

namespace Nupkux

/-- The integers that an `int` holds. -/
def IsInt (n : Int) : Prop := -2147483648 ≤ n ∧ n < 2147483648

/-- The bit of a signal in `signals`. -/
def signalBit (sign : Int) : BitVec 32 := 1#32 <<< (sign - 1).toNat

namespace Kernel

/-- The tasks in use that a `pid` selects: one task, the group of the caller, all of them, or the
group `-pid`. -/
def Selected (k : Kernel) (pid : Int) (i : Nat) : Prop :=
  i < nrTasks ∧ (k.tasks i).InUse ∧
    (0 < pid ∧ (i : Int) = pid ∨ pid = 0 ∧ (k.tasks i).pgrp = k.current.pgrp ∨ pid = -1 ∨
      pid < -1 ∧ (k.tasks i).pgrp = -pid)

/-- The selected tasks that the permission rule admits. -/
def Receives (k : Kernel) (pid sign : Int) (i : Nat) : Prop :=
  k.Selected pid i ∧ maySignal k.current (k.tasks i) sign

instance (k : Kernel) (pid : Int) : DecidablePred (k.Selected pid) :=
  fun _ => inferInstanceAs (Decidable (_ ∧ _))

instance (k : Kernel) (pid sign : Int) : DecidablePred (k.Receives pid sign) :=
  fun _ => inferInstanceAs (Decidable (_ ∧ _))

/-- The bit of a signal is set in some slots, and nothing else changes. -/
def deliver (k : Kernel) (sign : Int) (receives : Nat → Prop) [DecidablePred receives] :
    Kernel :=
  { k with tasks := fun i =>
      if receives i then { k.tasks i with signals := (k.tasks i).signals ||| signalBit sign }
      else k.tasks i }

/-- The slots of `tasks[]` that `sys_kill` looks at: its loops run over the table, and a single
`pid` is an index. -/
def killTouches (pid sign : Int) : List Nat :=
  if sign < 1 ∨ 32 < sign then []
  else if pid = 0 ∨ pid = -1 ∨ pid < -1 then List.range nrTasks
  else if nrTasks < pid then []
  else [pid.toNat]

/-- What a `sys_kill` should do. -/
structure KillsExactly (k : Kernel) (pid sign : Int) : Prop where
  /-- The bit is set where it should be, and nothing else changes. -/
  delivered : (k.sysKill pid sign).1 = k.deliver sign (k.Receives pid sign)
  /-- No task is selected. -/
  nobody : (∀ i, ¬k.Selected pid i) → (k.sysKill pid sign).2 = -ESRCH
  /-- Tasks are selected and none admits the signal. -/
  refused : (∃ i, k.Selected pid i) → (∀ i, ¬k.Receives pid sign i) →
    (k.sysKill pid sign).2 = -EPERM
  /-- A task admits the signal. -/
  sent : (∃ i, k.Receives pid sign i) → (k.sysKill pid sign).2 = 0
  /-- The accesses stay in the table. -/
  inside : ∀ i ∈ killTouches pid sign, i < nrTasks

variable {k k' : Kernel} {pid sign : Int} {i : Nat}

/-- The permission rule looks at the user ids of the sender. -/
theorem maySignal_congr {sender sender' : Task} (uid : sender'.uid = sender.uid)
    (euid : sender'.euid = sender.euid) (receiver : Task) (sign : Int) :
    maySignal sender' receiver sign = maySignal sender receiver sign := by
  simp only [maySignal, Task.isRoot, uid, euid]

/-- A delivery keeps the user ids of the sender. -/
theorem maySignal_deliver (k : Kernel) (sign : Int) (receives : Nat → Prop)
    [DecidablePred receives] (receiver : Task) :
    maySignal (k.deliver sign receives).current receiver sign =
      maySignal k.current receiver sign := by
  apply maySignal_congr
  all_goals
    simp only [Kernel.current, deliver]
    split <;> rfl

/-- Deliveries to the same slots are the same. -/
theorem deliver_congr {receives receives' : Nat → Prop} [DecidablePred receives]
    [DecidablePred receives'] (same : ∀ i, receives i ↔ receives' i) :
    k.deliver sign receives = k.deliver sign receives' := by
  unfold deliver
  congr 1
  funext i
  by_cases member : receives i
  · rw [if_pos member, if_pos ((same i).mp member)]
  · rw [if_neg member, if_neg fun other => member ((same i).mpr other)]

/-- One more slot receives the signal. -/
theorem setTask_deliver (k : Kernel) (sign : Int) {receives : Nat → Prop}
    (receives' : Nat → Prop) [DecidablePred receives] [DecidablePred receives']
    (fresh : ¬receives i)
    (next : ∀ j, receives' j ↔ receives j ∨ j = i) :
    ((k.deliver sign receives).setTask i fun t =>
      { t with signals := t.signals ||| (1#32 <<< (sign - 1).toNat) }) =
        k.deliver sign receives' := by
  unfold setTask deliver
  congr 1
  funext j
  rw [Function.update_apply]
  dsimp only
  by_cases same : j = i
  · subst same
    rw [if_pos rfl, if_neg fresh, if_pos ((next j).mpr (.inr rfl))]
    rfl
  · rw [if_neg same]
    by_cases member : receives j
    · rw [if_pos member, if_pos ((next j).mpr (.inl member))]
    · rw [if_neg member, if_neg fun other => ((next j).mp other).elim member same]

/-- What one turn of a loop does at a slot that no turn has reached: the flags are the ones before
or set by what the slot is. -/
theorem signalOne_deliver {select : Task → Bool} {receives : Nat → Prop}
    (receives' : Nat → Prop) [DecidablePred receives] [DecidablePred receives']
    {perm found : Bool} (fresh : ¬receives i)
    (next : ∀ j, receives' j ↔ receives j ∨ j = i ∧ (k.tasks i).InUse ∧ select (k.tasks i) ∧
      maySignal k.current (k.tasks i) sign) :
    signalOne select sign (k.deliver sign receives, perm, found) i =
      (k.deliver sign receives',
        perm || decide ((k.tasks i).InUse ∧ select (k.tasks i) ∧
          maySignal k.current (k.tasks i) sign),
        found || decide ((k.tasks i).InUse ∧ select (k.tasks i))) := by
  have slot : (k.deliver sign receives).tasks i = k.tasks i := if_neg fresh
  have unchanged (other : ¬((k.tasks i).InUse ∧ select (k.tasks i) ∧
      maySignal k.current (k.tasks i) sign)) :
      k.deliver sign receives = k.deliver sign receives' := by
    apply deliver_congr
    intro j
    rw [next j]
    exact (or_iff_left fun here => other here.2).symm
  unfold signalOne
  dsimp only
  rw [slot]
  by_cases picked : (k.tasks i).InUse ∧ select (k.tasks i)
  · rw [if_pos picked]
    unfold sendSignal
    rw [slot, maySignal_deliver]
    by_cases admitted : maySignal k.current (k.tasks i) sign
    · have received : (k.tasks i).InUse ∧ select (k.tasks i) ∧
          maySignal k.current (k.tasks i) sign := ⟨picked.1, picked.2, admitted⟩
      have grown : ∀ j, receives' j ↔ receives j ∨ j = i := by
        intro j
        rw [next j, and_iff_left received]
      rw [if_pos admitted, setTask_deliver k sign receives' fresh grown]
      simp [picked, admitted, EPERM]
    · have refused : ¬((k.tasks i).InUse ∧ select (k.tasks i) ∧
          maySignal k.current (k.tasks i) sign) := fun all => admitted all.2.2
      rw [if_neg admitted, unchanged refused]
      simp [picked, admitted]
  · have passed : ¬((k.tasks i).InUse ∧ select (k.tasks i) ∧
        maySignal k.current (k.tasks i) sign) := fun all => picked ⟨all.1, all.2.1⟩
    rw [if_neg picked, unchanged passed]
    simp [picked, passed]

/-- After its turns below a bound a loop of `sys_kill` has sent the signal to exactly the selected
tasks below it that admit it, and its flags say whether there are any. -/
theorem signalEach_below (select : Task → Bool) (sign : Int) (k : Kernel) (n : Nat) :
    (List.range n).foldl (signalOne select sign) (k, false, false) =
      (k.deliver sign fun i => i < n ∧ (k.tasks i).InUse ∧ select (k.tasks i) ∧
          maySignal k.current (k.tasks i) sign,
        decide (∃ i < n, (k.tasks i).InUse ∧ select (k.tasks i) ∧
          maySignal k.current (k.tasks i) sign),
        decide (∃ i < n, (k.tasks i).InUse ∧ select (k.tasks i))) := by
  induction n with
  | zero =>
    have nothing : (k.deliver sign fun i => i < 0 ∧ (k.tasks i).InUse ∧ select (k.tasks i) ∧
        maySignal k.current (k.tasks i) sign) = k := by
      unfold deliver
      simp only [Nat.not_lt_zero, false_and, if_false]
    rw [nothing]
    simp
  | succ n ih =>
    rw [List.range_succ, List.foldl_append, ih, List.foldl_cons, List.foldl_nil,
      signalOne_deliver fun i => i < n + 1 ∧ (k.tasks i).InUse ∧ select (k.tasks i) ∧
        maySignal k.current (k.tasks i) sign]
    · have split (holds : Nat → Prop) : (∃ i < n + 1, holds i) ↔ (∃ i < n, holds i) ∨ holds n := by
        simp only [Nat.lt_succ_iff_lt_or_eq, or_and_right, exists_or, exists_eq_left]
      simp only [split, Bool.decide_or]
    · exact fun below => Nat.lt_irrefl n below.1
    · intro j
      rw [Nat.lt_succ_iff_lt_or_eq, or_and_right]
      refine or_congr Iff.rfl (and_congr_right ?_)
      rintro rfl
      rfl

/-- A `sys_kill` that runs a loop over the selected tasks does what it should. -/
theorem killsExactly_of_loop (select : Task → Bool)
    (loop : k.sysKill pid sign = killAnswer (k.signalEach select sign))
    (selected : ∀ i, k.Selected pid i ↔
      i < nrTasks ∧ (k.tasks i).InUse ∧ select (k.tasks i))
    (inside : ∀ i ∈ killTouches pid sign, i < nrTasks) : k.KillsExactly pid sign := by
  rw [signalEach, signalEach_below] at loop
  have receives (i : Nat) : k.Receives pid sign i ↔ i < nrTasks ∧ (k.tasks i).InUse ∧
      select (k.tasks i) ∧ maySignal k.current (k.tasks i) sign := by
    rw [Receives, selected, and_assoc, and_assoc]
  have answer := congrArg (·.2) loop
  simp only [killAnswer] at answer
  refine ⟨?_, fun nobody => ?_, fun some_task refused => ?_, fun sent => ?_, inside⟩
  · rw [loop, killAnswer_fst]
    exact deliver_congr fun i => (receives i).symm
  · have none : ¬∃ i < nrTasks, (k.tasks i).InUse ∧ select (k.tasks i) := by
      rintro ⟨i, here⟩
      exact nobody i ((selected i).mpr here)
    rw [answer, decide_eq_false none]
    rfl
  · obtain ⟨i, here⟩ := some_task
    have found : ∃ i < nrTasks, (k.tasks i).InUse ∧ select (k.tasks i) :=
      ⟨i, (selected i).mp here⟩
    have none : ¬∃ i < nrTasks, (k.tasks i).InUse ∧ select (k.tasks i) ∧
        maySignal k.current (k.tasks i) sign := by
      rintro ⟨i, here⟩
      exact refused i ((receives i).mpr here)
    rw [answer, decide_eq_true found, decide_eq_false none]
    rfl
  · obtain ⟨i, here⟩ := sent
    have admitted : ∃ i < nrTasks, (k.tasks i).InUse ∧ select (k.tasks i) ∧
        maySignal k.current (k.tasks i) sign := ⟨i, (receives i).mp here⟩
    have found : ∃ i < nrTasks, (k.tasks i).InUse ∧ select (k.tasks i) :=
      ⟨i, (selected i).mp here.1⟩
    rw [answer, decide_eq_true found, decide_eq_true admitted]
    rfl

/-- A single task is signalled as it should be if its number is an index of the table. -/
theorem killsExactly_of_single (valid : ¬(sign < 1 ∨ 32 < sign)) (positive : 0 < pid)
    (below : pid < nrTasks) : k.KillsExactly pid sign := by
  have index : (pid.toNat : Int) = pid := Int.toNat_of_nonneg (by omega)
  have inside : pid.toNat < nrTasks := by omega
  have selected (i : Nat) : k.Selected pid i ↔ i = pid.toNat ∧ (k.tasks pid.toNat).InUse := by
    constructor
    · rintro ⟨_, inUse, here | here | here | here⟩
      · have same : i = pid.toNat := by omega
        rw [← same]
        exact ⟨rfl, inUse⟩
      all_goals omega
    · rintro ⟨rfl, inUse⟩
      exact ⟨inside, inUse, .inl ⟨positive, index⟩⟩
  have touches : killTouches pid sign = [pid.toNat] := by
    rw [killTouches, if_neg valid, if_neg (by omega), if_neg (by omega)]
  have inside' : ∀ i ∈ killTouches pid sign, i < nrTasks := by
    rw [touches]
    simpa using inside
  have single : k.sysKill pid sign = if (k.tasks pid.toNat).InUse
      then k.sendSignal pid.toNat sign else (k, -ESRCH) := by
    rw [sysKill, if_neg valid, if_neg (by omega), if_neg (by omega), if_neg (by omega)]
    by_cases inUse : (k.tasks pid.toNat).InUse
    · rw [if_pos inUse, if_neg (not_or.mpr ⟨by omega, not_not.mpr inUse⟩)]
    · rw [if_neg inUse, if_pos (.inr inUse)]
  have receives (i : Nat) : k.Receives pid sign i ↔ i = pid.toNat ∧
      (k.tasks pid.toNat).InUse ∧ maySignal k.current (k.tasks pid.toNat) sign := by
    rw [Receives, selected, and_assoc]
    refine and_congr_right fun same => ?_
    rw [same]
  have nobody (none : ∀ i, ¬k.Receives pid sign i) :
      k.deliver sign (k.Receives pid sign) = k := by
    unfold deliver
    simp only [none, if_false]
  by_cases inUse : (k.tasks pid.toNat).InUse
  · rw [if_pos inUse] at single
    have some_task : k.Selected pid pid.toNat := (selected _).mpr ⟨rfl, inUse⟩
    by_cases admitted : maySignal k.current (k.tasks pid.toNat) sign
    · have received : k.Receives pid sign pid.toNat := ⟨some_task, admitted⟩
      rw [sendSignal, if_pos admitted] at single
      refine ⟨?_, fun none => absurd some_task (none _), fun _ none => absurd received (none _),
        fun _ => congrArg (·.2) single, inside'⟩
      rw [single]
      have start : k.deliver sign (fun _ => False) = k := by
        unfold deliver
        simp only [if_false]
      have nextReceives (j : Nat) : k.Receives pid sign j ↔ False ∨ j = pid.toNat := by
        rw [receives, false_or]
        exact and_iff_left ⟨inUse, admitted⟩
      have sent := setTask_deliver k sign (k.Receives pid sign) not_false nextReceives
      rwa [start] at sent
    · have refused : ∀ i, ¬k.Receives pid sign i := fun i here =>
        admitted ((receives i).mp here).2.2
      rw [sendSignal, if_neg admitted] at single
      refine ⟨?_, fun none => absurd some_task (none _), fun _ _ => congrArg (·.2) single,
        fun ⟨i, here⟩ => absurd here (refused i), inside'⟩
      rw [single, nobody refused]
  · rw [if_neg inUse] at single
    have none : ∀ i, ¬k.Selected pid i := fun i here => inUse ((selected i).mp here).2
    refine ⟨?_, fun _ => congrArg (·.2) single, fun ⟨i, here⟩ => absurd here (none i),
      fun ⟨i, here⟩ => absurd here.1 (none i), inside'⟩
    rw [single, nobody fun i here => none i here.1]

/-- Accesses of the loops stay in the table. -/
theorem killTouches_loop (notSingle : pid ≤ 0) : ∀ i ∈ killTouches pid sign, i < nrTasks := by
  intro i member
  unfold killTouches at member
  split at member
  · cases member
  · rw [if_pos (by omega)] at member
    exact List.mem_range.mp member

/-- The group of the caller is signalled as it should be. -/
theorem killsExactly_of_zero (valid : ¬(sign < 1 ∨ 32 < sign)) : k.KillsExactly 0 sign := by
  refine killsExactly_of_loop (fun t => t.pgrp == k.current.pgrp) ?_ (fun i => ?_)
    (killTouches_loop le_rfl)
  · rw [sysKill, if_neg valid, if_pos rfl]
  · unfold Selected
    simp

/-- The loop of `sys_kill` for every `pid` below -1 selects by the negated `pid` as an `int`. -/
theorem sysKill_group (valid : ¬(sign < 1 ∨ 32 < sign)) (group : pid < -1) :
    k.sysKill pid sign = killAnswer (k.signalEach (·.pgrp == toInt (-pid)) sign) := by
  rw [sysKill, if_neg valid, if_neg (by omega), if_neg (by omega), if_pos group]

/-- A loop of `sys_kill` depends on the table and the sender, and changes the table only. -/
theorem signalEach_agree (select : Task → Bool) (sign : Int) (sender : k'.current = k.current)
    (same : ∀ i < nrTasks, k'.tasks i = k.tasks i) :
    (killAnswer (k'.signalEach select sign)).2 = (killAnswer (k.signalEach select sign)).2 ∧
      (∀ i < nrTasks, (killAnswer (k'.signalEach select sign)).1.tasks i =
        (killAnswer (k.signalEach select sign)).1.tasks i) ∧
      ∀ i, ¬i < nrTasks → (killAnswer (k.signalEach select sign)).1.tasks i = k.tasks i := by
  have admitted : (∃ i < nrTasks, (k'.tasks i).InUse ∧ select (k'.tasks i) ∧
      maySignal k'.current (k'.tasks i) sign) ↔ ∃ i < nrTasks, (k.tasks i).InUse ∧
      select (k.tasks i) ∧ maySignal k.current (k.tasks i) sign :=
    exists_congr fun i => and_congr_right fun inside => by rw [same i inside, sender]
  have found : (∃ i < nrTasks, (k'.tasks i).InUse ∧ select (k'.tasks i)) ↔
      ∃ i < nrTasks, (k.tasks i).InUse ∧ select (k.tasks i) :=
    exists_congr fun i => and_congr_right fun inside => by rw [same i inside]
  rw [signalEach, signalEach, signalEach_below, signalEach_below]
  refine ⟨?_, fun i inside => ?_, fun i outside => ?_⟩
  · unfold killAnswer
    dsimp only
    rw [decide_eq_decide.mpr admitted, decide_eq_decide.mpr found]
  · unfold killAnswer deliver
    simp only [same i inside, sender]
  · exact if_neg fun here => outside here.1

/-- The slots that `sys_kill` looks at are all that it depends on, besides the sender, and all that
it changes. -/
theorem sysKill_touches (sender : k'.current = k.current)
    (same : ∀ i ∈ killTouches pid sign, k'.tasks i = k.tasks i) :
    (k'.sysKill pid sign).2 = (k.sysKill pid sign).2 ∧
      (∀ i ∈ killTouches pid sign,
        (k'.sysKill pid sign).1.tasks i = (k.sysKill pid sign).1.tasks i) ∧
      ∀ i ∉ killTouches pid sign, (k.sysKill pid sign).1.tasks i = k.tasks i := by
  by_cases valid : sign < 1 ∨ 32 < sign
  · rw [sysKill, sysKill, if_pos valid, if_pos valid]
    exact ⟨rfl, same, fun _ _ => rfl⟩
  by_cases loop : pid = 0 ∨ pid = -1 ∨ pid < -1
  · have touches (i : Nat) : i ∈ killTouches pid sign ↔ i < nrTasks := by
      rw [killTouches, if_neg valid, if_pos loop, List.mem_range]
    simp only [touches] at same ⊢
    rw [sysKill, sysKill, if_neg valid, if_neg valid]
    by_cases zero : pid = 0
    · rw [if_pos zero, if_pos zero, sender]
      exact signalEach_agree _ sign sender same
    · rw [if_neg zero, if_neg zero]
      by_cases all : pid = -1
      · rw [if_pos all, if_pos all]
        exact signalEach_agree _ sign sender same
      · rw [if_neg all, if_neg all, if_pos (by omega), if_pos (by omega)]
        exact signalEach_agree _ sign sender same
  · have reduce (k : Kernel) : k.sysKill pid sign =
        if nrTasks < pid ∨ ¬(k.tasks pid.toNat).InUse then (k, -ESRCH)
        else k.sendSignal pid.toNat sign := by
      rw [sysKill, if_neg valid, if_neg (by omega), if_neg (by omega), if_neg (by omega)]
    rw [reduce k', reduce k]
    by_cases above : nrTasks < pid
    · rw [if_pos (.inl above), if_pos (.inl above)]
      exact ⟨rfl, same, fun _ _ => rfl⟩
    · have touches : killTouches pid sign = [pid.toNat] := by
        rw [killTouches, if_neg valid, if_neg loop, if_neg above]
      rw [touches] at same ⊢
      have slot : k'.tasks pid.toNat = k.tasks pid.toNat := same _ (List.mem_singleton_self _)
      rw [slot]
      split
      · exact ⟨rfl, same, fun _ _ => rfl⟩
      · refine ⟨?_, fun i member => ?_, fun i other => ?_⟩
        · unfold sendSignal
          rw [slot, sender]
          split <;> rfl
        · rw [List.mem_singleton.mp member, sendSignal_tasks, sendSignal_tasks, slot, sender]
        · rw [sendSignal_tasks, if_neg fun here => other (List.mem_singleton.mpr here.2)]

/-- `sys_kill` sends a valid signal to exactly the tasks that `pid` selects and that admit it, with
the right answer and within the table, if and only if `pid` is not `NR_TASKS`, and not the least
`int` while a task in use has that number as its group. -/
theorem killsExactly_iff (int : IsInt pid) (groups : ∀ i < nrTasks, IsInt (k.tasks i).pgrp)
    (low : 1 ≤ sign) (high : sign ≤ 32) :
    k.KillsExactly pid sign ↔ pid ≠ nrTasks ∧
      (pid = -2147483648 → ∀ i < nrTasks, (k.tasks i).InUse →
        (k.tasks i).pgrp ≠ -2147483648) := by
  have valid : ¬(sign < 1 ∨ 32 < sign) := by omega
  constructor
  · intro exact_
    refine ⟨?_, ?_⟩
    · rintro rfl
      -- tasks[NR_TASKS] is looked at whatever is there
      have touched : nrTasks ∈ killTouches nrTasks sign := by
        rw [killTouches, if_neg valid, if_neg (by decide), if_neg (by decide)]
        exact List.mem_singleton_self _
      exact absurd (exact_.inside nrTasks touched) (Nat.lt_irrefl _)
    · rintro rfl i inside inUse group
      have none : ∀ i, ¬k.Selected (-2147483648) i := by
        rintro j ⟨inside', _, here | here | here | here⟩
        all_goals
          have range := groups j inside'
          unfold IsInt at range
          omega
      have answer := exact_.nobody none
      rw [sysKill_group valid (by decide), signalEach, signalEach_below, killAnswer] at answer
      have found : ∃ i < nrTasks, (k.tasks i).InUse ∧
          ((k.tasks i).pgrp == toInt (- -2147483648)) = true := by
        refine ⟨i, inside, inUse, ?_⟩
        rw [group]
        decide
      rw [decide_eq_true found] at answer
      simp only [Bool.not_true, Bool.false_eq_true, if_false] at answer
      split at answer <;> exact absurd answer (by decide)
  · rintro ⟨bound, representable⟩
    by_cases zero : pid = 0
    · subst zero
      exact killsExactly_of_zero valid
    · by_cases all : pid = -1
      · subst all
        refine killsExactly_of_loop (fun _ => true) ?_ (fun i => ?_)
          (killTouches_loop (by decide))
        · rw [sysKill, if_neg valid, if_neg (by decide), if_pos rfl]
        · unfold Selected
          simp
      · by_cases group : pid < -1
        · refine killsExactly_of_loop _ (sysKill_group valid group) (fun i => ?_)
            (killTouches_loop (by omega))
          unfold Selected
          refine and_congr_right fun inside => and_congr_right fun inUse => ?_
          have range := groups i inside
          unfold IsInt at range int
          rw [beq_iff_eq]
          by_cases least : pid = -2147483648
          · have other := representable least i inside inUse
            have wraps : toInt (-pid) = -2147483648 := by
              rw [least]
              decide
            rw [wraps]
            omega
          · have same : toInt (-pid) = -pid := by
              unfold toInt
              omega
            rw [same]
            omega
        · by_cases below : pid < nrTasks
          · exact killsExactly_of_single valid (by omega) below
          · have above : nrTasks < pid := by omega
            have none : ∀ i, ¬k.Selected pid i := by
              rintro i ⟨inside, _, here | here | here | here⟩
              all_goals omega
            have answer : k.sysKill pid sign = (k, -ESRCH) := by
              rw [sysKill, if_neg valid, if_neg zero, if_neg all, if_neg group, if_pos (.inl above)]
            have touches : killTouches pid sign = [] := by
              rw [killTouches, if_neg valid, if_neg (by omega), if_pos above]
            refine ⟨?_, fun _ => congrArg (·.2) answer, fun ⟨i, here⟩ => absurd here (none i),
              fun ⟨i, here⟩ => absurd here.1 (none i), ?_⟩
            · rw [answer]
              unfold deliver
              have nobody : ∀ i, ¬k.Receives pid sign i := fun i here => none i here.1
              simp only [nobody, if_false]
            · rw [touches]
              exact fun i member => absurd member List.not_mem_nil

/-- After boot, with a word other than `NO_TASK` where the memory after the table has a `pid`. -/
def tableEnd : Kernel := setupTasking Blocks.above { tasks := fun _ => { pid := 7 } }

/-- Task 0 sends a signal to its group. -/
theorem killsExactly_iff_group : tableEnd.KillsExactly 0 9 :=
  (killsExactly_iff (by unfold IsInt; decide) (by unfold IsInt; decide) (by decide)
    (by decide)).mpr ⟨by decide, by decide⟩

/-- The first number past the table passes the bound: its slot is looked at, the memory there is
taken for a task and changed, and the answer is not `-ESRCH`. -/
theorem killsExactly_not : ¬tableEnd.KillsExactly 64 9 ∧ (tableEnd.sysKill 64 9).2 = 0 ∧
    ((tableEnd.sysKill 64 9).1.tasks 64).signals ≠ (tableEnd.tasks 64).signals := by
  refine ⟨fun exact_ => ?_, by decide, by decide⟩
  exact absurd (exact_.inside 64 (by decide)) (by decide)

end Kernel

end Nupkux
