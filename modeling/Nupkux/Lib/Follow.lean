import Mathlib.Logic.Basic

/-!
# Following a pointer to the end

A pointer function with 0 as its end is followed from an object to the last one. A rank that every
step lowers makes each object have an end.
-/

/-- Following `next` from an object so many steps ends at `last`. -/
inductive Follow (next : Nat → Nat) : Nat → Nat → Nat → Prop
  /-- The end. -/
  | last {node : Nat} : next node = 0 → Follow next 0 node node
  /-- One step. -/
  | step {steps node last : Nat} : next node ≠ 0 → Follow next steps (next node) last →
      Follow next (steps + 1) node last

namespace Follow

variable {next prev : Nat → Nat} {steps steps' node node' last last' : Nat}

/-- There is nothing after the end. -/
theorem ends (follow : Follow next steps node last) : next last = 0 := by
  induction follow with
  | last null => exact null
  | step _ _ ih => exact ih

/-- There is one end. -/
theorem unique (follow : Follow next steps node last) (follow' : Follow next steps' node last') :
    last = last' := by
  induction follow generalizing steps' with
  | last null =>
    cases follow' with
    | last _ => rfl
    | step some_next _ => exact absurd null some_next
  | step some_next _ ih =>
    cases follow' with
    | last null => exact absurd null some_next
    | step _ follow' => exact ih follow'

/-- Where there is nothing after an object, it is the end. -/
theorem eq_of_null (follow : Follow next steps node last) (null : next node = 0) : last = node :=
  follow.unique (.last null)

/-- Following back from the end reaches the objects on the way, and from the first of them what
comes before. -/
theorem through (forth : Follow next steps node last)
    (inverse : ∀ other, next other ≠ 0 → prev (next other) = other) (nonnull : node ≠ 0)
    (follow : Follow prev steps' last last') : ∃ steps'', Follow prev steps'' node last' := by
  induction forth generalizing steps' with
  | last _ => exact ⟨steps', follow⟩
  | @step steps node last some_next _ ih =>
    obtain ⟨steps'', onward⟩ := ih some_next follow
    have here : prev (next node) = node := inverse node some_next
    cases onward with
    | last null => exact absurd (here.symm.trans null) nonnull
    | step _ onward => exact ⟨_, here ▸ onward⟩

/-- If every step lowers a rank, each object has an end, in no more steps than its rank. -/
theorem exists_of_rank (rank : Nat → Nat)
    (lowers : ∀ node, next node ≠ 0 → rank (next node) < rank node) (node : Nat) :
    ∃ steps last, steps ≤ rank node ∧ Follow next steps node last := by
  by_cases null : next node = 0
  · exact ⟨0, node, Nat.zero_le _, .last null⟩
  · have lower := lowers node null
    obtain ⟨steps, last, few, follow⟩ := exists_of_rank rank lowers (next node)
    exact ⟨steps + 1, last, Nat.le_trans (Nat.succ_le_succ few) lower, .step null follow⟩
termination_by rank node

end Follow
