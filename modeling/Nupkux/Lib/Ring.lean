import Mathlib.Data.List.Basic
import Mathlib.Logic.Function.Basic

/-!
# Ring buffers

A ring of `size` slots holds the values from slot `start` on, up to the slot before `stop`;
one slot stays free, so that equal indices mean an empty ring. The rules say what taking and
storing do to the contents at any wrap position; storing into a full ring drops the oldest
value, as a queue of capacity `size - 1` does.
-/

namespace Ring

variable {α : Type*}

/-- The slot after one. -/
def next (size i : Nat) : Nat := if i + 1 = size then 0 else i + 1

/-- How many slots are used. -/
def used (size start stop : Nat) : Nat :=
  if start ≤ stop then stop - start else stop + size - start

/-- The slot that is a number of slots after another one. -/
def slot (size start k : Nat) : Nat :=
  if start + k < size then start + k else start + k - size

/-- The values a ring holds, the oldest first. -/
def contents (size : Nat) (cell : Nat → α) (start stop : Nat) : List α :=
  (List.range (used size start stop)).map fun k => cell (slot size start k)

/-- Storing into a queue of a capacity: a full one drops its oldest value first. -/
def pushDropping (capacity : Nat) (queue : List α) (value : α) : List α :=
  (if queue.length < capacity then queue else queue.tail) ++ [value]

variable {size start stop : Nat} {cell : Nat → α} {value : α}

/-- The next slot is one of the ring. -/
theorem next_lt (inside : start < size) : next size start < size := by
  unfold next
  split <;> omega

/-- The ring holds as many values as slots are used. -/
@[simp] theorem length_contents :
    (contents size cell start stop).length = used size start stop := by
  simp [contents]

/-- A ring is empty when its indices are equal. -/
theorem contents_eq_nil (low : start < size) :
    contents size cell start stop = [] ↔ start = stop := by
  rw [← List.length_eq_zero_iff, length_contents]
  unfold used
  constructor
  · intro none
    split at none <;> omega
  · intro same
    rw [if_pos (Nat.le_of_eq same)]
    omega

/-- The oldest value is the one at `start`. -/
theorem contents_eq_cons (low : start < size) (high : stop < size) (some : start ≠ stop) :
    contents size cell start stop = cell start :: contents size cell (next size start) stop := by
  have count : used size start stop = used size (next size start) stop + 1 := by
    unfold used next
    split <;> split <;> split <;> omega
  unfold contents
  rw [count, List.range_succ_eq_map, List.map_cons, List.map_map]
  have first : slot size start 0 = start := by
    unfold slot
    rw [if_pos (by omega)]
    rfl
  rw [first]
  congr 1
  apply List.map_congr_left
  intro k range
  have below := List.mem_range.mp range
  have same : slot size start (k + 1) = slot size (next size start) k := by
    unfold used at below
    unfold slot next at *
    split at below <;> split at below <;> split <;> split <;> omega
  rw [Function.comp_apply, Nat.succ_eq_add_one, same]

/-- Storing a value behind the others of a ring that is not full. -/
theorem contents_store (low : start < size) (high : stop < size) (room : next size stop ≠ start) :
    contents size (Function.update cell stop value) start (next size stop) =
      contents size cell start stop ++ [value] := by
  have count : used size start (next size stop) = used size start stop + 1 := by
    unfold used
    unfold next at *
    split at room <;> split <;> split <;> split <;> omega
  unfold contents
  rw [count, List.range_succ, List.map_append, List.map_singleton]
  have last : slot size start (used size start stop) = stop := by
    unfold slot used
    split <;> split <;> omega
  rw [last, Function.update_self]
  congr 1
  apply List.map_congr_left
  intro k range
  have below := List.mem_range.mp range
  apply Function.update_of_ne
  unfold used at below
  unfold slot
  split at below <;> split <;> omega

/-- A ring is full when the slot after the last one is the first one. -/
theorem used_of_full (high : stop < size) (full : next size stop = start) :
    used size start stop + 1 = size := by
  unfold next at full
  unfold used
  split at full <;> split <;> omega

/-- A ring that is not full has room for one more value. -/
theorem used_of_room (low : start < size) (high : stop < size) (room : next size stop ≠ start) :
    used size start stop + 1 < size := by
  unfold next at room
  unfold used
  split at room <;> split <;> omega

/-- Storing a value and moving `start` when the ring was full drops the oldest value. -/
theorem contents_push (several : 1 < size) (low : start < size) (high : stop < size) :
    contents size (Function.update cell stop value)
        (if next size stop = start then next size start else start) (next size stop) =
      pushDropping (size - 1) (contents size cell start stop) value := by
  unfold pushDropping
  rw [length_contents]
  by_cases full : next size stop = start
  · have count := used_of_full high full
    have apart : start ≠ stop := by
      rintro rfl
      unfold next at full
      split at full <;> omega
    have later : next size stop ≠ next size start := by
      rw [full]
      unfold next
      split <;> omega
    rw [if_pos full, if_neg (by omega), contents_eq_cons low high apart, List.tail_cons]
    exact contents_store (next_lt low) high later
  · have count := used_of_room low high full
    rw [if_neg full, if_pos (by omega)]
    exact contents_store low high full

end Ring
