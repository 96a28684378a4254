import Mathlib.Algebra.BigOperators.Group.Finset.Sigma
import Mathlib.Algebra.BigOperators.Ring.Finset

/-!
# Counting references

A finite set of holders each of which refers to an object, 0 for none. The rules say how the
number of references to one object changes when a holder is changed, added or removed, and
when one row of a table is copied over another.
-/

namespace References

variable {Holder : Type*}

/-- How many holders refer to an object. -/
def held (holders : Finset Holder) (target : Holder → Nat) (object : Nat) : Nat :=
  (holders.filter fun holder => target holder = object).card

variable {holders : Finset Holder} {target : Holder → Nat} {object : Nat}

/-- The number of references as a sum. -/
theorem held_eq_sum (holders : Finset Holder) (target : Holder → Nat) (object : Nat) :
    held holders target object = ∑ holder ∈ holders, if target holder = object then 1 else 0 :=
  Finset.card_filter _ _

/-- Only the targets of the holders count. -/
theorem held_congr {target' : Holder → Nat}
    (same : ∀ holder ∈ holders, (target' holder = object ↔ target holder = object)) :
    held holders target' object = held holders target object :=
  congrArg Finset.card (Finset.filter_congr same)

/-- An object is referred to exactly when some holder refers to it. -/
theorem held_pos : 0 < held holders target object ↔
    ∃ holder ∈ holders, target holder = object := by
  simp only [held, Finset.card_pos, Finset.filter_nonempty_iff]

variable [DecidableEq Holder]

/-- One holder more. -/
theorem held_insert {holder : Holder} (fresh : holder ∉ holders) :
    held (insert holder holders) target object =
      held holders target object + if target holder = object then 1 else 0 := by
  rw [held_eq_sum, held_eq_sum, Finset.sum_insert fresh, add_comm]

/-- One holder less. -/
theorem held_erase {holder : Holder} (target : Holder → Nat) (object : Nat)
    (member : holder ∈ holders) :
    held (holders.erase holder) target object + (if target holder = object then 1 else 0) =
      held holders target object := by
  rw [held_eq_sum, held_eq_sum, Finset.sum_erase_add _ _ member]

/-- A holder that changes its target gives up one reference and takes another. -/
theorem held_update {holder : Holder} (member : holder ∈ holders) (next : Nat) :
    held holders (Function.update target holder next) object +
        (if target holder = object then 1 else 0) =
      held holders target object + if next = object then 1 else 0 := by
  have others : held (holders.erase holder) (Function.update target holder next) object =
      held (holders.erase holder) target object :=
    held_congr fun other member' => by
      rw [Function.update_of_ne (Finset.ne_of_mem_erase member')]
  have after := held_erase (Function.update target holder next) object member
  have before := held_erase target object member
  rw [Function.update_self, others] at after
  omega

/-- The references of a table, row by row. -/
theorem held_product {Row Column : Type*} [DecidableEq Row] [DecidableEq Column]
    (rows : Finset Row) (columns : Finset Column) (table : Row × Column → Nat) :
    held (rows ×ˢ columns) table object =
      ∑ row ∈ rows, held columns (fun column => table (row, column)) object := by
  rw [held_eq_sum, Finset.sum_product]
  exact Finset.sum_congr rfl fun row _ => (held_eq_sum _ _ _).symm

/-- Copying a row over one without references to the object adds the references of the copied
row. -/
theorem held_copyRow {Row Column : Type*} [DecidableEq Row] [DecidableEq Column]
    {rows : Finset Row} {columns : Finset Column} {table table' : Row × Column → Nat}
    {source copy : Row} (member : copy ∈ rows)
    (empty : ∀ column ∈ columns, table (copy, column) ≠ object)
    (copied : ∀ column ∈ columns, table' (copy, column) = table (source, column))
    (others : ∀ row ∈ rows, row ≠ copy → ∀ column ∈ columns,
      table' (row, column) = table (row, column)) :
    held (rows ×ˢ columns) table' object = held (rows ×ˢ columns) table object +
      held columns (fun column => table (source, column)) object := by
  have before : held columns (fun column => table (copy, column)) object = 0 := by
    rw [held, Finset.card_eq_zero, Finset.filter_eq_empty_iff]
    exact fun column inside => empty column inside
  have after : held columns (fun column => table' (copy, column)) object =
      held columns (fun column => table (source, column)) object :=
    held_congr fun column inside => by rw [copied column inside]
  have rest : ∑ row ∈ rows.erase copy, held columns (fun column => table' (row, column)) object =
      ∑ row ∈ rows.erase copy, held columns (fun column => table (row, column)) object :=
    Finset.sum_congr rfl fun row inside => held_congr fun column inside' => by
      rw [others row (Finset.mem_of_mem_erase inside) (Finset.ne_of_mem_erase inside) column inside']
  rw [held_product, held_product, ← Finset.sum_erase_add _ _ member, after, rest,
    ← Finset.sum_erase_add rows _ member, before, Nat.add_zero]

end References
