import Mathlib.Data.List.Basic
import Mathlib.Logic.Function.Basic

/-!
# Memory blocks with a record of what is written

A block as C code sees it: nothing keeps the code from writing at an index outside it, so
cells are indexed by integers and the indices written are recorded. A block of a given size
is written safely when every recorded index is inside it.
-/

/-- A block of memory, with the indices written so far, the last one first. -/
structure Region (α : Type*) where
  /-- The value at each index from the start of the block. -/
  cell : Int → α
  /-- The indices written. -/
  written : List Int := []

namespace Region

variable {α : Type*}

/-- `block[i] = value`. -/
def write (r : Region α) (i : Int) (value : α) : Region α where
  cell := Function.update r.cell i value
  written := i :: r.written

/-- `memset(block + start, value, count)`. -/
def fill (r : Region α) (start : Int) (value : α) (count : Nat) : Region α where
  cell j := if start ≤ j ∧ j < start + count then value else r.cell j
  written := (List.range count).map (fun k : Nat => start + k) ++ r.written

/-- `memcpy(block + start, source + origin, count)`, from another block. -/
def copy (r : Region α) (start : Int) (source : Region α) (origin : Int) (count : Nat) :
    Region α where
  cell j := if start ≤ j ∧ j < start + count then source.cell (origin + (j - start)) else r.cell j
  written := (List.range count).map (fun k : Nat => start + k) ++ r.written

/-- The cells from an index on, up to one that is zero and at most as many as given. -/
def text [DecidableEq α] [OfNat α 0] (r : Region α) (start : Int) : Nat → List α
  | 0 => []
  | most + 1 => if r.cell start = 0 then [] else r.cell start :: r.text (start + 1) most

/-- Every index written is inside a block of a size. -/
def Within (r : Region α) (size : Nat) : Prop := ∀ i ∈ r.written, 0 ≤ i ∧ i < size

variable {r : Region α} {size count : Nat} {i start : Int} {value : α}

/-- The cell that is written. -/
@[simp] theorem cell_write_self (r : Region α) (i : Int) (value : α) :
    (r.write i value).cell i = value := Function.update_self ..

/-- Other cells are kept. -/
theorem cell_write_of_ne {j : Int} (differ : j ≠ i) :
    (r.write i value).cell j = r.cell j := Function.update_of_ne differ ..

/-- The cells of a filled range. -/
theorem cell_fill_of_mem {j : Int} (low : start ≤ j) (high : j < start + count) :
    (r.fill start value count).cell j = value := if_pos ⟨low, high⟩

/-- The cells outside a filled range. -/
theorem cell_fill_of_not_mem {j : Int} (outside : ¬(start ≤ j ∧ j < start + count)) :
    (r.fill start value count).cell j = r.cell j := if_neg outside

/-- The cells of a copied range. -/
theorem cell_copy_of_mem {source : Region α} {origin j : Int} (low : start ≤ j)
    (high : j < start + count) :
    (r.copy start source origin count).cell j = source.cell (origin + (j - start)) :=
  if_pos ⟨low, high⟩

/-- The cells outside a copied range. -/
theorem cell_copy_of_not_mem {source : Region α} {origin j : Int}
    (outside : ¬(start ≤ j ∧ j < start + count)) :
    (r.copy start source origin count).cell j = r.cell j := if_neg outside

/-- Writing one cell safely. -/
@[simp] theorem within_write :
    (r.write i value).Within size ↔ (0 ≤ i ∧ i < size) ∧ r.Within size := by
  simp only [Within, write, List.mem_cons, forall_eq_or_imp]

/-- The indices of a range inside. -/
theorem Within.range (safe : r.Within size) (low : 0 ≤ start) (high : start + count ≤ size) :
    ∀ i ∈ (List.range count).map (fun k : Nat => start + k) ++ r.written, 0 ≤ i ∧ i < size := by
  intro i member
  rcases List.mem_append.mp member with filled | before
  · obtain ⟨k, range, rfl⟩ := List.mem_map.mp filled
    have below := List.mem_range.mp range
    omega
  · exact safe i before

/-- Filling a range safely. -/
theorem Within.fill (safe : r.Within size) (low : 0 ≤ start) (high : start + count ≤ size) :
    (r.fill start value count).Within size := safe.range low high

/-- Copying to a range safely. -/
theorem Within.copy {source : Region α} {origin : Int} (safe : r.Within size) (low : 0 ≤ start)
    (high : start + count ≤ size) : (r.copy start source origin count).Within size :=
  safe.range low high

/-- A text is at most as long as the part of the block it is read from. -/
theorem length_text_le [DecidableEq α] [OfNat α 0] (r : Region α) (start : Int) (most : Nat) :
    (r.text start most).length ≤ most := by
  induction most generalizing start with
  | zero => exact Nat.le_refl 0
  | succ most ih =>
    rw [text]
    split
    · exact Nat.zero_le _
    · exact Nat.succ_le_succ (ih (start + 1))

/-- A text depends on the cells only. -/
theorem text_congr [DecidableEq α] [OfNat α 0] {r r' : Region α} (same : r'.cell = r.cell)
    (start : Int) (most : Nat) : r'.text start most = r.text start most := by
  induction most generalizing start with
  | zero => rfl
  | succ most ih => rw [text, text, same, ih]

/-- A text ends at its first zero. -/
theorem text_eq_map [DecidableEq α] [OfNat α 0] {r : Region α} {start : Int} {length most : Nat}
    (nonzero : ∀ k : Nat, k < length → r.cell (start + k) ≠ 0)
    (ends : r.cell (start + length) = 0) (room : length < most) :
    r.text start most = (List.range length).map fun k : Nat => r.cell (start + k) := by
  induction most generalizing start length with
  | zero => omega
  | succ most ih =>
    cases length with
    | zero =>
      have here : r.cell start = 0 := by simpa using ends
      rw [text, if_pos here]
      rfl
    | succ length =>
      have here : r.cell start ≠ 0 := by simpa using nonzero 0 (Nat.succ_pos _)
      have later : ∀ k : Nat, start + 1 + (k : Int) = start + ((k + 1 : Nat) : Int) := by
        intro k
        push_cast
        omega
      rw [text, if_neg here, List.range_succ_eq_map, List.map_cons, List.map_map]
      have rest : r.text (start + 1) most =
          (List.range length).map fun k : Nat => r.cell (start + 1 + k) := ih
        (fun k below => by
          rw [later k]
          exact nonzero (k + 1) (Nat.succ_lt_succ below))
        (by rw [later length, ends]) (Nat.lt_of_succ_lt_succ room)
      rw [rest]
      congr 1
      · rw [Int.natCast_zero, Int.add_zero]
      · apply List.map_congr_left
        intro k _
        rw [later k]
        rfl

end Region
