import Mathlib.Data.Nat.ModEq
import Nupkux.Lib.Region

/-!
# A window on a ring of lines

A block that holds a number of lines of one width, the first of which follows the last. The
window shows some of them from a first line on. Writing to the window, turning the ring by a
line and copying the window out of the ring are described by what they do to its rows, so
that a ring can stand for a list of rows that is scrolled.
-/

namespace Window

variable {α : Type*} {width lines first height row column : Nat} {r : Region α}

/-- The index of a cell of the window in the ring. -/
def index (width lines first row column : Nat) : Nat :=
  width * ((first + row) % lines) + column

/-- The rows a window shows. -/
def view (r : Region α) (width lines first height : Nat) : Vector (Vector α width) height :=
  Vector.ofFn fun row => Vector.ofFn fun column => r.cell (index width lines first row column)

/-- A cell of a row. -/
theorem getElem_view (inside : row < height) (within : column < width) :
    (view r width lines first height)[row][column] =
      r.cell (index width lines first row column) := by
  simp only [view, Vector.getElem_ofFn]

/-- Two windows of the same rows show the same. -/
theorem view_ext {rows : Vector (Vector α width) height}
    (cells : ∀ row (inside : row < height), ∀ column (within : column < width),
      r.cell (index width lines first row column) = rows[row][column]) :
    view r width lines first height = rows := by
  apply Vector.ext
  intro row inside
  apply Vector.ext
  intro column within
  rw [getElem_view inside within]
  exact cells row inside column within

/-- The first line counts up to turns of the ring. -/
@[simp] theorem index_mod (width lines first row column : Nat) :
    index width lines (first % lines) row column = index width lines first row column := by
  rw [index, Nat.mod_add_mod, index]

/-- The first line of a window counts up to turns of the ring. -/
@[simp] theorem view_mod (r : Region α) (width lines first height : Nat) :
    view r width lines (first % lines) height = view r width lines first height := by
  apply view_ext
  intro row inside column within
  rw [index_mod, getElem_view inside within]

/-- The row below is a row of the window that begins a line later. -/
theorem index_succ (width lines first row column : Nat) :
    index width lines (first + 1) row column = index width lines first (row + 1) column := by
  rw [index, index, Nat.add_right_comm, Nat.add_assoc]

/-- A window no larger than the ring shows every cell once. -/
theorem index_inj {row' column' : Nat} (inside : row < lines) (inside' : row' < lines)
    (within : column < width) (within' : column' < width)
    (same : index width lines first row column = index width lines first row' column') :
    row = row' ∧ column = column' := by
  have line (row column : Nat) (within : column < width) :
      index width lines first row column / width = (first + row) % lines := by
    rw [index, Nat.mul_add_div (Nat.zero_lt_of_lt within), Nat.div_eq_of_lt within, Nat.add_zero]
  have offset (row column : Nat) (within : column < width) :
      index width lines first row column % width = column := by
    rw [index, Nat.mul_add_mod, Nat.mod_eq_of_lt within]
  have equal : (first + row) % lines = (first + row') % lines := by
    rw [← line row column within, same, line row' column' within']
  constructor
  · have congruent := Nat.ModEq.add_left_cancel' first equal
    exact congruent.eq_of_lt_of_lt inside inside'
  · rw [← offset row column within, same, offset row' column' within']

/-- Writing a cell of the window. -/
theorem view_write (fits : height ≤ lines) (inside : row < height) (within : column < width)
    (value : α) :
    view (r.write (index width lines first row column) value) width lines first height =
      (view r width lines first height).set row
        ((view r width lines first height)[row].set column value) := by
  apply view_ext
  intro row' inside' column' within'
  by_cases here : row = row' ∧ column = column'
  · obtain ⟨rfl, rfl⟩ := here
    rw [Region.cell_write_self, Vector.getElem_set_self, Vector.getElem_set_self]
  · have apart : (index width lines first row' column' : Int) ≠
        index width lines first row column := by
      intro same
      have places := index_inj (by omega) (by omega) within' within (Int.ofNat.inj same)
      exact here ⟨places.1.symm, places.2.symm⟩
    rw [Region.cell_write_of_ne apart]
    by_cases same : row = row'
    · subst same
      have differ : column ≠ column' := fun equal => here ⟨rfl, equal⟩
      rw [Vector.getElem_set_self, Vector.getElem_set_ne _ _ differ, getElem_view inside within']
    · rw [Vector.getElem_set_ne _ _ same, getElem_view inside' within']

/-- Filling a row of the window. -/
theorem view_fill (fits : height ≤ lines) (inside : row < height) (value : α) :
    view (r.fill (index width lines first row 0) value width) width lines first height =
      (view r width lines first height).set row (Vector.replicate width value) := by
  apply view_ext
  intro row' inside' column within
  have start (row column : Nat) :
      index width lines first row column = index width lines first row 0 + column := rfl
  by_cases same : row = row'
  · subst same
    rw [start row column, Region.cell_fill_of_mem (by omega) (by omega), Vector.getElem_set_self,
      Vector.getElem_replicate]
  · have outside : ¬((index width lines first row 0 : Int) ≤ index width lines first row' column ∧
        (index width lines first row' column : Int) < index width lines first row 0 + width) := by
      intro between
      have offset : index width lines first row' column - index width lines first row 0 < width := by
        omega
      have equal : index width lines first row' column =
          index width lines first row
            (index width lines first row' column - index width lines first row 0) := by
        rw [start row]
        omega
      exact same (index_inj (by omega) (by omega) within offset equal).1.symm
    rw [Region.cell_fill_of_not_mem outside, Vector.getElem_set_ne _ _ same,
      getElem_view inside' within]

/-- Turning the ring by a line and filling the row that comes into the window: the first row
leaves it. -/
theorem view_turn (fits : height + 1 ≤ lines) (value : α) :
    view (r.fill (index width lines (first + 1) height 0) value width) width lines (first + 1)
        (height + 1) =
      ((view r width lines first (height + 1)).drop 1).push (Vector.replicate width value) := by
  rw [view_fill fits (Nat.lt_succ_self height)]
  apply Vector.ext
  intro row inside
  by_cases last : row = height
  · subst last
    rw [Vector.getElem_set_self]
    exact Vector.getElem_push_eq.symm
  · have before : row < height := by omega
    rw [Vector.getElem_set_ne _ _ (Ne.symm last), Vector.getElem_push_lt before,
      Vector.getElem_drop]
    apply Vector.ext
    intro column within
    rw [getElem_view inside within, getElem_view _ within, index_succ, Nat.add_comm]

/-! ## Copies -/

variable {block : Region α}

/-- A window that fits behind its first line is copied in one piece. -/
theorem view_copy (fits : first + height ≤ lines) :
    view (block.copy 0 r ((first * width : Nat) : Int) (height * width)) width height 0 height =
      view r width lines first height := by
  apply view_ext
  intro row inside column within
  rw [getElem_view inside within]
  have below : width * (row + 1) ≤ width * height := Nat.mul_le_mul_left width inside
  have target : index width height 0 row column = width * row + column := by
    rw [index, Nat.zero_add, Nat.mod_eq_of_lt inside]
  have origin : index width lines first row column = first * width + (width * row + column) := by
    rw [index, Nat.mod_eq_of_lt (by omega), Nat.mul_add, Nat.mul_comm width first, Nat.add_assoc]
  rw [Nat.mul_succ] at below
  rw [target, origin, Region.cell_copy_of_mem (by omega) (by rw [Nat.mul_comm height]; omega)]
  rw [Int.sub_zero, ← Int.natCast_add]

/-- A window that goes past the last line is copied in two pieces. -/
theorem view_copy_wrapped (start : first < lines) (wraps : lines - first < height)
    (fits : height ≤ lines) :
    view ((block.copy 0 r ((first * width : Nat) : Int) ((lines - first) * width)).copy
        (((lines - first) * width : Nat) : Int) r 0 ((height - (lines - first)) * width))
        width height 0 height =
      view r width lines first height := by
  apply view_ext
  intro row inside column within
  rw [getElem_view inside within]
  have target : index width height 0 row column = width * row + column := by
    rw [index, Nat.zero_add, Nat.mod_eq_of_lt inside]
  rw [target]
  by_cases early : row < lines - first
  · have below : width * (row + 1) ≤ width * (lines - first) := Nat.mul_le_mul_left width early
    have origin : index width lines first row column =
        first * width + (width * row + column) := by
      rw [index, Nat.mod_eq_of_lt (by omega), Nat.mul_add, Nat.mul_comm width first,
        Nat.add_assoc]
    rw [Nat.mul_succ] at below
    rw [origin, Nat.mul_comm (lines - first), Region.cell_copy_of_not_mem (by omega),
      Region.cell_copy_of_mem (by omega) (by omega)]
    rw [Int.sub_zero, ← Int.natCast_add]
  · obtain ⟨later, rfl⟩ := Nat.exists_eq_add_of_le (Nat.le_of_not_lt early)
    have turned : (first + (lines - first + later)) % lines = later := by
      rw [← Nat.add_assoc, Nat.add_sub_of_le (Nat.le_of_lt start), Nat.add_mod_left,
        Nat.mod_eq_of_lt (by omega)]
    have below : width * (later + 1) ≤ width * (height - (lines - first)) :=
      Nat.mul_le_mul_left width (by omega)
    rw [Nat.mul_succ] at below
    rw [index, turned, Nat.mul_add, Nat.mul_comm (lines - first),
      Nat.mul_comm (height - (lines - first)), Region.cell_copy_of_mem (by omega) (by omega)]
    congr 1
    omega

end Window
