import Nupkux.Drivers.EscapeSequence
import Nupkux.Drivers.Rendition
import Nupkux.Drivers.Screen

/-!
# Terminals with escape sequences

What a terminal is for, escape sequences included: a screen, a saved place, whether the cursor is
shown and what is typed is echoed, and how much of a sequence has come. There is no ring, no
buffer and no `char` in it, a place is always one of the screen. Every byte acts on the terminal
of the driver as it does on this one, as long as the cursor commands get numbers that no `int`
wraps.
-/

namespace Nupkux

namespace Screen

/-- The row of a number, the last one if it is too large. -/
def rowAt (n : Nat) : Fin ttyHeight :=
  ⟨min n (ttyHeight - 1), Nat.lt_of_le_of_lt (Nat.min_le_right _ _) (by decide)⟩

/-- The column of a number, the last one if it is too large. -/
def columnAt (n : Nat) : Fin ttyWidth :=
  ⟨min n (ttyWidth - 1), Nat.lt_of_le_of_lt (Nat.min_le_right _ _) (by decide)⟩

/-- The cursor moves to a place, or as far as the screen goes. -/
def move (s : Screen) (row column : Nat) : Screen :=
  { s with row := rowAt row, column := columnAt column }

/-- Some cells become blanks. -/
def erase (s : Screen) (cells : Nat → Nat → Bool) : Screen :=
  { s with rows := Vector.ofFn fun row => Vector.ofFn fun column =>
      if cells row column then s.blank else s.rows[row][column] }

@[simp] theorem attr_erase (s : Screen) (cells : Nat → Nat → Bool) :
    (s.erase cells).attr = s.attr := by unfold erase; rfl

@[simp] theorem row_erase (s : Screen) (cells : Nat → Nat → Bool) :
    (s.erase cells).row = s.row := by unfold erase; rfl

@[simp] theorem column_erase (s : Screen) (cells : Nat → Nat → Bool) :
    (s.erase cells).column = s.column := by unfold erase; rfl

/-- The cells that `'J'` clears, on the whole screen, or `'K'`, in the row of the cursor: those
from the cursor on, those up to it, or all. -/
def cleared (s : Screen) (screen : Bool) (n : Int) (row column : Nat) : Bool :=
  if n = 0 then (row == s.row && s.column ≤ column) || (screen && s.row < row)
  else if n = 1 then (row == s.row && column ≤ s.column) || (screen && row < s.row)
  else if n = 2 then screen || row == s.row
  else false

end Screen

/-- How much of an escape sequence has come: nothing, ESC, or ESC, `'['` and parameters. -/
inductive Reading where
  | text
  | escape
  | sequence (params : CString)
  deriving DecidableEq, Repr

/-- A terminal. -/
structure Terminal where
  screen : Screen
  savedRow : Fin ttyHeight
  savedColumn : Fin ttyWidth
  showCursor : Bool
  echo : Bool
  reading : Reading

/-- The largest `int`. -/
def intMax : Int := 2147483647

namespace Terminal

/-- A new terminal, with a screen. -/
def start (screen : Screen) : Terminal where
  screen
  savedRow := Screen.rowAt 0
  savedColumn := Screen.columnAt 0
  showCursor := false
  echo := false
  reading := .text

/-- A command with its parameters. The number is the parameters read as one, 1 if there is
none. -/
def command (a : Terminal) (cmd : Char) (params : CString) : Terminal :=
  let s := a.screen
  let n := (parameter 1 params).toNat
  match cmd with
  | 'A' => { a with screen := s.move (s.row - n) s.column }
  | 'B' => { a with screen := s.move (s.row + n) s.column }
  | 'C' => { a with screen := s.move s.row (s.column + n) }
  | 'D' => { a with screen := s.move s.row (s.column - n) }
  | 'E' => { a with screen := s.move (s.row + n) 0 }
  | 'F' => { a with screen := s.move (s.row - n) 0 }
  | 'G' => { a with screen := s.move s.row (n - 1) }
  | 'H' | 'f' =>
    let column := (parameter 1 (params.takeWhile (· ≠ 59))).toNat
    let row := (parameter 1 (params.dropWhile (· ≠ 59)).tail).toNat
    { a with screen := s.move (row - 1) (column - 1) }
  | 'J' => { a with screen := s.erase (s.cleared true (parameter 0 params)) }
  | 'K' => { a with screen := s.erase (s.cleared false (parameter 0 params)) }
  | 'm' =>
    let attr := ((separated params).map atoi).foldl selectGraphicRendition s.attr
    { a with screen := { s with attr } }
  | 's' => { a with savedRow := s.row, savedColumn := s.column }
  | 'u' => { a with screen := { s with row := a.savedRow, column := a.savedColumn } }
  | 'l' => if params = Tty.cursorMode then { a with showCursor := false } else a
  | 'h' => if params = Tty.cursorMode then { a with showCursor := true } else a
  | 'e' => { a with echo := parameter 1 params ≠ 0 }
  | _ => a

/-- A byte that is written. -/
def byte (a : Terminal) (c : UInt8) : Terminal :=
  match a.reading with
  | .text =>
    if c = 27 then { a with reading := .escape } else { a with screen := a.screen.byte c }
  | .escape => { a with reading := if c = 91 then .sequence [] else .text }
  | .sequence params =>
    if params.length + 1 < ttyEscapeLen ∧ escapeChr c = true then
      if escapeEnd c then { a with reading := .text }.command (Char.ofNat c.toNat) params
      else { a with reading := .sequence (params ++ [c]) }
    else { a with reading := .text }

/-- The bytes of a call. -/
def write (a : Terminal) (buffer : List UInt8) : Terminal := buffer.foldl byte a

/-- A byte that does not make a cursor command, `'A'` to `'G'`, wrap its number: it is none, or
the number of the sequence is an `int` that can be added to a place of the screen. -/
def clean (a : Terminal) (c : UInt8) : Bool :=
  match a.reading with
  | .sequence params =>
    !(65 ≤ c && c ≤ 71) ||
      (0 ≤ parameter 1 params && parameter 1 params + ttyWidth ≤ intMax)
  | _ => true

/-- All bytes of a call are such. -/
def cleanBytes (a : Terminal) : List UInt8 → Bool
  | [] => true
  | c :: buffer => a.clean c && (a.byte c).cleanBytes buffer

/-- A command does not begin an escape sequence. -/
theorem reading_command (a : Terminal) (cmd : Char) (params : CString) :
    (a.command cmd params).reading = a.reading := by
  unfold command
  dsimp only
  split <;> try split
  all_goals rfl

end Terminal

namespace Tty

/-- How much of a sequence the driver has stored. -/
def Reads (t : Tty) : Reading → Prop
  | .text => t.isEsc = false
  | .escape => t.isEsc = true ∧ t.escInd = 0
  | .sequence params =>
    t.isEsc = true ∧ t.escInd = params.length + 1 ∧ params.length < ttyEscapeLen ∧
      (∀ c ∈ params, isParameter c = true) ∧
      ∀ k (inside : k < params.length), t.escapeSeq.cell (1 + k : Int) = params[k]

/-- The terminal, were it outside an escape sequence. -/
def outside (t : Tty) : Tty := { t with isEsc := false }

/-- The terminal of the driver stands for a terminal: it shows its screen, and has its modes and
as much of a sequence. -/
structure Follows (t : Tty) (a : Terminal) : Prop where
  shows : t.outside.Shows a.screen
  saved : t.saved = { x := a.savedColumn, y := a.savedRow }
  showCursor : t.showCursor = a.showCursor
  echo : t.echo = a.echo
  reading : t.Reads a.reading

variable {t : Tty} {a : Terminal} {s : Screen} {c : UInt8} {n : Int} {params : CString}

/-! ## Numbers -/

/-- Moving back stops at 0. -/
theorem back_eq {position : Nat} (small : position < 128) (positive : 0 ≤ n) :
    back position n = (position - n.toNat : Nat) := by
  unfold back
  split
  · omega
  · rw [toChar_of_small (by omega) (by omega)]
    omega

/-- Moving on stops before the limit. -/
theorem forward_eq {position limit : Nat} (inside : position < limit) (small : limit ≤ ttyWidth)
    (positive : 0 ≤ n) (fits : n + ttyWidth ≤ intMax) :
    forward position n limit = (min (position + n.toNat) (limit - 1) : Nat) := by
  simp only [ttyWidth, intMax] at small fits
  have exact : toInt (position + n) = position + n := by
    unfold toInt
    omega
  unfold forward
  rw [exact]
  split
  · rw [toChar_of_small (by omega) (by omega)]
    omega
  · rw [toChar_of_small (by omega) (by omega)]
    omega

/-- A column that is named is counted from 0, and is at most the last one. -/
theorem column_eq (positive : 0 ≤ n) :
    column n ttyWidth = (min (n.toNat - 1) (ttyWidth - 1) : Nat) := by
  simp only [ttyWidth]
  unfold column
  split
  · rw [toChar_of_small (by omega) (by omega)]
    omega
  · split
    · rw [toChar_of_small (by omega) (by omega)]
      omega
    · rw [toChar_of_small (by omega) (by omega)]
      omega

/-- A place that is named is counted from 0, and is at most the last one. -/
theorem place_eq {limit : Nat} (some : 0 < limit) (small : limit ≤ 128) (n : Int) :
    place n limit = (min (n.toNat - 1) (limit - 1) : Nat) := by
  unfold place
  split
  · rw [toChar_of_small (by omega) (by omega)]
    omega
  · split
    · rw [toChar_of_small (by omega) (by omega)]
      omega
    · rw [toChar_of_small (by omega) (by omega)]
      omega

/-- A row of the screen is the row of its number. -/
theorem rowAt_val (row : Fin ttyHeight) : Screen.rowAt row = row := by
  apply Fin.ext
  exact Nat.min_eq_left (Nat.le_sub_one_of_lt row.isLt)

/-- A column of the screen is the column of its number. -/
theorem columnAt_val (column : Fin ttyWidth) : Screen.columnAt column = column := by
  apply Fin.ext
  exact Nat.min_eq_left (Nat.le_sub_one_of_lt column.isLt)

/-! ## Clearing -/

/-- Clearing a part of a row, by its cells. -/
theorem Grounded.cell_setCells (grounded : t.Grounded) {row : Nat} (x count : Nat)
    (inside : row < ttyHeight) (fits : x + count ≤ ttyWidth) (value : Nat)
    {row' column : Nat} (inside' : row' < ttyHeight) (within : column < ttyWidth) :
    (t.setCells (t.pos x row) value count).mem.cell
        (Window.index ttyWidth ttyLines t.scrln row' column) =
      if row' = row ∧ x ≤ column ∧ column < x + count then value
      else t.mem.cell (Window.index ttyWidth ttyLines t.scrln row' column) := by
  have amount : toUint (count : Int) = count := by
    simp only [ttyWidth] at fits
    exact toUint_natCast (by simp only [uintWidth]; omega)
  have first : (Window.index ttyWidth ttyLines t.scrln row x : Int) = t.pos x row :=
    (grounded.pos_eq_index inside x).symm
  have offset (row column : Nat) : Window.index ttyWidth ttyLines t.scrln row column =
      Window.index ttyWidth ttyLines t.scrln row 0 + column := rfl
  unfold Tty.setCells
  dsimp only
  rw [amount, ← first]
  by_cases here : row' = row ∧ x ≤ column ∧ column < x + count
  · obtain ⟨rfl, low, high⟩ := here
    rw [if_pos ⟨rfl, low, high⟩, offset row' column, offset row' x]
    exact Region.cell_fill_of_mem (by omega) (by omega)
  · rw [if_neg here]
    apply Region.cell_fill_of_not_mem
    intro between
    have place : Window.index ttyWidth ttyLines t.scrln row' column =
        Window.index ttyWidth ttyLines t.scrln row
          (Window.index ttyWidth ttyLines t.scrln row' column -
            Window.index ttyWidth ttyLines t.scrln row 0) := by
      rw [offset row x] at between
      rw [offset row (_ - _)]
      omega
    rw [offset row x] at between
    have less : ttyHeight ≤ ttyLines := by decide
    obtain ⟨same, column_eq⟩ := Window.index_inj (by omega) (by omega) within
      (by rw [offset row x] at *; omega) place
    rw [offset row' column] at between
    subst same
    omega

/-- Clearing rows, by their cells. -/
theorem Grounded.cell_clearLines (grounded : t.Grounded) {lines : List Int}
    (rows : ∀ m ∈ lines, 0 ≤ m ∧ m < ttyHeight) {row column : Nat} (inside : row < ttyHeight)
    (within : column < ttyWidth) :
    (t.clearLines lines).mem.cell (Window.index ttyWidth ttyLines t.scrln row column) =
      if (row : Int) ∈ lines then t.blank
      else t.mem.cell (Window.index ttyWidth ttyLines t.scrln row column) := by
  induction lines generalizing t with
  | nil => rfl
  | cons m lines ih =>
    have first := rows m List.mem_cons_self
    obtain ⟨line, rfl⟩ := Int.eq_ofNat_of_zero_le first.1
    have cell := grounded.cell_setCells 0 ttyWidth (Int.ofNat_lt.mp first.2)
      (Nat.le_of_eq (Nat.zero_add _)) t.blank inside within
    have cleared : (t.setCells (t.pos 0 line) t.blank ttyWidth).Grounded :=
      grounded.setCells first (Int.le_refl 0) (by decide) (by decide) _
    have rest := ih cleared fun m member => rows m (List.mem_cons_of_mem _ member)
    unfold Tty.clearLines at rest ⊢
    rw [List.foldl_cons, grounded.width]
    refine rest.trans ?_
    by_cases later : (row : Int) ∈ lines
    · rw [if_pos later, if_pos (List.mem_cons_of_mem _ later)]
      rfl
    · rw [if_neg later]
      refine cell.trans ?_
      by_cases here : row = line
      · rw [if_pos ⟨here, Nat.zero_le _, by omega⟩, if_pos (here ▸ List.mem_cons_self)]
      · rw [if_neg fun both => here both.1, if_neg]
        intro member
        rcases List.mem_cons.mp member with same | after
        · exact here (Int.ofNat.inj same)
        · exact later after

/-- Clearing changes the cells only. -/
theorem clearLines_eq (t : Tty) (lines : List Int) :
    t.clearLines lines = { t with mem := (t.clearLines lines).mem } := by
  induction lines generalizing t with
  | nil => rfl
  | cons m lines ih => exact ih _

/-- Clearing changes the cells only. -/
theorem clear_eq (t : Tty) (screen : Bool) (n : Int) :
    t.clear screen n = { t with mem := (t.clear screen n).mem } := by
  unfold Tty.clear
  dsimp only
  split
  · split
    · exact clearLines_eq _ _
    · rfl
  · split
    · split
      · exact clearLines_eq _ _
      · rfl
    · split
      · split
        · exact clearLines_eq _ _
        · rfl
      · rfl

/-- Clearing cells does not move the cursor. -/
@[simp] theorem cursor_setCells (t : Tty) (start : Int) (value : Nat) (count : Int) :
    (t.setCells start value count).cursor = t.cursor := rfl

/-- Clearing cells keeps the height. -/
@[simp] theorem height_setCells (t : Tty) (start : Int) (value : Nat) (count : Int) :
    (t.setCells start value count).height = t.height := rfl

/-- A part of the row of the cursor is cleared, and on the whole screen some rows. -/
theorem Shows.cell_clear_part (shows : t.Shows s) (x count first stop : Int) (positive : 0 ≤ x)
    (some : 0 ≤ count) (fits : x + count ≤ ttyWidth) (low : 0 ≤ first) (high : stop ≤ ttyHeight)
    (screen : Bool) {row column : Nat} (inside : row < ttyHeight) (within : column < ttyWidth) :
    (if screen then (t.setCells (t.pos x s.row.val) t.blank count).clearLines (linesFrom first stop)
        else t.setCells (t.pos x s.row.val) t.blank count).mem.cell
        (Window.index ttyWidth ttyLines t.scrln row column) =
      if (screen = true ∧ first ≤ row ∧ row < stop) ∨
          (row = s.row.val ∧ x ≤ column ∧ column < x + count) then t.blank
      else t.mem.cell (Window.index ttyWidth ttyLines t.scrln row column) := by
  obtain ⟨x, rfl⟩ := Int.eq_ofNat_of_zero_le positive
  obtain ⟨count, rfl⟩ := Int.eq_ofNat_of_zero_le some
  have part := shows.grounded.cell_setCells x count s.row.isLt (by omega) t.blank inside within
  have same : (row = s.row.val ∧ x ≤ column ∧ column < x + count) ↔
      (row = s.row.val ∧ (x : Int) ≤ column ∧ (column : Int) < x + count) := by omega
  rw [if_congr same rfl rfl] at part
  cases screen with
  | false =>
    refine part.trans (if_congr ?_ rfl rfl)
    simp only [Bool.false_eq_true, false_and, false_or]
  | true =>
    have ground : (t.setCells (t.pos x s.row.val) t.blank count).Grounded :=
      shows.grounded.setCells ⟨Int.natCast_nonneg _, Int.ofNat_lt.mpr s.row.isLt⟩ positive some
        fits _
    have rows : ∀ m ∈ linesFrom first stop, 0 ≤ m ∧ m < ttyHeight := by
      intro m member
      have between := mem_linesFrom.mp member
      omega
    refine (ground.cell_clearLines rows inside within).trans ?_
    rw [ite_or]
    exact if_congr (by simp only [mem_linesFrom, true_and]) rfl part

/-- `'J'` and `'K'`, by the cells. -/
theorem Shows.cell_clear (shows : t.Shows s) (screen : Bool) (n : Int) {row column : Nat}
    (inside : row < ttyHeight) (within : column < ttyWidth) :
    (t.clear screen n).mem.cell (Window.index ttyWidth ttyLines t.scrln row column) =
      if s.cleared screen n row column then t.blank
      else t.mem.cell (Window.index ttyWidth ttyLines t.scrln row column) := by
  have row_lt := s.row.isLt
  have column_lt := s.column.isLt
  have zero_le := Int.le_refl 0
  unfold Tty.clear Screen.cleared
  simp only [cursor_setCells, height_setCells]
  rw [shows.column, shows.row, shows.grounded.width, shows.grounded.height]
  by_cases zero : n = 0
  · rw [if_pos zero, if_pos zero]
    have cell := shows.cell_clear_part s.column.val (ttyWidth - s.column.val)
      (s.row.val + 1) ttyHeight (by omega) (by omega) (by omega) (by omega)
      (Int.le_refl _) screen inside within
    refine cell.trans (if_congr ?_ rfl rfl)
    cases screen <;>
      simp only [Bool.or_eq_true, Bool.and_eq_true, beq_iff_eq, decide_eq_true_eq,
        Bool.false_eq_true, false_and, or_false, false_or, true_and] <;>
      omega
  rw [if_neg zero, if_neg zero]
  by_cases one : n = 1
  · rw [if_pos one, if_pos one]
    have cell := shows.cell_clear_part 0 (s.column.val + 1) 0 s.row.val zero_le (by omega)
      (by omega) zero_le (by omega) screen inside within
    refine cell.trans (if_congr ?_ rfl rfl)
    cases screen <;>
      simp only [Bool.or_eq_true, Bool.and_eq_true, beq_iff_eq, decide_eq_true_eq,
        Bool.false_eq_true, false_and, or_false, false_or, true_and] <;>
      omega
  rw [if_neg one, if_neg one]
  by_cases two : n = 2
  · rw [if_pos two, if_pos two]
    cases screen with
    | true =>
      have rows : ∀ m ∈ linesFrom 0 ttyHeight, 0 ≤ m ∧ m < ttyHeight := fun m member =>
        mem_linesFrom.mp member
      refine (shows.grounded.cell_clearLines rows inside within).trans (if_congr ?_ rfl rfl)
      simp only [mem_linesFrom, Bool.true_or, iff_true]
      omega
    | false =>
      have cell := shows.cell_clear_part 0 ttyWidth 0 ttyHeight zero_le (by omega) (by omega)
        zero_le (Int.le_refl _) false inside within
      refine cell.trans (if_congr ?_ rfl rfl)
      simp only [Bool.false_or, beq_iff_eq, Bool.false_eq_true, false_and, false_or]
      omega
  · rw [if_neg two, if_neg two]
    rfl

/-- `'J'` and `'K'` clear the cells of the screen. -/
theorem Shows.clear (shows : t.Shows s) (screen : Bool) (n : Int) :
    (t.clear screen n).Shows (s.erase (s.cleared screen n)) := by
  have grounded := shows.grounded.clear shows.onScreen screen n
  have rows : Window.view (t.clear screen n).mem ttyWidth ttyLines t.scrln ttyHeight =
      (s.erase (s.cleared screen n)).rows := by
    apply Window.view_ext
    intro row inside column within
    rw [shows.cell_clear screen n inside within]
    have cell : (s.erase (s.cleared screen n)).rows[row][column] =
        if s.cleared screen n row column then s.blank else s.rows[row][column] := by
      unfold Screen.erase
      dsimp only
      rw [Vector.getElem_ofFn, Vector.getElem_ofFn]
      rfl
    rw [cell, shows.blank, ← Window.getElem_view inside within, shows.rows]
  obtain ⟨mem, same⟩ : ∃ mem, t.clear screen n = { t with mem } := ⟨_, t.clear_eq screen n⟩
  obtain ⟨⟨_, plain, viewed, attr, _⟩, column, row⟩ := shows
  rw [same] at grounded rows ⊢
  rw [← Screen.attr_erase] at attr
  rw [← Screen.column_erase] at column
  rw [← Screen.row_erase] at row
  exact ⟨⟨grounded, plain, viewed, attr, rows⟩, column, row⟩

/-! ## Commands -/

/-- Moving the cursor to a place of the screen. -/
theorem Shows.move (shows : t.Shows s) {x y : Int} {row column : Nat}
    (across : x = Screen.columnAt column) (down : y = Screen.rowAt row) :
    ({ t with cursor := { x, y } } : Tty).Shows (s.move row column) := by
  obtain ⟨⟨grounded, plain, viewed, attr, rows⟩, _, _⟩ := shows
  exact ⟨⟨grounded.move _, plain, viewed, attr, rows⟩, across, down⟩

/-- The saved cursor, whether it is shown, and whether what is typed is echoed. -/
def modes (t : Tty) : TtyCursor × Bool × Bool := (t.saved, t.showCursor, t.echo)

/-- A terminal outside an escape sequence. -/
theorem outside_eq (outside : t.isEsc = false) : t.outside = t := by
  unfold Tty.outside
  rw [← outside]

/-- Outside an escape sequence the terminal shows the screen. -/
theorem Follows.shows_of_text (follows : t.Follows a) (text : a.reading = .text) :
    t.Shows a.screen := by
  have shows := follows.shows
  have reads := follows.reading
  rw [text] at reads
  rwa [outside_eq reads] at shows

/-- Outside an escape sequence the screen and the modes are all there is. -/
theorem follows_of_shows {a : Terminal} (text : a.reading = .text) (shows : t.Shows a.screen)
    (modes : t.modes = ({ x := a.savedColumn, y := a.savedRow }, a.showCursor, a.echo)) :
    t.Follows a := by
  simp only [Tty.modes, Prod.mk.injEq] at modes
  have outside := shows.plain
  refine ⟨(outside_eq outside).symm ▸ shows, modes.1, modes.2.1, modes.2.2, ?_⟩
  rw [text]
  exact outside

/-- The modes agree. -/
theorem Follows.modes (follows : t.Follows a) :
    t.modes = ({ x := a.savedColumn, y := a.savedRow }, a.showCursor, a.echo) := by
  unfold Tty.modes
  rw [follows.saved, follows.showCursor, follows.echo]

/-- What changes the screen only. -/
theorem Follows.of_shows (follows : t.Follows a) (text : a.reading = .text) {u : Tty}
    (shows : u.Shows s) (modes : u.modes = t.modes) : u.Follows { a with screen := s } :=
  follows_of_shows text shows (modes.trans follows.modes)

/-- Clearing keeps the modes. -/
theorem modes_clear (t : Tty) (screen : Bool) (n : Int) :
    (t.clear screen n).modes = t.modes := by
  rw [clear_eq]
  rfl

/-- Moving the cursor keeps the modes. -/
theorem modes_moveTo (t : Tty) (params : CString) (n : Int) :
    (t.moveTo params n).modes = t.modes := by
  unfold Tty.moveTo
  dsimp only
  split <;> rfl

/-- Cutting the escape sequence. -/
theorem Shows.cut (shows : t.Shows s) {i : Int} (low : 0 ≤ i) (high : i < ttyEscapeLen) :
    (t.cut i).Shows s := by
  obtain ⟨⟨grounded, plain, viewed, attr, rows⟩, column, row⟩ := shows
  exact ⟨⟨grounded.cut low high, plain, viewed, attr, rows⟩, column, row⟩

/-- `'H'` and `'f'` move to the place the parameters name, the first one being the column. -/
theorem Shows.moveTo (shows : t.Shows s) {params : CString} (room : params.length < ttyEscapeLen) :
    (t.moveTo params (parameter 1 params)).Shows
      (s.move ((parameter 1 (params.dropWhile (· ≠ 59)).tail).toNat - 1)
        ((parameter 1 (params.takeWhile (· ≠ 59))).toNat - 1)) := by
  have across (n : Int) : place n t.width = Screen.columnAt (n.toNat - 1) := by
    rw [shows.grounded.width]
    exact place_eq (by decide) (by decide) n
  have down (n : Int) : place n t.height = Screen.rowAt (n.toNat - 1) := by
    rw [shows.grounded.height]
    exact place_eq (by decide) (by decide) n
  have whole : params.takeWhile (· ≠ 59) ++ params.dropWhile (· ≠ 59) = params :=
    List.takeWhile_append_dropWhile
  have length := congrArg List.length whole
  rw [List.length_append] at length
  unfold Tty.moveTo
  dsimp only
  split
  case isTrue none =>
    rw [none, List.append_nil] at whole
    rw [none, whole]
    exact shows.move (across _) (down 1)
  case isFalse separated =>
    have positive := List.length_pos_iff.mpr separated
    exact (shows.cut (by omega) (by omega)).move (across _) (down _)

/-- `'m'` changes the attribute and cuts the escape sequence. -/
theorem renditions_eq (t : Tty) (param : CString) (i : Int) (params : CString) :
    ∃ escapeSeq, t.renditions param i params =
      { t with attr := (t.renditions param i params).attr, escapeSeq } := by
  induction params generalizing t param i with
  | nil => exact ⟨t.escapeSeq, rfl⟩
  | cons c params ih =>
    unfold Tty.renditions
    split
    · exact ih _ _ _
    · exact ih _ _ _

/-- `'m'` selects what its parameters select one after the other. -/
theorem Shows.renditions (shows : t.Shows s) (room : params.length < ttyEscapeLen) :
    (t.renditions [] 1 params).Shows { s with
      attr := ((separated params).map atoi).foldl selectGraphicRendition s.attr } ∧
      (t.renditions [] 1 params).modes = t.modes := by
  have space : (1 : Int) + params.length ≤ ttyEscapeLen := by omega
  have grounded := shows.grounded.renditions Int.one_nonneg [] space
  have selected := attr_renditions t [] 1 params
  obtain ⟨escapeSeq, same⟩ := t.renditions_eq [] 1 params
  obtain ⟨⟨_, plain, viewed, attr, rows⟩, column, row⟩ := shows
  rw [List.reverse_nil, List.splitOnPPrepend_nil_right, attr] at selected
  rw [selected] at same
  rw [same] at grounded ⊢
  exact ⟨⟨⟨grounded, plain, viewed, rfl, rows⟩, column, row⟩, rfl⟩

/-- A command does to the terminal of the driver what it does to the terminal. -/
theorem Follows.command (follows : t.Follows a) (text : a.reading = .text)
    (noNul : NoNul params) (room : params.length < ttyEscapeLen) (cmd : Char)
    (clean : cmd ∈ ['A', 'B', 'C', 'D', 'E', 'F', 'G'] →
      0 ≤ parameter 1 params ∧ parameter 1 params + ttyWidth ≤ intMax) :
    (t.command cmd params (parameter 1 params)).Follows (a.command cmd params) := by
  have shows := follows.shows_of_text text
  have width := shows.grounded.width
  have height := shows.grounded.height
  obtain ⟨⟨_, plain, viewed, attr, rows⟩, column, row⟩ := id shows
  have mode : compareStrings params cursorMode = 0 ↔ params = cursorMode :=
    compareStrings_eq_zero noNul (by decide)
  have column_lt := a.screen.column.isLt
  have row_lt := a.screen.row.isLt
  have narrow : ttyWidth < 128 := by decide
  have flat : ttyHeight < 128 := by decide
  have across {x : Int} {y : Nat} (same : x = (min y (ttyWidth - 1) : Nat)) :
    x = Screen.columnAt y := same
  have down {x : Int} {y : Nat} (same : x = (min y (ttyHeight - 1) : Nat)) :
    x = Screen.rowAt y := same
  have sameColumn : t.cursor.x = Screen.columnAt a.screen.column := by rw [columnAt_val, column]
  have sameRow : t.cursor.y = Screen.rowAt a.screen.row := by rw [rowAt_val, row]
  unfold Tty.command Terminal.command
  dsimp only
  split
  next =>
    obtain ⟨positive, _⟩ := clean (by decide)
    refine follows.of_shows text (shows.move sameColumn (down ?_)) rfl
    rw [row, back_eq (by omega) positive]
    omega
  next =>
    obtain ⟨positive, fits⟩ := clean (by decide)
    refine follows.of_shows text (shows.move sameColumn (down ?_)) rfl
    rw [row, height, forward_eq row_lt (by decide) positive fits]
  next =>
    obtain ⟨positive, fits⟩ := clean (by decide)
    refine follows.of_shows text (shows.move (across ?_) sameRow) rfl
    rw [column, width, forward_eq column_lt (Nat.le_refl _) positive fits]
  next =>
    obtain ⟨positive, _⟩ := clean (by decide)
    refine follows.of_shows text (shows.move (across ?_) sameRow) rfl
    rw [column, back_eq (by omega) positive]
    omega
  next =>
    obtain ⟨positive, fits⟩ := clean (by decide)
    refine follows.of_shows text (shows.move (across rfl) (down ?_)) rfl
    rw [row, height, forward_eq row_lt (by decide) positive fits]
  next =>
    obtain ⟨positive, _⟩ := clean (by decide)
    refine follows.of_shows text (shows.move (across rfl) (down ?_)) rfl
    rw [row, back_eq (by omega) positive]
    omega
  next =>
    obtain ⟨positive, _⟩ := clean (by decide)
    refine follows.of_shows text (shows.move (across ?_) sameRow) rfl
    rw [width, column_eq positive]
  next => exact follows.of_shows text (shows.moveTo room) (modes_moveTo ..)
  next => exact follows.of_shows text (shows.moveTo room) (modes_moveTo ..)
  next => exact follows.of_shows text (shows.clear true _) (t.modes_clear true _)
  next => exact follows.of_shows text (shows.clear false _) (t.modes_clear false _)
  next => exact follows.of_shows text (shows.renditions room).1 (shows.renditions room).2
  next =>
    have cursor : t.cursor = { x := a.screen.column, y := a.screen.row } := by rw [← column, ← row]
    exact follows_of_shows text ⟨⟨{ shows.grounded with saved := shows.onScreen }, plain, viewed,
      attr, rows⟩, column, row⟩ (Prod.ext cursor (Prod.ext follows.showCursor follows.echo))
  next =>
    have column : t.saved.x = a.savedColumn := by rw [follows.saved]
    have row : t.saved.y = a.savedRow := by rw [follows.saved]
    exact follows.of_shows text
      ⟨⟨shows.grounded.move _, plain, viewed, attr, rows⟩, column, row⟩ rfl
  next =>
    rw [if_congr mode rfl rfl]
    split
    · exact follows_of_shows text ⟨⟨{ shows.grounded with }, plain, viewed, attr, rows⟩, column, row⟩
        (Prod.ext follows.saved (Prod.ext rfl follows.echo))
    · exact follows
  next =>
    rw [if_congr mode rfl rfl]
    split
    · exact follows_of_shows text ⟨⟨{ shows.grounded with }, plain, viewed, attr, rows⟩, column, row⟩
        (Prod.ext follows.saved (Prod.ext rfl follows.echo))
    · exact follows
  next =>
    exact follows_of_shows text ⟨⟨{ shows.grounded with }, plain, viewed, attr, rows⟩, column, row⟩
      (Prod.ext follows.saved (Prod.ext follows.showCursor rfl))
  next =>
    -- no other letter does anything on either side
    try split
    all_goals first | contradiction | exact follows

/-! ## Bytes -/

/-- Going to the next line keeps the modes. -/
theorem modes_wrapLine (t : Tty) : t.wrapLine.modes = t.modes := by
  unfold Tty.wrapLine
  split <;> rfl

/-- Scrolling keeps the modes. -/
theorem modes_scroll (t : Tty) : t.scroll.modes = t.modes := by
  unfold Tty.scroll
  split <;> rfl

/-- A byte outside an escape sequence keeps the modes. -/
theorem modes_byte (outside : t.isEsc = false) (c : UInt8) : (t.byte c).modes = t.modes := by
  unfold Tty.byte
  rw [modes_scroll, modes_wrapLine, if_neg (by rw [outside]; exact Bool.false_ne_true)]
  unfold Tty.plainByte
  split <;> rfl

/-- Outside an escape sequence it is a plain one. -/
theorem Follows.plain (follows : t.Follows a) : t.outside.Plain :=
  ⟨rfl, follows.shows.grounded.width, follows.shows.grounded.height, follows.shows.onScreen⟩

/-- The cursor is at no end of a line or of the screen. -/
theorem Follows.quiet (follows : t.Follows a) : t.wrapLine.scroll = t :=
  Tty.quiet follows.shows.grounded.width follows.shows.grounded.height follows.shows.onScreen

/-- What changes the escape sequence only. -/
theorem Follows.reread (follows : t.Follows a) {isEsc : Bool} {escInd : Nat}
    {escapeSeq : Region UInt8} {reading : Reading} (within : escapeSeq.Within ttyEscapeLen)
    (reads : ({ t with isEsc, escInd, escapeSeq } : Tty).Reads reading) :
    ({ t with isEsc, escInd, escapeSeq } : Tty).Follows { a with reading } := by
  obtain ⟨⟨grounded, plain, viewed, attr, rows⟩, column, row⟩ := follows.shows
  exact ⟨⟨⟨{ grounded with escape := within }, plain, viewed, attr, rows⟩, column, row⟩,
    follows.saved, follows.showCursor, follows.echo, reads⟩

/-- Outside an escape sequence the index into it does not matter. -/
theorem Follows.forget (follows : t.Follows a) (text : a.reading = .text) (escInd : Nat) :
    ({ t with escInd } : Tty).Follows a := by
  obtain ⟨⟨grounded, plain, viewed, attr, rows⟩, column, row⟩ := follows.shows_of_text text
  exact follows_of_shows text ⟨⟨{ grounded with }, plain, viewed, attr, rows⟩, column, row⟩
    follows.modes

/-- A terminal in an escape sequence. -/
theorem inSequence_eq {i : Nat} (escaped : t.isEsc = true) (index : t.escInd = i) :
    t.outside.inSequence i t.escapeSeq = t := by
  unfold inSequence
  rw [← escaped, ← index]
  rfl

/-- A character of an escape sequence that is no command is a parameter. -/
theorem isParameter_of_escapeChr (chr : escapeChr c = true) (ends : escapeEnd c = false) :
    isParameter c = true := by
  unfold escapeChr at chr
  rw [ends, Bool.false_or] at chr
  exact chr

/-- The parameters that are stored are read back. -/
theorem params_of_reads (reads : t.Reads (.sequence params))
    (room : params.length + 1 < ttyEscapeLen) : (t.cut t.escInd).params = params := by
  obtain ⟨_, index, _, parameters, cells⟩ := reads
  have cell (k : Nat) (below : k < params.length) :
      (t.cut t.escInd).escapeSeq.cell (1 + k) = params[k] := by
    have other : (1 + k : Int) ≠ (t.escInd : Nat) := by omega
    exact (Region.cell_write_of_ne other).trans (cells k below)
  have ends : (t.cut t.escInd).escapeSeq.cell (1 + params.length) = 0 := by
    have position : (1 + params.length : Int) = (t.escInd : Nat) := by omega
    rw [position]
    exact Region.cell_write_self ..
  have nonzero (k : Nat) (below : k < params.length) :
      (t.cut t.escInd).escapeSeq.cell (1 + k) ≠ 0 := by
    rw [cell k below]
    exact (isParameter_spec (parameters _ (List.getElem_mem below))).2.2
  rw [Tty.params, Region.text_eq_map nonzero ends (Nat.lt_sub_of_add_lt room)]
  apply List.ext_getElem
  · simp only [List.length_map, List.length_range]
  · intro k below below'
    rw [List.getElem_map, List.getElem_range]
    exact cell k below'

/-- The escape sequence that begins is inside its buffer. -/
theorem Grounded.within_opened (grounded : t.Grounded) : t.opened.Within ttyEscapeLen :=
  grounded.beginEscape.escape

/-- A byte outside an escape sequence. -/
theorem Follows.byte_text (follows : t.Follows a) (text : a.reading = .text) (c : UInt8) :
    (t.byte c).Follows (a.byte c) := by
  have shows := follows.shows_of_text text
  unfold Terminal.byte
  rw [text]
  dsimp only
  by_cases escape : c = 27
  · have plain : t.Plain :=
      ⟨shows.plain, shows.grounded.width, shows.grounded.height, shows.onScreen⟩
    rw [if_pos escape, escape, plain.byte_escape]
    exact follows.reread shows.grounded.within_opened ⟨rfl, rfl⟩
  · have shown := follows.of_shows text (shows.byte escape) (modes_byte shows.plain c)
    rw [text] at shown
    rw [if_neg escape]
    exact shown

/-- The byte behind ESC. -/
theorem Follows.byte_escape (follows : t.Follows a) (escape : a.reading = .escape) (c : UInt8) :
    (t.byte c).Follows (a.byte c) := by
  have reads := follows.reading
  rw [escape] at reads
  obtain ⟨escaped, index⟩ := reads
  have within := follows.shows.grounded.escape
  unfold Terminal.byte
  rw [escape, ← inSequence_eq escaped index]
  dsimp only
  by_cases opens : c = 91
  · rw [if_pos opens, opens, follows.plain.byte_open]
    refine follows.reread within ⟨rfl, rfl, by decide, ?_, ?_⟩
    · exact fun _ member => nomatch member
    · exact fun _ inside => nomatch inside
  · rw [if_neg opens, follows.plain.byte_unopened _ opens]
    exact follows.reread within rfl

/-- A command of the cursor has one of seven codes. -/
theorem code_of_mem {code : Nat} (byte : code < 256)
    (member : Char.ofNat code ∈ ['A', 'B', 'C', 'D', 'E', 'F', 'G']) : 65 ≤ code ∧ code ≤ 71 := by
  have codes : ∀ code < 256, Char.ofNat code ∈ ['A', 'B', 'C', 'D', 'E', 'F', 'G'] →
      65 ≤ code ∧ code ≤ 71 := by decide +kernel
  exact codes code byte member

/-- The command of an escape sequence. -/
theorem Follows.byte_command (follows : t.Follows a) (sequence : a.reading = .sequence params)
    (room : params.length + 1 < ttyEscapeLen) (ends : escapeEnd c = true)
    (clean : a.clean c = true) :
    (t.byte c).Follows (({ a with reading := .text } : Terminal).command (Char.ofNat c.toNat)
      params) := by
  have reads := follows.reading
  rw [sequence] at reads
  have read := params_of_reads reads room
  obtain ⟨escaped, index, _, parameters, _⟩ := reads
  have low : (0 : Int) ≤ t.escInd := Int.natCast_nonneg _
  have high : (t.escInd : Int) < ttyEscapeLen := Int.ofNat_lt.mpr (by omega)
  have stored : (t.escapeSeq.write t.escInd c).Within ttyEscapeLen :=
    Region.within_write.mpr ⟨⟨low, high⟩, follows.shows.grounded.escape⟩
  have cut : ((t.stored c).cut t.escInd).Follows { a with reading := .text } := by
    change Follows { t with
      isEsc := false
      escInd := t.escInd
      escapeSeq := (t.escapeSeq.write t.escInd c).write t.escInd 0 } _
    exact follows.reread (Region.within_write.mpr ⟨⟨low, high⟩, stored⟩) rfl
  have noNul : NoNul params := fun member => (isParameter_spec (parameters 0 member)).2.2 rfl
  have moved : Char.ofNat c.toNat ∈ ['A', 'B', 'C', 'D', 'E', 'F', 'G'] →
      0 ≤ parameter 1 params ∧ parameter 1 params + ttyWidth ≤ intMax := by
    intro member
    obtain ⟨least, most⟩ := code_of_mem c.toNat_lt member
    have cursor : (65 ≤ c && c ≤ 71) = true := by
      rw [Bool.and_eq_true, decide_eq_true_eq, decide_eq_true_eq, UInt8.le_iff_toNat_le,
        UInt8.le_iff_toNat_le]
      exact ⟨least, most⟩
    unfold Terminal.clean at clean
    rw [sequence] at clean
    simpa only [cursor, Bool.not_true, Bool.false_or, Bool.and_eq_true, decide_eq_true_eq] using
      clean
  have command := cut.command rfl noNul (Nat.lt_of_succ_lt room) (Char.ofNat c.toNat) moved
  have run : (t.stored c).interpretEscape = ((t.stored c).cut t.escInd).command
      (Char.ofNat c.toNat) params (parameter 1 params) := by
    rw [interpretEscape_stored, number, read]
  rw [← run] at command
  have accepted : ¬(ttyEscapeLen ≤ t.escInd ∨ escapeChr c = false) := by
    rw [escapeChr_of_escapeEnd ends]
    simp only [Bool.true_eq_false, or_false]
    omega
  have started : t.escInd ≠ 0 := by omega
  have interpreted : t.escapeByte c = { (t.stored c).interpretEscape with
      escInd := ((t.stored c).interpretEscape.escInd + 1) % ushortWidth } := by
    unfold Tty.escapeByte
    dsimp only
    rw [if_neg started, if_neg accepted, if_pos ends]
    rfl
  have followed : (t.escapeByte c).Follows
      (({ a with reading := .text } : Terminal).command (Char.ofNat c.toNat) params) := by
    rw [interpreted]
    exact command.forget (Terminal.reading_command ..) _
  unfold Tty.byte
  rw [if_pos escaped, followed.quiet]
  exact followed

/-- A parameter of an escape sequence. -/
theorem Follows.byte_parameter (follows : t.Follows a) (sequence : a.reading = .sequence params)
    (room : params.length + 1 < ttyEscapeLen) (parameter : isParameter c = true) :
    (t.byte c).Follows { a with reading := .sequence (params ++ [c]) } := by
  have reads := follows.reading
  rw [sequence] at reads
  obtain ⟨escaped, index, _, parameters, cells⟩ := reads
  have within : (t.escapeSeq.write (params.length + 1 : Nat) c).Within ttyEscapeLen :=
    Region.within_write.mpr ⟨⟨Int.natCast_nonneg _, Int.ofNat_lt.mpr room⟩,
      follows.shows.grounded.escape⟩
  rw [← inSequence_eq escaped index,
    follows.plain.byte_parameter (Nat.succ_ne_zero _) room _ parameter]
  refine follows.reread within ⟨rfl, ?_, ?_, ?_, ?_⟩
  · rw [List.length_append]
    rfl
  · rw [List.length_append]
    exact room
  · intro b member
    rcases List.mem_append.mp member with before | last
    · exact parameters b before
    · rw [List.mem_singleton.mp last]
      exact parameter
  · intro k inside
    rw [List.length_append, List.length_singleton] at inside
    by_cases before : k < params.length
    · have other : (1 + k : Int) ≠ (params.length + 1 : Nat) := by omega
      rw [List.getElem_append_left before]
      exact (Region.cell_write_of_ne other).trans (cells k before)
    · have last : k = params.length := by omega
      have here : (1 + k : Int) = (params.length + 1 : Nat) := by omega
      subst last
      rw [List.getElem_concat_length rfl, here]
      exact Region.cell_write_self ..

/-- A byte in an escape sequence. -/
theorem Follows.byte_sequence (follows : t.Follows a) (sequence : a.reading = .sequence params)
    (clean : a.clean c = true) : (t.byte c).Follows (a.byte c) := by
  have result : a.byte c =
      if params.length + 1 < ttyEscapeLen ∧ escapeChr c = true then
        if escapeEnd c then ({ a with reading := .text } : Terminal).command (Char.ofNat c.toNat)
          params
        else { a with reading := .sequence (params ++ [c]) }
      else { a with reading := .text } := by
    unfold Terminal.byte
    rw [sequence]
  rw [result]
  by_cases accepted : params.length + 1 < ttyEscapeLen ∧ escapeChr c = true
  · rw [if_pos accepted]
    by_cases ends : escapeEnd c = true
    · rw [if_pos ends]
      exact follows.byte_command sequence accepted.1 ends clean
    · rw [if_neg ends]
      exact follows.byte_parameter sequence accepted.1
        (isParameter_of_escapeChr accepted.2 (Bool.eq_false_iff.mpr ends))
  · rw [if_neg accepted]
    have reads := follows.reading
    rw [sequence] at reads
    obtain ⟨escaped, index, _⟩ := reads
    have refused : ttyEscapeLen ≤ params.length + 1 ∨ escapeChr c = false := by
      rw [not_and_or, Nat.not_lt, Bool.not_eq_true] at accepted
      exact accepted
    rw [← inSequence_eq escaped index,
      follows.plain.byte_dropped (Nat.succ_ne_zero _) _ refused]
    exact follows.reread follows.shows.grounded.escape rfl

/-- Every byte that is clean does to the terminal of the driver what it does to the terminal. -/
theorem Follows.byte (follows : t.Follows a) (clean : a.clean c = true) :
    (t.byte c).Follows (a.byte c) := by
  cases reading : a.reading with
  | text => exact follows.byte_text reading c
  | escape => exact follows.byte_escape reading c
  | sequence params => exact follows.byte_sequence reading clean

/-- Bytes one after the other. -/
theorem Follows.bytes (follows : t.Follows a) {buffer : List UInt8}
    (clean : a.cleanBytes buffer = true) : (buffer.foldl Tty.byte t).Follows (a.write buffer) := by
  induction buffer generalizing t a with
  | nil => exact follows
  | cons c buffer ih =>
    rw [Terminal.cleanBytes, Bool.and_eq_true] at clean
    exact ih (follows.byte clean.1) clean.2

/-- A call of `do_tty_write`, up to `print_tty`. -/
theorem Follows.doTtyWrite (follows : t.Follows a) {buffer : List UInt8}
    (clean : a.cleanBytes buffer = true) : (t.doTtyWrite buffer).Follows (a.write buffer) := by
  have viewed : t.viewln = t.scrln := follows.shows.viewed
  have begun : t.beginWrite = t := congrArg (fun viewln => { t with viewln }) viewed.symm
  unfold Tty.doTtyWrite
  rw [begun]
  exact follows.bytes clean

/-- `print_tty` copies the screen to the video memory, also in an escape sequence. -/
theorem Follows.printTty (follows : t.Follows a) (video : Region Nat) :
    videoRows (t.printTty video) = a.screen.rows :=
  follows.shows.printTty video

end Tty

end Nupkux
