import Mathlib.Data.Int.Basic
import Mathlib.Data.List.Induction
import Nupkux.Drivers.Tty
import Nupkux.Lib.Transition

/-!
# Memory safety of a terminal

What a terminal writes stays inside its ring and its escape buffer as long as the cursor is on
the screen. Every byte keeps it there but for six cursor commands: their number is an `int`
that `atoi` has let wrap to a negative one, and what they compute is stored in a `char`
without the clamping that `'H'` has. `StaysOnScreen` says for which numbers nothing happens,
and a byte keeps the cursor on the screen for exactly these.
-/

namespace Nupkux

/-- A position of the screen. -/
def TtyCursor.OnScreen (cursor : TtyCursor) : Prop :=
  (0 ≤ cursor.x ∧ cursor.x < ttyWidth) ∧ 0 ≤ cursor.y ∧ cursor.y < ttyHeight

namespace Tty

/-- Memory safety after a byte: the cursor and the two line numbers are in range, and so is
every index that was written. -/
structure InBounds (t : Tty) : Prop where
  column : 0 ≤ t.cursor.x ∧ t.cursor.x < t.width
  row : 0 ≤ t.cursor.y ∧ t.cursor.y < t.height
  scrln : t.scrln < t.memlines
  viewln : t.viewln < t.memlines
  cells : t.mem.Within (t.width * t.memlines)
  escape : t.escapeSeq.Within ttyEscapeLen

/-- Everything safety needs but the place of the cursor: the saved cursor is on the screen
too, since it is restored as it is. -/
structure Grounded (t : Tty) : Prop where
  width : t.width = ttyWidth
  height : t.height = ttyHeight
  memlines : t.memlines = ttyLines
  scrln : t.scrln < ttyLines
  viewln : t.viewln < ttyLines
  saved : t.saved.OnScreen
  cells : t.mem.Within (ttyWidth * ttyLines)
  escape : t.escapeSeq.Within ttyEscapeLen

/-- The number of the escape sequence when its command comes next. -/
def number (t : Tty) : Int := parameter 1 (t.cut t.escInd).params

/-- A byte that is the command of an escape sequence. -/
def Completes (t : Tty) (c : UInt8) : Prop :=
  t.isEsc = true ∧ t.escInd ≠ 0 ∧ t.escInd < ttyEscapeLen ∧ escapeEnd c = true

/-- The numbers a cursor command takes without leaving the screen. Where the sum or the
difference is stored as it is, its low byte counts: a column past the end of the line still
wraps, and the row below the last one still scrolls. -/
def CommandStays (cmd : Char) (cursor : TtyCursor) (n : Int) : Prop :=
  match cmd with
  | 'A' | 'F' => 0 ≤ n ∨ (cursor.y - n) % ucharWidth ≤ ttyHeight
  | 'B' | 'E' => ttyHeight ≤ toInt (cursor.y + n) ∨ (cursor.y + n) % ucharWidth ≤ ttyHeight
  | 'C' => ttyWidth ≤ toInt (cursor.x + n) ∨ (cursor.x + n) % ucharWidth < 128
  | 'D' => 0 ≤ n ∨ (cursor.x - n) % ucharWidth < 128
  | 'G' => 0 ≤ n ∨ (n - 1) % ucharWidth < 128
  | _ => True

/-- A byte that does not move the cursor off the screen: it is no command, or the number of
its command is one that stays. -/
def StaysOnScreen (t : Tty) (c : UInt8) : Prop :=
  t.Completes c → CommandStays (Char.ofNat c.toNat) t.cursor t.number

variable {t : Tty} {c : UInt8} {n x y : Int}

/-- Safety is the cursor's being on the screen. -/
theorem Grounded.inBounds_iff (grounded : t.Grounded) : t.InBounds ↔ t.cursor.OnScreen := by
  constructor
  · intro safe
    have column := safe.column
    have row := safe.row
    rw [grounded.width] at column
    rw [grounded.height] at row
    exact ⟨column, row⟩
  · intro inside
    constructor
    · rw [grounded.width]
      exact inside.1
    · rw [grounded.height]
      exact inside.2
    · rw [grounded.memlines]
      exact grounded.scrln
    · rw [grounded.memlines]
      exact grounded.viewln
    · rw [grounded.width, grounded.memlines]
      exact grounded.cells
    · exact grounded.escape

/-! ## Writes -/

/-- A row of the screen is a line of the ring, counted from the first line on the screen and
past the end of the ring from its beginning. -/
theorem Grounded.pos_natCast (grounded : t.Grounded) {row : Nat} (high : row < ttyHeight)
    (x : Int) : t.pos x row = ttyWidth * ((t.scrln + row) % ttyLines : Nat) + x := by
  have scrln := grounded.scrln
  unfold pos
  rw [grounded.width, grounded.memlines]
  by_cases wraps : (t.scrln : Int) + row ≥ ttyLines
  · rw [if_pos wraps]
    have turned : (t.scrln + row) % ttyLines = t.scrln + row - ttyLines := by
      rw [Nat.mod_eq_sub_mod (by omega)]
      apply Nat.mod_eq_of_lt
      simp only [ttyHeight, ttyLines] at *
      omega
    rw [turned, Int.ofNat_sub (by omega)]
    push_cast
    rfl
  · rw [if_neg wraps, Nat.mod_eq_of_lt (by omega)]
    push_cast
    rw [Int.sub_zero]

/-- A row of the screen is a line of the ring. -/
theorem Grounded.pos_eq (grounded : t.Grounded) (low : 0 ≤ y) (high : y < ttyHeight) (x : Int) :
    ∃ line : Nat, line < ttyLines ∧ t.pos x y = ttyWidth * line + x := by
  obtain ⟨row, rfl⟩ := Int.eq_ofNat_of_zero_le low
  exact ⟨_, Nat.mod_lt _ (by decide), grounded.pos_natCast (by omega) x⟩

/-- Clearing a part of a row. -/
theorem Grounded.setCells (grounded : t.Grounded) (row : 0 ≤ y ∧ y < ttyHeight) (low : 0 ≤ x)
    (positive : 0 ≤ n) (high : x + n ≤ ttyWidth) (value : Nat) :
    (t.setCells (t.pos x y) value n).Grounded := by
  obtain ⟨line, below, position⟩ := grounded.pos_eq row.1 row.2 x
  have count : toUint n = n.toNat := by
    simp only [toUint, ttyWidth] at *
    omega
  have within : (t.mem.fill (t.pos x y) value (toUint n)).Within (ttyWidth * ttyLines) := by
    rw [position, count]
    apply grounded.cells.fill
    · simp only [ttyWidth] at *
      omega
    · simp only [ttyWidth, ttyLines] at *
      omega
  exact { grounded with cells := within }

/-- Writing a cell. -/
theorem Grounded.put (grounded : t.Grounded) (row : 0 ≤ y ∧ y < ttyHeight)
    (column : 0 ≤ x ∧ x < ttyWidth) (value : Nat) : (t.put x y value).Grounded := by
  obtain ⟨line, below, position⟩ := grounded.pos_eq row.1 row.2 x
  have within : (t.mem.write (t.pos x y) value).Within (ttyWidth * ttyLines) := by
    rw [Region.within_write, position]
    constructor
    · simp only [ttyWidth, ttyLines] at *
      omega
    · exact grounded.cells
  exact { grounded with cells := within }

/-- Cutting the escape sequence. -/
theorem Grounded.cut (grounded : t.Grounded) (low : 0 ≤ n) (high : n < ttyEscapeLen) :
    (t.cut n).Grounded :=
  { grounded with escape := Region.within_write.mpr ⟨⟨low, high⟩, grounded.escape⟩ }

/-- Moving the cursor to any place. -/
theorem Grounded.move (grounded : t.Grounded) (cursor : TtyCursor) :
    ({ t with cursor }).Grounded := { grounded with }

/-- Clearing rows of the screen. -/
theorem Grounded.clearLines (grounded : t.Grounded) {lines : List Int}
    (rows : ∀ m ∈ lines, 0 ≤ m ∧ m < ttyHeight) : (t.clearLines lines).Grounded := by
  induction lines generalizing t with
  | nil => exact grounded
  | cons m lines ih =>
    have cleared : (t.setCells (t.pos 0 m) t.blank t.width).Grounded := by
      rw [grounded.width]
      exact grounded.setCells (rows m List.mem_cons_self) (Int.le_refl 0) (by decide)
        (by decide) _
    exact ih cleared fun m member => rows m (List.mem_cons_of_mem _ member)

/-- The lines from one up to the one before another. -/
theorem mem_linesFrom {first stop m : Int} : m ∈ linesFrom first stop ↔ first ≤ m ∧ m < stop := by
  unfold linesFrom
  rw [List.mem_map]
  constructor
  · rintro ⟨k, below, rfl⟩
    rw [List.mem_range] at below
    omega
  · intro between
    exact ⟨(m - first).toNat, List.mem_range.mpr (by omega), by omega⟩

/-- `'J'` and `'K'` clear cells of the screen. -/
theorem Grounded.clear (grounded : t.Grounded) (inside : t.cursor.OnScreen) (screen : Bool)
    (n : Int) : (t.clear screen n).Grounded := by
  have column := inside.1
  have row := inside.2
  have width := grounded.width
  have height := grounded.height
  unfold Tty.clear
  split
  · have part : (t.setCells (t.pos t.cursor.x t.cursor.y) t.blank
        (t.width - t.cursor.x)).Grounded :=
      grounded.setCells row column.1 (by omega) (by omega) _
    split
    · apply part.clearLines
      intro m member
      have between : t.cursor.y + 1 ≤ m ∧ m < t.height := mem_linesFrom.mp member
      omega
    · exact part
  · split
    · have part : (t.setCells (t.pos 0 t.cursor.y) t.blank (t.cursor.x + 1)).Grounded :=
        grounded.setCells row (Int.le_refl 0) (by omega) (by omega) _
      split
      · apply part.clearLines
        intro m member
        have between : 0 ≤ m ∧ m < t.cursor.y := mem_linesFrom.mp member
        omega
      · exact part
    · split
      · split
        · apply grounded.clearLines
          intro m member
          have between := mem_linesFrom.mp member
          omega
        · rw [width]
          exact grounded.setCells row (Int.le_refl 0) (by decide) (by decide) _
      · exact grounded

/-- `'m'` cuts the parameters, which end before the escape sequence does. -/
theorem Grounded.renditions (grounded : t.Grounded) {i : Int} (low : 0 ≤ i) (param : CString)
    {params : CString} (room : i + params.length ≤ ttyEscapeLen) :
    (t.renditions param i params).Grounded := by
  induction params generalizing t i param with
  | nil => exact { grounded with }
  | cons c params ih =>
    rw [List.length_cons] at room
    unfold Tty.renditions
    split
    · apply ih _ (by omega) [] (by omega)
      have cut := grounded.cut low (by omega)
      exact { cut with }
    · exact ih grounded (by omega) _ (by omega)

/-- `'H'` and `'f'` cut the parameters at their first semicolon. -/
theorem Grounded.moveTo (grounded : t.Grounded) {params : CString}
    (room : params.length < ttyEscapeLen) (n : Int) : (t.moveTo params n).Grounded := by
  have shorter : (params.takeWhile (· ≠ 59)).length + (params.dropWhile (· ≠ 59)).length =
      params.length := by
    rw [← List.length_append, List.takeWhile_append_dropWhile]
  unfold Tty.moveTo
  dsimp only
  split
  · exact { grounded with }
  case isFalse separated =>
    have positive := List.length_pos_iff.mpr separated
    have cut := grounded.cut (n := 1 + (params.takeWhile (· ≠ 59)).length) (by omega) (by omega)
    exact { cut with }

/-! ## The cursor -/

/-- A `char` holds small numbers as they are. -/
theorem toChar_of_small (low : -128 ≤ n) (high : n < 128) : toChar n = n := by
  unfold toChar
  omega

/-- A position that `'H'` names. -/
theorem place_mem {limit : Nat} (positive : 0 < limit) (small : limit ≤ 128) (n : Int) :
    0 ≤ place n limit ∧ place n limit < limit := by
  unfold place
  split
  · rw [toChar_of_small (by omega) (by omega)]
    omega
  · split
    · rw [toChar_of_small (by omega) (by omega)]
      omega
    · rw [toChar_of_small (by omega) (by omega)]
      omega

/-- Moving up reaches a row, or the one below the last. -/
theorem back_row (row : 0 ≤ y ∧ y < ttyHeight) (n : Int) :
    (0 ≤ back y n ∧ back y n < ttyHeight + 1) ↔ 0 ≤ n ∨ (y - n) % ucharWidth ≤ ttyHeight := by
  simp only [ttyHeight] at row
  unfold back toChar
  simp only [ucharWidth, ttyHeight]
  split
  · omega
  · omega

/-- Moving down reaches a row, or the one below the last. -/
theorem forward_row (y n : Int) :
    (0 ≤ forward y n ttyHeight ∧ forward y n ttyHeight < ttyHeight + 1) ↔
      ttyHeight ≤ toInt (y + n) ∨ (y + n) % ucharWidth ≤ ttyHeight := by
  unfold forward toChar
  split
  · simp only [ucharWidth, ttyHeight] at *
    omega
  · simp only [ucharWidth, ttyHeight] at *
    omega

/-- Moving left reaches a column. -/
theorem back_column (column : 0 ≤ x ∧ x < ttyWidth) (n : Int) :
    0 ≤ back x n ↔ 0 ≤ n ∨ (x - n) % ucharWidth < 128 := by
  simp only [ttyWidth] at column
  unfold back toChar
  simp only [ucharWidth]
  split
  · omega
  · omega

/-- Moving right reaches a column, or one past the end of the line. -/
theorem forward_column (x n : Int) :
    0 ≤ forward x n ttyWidth ↔
      ttyWidth ≤ toInt (x + n) ∨ (x + n) % ucharWidth < 128 := by
  unfold forward toChar
  split
  · simp only [ucharWidth, ttyWidth] at *
    omega
  · simp only [ucharWidth, ttyWidth] at *
    omega

/-- A column that is named. -/
theorem column_nonneg (n : Int) :
    0 ≤ column n ttyWidth ↔ 0 ≤ n ∨ (n - 1) % ucharWidth < 128 := by
  unfold column toChar
  simp only [ucharWidth]
  split
  · omega
  · split
    · simp only [ttyWidth] at *
      omega
    · simp only [ttyWidth] at *
      omega

/-- The end of the line keeps the ground. -/
theorem Grounded.wrapLine (grounded : t.Grounded) : t.wrapLine.Grounded := by
  unfold Tty.wrapLine
  split
  · exact grounded.move _
  · exact grounded

/-- The ring turned by a line, with the cursor on the row it was on. -/
def turned (t : Tty) : Tty :=
  { t with
    cursor := { t.cursor with y := toChar (t.cursor.y - 1) }
    scrln := (t.scrln + 1) % ttyLines
    viewln := (t.scrln + 1) % ttyLines }

/-- Turning keeps the ground. -/
theorem Grounded.turned (grounded : t.Grounded) : t.turned.Grounded := by
  have inside : (t.scrln + 1) % ttyLines < ttyLines := Nat.mod_lt _ (by decide)
  exact { grounded with scrln := inside, viewln := inside }

/-- The end of the screen turns the ring and clears the line that comes to the screen. -/
theorem Grounded.scroll_eq (grounded : t.Grounded) (last : t.cursor.y = t.height) :
    t.scroll = t.turned.setCells (t.turned.pos 0 (ttyHeight - 1)) t.turned.blank ttyWidth := by
  have next : (if (t.scrln + 1) % ushortWidth = t.memlines then 0
      else (t.scrln + 1) % ushortWidth) = (t.scrln + 1) % ttyLines := by
    have before := grounded.scrln
    have small : (t.scrln + 1) % ushortWidth = t.scrln + 1 := by
      simp only [ttyLines, ushortWidth] at *
      omega
    rw [grounded.memlines, small]
    by_cases turn : t.scrln + 1 = ttyLines
    · rw [if_pos turn, turn, Nat.mod_self]
    · rw [if_neg turn, Nat.mod_eq_of_lt (by omega)]
  unfold Tty.scroll
  rw [if_pos last]
  dsimp only
  rw [next, ← grounded.width, ← grounded.height]
  rfl

/-- The end of the screen keeps the ground. -/
theorem Grounded.scroll (grounded : t.Grounded) : t.scroll.Grounded := by
  by_cases last : t.cursor.y = t.height
  · rw [grounded.scroll_eq last]
    apply grounded.turned.setCells
    · decide
    · exact Int.le_refl 0
    · exact Int.natCast_nonneg _
    · omega
  · unfold Tty.scroll
    rw [if_neg last]
    exact grounded

/-- Where the end of the line and the end of the screen leave a cursor. -/
def settled (cursor : TtyCursor) : TtyCursor :=
  let next := if cursor.x ≥ ttyWidth then { x := 0, y := toChar (cursor.y + 1) } else cursor
  if next.y = ttyHeight then { next with y := toChar (next.y - 1) } else next

/-- The cursor after the end of the line and the end of the screen. -/
theorem Grounded.cursor_settled (grounded : t.Grounded) :
    t.wrapLine.scroll.cursor = settled t.cursor := by
  have line : t.wrapLine.cursor =
      if t.cursor.x ≥ ttyWidth then { x := 0, y := toChar (t.cursor.y + 1) } else t.cursor := by
    unfold Tty.wrapLine
    rw [grounded.width]
    split <;> rfl
  have screen : t.wrapLine.scroll.cursor =
      if t.wrapLine.cursor.y = ttyHeight then
        { t.wrapLine.cursor with y := toChar (t.wrapLine.cursor.y - 1) }
      else t.wrapLine.cursor := by
    unfold Tty.scroll
    rw [grounded.wrapLine.height]
    split <;> rfl
  rw [screen, line]
  rfl

/-- In a column of the screen there is no end of the line, and the end of the screen brings
back the row below the last. -/
theorem onScreen_of_column (column : 0 ≤ x ∧ x < ttyWidth) (y : Int) :
    (settled { x, y }).OnScreen ↔ 0 ≤ y ∧ y < ttyHeight + 1 := by
  have positive : 0 < ttyHeight := by decide
  unfold settled
  rw [if_neg (show ¬x ≥ ttyWidth by omega)]
  dsimp only
  unfold TtyCursor.OnScreen
  by_cases below : y = ttyHeight
  · have small : (ttyHeight : Int) < 128 := by decide
    rw [if_pos below, toChar_of_small (by omega) (by omega)]
    dsimp only
    omega
  · rw [if_neg below]
    dsimp only
    omega

/-- In a row of the screen any column but a negative one comes back to the screen. -/
theorem onScreen_of_row (row : 0 ≤ y ∧ y < ttyHeight) (x : Int) :
    (settled { x, y }).OnScreen ↔ 0 ≤ x := by
  by_cases column : x < ttyWidth
  · by_cases negative : 0 ≤ x
    · rw [onScreen_of_column ⟨negative, column⟩]
      omega
    · unfold settled
      rw [if_neg (show ¬x ≥ ttyWidth by omega)]
      dsimp only
      rw [if_neg (show ¬y = ttyHeight by omega)]
      unfold TtyCursor.OnScreen
      dsimp only
      omega
  · have small : (ttyHeight : Int) < 128 := by decide
    have next : settled { x, y } = settled { x := 0, y := y + 1 } := by
      have lower : toChar (y + 1) = y + 1 := toChar_of_small (by omega) (by omega)
      unfold settled
      rw [if_pos (show x ≥ ttyWidth by omega), lower]
      rfl
    rw [next, onScreen_of_column ⟨Int.le_refl 0, Int.natCast_pos.mpr (by decide)⟩]
    omega

/-- A cursor on the screen comes to the screen. -/
theorem onScreen_settled {cursor : TtyCursor} (inside : cursor.OnScreen) :
    (settled cursor).OnScreen := (onScreen_of_row inside.2 _).mpr inside.1.1

/-! ## Bytes -/

/-- Clearing does not move the cursor. -/
@[simp] theorem cursor_clearLines (t : Tty) (lines : List Int) :
    (t.clearLines lines).cursor = t.cursor := by
  induction lines generalizing t with
  | nil => rfl
  | cons m lines ih => exact ih _

/-- Clearing does not move the cursor. -/
theorem cursor_clear (t : Tty) (screen : Bool) (n : Int) :
    (t.clear screen n).cursor = t.cursor := by
  unfold Tty.clear
  dsimp only
  split
  · split
    · exact cursor_clearLines _ _
    · rfl
  · split
    · split
      · exact cursor_clearLines _ _
      · rfl
    · split
      · split
        · exact cursor_clearLines _ _
        · rfl
      · rfl

/-- Setting the attribute does not move the cursor. -/
theorem cursor_renditions (t : Tty) (param : CString) (i : Int) (params : CString) :
    (t.renditions param i params).cursor = t.cursor := by
  induction params generalizing t param i with
  | nil => rfl
  | cons c params ih =>
    unfold Tty.renditions
    split
    · exact ih _ _ _
    · exact ih _ _ _

/-- `'H'` and `'f'` move the cursor to the screen, for any numbers. -/
theorem Grounded.onScreen_moveTo (grounded : t.Grounded) (params : CString) (n : Int) :
    (t.moveTo params n).cursor.OnScreen := by
  unfold Tty.moveTo
  dsimp only
  rw [grounded.width, grounded.height]
  exact ⟨place_mem (by decide) (by decide) _, place_mem (by decide) (by decide) _⟩

/-- A command keeps the ground, and its numbers that stay are the ones that keep the cursor on
the screen. -/
theorem Grounded.command (grounded : t.Grounded) (inside : t.cursor.OnScreen) {params : CString}
    (room : params.length < ttyEscapeLen) (cmd : Char) (n : Int) :
    (t.command cmd params n).Grounded ∧
      ((settled (t.command cmd params n).cursor).OnScreen ↔ CommandStays cmd t.cursor n) := by
  have column := inside.1
  have row := inside.2
  have stays {u : Tty} {P : Prop} (ground : u.Grounded) (on : u.cursor.OnScreen) (holds : P) :
      u.Grounded ∧ ((settled u.cursor).OnScreen ↔ P) :=
    ⟨ground, iff_of_true (onScreen_settled on) holds⟩
  have first : (0 : Int) ≤ 0 ∧ (0 : Int) < ttyWidth := ⟨Int.le_refl 0, by decide⟩
  unfold Tty.command
  dsimp only
  split
  case h_1 =>
    have ground := grounded.move { t.cursor with y := back t.cursor.y n }
    exact ⟨ground, (onScreen_of_column column _).trans (back_row row n)⟩
  case h_2 =>
    have ground := grounded.move { t.cursor with y := forward t.cursor.y n t.height }
    refine ⟨ground, (onScreen_of_column column _).trans ?_⟩
    rw [grounded.height]
    exact forward_row t.cursor.y n
  case h_3 =>
    have ground := grounded.move { t.cursor with x := forward t.cursor.x n t.width }
    refine ⟨ground, (onScreen_of_row row _).trans ?_⟩
    rw [grounded.width]
    exact forward_column t.cursor.x n
  case h_4 =>
    have ground := grounded.move { t.cursor with x := back t.cursor.x n }
    exact ⟨ground, (onScreen_of_row row _).trans (back_column column n)⟩
  case h_5 =>
    have ground := grounded.move { x := 0, y := forward t.cursor.y n t.height }
    refine ⟨ground, (onScreen_of_column first _).trans ?_⟩
    rw [grounded.height]
    exact forward_row t.cursor.y n
  case h_6 =>
    have ground := grounded.move { x := 0, y := back t.cursor.y n }
    exact ⟨ground, (onScreen_of_column first _).trans (back_row row n)⟩
  case h_7 =>
    have ground := grounded.move { t.cursor with x := Tty.column n t.width }
    refine ⟨ground, (onScreen_of_row row _).trans ?_⟩
    rw [grounded.width]
    exact column_nonneg n
  case h_8 => exact stays (grounded.moveTo room n) (grounded.onScreen_moveTo params n) trivial
  case h_9 => exact stays (grounded.moveTo room n) (grounded.onScreen_moveTo params n) trivial
  case h_10 => exact stays (grounded.clear inside true _) (by rwa [cursor_clear]) trivial
  case h_11 => exact stays (grounded.clear inside false _) (by rwa [cursor_clear]) trivial
  case h_12 =>
    exact stays (grounded.renditions Int.one_nonneg [] (by omega)) (by rwa [cursor_renditions])
      trivial
  case h_13 => exact stays { grounded with saved := inside } inside trivial
  case h_14 => exact stays (grounded.move _) grounded.saved trivial
  case h_15 =>
    split
    · exact stays { grounded with } inside trivial
    · exact stays grounded inside trivial
  case h_16 =>
    split
    · exact stays { grounded with } inside trivial
    · exact stays grounded inside trivial
  case h_17 => exact stays { grounded with } inside trivial
  case h_18 =>
    apply stays grounded inside
    unfold CommandStays
    split <;> trivial

/-- The command of the escape sequence, stored before it is interpreted. -/
def stored (t : Tty) (c : UInt8) : Tty :=
  { t with isEsc := false, escapeSeq := t.escapeSeq.write t.escInd c }

/-- The NUL that overwrites the command leaves the parameters before it. -/
theorem params_cut_stored (t : Tty) (c : UInt8) :
    ((t.stored c).cut t.escInd).params = (t.cut t.escInd).params := by
  apply Region.text_congr
  exact Function.update_idem ..

/-- The escape sequence is interpreted by the command that was stored. -/
theorem interpretEscape_stored (t : Tty) (c : UInt8) :
    (t.stored c).interpretEscape =
      ((t.stored c).cut t.escInd).command (Char.ofNat c.toNat) (t.cut t.escInd).params
        t.number := by
  have cmd : (t.stored c).escapeSeq.cell (t.stored c).escInd = c := Region.cell_write_self ..
  unfold Tty.interpretEscape
  rw [cmd]
  dsimp only
  rw [show (t.stored c).escInd = t.escInd from rfl, params_cut_stored]
  rfl

/-- The parameters end before the escape sequence does. -/
theorem length_params_lt (t : Tty) : t.params.length < ttyEscapeLen := by
  have most := Region.length_text_le t.escapeSeq 1 (ttyEscapeLen - 1)
  have positive : 0 < ttyEscapeLen := by decide
  unfold params
  omega

/-- A command is a character of an escape sequence. -/
theorem escapeChr_of_escapeEnd (ends : escapeEnd c = true) : escapeChr c = true := by
  unfold escapeChr
  rw [ends]
  rfl

/-- A byte of an escape sequence keeps the ground, and the cursor on the screen unless its
command does not stay. -/
theorem Grounded.escapeByte (grounded : t.Grounded) (inside : t.cursor.OnScreen)
    (escaped : t.isEsc = true) (c : UInt8) :
    (t.escapeByte c).Grounded ∧
      ((settled (t.escapeByte c).cursor).OnScreen ↔ t.StaysOnScreen c) := by
  have stays {u : Tty} (ground : u.Grounded) (on : u.cursor.OnScreen)
      (no : ¬t.Completes c) :
      u.Grounded ∧ ((settled u.cursor).OnScreen ↔ t.StaysOnScreen c) :=
    ⟨ground, iff_of_true (onScreen_settled on) fun completes => absurd completes no⟩
  unfold Tty.escapeByte
  dsimp only
  by_cases start : t.escInd = 0
  · rw [if_pos start]
    have no : ¬t.Completes c := fun completes => completes.2.1 start
    split
    · exact stays { grounded with } inside no
    · exact stays { grounded with } inside no
  · rw [if_neg start]
    by_cases dropped : ttyEscapeLen ≤ t.escInd ∨ escapeChr c = false
    · rw [if_pos dropped]
      refine stays { grounded with } inside ?_
      intro completes
      have accepted := escapeChr_of_escapeEnd completes.2.2.2
      have room := completes.2.2.1
      rcases dropped with full | refused
      · omega
      · rw [accepted] at refused
        cases refused
    · have room : t.escInd < ttyEscapeLen := by omega
      have low : (0 : Int) ≤ t.escInd := Int.natCast_nonneg _
      have high : (t.escInd : Int) < ttyEscapeLen := Int.ofNat_lt.mpr room
      have ground : (t.stored c).Grounded :=
        { grounded with escape := Region.within_write.mpr ⟨⟨low, high⟩, grounded.escape⟩ }
      rw [if_neg dropped]
      by_cases ends : escapeEnd c = true
      · have completes : t.Completes c := ⟨escaped, start, room, ends⟩
        have command := (ground.cut low high).command inside (length_params_lt (t.cut t.escInd))
          (Char.ofNat c.toNat) t.number
        rw [← interpretEscape_stored] at command
        rw [if_pos ends]
        refine ⟨{ command.1 with }, command.2.trans ?_⟩
        exact ⟨fun holds _ => holds, fun holds => holds completes⟩
      · rw [if_neg ends]
        exact stays { ground with } inside fun completes => ends completes.2.2.2

/-- `'\b'` goes to a column. -/
theorem backspace_mem (column : 0 ≤ x ∧ x < ttyWidth) :
    0 ≤ (if x = 0 then x else toChar (x - 1)) ∧
      (if x = 0 then x else toChar (x - 1)) < ttyWidth := by
  have small : (ttyWidth : Int) < 128 := by decide
  split
  · exact column
  · rw [toChar_of_small (by omega) (by omega)]
    omega

/-- `'\t'` goes to a column. -/
theorem Grounded.tab_mem (grounded : t.Grounded)
    (column : 0 ≤ t.cursor.x ∧ t.cursor.x < ttyWidth) :
    0 ≤ t.tab.cursor.x ∧ t.tab.cursor.x < ttyWidth := by
  have stop : toChar ((t.cursor.x + 8) % 256 / 8 * 8) = (t.cursor.x + 8) / 8 * 8 := by
    simp only [ttyWidth] at column
    unfold toChar
    omega
  unfold Tty.tab
  dsimp only
  rw [stop, grounded.width]
  split
  · decide
  · omega

/-- `'\e'` clears the escape sequence. -/
theorem Grounded.beginEscape (grounded : t.Grounded) : t.beginEscape.Grounded := by
  have cleared : (t.escapeSeq.fill 0 0 ttyEscapeLen).Within ttyEscapeLen :=
    grounded.escape.fill (Int.le_refl 0) (by decide)
  have begun : ((t.escapeSeq.fill 0 0 ttyEscapeLen).write 0 91).Within ttyEscapeLen :=
    Region.within_write.mpr ⟨by decide, cleared⟩
  exact { grounded with escape := begun }

/-- A byte outside an escape sequence keeps the ground and stays on the screen. -/
theorem Grounded.plainByte (grounded : t.Grounded) (inside : t.cursor.OnScreen) (c : UInt8) :
    (t.plainByte c).Grounded ∧ (settled (t.plainByte c).cursor).OnScreen := by
  have column := inside.1
  have row := inside.2
  have lower : toChar (t.cursor.y + 1) = t.cursor.y + 1 := by
    have small : (ttyHeight : Int) < 128 := by decide
    exact toChar_of_small (by omega) (by omega)
  have first : (0 : Int) ≤ 0 ∧ (0 : Int) < ttyWidth := ⟨Int.le_refl 0, by decide⟩
  unfold Tty.plainByte
  split
  · exact ⟨grounded, onScreen_settled inside⟩
  · exact ⟨(grounded.move _).put row (backspace_mem column) _,
      onScreen_settled ⟨backspace_mem column, row⟩⟩
  · have ground := grounded.move t.tab.cursor
    exact ⟨ground, onScreen_settled ⟨grounded.tab_mem column, row⟩⟩
  · have ground := grounded.move { x := 0, y := toChar (t.cursor.y + 1) }
    refine ⟨ground, (onScreen_of_column first _).mpr ?_⟩
    omega
  · have ground := grounded.move { t.cursor with y := toChar (t.cursor.y + 1) }
    refine ⟨ground, (onScreen_of_column column _).mpr ?_⟩
    omega
  · have ground := grounded.move { t.cursor with y := toChar (t.cursor.y + 1) }
    refine ⟨ground, (onScreen_of_column column _).mpr ?_⟩
    omega
  · exact ⟨grounded.move _, (onScreen_of_column first _).mpr ⟨row.1, by omega⟩⟩
  · exact ⟨grounded.beginEscape, onScreen_settled inside⟩
  · have ground := (grounded.put row column (t.attr ||| c.toNat)).move
      { t.cursor with x := toChar (t.cursor.x + 1) }
    refine ⟨ground, (onScreen_of_row row _).mpr ?_⟩
    have small : (ttyWidth : Int) < 128 := by decide
    rw [toChar_of_small (by omega) (by omega)]
    omega

/-- A byte keeps the ground, and the cursor on the screen exactly if its command does. -/
theorem Grounded.byte (grounded : t.Grounded) (inside : t.cursor.OnScreen) (c : UInt8) :
    (t.byte c).Grounded ∧ ((t.byte c).cursor.OnScreen ↔ t.StaysOnScreen c) := by
  unfold Tty.byte
  split
  case isTrue escaped =>
    have moved := grounded.escapeByte inside escaped c
    rw [moved.1.cursor_settled]
    exact ⟨moved.1.wrapLine.scroll, moved.2⟩
  case isFalse plain =>
    have moved := grounded.plainByte inside c
    rw [moved.1.cursor_settled]
    exact ⟨moved.1.wrapLine.scroll, iff_of_true moved.2 fun completes => absurd completes.1 plain⟩

/-- The start of a call keeps the ground. -/
theorem Grounded.beginWrite (grounded : t.Grounded) : t.beginWrite.Grounded :=
  { grounded with viewln := grounded.scrln }

/-- A new terminal has nothing written yet, and its cursors in the first cell. -/
theorem createTty_grounded (block : Tty) (nr : Nat) :
    (createTty block nr).Grounded ∧ (createTty block nr).cursor.OnScreen := by
  have home : TtyCursor.OnScreen {} := ⟨by decide, by decide⟩
  constructor
  · constructor
    · rfl
    · rfl
    · rfl
    · exact (by decide : 0 < ttyLines)
    · exact (by decide : 0 < ttyLines)
    · exact home
    · exact fun _ member => nomatch member
    · exact fun _ member => nomatch member
  · exact home

/-! ## Runs -/

/-- What happens to a terminal that is written to: `do_tty_write` is called, or it comes to
the next byte of its buffer. -/
inductive Event where
  | call
  | byte (c : UInt8)

/-- The terminal after an event. -/
def after (t : Tty) : Event → Tty
  | .call => t.beginWrite
  | .byte c => t.byte c

/-- Sequences of calls of `do_tty_write`, on a terminal as `create_tty` makes it. -/
def writes : TransitionSystem Tty Event where
  initial t := ∃ block nr, t = createTty block nr
  step t event t' := t' = t.after event

/-- Every byte stays on the screen. -/
def Stays (t : Tty) : Event → Prop
  | .call => True
  | .byte c => t.StaysOnScreen c

/-- A call is the event of the call and the ones of its bytes. -/
theorem doTtyWrite_eq_foldl (t : Tty) (buffer : List UInt8) :
    t.doTtyWrite buffer = (Event.call :: buffer.map Event.byte).foldl after t := by
  rw [List.foldl_cons, List.foldl_map]
  rfl

/-- Any events are a run. -/
theorem writes_path (t : Tty) (events : List Event) :
    writes.Path TransitionSystem.Unrestricted t events (events.foldl after t) := by
  induction events using List.reverseRecOn with
  | nil => exact .nil t
  | append_singleton events event ih =>
    rw [List.foldl_append]
    exact ih.snoc trivial rfl

/-- In every run whose bytes stay on the screen, the cursor is there. -/
theorem grounded_of_reachable (reached : writes.ReachableUnder Stays t) :
    t.Grounded ∧ t.cursor.OnScreen := by
  have start : ∀ t, writes.initial t → t.Grounded ∧ t.cursor.OnScreen := by
    rintro _ ⟨block, nr, rfl⟩
    exact createTty_grounded block nr
  have keep : ∀ t event next, t.Grounded ∧ t.cursor.OnScreen → Stays t event →
      writes.step t event next → next.Grounded ∧ next.cursor.OnScreen := by
    intro t event next safe stays step
    cases step
    cases event with
    | call => exact ⟨safe.1.beginWrite, safe.2⟩
    | byte c =>
      have kept := safe.1.byte safe.2 c
      exact ⟨kept.1, kept.2.mpr stays⟩
  exact reached.invariant start keep

/-- `do_tty_write` is safe in every run whose bytes stay on the screen, and the first byte that
does not ends the safety. -/
theorem writes_inBounds (reached : writes.ReachableUnder Stays t) :
    t.InBounds ∧ ∀ c, (t.byte c).InBounds ↔ t.StaysOnScreen c := by
  have safe := grounded_of_reachable reached
  constructor
  · exact safe.1.inBounds_iff.mpr safe.2
  · intro c
    have kept := safe.1.byte safe.2 c
    exact kept.1.inBounds_iff.trans kept.2

/-- A new terminal that has got `"\e[5"`: with the command `'C'` it is safe. -/
theorem writes_inBounds_forward :
    ((((createTty {} 0).byte 27).byte 91).byte 53).InBounds ∧
      (((((createTty {} 0).byte 27).byte 91).byte 53).byte 67).InBounds := by
  have new : writes.ReachableUnder Stays (createTty {} 0) := .start ⟨{}, 0, rfl⟩
  have escaped : writes.ReachableUnder Stays ((createTty {} 0).byte 27) :=
    new.next (show Stays _ (.byte 27) from fun completes => absurd completes.1 (by decide)) rfl
  have opened : writes.ReachableUnder Stays (((createTty {} 0).byte 27).byte 91) :=
    escaped.next (show Stays _ (.byte 91) from fun completes =>
      absurd rfl completes.2.1) rfl
  have reached : writes.ReachableUnder Stays ((((createTty {} 0).byte 27).byte 91).byte 53) :=
    opened.next (show Stays _ (.byte 53) from fun completes =>
      absurd completes.2.2.2 (by decide)) rfl
  have safe := writes_inBounds reached
  exact ⟨safe.1, (safe.2 67).mpr fun _ => Or.inr (by decide +kernel)⟩

/-- `"\e[4294967295G"`: a column that is -1 as an `int`. -/
def columnMinusOne : List UInt8 := [27, 91, 52, 50, 57, 52, 57, 54, 55, 50, 57, 53, 71]

/-- Going to the column -1 leaves the screen to the left, and the next character is written
before the cells. -/
theorem writes_offScreen :
    writes.Reachable ((createTty {} 0).doTtyWrite (columnMinusOne ++ [65])) ∧
      ((createTty {} 0).doTtyWrite (columnMinusOne ++ [65])).mem.written = [-2] ∧
      ¬((createTty {} 0).doTtyWrite columnMinusOne).InBounds ∧
      ¬((createTty {} 0).doTtyWrite (columnMinusOne ++ [65])).InBounds := by
  have outside : ((createTty {} 0).doTtyWrite (columnMinusOne ++ [65])).mem.written = [-2] := by
    decide +kernel
  refine ⟨?_, outside, ?_, ?_⟩
  · rw [doTtyWrite_eq_foldl]
    exact ⟨_, _, ⟨{}, 0, rfl⟩, writes_path _ _⟩
  · intro safe
    have column := safe.column.1
    revert column
    decide +kernel
  · intro safe
    have index : (-2 : Int) ∈
        ((createTty {} 0).doTtyWrite (columnMinusOne ++ [65])).mem.written := by
      rw [outside]
      exact List.mem_singleton_self _
    have low := (safe.cells (-2) index).1
    omega

end Tty

end Nupkux
