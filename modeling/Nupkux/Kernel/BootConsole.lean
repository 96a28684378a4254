import Mathlib.Data.Int.Basic
import Nupkux.Lib.Region
import Nupkux.Lib.Transition
import Nupkux.Types

/-!
# The console at boot

Until there are terminals, `_kout` writes to the video memory itself. The cursor is two UCHARs that
a byte moves and that are brought back on the screen behind it: a column past the end of the line
goes to the next line, and below the last line the screen is scrolled, with the row for a counter.
-/

namespace Nupkux

/-- `TXT_WIDTH`. -/
def txtWidth : Nat := 80

/-- `TXT_HEIGHT`. -/
def txtHeight : Nat := 25

/-- `TAB_WIDTH`. -/
def tabWidth : Nat := 8

/-- `TXT_COL_WHITE`. -/
def txtColWhite : UInt8 := 0x07

/-- The video memory, `_cursor_pos`, and the position in the registers of the controller. -/
structure BootConsole where
  mem : Region UInt8
  x : Nat
  y : Nat
  low : Nat
  high : Nat

/-- The video memory and the local cursor of `_kout`. -/
structure KoutState where
  mem : Region UInt8
  x : Nat
  y : Nat

/-- `_ksetcursor`. -/
def BootConsole.ksetcursor (c : BootConsole) (x y : Nat) : BootConsole :=
  if x = txtWidth ∧ y = txtHeight - 1 then c
  else
    let cursor := if x = txtWidth then (0, (y + 1) % ucharWidth) else (x, y)
    let x := cursor.1
    let y := cursor.2
    if x > txtWidth ∧ y = 0 then c
    else
      let cursor := if x > txtWidth then (txtWidth - 1, y - 1) else (x, y)
      let x := cursor.1
      let y := cursor.2
      let y := if y > txtHeight then 0 else y
      let y := if y = txtHeight then y - 1 else y
      let position := (y * txtWidth + x) % ushortWidth
      { c with x, y, low := position &&& 0xFF, high := (position >>> 8) &&& 0xFF }

/-- The loop of `_kclear`, for so many cells from an index on. -/
def clearLoop (mem : Region UInt8) (i : Int) : Nat → Region UInt8
  | 0 => mem
  | cells + 1 => clearLoop ((mem.write i 32).write (i + 1) txtColWhite) (i + 2) cells

/-- `_kclear`. -/
def BootConsole.kclear (c : BootConsole) : BootConsole :=
  BootConsole.ksetcursor { c with mem := clearLoop c.mem 0 (txtWidth * txtHeight) } 0 0

/-- The loop `for (; i < end; i++) mem[i] = mem[i + distance];`, for so many turns. -/
def moveLoop (mem : Region UInt8) (i distance : Int) : Nat → Region UInt8
  | 0 => mem
  | turns + 1 => moveLoop (mem.write i (mem.cell (i + distance))) (i + 1) distance turns

/-- The loop from an index to the end of the screen. -/
def moveToEnd (mem : Region UInt8) (i : Nat) (distance : Int) : Region UInt8 :=
  moveLoop mem i distance (2 * txtHeight * txtWidth - i)

/-- The `switch` of `_kout`. -/
def KoutState.switch (s : KoutState) (c : UInt8) : KoutState :=
  if c = 10 then
    { mem := moveToEnd s.mem (2 * ((s.y + 1) * txtWidth)) (2 * s.x)
      x := 0
      y := (s.y + 1) % ucharWidth }
  else if c = 13 then { s with x := 0 }
  else if c = 9 then
    let i := tabWidth - s.x % tabWidth
    { s with x := (s.x + (i + 1)) % ucharWidth }
  else if c = 8 then
    if s.x = 0 ∧ s.y = 0 then s
    else
      let y := if s.x = 0 then s.y - 1 else s.y
      let x := if s.x = 0 then txtWidth else s.x
      let x := x - 1
      { mem := moveToEnd s.mem (2 * (y * txtWidth + x)) 2, x, y }
  else if c = 11 then { s with y := (s.y + 1) % ucharWidth }
  else if c = 12 then { s with y := (s.y + 1) % ucharWidth }
  else
    let i := 2 * (s.y * txtWidth + s.x)
    { s with mem := (s.mem.write i c).write (i + 1) txtColWhite, x := (s.x + 1) % ucharWidth }

/-- The first loop that scrolls, which copies each row from the next, for so many rows. -/
def scrollLoop (mem : Region UInt8) (y : Nat) : Nat → Region UInt8
  | 0 => mem
  | rows + 1 =>
    let mem := mem.copy (2 * (y * txtWidth)) mem (2 * ((y + 1) * txtWidth)) (2 * txtWidth)
    scrollLoop mem (y + 1) rows

/-- A column past the end of a line is one of the next line. -/
def KoutState.wrap (s : KoutState) : KoutState :=
  if s.x ≥ txtWidth then { s with x := s.x - txtWidth, y := (s.y + 1) % ucharWidth } else s

/-- The rows are moved up below the last one, and the second loop clears the last row. -/
def KoutState.scroll (s : KoutState) : KoutState :=
  if s.y ≥ txtHeight then
    let mem := scrollLoop s.mem 0 (txtHeight - 1)
    { s with
      mem := clearLoop mem (2 * ((txtHeight - 1) * txtWidth)) txtWidth
      y := txtHeight - 1 }
  else s

/-- `_kout` for a byte. -/
def KoutState.put (s : KoutState) (c : UInt8) : KoutState := (s.switch c).wrap.scroll

/-- The loop of `_kout` over the bytes. -/
def BootConsole.koutLoop (c : BootConsole) (output : List UInt8) : KoutState :=
  output.foldl KoutState.put ⟨c.mem, c.x, c.y⟩

/-- `_kout`. -/
def BootConsole.kout (c : BootConsole) (output : List UInt8) : BootConsole :=
  let s := c.koutLoop output
  BootConsole.ksetcursor { c with mem := s.mem } s.x s.y

/-- Calls of `_kout` after `_kclear`. -/
def bootConsole : TransitionSystem BootConsole (List UInt8) where
  initial c := ∃ before : BootConsole, before.mem.written = [] ∧ c = before.kclear
  step c output c' := c' = c.kout output

/-- The cursor is on the screen, and what was stored is in the video memory. -/
structure KoutState.OnScreen (s : KoutState) : Prop where
  x_lt : s.x < txtWidth
  y_lt : s.y < txtHeight
  stored : s.mem.Within (2 * txtWidth * txtHeight)

/-- The cursor that is kept is on the screen. -/
def BootConsole.OnScreen (c : BootConsole) : Prop := KoutState.OnScreen ⟨c.mem, c.x, c.y⟩

/-- The cursor that is kept, and that of the controller, are a cursor. -/
def BootConsole.HasCursor (c : BootConsole) (x y : Nat) : Prop :=
  c.x = x ∧ c.y = y ∧ c.low + 256 * c.high = y * txtWidth + x

variable {c : BootConsole} {s : KoutState} {mem : Region UInt8}

/-- Cells that are cleared. -/
theorem within_clearLoop {i : Int} {size : Nat} (cells : Nat) (safe : mem.Within size) (low : 0 ≤ i)
    (high : i + 2 * cells ≤ size) : (clearLoop mem i cells).Within size := by
  induction cells generalizing mem i with
  | zero => exact safe
  | succ cells ih =>
    refine ih (Region.within_write.mpr ⟨?_, Region.within_write.mpr ⟨?_, safe⟩⟩) ?_ ?_ <;> omega

/-- Bytes that are moved. -/
theorem within_moveLoop {i distance : Int} {size : Nat} (turns : Nat) (safe : mem.Within size)
    (low : 0 ≤ i) (high : i + turns ≤ size) : (moveLoop mem i distance turns).Within size := by
  induction turns generalizing mem i with
  | zero => exact safe
  | succ turns ih =>
    refine ih (Region.within_write.mpr ⟨?_, safe⟩) ?_ ?_ <;> omega

/-- Bytes that are moved up to the end of the screen. -/
theorem within_moveToEnd {i : Nat} {distance : Int} (safe : mem.Within (2 * txtWidth * txtHeight))
    (inside : i ≤ 2 * txtWidth * txtHeight) :
    (moveToEnd mem i distance).Within (2 * txtWidth * txtHeight) := by
  refine within_moveLoop _ safe (Int.natCast_nonneg i) ?_
  simp only [txtWidth, txtHeight] at *
  omega

/-- Rows that are copied. -/
theorem within_scrollLoop {y : Nat} (rows : Nat) (safe : mem.Within (2 * txtWidth * txtHeight))
    (inside : y + rows ≤ txtHeight) :
    (scrollLoop mem y rows).Within (2 * txtWidth * txtHeight) := by
  induction rows generalizing mem y with
  | zero => exact safe
  | succ rows ih =>
    refine ih (safe.copy ?_ ?_) (by omega)
    · exact Int.natCast_nonneg _
    · simp only [txtWidth, txtHeight] at *
      omega

/-- A column past the end of a line or a row below the last one at most. -/
structure KoutState.Beside (s : KoutState) : Prop where
  x_lt : s.x < 2 * txtWidth
  y_le : s.y ≤ txtHeight
  either : s.x < txtWidth ∨ s.y < txtHeight
  stored : s.mem.Within (2 * txtWidth * txtHeight)

/-- The `switch` leaves the screen by one column or row at most. -/
theorem KoutState.OnScreen.switch (safe : s.OnScreen) (b : UInt8) : (s.switch b).Beside := by
  obtain ⟨column, row, stored⟩ := safe
  unfold KoutState.switch
  simp only [txtWidth, txtHeight] at column row
  by_cases newline : b = 10
  · rw [if_pos newline]
    refine ⟨?_, ?_, ?_, within_moveToEnd stored ?_⟩ <;>
      simp only [txtWidth, txtHeight, ucharWidth] <;> omega
  rw [if_neg newline]
  by_cases return_ : b = 13
  · rw [if_pos return_]
    refine ⟨?_, ?_, ?_, stored⟩ <;> simp only [txtWidth, txtHeight] <;> omega
  rw [if_neg return_]
  by_cases tab : b = 9
  · rw [if_pos tab]
    refine ⟨?_, ?_, ?_, stored⟩ <;> simp only [txtWidth, txtHeight, tabWidth, ucharWidth] <;> omega
  rw [if_neg tab]
  by_cases back : b = 8
  · rw [if_pos back]
    by_cases origin : s.x = 0 ∧ s.y = 0
    · rw [if_pos origin]
      refine ⟨?_, ?_, ?_, stored⟩ <;> simp only [txtWidth, txtHeight] <;> omega
    · rw [if_neg origin]
      refine ⟨?_, ?_, ?_, within_moveToEnd stored ?_⟩ <;> simp only [txtWidth, txtHeight] <;>
        split <;> omega
  rw [if_neg back]
  by_cases vertical : b = 11
  · rw [if_pos vertical]
    refine ⟨?_, ?_, ?_, stored⟩ <;> simp only [txtWidth, txtHeight, ucharWidth] <;> omega
  rw [if_neg vertical]
  by_cases form : b = 12
  · rw [if_pos form]
    refine ⟨?_, ?_, ?_, stored⟩ <;> simp only [txtWidth, txtHeight, ucharWidth] <;> omega
  rw [if_neg form]
  refine ⟨?_, ?_, ?_, Region.within_write.mpr ⟨?_, Region.within_write.mpr ⟨?_, stored⟩⟩⟩ <;>
    simp only [txtWidth, txtHeight, ucharWidth] <;> omega

/-- The column is brought back on the screen. -/
theorem KoutState.Beside.wrap (beside : s.Beside) : s.wrap.Beside ∧ s.wrap.x < txtWidth := by
  obtain ⟨column, row, either, stored⟩ := beside
  simp only [txtWidth, txtHeight] at column row either
  unfold KoutState.wrap
  by_cases past : s.x ≥ txtWidth
  · rw [if_pos past]
    simp only [txtWidth] at past
    refine ⟨⟨?_, ?_, ?_, stored⟩, ?_⟩ <;> simp only [txtWidth, txtHeight, ucharWidth] <;> omega
  · rw [if_neg past]
    simp only [txtWidth] at past
    refine ⟨⟨?_, ?_, ?_, stored⟩, ?_⟩ <;> simp only [txtWidth, txtHeight] <;> omega

/-- The row is brought back on the screen. -/
theorem KoutState.Beside.scroll (beside : s.Beside) (column : s.x < txtWidth) :
    s.scroll.OnScreen := by
  unfold KoutState.scroll
  by_cases below : s.y ≥ txtHeight
  · rw [if_pos below]
    have last : txtHeight - 1 < txtHeight := by decide
    have moved := within_scrollLoop (y := 0) (txtHeight - 1) beside.stored (by decide)
    exact ⟨column, last, within_clearLoop _ moved (by decide) (by decide)⟩
  · rw [if_neg below]
    exact ⟨column, Nat.lt_of_not_le below, beside.stored⟩

/-- A byte keeps the cursor on the screen. -/
theorem KoutState.OnScreen.put (safe : s.OnScreen) (b : UInt8) : (s.put b).OnScreen := by
  obtain ⟨wrapped, column⟩ := (safe.switch b).wrap
  exact wrapped.scroll column

/-- So do all bytes of a call. -/
theorem BootConsole.koutLoop_onScreen (safe : c.OnScreen) (output : List UInt8) :
    (c.koutLoop output).OnScreen :=
  List.foldlRecOn output KoutState.put safe fun _ kept b _ => kept.put b

/-- The two bytes of a position. -/
theorem position_bytes {position : Nat} (small : position < ushortWidth) :
    (position &&& 0xFF) + 256 * ((position >>> 8) &&& 0xFF) = position := by
  have low : position &&& 0xFF = position % 256 := Nat.and_two_pow_sub_one_eq_mod position 8
  have high : (position >>> 8) &&& 0xFF = position / 256 % 256 := by
    rw [Nat.shiftRight_eq_div_pow]
    exact Nat.and_two_pow_sub_one_eq_mod _ 8
  rw [low, high]
  simp only [ushortWidth] at small
  omega

/-- A cursor on the screen is stored as it is. -/
theorem BootConsole.ksetcursor_eq {x y : Nat} (column : x < txtWidth) (row : y < txtHeight) :
    c.ksetcursor x y =
      { c with
        x, y
        low := (y * txtWidth + x) &&& 0xFF
        high := ((y * txtWidth + x) >>> 8) &&& 0xFF } := by
  have inLine : x ≠ txtWidth := Nat.ne_of_lt column
  have notPast : ¬x > txtWidth := Nat.lt_asymm column
  have notBelow : ¬y > txtHeight := Nat.lt_asymm row
  have above : y ≠ txtHeight := Nat.ne_of_lt row
  have small : y * txtWidth + x < ushortWidth := by
    simp only [txtWidth, txtHeight, ushortWidth] at *
    omega
  simp only [ksetcursor, inLine, notPast, notBelow, above, false_and, if_false,
    Nat.mod_eq_of_lt small]

/-- The position of a cursor on the screen is stored. -/
theorem BootConsole.ksetcursor_hasCursor {x y : Nat} (column : x < txtWidth) (row : y < txtHeight) :
    (c.ksetcursor x y).HasCursor x y := by
  have small : y * txtWidth + x < ushortWidth := by
    simp only [txtWidth, txtHeight, ushortWidth] at *
    omega
  rw [ksetcursor_eq column row]
  exact ⟨rfl, rfl, position_bytes small⟩

/-- The cursor is on the screen in every state between two calls. -/
theorem bootConsole_onScreen (reachable : bootConsole.Reachable c) : c.OnScreen := by
  refine reachable.invariant ?_ ?_
  · rintro first ⟨before, fresh, rfl⟩
    have nothing : before.mem.Within (2 * txtWidth * txtHeight) := fun i member => by
      rw [fresh] at member
      exact absurd member List.not_mem_nil
    have column : 0 < txtWidth := by decide
    have row : 0 < txtHeight := by decide
    have room :
        (0 : Int) + 2 * (txtWidth * txtHeight : Nat) ≤ (2 * txtWidth * txtHeight : Nat) := by
      simp only [txtWidth, txtHeight]
      omega
    have cleared := within_clearLoop _ nothing (Int.le_refl 0) room
    rw [BootConsole.kclear]
    generalize clearLoop before.mem 0 (txtWidth * txtHeight) = mem at cleared ⊢
    rw [BootConsole.ksetcursor_eq column row]
    exact ⟨column, row, cleared⟩
  · rintro c output next safe _ rfl
    have last := c.koutLoop_onScreen safe output
    rw [BootConsole.kout, BootConsole.ksetcursor_eq last.x_lt last.y_lt]
    exact last

/-- After each byte of each call behind `_kclear`, the cursor is on the screen and all was stored in
the video memory, and a call ends with the position of its last cursor stored. -/
theorem kout_onScreen (reachable : bootConsole.Reachable c) (output : List UInt8) :
    (∀ n, (c.koutLoop (output.take n)).OnScreen) ∧
      (c.kout output).HasCursor (c.koutLoop output).x (c.koutLoop output).y := by
  have start := bootConsole_onScreen reachable
  have last := c.koutLoop_onScreen start output
  exact ⟨fun n => c.koutLoop_onScreen start (output.take n),
    BootConsole.ksetcursor_hasCursor last.x_lt last.y_lt⟩

/-- A console that is cleared, after `"a"` and a backspace. -/
theorem kout_onScreen_backspace :
    (BootConsole.koutLoop (BootConsole.kclear ⟨{ cell := fun _ => 0 }, 0, 0, 0, 0⟩)
      [97, 8]).OnScreen :=
  (kout_onScreen (.start ⟨_, rfl, rfl⟩) [97, 8]).1 2

end Nupkux
