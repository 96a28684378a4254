import Nupkux.Drivers.TtySafety
import Nupkux.Lib.Window

/-!
# The screen

`print_tty` shows the terminal: it copies the lines of the ring that are viewed to the video
memory. The screen is what a terminal is for: rows of cells, on which a byte acts at the
cursor, and which scrolls by dropping its first row. The terminal never moves a row, it turns
its ring; what it shows is the screen all the same.
-/

namespace Nupkux

/-- `print_tty`, on the video memory; sizes are counted in cells. -/
def Tty.printTty (t : Tty) (video : Region Nat) : Region Nat :=
  let behind : Int := t.memlines - t.viewln
  if behind < t.height then
    (video.copy 0 t.mem (t.viewln * t.width) (toUint (behind * t.width))).copy
      (behind * t.width) t.mem 0 (toUint ((t.height - behind) * t.width))
  else video.copy 0 t.mem (t.viewln * t.width) (toUint (t.height * t.width))

/-- A terminal and the video memory. -/
structure Display where
  tty : Tty
  video : Region Nat
  /-- `handle == current_tty`. -/
  current : Bool

/-- `do_tty_write`. -/
def Display.doTtyWrite (d : Display) (buffer : List UInt8) : Display :=
  let tty := d.tty.doTtyWrite buffer
  { d with tty, video := if d.current then tty.printTty d.video else d.video }

/-- A screen: its rows, the place of the cursor, and the attribute of what is written. -/
structure Screen where
  rows : Vector (Vector Nat ttyWidth) ttyHeight
  row : Fin ttyHeight
  column : Fin ttyWidth
  attr : Nat

namespace Screen

/-- A new screen. -/
def new : Screen where
  rows := Vector.replicate ttyHeight (Vector.replicate ttyWidth 0)
  row := ⟨0, by decide⟩
  column := ⟨0, by decide⟩
  attr := 0x0700

/-- A blank in the current attribute. -/
def blank (s : Screen) : Nat := s.attr ||| 0x20

/-- Write the cell at the cursor. -/
def put (s : Screen) (value : Nat) : Screen :=
  { s with rows := s.rows.set s.row (s.rows[s.row].set s.column value) }

/-- The first row is dropped and a row of blanks appended. -/
def scroll (s : Screen) : Screen :=
  { s with rows := (s.rows.drop 1).push (Vector.replicate ttyWidth s.blank) }

/-- Go to the next row; the last row stays the last one. -/
def lineFeed (s : Screen) : Screen :=
  if below : s.row.val + 1 < ttyHeight then { s with row := ⟨s.row.val + 1, below⟩ } else s.scroll

/-- Go to the first column. -/
def carriageReturn (s : Screen) : Screen := { s with column := ⟨0, by decide⟩ }

/-- Go back by a column and clear it. -/
def backspace (s : Screen) : Screen :=
  let s : Screen := { s with column := ⟨s.column.val - 1, by omega⟩ }
  s.put s.blank

/-- Go to the next tab stop, or the last column. -/
def tab (s : Screen) : Screen :=
  let stop := (s.column.val + 8) / 8 * 8
  { s with column := if inside : stop < ttyWidth then ⟨stop, inside⟩ else ⟨ttyWidth - 1, by decide⟩ }

/-- Go to the next column, or to the next row behind the last one. -/
def advance (s : Screen) : Screen :=
  if inside : s.column.val + 1 < ttyWidth then { s with column := ⟨s.column.val + 1, inside⟩ }
  else s.carriageReturn.lineFeed

/-- Show a character. -/
def print (s : Screen) (c : UInt8) : Screen := (s.put (s.attr ||| c.toNat)).advance

/-- A byte that is written. -/
def byte (s : Screen) (c : UInt8) : Screen :=
  match Char.ofNat c.toNat with
  | '\x00' => s
  | '\x08' => s.backspace
  | '\t' => s.tab
  | '\n' => s.carriageReturn.lineFeed
  | '\x0b' | '\x0c' => s.lineFeed
  | '\r' => s.carriageReturn
  | _ => s.print c

/-- The bytes of a call. -/
def write (s : Screen) (buffer : List UInt8) : Screen := buffer.foldl byte s

end Screen

namespace Tty

/-- The terminal holds the rows of the screen, in the window on its ring that begins at
`scrln`, which is the one that is viewed. -/
structure Holds (t : Tty) (s : Screen) : Prop where
  grounded : t.Grounded
  plain : t.isEsc = false
  viewed : t.viewln = t.scrln
  attr : t.attr = s.attr
  rows : Window.view t.mem ttyWidth ttyLines t.scrln ttyHeight = s.rows

/-- The terminal holds the screen, with its cursor. -/
structure Shows (t : Tty) (s : Screen) : Prop extends t.Holds s where
  column : t.cursor.x = s.column
  row : t.cursor.y = s.row

variable {t : Tty} {s : Screen} {c : UInt8}

/-- The index of a cell of the screen is one of the window. -/
theorem Grounded.pos_eq_index (grounded : t.Grounded) {row : Nat} (high : row < ttyHeight)
    (column : Nat) : t.pos column row = Window.index ttyWidth ttyLines t.scrln row column := by
  rw [grounded.pos_natCast high, Window.index]
  push_cast
  rfl

/-- The blanks agree. -/
theorem Holds.blank (holds : t.Holds s) : t.blank = s.blank := by
  rw [Tty.blank, holds.attr, Screen.blank]

/-- Moving the cursor. -/
theorem Holds.move (holds : t.Holds s) (cursor : TtyCursor) : ({ t with cursor }).Holds s :=
  { holds with grounded := holds.grounded.move cursor }

/-- The cursor of a terminal that shows a screen is on the screen. -/
theorem Shows.onScreen (shows : t.Shows s) : t.cursor.OnScreen := by
  constructor
  · rw [shows.column]
    omega
  · rw [shows.row]
    omega

/-- Writing the cell at the cursor. -/
theorem Shows.put (shows : t.Shows s) (value : Nat) :
    (t.put t.cursor.x t.cursor.y value).Shows (s.put value) := by
  have position : t.pos t.cursor.x t.cursor.y =
      Window.index ttyWidth ttyLines t.scrln s.row s.column := by
    rw [shows.column, shows.row]
    exact shows.grounded.pos_eq_index s.row.isLt s.column
  have written : Window.view (t.mem.write (t.pos t.cursor.x t.cursor.y) value) ttyWidth ttyLines
      t.scrln ttyHeight = (s.put value).rows := by
    rw [position, Window.view_write (by decide) s.row.isLt s.column.isLt, shows.rows]
    rfl
  have inside := shows.onScreen
  exact { shows with
    grounded := shows.grounded.put inside.2 inside.1 value
    rows := written }

/-- Inside the line there is no end of the line. -/
theorem Grounded.wrapLine_of_lt (grounded : t.Grounded) (inside : t.cursor.x < ttyWidth) :
    t.wrapLine = t := by
  unfold Tty.wrapLine
  rw [grounded.width, if_neg (by omega)]

/-- Below the row of the screen the terminal goes on as the screen does: where the screen
scrolls, the ring is turned and its new last row cleared. -/
theorem Holds.lineFeed (holds : t.Holds s) (column : t.cursor.x = s.column)
    (row : t.cursor.y = s.row + 1) : t.scroll.Shows s.lineFeed := by
  have height := holds.grounded.height
  unfold Screen.lineFeed
  by_cases below : s.row.val + 1 < ttyHeight
  · rw [dif_pos below]
    have same : t.scroll = t := by
      unfold Tty.scroll
      rw [if_neg (by omega)]
    rw [same]
    exact { holds with column, row }
  · rw [dif_neg below]
    have last : t.cursor.y = t.height := by omega
    have turned := holds.grounded.turned
    have position : t.turned.pos 0 (ttyHeight - 1) =
        Window.index ttyWidth ttyLines (t.scrln + 1) (ttyHeight - 1) 0 := by
      rw [← Window.index_mod]
      exact turned.pos_eq_index (by decide : ttyHeight - 1 < ttyHeight) 0
    have cleared : Window.view (t.mem.fill (t.turned.pos 0 (ttyHeight - 1)) t.blank ttyWidth)
        ttyWidth ttyLines ((t.scrln + 1) % ttyLines) ttyHeight = s.scroll.rows := by
      rw [position, Window.view_mod]
      refine (Window.view_turn (by decide) t.blank).trans ?_
      rw [holds.blank]
      exact congrArg (fun rows => (Vector.drop rows 1).push (Vector.replicate ttyWidth s.blank))
        holds.rows
    have ground := holds.grounded.scroll
    have small : (ttyHeight : Int) < 128 := by decide
    have before : toChar (t.cursor.y - 1) = t.cursor.y - 1 :=
      toChar_of_small (by omega) (by omega)
    have back : toChar (t.cursor.y - 1) = s.row := by omega
    rw [holds.grounded.scroll_eq last] at ground ⊢
    exact { holds with grounded := ground, viewed := rfl, rows := cleared, column, row := back }

/-- On the screen there is neither end. -/
theorem Shows.settle (shows : t.Shows s) : t.wrapLine.scroll.Shows s := by
  have inside := shows.onScreen
  rw [shows.grounded.wrapLine_of_lt inside.1.2]
  have same : t.scroll = t := by
    unfold Tty.scroll
    rw [shows.grounded.height, if_neg (Int.ne_of_lt inside.2.2)]
  rw [same]
  exact shows

/-- `'\b'`. -/
theorem Shows.backspace (shows : t.Shows s) : t.backspace.Shows s.backspace := by
  have inside := shows.onScreen.1
  have column := shows.column
  have back : (if t.cursor.x = 0 then t.cursor.x else toChar (t.cursor.x - 1)) =
      (s.column.val - 1 : Nat) := by
    have small : (ttyWidth : Int) < 128 := by decide
    by_cases first : t.cursor.x = 0
    · rw [if_pos first]
      omega
    · have before : toChar (t.cursor.x - 1) = t.cursor.x - 1 :=
        toChar_of_small (by omega) (by omega)
      rw [if_neg first, before]
      omega
  have moved : Shows { t with
      cursor.x := if t.cursor.x = 0 then t.cursor.x else toChar (t.cursor.x - 1) }
      { s with column := ⟨s.column.val - 1, by omega⟩ } :=
    { shows.toHolds.move _ with column := back, row := shows.row }
  have cleared := moved.put t.blank
  rw [shows.blank] at cleared
  unfold Tty.backspace
  rw [shows.blank]
  exact cleared

/-- `'\t'`. -/
theorem Shows.tab (shows : t.Shows s) : t.tab.Shows s.tab := by
  have inside := shows.onScreen.1
  have stop : toChar ((t.cursor.x + 8) % 256 / 8 * 8) = ((s.column.val + 8) / 8 * 8 : Nat) := by
    have column := shows.column
    have small : (ttyWidth : Int) = 80 := rfl
    unfold toChar
    omega
  have column : (if toChar ((t.cursor.x + 8) % 256 / 8 * 8) ≥ t.width then toChar (t.width - 1)
      else toChar ((t.cursor.x + 8) % 256 / 8 * 8)) = s.tab.column := by
    unfold Screen.tab
    dsimp only
    rw [stop, shows.grounded.width]
    by_cases within : (s.column.val + 8) / 8 * 8 < ttyWidth
    · rw [if_neg (by omega), dif_pos within]
    · rw [if_pos (by omega), dif_neg within]
      rfl
  exact { shows.toHolds.move _ with column, row := shows.row }

/-- The row below, as it is stored. -/
theorem Shows.toChar_row (shows : t.Shows s) : toChar (t.cursor.y + 1) = s.row + 1 := by
  have row := shows.row
  have small : (ttyHeight : Int) < 128 := by decide
  have fits : toChar (t.cursor.y + 1) = t.cursor.y + 1 := toChar_of_small (by omega) (by omega)
  omega

/-- Going to the row below, in a column of the screen. -/
theorem Shows.lineFeed (shows : t.Shows s) {x : Int} {column : Fin ttyWidth} (same : x = column) :
    ({ t with cursor := ⟨x, toChar (t.cursor.y + 1)⟩ } : Tty).wrapLine.scroll.Shows
      ({ s with column } : Screen).lineFeed := by
  have moved := shows.toHolds.move ⟨x, toChar (t.cursor.y + 1)⟩
  have below : Holds { t with cursor := ⟨x, toChar (t.cursor.y + 1)⟩ } { s with column } :=
    { moved with }
  have inside : x < ttyWidth := by omega
  rw [below.grounded.wrapLine_of_lt inside]
  exact below.lineFeed same shows.toChar_row

/-- The character after the one at the cursor. -/
theorem Shows.advance (shows : t.Shows s) :
    ({ t with cursor := ⟨toChar (t.cursor.x + 1), t.cursor.y⟩ } : Tty).wrapLine.scroll.Shows
      s.advance := by
  have column := shows.column
  have next : toChar (t.cursor.x + 1) = s.column + 1 := by
    have small : (ttyWidth : Int) < 128 := by decide
    have fits : toChar (t.cursor.x + 1) = t.cursor.x + 1 :=
      toChar_of_small (by omega) (by omega)
    omega
  unfold Screen.advance
  by_cases within : s.column.val + 1 < ttyWidth
  · rw [dif_pos within]
    apply Shows.settle
    exact { shows.toHolds.move _ with column := next, row := shows.row }
  · rw [dif_neg within]
    have wrapped : ({ t with cursor := ⟨toChar (t.cursor.x + 1), t.cursor.y⟩ } : Tty).wrapLine =
        { t with cursor := ⟨0, toChar (t.cursor.y + 1)⟩ } := by
      unfold Tty.wrapLine
      dsimp only
      rw [shows.grounded.width, if_pos (by omega)]
    have first : ({ t with cursor := ⟨0, toChar (t.cursor.y + 1)⟩ } : Tty).wrapLine.scroll.Shows
        s.carriageReturn.lineFeed := shows.lineFeed rfl
    have inside : (0 : Int) < ttyWidth := Int.natCast_pos.mpr (by decide)
    rw [(shows.grounded.move ⟨0, toChar (t.cursor.y + 1)⟩).wrapLine_of_lt inside] at first
    rw [wrapped]
    exact first

/-- A character that is shown. -/
theorem Shows.print (shows : t.Shows s) (c : UInt8) :
    (t.print c).wrapLine.scroll.Shows (s.print c) := by
  have written := shows.put (t.attr ||| c.toNat)
  rw [shows.attr] at written
  unfold Tty.print Screen.print
  rw [shows.attr]
  exact written.advance

/-- A byte that is no ESC acts on the terminal as on the screen. -/
theorem Shows.byte (shows : t.Shows s) (other : c ≠ 27) : (t.byte c).Shows (s.byte c) := by
  unfold Tty.byte
  rw [if_neg (by rw [shows.plain]; exact Bool.false_ne_true)]
  unfold Tty.plainByte Screen.byte
  split
  next chr =>
    rw [chr]
    exact shows.settle
  next chr =>
    rw [chr]
    exact shows.backspace.settle
  next chr =>
    rw [chr]
    exact shows.tab.settle
  next chr =>
    rw [chr]
    exact shows.lineFeed rfl
  next chr =>
    rw [chr]
    exact shows.lineFeed shows.column
  next chr =>
    rw [chr]
    exact shows.lineFeed shows.column
  next chr =>
    rw [chr]
    apply Shows.settle
    exact { shows.toHolds.move _ with column := rfl, row := shows.row }
  next chr =>
    have codes : ∀ code < 256, Char.ofNat code = '\x1b' → code = 27 := by decide +kernel
    exact absurd (UInt8.toNat_inj.mp (codes c.toNat c.toNat_lt chr)) other
  next =>
    split
    all_goals first | contradiction | exact shows.print c

/-- Bytes that are no ESC act on the terminal as on the screen. -/
theorem Shows.bytes (shows : t.Shows s) {buffer : List UInt8} (plain : 27 ∉ buffer) :
    (buffer.foldl Tty.byte t).Shows (buffer.foldl Screen.byte s) := by
  induction buffer generalizing t s with
  | nil => exact shows
  | cons c buffer ih =>
    have other : c ≠ 27 := fun escape => plain (escape ▸ List.mem_cons_self)
    exact ih (shows.byte other) fun member => plain (List.mem_cons_of_mem _ member)

/-- A call whose bytes are no ESC, up to `print_tty`. -/
theorem Shows.doTtyWrite (shows : t.Shows s) {buffer : List UInt8} (plain : 27 ∉ buffer) :
    (t.doTtyWrite buffer).Shows (s.write buffer) := by
  have begun : t.beginWrite.Shows s :=
    { shows with grounded := shows.grounded.beginWrite, viewed := rfl }
  exact begun.bytes plain

/-- A new terminal shows a new screen. -/
theorem createTty_shows (block : Tty) (nr : Nat) : (createTty block nr).Shows Screen.new := by
  constructor
  · constructor
    · exact (createTty_grounded block nr).1
    · rfl
    · rfl
    · rfl
    · apply Window.view_ext
      intro row inside column within
      unfold Screen.new
      rw [Vector.getElem_replicate, Vector.getElem_replicate]
      rfl
  · rfl
  · rfl

/-- A small number of cells is a `size_t`. -/
theorem toUint_natCast {n : Nat} (small : n < uintWidth) : toUint n = n := by
  unfold toUint
  simp only [uintWidth] at small
  omega

/-- `print_tty` copies the rows of the screen to the video memory. -/
theorem Shows.printTty (shows : t.Shows s) (video : Region Nat) :
    Window.view (t.printTty video) ttyWidth ttyHeight 0 ttyHeight = s.rows := by
  have scrln := shows.grounded.scrln
  have origin : (t.scrln * ttyWidth : Int) = (t.scrln * ttyWidth : Nat) := by push_cast; rfl
  have small {n : Nat} (few : n ≤ ttyLines) : n * ttyWidth < uintWidth := by
    simp only [ttyWidth, ttyLines, uintWidth] at *
    omega
  rw [← shows.rows]
  unfold Tty.printTty
  rw [shows.grounded.memlines, shows.grounded.height, shows.grounded.width, shows.viewed]
  dsimp only
  by_cases wraps : (ttyLines : Int) - t.scrln < ttyHeight
  · rw [if_pos wraps]
    have behind : (ttyLines : Int) - t.scrln = (ttyLines - t.scrln : Nat) := by omega
    have rest : (ttyHeight : Int) - (ttyLines - t.scrln : Nat) =
        (ttyHeight - (ttyLines - t.scrln) : Nat) := by omega
    have first : ttyLines - t.scrln ≤ ttyLines := Nat.sub_le ..
    have second : ttyHeight - (ttyLines - t.scrln) ≤ ttyLines :=
      Nat.le_trans (Nat.sub_le ..) (by decide)
    rw [behind, rest, origin, ← Int.natCast_mul, ← Int.natCast_mul,
      toUint_natCast (small first), toUint_natCast (small second)]
    exact Window.view_copy_wrapped scrln (by omega) (by decide)
  · rw [if_neg wraps, origin, ← Int.natCast_mul, toUint_natCast (by decide)]
    exact Window.view_copy (by omega)

end Tty

/-- The rows of cells that are in the video memory. -/
def videoRows (video : Region Nat) : Vector (Vector Nat ttyWidth) ttyHeight :=
  Window.view video ttyWidth ttyHeight 0 ttyHeight

/-- Calls of `do_tty_write`. -/
def Display.writes (d : Display) (calls : List (List UInt8)) : Display :=
  calls.foldl Display.doTtyWrite d

/-- The calls on the screen. -/
def Screen.writes (s : Screen) (calls : List (List UInt8)) : Screen := calls.foldl Screen.write s

/-- Calls whose bytes are no ESC keep showing the screen. -/
theorem Display.writes_shows {d : Display} {s : Screen} (shows : d.tty.Shows s)
    {calls : List (List UInt8)} (plain : ∀ buffer ∈ calls, 27 ∉ buffer) :
    (d.writes calls).tty.Shows (s.writes calls) := by
  induction calls generalizing d s with
  | nil => exact shows
  | cons buffer calls ih =>
    apply ih (d := d.doTtyWrite buffer) (s := s.write buffer)
    · exact shows.doTtyWrite (plain buffer List.mem_cons_self)
    · exact fun later member => plain later (List.mem_cons_of_mem _ member)

/-- Writing does not make another terminal the current one. -/
theorem Display.current_writes (d : Display) (calls : List (List UInt8)) :
    (d.writes calls).current = d.current := by
  induction calls generalizing d with
  | nil => rfl
  | cons buffer calls ih => exact ih (d.doTtyWrite buffer)

/-- After each call on the current terminal the video memory shows the screen the calls have
written, and the cursors agree. -/
theorem Display.refines_screen (block : Tty) (nr : Nat) (video : Region Nat)
    (calls : List (List UInt8)) (last : List UInt8)
    (plain : ∀ buffer ∈ calls ++ [last], 27 ∉ buffer) :
    let d := Display.writes ⟨createTty block nr, video, true⟩ (calls ++ [last])
    let s := Screen.new.writes (calls ++ [last])
    videoRows d.video = s.rows ∧ d.tty.cursor = { x := s.column, y := s.row } := by
  intro d s
  have shows : d.tty.Shows s := Display.writes_shows (Tty.createTty_shows block nr) plain
  have printed : d.video =
      d.tty.printTty (Display.writes ⟨createTty block nr, video, true⟩ calls).video := by
    have split : d =
        (Display.writes ⟨createTty block nr, video, true⟩ calls).doTtyWrite last := by
      exact List.foldl_append ..
    rw [split]
    unfold Display.doTtyWrite
    dsimp only
    rw [Display.current_writes, if_pos rfl]
  constructor
  · rw [printed]
    exact shows.printTty _
  · have column := shows.column
    have row := shows.row
    rw [← column, ← row]

/-- A word, more new lines than the screen has rows, and a letter. -/
def scrollingCalls : List (List UInt8) := [72, 101, 108, 108, 111] :: List.replicate 30 [13, 10]

/-- On a new terminal these calls scroll the word away. -/
theorem Display.refines_screen_scrolled :
    (∀ buffer ∈ scrollingCalls ++ [[33]], 27 ∉ buffer) ∧
    videoRows (Display.writes ⟨createTty {} 0, { cell := fun _ => 0 }, true⟩
        (scrollingCalls ++ [[33]])).video = (Screen.new.writes (scrollingCalls ++ [[33]])).rows ∧
    (Display.writes ⟨createTty {} 0, { cell := fun _ => 0 }, true⟩
        (scrollingCalls ++ [[33]])).tty.cursor = { x := 1, y := 24 } := by
  have plain : ∀ buffer ∈ scrollingCalls ++ [[33]], 27 ∉ buffer := by decide
  have column : (Screen.new.writes (scrollingCalls ++ [[33]])).column.val = 1 := by decide +kernel
  have row : (Screen.new.writes (scrollingCalls ++ [[33]])).row.val = 24 := by decide +kernel
  obtain ⟨shown, cursor⟩ :=
    Display.refines_screen {} 0 { cell := fun _ => 0 } scrollingCalls [33] plain
  rw [column, row] at cursor
  exact ⟨plain, shown, cursor⟩

end Nupkux
