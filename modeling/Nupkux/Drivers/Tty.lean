import Nupkux.Lib.Region
import Nupkux.Strings

/-!
# Terminals

The console driver `tty.c`: a terminal is a ring of `memlines` lines in memory, `scrln` is the
line of the ring that is the first one on the screen. The cells of the ring and the buffer of
an escape sequence are regions, so that a write outside them is seen. An `int` is an integer
that is wrapped where the code compares it; storing into a `char` keeps its low byte, so a
sum that is only stored needs no wrapping of its own.
-/

namespace Nupkux

/-- `TTY_WIDTH`. -/
def ttyWidth : Nat := 80

/-- `TTY_HEIGHT`. -/
def ttyHeight : Nat := 25

/-- `TTY_LINES`. -/
def ttyLines : Nat := 75

/-- `TTY_ESCAPE_LEN`. -/
def ttyEscapeLen : Nat := 128

/-- `TTY_INBUF_LEN`. -/
def ttyInbufLen : Nat := 16

/-- `tty_cursor`. -/
structure TtyCursor where
  x : Int := 0
  y : Int := 0
  deriving DecidableEq, Repr, Inhabited

/-- `struct _tty`. The field `_cursor` is `saved`. -/
structure Tty where
  isEsc : Bool := false
  showCursor : Bool := false
  echo : Bool := false
  nr : Nat := 0
  width : Nat := 0
  height : Nat := 0
  memlines : Nat := 0
  viewln : Nat := 0
  scrln : Nat := 0
  escInd : Nat := 0
  attr : Nat := 0
  mem : Region Nat := { cell := fun _ => 0 }
  inS : Nat := 0
  inE : Nat := 0
  dev : Nat := 0
  cursor : TtyCursor := {}
  saved : TtyCursor := {}
  inputBuffer : Nat → Nat := fun _ => 0
  escapeSeq : Region UInt8 := { cell := fun _ => 0 }

/-- `create_tty`, on a block that holds anything. -/
def createTty (block : Tty) (nr : Nat) : Tty :=
  { block with
    cursor := {}
    saved := {}
    height := ttyHeight
    width := ttyWidth
    memlines := ttyLines
    viewln := 0
    scrln := 0
    attr := 0x0700
    nr := nr % 32
    isEsc := false
    showCursor := false
    mem := { cell := fun _ => 0 }
    inE := 0
    inS := 0
    echo := false
    dev := 0
    escapeSeq := { block.escapeSeq with written := [] } }

/-- `is_digit`. -/
def isDigit (c : UInt8) : Bool := 48 ≤ c && c ≤ 57

/-- `TTY_ESCAPE_END`. -/
def escapeEnd (c : UInt8) : Bool := 0x40 < c && c < 0x7E

/-- `TTY_ESCAPE_CHR`. -/
def escapeChr (c : UInt8) : Bool := escapeEnd c || c == 59 || c == 63 || isDigit c

/-- `atoi`: the digits of a string, the other characters skipped. -/
def atoi (str : CString) : Int :=
  str.foldl (fun res c => if isDigit c then toInt (10 * res + (c.toNat - 48)) else res) 0

/-- The number an empty parameter stands for, or else what it reads as. -/
def parameter (empty : Int) (params : CString) : Int :=
  if params = [] then empty else atoi params

/-- `ansi_col_map`. -/
def ansiColMap (n : Nat) : Nat := [0, 4, 2, 6, 1, 5, 3, 7].getD n 0

/-- `tty_select_graphic_rendition`, on the attribute of the terminal. -/
def selectGraphicRendition (attr : Nat) (n : Int) : Nat :=
  let fg := (attr >>> 8) % 256
  let bg := (attr >>> 12) % 256
  let (fg, bg) :=
    if n = 0 then (7, 0)
    else if 30 ≤ n ∧ n ≤ 37 then (ansiColMap (n - 30).toNat, bg)
    else if n = 39 then (7, bg)
    else if 40 ≤ n ∧ n ≤ 47 then (fg, ansiColMap (n - 40).toNat)
    else if n = 49 then (fg, 0)
    else if 90 ≤ n ∧ n ≤ 97 then (ansiColMap (n - 90).toNat ||| 8, bg)
    else if n = 99 then (7 ||| 8, bg)
    else if 100 ≤ n ∧ n ≤ 107 then (fg, ansiColMap (n - 100).toNat ||| 8)
    else if n = 109 then (fg, 0 ||| 8)
    else (fg, bg)
  ((bg <<< 12) ||| (fg <<< 8)) % ushortWidth

namespace Tty

/-- `TTY_POS`: the index of a cell of the screen in the ring. -/
def pos (t : Tty) (x y : Int) : Int :=
  t.width * (t.scrln + y - (if t.scrln + y ≥ t.memlines then (t.memlines : Int) else 0)) + x

/-- `memsetw(mem + start, value, count)`; the count is a `size_t`. -/
def setCells (t : Tty) (start : Int) (value : Nat) (count : Int) : Tty :=
  { t with mem := t.mem.fill start value (toUint count) }

/-- `attr | 0x20`. -/
def blank (t : Tty) : Nat := t.attr ||| 0x20

/-- Moving back by a parameter: `(n >= position) ? 0 : position - n`. -/
def back (position n : Int) : Int := if n ≥ position then 0 else toChar (position - n)

/-- Moving on by a parameter: `(position + n >= limit) ? limit - 1 : position + n`. -/
def forward (position n : Int) (limit : Nat) : Int :=
  if toInt (position + n) ≥ limit then toChar (limit - 1) else toChar (position + n)

/-- `'G'`: the column a parameter names. -/
def column (n : Int) (width : Nat) : Int :=
  toChar ((if n = 0 then 1 else if n > width then (width : Int) else n) - 1)

/-- `'H'`: a parameter brought between 1 and a limit, counted from 0. -/
def place (n : Int) (limit : Nat) : Int :=
  toChar ((if n < 1 then 1 else if n > limit then (limit : Int) else n) - 1)

/-- Write a NUL into the escape sequence. -/
def cut (t : Tty) (i : Int) : Tty := { t with escapeSeq := t.escapeSeq.write i 0 }

/-- `'H'` and `'f'`: move the cursor. The parameters start at index 1. -/
def moveTo (t : Tty) (params : CString) (n : Int) : Tty :=
  let before := params.takeWhile (· ≠ 59)
  let sep := params.dropWhile (· ≠ 59)
  let t' := if sep = [] then t else t.cut (1 + before.length)
  let n := if sep = [] then n else parameter 1 before
  let m := if sep = [] then 1 else parameter 1 sep.tail
  { t' with cursor := ⟨place n t.width, place m t.height⟩ }

/-- The lines from one up to the one before another. -/
def linesFrom (first stop : Int) : List Int :=
  (List.range (stop - first).toNat).map fun k : Nat => first + k

/-- Clear whole lines of the screen. -/
def clearLines (t : Tty) (lines : List Int) : Tty :=
  lines.foldl (fun t m => t.setCells (t.pos 0 m) t.blank t.width) t

/-- `'J'` and `'K'`: clear a part of the screen or of the line. -/
def clear (t : Tty) (screen : Bool) (n : Int) : Tty :=
  if n = 0 then
    let t := t.setCells (t.pos t.cursor.x t.cursor.y) t.blank (t.width - t.cursor.x)
    if screen then t.clearLines (linesFrom (t.cursor.y + 1) t.height) else t
  else if n = 1 then
    let t := t.setCells (t.pos 0 t.cursor.y) t.blank (t.cursor.x + 1)
    if screen then t.clearLines (linesFrom 0 t.cursor.y) else t
  else if n = 2 then
    if screen then t.clearLines (linesFrom 0 t.height)
    else t.setCells (t.pos 0 t.cursor.y) t.blank t.width
  else t

/-- `'m'`: every parameter up to a semicolon, which is overwritten, and the last one. The
index is the one of the first character in the escape sequence. -/
def renditions (t : Tty) (param : CString) (i : Int) : CString → Tty
  | [] => { t with attr := selectGraphicRendition t.attr (atoi param) }
  | c :: params =>
    if c = 59 then
      renditions { t.cut i with attr := selectGraphicRendition t.attr (atoi param) } [] (i + 1)
        params
    else renditions t (param ++ [c]) (i + 1) params

/-- The parameters of the escape sequence, once its command is overwritten. -/
def params (t : Tty) : CString := t.escapeSeq.text 1 (ttyEscapeLen - 1)

/-- `"?25"`. -/
def cursorMode : CString := [63, 50, 53]

/-- The commands of `tty_interpret_escape`. The number is the whole parameter string read as
one, or 1 when it is empty. -/
def command (t : Tty) (cmd : Char) (params : CString) (n : Int) : Tty :=
  let cursor := t.cursor
  match cmd with
  | 'A' => { t with cursor := { cursor with y := back cursor.y n } }
  | 'B' => { t with cursor := { cursor with y := forward cursor.y n t.height } }
  | 'C' => { t with cursor := { cursor with x := forward cursor.x n t.width } }
  | 'D' => { t with cursor := { cursor with x := back cursor.x n } }
  | 'E' => { t with cursor := { x := 0, y := forward cursor.y n t.height } }
  | 'F' => { t with cursor := { x := 0, y := back cursor.y n } }
  | 'G' => { t with cursor := { cursor with x := column n t.width } }
  | 'H' | 'f' => t.moveTo params n
  | 'J' => t.clear true (parameter 0 params)
  | 'K' => t.clear false (parameter 0 params)
  | 'm' => t.renditions [] 1 params
  | 's' => { t with saved := cursor }
  | 'u' => { t with cursor := t.saved }
  | 'l' => if compareStrings params cursorMode = 0 then { t with showCursor := false } else t
  | 'h' => if compareStrings params cursorMode = 0 then { t with showCursor := true } else t
  | 'e' => { t with echo := n ≠ 0 }
  | _ => t

/-- `tty_interpret_escape`. -/
def interpretEscape (t : Tty) : Tty :=
  let cmd := t.escapeSeq.cell t.escInd
  let t := t.cut t.escInd
  t.command (Char.ofNat cmd.toNat) t.params (parameter 1 t.params)

/-- A byte of an escape sequence, in the loop of `do_tty_write`. -/
def escapeByte (t : Tty) (c : UInt8) : Tty :=
  let t' :=
    if t.escInd = 0 then if c ≠ 91 then { t with isEsc := false } else t
    else if ttyEscapeLen ≤ t.escInd ∨ escapeChr c = false then { t with isEsc := false }
    else
      let t := { t with escapeSeq := t.escapeSeq.write t.escInd c }
      if escapeEnd c then interpretEscape { t with isEsc := false } else t
  { t' with escInd := (t'.escInd + 1) % ushortWidth }

/-- Write a cell of the screen. -/
def put (t : Tty) (x y : Int) (value : Nat) : Tty :=
  { t with mem := t.mem.write (t.pos x y) value }

/-- `'\b'`. -/
def backspace (t : Tty) : Tty :=
  let x := if t.cursor.x = 0 then t.cursor.x else toChar (t.cursor.x - 1)
  ({ t with cursor.x := x }).put x t.cursor.y t.blank

/-- `'\t'`. -/
def tab (t : Tty) : Tty :=
  let x := toChar ((t.cursor.x + 8) % 256 / 8 * 8)
  { t with cursor.x := if x ≥ t.width then toChar (t.width - 1) else x }

/-- `'\e'`: an escape sequence begins. -/
def beginEscape (t : Tty) : Tty :=
  { t with
    isEsc := true
    escInd := 0
    escapeSeq := (t.escapeSeq.fill 0 0 ttyEscapeLen).write 0 91 }

/-- A character that is shown, at the cursor. -/
def print (t : Tty) (c : UInt8) : Tty :=
  { t.put t.cursor.x t.cursor.y (t.attr ||| c.toNat) with
    cursor.x := toChar (t.cursor.x + 1) }

/-- A byte outside an escape sequence, in the loop of `do_tty_write`. -/
def plainByte (t : Tty) (c : UInt8) : Tty :=
  match Char.ofNat c.toNat with
  | '\x00' => t
  | '\x08' => t.backspace
  | '\t' => t.tab
  | '\n' => { t with cursor := { x := 0, y := toChar (t.cursor.y + 1) } }
  | '\x0b' | '\x0c' => { t with cursor.y := toChar (t.cursor.y + 1) }
  | '\r' => { t with cursor.x := 0 }
  | '\x1b' => t.beginEscape
  | _ => t.print c

/-- The end of the line: the cursor goes to the next one. -/
def wrapLine (t : Tty) : Tty :=
  if t.cursor.x ≥ t.width then { t with cursor := { x := 0, y := toChar (t.cursor.y + 1) } } else t

/-- The end of the screen: the ring is turned by a line, which is cleared. -/
def scroll (t : Tty) : Tty :=
  if t.cursor.y = t.height then
    let next := (t.scrln + 1) % ushortWidth
    let scrln := if next = t.memlines then 0 else next
    let t := { t with cursor.y := toChar (t.cursor.y - 1), scrln, viewln := scrln }
    t.setCells (t.pos 0 (t.height - 1)) t.blank t.width
  else t

/-- One turn of the loop of `do_tty_write`. -/
def byte (t : Tty) (c : UInt8) : Tty :=
  (if t.isEsc then t.escapeByte c else t.plainByte c).wrapLine.scroll

/-- The start of `do_tty_write`: the view goes back to the screen. -/
def beginWrite (t : Tty) : Tty := { t with viewln := t.scrln }

/-- `do_tty_write`, up to `print_tty`. -/
def doTtyWrite (t : Tty) (buffer : List UInt8) : Tty := buffer.foldl byte t.beginWrite

/-- What output on a terminal never changes: its size and its input. -/
def setup (t : Tty) : (Nat × Nat × Nat) × (Nat × Nat) × (Nat → Nat) × Nat × Nat :=
  ((t.width, t.height, t.memlines), (t.nr, t.dev), t.inputBuffer, t.inS, t.inE)

variable {t : Tty} {c : UInt8} {n : Int}

/-- Clearing lines is output. -/
@[simp] theorem setup_clearLines (t : Tty) (lines : List Int) :
    (t.clearLines lines).setup = t.setup := by
  induction lines generalizing t with
  | nil => rfl
  | cons m lines ih => exact ih _

/-- Clearing is output. -/
@[simp] theorem setup_clear (t : Tty) (screen : Bool) (n : Int) :
    (t.clear screen n).setup = t.setup := by
  unfold clear
  split
  · split
    · exact setup_clearLines _ _
    · rfl
  · split
    · split
      · exact setup_clearLines _ _
      · rfl
    · split
      · split
        · exact setup_clearLines _ _
        · rfl
      · rfl

/-- Moving the cursor is output. -/
@[simp] theorem setup_moveTo (t : Tty) (params : CString) (n : Int) :
    (t.moveTo params n).setup = t.setup := by
  unfold moveTo
  dsimp only
  split <;> rfl

/-- Setting the attribute is output. -/
@[simp] theorem setup_renditions (t : Tty) (param : CString) (i : Int) (params : CString) :
    (t.renditions param i params).setup = t.setup := by
  induction params generalizing t param i with
  | nil => rfl
  | cons c params ih =>
    unfold renditions
    split
    · exact ih _ _ _
    · exact ih _ _ _

/-- A command of an escape sequence is output. -/
@[simp] theorem setup_command (t : Tty) (cmd : Char) (params : CString) (n : Int) :
    (t.command cmd params n).setup = t.setup := by
  unfold command
  dsimp only
  split
  case h_8 => exact setup_moveTo ..
  case h_9 => exact setup_moveTo ..
  case h_10 => exact setup_clear ..
  case h_11 => exact setup_clear ..
  case h_12 => exact setup_renditions ..
  case h_15 => split <;> rfl
  case h_16 => split <;> rfl
  all_goals rfl

/-- A byte of an escape sequence is output. -/
theorem setup_escapeByte (t : Tty) (c : UInt8) : (t.escapeByte c).setup = t.setup := by
  unfold escapeByte
  dsimp only
  split
  · split <;> rfl
  · split
    · rfl
    · split
      · exact setup_command ..
      · rfl

/-- A plain byte is output. -/
theorem setup_plainByte (t : Tty) (c : UInt8) : (t.plainByte c).setup = t.setup := by
  unfold plainByte
  split <;> rfl

/-- Going to the next line is output. -/
theorem setup_wrapLine (t : Tty) : t.wrapLine.setup = t.setup := by
  unfold wrapLine
  split <;> rfl

/-- Scrolling is output. -/
theorem setup_scroll (t : Tty) : t.scroll.setup = t.setup := by
  unfold scroll
  split <;> rfl

/-- A byte is output. -/
theorem setup_byte (t : Tty) (c : UInt8) : (t.byte c).setup = t.setup := by
  unfold byte
  rw [setup_scroll, setup_wrapLine]
  split
  · exact setup_escapeByte t c
  · exact setup_plainByte t c

/-- Writing to a terminal changes neither its size nor its input. -/
theorem setup_doTtyWrite (t : Tty) (buffer : List UInt8) :
    (t.doTtyWrite buffer).setup = t.setup := by
  have bytes (u : Tty) : (buffer.foldl byte u).setup = u.setup := by
    induction buffer generalizing u with
    | nil => rfl
    | cons c buffer ih =>
      rw [List.foldl_cons, ih]
      exact setup_byte u c
  exact bytes t.beginWrite

end Tty

end Nupkux
