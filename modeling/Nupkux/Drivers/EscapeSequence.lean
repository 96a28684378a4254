import Nupkux.Drivers.TtySafety

/-!
# Escape sequences

`do_tty_write` takes the bytes after an `'\e'` one at a time, over as many calls as they come in.
A sequence is `'['`, parameters and a command; what does not continue one ends it and is dropped.
The calls of `tty_interpret_escape` are recorded with the parameters and the command they get.
After a command the end of the line and the end of the screen come as after any byte, and a cursor
that a command has moved off the screen may scroll it.
-/

namespace Nupkux

namespace Tty

/-- A digit, a semicolon or a question mark. -/
def isParameter (c : UInt8) : Bool := c == 59 || c == 63 || isDigit c

/-- The parameters and the command `tty_interpret_escape` gets. -/
def interpretation (t : Tty) : CString × UInt8 :=
  ((t.cut t.escInd).params, t.escapeSeq.cell t.escInd)

/-- The calls of `tty_interpret_escape` for a byte: the branch of `escapeByte` that has one. -/
def callsOf (t : Tty) (c : UInt8) : List (CString × UInt8) :=
  if t.isEsc = true ∧ t.escInd ≠ 0 ∧ ¬(ttyEscapeLen ≤ t.escInd ∨ escapeChr c = false) ∧
      escapeEnd c = true then
    [(t.stored c).interpretation]
  else []

/-- The calls for some bytes. -/
def callsOfBytes (t : Tty) : List UInt8 → List (CString × UInt8)
  | [] => []
  | c :: bytes => t.callsOf c ++ (t.byte c).callsOfBytes bytes

/-- The calls while a terminal is written to. -/
def callsIn (t : Tty) : List Event → List (CString × UInt8)
  | [] => []
  | .call :: events => t.beginWrite.callsIn events
  | .byte c :: events => t.callsOf c ++ (t.byte c).callsIn events

/-- The bytes that are written in some calls of `do_tty_write`. -/
def bytesOf (events : List Event) : List UInt8 :=
  events.filterMap fun event => match event with
    | .call => none
    | .byte c => some c

/-- Bytes stored one after the other. -/
def store (r : Region UInt8) (i : Nat) : List UInt8 → Region UInt8
  | [] => r
  | c :: bytes => store (r.write i c) (i + 1) bytes

/-- The escape sequence after `'\e'` and `'['`. -/
def opened (t : Tty) : Region UInt8 := (t.escapeSeq.fill 0 0 ttyEscapeLen).write 0 91

/-- The terminal in an escape sequence, with so many bytes of it. -/
def inSequence (t : Tty) (escInd : Nat) (escapeSeq : Region UInt8) : Tty :=
  { t with isEsc := true, escInd, escapeSeq }

/-- The terminal as `tty_interpret_escape` gets it after a whole sequence. -/
def loaded (t : Tty) (p : CString) (f : UInt8) : Tty :=
  { t with
    isEsc := false
    escInd := p.length + 1
    escapeSeq := (store t.opened 1 p).write ((p.length + 1 : Nat) : Int) f }

/-- `'\e'`, `'['`, the parameters and the command are taken for a sequence: there is one call, and
nothing else is drawn. -/
structure Recognised (t : Tty) (events : List Event) (p : CString) (f : UInt8) : Prop where
  calls : t.callsIn events = [(p, f)]
  ended : (events.foldl after t).isEsc = false
  cells : (events.foldl after t).mem = (t.loaded p f).interpretEscape.mem
  lines : (events.foldl after t).scrln = (t.loaded p f).interpretEscape.scrln
  attr : (events.foldl after t).attr = (t.loaded p f).interpretEscape.attr

/-- A sequence is dropped: no command is executed, and the screen is as before. -/
structure Dropped (t : Tty) (events : List Event) : Prop where
  calls : t.callsIn events = []
  ended : (events.foldl after t).isEsc = false
  cells : (events.foldl after t).mem = t.mem
  lines : (events.foldl after t).scrln = t.scrln
  cursor : (events.foldl after t).cursor = t.cursor
  attr : (events.foldl after t).attr = t.attr

/-- The parameters and the command of a sequence that is short enough. -/
structure Complete (p : CString) (f : UInt8) : Prop where
  parameters : ∀ c ∈ p, isParameter c = true
  room : p.length ≤ ttyEscapeLen - 2
  command : escapeEnd f = true

/-- A byte that does not continue what has come after `'\e'`, or is the one at the index
`TTY_ESCAPE_LEN`. -/
inductive Breaks : List UInt8 → UInt8 → Prop
  | start {b : UInt8} (differ : b ≠ 91) : Breaks [] b
  | character {p : CString} {b : UInt8} (parameters : ∀ c ∈ p, isParameter c = true)
      (room : p.length ≤ ttyEscapeLen - 2) (refused : escapeChr b = false) : Breaks (91 :: p) b
  | full {p : CString} {b : UInt8} (parameters : ∀ c ∈ p, isParameter c = true)
      (length : p.length + 1 = ttyEscapeLen) : Breaks (91 :: p) b

/-- What may still become a sequence, or is dropped at the next byte. -/
inductive Unfinished : List UInt8 → Prop
  | start : Unfinished []
  | parameters {p : CString} (parameters : ∀ c ∈ p, isParameter c = true)
      (room : p.length < ttyEscapeLen) : Unfinished (91 :: p)

/-- The numbers with which a command moves the cursor below the last row, or past the end of that
row: an `int` that has wrapped, or a saved cursor that is not on the screen. -/
def Scrolls (cmd : Char) (cursor saved : TtyCursor) (n : Int) : Prop :=
  match cmd with
  | 'A' | 'F' => n < 0 ∧ (cursor.y - n) % ucharWidth = ttyHeight
  | 'B' | 'E' => toInt (cursor.y + n) < ttyHeight ∧ (cursor.y + n) % ucharWidth = ttyHeight
  | 'C' => cursor.y + 1 = ttyHeight ∧ toInt (cursor.x + n) < ttyWidth ∧
      ttyWidth ≤ (cursor.x + n) % ucharWidth ∧ (cursor.x + n) % ucharWidth < 128
  | 'D' => cursor.y + 1 = ttyHeight ∧ n < 0 ∧
      ttyWidth ≤ (cursor.x - n) % ucharWidth ∧ (cursor.x - n) % ucharWidth < 128
  | 'G' => cursor.y + 1 = ttyHeight ∧ n < 0 ∧
      ttyWidth ≤ (n - 1) % ucharWidth ∧ (n - 1) % ucharWidth < 128
  | 'u' => (if saved.x ≥ ttyWidth then toChar (saved.y + 1) else saved.y) = ttyHeight
  | _ => False

variable {t u : Tty} {p : CString} {f c : UInt8}

/-! ## The view -/

/-- A terminal whose view is not looked at. -/
def hideView (t : Tty) : Tty := { t with viewln := 0 }

/-- All but the view is there. -/
theorem fields_of_hideView (same : t.hideView = u.hideView) :
    t.isEsc = u.isEsc ∧ t.mem = u.mem ∧ t.scrln = u.scrln ∧ t.cursor = u.cursor ∧
      t.attr = u.attr :=
  ⟨(congrArg Tty.isEsc same :), (congrArg Tty.mem same :), (congrArg Tty.scrln same :),
    (congrArg Tty.cursor same :), (congrArg Tty.attr same :)⟩

theorem hideView_escInd (t : Tty) : t.hideView.escInd = t.escInd := rfl

theorem hideView_cursor (t : Tty) : t.hideView.cursor = t.cursor := rfl

theorem hideView_width (t : Tty) : t.hideView.width = t.width := rfl

theorem hideView_height (t : Tty) : t.hideView.height = t.height := rfl

/-- Clearing lines does not look at the view. -/
theorem hideView_clearLines (t : Tty) (lines : List Int) :
    (t.clearLines lines).hideView = t.hideView.clearLines lines := by
  induction lines generalizing t with
  | nil => rfl
  | cons m lines ih => exact ih _

/-- Nor does clearing. -/
theorem hideView_clear (t : Tty) (screen : Bool) (n : Int) :
    (t.clear screen n).hideView = t.hideView.clear screen n := by
  unfold Tty.clear
  dsimp only
  split
  · split
    · exact hideView_clearLines _ _
    · rfl
  · split
    · split
      · exact hideView_clearLines _ _
      · rfl
    · split
      · split
        · exact hideView_clearLines _ _
        · rfl
      · rfl

/-- Nor does setting the attribute. -/
theorem hideView_renditions (t : Tty) (param : CString) (i : Int) (params : CString) :
    (t.renditions param i params).hideView = t.hideView.renditions param i params := by
  induction params generalizing t param i with
  | nil => rfl
  | cons c params ih =>
    unfold Tty.renditions
    split
    · exact ih _ _ _
    · exact ih _ _ _

/-- Nor does moving the cursor. -/
theorem hideView_moveTo (t : Tty) (params : CString) (n : Int) :
    (t.moveTo params n).hideView = t.hideView.moveTo params n := by
  unfold Tty.moveTo
  dsimp only
  split <;> rfl

/-- No command looks at the view. -/
theorem hideView_command (t : Tty) (cmd : Char) (params : CString) (n : Int) :
    (t.command cmd params n).hideView = t.hideView.command cmd params n := by
  unfold Tty.command
  dsimp only
  split
  case h_8 => exact hideView_moveTo ..
  case h_9 => exact hideView_moveTo ..
  case h_10 => exact hideView_clear ..
  case h_11 => exact hideView_clear ..
  case h_12 => exact hideView_renditions ..
  case h_15 => split <;> rfl
  case h_16 => split <;> rfl
  all_goals rfl

/-- Nor does a byte of an escape sequence. -/
theorem hideView_escapeByte (t : Tty) (c : UInt8) :
    (t.escapeByte c).hideView = t.hideView.escapeByte c := by
  have interpreted (u : Tty) : u.interpretEscape.hideView = u.hideView.interpretEscape :=
    hideView_command ..
  have next {u u' : Tty} (same : u.hideView = u') :
      { u with escInd := (u.escInd + 1) % ushortWidth }.hideView =
        { u' with escInd := (u'.escInd + 1) % ushortWidth } := by
    rw [← same]
    rfl
  unfold Tty.escapeByte
  dsimp only
  apply next
  rw [hideView_escInd]
  split
  · split <;> rfl
  · split
    · rfl
    · split
      · exact interpreted _
      · rfl

/-- Nor does a byte outside of one. -/
theorem hideView_plainByte (t : Tty) (c : UInt8) :
    (t.plainByte c).hideView = t.hideView.plainByte c := by
  unfold Tty.plainByte
  split <;> rfl

/-- Nor does the end of the line. -/
theorem hideView_wrapLine (t : Tty) : t.wrapLine.hideView = t.hideView.wrapLine := by
  unfold Tty.wrapLine
  rw [hideView_cursor, hideView_width]
  split <;> rfl

/-- The end of the screen sets the view. -/
theorem hideView_scroll (t : Tty) : t.scroll.hideView = t.hideView.scroll.hideView := by
  unfold Tty.scroll
  rw [hideView_cursor, hideView_height]
  split <;> rfl

/-- What a byte does does not depend on the view. -/
theorem hideView_byte (t : Tty) (c : UInt8) :
    (t.byte c).hideView = (t.hideView.byte c).hideView := by
  unfold Tty.byte
  rw [hideView_scroll, hideView_wrapLine]
  congr 3
  by_cases escaped : t.isEsc = true
  · have escaped' : t.hideView.isEsc = true := escaped
    rw [if_pos escaped, if_pos escaped', hideView_escapeByte]
  · have plain : ¬t.hideView.isEsc = true := escaped
    rw [if_neg escaped, if_neg plain, hideView_plainByte]

/-- Nor do the calls for it. -/
theorem callsOf_hideView (t : Tty) (c : UInt8) : t.hideView.callsOf c = t.callsOf c := rfl

/-- Bytes that are written in any calls do what they do in one. -/
theorem hideView_foldl_after {events : List Event} (same : t.hideView = u.hideView) :
    (events.foldl after t).hideView = ((bytesOf events).foldl byte u).hideView := by
  induction events generalizing t u with
  | nil => exact same
  | cons event events ih =>
    cases event with
    | call => exact ih (show t.beginWrite.hideView = _ from same)
    | byte c =>
      apply ih
      rw [show t.after (.byte c) = t.byte c from rfl, hideView_byte t, same, ← hideView_byte]

/-- So do the calls for them. -/
theorem callsIn_eq {events : List Event} (same : t.hideView = u.hideView) :
    t.callsIn events = u.callsOfBytes (bytesOf events) := by
  induction events generalizing t u with
  | nil => rfl
  | cons event events ih =>
    cases event with
    | call => exact ih (show t.beginWrite.hideView = _ from same)
    | byte c =>
      have first : t.callsOf c = u.callsOf c := by
        rw [← callsOf_hideView, same, callsOf_hideView]
      have later : (t.byte c).hideView = (u.byte c).hideView := by
        rw [hideView_byte t, same, ← hideView_byte]
      have rest := ih later
      rw [callsIn, first, rest]
      rfl

/-! ## The bytes of a sequence -/

/-- A terminal of the usual size outside an escape sequence, with its cursor on the screen. -/
structure Plain (t : Tty) : Prop where
  outside : t.isEsc = false
  width : t.width = ttyWidth
  height : t.height = ttyHeight
  inside : t.cursor.OnScreen

/-- A cursor on the screen is at no end of a line or of the screen. -/
theorem quiet (width : t.width = ttyWidth) (height : t.height = ttyHeight)
    (inside : t.cursor.OnScreen) : t.wrapLine.scroll = t := by
  have column := inside.1
  have row := inside.2
  rw [wrapLine, if_neg (by omega), scroll, if_neg (by omega)]

/-- A parameter is no command, but a character of an escape sequence, and not NUL. -/
theorem isParameter_spec (parameter : isParameter c = true) :
    escapeEnd c = false ∧ escapeChr c = true ∧ c ≠ 0 := by
  have chr : escapeChr c = true := by
    unfold isParameter at parameter
    simp only [Bool.or_eq_true, beq_iff_eq] at parameter
    simp only [escapeChr, Bool.or_eq_true, beq_iff_eq]
    tauto
  simp only [isParameter, isDigit, Bool.or_eq_true, beq_iff_eq, Bool.and_eq_true,
    decide_eq_true_eq] at parameter
  rcases parameter with (rfl | rfl) | ⟨low, high⟩
  · exact ⟨by decide, chr, by decide⟩
  · exact ⟨by decide, chr, by decide⟩
  · have small : c.toNat ≤ 57 := UInt8.le_iff_toNat_le.mp high
    have large : 48 ≤ c.toNat := UInt8.le_iff_toNat_le.mp low
    refine ⟨?_, chr, ?_⟩
    · have below : ¬0x40 < c := by
        intro above
        have := UInt8.lt_iff_toNat_lt.mp above
        simp only [UInt8.reduceToNat] at this
        omega
      simp only [escapeEnd, below, decide_false, Bool.false_and]
    · rintro rfl
      simp only [UInt8.reduceToNat] at large
      omega

/-- `'\e'` begins a sequence. -/
theorem Plain.byte_escape (plain : t.Plain) : t.byte 27 = t.inSequence 0 t.opened := by
  have begun : t.plainByte 27 = t.inSequence 0 t.opened := rfl
  unfold Tty.byte
  rw [plain.outside, if_neg Bool.false_ne_true, begun]
  exact quiet plain.width plain.height plain.inside

/-- A byte in a sequence. -/
theorem byte_inSequence (t : Tty) (i : Nat) (r : Region UInt8) (c : UInt8) :
    (t.inSequence i r).byte c = ((t.inSequence i r).escapeByte c).wrapLine.scroll := rfl

/-- `'['` continues a sequence that has just begun. -/
theorem Plain.byte_open (plain : t.Plain) (r : Region UInt8) :
    (t.inSequence 0 r).byte 91 = t.inSequence 1 r :=
  quiet plain.width plain.height plain.inside

/-- A parameter is stored. -/
theorem Plain.byte_parameter (plain : t.Plain) {i : Nat} (later : i ≠ 0) (room : i < ttyEscapeLen)
    (r : Region UInt8) (parameter : isParameter c = true) :
    (t.inSequence i r).byte c = t.inSequence (i + 1) (r.write i c) := by
  obtain ⟨noEnd, chr, _⟩ := isParameter_spec parameter
  have small : (i + 1) % ushortWidth = i + 1 := by
    apply Nat.mod_eq_of_lt
    simp only [ttyEscapeLen, ushortWidth] at *
    omega
  have stored : (t.inSequence i r).escapeByte c = t.inSequence (i + 1) (r.write i c) := by
    have accepted : ¬(ttyEscapeLen ≤ i ∨ escapeChr c = false) := by
      rw [chr]
      simp only [Bool.true_eq_false, or_false]
      omega
    simp only [escapeByte, inSequence, if_neg later, if_neg accepted, noEnd, small,
      Bool.false_eq_true, if_false]
  rw [byte_inSequence, stored]
  exact quiet plain.width plain.height plain.inside

/-- Parameters are stored one after the other. -/
theorem Plain.foldl_parameters (plain : t.Plain) {i : Nat} (later : i ≠ 0)
    (room : i + p.length ≤ ttyEscapeLen) (r : Region UInt8)
    (parameters : ∀ c ∈ p, isParameter c = true) :
    p.foldl byte (t.inSequence i r) = t.inSequence (i + p.length) (store r i p) := by
  induction p generalizing i r with
  | nil => rfl
  | cons c p ih =>
    rw [List.length_cons] at room
    have count : i + (p.length + 1) = i.succ + p.length := by omega
    have rest := ih (Nat.succ_ne_zero i) (by omega) (r.write i c) fun c member =>
      parameters c (List.mem_cons_of_mem _ member)
    rw [List.foldl_cons, plain.byte_parameter later (by omega) r (parameters c List.mem_cons_self),
      List.length_cons, store, count, rest]

/-- A byte that is not a command calls nothing. -/
theorem callsOf_of_not_end (ends : escapeEnd c = false) : t.callsOf c = [] := by
  apply if_neg
  rintro ⟨_, _, _, command⟩
  rw [ends] at command
  cases command

/-- Parameters call nothing. -/
theorem callsOfBytes_parameters (parameters : ∀ c ∈ p, isParameter c = true)
    (rest : List UInt8) :
    t.callsOfBytes (p ++ rest) = (p.foldl byte t).callsOfBytes rest := by
  induction p generalizing t with
  | nil => rfl
  | cons c p ih =>
    have none : t.callsOf c = [] :=
      callsOf_of_not_end (isParameter_spec (parameters c List.mem_cons_self)).1
    rw [List.cons_append, callsOfBytes, none, List.nil_append,
      ih fun c member => parameters c (List.mem_cons_of_mem _ member)]
    rfl

/-- A byte that breaks a sequence ends it. -/
theorem Plain.byte_dropped (plain : t.Plain) {i : Nat} (later : i ≠ 0) (r : Region UInt8)
    (refused : ttyEscapeLen ≤ i ∨ escapeChr c = false) :
    (t.inSequence i r).byte c =
      { t with isEsc := false, escInd := (i + 1) % ushortWidth, escapeSeq := r } := by
  have dropped : (t.inSequence i r).escapeByte c =
      { t with isEsc := false, escInd := (i + 1) % ushortWidth, escapeSeq := r } := by
    have index : (t.inSequence i r).escInd ≠ 0 := later
    have broken : ttyEscapeLen ≤ (t.inSequence i r).escInd ∨ escapeChr c = false := refused
    rw [escapeByte, if_neg index, if_pos broken]
    rfl
  rw [byte_inSequence, dropped]
  exact quiet plain.width plain.height plain.inside

/-- So does a first byte other than `'['`. -/
theorem Plain.byte_unopened (plain : t.Plain) (r : Region UInt8) (differ : c ≠ 91) :
    (t.inSequence 0 r).byte c = { t with isEsc := false, escInd := 1, escapeSeq := r } := by
  have dropped : (t.inSequence 0 r).escapeByte c =
      { t with isEsc := false, escInd := 1, escapeSeq := r } := by
    simp only [escapeByte, inSequence, if_true, if_pos differ]
    rfl
  rw [byte_inSequence, dropped]
  exact quiet plain.width plain.height plain.inside

/-! ## The parameters -/

/-- What is stored leaves the bytes before it. -/
theorem cell_store_of_lt {r : Region UInt8} {i : Nat} {bytes : List UInt8} {j : Int}
    (before : j < i) :
    (store r i bytes).cell j = r.cell j := by
  induction bytes generalizing r i with
  | nil => rfl
  | cons c bytes ih =>
    rw [store, ih (by omega)]
    exact Region.cell_write_of_ne (by omega)

/-- The bytes that are stored. -/
theorem cell_store {r : Region UInt8} {i k : Nat} {bytes : List UInt8} (inside : k < bytes.length) :
    (store r i bytes).cell (i + k : Nat) = bytes[k] := by
  induction bytes generalizing r i k with
  | nil => cases inside
  | cons c bytes ih =>
    cases k with
    | zero =>
      rw [store, cell_store_of_lt (by omega)]
      exact Region.cell_write_self ..
    | succ k =>
      have position : i + (k + 1) = i + 1 + k := by omega
      rw [store, position, ih (Nat.lt_of_succ_lt_succ inside)]
      rfl

/-- The parameters are read back up to the NUL that overwrites the command. -/
theorem params_loaded (t : Tty) (complete : Complete p f) :
    ((t.loaded p f).cut (t.loaded p f).escInd).params = p := by
  have room : p.length < ttyEscapeLen - 1 := by
    have := complete.room
    simp only [ttyEscapeLen] at *
    omega
  have cell (k : Nat) (below : k < p.length) :
      ((t.loaded p f).cut (t.loaded p f).escInd).escapeSeq.cell (1 + k) = p[k] := by
    have other : (1 + k : Int) ≠ (p.length + 1 : Nat) := by omega
    have position : (1 + k : Int) = (1 + k : Nat) := rfl
    refine (Region.cell_write_of_ne other).trans ((Region.cell_write_of_ne other).trans ?_)
    rw [position]
    exact cell_store below
  have ends : ((t.loaded p f).cut (t.loaded p f).escInd).escapeSeq.cell (1 + p.length) = 0 := by
    have position : (1 + p.length : Int) = (p.length + 1 : Nat) := by omega
    rw [position]
    exact Region.cell_write_self ..
  have nonzero (k : Nat) (below : k < p.length) :
      ((t.loaded p f).cut (t.loaded p f).escInd).escapeSeq.cell (1 + k) ≠ 0 := by
    rw [cell k below]
    exact (isParameter_spec (complete.parameters _ (List.getElem_mem below))).2.2
  rw [params, Region.text_eq_map nonzero ends room]
  apply List.ext_getElem
  · simp
  · intro k below below'
    rw [List.getElem_map, List.getElem_range]
    exact cell k below'

/-- The command is the one that is stored last. -/
theorem interpretation_loaded (t : Tty) (complete : Complete p f) :
    (t.loaded p f).interpretation = (p, f) := by
  rw [interpretation, params_loaded t complete]
  exact congrArg _ (Region.cell_write_self ..)

/-- What `tty_interpret_escape` does with a whole sequence. -/
theorem interpretEscape_loaded (t : Tty) (complete : Complete p f) :
    (t.loaded p f).interpretEscape =
      ((t.loaded p f).cut (p.length + 1 : Nat)).command (Char.ofNat f.toNat) p (parameter 1 p) := by
  have command : (t.loaded p f).escapeSeq.cell (t.loaded p f).escInd = f :=
    Region.cell_write_self ..
  unfold interpretEscape
  dsimp only
  rw [command, params_loaded t complete]
  rfl

/-! ## Whole sequences -/

/-- The parameters of a sequence that has begun. -/
theorem Plain.foldl_opened (plain : t.Plain) (parameters : ∀ c ∈ p, isParameter c = true)
    (room : p.length < ttyEscapeLen) :
    (27 :: 91 :: p).foldl byte t = t.inSequence (1 + p.length) (store t.opened 1 p) := by
  rw [List.foldl_cons, plain.byte_escape, List.foldl_cons, plain.byte_open]
  exact plain.foldl_parameters Nat.one_ne_zero (by omega) t.opened parameters

/-- They call nothing. -/
theorem Plain.callsOfBytes_opened (plain : t.Plain) (parameters : ∀ c ∈ p, isParameter c = true)
    (room : p.length < ttyEscapeLen) (rest : List UInt8) :
    t.callsOfBytes (27 :: 91 :: p ++ rest) =
      (t.inSequence (1 + p.length) (store t.opened 1 p)).callsOfBytes rest := by
  have first : t.callsOf 27 = [] := callsOf_of_not_end (by decide)
  have second : (t.byte 27).callsOf 91 = [] := by
    rw [plain.byte_escape]
    exact if_neg fun all => all.2.1 rfl
  have later := callsOfBytes_parameters (t := (t.byte 27).byte 91) parameters rest
  rw [List.cons_append, List.cons_append, callsOfBytes, first, callsOfBytes, second, later,
    List.nil_append, List.nil_append, ← plain.foldl_opened parameters room]
  rfl

/-! ## The cursor after a command -/

/-- The end of the line leaves the cursor below the last row. -/
def Falls (cursor : TtyCursor) : Prop :=
  (if cursor.x ≥ ttyWidth then toChar (cursor.y + 1) else cursor.y) = ttyHeight

/-- A cursor on the screen does not fall. -/
theorem not_falls_of_onScreen {cursor : TtyCursor} (inside : cursor.OnScreen) : ¬Falls cursor := by
  have column := inside.1
  have row := inside.2
  rw [Falls, if_neg (by omega)]
  omega

/-- In a column of the screen, a cursor falls below the last row only. -/
theorem falls_of_column {x y : Int} (column : 0 ≤ x ∧ x < ttyWidth) :
    Falls { x, y } ↔ y = ttyHeight := by
  rw [Falls, if_neg (show ¬x ≥ ttyWidth by omega)]

/-- In a row of the screen, a cursor falls past the end of the last row only. -/
theorem falls_of_row {x y : Int} (row : 0 ≤ y ∧ y < ttyHeight) :
    Falls { x, y } ↔ y + 1 = ttyHeight ∧ ttyWidth ≤ x := by
  have small : (ttyHeight : Int) < 128 := by decide
  rw [Falls]
  dsimp only
  rw [toChar_of_small (by omega) (by omega)]
  split
  · omega
  · omega

/-- Moving up falls if the number wraps. -/
theorem back_eq_height {y n : Int} (row : 0 ≤ y ∧ y < ttyHeight) :
    back y n = ttyHeight ↔ n < 0 ∧ (y - n) % ucharWidth = ttyHeight := by
  simp only [ttyHeight] at row
  unfold back toChar
  simp only [ucharWidth, ttyHeight]
  split
  · omega
  · omega

/-- Moving down falls if the sum wraps. -/
theorem forward_eq_height (y n : Int) :
    forward y n ttyHeight = ttyHeight ↔
      toInt (y + n) < ttyHeight ∧ (y + n) % ucharWidth = ttyHeight := by
  unfold forward toChar
  split
  · simp only [ucharWidth, ttyHeight] at *
    omega
  · simp only [ucharWidth, ttyHeight] at *
    omega

/-- Moving left goes past the end of the line if the number wraps. -/
theorem width_le_back {x n : Int} (column : 0 ≤ x ∧ x < ttyWidth) :
    ttyWidth ≤ back x n ↔
      n < 0 ∧ ttyWidth ≤ (x - n) % ucharWidth ∧ (x - n) % ucharWidth < 128 := by
  simp only [ttyWidth] at column
  unfold back toChar
  simp only [ucharWidth, ttyWidth]
  split
  · omega
  · omega

/-- Moving right goes past the end of the line if the sum wraps. -/
theorem width_le_forward (x n : Int) :
    ttyWidth ≤ forward x n ttyWidth ↔
      toInt (x + n) < ttyWidth ∧
        ttyWidth ≤ (x + n) % ucharWidth ∧ (x + n) % ucharWidth < 128 := by
  unfold forward toChar
  split
  · simp only [ucharWidth, ttyWidth] at *
    omega
  · simp only [ucharWidth, ttyWidth] at *
    omega

/-- A column that is named is past the end of the line if the number wraps. -/
theorem width_le_column (n : Int) :
    ttyWidth ≤ column n ttyWidth ↔
      n < 0 ∧ ttyWidth ≤ (n - 1) % ucharWidth ∧ (n - 1) % ucharWidth < 128 := by
  unfold column toChar
  simp only [ucharWidth]
  split
  · simp only [ttyWidth] at *
    omega
  · split
    · simp only [ttyWidth] at *
      omega
    · simp only [ttyWidth] at *
      omega

/-- The numbers with which a command leaves the cursor to fall. -/
theorem falls_command (width : t.width = ttyWidth) (height : t.height = ttyHeight)
    (inside : t.cursor.OnScreen) (cmd : Char) (params : CString) (n : Int) :
    Falls (t.command cmd params n).cursor ↔ Scrolls cmd t.cursor t.saved n := by
  have column := inside.1
  have row := inside.2
  have first : (0 : Int) ≤ 0 ∧ (0 : Int) < ttyWidth := ⟨Int.le_refl 0, by decide⟩
  have stays {cursor : TtyCursor} {P : Prop} (on : cursor.OnScreen) (no : ¬P) :
      Falls cursor ↔ P := iff_of_false (not_falls_of_onScreen on) no
  have moved (params : CString) (n : Int) : (t.moveTo params n).cursor.OnScreen := by
    unfold Tty.moveTo
    dsimp only
    rw [width, height]
    exact ⟨place_mem (by decide) (by decide) _, place_mem (by decide) (by decide) _⟩
  unfold Tty.command
  dsimp only
  split
  case h_1 => exact (falls_of_column column).trans (back_eq_height row)
  case h_2 =>
    rw [height]
    exact (falls_of_column column).trans (forward_eq_height _ n)
  case h_3 =>
    rw [width]
    exact (falls_of_row row).trans (and_congr_right fun _ => width_le_forward _ n)
  case h_4 => exact (falls_of_row row).trans (and_congr_right fun _ => width_le_back column)
  case h_5 =>
    rw [height]
    exact (falls_of_column first).trans (forward_eq_height _ n)
  case h_6 => exact (falls_of_column first).trans (back_eq_height row)
  case h_7 =>
    rw [width]
    exact (falls_of_row row).trans (and_congr_right fun _ => width_le_column n)
  case h_8 => exact stays (moved params n) id
  case h_9 => exact stays (moved params n) id
  case h_10 => exact stays (by rwa [cursor_clear]) id
  case h_11 => exact stays (by rwa [cursor_clear]) id
  case h_12 => exact stays (by rwa [cursor_renditions]) id
  case h_13 => exact stays inside id
  case h_14 => exact Iff.rfl
  case h_15 => split <;> exact stays inside id
  case h_16 => split <;> exact stays inside id
  case h_17 => exact stays inside id
  case h_18 =>
    apply stays inside
    unfold Scrolls
    split <;> trivial

/-! ## Recognition -/

/-- The end of the line draws nothing. -/
theorem mem_wrapLine (t : Tty) : t.wrapLine.mem = t.mem := by
  unfold Tty.wrapLine
  split <;> rfl

/-- Nor does it turn the ring. -/
theorem scrln_wrapLine (t : Tty) : t.wrapLine.scrln = t.scrln := by
  unfold Tty.wrapLine
  split <;> rfl

/-- A cursor that falls is below the last row after the end of the line. -/
theorem falls_iff (width : t.width = ttyWidth) (height : t.height = ttyHeight) :
    Falls t.cursor ↔ t.wrapLine.cursor.y = t.wrapLine.height := by
  unfold Tty.wrapLine
  rw [width, Falls]
  split
  · rw [← height]
  · rw [← height]

/-- The end of the screen draws if and only if the cursor falls. -/
theorem mem_settled (width : t.width = ttyWidth) (height : t.height = ttyHeight) :
    t.wrapLine.scroll.mem = t.mem ↔ ¬Falls t.cursor := by
  rw [falls_iff width height]
  constructor
  · intro same below
    have lines : t.wrapLine.width = ttyWidth := by
      have size := congrArg (fun setup => setup.1.1) (setup_wrapLine t)
      exact size.trans width
    have drawn : t.wrapLine.scroll.mem.written.length = ttyWidth + t.mem.written.length := by
      rw [Tty.scroll, if_pos below]
      simp only [setCells, Region.fill, List.length_append, List.length_map, List.length_range,
        lines, mem_wrapLine]
      rfl
    rw [same] at drawn
    simp only [ttyWidth] at drawn
    omega
  · intro above
    rw [Tty.scroll, if_neg above, mem_wrapLine]

/-- It turns the ring only then. -/
theorem scrln_settled (width : t.width = ttyWidth) (height : t.height = ttyHeight)
    (stays : ¬Falls t.cursor) : t.wrapLine.scroll.scrln = t.scrln := by
  rw [falls_iff width height] at stays
  rw [Tty.scroll, if_neg stays, scrln_wrapLine]

/-- Neither changes the attribute or begins a sequence. -/
theorem attr_settled (t : Tty) :
    t.wrapLine.scroll.attr = t.attr ∧ t.wrapLine.scroll.isEsc = t.isEsc := by
  unfold Tty.scroll Tty.wrapLine
  split
  · split <;> exact ⟨rfl, rfl⟩
  · split <;> exact ⟨rfl, rfl⟩

/-- Clearing lines does not begin a sequence. -/
theorem isEsc_clearLines (t : Tty) (lines : List Int) : (t.clearLines lines).isEsc = t.isEsc := by
  induction lines generalizing t with
  | nil => rfl
  | cons m lines ih => exact ih _

/-- Nor does clearing. -/
theorem isEsc_clear (t : Tty) (screen : Bool) (n : Int) : (t.clear screen n).isEsc = t.isEsc := by
  unfold Tty.clear
  dsimp only
  split
  · split
    · exact isEsc_clearLines _ _
    · rfl
  · split
    · split
      · exact isEsc_clearLines _ _
      · rfl
    · split
      · split
        · exact isEsc_clearLines _ _
        · rfl
      · rfl

/-- Nor does setting the attribute. -/
theorem isEsc_renditions (t : Tty) (param : CString) (i : Int) (params : CString) :
    (t.renditions param i params).isEsc = t.isEsc := by
  induction params generalizing t param i with
  | nil => rfl
  | cons c params ih =>
    unfold Tty.renditions
    split
    · exact ih _ _ _
    · exact ih _ _ _

/-- Nor does moving the cursor. -/
theorem isEsc_moveTo (t : Tty) (params : CString) (n : Int) :
    (t.moveTo params n).isEsc = t.isEsc := by
  unfold Tty.moveTo
  dsimp only
  split <;> rfl

/-- No command begins a sequence. -/
theorem isEsc_command (t : Tty) (cmd : Char) (params : CString) (n : Int) :
    (t.command cmd params n).isEsc = t.isEsc := by
  unfold Tty.command
  dsimp only
  split
  case h_8 => exact isEsc_moveTo ..
  case h_9 => exact isEsc_moveTo ..
  case h_10 => exact isEsc_clear ..
  case h_11 => exact isEsc_clear ..
  case h_12 => exact isEsc_renditions ..
  case h_15 => split <;> rfl
  case h_16 => split <;> rfl
  all_goals rfl

/-- The terminal after a whole sequence, before the end of the line. -/
def interpreted (t : Tty) (p : CString) (f : UInt8) : Tty :=
  { (t.loaded p f).interpretEscape with
    escInd := ((t.loaded p f).interpretEscape.escInd + 1) % ushortWidth }

/-- The command of a whole sequence. -/
theorem byte_command (t : Tty) (complete : Complete p f) :
    (t.inSequence (1 + p.length) (store t.opened 1 p)).byte f =
      (t.interpreted p f).wrapLine.scroll := by
  have room := complete.room
  have later : 1 + p.length ≠ 0 := by omega
  have accepted : ¬(ttyEscapeLen ≤ 1 + p.length ∨ escapeChr f = false) := by
    rw [escapeChr_of_escapeEnd complete.command]
    simp only [ttyEscapeLen, Bool.true_eq_false, or_false] at *
    omega
  rw [byte_inSequence, escapeByte, if_neg (show ¬(t.inSequence _ _).escInd = 0 from later),
    if_neg (show ¬(ttyEscapeLen ≤ (t.inSequence _ _).escInd ∨ _) from accepted)]
  dsimp only
  rw [if_pos complete.command]
  rw [interpreted, loaded, Nat.add_comm p.length]
  rfl

/-- Its call. -/
theorem callsOf_command (t : Tty) (complete : Complete p f) :
    (t.inSequence (1 + p.length) (store t.opened 1 p)).callsOf f = [(p, f)] := by
  have room := complete.room
  have accepted : ¬(ttyEscapeLen ≤ 1 + p.length ∨ escapeChr f = false) := by
    rw [escapeChr_of_escapeEnd complete.command]
    simp only [ttyEscapeLen, Bool.true_eq_false, or_false] at *
    omega
  have later : 1 + p.length ≠ 0 := by omega
  rw [← interpretation_loaded t complete, loaded, Nat.add_comm p.length]
  exact if_pos ⟨rfl, later, accepted, complete.command⟩

/-- The size of the terminal after a whole sequence, and where its cursor is. -/
theorem Plain.interpreted_spec (plain : t.Plain) (complete : Complete p f) :
    (t.interpreted p f).width = ttyWidth ∧ (t.interpreted p f).height = ttyHeight ∧
      (t.interpreted p f).isEsc = false ∧
      (Falls (t.interpreted p f).cursor ↔
        Scrolls (Char.ofNat f.toNat) t.cursor t.saved (parameter 1 p)) := by
  have size : (t.loaded p f).interpretEscape.setup = t.setup := by
    rw [interpretEscape_loaded t complete, setup_command]
    rfl
  have width : (t.loaded p f).interpretEscape.width = t.width :=
    congrArg (fun setup => setup.1.1) size
  have height : (t.loaded p f).interpretEscape.height = t.height :=
    congrArg (fun setup => setup.1.2.1) size
  refine ⟨width.trans plain.width, height.trans plain.height, ?_, ?_⟩
  · rw [interpreted, interpretEscape_loaded t complete]
    exact isEsc_command ..
  · rw [interpreted, interpretEscape_loaded t complete]
    exact falls_command (t := (t.loaded p f).cut (p.length + 1 : Nat)) plain.width plain.height
      plain.inside ..

variable {events : List Event}

/-- A whole sequence that comes in any calls is recognised if and only if its command does not
leave the cursor to fall. -/
theorem Plain.recognised_iff (plain : t.Plain) (complete : Complete p f)
    (bytes : bytesOf events = 27 :: 91 :: p ++ [f]) :
    t.Recognised events p f ↔ ¬Scrolls (Char.ofNat f.toNat) t.cursor t.saved (parameter 1 p) := by
  have room : p.length < ttyEscapeLen := by
    have := complete.room
    simp only [ttyEscapeLen] at *
    omega
  obtain ⟨width, height, ended, falls⟩ := plain.interpreted_spec complete
  have run : (events.foldl after t).hideView =
      (t.interpreted p f).wrapLine.scroll.hideView := by
    rw [hideView_foldl_after rfl, bytes, List.foldl_append,
      plain.foldl_opened complete.parameters room]
    exact congrArg hideView (byte_command t complete)
  obtain ⟨outside, cells, lines, _, attr⟩ := fields_of_hideView run
  rw [← falls, ← mem_settled width height, ← cells]
  constructor
  · intro recognised
    exact recognised.cells
  · intro same
    have stays := (mem_settled width height).mp (cells.symm.trans same)
    constructor
    · rw [callsIn_eq rfl, bytes, plain.callsOfBytes_opened complete.parameters room, callsOfBytes,
        callsOf_command t complete]
      rfl
    · exact outside.trans ((attr_settled _).2.trans ended)
    · exact same
    · exact lines.trans (scrln_settled width height stays)
    · exact attr.trans (attr_settled _).1

/-- A continuation that breaks is dropped. -/
theorem Plain.dropped (plain : t.Plain) {q : List UInt8} {b : UInt8} (breaks : Breaks q b)
    (bytes : bytesOf events = 27 :: q ++ [b]) : t.Dropped events := by
  have drops {escInd : Nat} {escapeSeq : Region UInt8}
      (last : (27 :: q ++ [b]).foldl byte t = { t with isEsc := false, escInd, escapeSeq })
      (calls : t.callsOfBytes (27 :: q ++ [b]) = []) : t.Dropped events := by
    have run : (events.foldl after t).hideView =
        { t with isEsc := false, escInd, escapeSeq }.hideView := by
      rw [hideView_foldl_after rfl, bytes, last]
    obtain ⟨ended, cells, lines, cursor, attr⟩ := fields_of_hideView run
    exact ⟨by rw [callsIn_eq rfl, bytes, calls], ended, cells, lines, cursor, attr⟩
  have first : t.callsOf 27 = [] := callsOf_of_not_end (by decide)
  have late {p : CString} (parameters : ∀ c ∈ p, isParameter c = true)
      (room : p.length < ttyEscapeLen)
      (refused : ttyEscapeLen ≤ 1 + p.length ∨ escapeChr b = false)
      (bytes : q = 91 :: p) : t.Dropped events := by
    subst bytes
    apply drops
    · rw [List.foldl_append, plain.foldl_opened parameters room]
      exact plain.byte_dropped (by omega) _ refused
    · rw [plain.callsOfBytes_opened parameters room, callsOfBytes, callsOfBytes, List.append_nil]
      exact if_neg fun all => all.2.2.1 refused
  cases breaks with
  | start differ =>
    apply drops
    · rw [List.singleton_append, List.foldl_cons, plain.byte_escape]
      exact plain.byte_unopened _ differ
    · rw [List.singleton_append, callsOfBytes, first, plain.byte_escape, List.nil_append,
        callsOfBytes, callsOfBytes, List.append_nil]
      exact if_neg fun all => all.2.1 rfl
  | character parameters room refused =>
    exact late parameters (by simp only [ttyEscapeLen] at *; omega) (.inr refused) rfl
  | full parameters length => exact late parameters (by omega) (.inl (by omega)) rfl

/-- What bytes can make of an unfinished sequence. -/
def Continues (bytes : List UInt8) : Prop :=
  Unfinished bytes ∨
    (∃ p f rest, bytes = 91 :: p ++ f :: rest ∧ Complete p f) ∨
    ∃ q b rest, bytes = q ++ b :: rest ∧ Breaks q b

/-- Parameters and whatever comes after them. -/
theorem continues_parameters (parameters : ∀ c ∈ p, isParameter c = true)
    (room : p.length < ttyEscapeLen) (rest : List UInt8) : Continues (91 :: p ++ rest) := by
  induction rest generalizing p with
  | nil =>
    rw [List.append_nil]
    exact .inl (.parameters parameters room)
  | cons b rest ih =>
    by_cases full : p.length + 1 = ttyEscapeLen
    · exact .inr (.inr ⟨91 :: p, b, rest, rfl, .full parameters full⟩)
    · have short : p.length ≤ ttyEscapeLen - 2 := by
        simp only [ttyEscapeLen] at *
        omega
      by_cases parameter : isParameter b = true
      · have more : ∀ c ∈ p ++ [b], isParameter c = true := by
          intro c member
          rcases List.mem_append.mp member with before | last
          · exact parameters c before
          · rwa [List.mem_singleton.mp last]
        have next := ih more (by rw [List.length_append, List.length_singleton]; omega)
        rwa [← List.cons_append, List.append_assoc] at next
      · by_cases command : escapeEnd b = true
        · exact .inr (.inl ⟨p, b, rest, rfl, parameters, short, command⟩)
        · have refused : escapeChr b = false := by
            simp only [isParameter, Bool.not_eq_true, Bool.or_eq_false_iff] at parameter
            simp only [escapeChr, Bool.not_eq_true _ ▸ command, parameter.1.1, parameter.1.2,
              parameter.2, Bool.or_false]
          exact .inr (.inr ⟨91 :: p, b, rest, rfl, .character parameters short refused⟩)

/-- Whatever comes after `'\e'` is unfinished, or begins with a whole sequence or with one that
breaks. -/
theorem continues (bytes : List UInt8) : Continues bytes := by
  cases bytes with
  | nil => exact .inl .start
  | cons c bytes =>
    by_cases bracket : c = 91
    · subst bracket
      exact continues_parameters (p := []) (fun _ member => nomatch member) (by decide) bytes
    · exact .inr (.inr ⟨[], c, bytes, rfl, .start bracket⟩)

/-- Every continuation of `'\e'` is unfinished, whole or broken; a broken one is dropped, and a
whole one is recognised if and only if its command does not leave the cursor below the last
row. -/
theorem Plain.escape_iff (plain : t.Plain) :
    (∀ bytes, Continues bytes) ∧
      (∀ events q b, Breaks q b → bytesOf events = 27 :: q ++ [b] → t.Dropped events) ∧
      ∀ events p f, Complete p f → bytesOf events = 27 :: 91 :: p ++ [f] →
        (t.Recognised events p f ↔
          ¬Scrolls (Char.ofNat f.toNat) t.cursor t.saved (parameter 1 p)) :=
  ⟨continues, fun _ _ _ => plain.dropped, fun _ _ _ => plain.recognised_iff⟩

/-- A new terminal. -/
theorem createTty_plain (block : Tty) (nr : Nat) : (createTty block nr).Plain :=
  ⟨rfl, rfl, rfl, (createTty_grounded block nr).2⟩

/-- `"\e[2C"`, in two calls. -/
theorem escape_iff_forward :
    (createTty {} 0).Recognised [.byte 27, .byte 91, .call, .byte 50, .byte 67] [50] 67 := by
  have complete : Complete [50] 67 := ⟨List.all_eq_true.mp (by decide), by decide, by decide⟩
  apply ((createTty_plain {} 0).escape_iff.2.2 _ _ _ complete rfl).mpr
  rintro ⟨last, _⟩
  revert last
  decide

/-- `"4294967065"`: -231 as an `int`. -/
def minus231 : CString := [52, 50, 57, 52, 57, 54, 55, 48, 54, 53]

/-- `"\e[4294967065B"` moves the cursor from the first row to the one below the last, and the screen
is scrolled. -/
theorem recognised_not :
    Complete minus231 66 ∧ (createTty {} 0).Plain ∧
      ¬(createTty {} 0).Recognised ((27 :: 91 :: minus231 ++ [66]).map .byte) minus231 66 := by
  have complete : Complete minus231 66 :=
    ⟨List.all_eq_true.mp (by decide), by decide, by decide⟩
  refine ⟨complete, createTty_plain {} 0, ?_⟩
  rw [(createTty_plain {} 0).recognised_iff complete rfl]
  have wraps : Scrolls 'B' {} {} (parameter 1 minus231) := ⟨by decide +kernel, by decide +kernel⟩
  exact not_not.mpr wraps

end Tty

end Nupkux
