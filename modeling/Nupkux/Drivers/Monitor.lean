import Nupkux.Drivers.Keyboard
import Nupkux.Drivers.Terminal
import Nupkux.Kernel.BootConsole

/-!
# The terminals on one monitor

Four terminals share a keyboard, the video memory and the cursor of the video controller. One
terminal is the current one: it gets the keys, and it is the one that is shown. After `setup_tty`,
which takes over what was written at boot, every terminal is the terminal its own output makes,
whatever the others do and whichever one is current, and the monitor shows the current one.
-/

namespace Nupkux

/-- The terminals, the video memory, and the position in the registers of the controller. -/
structure Monitor where
  console : Console
  video : Region Nat
  low : Nat
  high : Nat

/-- The position `tty_showcusor` sends to the controller: behind the screen for a cursor that is
not shown. -/
def Tty.cursorPosition (t : Tty) : Nat :=
  let pos : Int :=
    if t.showCursor ∧ t.viewln = t.scrln then t.cursor.y * t.width + t.cursor.x
    else t.height * t.width
  (pos % ushortWidth).toNat

/-- The cells that are stored as two bytes each. -/
def cellsOf (mem : Region UInt8) : Region Nat where
  cell i := (mem.cell (2 * i)).toNat + 256 * (mem.cell (2 * i + 1)).toNat

namespace Monitor

/-- `tty_showcusor`. -/
def ttyShowcusor (m : Monitor) (t : Tty) : Monitor :=
  { m with low := t.cursorPosition &&& 0xFF, high := (t.cursorPosition >>> 8) % 256 }

/-- `print_tty`. -/
def printTty (m : Monitor) : Monitor :=
  let atty := m.console.tty m.console.currentTty
  ttyShowcusor { m with video := atty.printTty m.video } atty

/-- `do_tty_write`. -/
def doTtyWrite (m : Monitor) (nr : Fin nrTtys) (buffer : List UInt8) : Monitor :=
  let m' := { m with console := m.console.setTty nr ((m.console.tty nr).doTtyWrite buffer) }
  if nr = m.console.currentTty then m'.printTty else m'

/-- `set_current_tty`. -/
def setCurrentTty (m : Monitor) (nr : Nat) : Monitor :=
  if inside : nr < nrTtys then
    printTty { m with console := { m.console with currentTty := ⟨nr, inside⟩ } }
  else m

/-- `irq_tty_keyboard`. -/
def irqTtyKeyboard (keymap : Nat → Nat) (m : Monitor) (scanCode : UInt8) : Monitor :=
  let nr := m.console.currentTty
  let (keyboard, scan, input, switch) :=
    m.console.keyboard.handleKey keymap scanCode.toNat (scanCode.toNat &&& keyUp ≠ 0)
  let m := { m with console := { m.console with keyboard } }
  let m := (switch.map m.setCurrentTty).getD m
  if keyboard.escape then m
  else if scan &&& keyUp = 0 then
    { m with console := m.console.setTty nr ((m.console.tty nr).storeKey input) }
  else m

/-- One turn of the loop of `tty_read`, which may echo what it reads. -/
def readTurn (m : Monitor) (nr : Fin nrTtys) : Monitor :=
  let atty := m.console.tty nr
  let m' := { m with console := m.console.setTty nr atty.readTurn.1 }
  if atty.inE ≠ atty.inS ∧ atty.echo ∧ nr = m.console.currentTty then m'.printTty else m'

/-- `setup_tty`, on blocks that hold anything: the first terminal takes over what is on the
screen. -/
def setupTty (blocks : Fin nrTtys → Tty) (devs : Fin nrTtys → Nat) (boot : BootConsole) :
    Monitor where
  console :=
    { tty := fun nr =>
        let atty := { createTty (blocks nr) nr with dev := devs nr }
        if nr = tty0 then
          { atty with
            mem := atty.mem.copy 0 (cellsOf boot.mem) 0 (atty.width * atty.height)
            cursor := { x := toChar boot.x, y := toChar boot.y } }
        else atty
      currentTty := tty0 }
  video := cellsOf boot.mem
  low := boot.low
  high := boot.high

end Monitor

/-- Interrupts, readers and writers in any order, after `setup_tty`. -/
def monitor (keymap : Nat → Nat) : TransitionSystem Monitor ConsoleEvent where
  initial m := ∃ blocks devs boot, bootConsole.Reachable boot ∧ m = Monitor.setupTty blocks devs boot
  step m event m' :=
    match event with
    | .interrupt scanCode stored =>
      (m.console.irqTtyKeyboard keymap scanCode).2 = stored ∧ m' = m.irqTtyKeyboard keymap scanCode
    | .read nr delivered => (m.console.tty nr).readTurn.2 = delivered ∧ m' = m.readTurn nr
    | .write nr buffer => m' = m.doTtyWrite nr buffer

namespace Terminal

/-- What an event does to one of the terminals: it is written to, or echoes what is read from
it. -/
def after (nr : Fin nrTtys) (a : Terminal) : ConsoleEvent → Terminal
  | .write nr' buffer => if nr' = nr then a.write buffer else a
  | .read nr' (some c) => if nr' = nr ∧ a.echo then a.write [c] else a
  | _ => a

/-- The bytes that an event writes to one of the terminals are clean. -/
def cleanEvent (nr : Fin nrTtys) (a : Terminal) : ConsoleEvent → Bool
  | .write nr' buffer => !(nr' = nr) || a.cleanBytes buffer
  | .read nr' (some c) => !(nr' = nr && a.echo) || a.cleanBytes [c]
  | _ => true

/-- All that is written to one of the terminals is clean. -/
def cleanEvents (nr : Fin nrTtys) (a : Terminal) : List ConsoleEvent → Bool
  | [] => true
  | event :: events => a.cleanEvent nr event && (a.after nr event).cleanEvents nr events

/-- The terminals after `setup_tty`: the first one has the screen there was at boot. -/
def setup (boot : BootConsole) (nr : Fin nrTtys) : Terminal :=
  if nr = tty0 then
    start { rows := videoRows (cellsOf boot.mem)
            row := Screen.rowAt boot.y
            column := Screen.columnAt boot.x
            attr := 0x0700 }
  else start Screen.new

/-- The place of the cursor on the monitor, behind the screen if it is not shown. -/
def cursorPlace (a : Terminal) : Nat :=
  if a.showCursor then a.screen.row * ttyWidth + a.screen.column else ttyHeight * ttyWidth

end Terminal

namespace Tty

variable {t : Tty} {a : Terminal}

/-- What changes the input only. -/
theorem Follows.input (follows : t.Follows a) (inputBuffer : Nat → Nat) (inS inE : Nat) :
    ({ t with inputBuffer, inS, inE } : Tty).Follows a := by
  obtain ⟨⟨grounded, plain, viewed, attr, rows⟩, column, row⟩ := follows.shows
  refine ⟨⟨⟨{ grounded with }, plain, viewed, attr, rows⟩, column, row⟩, follows.saved,
    follows.showCursor, follows.echo, ?_⟩
  have reads := follows.reading
  cases reading : a.reading with
  | text =>
    rw [reading] at reads
    exact reads
  | escape =>
    rw [reading] at reads
    exact reads
  | sequence params =>
    rw [reading] at reads
    exact reads

/-- The index behind the end of the ring is brought back to its beginning. -/
theorem Follows.wrapInput (follows : t.Follows a) :
    (if t.inS = ttyInbufLen then { t with inS := 0 } else t).Follows a := by
  split
  · exact follows.input t.inputBuffer 0 t.inE
  · exact follows

/-- The echo of what is read is written to the terminal. -/
theorem Follows.readTurn (follows : t.Follows a)
    (clean : ∀ c, t.readTurn.2 = some c → a.echo = true → a.cleanBytes [c] = true) :
    t.readTurn.1.Follows (match t.readTurn.2 with
      | some c => if a.echo then a.write [c] else a
      | none => a) := by
  unfold Tty.readTurn at clean ⊢
  by_cases some : t.inE ≠ t.inS
  · rw [if_pos some] at clean ⊢
    dsimp only at clean ⊢
    have moved : ({ t with inS := (t.inS + 1) % ushortWidth } : Tty).Follows a :=
      follows.input t.inputBuffer _ t.inE
    have same := follows.echo
    by_cases echoes : t.echo = true
    · have echoes' : a.echo = true := same.symm.trans echoes
      have written := moved.doTtyWrite (clean _ rfl echoes')
      rw [if_pos echoes, if_pos echoes']
      exact written.wrapInput
    · have silent : ¬a.echo = true := fun echoes' => echoes (same.trans echoes')
      rw [if_neg echoes, if_neg silent]
      exact moved.wrapInput
  · rw [if_neg some]
    exact follows

/-- The position that is sent to the controller. -/
theorem Follows.cursorPosition (follows : t.Follows a) :
    t.cursorPosition = a.cursorPlace ∧ a.cursorPlace < ushortWidth := by
  have shown : t.showCursor = a.showCursor := follows.showCursor
  have viewed : t.viewln = t.scrln := follows.shows.viewed
  have width : t.width = ttyWidth := follows.shows.grounded.width
  have height : t.height = ttyHeight := follows.shows.grounded.height
  have across : t.cursor.x = a.screen.column := follows.shows.column
  have down : t.cursor.y = a.screen.row := follows.shows.row
  have column := a.screen.column.isLt
  have row := a.screen.row.isLt
  unfold Tty.cursorPosition Terminal.cursorPlace
  rw [shown, viewed, width, height, across, down]
  simp only [ttyWidth, ttyHeight, ushortWidth] at *
  by_cases shows : a.showCursor = true
  · rw [if_pos shows, if_pos ⟨shows, trivial⟩]
    omega
  · rw [if_neg shows, if_neg fun both => shows both.1]
    omega

/-- `print_tty` stores into the video memory only. -/
theorem Follows.within_printTty (follows : t.Follows a) {video : Region Nat}
    (within : video.Within (ttyWidth * ttyHeight)) :
    (t.printTty video).Within (ttyWidth * ttyHeight) := by
  have viewed : t.viewln = t.scrln := follows.shows.viewed
  have width : t.width = ttyWidth := follows.shows.grounded.width
  have height : t.height = ttyHeight := follows.shows.grounded.height
  have lines : t.memlines = ttyLines := follows.shows.grounded.memlines
  have scrln : t.scrln < ttyLines := follows.shows.grounded.scrln
  unfold Tty.printTty
  rw [viewed, width, height, lines]
  dsimp only
  by_cases wraps : (ttyLines : Int) - t.scrln < ttyHeight
  · rw [if_pos wraps]
    have behind : (ttyLines : Int) - t.scrln = (ttyLines - t.scrln : Nat) := by omega
    have rest : (ttyHeight : Int) - (ttyLines - t.scrln : Nat) =
        (ttyHeight - (ttyLines - t.scrln) : Nat) := by omega
    have first : (ttyLines - t.scrln) * ttyWidth < uintWidth := by
      simp only [ttyWidth, ttyHeight, ttyLines, uintWidth] at *
      omega
    have second : (ttyHeight - (ttyLines - t.scrln)) * ttyWidth < uintWidth := by
      simp only [ttyWidth, ttyHeight, ttyLines, uintWidth] at *
      omega
    rw [behind, rest, ← Int.natCast_mul, ← Int.natCast_mul, ← Int.natCast_mul,
      toUint_natCast first, toUint_natCast second]
    refine (within.copy (Int.le_refl 0) ?_).copy (Int.natCast_nonneg _) ?_ <;>
      simp only [ttyWidth, ttyHeight, ttyLines] at * <;>
      omega
  · rw [if_neg wraps]
    exact within.copy (Int.le_refl 0) (by decide)

end Tty

namespace Monitor

variable {keymap : Nat → Nat} {m m' : Monitor} {boot : BootConsole}
  {a : Fin nrTtys → Terminal} {event : ConsoleEvent}

/-- The position in the registers of the controller. -/
def position (m : Monitor) : Nat := m.low + 256 * m.high

/-- The driver's terminals stand for some terminals, of which the monitor shows the current one. As
long as nothing was written to the first one, the cursor may still be the one of the boot console,
which is shown. -/
structure Displays (boot : BootConsole) (m : Monitor) (a : Fin nrTtys → Terminal) : Prop where
  follows : ∀ nr, (m.console.tty nr).Follows (a nr)
  rows : videoRows m.video = (a m.console.currentTty).screen.rows
  within : m.video.Within (ttyWidth * ttyHeight)
  cursor : m.position = (a m.console.currentTty).cursorPlace ∨
    m.console.currentTty = tty0 ∧ a tty0 = Terminal.setup boot tty0 ∧
      m.position = boot.y * ttyWidth + boot.x

/-- Two bytes of a number. -/
theorem bytes_eq {n : Nat} (small : n < ushortWidth) :
    (n &&& 0xFF) + 256 * ((n >>> 8) % 256) = n := by
  have high : (n >>> 8) &&& 0xFF = (n >>> 8) % 256 := Nat.and_two_pow_sub_one_eq_mod _ 8
  rw [← high]
  exact position_bytes small

/-- After `print_tty` the monitor shows the current terminal. -/
theorem displays_printTty (follows : ∀ nr, (m.console.tty nr).Follows (a nr))
    (within : m.video.Within (ttyWidth * ttyHeight)) : m.printTty.Displays boot a := by
  have current := follows m.console.currentTty
  obtain ⟨place, small⟩ := current.cursorPosition
  rw [← place] at small
  exact ⟨follows, current.printTty _, current.within_printTty within,
    .inl ((bytes_eq small).trans place)⟩

/-- A terminal that stands for the changed one of its terminals. -/
theorem follows_setTty (follows : ∀ nr, (m.console.tty nr).Follows (a nr)) {nr : Fin nrTtys} {t : Tty}
    {b : Terminal} (changed : t.Follows b) (nr' : Fin nrTtys) :
    ((m.console.setTty nr t).tty nr').Follows (if nr = nr' then b else a nr') := by
  unfold Console.setTty
  dsimp only
  by_cases here : nr = nr'
  · subst here
    rw [Function.update_self, if_pos rfl]
    exact changed
  · rw [Function.update_of_ne (Ne.symm here), if_neg here]
    exact follows nr'

/-- A terminal that is not the current one is changed: the monitor keeps showing the current
one. -/
theorem Displays.elsewhere (displays : m.Displays boot a) {nr : Fin nrTtys} {t : Tty} {b : Terminal}
    (changed : t.Follows b)
    (unseen : (if nr = m.console.currentTty then b else a m.console.currentTty) =
      a m.console.currentTty) :
    ({ m with console := m.console.setTty nr t } : Monitor).Displays boot
      fun nr' => if nr = nr' then b else a nr' := by
  refine ⟨follows_setTty displays.follows changed, ?_, displays.within, ?_⟩
  · exact displays.rows.trans (congrArg (·.screen.rows) unseen.symm)
  · rcases displays.cursor with place | ⟨first, same, place⟩
    · exact .inl (place.trans (congrArg Terminal.cursorPlace unseen.symm))
    · rw [first] at unseen
      exact .inr ⟨first, unseen.trans same, place⟩

/-- `do_tty_write`. -/
theorem Displays.doTtyWrite (displays : m.Displays boot a) (nr : Fin nrTtys) {buffer : List UInt8}
    (clean : (a nr).cleanBytes buffer = true) :
    (m.doTtyWrite nr buffer).Displays boot
      fun nr' => if nr = nr' then (a nr).write buffer else a nr' := by
  have changed := (displays.follows nr).doTtyWrite clean
  unfold Monitor.doTtyWrite
  by_cases current : nr = m.console.currentTty
  · rw [if_pos current]
    exact displays_printTty (follows_setTty displays.follows changed) displays.within
  · rw [if_neg current]
    exact displays.elsewhere changed (if_neg current)

/-- `set_current_tty`. -/
theorem Displays.setCurrentTty (displays : m.Displays boot a) (nr : Nat) :
    (m.setCurrentTty nr).Displays boot a := by
  unfold Monitor.setCurrentTty
  split
  · exact displays_printTty displays.follows displays.within
  · exact displays

/-- The keyboard is not shown. -/
theorem Displays.keyboard (displays : m.Displays boot a) (keyboard : Keyboard) :
    ({ m with console := { m.console with keyboard } } : Monitor).Displays boot a :=
  { displays with }

/-- A key is stored and not shown. -/
theorem Displays.storeKey (displays : m.Displays boot a) (nr : Fin nrTtys) (key : Nat) :
    ({ m with console := m.console.setTty nr ((m.console.tty nr).storeKey key) } : Monitor).Displays
      boot a := by
  have stored : ((m.console.tty nr).storeKey key).Follows (a nr) :=
    (displays.follows nr).input _ _ _
  have unchanged : (fun nr' => if nr = nr' then a nr else a nr') = a := by
    funext nr'
    split
    · rename_i same
      rw [same]
    · rfl
  have shown := displays.elsewhere stored (congrFun unchanged m.console.currentTty)
  rwa [unchanged] at shown

/-- `irq_tty_keyboard`. -/
theorem Displays.irqTtyKeyboard (displays : m.Displays boot a) (keymap : Nat → Nat)
    (scanCode : UInt8) : (m.irqTtyKeyboard keymap scanCode).Displays boot a := by
  unfold Monitor.irqTtyKeyboard
  obtain ⟨keyboard, scan, input, switch⟩ :=
    m.console.keyboard.handleKey keymap scanCode.toNat (scanCode.toNat &&& keyUp ≠ 0)
  have handled := displays.keyboard keyboard
  have switched : ((switch.map (Monitor.setCurrentTty
      { m with console := { m.console with keyboard } })).getD
        { m with console := { m.console with keyboard } }).Displays boot a := by
    cases switch with
    | none => exact handled
    | some nr => exact handled.setCurrentTty nr
  dsimp only
  split
  · exact switched
  · split
    · exact switched.storeKey m.console.currentTty input
    · exact switched

/-- What is read from a terminal changes that terminal only. -/
theorem after_read (a : Fin nrTtys → Terminal) (nr : Fin nrTtys) (delivered : Option UInt8) :
    (fun nr' => (a nr').after nr' (.read nr delivered)) = fun nr' =>
      if nr = nr' then
        match delivered with
        | some c => if (a nr).echo then (a nr).write [c] else a nr
        | none => a nr
      else a nr' := by
  funext nr'
  unfold Terminal.after
  by_cases here : nr = nr'
  · subst here
    cases delivered with
    | none => rw [if_pos rfl]
    | some c =>
      dsimp only
      rw [if_pos rfl]
      exact if_congr (and_iff_right rfl) rfl rfl
  · cases delivered with
    | none => rw [if_neg here]
    | some c =>
      dsimp only
      rw [if_neg here, if_neg fun both => here both.1]

/-- What is written to a terminal changes that terminal only. -/
theorem after_write (a : Fin nrTtys → Terminal) (nr : Fin nrTtys) (buffer : List UInt8) :
    (fun nr' => (a nr').after nr' (.write nr buffer)) =
      fun nr' => if nr = nr' then (a nr).write buffer else a nr' := by
  funext nr'
  unfold Terminal.after
  dsimp only
  by_cases here : nr = nr'
  · rw [if_pos here, if_pos here, here]
  · rw [if_neg here, if_neg here]

/-- One turn of `tty_read`. -/
theorem Displays.readTurn (displays : m.Displays boot a) (nr : Fin nrTtys)
    (clean : ∀ c, (m.console.tty nr).readTurn.2 = some c → (a nr).echo = true →
      (a nr).cleanBytes [c] = true) :
    (m.readTurn nr).Displays boot fun nr' =>
      (a nr').after nr' (.read nr (m.console.tty nr).readTurn.2) := by
  have changed := (displays.follows nr).readTurn clean
  have echo := (displays.follows nr).echo
  rw [after_read]
  unfold Monitor.readTurn
  dsimp only
  by_cases printed : (m.console.tty nr).inE ≠ (m.console.tty nr).inS ∧
      (m.console.tty nr).echo = true ∧ nr = m.console.currentTty
  · rw [if_pos printed]
    exact displays_printTty (follows_setTty displays.follows changed) displays.within
  · rw [if_neg printed]
    apply displays.elsewhere changed
    by_cases current : nr = m.console.currentTty
    · rw [if_pos current, ← current]
      by_cases some : (m.console.tty nr).inE ≠ (m.console.tty nr).inS
      · -- nothing is echoed
        have silent : ¬(a nr).echo = true := fun echoes =>
          printed ⟨some, echo.trans echoes, current⟩
        cases (m.console.tty nr).readTurn.2 with
        | none => rfl
        | some c => exact if_neg silent
      · have nothing : (m.console.tty nr).readTurn.2 = none := by
          unfold Tty.readTurn
          rw [if_neg some]
        rw [nothing]
    · exact if_neg current

/-- A step of the terminals. -/
theorem Displays.step (displays : m.Displays boot a) (step : (monitor keymap).step m event m')
    (clean : ∀ nr, (a nr).cleanEvent nr event = true) :
    m'.Displays boot fun nr => (a nr).after nr event := by
  cases event with
  | interrupt scanCode stored =>
    obtain ⟨_, rfl⟩ := step
    exact displays.irqTtyKeyboard keymap scanCode
  | read nr delivered =>
    obtain ⟨rfl, rfl⟩ := step
    refine displays.readTurn nr fun c read echoes => ?_
    have here := clean nr
    unfold Terminal.cleanEvent at here
    rw [read, echoes] at here
    simpa using here
  | write nr buffer =>
    obtain rfl := step
    have here := clean nr
    unfold Terminal.cleanEvent at here
    rw [after_write]
    exact displays.doTtyWrite nr (by simpa using here)

/-! ## Runs -/

/-- The registers of the controller hold the cursor of the boot console. -/
theorem bootConsole_position (reached : bootConsole.Reachable boot) :
    boot.low + 256 * boot.high = boot.y * txtWidth + boot.x := by
  have placed : ∃ x y, boot.HasCursor x y := by
    obtain ⟨first, outputs, start, path⟩ := reached
    cases path with
    | nil =>
      obtain ⟨before, _, rfl⟩ := start
      exact ⟨0, 0, BootConsole.ksetcursor_hasCursor (by decide) (by decide)⟩
    | @snoc last _ _ output earlier _ step =>
      obtain rfl := step
      have ended := last.koutLoop_onScreen (bootConsole_onScreen ⟨first, _, start, earlier⟩) output
      exact ⟨_, _, BootConsole.ksetcursor_hasCursor ended.x_lt ended.y_lt⟩
  obtain ⟨x, y, rfl, rfl, position⟩ := placed
  exact position

/-- The first terminal takes over the rows of the video memory. -/
theorem view_copy_video (mem video : Region Nat) :
    Window.view (mem.copy 0 video 0 (ttyWidth * ttyHeight)) ttyWidth ttyLines 0 ttyHeight =
      videoRows video := by
  apply Window.view_ext
  intro row inside column within
  have target : Window.index ttyWidth ttyLines 0 row column = ttyWidth * row + column := by
    have line : row < ttyLines := Nat.lt_trans inside (by decide)
    rw [Window.index, Nat.zero_add, Nat.mod_eq_of_lt line]
  have origin : Window.index ttyWidth ttyHeight 0 row column = ttyWidth * row + column := by
    rw [Window.index, Nat.zero_add, Nat.mod_eq_of_lt inside]
  have below : ttyWidth * (row + 1) ≤ ttyWidth * ttyHeight := Nat.mul_le_mul_left ttyWidth inside
  rw [Nat.mul_succ] at below
  unfold videoRows
  rw [Window.getElem_view inside within, target, origin,
    Region.cell_copy_of_mem (by omega) (by omega)]
  rw [Int.zero_add, Int.sub_zero]

/-- The terminals after `setup_tty`. -/
theorem displays_setupTty (reached : bootConsole.Reachable boot) (blocks : Fin nrTtys → Tty)
    (devs : Fin nrTtys → Nat) :
    (setupTty blocks devs boot).Displays boot (Terminal.setup boot) := by
  obtain ⟨column, row, _⟩ := bootConsole_onScreen reached
  have nothing : (cellsOf boot.mem).Within (ttyWidth * ttyHeight) := fun _ member => nomatch member
  refine ⟨fun nr => ?_, rfl, nothing, .inr ⟨rfl, rfl, bootConsole_position reached⟩⟩
  obtain ⟨⟨grounded, plain, viewed, attr, rows⟩, first, top⟩ := Tty.createTty_shows (blocks nr) nr
  unfold setupTty Terminal.setup
  dsimp only
  by_cases here : nr = tty0
  · rw [if_pos here, if_pos here]
    have across : toChar boot.x = Screen.columnAt boot.x := by
      have inside : boot.x < ttyWidth := column
      have small : ttyWidth < 128 := by decide
      rw [Tty.toChar_of_small (by omega) (by omega)]
      exact congrArg Nat.cast (Nat.min_eq_left (Nat.le_sub_one_of_lt inside)).symm
    have down : toChar boot.y = Screen.rowAt boot.y := by
      have inside : boot.y < ttyHeight := row
      have small : ttyHeight < 128 := by decide
      rw [Tty.toChar_of_small (by omega) (by omega)]
      exact congrArg Nat.cast (Nat.min_eq_left (Nat.le_sub_one_of_lt inside)).symm
    have cells : ((createTty (blocks nr) nr).mem.copy 0 (cellsOf boot.mem) 0
        (ttyWidth * ttyHeight)).Within (ttyWidth * ttyLines) :=
      grounded.cells.copy (Int.le_refl 0) (by decide)
    exact Tty.follows_of_shows rfl ⟨⟨{ grounded with cells }, plain, viewed, attr,
      view_copy_video _ _⟩, across, down⟩ rfl
  · rw [if_neg here, if_neg here]
    exact Tty.follows_of_shows rfl ⟨⟨{ grounded with }, plain, viewed, attr, rows⟩, first, top⟩ rfl

/-- What one more event makes of a terminal. -/
theorem foldl_after (nr : Fin nrTtys) (a : Terminal) (events : List ConsoleEvent)
    (event : ConsoleEvent) :
    (events ++ [event]).foldl (Terminal.after nr) a =
      (events.foldl (Terminal.after nr) a).after nr event :=
  List.foldl_append

/-- Events with one more at the end are clean if that is clean behind the others. -/
theorem cleanEvents_append (nr : Fin nrTtys) (a : Terminal) (events : List ConsoleEvent)
    (event : ConsoleEvent) :
    a.cleanEvents nr (events ++ [event]) = true ↔ a.cleanEvents nr events = true ∧
      (events.foldl (Terminal.after nr) a).cleanEvent nr event = true := by
  induction events generalizing a with
  | nil => simp [Terminal.cleanEvents]
  | cons first events ih =>
    simp only [List.cons_append, Terminal.cleanEvents, Bool.and_eq_true, List.foldl_cons, ih,
      and_assoc]

/-- `irq_tty_keyboard` does to the terminals what it does without a monitor. -/
theorem irqTtyKeyboard_console (keymap : Nat → Nat) (m : Monitor) (scanCode : UInt8) :
    (m.irqTtyKeyboard keymap scanCode).console = (m.console.irqTtyKeyboard keymap scanCode).1 := by
  unfold Monitor.irqTtyKeyboard Console.irqTtyKeyboard
  obtain ⟨keyboard, scan, input, switch⟩ :=
    m.console.keyboard.handleKey keymap scanCode.toNat (scanCode.toNat &&& keyUp ≠ 0)
  have switched : ((switch.map (Monitor.setCurrentTty
      { m with console := { m.console with keyboard } })).getD
        { m with console := { m.console with keyboard } }).console =
      (switch.map (Console.setCurrentTty { m.console with keyboard })).getD
        { m.console with keyboard } := by
    cases switch with
    | none => rfl
    | some nr =>
      unfold Monitor.setCurrentTty Console.setCurrentTty
      simp only [Option.map_some, Option.getD_some]
      split <;> rfl
  dsimp only
  split
  · exact switched
  · split
    · dsimp only
      rw [switched]
    · exact switched

/-- A step of the terminals with their monitor is one of the terminals. -/
theorem console_step (step : (monitor keymap).step m event m') :
    (Nupkux.console keymap).step m.console event m'.console := by
  cases event with
  | interrupt scanCode stored =>
    obtain ⟨rfl, rfl⟩ := step
    exact Prod.ext (m.irqTtyKeyboard_console keymap scanCode).symm rfl
  | read nr delivered =>
    obtain ⟨delivers, rfl⟩ := step
    refine ⟨delivers, ?_⟩
    unfold Monitor.readTurn
    dsimp only
    split <;> rfl
  | write nr buffer =>
    obtain rfl := step
    change (m.doTtyWrite nr buffer).console = _
    unfold Monitor.doTtyWrite
    dsimp only
    split <;> rfl

/-- The terminals after `setup_tty` have nothing typed. -/
theorem console_setupTty (blocks : Fin nrTtys → Tty) (devs : Fin nrTtys → Nat)
    (boot : BootConsole) : (Nupkux.console keymap).initial (setupTty blocks devs boot).console := by
  refine ⟨rfl, fun nr => ?_⟩
  unfold setupTty
  dsimp only
  split
  · exact ⟨blocks nr, _, _, devs nr, rfl⟩
  · exact ⟨blocks nr, _, _, devs nr, rfl⟩

end Monitor

/-- After `setup_tty` each terminal is what its own output makes of it, in any order of interrupts,
readers and writers, and the monitor shows the current one and its cursor (or still the cursor there
was at boot). Nothing is stored outside of the video memory, and the keys are those of the
queues. -/
theorem monitor_shows_terminals {keymap : Nat → Nat} {blocks : Fin nrTtys → Tty}
    {devs : Fin nrTtys → Nat} {boot : BootConsole} {m : Monitor} {events : List ConsoleEvent}
    (reached : bootConsole.Reachable boot)
    (path : (monitor keymap).Path TransitionSystem.Unrestricted
      (Monitor.setupTty blocks devs boot) events m)
    (clean : ∀ nr, (Terminal.setup boot nr).cleanEvents nr events = true) :
    (m.Displays boot fun nr => events.foldl (Terminal.after nr) (Terminal.setup boot nr)) ∧
      ∃ queues, keyQueues.Path TransitionSystem.Unrestricted (fun _ => []) events queues ∧
        m.console.Represents queues := by
  constructor
  · induction path with
    | nil => exact Monitor.displays_setupTty reached blocks devs
    | @snoc last next events event _ _ step ih =>
      have both := fun nr => (Monitor.cleanEvents_append nr _ events event).mp (clean nr)
      simp only [Monitor.foldl_after]
      exact (ih fun nr => (both nr).1).step step fun nr => (both nr).2
  · have start : (console keymap).initial (Monitor.setupTty blocks devs boot).console :=
      Monitor.console_setupTty blocks devs boot
    have run : (console keymap).Path TransitionSystem.Unrestricted
        (Monitor.setupTty blocks devs boot).console events m.console := by
      clear clean
      induction path with
      | nil => exact .nil _
      | snoc _ _ step ih => exact ih.snoc trivial (Monitor.console_step step)
    exact Console.represents_of_path start run

namespace Switched

/-- The second terminal. -/
def tty1 : Fin nrTtys := ⟨1, by decide⟩

/-- Alt, and with it the second function key. -/
def keymap (i : Nat) : Nat :=
  if i = 56 * keymapStates then ALT else if i = 60 * keymapStates + 2 then AF1 + 1 else 0

/-- A cleared screen. -/
def boot : BootConsole := BootConsole.kclear ⟨{ cell := fun _ => 0 }, 0, 0, 0, 0⟩

/-- It is one that `_kclear` leaves. -/
theorem reached : bootConsole.Reachable boot :=
  .start ⟨_, rfl, rfl⟩

/-- `"\e[2JA"`. -/
def output : List UInt8 := [27, 91, 50, 74, 65]

/-- The second terminal is written to, and then Alt and F2 are pressed. -/
def events : List ConsoleEvent :=
  [.write tty1 output, .interrupt 56 none, .interrupt 60 none]

/-- The terminals at the beginning. -/
def first : Monitor := Monitor.setupTty (fun _ => {}) (fun _ => 0) boot

/-- The terminals after the output and Alt. -/
def held : Monitor := (first.doTtyWrite tty1 output).irqTtyKeyboard keymap 56

/-- The terminals after F2. -/
def last : Monitor := held.irqTtyKeyboard keymap 60

/-- This is a run. -/
theorem path : (monitor keymap).Path TransitionSystem.Unrestricted first events last := by
  have alt : (monitor keymap).step (first.doTtyWrite tty1 output) (.interrupt 56 none) held :=
    ⟨by decide, rfl⟩
  have f2 : (monitor keymap).step held (.interrupt 60 none) last := ⟨by decide, rfl⟩
  exact (((TransitionSystem.Path.nil first).snoc trivial rfl).snoc trivial alt).snoc trivial f2

end Switched

open Switched in
/-- The monitor shows what was written to the second terminal before. -/
theorem monitor_shows_terminals_switched : last.console.currentTty = tty1 ∧
    videoRows last.video =
      (events.foldl (Terminal.after last.console.currentTty)
        (Terminal.setup boot last.console.currentTty)).screen.rows :=
  ⟨by decide, (monitor_shows_terminals reached path (by decide)).1.rows⟩

end Nupkux
