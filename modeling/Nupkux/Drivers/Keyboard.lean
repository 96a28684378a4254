import Nupkux.Drivers.Tty
import Nupkux.Lib.Ring
import Nupkux.Lib.Transition

/-!
# The keyboard

The keyboard interrupt and `tty_read`: a key goes into the ring `input_buffer` of the current
terminal, and a reader takes the keys of its terminal out of it. The abstract terminal input
is a queue of at most `TTY_INBUF_LEN - 1` keys that drops its oldest key when one more comes.
-/

namespace Nupkux

/-- `NR_TTYS`. -/
def nrTtys : Nat := 4

/-- `KEYMAP_STATES`. -/
def keymapStates : Nat := 6

/-- `KEYUP`. -/
def keyUp : Nat := 0x80

/-- The keys `handle_key` acts on. -/
def SHIFT : Nat := 0x0400
/-- Control. -/
def CTRL : Nat := 0x0200
/-- Alt. -/
def ALT : Nat := 0x0800
/-- Caps lock. -/
def CALOCK : Nat := 0x010D
/-- Alt and the first function key. -/
def AF1 : Nat := 0x0810
/-- Alt and the last function key. -/
def AF12 : Nat := 0x081B

/-- The static variables of the keyboard driver. -/
structure Keyboard where
  keyState : Nat := 0
  shift : Bool := false
  alt : Bool := false
  altgr : Bool := false
  ctrl : Bool := false
  escape : Bool := false
  deriving DecidableEq, Repr, Inhabited

namespace Keyboard

/-- `create_key_state`. -/
def createKeyState (k : Keyboard) : Keyboard :=
  let state := if k.shift then 1 else 0
  let state := if k.alt then state + 2 else state
  let state := if k.altgr then 3 else state
  { k with keyState := if k.ctrl then 5 else state }

/-- The beginning of `handle_key`: the second byte of a scan code that began with `0xE0` is
handled as a key that went up. -/
def handlePrefix (k : Keyboard) (scanCode key : Nat) (up : Bool) : Keyboard × Nat :=
  let (k, scanCode) :=
    if k.escape then
      ({ k with altgr := if key = ALT then !up else k.altgr, escape := false }, scanCode ||| keyUp)
    else (k, scanCode)
  (if scanCode = 0xE0 then { k with escape := true } else k, scanCode)

/-- `handle_key`. It returns the scan code and the key it leaves for the interrupt, and the
terminal it switches to. -/
def handleKey (keymap : Nat → Nat) (k : Keyboard) (scanCode : Nat) (up : Bool) :
    Keyboard × Nat × Nat × Option Nat :=
  let key := keymap ((scanCode &&& 0x7F) * keymapStates + k.keyState)
  let (k, scanCode) := k.handlePrefix scanCode key up
  let (k, scanCode, switch) :=
    if key = SHIFT then (createKeyState { k with shift := !up }, scanCode, none)
    else if key = CTRL then (createKeyState { k with ctrl := !up }, scanCode, none)
    else if key = ALT then (createKeyState { k with alt := !up }, scanCode, none)
    else if key = CALOCK then (createKeyState { k with shift := !k.shift }, scanCode, none)
    else if AF1 ≤ key ∧ key ≤ AF12 then
      (k, scanCode ||| keyUp, if scanCode &&& keyUp = 0 then some (key - AF1) else none)
    else (k, scanCode, none)
  (k, if key &&& 0xFF00 ≠ 0 then scanCode ||| keyUp else scanCode, key, switch)

end Keyboard

/-- The terminals, the current one and the keyboard. -/
structure Console where
  keyboard : Keyboard := {}
  tty : Fin nrTtys → Tty
  currentTty : Fin nrTtys

namespace Tty

/-- The end of `irq_tty_keyboard`: the key is stored, over the oldest one when the ring is
full. -/
def storeKey (t : Tty) (input : Nat) : Tty :=
  let inE := (t.inE + 1) % ushortWidth
  let inE := if inE = ttyInbufLen then 0 else inE
  let inS := (t.inS + 1) % ushortWidth
  { t with
    inputBuffer := Function.update t.inputBuffer t.inE input
    inE
    inS := if inE = t.inS then if inS = ttyInbufLen then 0 else inS else t.inS }

/-- One turn of the loop of `tty_read`, with the character it delivers. -/
def readTurn (t : Tty) : Tty × Option UInt8 :=
  if t.inE ≠ t.inS then
    let c := UInt8.ofNat (t.inputBuffer t.inS)
    let t := { t with inS := (t.inS + 1) % ushortWidth }
    let t := if t.echo then t.doTtyWrite [c] else t
    (if t.inS = ttyInbufLen then { t with inS := 0 } else t, some c)
  else (t, none)

end Tty

namespace Console

/-- Change one terminal. -/
def setTty (c : Console) (nr : Fin nrTtys) (t : Tty) : Console :=
  { c with tty := Function.update c.tty nr t }

/-- `set_current_tty`, up to `print_tty`. -/
def setCurrentTty (c : Console) (nr : Nat) : Console :=
  if inside : nr < nrTtys then { c with currentTty := ⟨nr, inside⟩ } else c

/-- `irq_tty_keyboard`, with the key it stores and the terminal it stores it for. -/
def irqTtyKeyboard (keymap : Nat → Nat) (c : Console) (scanCode : UInt8) :
    Console × Option (Fin nrTtys × Nat) :=
  let nr := c.currentTty
  let (keyboard, scan, input, switch) :=
    c.keyboard.handleKey keymap scanCode.toNat (scanCode.toNat &&& keyUp ≠ 0)
  let c := { c with keyboard }
  let c := (switch.map c.setCurrentTty).getD c
  if keyboard.escape then (c, none)
  else if scan &&& keyUp = 0 then (c.setTty nr ((c.tty nr).storeKey input), some (nr, input))
  else (c, none)

end Console

/-- What happens on the console: an interrupt with what it stored, a turn of a reader with
what it delivered, or output. -/
inductive ConsoleEvent where
  | interrupt (scanCode : UInt8) (stored : Option (Fin nrTtys × Nat))
  | read (nr : Fin nrTtys) (delivered : Option UInt8)
  | write (nr : Fin nrTtys) (buffer : List UInt8)
  deriving DecidableEq, Repr

/-- Interrupts, readers and writers in any order, from `setup_tty` on. -/
def console (keymap : Nat → Nat) : TransitionSystem Console ConsoleEvent where
  initial c := c.keyboard = {} ∧ ∀ nr, ∃ block mem cursor dev,
    c.tty nr = { createTty block nr with mem, cursor, dev }
  step c event c' :=
    match event with
    | .interrupt scanCode stored => c.irqTtyKeyboard keymap scanCode = (c', stored)
    | .read nr delivered =>
      (c.tty nr).readTurn.2 = delivered ∧ c' = c.setTty nr (c.tty nr).readTurn.1
    | .write nr buffer => c' = c.setTty nr ((c.tty nr).doTtyWrite buffer)

/-- The abstract input: a queue of keys for each terminal. -/
def keyQueues : TransitionSystem (Fin nrTtys → List Nat) ConsoleEvent where
  initial queues := ∀ nr, queues nr = []
  step queues event queues' :=
    match event with
    | .interrupt _ none => queues' = queues
    | .interrupt _ (some (nr, key)) =>
      queues' = Function.update queues nr (Ring.pushDropping (ttyInbufLen - 1) (queues nr) key)
    | .read nr delivered =>
      delivered = (queues nr).head?.map UInt8.ofNat ∧
        queues' = Function.update queues nr (queues nr).tail
    | .write _ _ => queues' = queues

/-- The keys stored for a terminal, the first one first. -/
def storedFor (nr : Fin nrTtys) (events : List ConsoleEvent) : List Nat :=
  events.filterMap fun
    | .interrupt _ (some (nr', key)) => if nr' = nr then some key else none
    | _ => none

/-- The characters delivered from a terminal, the first one first. -/
def deliveredFrom (nr : Fin nrTtys) (events : List ConsoleEvent) : List UInt8 :=
  events.filterMap fun
    | .read nr' delivered => if nr' = nr then delivered else none
    | _ => none

namespace Tty

/-- The keys in the ring of a terminal, the oldest first. -/
def keys (t : Tty) : List Nat := Ring.contents ttyInbufLen t.inputBuffer t.inS t.inE

/-- The indices of the ring are inside it. -/
def InputBounded (t : Tty) : Prop := t.inS < ttyInbufLen ∧ t.inE < ttyInbufLen

variable {t u : Tty} {i key : Nat}

/-- Terminals set up alike have the same input. -/
theorem input_of_setup (same : u.setup = t.setup) :
    u.inputBuffer = t.inputBuffer ∧ u.inS = t.inS ∧ u.inE = t.inE := by
  simp only [setup, Prod.mk.injEq] at same
  exact same.2.2

/-- Output leaves the input alone. -/
theorem keys_of_setup (same : u.setup = t.setup) : u.keys = t.keys := by
  obtain ⟨buffer, start, stop⟩ := input_of_setup same
  rw [keys, keys, buffer, start, stop]

/-- Output keeps the indices of the input. -/
theorem InputBounded.of_setup (bounded : t.InputBounded) (same : u.setup = t.setup) :
    u.InputBounded := by
  obtain ⟨_, start, stop⟩ := input_of_setup same
  rw [InputBounded, start, stop]
  exact bounded

/-- An index of the ring is advanced as in the ring library. -/
theorem advance_eq_next (inside : i < ttyInbufLen) :
    (if (i + 1) % ushortWidth = ttyInbufLen then 0 else (i + 1) % ushortWidth) =
      Ring.next ttyInbufLen i := by
  have small : (i + 1) % ushortWidth = i + 1 := by
    apply Nat.mod_eq_of_lt
    simp only [ttyInbufLen, ushortWidth] at *
    omega
  rw [small, Ring.next]

/-- The indices after a key is stored. -/
theorem storeKey_indices (bounded : t.InputBounded) (key : Nat) :
    (t.storeKey key).inE = Ring.next ttyInbufLen t.inE ∧
      (t.storeKey key).inS = if Ring.next ttyInbufLen t.inE = t.inS
        then Ring.next ttyInbufLen t.inS else t.inS := by
  rw [← advance_eq_next bounded.1, ← advance_eq_next bounded.2]
  exact ⟨rfl, rfl⟩

/-- Storing a key keeps the indices inside the ring. -/
theorem InputBounded.storeKey (bounded : t.InputBounded) (key : Nat) :
    (t.storeKey key).InputBounded := by
  obtain ⟨stop, start⟩ := storeKey_indices bounded key
  rw [InputBounded, stop, start]
  constructor
  · split
    · exact Ring.next_lt bounded.1
    · exact bounded.1
  · exact Ring.next_lt bounded.2

/-- Storing a key pushes it at the back of the queue, which drops its oldest key when full. -/
theorem keys_storeKey (bounded : t.InputBounded) (key : Nat) :
    (t.storeKey key).keys = Ring.pushDropping (ttyInbufLen - 1) t.keys key := by
  obtain ⟨stop, start⟩ := storeKey_indices bounded key
  have push : _ = Ring.pushDropping (ttyInbufLen - 1) t.keys key :=
    Ring.contents_push (by decide) bounded.1 bounded.2
  rw [← start, ← stop] at push
  exact push

/-- A reader finds nothing exactly when the queue is empty, and then changes nothing. -/
theorem readTurn_of_empty (bounded : t.InputBounded) (empty : t.keys = []) :
    t.readTurn = (t, none) := by
  have same : t.inS = t.inE := (Ring.contents_eq_nil bounded.1).mp empty
  unfold readTurn
  rw [if_neg (not_not.mpr same.symm)]

/-- What a reader that finds a key does to the ring, also when it echoes the key. -/
theorem readTurn_input (low : t.inS < ttyInbufLen) (some : t.inE ≠ t.inS) :
    t.readTurn.1.inputBuffer = t.inputBuffer ∧
      t.readTurn.1.inS = Ring.next ttyInbufLen t.inS ∧ t.readTurn.1.inE = t.inE := by
  let moved : Tty := { t with inS := (t.inS + 1) % ushortWidth }
  obtain ⟨u, same, turn⟩ : ∃ u : Tty, u.setup = moved.setup ∧
      t.readTurn.1 = if u.inS = ttyInbufLen then { u with inS := 0 } else u := by
    unfold readTurn
    rw [if_pos some]
    refine ⟨if t.echo then moved.doTtyWrite [UInt8.ofNat (t.inputBuffer t.inS)] else moved, ?_, rfl⟩
    split
    · exact setup_doTtyWrite moved _
    · rfl
  obtain ⟨buffer, start, stop⟩ := input_of_setup same
  have here : u.inS = (t.inS + 1) % ushortWidth := start
  rw [turn, ← advance_eq_next low, ← here]
  split
  · exact ⟨buffer, rfl, stop⟩
  · exact ⟨buffer, rfl, stop⟩

/-- A reader takes the oldest key of the queue. -/
theorem readTurn_of_keys (bounded : t.InputBounded) {rest : List Nat}
    (keys : t.keys = key :: rest) : t.readTurn.2 = some (UInt8.ofNat key) ∧
      t.readTurn.1.keys = rest ∧ t.readTurn.1.InputBounded := by
  obtain ⟨low, high⟩ := bounded
  have apart : t.inS ≠ t.inE := by
    intro same
    have empty : t.keys = [] := (Ring.contents_eq_nil low).mpr same
    exact absurd (keys.symm.trans empty) (List.cons_ne_nil _ _)
  have split : t.keys = _ := Ring.contents_eq_cons low high apart
  have taken := split.symm.trans keys
  rw [List.cons.injEq] at taken
  obtain ⟨buffer, start, stop⟩ := readTurn_input low apart.symm
  refine ⟨?_, ?_, ?_⟩
  · unfold readTurn
    rw [if_pos apart.symm, ← taken.1]
  · rw [Tty.keys, buffer, start, stop]
    exact taken.2
  · rw [InputBounded, start, stop]
    exact ⟨Ring.next_lt low, high⟩

/-- What a reader does is what taking from the queue does. -/
theorem readTurn_spec (bounded : t.InputBounded) :
    t.readTurn.2 = t.keys.head?.map UInt8.ofNat ∧ t.readTurn.1.keys = t.keys.tail ∧
      t.readTurn.1.InputBounded := by
  cases queue : t.keys with
  | nil =>
    rw [readTurn_of_empty bounded queue]
    exact ⟨rfl, queue, bounded⟩
  | cons key rest => exact readTurn_of_keys bounded queue

end Tty

/-- A scan code that `KEYUP` is set in has it. -/
theorem or_keyUp (n : Nat) : (n ||| keyUp) &&& keyUp ≠ 0 := by
  intro zero
  have bit : keyUp.testBit 7 = true := by decide
  have clear := congrArg (Nat.testBit · 7) zero
  simp [bit] at clear

namespace Keyboard

/-- The key of a scan code in the present state. -/
def keyOf (keymap : Nat → Nat) (k : Keyboard) (scanCode : Nat) : Nat :=
  keymap ((scanCode &&& 0x7F) * keymapStates + k.keyState)

variable {k : Keyboard} {scanCode key : Nat} {up : Bool}

/-- The beginning of `handle_key` leaves a scan code without `KEYUP` for a key that goes down and is
not the second byte after `0xE0`. Such a scan code begins no pair. -/
theorem handlePrefix_scan :
    ((k.handlePrefix scanCode key up).2 &&& keyUp = 0 ↔
      k.escape = false ∧ scanCode &&& keyUp = 0) ∧
    ((k.handlePrefix scanCode key up).2 &&& keyUp = 0 →
      (k.handlePrefix scanCode key up).1.escape = false) := by
  unfold handlePrefix
  cases escape : k.escape with
  | true => simp [or_keyUp]
  | false =>
    refine ⟨by simp, fun down => ?_⟩
    have down' : scanCode &&& keyUp = 0 := by simpa using down
    have other : scanCode ≠ 0xE0 := by
      rintro rfl
      exact absurd down' (by decide)
    simpa [other] using escape

/-- A function key has a high byte, as the modifiers have. -/
theorem high_of_function (low : AF1 ≤ key) (high : key ≤ AF12) : key &&& 0xFF00 ≠ 0 := by
  have functions : ∀ n < 12, (AF1 + n) &&& 0xFF00 ≠ 0 := by decide
  obtain ⟨n, rfl⟩ := Nat.exists_eq_add_of_le low
  exact functions n (by unfold AF1 AF12 at *; omega)

/-- `handle_key` leaves a scan code without `KEYUP` for a key that goes down, is not the second byte
after `0xE0` and has no high byte. -/
theorem handleKey_scan (keymap : Nat → Nat) (k : Keyboard) (scanCode : Nat) (up : Bool) :
    ((k.handleKey keymap scanCode up).2.1 &&& keyUp = 0 ↔ k.escape = false ∧
      scanCode &&& keyUp = 0 ∧ k.keyOf keymap scanCode &&& 0xFF00 = 0) ∧
    ((k.handleKey keymap scanCode up).2.1 &&& keyUp = 0 →
      (k.handleKey keymap scanCode up).1.escape = false) := by
  have first := @handlePrefix_scan k scanCode (k.keyOf keymap scanCode) up
  rw [handleKey, show keymap ((scanCode &&& 0x7F) * keymapStates + k.keyState) =
    k.keyOf keymap scanCode from rfl]
  generalize k.keyOf keymap scanCode = key at *
  generalize k.handlePrefix scanCode key up = p at *
  by_cases plain : key &&& 0xFF00 = 0
  · have other (modifier : Nat) (high : modifier &&& 0xFF00 ≠ 0) : key ≠ modifier :=
      fun same => high (same ▸ plain)
    have noFunction : ¬(AF1 ≤ key ∧ key ≤ AF12) := fun range =>
      high_of_function range.1 range.2 plain
    simp only [other SHIFT (by decide), other CTRL (by decide), other ALT (by decide),
      other CALOCK (by decide), noFunction, plain, if_false, not_true_eq_false, ne_eq, and_true]
    exact first
  · simp [plain, or_keyUp]

end Keyboard

namespace Console

variable {keymap : Nat → Nat} {c c' : Console} {event : ConsoleEvent}

/-- Every terminal's input is bounded and stands for its queue. -/
def Represents (c : Console) (queues : Fin nrTtys → List Nat) : Prop :=
  ∀ nr, (c.tty nr).InputBounded ∧ (c.tty nr).keys = queues nr

variable {queues : Fin nrTtys → List Nat}

/-- Switching to a terminal changes none. -/
@[simp] theorem tty_setCurrentTty (c : Console) (nr : Nat) : (c.setCurrentTty nr).tty = c.tty := by
  unfold setCurrentTty
  split <;> rfl

/-- Changing one terminal's input changes one queue. -/
theorem Represents.setTty (represents : c.Represents queues) (nr : Fin nrTtys) {t : Tty}
    {queue : List Nat} (bounded : t.InputBounded) (keys : t.keys = queue) :
    (c.setTty nr t).Represents (Function.update queues nr queue) := by
  intro other
  by_cases same : other = nr
  · subst same
    simp only [Console.setTty, Function.update_self]
    exact ⟨bounded, keys⟩
  · simp only [Console.setTty, Function.update_of_ne same]
    exact represents other

/-- Output on one terminal changes no queue. -/
theorem Represents.output (represents : c.Represents queues) (nr : Fin nrTtys) {t : Tty}
    (same : t.setup = (c.tty nr).setup) : (c.setTty nr t).Represents queues := by
  have changed := represents.setTty nr ((represents nr).1.of_setup same)
    ((Tty.keys_of_setup same).trans (represents nr).2)
  rwa [Function.update_eq_self] at changed

/-- An interrupt stores a key for the current terminal or changes no terminal. -/
theorem irqTtyKeyboard_cases (keymap : Nat → Nat) (c : Console) (scanCode : UInt8) :
    ∃ d : Console, d.tty = c.tty ∧ (c.irqTtyKeyboard keymap scanCode = (d, none) ∨
      ∃ key, c.irqTtyKeyboard keymap scanCode =
        (d.setTty c.currentTty ((c.tty c.currentTty).storeKey key), some (c.currentTty, key))) := by
  unfold irqTtyKeyboard
  obtain ⟨keyboard, scan, input, switch⟩ :=
    c.keyboard.handleKey keymap scanCode.toNat (scanCode.toNat &&& keyUp ≠ 0)
  let base : Console := { c with keyboard }
  refine ⟨(switch.map base.setCurrentTty).getD base, ?_, ?_⟩
  · cases switch with
    | none => rfl
    | some nr => exact tty_setCurrentTty base nr
  · have same : ((switch.map base.setCurrentTty).getD base).tty = c.tty := by
      cases switch with
      | none => rfl
      | some nr => exact tty_setCurrentTty base nr
    dsimp only
    split
    · exact .inl rfl
    · split
      · exact .inr ⟨input, congrArg (fun tty => (Console.setTty _ c.currentTty
          ((tty c.currentTty).storeKey input), some (c.currentTty, input))) same⟩
      · exact .inl rfl

/-- An interrupt stores the key of its scan code when the key goes down, is not the second byte
after `0xE0` and is neither a modifier nor a function key; otherwise it stores nothing. -/
theorem irqTtyKeyboard_stored (keymap : Nat → Nat) (c : Console) (scanCode : UInt8) :
    (c.irqTtyKeyboard keymap scanCode).2 =
      if c.keyboard.escape = false ∧ scanCode.toNat &&& keyUp = 0 ∧
          c.keyboard.keyOf keymap scanCode.toNat &&& 0xFF00 = 0 then
        some (c.currentTty, c.keyboard.keyOf keymap scanCode.toNat) else none := by
  obtain ⟨down, quiet⟩ := Keyboard.handleKey_scan keymap c.keyboard scanCode.toNat
    (scanCode.toNat &&& keyUp ≠ 0)
  have input : (c.keyboard.handleKey keymap scanCode.toNat
    (scanCode.toNat &&& keyUp ≠ 0)).2.2.1 = c.keyboard.keyOf keymap scanCode.toNat := rfl
  rw [← if_congr down rfl rfl, ← input]
  unfold irqTtyKeyboard
  generalize c.keyboard.handleKey keymap scanCode.toNat (scanCode.toNat &&& keyUp ≠ 0) = r at *
  dsimp only
  by_cases stores : r.2.1 &&& keyUp = 0
  · simp [stores, quiet stores]
  · simp [stores]

/-- A step of the console is a step of the queues with the same event. -/
theorem Represents.step (represents : c.Represents queues)
    (step : (console keymap).step c event c') :
    ∃ queues', keyQueues.step queues event queues' ∧ c'.Represents queues' := by
  cases event with
  | interrupt scanCode stored =>
    obtain ⟨d, same, quiet | ⟨key, stores⟩⟩ := irqTtyKeyboard_cases keymap c scanCode
    · obtain ⟨rfl, rfl⟩ := Prod.mk.inj (quiet.symm.trans step)
      refine ⟨queues, rfl, fun nr => ?_⟩
      rw [same]
      exact represents nr
    · obtain ⟨rfl, rfl⟩ := Prod.mk.inj (stores.symm.trans step)
      have here : d.Represents queues := fun nr => same ▸ represents nr
      obtain ⟨bounded, keys⟩ := represents c.currentTty
      refine ⟨_, rfl, here.setTty _ (bounded.storeKey key) ?_⟩
      rw [Tty.keys_storeKey bounded, keys]
  | read nr delivered =>
    obtain ⟨rfl, rfl⟩ := step
    obtain ⟨bounded, keys⟩ := represents nr
    obtain ⟨delivers, left, bounded'⟩ := Tty.readTurn_spec bounded
    rw [keys] at delivers left
    exact ⟨_, ⟨delivers, rfl⟩, represents.setTty nr bounded' left⟩
  | write nr buffer =>
    obtain rfl := step
    exact ⟨queues, rfl, represents.output nr (Tty.setup_doTtyWrite _ _)⟩

/-- No terminal has input at the start. -/
theorem represents_of_initial (start : (console keymap).initial c) :
    c.Represents fun _ => [] := by
  intro nr
  obtain ⟨block, mem, cursor, dev, same⟩ := start.2 nr
  rw [same]
  have inside : 0 < ttyInbufLen := by decide
  exact ⟨⟨inside, inside⟩, rfl⟩

/-- A run of the console is a run of the queues with the same events. -/
theorem represents_of_path {first : Console} {events : List ConsoleEvent}
    (start : (console keymap).initial first)
    (path : (console keymap).Path TransitionSystem.Unrestricted first events c) :
    ∃ queues, keyQueues.Path TransitionSystem.Unrestricted (fun _ => []) events queues ∧
      c.Represents queues := by
  induction path with
  | nil => exact ⟨_, .nil _, represents_of_initial start⟩
  | snoc _ _ step ih =>
    obtain ⟨queues, path, represents⟩ := ih
    obtain ⟨queues', step', represents'⟩ := represents.step step
    exact ⟨queues', path.snoc trivial step', represents'⟩

end Console

/-- The keys stored by one more event. -/
theorem storedFor_append (nr : Fin nrTtys) (events : List ConsoleEvent) (event : ConsoleEvent) :
    storedFor nr (events ++ [event]) = storedFor nr events ++ storedFor nr [event] :=
  List.filterMap_append

/-- The characters delivered by one more event. -/
theorem deliveredFrom_append (nr : Fin nrTtys) (events : List ConsoleEvent)
    (event : ConsoleEvent) :
    deliveredFrom nr (events ++ [event]) = deliveredFrom nr events ++ deliveredFrom nr [event] :=
  List.filterMap_append

/-- A queue after a key is pushed holds old keys and then the new one. -/
theorem pushDropping_sublist (capacity : Nat) (queue : List Nat) (key : Nat) :
    (Ring.pushDropping capacity queue key).Sublist (queue ++ [key]) := by
  unfold Ring.pushDropping
  apply List.Sublist.append_right
  split
  · exact List.Sublist.refl _
  · exact List.tail_sublist _

/-- What was delivered and what still waits was stored, in this order and each key once. -/
theorem keyQueues_sublist {first queues : Fin nrTtys → List Nat} {events : List ConsoleEvent}
    (path : keyQueues.Path TransitionSystem.Unrestricted first events queues)
    (nr : Fin nrTtys) (empty : first nr = []) :
    (deliveredFrom nr events ++ (queues nr).map UInt8.ofNat).Sublist
      ((storedFor nr events).map UInt8.ofNat) := by
  induction path with
  | nil =>
    rw [empty]
    exact List.Sublist.slnil
  | @snoc queues queues' events event path _ step ih =>
    rw [storedFor_append, deliveredFrom_append]
    have before := ih
    cases event with
    | interrupt scanCode stored =>
      have quiet : deliveredFrom nr [.interrupt scanCode stored] = [] := rfl
      rw [quiet, List.append_nil]
      cases stored with
      | none =>
        have nothing : storedFor nr [.interrupt scanCode none] = [] := rfl
        obtain rfl := step
        rw [nothing, List.append_nil]
        exact before
      | some target =>
        obtain ⟨nr', key⟩ := target
        obtain rfl := step
        by_cases here : nr = nr'
        · subst here
          have one : storedFor nr [.interrupt scanCode (some (nr, key))] = [key] := by
            simp [storedFor]
          rw [one, Function.update_self, List.map_append]
          have pushed := (pushDropping_sublist (ttyInbufLen - 1) (queues nr) key).map UInt8.ofNat
          refine (pushed.append_left _).trans ?_
          rw [List.map_append, ← List.append_assoc]
          exact before.append_right _
        · have nothing : storedFor nr [.interrupt scanCode (some (nr', key))] = [] := by
            simp [storedFor, Ne.symm here]
          rw [nothing, List.append_nil, Function.update_of_ne here]
          exact before
    | read nr' delivered =>
      have nothing : storedFor nr [.read nr' delivered] = [] := rfl
      rw [nothing, List.append_nil]
      obtain ⟨rfl, rfl⟩ := step
      by_cases here : nr = nr'
      · subst here
        rw [Function.update_self]
        cases queue : queues nr with
        | nil => simpa [deliveredFrom, queue] using before
        | cons key rest => simpa [deliveredFrom, queue] using before
      · have quiet : deliveredFrom nr
            [.read nr' ((queues nr').head?.map UInt8.ofNat)] = [] := by
          simp [deliveredFrom, Ne.symm here]
        rw [quiet, List.append_nil, Function.update_of_ne here]
        exact before
    | write nr' buffer =>
      have nothing : storedFor nr [.write nr' buffer] = [] := rfl
      have quiet : deliveredFrom nr [.write nr' buffer] = [] := rfl
      obtain rfl := step
      rw [nothing, quiet, List.append_nil, List.append_nil]
      exact before

/-- The keyboard buffer of every terminal is a bounded queue: a run of interrupts and readers
is a run of the abstract queues with the same events, the indices stay inside the ring, an interrupt
stores the key of its scan code unless that goes up, is the second byte after `0xE0` or has a high
byte, keys are delivered in order and none twice, and an empty queue gives nothing. -/
theorem keyboard_refines_queue {keymap : Nat → Nat} {first c : Console}
    {events : List ConsoleEvent} (start : (console keymap).initial first)
    (path : (console keymap).Path TransitionSystem.Unrestricted first events c) :
    (∀ nr, (c.tty nr).inS < ttyInbufLen ∧ (c.tty nr).inE < ttyInbufLen) ∧
    keyQueues.Path TransitionSystem.Unrestricted (fun _ => []) events
      (fun nr => (c.tty nr).keys) ∧
    (∀ scanCode, (c.irqTtyKeyboard keymap scanCode).2 =
      if c.keyboard.escape = false ∧ scanCode.toNat &&& keyUp = 0 ∧
          c.keyboard.keyOf keymap scanCode.toNat &&& 0xFF00 = 0 then
        some (c.currentTty, c.keyboard.keyOf keymap scanCode.toNat) else none) ∧
    (∀ nr, (deliveredFrom nr events).Sublist ((storedFor nr events).map UInt8.ofNat)) ∧
    ∀ nr, (c.tty nr).keys = [] → (c.tty nr).readTurn = (c.tty nr, none) := by
  obtain ⟨queues, path', represents⟩ := Console.represents_of_path start path
  have same : (fun nr => (c.tty nr).keys) = queues := funext fun nr => (represents nr).2
  rw [same]
  refine ⟨fun nr => (represents nr).1, path', c.irqTtyKeyboard_stored keymap, fun nr => ?_,
    fun nr empty => ?_⟩
  · exact (List.sublist_append_left _ _).trans (keyQueues_sublist path' nr rfl)
  · exact Tty.readTurn_of_empty (represents nr).1 empty

/-- The first terminal. -/
def tty0 : Fin nrTtys := ⟨0, Nat.zero_lt_succ 3⟩

/-- The terminals after `setup_tty`, with nothing typed. -/
def quietConsole : Console where
  tty nr := createTty {} nr
  currentTty := tty0

/-- A key that is typed on the first terminal and read from it. -/
theorem keyboard_refines_queue_typed :
    (deliveredFrom tty0 [.interrupt 30 (some (tty0, 97)), .read tty0 (some 97)]).Sublist
      ((storedFor tty0 [.interrupt 30 (some (tty0, 97)), .read tty0 (some 97)]).map UInt8.ofNat) := by
  let keymap : Nat → Nat := fun _ => 97
  let typed := (quietConsole.irqTtyKeyboard keymap 30).1
  have start : (console keymap).initial quietConsole :=
    ⟨rfl, fun nr => ⟨{}, { cell := fun _ => 0 }, {}, 0, rfl⟩⟩
  have step₁ : (console keymap).step quietConsole (.interrupt 30 (some (tty0, 97))) typed :=
    Prod.ext rfl (by decide)
  have step₂ : (console keymap).step typed (.read tty0 (some 97))
      (typed.setTty tty0 (typed.tty tty0).readTurn.1) := ⟨by decide, rfl⟩
  have none : (console keymap).Path TransitionSystem.Unrestricted quietConsole [] quietConsole :=
    .nil quietConsole
  exact (keyboard_refines_queue start ((none.snoc trivial step₁).snoc trivial step₂)).2.2.2.1 tty0

end Nupkux
