import Mathlib.Data.Finset.Insert
import Mathlib.Data.Finset.Erase
import Nupkux.Vsprintf
import Nupkux.Kernel.CommandWords

/-!
# The commands of the kernel shell

`_nish_interpret` allocates an array for the arguments and a buffer for each entry of it, has the
command split into the buffers, runs what the first word names and gives back what the entries of
the array point to. The splitter has put the null pointer after the last argument, in place of a
buffer, so that buffer is never freed. What a built-in command does is a parameter.
-/

namespace Nupkux

/-- The commands the shell knows. -/
inductive BuiltIn where
  | test
  | clear
  | ls
  | cat
  | cd
  | time
  | halt
  | reboot
  | help
  | exit
  | exec
  deriving DecidableEq

/-- Their names, in the order they are compared. -/
def BuiltIn.names : List (CString × BuiltIn) :=
  [(ascii "test", .test), (ascii "clear", .clear), (ascii "ls", .ls), (ascii "cat", .cat),
    (ascii "cd", .cd), (ascii "time", .time), (ascii "halt", .halt), (ascii "reboot", .reboot),
    (ascii "help", .help), (ascii "exit", .exit), (ascii "exec", .exec)]

/-- The command of a name. -/
def BuiltIn.find (word : Option CString) : Option BuiltIn :=
  (names.find? fun entry => strcmp word (some entry.1) = 0).map Prod.snd

/-- A call of `printf`. -/
structure PrintCall where
  fmt : CString
  args : List PrintArgument
  /-- Whether it prints text of the command. -/
  ofCommand : Bool := false
  deriving DecidableEq

/-- The blocks of the heap that are in use, those a command was given and those it freed. -/
structure Ledger where
  live : Finset Nat
  allocated : List Nat := []
  freed : List Nat := []

/-- `calloc` answers with a block. -/
def Ledger.calloc (h : Ledger) (ptr : Nat) : Ledger :=
  { h with live := insert ptr h.live, allocated := h.allocated ++ [ptr] }

/-- `free`, which leaves the null pointer alone. -/
def Ledger.free (h : Ledger) (ptr : Nat) : Ledger :=
  if ptr = 0 then h else { h with live := h.live.erase ptr, freed := h.freed ++ [ptr] }

/-- What the interpreter works on. -/
structure Shell where
  memory : BlockMemory
  heap : Ledger
  printed : List PrintCall := []

/-- What a built-in command does to the heap, what it prints and what it returns. -/
structure Ran where
  live : Finset Nat
  printed : List PrintCall := []
  ret : Int

/-- Each built-in command, for `argc`, the strings of `argv` and the blocks in use. -/
abbrev BuiltIns := BuiltIn → Int → (Nat → Option CString) → Finset Nat → Ran

/-- The strings of the arguments, up to the null pointer after them. -/
def Arguments.strings (left : Arguments) (k : Nat) : Option CString :=
  if k < left.argc ∧ left.argv.cell k ≠ 0 then some ((left.memory (left.argv.cell k)).text 0 strlen)
  else none

namespace Shell

/-- The first turns of the loop that allocates the buffers. The `k`th call of `calloc` returns
`blocks k`. -/
def allocateArgs (blocks : Nat → Nat) : Nat → Shell → Region Nat → Shell × Region Nat
  | 0, s, argv => (s, argv)
  | i + 1, s, argv =>
    let (s, argv) := allocateArgs blocks i s argv
    let buffer := blocks (i + 1)
    ({ s with memory := s.memory.memset ⟨buffer, 0⟩ 0 strlen, heap := s.heap.calloc buffer },
      argv.write i buffer)

end Shell

/-- The comparisons with the names, and the command they select. -/
def dispatch (run : BuiltIns) (argc : Int) (argv : Nat → Option CString) (live : Finset Nat) :
    Ran :=
  match BuiltIn.find (argv 0) with
  | some builtIn => run builtIn argc argv live
  | none =>
    { live
      printed :=
        [{ fmt := ascii "nish: %s: command not found.\n", args := [.text (argv 0)]
           ofCommand := true }]
      ret := 0 }

/-- The first turns of the loop that frees the buffers. -/
def freeArgs (argv : Region Nat) : Nat → Ledger → Ledger
  | 0, h => h
  | i + 1, h => (freeArgs argv i h).free (argv.cell i)

/-- `_nish_interpret`, with the array in the first block and the buffers of `split_to_argv` in
two blocks of the stack. -/
def nishInterpret (run : BuiltIns) (blocks : Nat → Nat) (array : Region Nat) (cmd args rounds : Nat)
    (s : Shell) (str : Pointer) : Option (Shell × Int) :=
  if charValue (s.memory.load str) < 32 then some (s, 0)
  else
    let s := { s with heap := s.heap.calloc (blocks 0) }
    let (s, argv) := s.allocateArgs blocks maxArgs (array.fill 0 0 maxArgs)
    (splitToArgv s.memory (some str) argv cmd args rounds).map fun left =>
      let ran := dispatch run left.argc left.strings s.heap.live
      let heap := freeArgs left.argv maxArgs { s.heap with live := ran.live }
      ({ memory := left.memory, heap := heap.free (blocks 0), printed := s.printed ++ ran.printed },
        ran.ret)

/-- The arguments of a command, as `split_to_argv` finds them. -/
def argvOf (line : CString) (k : Nat) : Option CString := (splitArgs line)[k]?

/-- What a command selects. -/
def runLine (run : BuiltIns) (line : CString) (live : Finset Nat) : Ran :=
  dispatch run (splitArgs line).length (argvOf line) live

/-- Before a command nothing is recorded. The calls of `calloc` are served: the blocks they return
are no null pointers, not in use, different ones, and not the buffers on the stack. -/
structure Served (blocks : Nat → Nat) (s : Shell) (str cmd args : Nat) : Prop where
  untouched : s.heap.allocated = [] ∧ s.heap.freed = []
  nonzero : ∀ k ≤ maxArgs, blocks k ≠ 0
  fresh : ∀ k ≤ maxArgs, blocks k ∉ s.heap.live
  distinct : ∀ k l, k ≤ maxArgs → l ≤ maxArgs → blocks k = blocks l → k = l
  apart : ∀ k ≤ maxArgs, blocks k ≠ str ∧ blocks k ≠ cmd ∧ blocks k ≠ args
  buffers : args ≠ cmd ∧ cmd ≠ str

/-- A command is interpreted, the blocks in use are those from before, and each block it was given
is freed exactly once. -/
def LeaksNothing (run : BuiltIns) (blocks : Nat → Nat) (array : Region Nat) (cmd args : Nat)
    (s : Shell) (str : Pointer) : Prop :=
  ∃ rounds left ret, nishInterpret run blocks array cmd args rounds s str = some (left, ret) ∧
    left.heap.live = s.heap.live ∧ ∀ ptr ∈ left.heap.allocated, left.heap.freed.count ptr = 1

variable {run : BuiltIns} {blocks : Nat → Nat} {array argv : Region Nat} {cmd args str i ptr : Nat}
  {s : Shell} {h : Ledger} {line : CString}

/-! ## Allocation -/

/-- What the first turns of the loop that allocates leave. -/
structure ArgsAllocated (blocks : Nat → Nat) (i : Nat) (s s' : Shell) (argv' : Region Nat) :
    Prop where
  live : ∀ ptr, ptr ∈ s'.heap.live ↔ ptr ∈ s.heap.live ∨ ∃ k < i, ptr = blocks (k + 1)
  freed : s'.heap.freed = s.heap.freed
  printed : s'.printed = s.printed
  entries : ∀ k : Nat, k < i → argv'.cell k = blocks (k + 1)
  frame : ∀ b, (∀ k < i, b ≠ blocks (k + 1)) → s'.memory b = s.memory b

/-- The loop that allocates. -/
theorem allocateArgs_spec (blocks : Nat → Nat) (i : Nat) (s : Shell) (argv : Region Nat) :
    ArgsAllocated blocks i s (s.allocateArgs blocks i argv).1 (s.allocateArgs blocks i argv).2 := by
  induction i with
  | zero =>
    refine ⟨fun ptr => ?_, rfl, rfl, fun k below => absurd below (Nat.not_lt_zero k),
      fun b _ => rfl⟩
    show ptr ∈ s.heap.live ↔ _
    simp
  | succ i ih =>
    rw [Shell.allocateArgs]
    generalize s.allocateArgs blocks i argv = turned at ih
    obtain ⟨s', argv'⟩ := turned
    obtain ⟨live, freed, printed, entries, frame⟩ := ih
    refine ⟨fun ptr => ?_, freed, printed, fun k below => ?_, fun b apart => ?_⟩
    · show ptr ∈ insert (blocks (i + 1)) s'.heap.live ↔ _
      rw [Finset.mem_insert, live]
      constructor
      · rintro (here | before | ⟨k, below, here⟩)
        · exact .inr ⟨i, Nat.lt_succ_self i, here⟩
        · exact .inl before
        · exact .inr ⟨k, Nat.lt_succ_of_lt below, here⟩
      · rintro (before | ⟨k, below, here⟩)
        · exact .inr (.inl before)
        · rcases Nat.lt_succ_iff_lt_or_eq.mp below with small | rfl
          · exact .inr (.inr ⟨k, small, here⟩)
          · exact .inl here
    · show (argv'.write i (blocks (i + 1))).cell k = _
      by_cases last : k = i
      · rw [last, Region.cell_write_self]
      · rw [Region.cell_write_of_ne (by omega)]
        exact entries k (by omega)
    · have other := apart i (Nat.lt_succ_self i)
      show s'.memory.memset ⟨blocks (i + 1), 0⟩ 0 strlen b = _
      rw [show s'.memory.memset ⟨blocks (i + 1), 0⟩ 0 strlen b = s'.memory b from
        Function.update_of_ne other ..]
      exact frame b fun k below => apart k (Nat.lt_succ_of_lt below)

/-! ## Freeing -/

/-- Freeing a block. -/
theorem mem_live_free : ptr ∈ (h.free i).live ↔ ptr ∈ h.live ∧ (ptr = i → i = 0) := by
  rw [Ledger.free]
  by_cases null : i = 0
  · simp [null]
  · simp [null, Finset.mem_erase, and_comm]

/-- The blocks in use after the loop that frees. -/
theorem mem_live_freeArgs :
    ptr ∈ (freeArgs argv i h).live ↔ ptr ∈ h.live ∧ ∀ k < i, ptr = argv.cell k → ptr = 0 := by
  induction i with
  | zero => simp [freeArgs]
  | succ i ih =>
    rw [freeArgs, mem_live_free, ih]
    constructor
    · rintro ⟨⟨live, others⟩, last⟩
      refine ⟨live, fun k below same => ?_⟩
      rcases Nat.lt_succ_iff_lt_or_eq.mp below with small | rfl
      · exact others k small same
      · exact same.trans (last same)
    · rintro ⟨live, others⟩
      refine ⟨⟨live, fun k below => others k (Nat.lt_succ_of_lt below)⟩, fun same => ?_⟩
      exact same ▸ others i (Nat.lt_succ_self i) same

/-! ## A command -/

/-- An array with the blocks the calls of `calloc` returned. -/
theorem Served.argv_buffers (served : Served blocks s str cmd args)
    (entries : ∀ k : Nat, k < maxArgs → argv.cell k = blocks (k + 1)) : Buffers argv cmd args := by
  constructor
  · exact served.buffers.1
  · intro k inside
    rw [entries k inside]
    exact (served.apart (k + 1) inside).2.1
  · intro k inside
    rw [entries k inside]
    exact (served.apart (k + 1) inside).2.2
  · intro k l inside inside' same
    rw [entries k inside, entries l inside'] at same
    have next := served.distinct (k + 1) (l + 1) inside inside' same
    omega

/-- The blocks freed are those of the array, with the null pointer in one place. -/
theorem Served.mem_live_freed {n : Nat} (served : Served blocks s str cmd args)
    (entries : ∀ k : Nat, k < maxArgs → argv.cell k = blocks (k + 1)) :
    ptr ∈ ((freeArgs (argv.write n 0) maxArgs h).free (blocks 0)).live ↔
      ptr ∈ h.live ∧ ∀ k ≤ maxArgs, k ≠ n + 1 → ptr ≠ blocks k := by
  rw [mem_live_free, mem_live_freeArgs, and_assoc]
  apply and_congr_right'
  constructor
  · rintro ⟨buffers, first⟩ k inside other same
    cases k with
    | zero => exact served.nonzero 0 inside (first same)
    | succ k =>
      have entry : (argv.write n 0).cell k = blocks (k + 1) :=
        (Region.cell_write_of_ne (by omega)).trans (entries k inside)
      have null := buffers k inside (same.trans entry.symm)
      exact served.nonzero (k + 1) inside (same ▸ null)
  · intro others
    constructor
    · intro k inside same
      by_cases last : k = n
      · rwa [last, Region.cell_write_self] at same
      · rw [Region.cell_write_of_ne (by omega), entries k inside] at same
        exact absurd same (others (k + 1) inside (by omega))
    · intro same
      exact absurd same (others 0 (Nat.zero_le _) (by omega))

/-- The built-in commands are given the words. -/
theorem strings_eq (m : BlockMemory) (argv : Region Nat) (fits : line.length < strlen)
    (nonzero : ∀ k < (splitArgs line).length, argv.cell (k : Nat) ≠ 0)
    (stored : ∀ k : Nat, (below : k < (splitArgs line).length) →
      Spells (m (argv.cell (k : Nat))) 0 (splitArgs line)[k]) :
    (Arguments.mk m (argv.write (splitArgs line).length 0) (splitArgs line).length).strings =
      argvOf line := by
  funext k
  rw [Arguments.strings, argvOf]
  by_cases below : k < (splitArgs line).length
  · have entry : (argv.write (splitArgs line).length 0).cell k = argv.cell k :=
      Region.cell_write_of_ne (by omega)
    have short := (length_le_of_mem_splitArgs (List.getElem_mem below)).trans_lt fits
    dsimp only
    rw [entry, if_pos ⟨Int.ofNat_lt.mpr below, nonzero k below⟩, (stored k below).text short,
      List.getElem?_eq_getElem below]
  · have after : ¬((k : Int) < (splitArgs line).length) := by omega
    rw [if_neg fun found => after found.1, List.getElem?_eq_none (Nat.le_of_not_lt below)]

/-- What a command leaves: the blocks in use are those the built-in command left, without the array
and the buffers other than the one after the last argument. -/
structure Interpreted (run : BuiltIns) (blocks : Nat → Nat) (line : CString) (s left : Shell)
    (given : Finset Nat) : Prop where
  inUse : ∀ ptr, ptr ∈ given ↔ ptr ∈ s.heap.live ∨ ∃ k ≤ maxArgs, ptr = blocks k
  printed : left.printed = s.printed ++ (runLine run line given).printed
  live : ∀ ptr, ptr ∈ left.heap.live ↔ ptr ∈ (runLine run line given).live ∧
    ∀ k ≤ maxArgs, k ≠ (splitArgs line).length + 1 → ptr ≠ blocks k

/-- The first character of a command. -/
theorem load_first (spells : Spells (s.memory str) 0 line) :
    s.memory.load ⟨str, 0⟩ = line.headD 0 := by
  cases line with
  | nil => exact spells
  | cons c line => exact spells.1

/-- A command of few enough words is interpreted. -/
theorem nishInterpret_few (run : BuiltIns) (array : Region Nat)
    (served : Served blocks s str cmd args) (spells : Spells (s.memory str) 0 line)
    (fits : line.length < strlen)
    (text : ¬charValue (line.headD 0) < 32) (few : (splitArgs line).length < maxArgs) :
    ∃ left given, nishInterpret run blocks array cmd args maxArgs s ⟨str, 0⟩ =
        some (left, (runLine run line given).ret) ∧
      Interpreted run blocks line s left given := by
  have nonempty : line ≠ [] := by
    rintro rfl
    exact text (by decide)
  rw [nishInterpret, load_first spells, if_neg text]
  dsimp only
  -- the array and the buffers
  generalize start_eq : { s with heap := s.heap.calloc (blocks 0) } = start
  have turned := allocateArgs_spec blocks maxArgs start (array.fill 0 0 maxArgs)
  generalize start.allocateArgs blocks maxArgs (array.fill 0 0 maxArgs) = turn at turned ⊢
  obtain ⟨s', argv⟩ := turn
  dsimp only at turned ⊢
  have memory : start.memory = s.memory := start_eq ▸ rfl
  have printed : start.printed = s.printed := start_eq ▸ rfl
  have live : start.heap.live = insert (blocks 0) s.heap.live := start_eq ▸ rfl
  have buffers := served.argv_buffers turned.entries
  have given (ptr : Nat) :
      ptr ∈ s'.heap.live ↔ ptr ∈ s.heap.live ∨ ∃ k ≤ maxArgs, ptr = blocks k := by
    rw [turned.live, live, Finset.mem_insert]
    constructor
    · rintro ((here | before) | ⟨k, inside, here⟩)
      · exact .inr ⟨0, Nat.zero_le _, here⟩
      · exact .inl before
      · exact .inr ⟨k + 1, inside, here⟩
    · rintro (before | ⟨k, inside, here⟩)
      · exact .inl (.inr before)
      · cases k with
        | zero => exact .inl (.inl here)
        | succ k => exact .inr ⟨k, inside, here⟩
  have spelled : Spells (s'.memory str) 0 line := by
    rw [turned.frame str fun k below => (served.apart (k + 1) below).1.symm, memory]
    exact spells
  -- the words
  obtain ⟨m', split, done⟩ := splitToArgv_few buffers spelled served.buffers.2 fits nonempty few
  have strings := strings_eq m' argv fits
    (fun k below => by
      rw [turned.entries k (Nat.lt_trans below few)]
      exact served.nonzero (k + 1) (Nat.lt_trans below few))
    (fun k below => by
      have stored := done.stored k below
      rwa [Nat.zero_add] at stored)
  -- the command, and what is freed
  refine ⟨{ memory := m', heap := ((freeArgs (argv.write (splitArgs line).length 0) maxArgs
      { s'.heap with live := (runLine run line s'.heap.live).live }).free (blocks 0))
            printed := s'.printed ++ (runLine run line s'.heap.live).printed },
    s'.heap.live, ?_, given, ?_, fun ptr => ?_⟩
  · rw [split, Option.map_some]
    dsimp only
    rw [strings]
    rfl
  · dsimp only
    rw [turned.printed, printed]
  · exact served.mem_live_freed turned.entries

/-! ## Leaks -/

/-- A command that ends is the same with more rounds of the splitter to look at. -/
theorem nishInterpret_mono {str : Pointer} {rounds more : Nat} {left : Shell × Int}
    (ends : nishInterpret run blocks array cmd args rounds s str = some left)
    (enough : rounds ≤ more) : nishInterpret run blocks array cmd args more s str = some left := by
  rw [nishInterpret] at ends ⊢
  by_cases control : charValue (s.memory.load str) < 32
  · rw [if_pos control] at ends ⊢
    exact ends
  · rw [if_neg control] at ends ⊢
    dsimp only at ends ⊢
    obtain ⟨found, split, rfl⟩ := Option.map_eq_some_iff.mp ends
    rw [splitToArgv_mono split enough]
    rfl

/-- When the command itself leaves the blocks in use as they were, one buffer stays in use. -/
theorem nishInterpret_live (array : Region Nat) (served : Served blocks s str cmd args)
    (spells : Spells (s.memory str) 0 line) (fits : line.length < strlen)
    (text : ¬charValue (line.headD 0) < 32) (few : (splitArgs line).length < maxArgs)
    (keeps : ∀ live, (runLine run line live).live = live) :
    ∃ left ret, nishInterpret run blocks array cmd args maxArgs s ⟨str, 0⟩ = some (left, ret) ∧
      left.heap.live = insert (blocks ((splitArgs line).length + 1)) s.heap.live := by
  obtain ⟨left, given, runs, done⟩ :=
    nishInterpret_few run array served spells fits text few
  refine ⟨left, _, runs, Finset.ext fun ptr => ?_⟩
  rw [done.live, keeps, done.inUse, Finset.mem_insert]
  constructor
  · rintro ⟨before | ⟨k, inside, rfl⟩, others⟩
    · exact .inr before
    · by_cases last : k = (splitArgs line).length + 1
      · exact .inl (congrArg blocks last)
      · exact absurd rfl (others k inside last)
  · rintro (rfl | before)
    · refine ⟨.inr ⟨_, few, rfl⟩, fun k inside other same => other ?_⟩
      exact (served.distinct _ k few inside same).symm
    · exact ⟨.inl before, fun k inside _ same => served.fresh k inside (same ▸ before)⟩

/-- So a command that is run leaks a block. -/
theorem Served.leaks (served : Served blocks s str cmd args)
    (spells : Spells (s.memory str) 0 line) (fits : line.length < strlen)
    (text : ¬charValue (line.headD 0) < 32) (few : (splitArgs line).length < maxArgs)
    (keeps : ∀ live, (runLine run line live).live = live) :
    ¬LeaksNothing run blocks array cmd args s ⟨str, 0⟩ := by
  rintro ⟨rounds, left, ret, runs, same, _⟩
  obtain ⟨left', ret', runs', live⟩ :=
    nishInterpret_live array served spells fits text few keeps
  have both := (nishInterpret_mono runs (Nat.le_max_left rounds maxArgs)).symm.trans
    (nishInterpret_mono runs' (Nat.le_max_right rounds maxArgs))
  rw [← (Prod.mk.inj (Option.some.inj both)).1, same] at live
  have leaked : blocks ((splitArgs line).length + 1) ∈ s.heap.live := by
    rw [live]
    exact Finset.mem_insert_self ..
  exact served.fresh _ few leaked

/-- A command of few enough words that leaves the blocks in use as they were leaks nothing if and
only if it begins with a control character, so that it is not run. -/
theorem leaksNothing_iff (served : Served blocks s str cmd args)
    (spells : Spells (s.memory str) 0 line) (fits : line.length ≤ strlen - 1)
    (few : (splitArgs line).length < maxArgs)
    (keeps : ∀ live, (runLine run line live).live = live) :
    LeaksNothing run blocks array cmd args s ⟨str, 0⟩ ↔ charValue (line.headD 0) < 32 := by
  constructor
  · intro nothing
    by_contra text
    exact served.leaks spells (Nat.lt_of_le_pred (by decide) fits) text few keeps nothing
  · intro control
    refine ⟨0, s, 0, ?_, rfl, fun ptr member => ?_⟩
    · rw [nishInterpret, load_first spells, if_pos control]
    · rw [served.untouched.1] at member
      cases member

/-- Nothing is in use, and a command is in its block. -/
def commandShell (line : CString) : Shell where
  memory := commandBlocks line
  heap := { live := ∅ }

/-- Blocks from 20 on. -/
theorem served_commandShell (line : CString) : Served (· + 20) (commandShell line) 17 18 19 where
  untouched := ⟨rfl, rfl⟩
  nonzero k _ := Nat.succ_ne_zero _
  fresh k _ := Finset.notMem_empty _
  distinct k l _ _ same := Nat.add_right_cancel same
  apart k _ := by omega
  buffers := by decide

/-- Commands that do nothing. -/
def idle : BuiltIns := fun _ _ _ live => { live, ret := 0 }

/-- They leave the blocks in use as they were. -/
theorem runLine_idle (live : Finset Nat) : (runLine idle line live).live = live := by
  rw [runLine, dispatch]
  split <;> rfl

/-- A tab in front of a command. -/
theorem leaksNothing_tab :
    LeaksNothing idle (· + 20) ⟨fun _ => 0, []⟩ 18 19 (commandShell (ascii "\tls")) ⟨17, 0⟩ :=
  (leaksNothing_iff (served_commandShell (ascii "\tls"))
    (splitCall_commandBlocks (by decide) (by decide)).line (by decide)
    (length_splitArgs_lt (by decide)) runLine_idle).mpr
    (by decide)

/-- `help` leaks the second buffer. -/
theorem leaksNothing_not :
    ¬LeaksNothing idle (· + 20) ⟨fun _ => 0, []⟩ 18 19 (commandShell (ascii "help")) ⟨17, 0⟩ :=
  (served_commandShell (ascii "help")).leaks
    (splitCall_commandBlocks (by decide) (by decide)).line (by decide) (by decide)
    (length_splitArgs_lt (by decide)) runLine_idle

end Nupkux
