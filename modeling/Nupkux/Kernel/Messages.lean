import Nupkux.Fs.Open
import Nupkux.Kernel.Interpret

/-!
# The messages of the kernel shell

`printf` formats into a buffer of `STRLEN` bytes, and nothing bounds what `vsprintf` writes there.
The interpreter, `nish_cat`, `nish_ls` and `nish_cd` print words of the command, which may be almost
as long as the buffer, with text of their own around them. What paths lead to is a parameter; the
messages of the other commands have no text of the command and are not kept.
-/

namespace Nupkux

/-- What a path leads to, or the error, and the entries of a directory. -/
structure ShellFiles where
  namei : CString → Except Int Vnode
  entries : Vnode → List (CString × Vnode)

/-- What `sys_chdir` returns. -/
def ShellFiles.sysChdir (files : ShellFiles) (path : CString) : Int :=
  match files.namei path with
  | .ok node => if node.isDir then 0 else -ENOTDIR
  | .error status => status

/-- The three characters for three bits of the mode. -/
def permissions (mode : Nat) : CString :=
  [if mode.testBit 2 then 114 else 45, if mode.testBit 1 then 119 else 45,
    if mode.testBit 0 then 120 else 45]

/-- `format_mode`, of a vnode. -/
def formatMode (node : Vnode) : CString :=
  let kind : UInt8 :=
    match node.attributes.flags &&& 7 with
    | 2 => 100
    | 3 => 99
    | 4 => 98
    | 5 => 112
    | 6 => 108
    | _ => 45
  let mode := node.attributes.mode
  kind :: (permissions (mode >>> 6) ++ permissions (mode >>> 3) ++ permissions mode)

/-- `nish_cat`. -/
def nishCat (files : ShellFiles) (argc : Int) (argv : Nat → Option CString) : List PrintCall :=
  if argc = 1 then []
  else
    match files.namei ((argv 1).getD []) with
    | .ok _ => []
    | .error _ =>
      [{ fmt := ascii "Error: Cannot find file %s.\n", args := [.text (argv 1)],
         ofCommand := true }]

/-- The line of `nish_ls` for a vnode. -/
def listLine (node : Vnode) (name : Option CString) (ofCommand : Bool) : PrintCall where
  fmt := ascii "%d\t%s\t%d\t%d\t%d\t%s\n"
  args := [.word node.ino, .text (formatMode node), .word node.attributes.uid,
    .word node.attributes.gid, .word node.attributes.size, .text name]
  ofCommand

/-- `nish_ls`. -/
def nishLs (files : ShellFiles) (argc : Int) (argv : Nat → Option CString) : List PrintCall :=
  match files.namei (if argc = 1 then ascii "." else (argv 1).getD []) with
  | .ok node =>
    { fmt := ascii "Inode\tMode\t\tUID\tGID\tSize\tName\n", args := [] } ::
      if !node.isDir then [listLine node (argv 1) true]
      else
        ((files.entries node).filter fun entry => entry.1.headD 0 ≠ 46).map fun entry =>
          listLine entry.2 (some entry.1) false
  | .error _ =>
    [{ fmt := ascii "Error: Could not find file %s.\n", args := [.text (argv 1)],
       ofCommand := true }]

/-- `nish_cd`. -/
def nishCd (files : ShellFiles) (argc : Int) (argv : Nat → Option CString) : List PrintCall :=
  if argc = 1 then []
  else
    let ret := files.sysChdir ((argv 1).getD [])
    if ret = -ENOENT then
      [{ fmt := ascii "cd: %s: No such file or directory\n", args := [.text (argv 1)]
         ofCommand := true }]
    else if ret = -ENOTDIR then
      [{ fmt := ascii "cd: %s: Is no directory\n", args := [.text (argv 1)], ofCommand := true }]
    else []

/-- The built-in commands: what they print of the command. Their other effects are a parameter. -/
def builtIns (files : ShellFiles)
    (effect : BuiltIn → Int → (Nat → Option CString) → Finset Nat → Finset Nat × Int) : BuiltIns :=
  fun builtIn argc argv live =>
    { live := (effect builtIn argc argv live).1
      printed :=
        match builtIn with
        | .cat => nishCat files argc argv
        | .ls => nishLs files argc argv
        | .cd => nishCd files argc argv
        | _ => []
      ret := (effect builtIn argc argv live).2 }

/-- The calls of `printf` for a command. A command that begins with a control character is not
run. -/
def messages (files : ShellFiles) (line : CString) : List PrintCall :=
  if charValue (line.headD 0) < 32 then []
  else (runLine (builtIns files fun _ _ _ live => (live, 1)) line ∅).printed

/-- A call of `printf` does not overrun its buffer. -/
def PrintCall.Fits (call : PrintCall) : Prop :=
  ∃ out, vsprintf call.fmt call.args = some out ∧ out.length ≤ strlen - 1

/-- Every call with text of the command fits. -/
def MessagesFit (files : ShellFiles) (line : CString) : Prop :=
  ∀ call ∈ messages files line, call.ofCommand → call.Fits

/-- The length of a word of a command. -/
def wordLength (line : CString) (k : Nat) : Nat := ((argvOf line k).getD []).length

/-- The digits and signs of the numbers in the line for a vnode. -/
def numbersLength (node : Vnode) : Nat :=
  (decimalText (toInt node.ino)).length + (decimalText (toInt node.attributes.uid)).length +
    (decimalText (toInt node.attributes.gid)).length +
    (decimalText (toInt node.attributes.size)).length

/-- The word that is printed leaves room for the rest of the message. -/
def RoomForWord (files : ShellFiles) (line : CString) : Prop :=
  match BuiltIn.find (argvOf line 0) with
  | none => wordLength line 0 + 27 < strlen
  | some .cat =>
    match files.namei ((argvOf line 1).getD []) with
    | .ok _ => True
    | .error _ => wordLength line 1 + 26 < strlen
  | some .ls =>
    match files.namei
        (if (splitArgs line).length = 1 then ascii "." else (argvOf line 1).getD []) with
    | .ok node => node.isDir ∨ wordLength line 1 + numbersLength node + 16 < strlen
    | .error _ => wordLength line 1 + 29 < strlen
  | some .cd =>
    (files.sysChdir ((argvOf line 1).getD []) = -ENOENT → wordLength line 1 + 32 < strlen) ∧
      (files.sysChdir ((argvOf line 1).getD []) = -ENOTDIR → wordLength line 1 + 22 < strlen)
  | some _ => True

variable {files : ShellFiles} {line fmt out : CString} {args : List PrintArgument}
  {argc : Int} {argv : Nat → Option CString} {word : Option CString} {own : Bool} {node : Vnode}

/-! ## Lengths -/

/-- What fits is what `vsprintf` writes. -/
theorem fits_iff_length (formats : Vsprintf.Formats fmt args out) :
    PrintCall.Fits ⟨fmt, args, own⟩ ↔ out.length ≤ strlen - 1 := by
  have run : vsprintf fmt args = some out := formats.vsprintf
  constructor
  · rintro ⟨written, same, fits⟩
    rw [run] at same
    rwa [Option.some.inj same]
  · intro fits
    exact ⟨out, run, fits⟩

/-- A message with a word in it. -/
theorem fits_word (before after : CString) (clear : (37 : UInt8) ∉ before)
    (clear' : (37 : UInt8) ∉ after) :
    PrintCall.Fits ⟨before ++ 37 :: 115 :: after, [.text word], own⟩ ↔
      (word.getD []).length + (before.length + after.length) < strlen := by
  have ends : Vsprintf.Formats after [] after := by
    have whole : Vsprintf.Formats (after ++ []) [] (after ++ []) := .literal .nil clear'
    rwa [List.append_nil] at whole
  rw [fits_iff_length (ends.string.literal clear), List.length_append, List.length_append]
  simp only [strlen]
  omega

/-- The mode of a vnode has ten characters. -/
theorem length_formatMode (node : Vnode) : (formatMode node).length = 10 := by
  simp [formatMode, permissions]

/-- Six texts with tabs between them and a newline. -/
theorem length_row (a b c d e f : CString) :
    (a ++ 9 :: (b ++ 9 :: (c ++ 9 :: (d ++ 9 :: (e ++ 9 :: (f ++ [10])))))).length =
      f.length + (a.length + c.length + d.length + e.length) + b.length + 6 := by
  simp only [List.length_append, List.length_cons, List.length_nil]
  omega

/-- The line for a vnode. -/
theorem fits_listLine :
    (listLine node word own).Fits ↔
      (word.getD []).length + numbersLength node + 16 < strlen := by
  have tab : (9 : UInt8) ≠ 37 := by decide
  have newline : (10 : UInt8) ≠ 37 := by decide
  -- from the name to the inode number
  have name : Vsprintf.Formats [37, 115, 10] [.text word] (word.getD [] ++ [10]) :=
    (Vsprintf.Formats.nil.char newline).string
  have numbers : Vsprintf.Formats [37, 100, 9, 37, 100, 9, 37, 100, 9, 37, 115, 10]
      [.word node.attributes.uid, .word node.attributes.gid, .word node.attributes.size, .text word]
      (decimalText (toInt node.attributes.uid) ++ 9 :: (decimalText (toInt node.attributes.gid) ++
        9 :: (decimalText (toInt node.attributes.size) ++ 9 :: (word.getD [] ++ [10])))) :=
    ((((name.char tab).decimal.char tab).decimal).char tab).decimal
  have formats : Vsprintf.Formats
      [37, 100, 9, 37, 115, 9, 37, 100, 9, 37, 100, 9, 37, 100, 9, 37, 115, 10]
      (listLine node word own).args
      (decimalText (toInt node.ino) ++ 9 :: (formatMode node ++
        9 :: (decimalText (toInt node.attributes.uid) ++
        9 :: (decimalText (toInt node.attributes.gid) ++
        9 :: (decimalText (toInt node.attributes.size) ++ 9 :: (word.getD [] ++ [10])))))) :=
    (((numbers.char tab).string (s := some (formatMode node))).char tab).decimal
  have row : ascii "%d\t%s\t%d\t%d\t%d\t%s\n" =
      [37, 100, 9, 37, 115, 9, 37, 100, 9, 37, 100, 9, 37, 100, 9, 37, 115, 10] := rfl
  rw [← row] at formats
  refine (fits_iff_length formats).trans ?_
  rw [length_row, length_formatMode, numbersLength]
  simp only [strlen]
  omega

/-! ## Commands -/

/-- One call with text of the command. -/
theorem forall_single {call : PrintCall} (ofCommand : call.ofCommand = true) :
    (∀ c ∈ [call], c.ofCommand → c.Fits) ↔ call.Fits := by
  simp [ofCommand]

/-- `nish_cat`. -/
theorem nishCat_fits (single : argc = 1 → argv 1 = none) :
    (∀ call ∈ nishCat files argc argv, call.ofCommand → call.Fits) ↔
      match files.namei ((argv 1).getD []) with
      | .ok _ => True
      | .error _ => ((argv 1).getD []).length + 26 < strlen := by
  rw [nishCat]
  by_cases alone : argc = 1
  · rw [if_pos alone, single alone]
    apply iff_of_true
    · exact fun call member => absurd member List.not_mem_nil
    · split
      · trivial
      · decide
  · rw [if_neg alone]
    cases files.namei ((argv 1).getD []) with
    | ok node => exact iff_of_true (fun call member => absurd member List.not_mem_nil) trivial
    | error status =>
      rw [forall_single rfl]
      exact fits_word (ascii "Error: Cannot find file ") (ascii ".\n") (by decide) (by decide)

/-- `nish_ls`. -/
theorem nishLs_fits :
    (∀ call ∈ nishLs files argc argv, call.ofCommand → call.Fits) ↔
      match files.namei (if argc = 1 then ascii "." else (argv 1).getD []) with
      | .ok node => node.isDir ∨ ((argv 1).getD []).length + numbersLength node + 16 < strlen
      | .error _ => ((argv 1).getD []).length + 29 < strlen := by
  rw [nishLs]
  cases files.namei (if argc = 1 then ascii "." else (argv 1).getD []) with
  | ok node =>
    by_cases directory : node.isDir = true
    · apply iff_of_true
      · intro call member ofCommand
        simp only [directory, Bool.not_true, Bool.false_eq_true, if_false] at member
        rcases List.mem_cons.mp member with rfl | entry
        · cases ofCommand
        · obtain ⟨_, _, rfl⟩ := List.mem_map.mp entry
          cases ofCommand
      · exact .inl directory
    · simp only [directory, Bool.not_false, if_true, Bool.false_eq_true, false_or]
      rw [List.forall_mem_cons, forall_single rfl, fits_listLine]
      exact and_iff_right fun ofCommand => nomatch ofCommand
  | error status =>
    dsimp only
    rw [forall_single rfl]
    exact fits_word (ascii "Error: Could not find file ") (ascii ".\n") (by decide) (by decide)

/-- `nish_cd`. -/
theorem nishCd_fits (single : argc = 1 → argv 1 = none) :
    (∀ call ∈ nishCd files argc argv, call.ofCommand → call.Fits) ↔
      (files.sysChdir ((argv 1).getD []) = -ENOENT → ((argv 1).getD []).length + 32 < strlen) ∧
        (files.sysChdir ((argv 1).getD []) = -ENOTDIR →
          ((argv 1).getD []).length + 22 < strlen) := by
  rw [nishCd]
  by_cases alone : argc = 1
  · rw [if_pos alone, single alone]
    apply iff_of_true
    · exact fun call member => absurd member List.not_mem_nil
    · exact ⟨fun _ => by decide, fun _ => by decide⟩
  · rw [if_neg alone]
    dsimp only
    generalize files.sysChdir ((argv 1).getD []) = ret
    have differ : (-ENOENT : Int) ≠ -ENOTDIR := by decide
    by_cases missing : ret = -ENOENT
    · have noFile : ¬ret = -ENOTDIR := fun same => differ (missing.symm.trans same)
      rw [if_pos missing, forall_single rfl]
      simp only [missing, differ, forall_const, false_imp_iff, and_true]
      exact fits_word (ascii "cd: ") (ascii ": No such file or directory\n") (by decide) (by decide)
    · rw [if_neg missing]
      by_cases noDirectory : ret = -ENOTDIR
      · rw [if_pos noDirectory, forall_single rfl]
        simp only [noDirectory, Ne.symm differ, forall_const, false_imp_iff, true_and]
        exact fits_word (ascii "cd: ") (ascii ": Is no directory\n") (by decide) (by decide)
      · rw [if_neg noDirectory]
        apply iff_of_true
        · exact fun call member => absurd member List.not_mem_nil
        · exact ⟨fun same => absurd same missing, fun same => absurd same noDirectory⟩

/-- A command that is not run prints nothing, and one that is run prints nothing too long for the
buffer if and only if the word leaves room for the rest of its message. -/
theorem messagesFit_iff (files : ShellFiles) (line : CString) :
    MessagesFit files line ↔ charValue (line.headD 0) < 32 ∨ RoomForWord files line := by
  rw [MessagesFit, messages]
  by_cases control : charValue (line.headD 0) < 32
  · rw [if_pos control]
    exact iff_of_true (fun call member => absurd member List.not_mem_nil) (.inl control)
  · rw [if_neg control, or_iff_right control, runLine, dispatch, RoomForWord]
    have single : ((splitArgs line).length : Int) = 1 → argvOf line 1 = none := by
      intro one
      exact List.getElem?_eq_none (by omega)
    cases found : BuiltIn.find (argvOf line 0) with
    | none =>
      dsimp only
      rw [forall_single rfl]
      exact fits_word (ascii "nish: ") (ascii ": command not found.\n") (by decide) (by decide)
    | some builtIn =>
      cases builtIn with
      | cat => exact nishCat_fits single
      | ls =>
        have fits := @nishLs_fits files (splitArgs line).length (argvOf line)
        simp only [Nat.cast_eq_one] at fits
        exact fits
      | cd => exact nishCd_fits single
      | test | clear | time | halt | reboot | help | exit | exec =>
        exact iff_of_true (fun call member => absurd member List.not_mem_nil) trivial

/-! ## The interpreter -/

/-- What is printed does not depend on the heap or on what else the commands do. -/
theorem printed_builtIns
    (effect : BuiltIn → Int → (Nat → Option CString) → Finset Nat → Finset Nat × Int)
    (live : Finset Nat) (text : ¬charValue (line.headD 0) < 32) :
    (runLine (builtIns files effect) line live).printed = messages files line := by
  rw [messages, if_neg text, runLine, runLine, dispatch, dispatch]
  cases BuiltIn.find (argvOf line 0) with
  | none => rfl
  | some builtIn => rfl

/-- `_nish_interpret` makes these calls for a command of few enough words. -/
theorem nishInterpret_messages {blocks : Nat → Nat} {array : Region Nat} {cmd args str : Nat}
    {s : Shell}
    (effect : BuiltIn → Int → (Nat → Option CString) → Finset Nat → Finset Nat × Int)
    (served : Served blocks s str cmd args) (spells : Spells (s.memory str) 0 line)
    (fits : line.length < strlen) (few : (splitArgs line).length < maxArgs) :
    ∃ left ret, nishInterpret (builtIns files effect) blocks array cmd args maxArgs s ⟨str, 0⟩ =
        some (left, ret) ∧ left.printed = s.printed ++ messages files line := by
  by_cases control : charValue (line.headD 0) < 32
  · refine ⟨s, 0, ?_, ?_⟩
    · rw [nishInterpret, load_first spells, if_pos control]
    · rw [messages, if_pos control, List.append_nil]
  · obtain ⟨left, given, runs, done⟩ := nishInterpret_few (builtIns files effect) array served
      spells fits control few
    exact ⟨left, _, runs, by rw [done.printed, printed_builtIns effect given control]⟩

/-- No path leads anywhere. -/
def noFiles : ShellFiles where
  namei _ := .error (-ENOENT)
  entries _ := []

/-- A line of 228 letters. -/
def longWord : CString := List.replicate 228 97

/-- It is one word. -/
theorem splitArgs_longWord : splitArgs longWord = [longWord] := by
  have letter : ∀ c ∈ longWord, c = 97 := fun c => List.eq_of_mem_replicate
  have plain : PlainCommand longWord := by
    intro c member blank
    rw [letter c member] at blank
    cases blank
  have absent : (32 : UInt8) ∉ longWord := fun member => absurd (letter 32 member) (by decide)
  have worded := words_of_not_mem absent (List.cons_ne_nil _ _)
  rw [splitArgs_eq_words plain (worded ▸ List.cons_ne_nil _ _), worded]

/-- The shell writes it to the command buffer, and the message that there is no such command is
one character too long. -/
theorem messagesFit_not :
    (Nish.nishWrite {} (longWord.length + 1) fun k => longWord.getD k 0).1.interpreted =
        [longWord] ∧ ¬MessagesFit noFiles longWord := by
  have count : longWord.length = 228 := List.length_replicate
  have letters : 0 ∉ longWord := fun member =>
    absurd (List.eq_of_mem_replicate member) (by decide)
  refine ⟨Nish.nishWrite_line letters (by rw [count]; decide), fun fit => ?_⟩
  have word : argvOf longWord 0 = some longWord := by
    rw [argvOf, splitArgs_longWord]
    rfl
  have unknown : BuiltIn.find (some longWord) = none := by decide
  rw [MessagesFit, messages, if_neg (by decide), runLine, dispatch, word, unknown] at fit
  have fits := (fits_word (ascii "nish: ") (ascii ": command not found.\n") (by decide)
    (by decide)).mp (fit _ List.mem_cons_self rfl)
  rw [show (some longWord).getD [] = longWord from rfl, count] at fits
  exact absurd fits (by decide)

end Nupkux
