import Mathlib.Data.List.DropRight
import Nupkux.BlockStrings
import Nupkux.Kernel.Nish

/-!
# Splitting a command

`split_to_argv` takes a command apart in two buffers of its own: a round trims the rest of the
command in place, cuts its first word off and copies what is left back. Characters up to the space
are trimmed, but only the space ends a word. Nothing bounds the number of rounds, so a command of
many words leaves the array of the arguments.
-/

namespace Nupkux

/-- `MAX_ARGS`. -/
def maxArgs : Nat := 16

/-- `(c > 0) && (c <= 32)`, for a signed `char`. -/
def isBlank (c : UInt8) : Bool := decide (0 < charValue c) && decide (charValue c ≤ 32)

/-- The loop of `ltrim`. -/
def skipBlanks (m : BlockMemory) : Nat → Pointer → Pointer
  | 0, str => str
  | steps + 1, str => if isBlank (m.load str) then skipBlanks m steps (str.plus 1) else str

/-- `ltrim`. -/
def ltrim (m : BlockMemory) (cmd : Pointer) : BlockMemory × Int :=
  let str := skipBlanks m uintWidth cmd
  (m.strcpy cmd str, str.index - cmd.index)

/-- The first loop of `rtrim`. -/
def toEnd (m : BlockMemory) : Nat → Pointer → Pointer
  | 0, str => str
  | steps + 1, str => if m.load str ≠ 0 then toEnd m steps (str.plus 1) else str

/-- The second loop of `rtrim`. -/
def backBlanks (m : BlockMemory) (cmd : Pointer) : Nat → Pointer → Pointer
  | 0, str => str
  | steps + 1, str =>
    if isBlank (m.load str) ∧ str.index ≥ cmd.index then backBlanks m cmd steps (str.plus (-1))
    else str

/-- `rtrim`. -/
def rtrim (m : BlockMemory) (cmd : Pointer) : BlockMemory × Int :=
  if m.load cmd = 0 then (m, 0)
  else
    let str := toEnd m uintWidth cmd
    let str := backBlanks m cmd uintWidth (str.plus (-1))
    let str := str.plus 1
    (m.store str 0, str.index - cmd.index)

/-- `_nish_split_par`. -/
def nishSplitPar (m : BlockMemory) (cmd args : Pointer) : BlockMemory :=
  let m := (ltrim m cmd).1
  match m.strchr cmd 32 with
  | none => m
  | some astart =>
    let m := m.store astart 0
    let m := m.strcpy args (astart.plus 1)
    let m := (ltrim m args).1
    (rtrim m args).1

/-- One round of the loop of `split_to_argv`, with `argv[i]`. -/
def splitRound (m : BlockMemory) (cmd args slot : Pointer) : BlockMemory :=
  let m := m.memset args 0 strlen
  let m := nishSplitPar m cmd args
  let m := m.strcpy slot cmd
  m.strcpy cmd args

/-- The loop of `split_to_argv`, of which so many rounds are looked at: the memory and `i` after it.
The array holds the blocks its pointers lead to. -/
def splitLoop (argv : Region Nat) (cmd args : Pointer) :
    Nat → Nat → BlockMemory → Option (BlockMemory × Nat)
  | 0, _, _ => none
  | rounds + 1, i, m =>
    let m := splitRound m cmd args ⟨argv.cell i, 0⟩
    if m.load cmd = 0 then some (m, i + 1) else splitLoop argv cmd args rounds (i + 1) m

/-- What `split_to_argv` leaves. -/
structure Arguments where
  memory : BlockMemory
  argv : Region Nat
  argc : Int

/-- `split_to_argv`, with the blocks of its two buffers. -/
def splitToArgv (m : BlockMemory) (str : Option Pointer) (argv : Region Nat) (cmd args : Nat)
    (rounds : Nat) : Option Arguments :=
  match str with
  | none => some ⟨m, argv, -1⟩
  | some str =>
    if m.load str = 0 then some ⟨m, argv, 0⟩
    else
      let m := m.strncpy ⟨cmd, 0⟩ str strlen
      (splitLoop argv ⟨cmd, 0⟩ ⟨args, 0⟩ rounds 0 m).map fun left =>
        ⟨left.1, argv.write left.2 0, toInt left.2⟩

/-! ## Strings -/

/-- The first word of a command. -/
def firstWord (s : CString) : CString := (s.dropWhile isBlank).takeWhile (· ≠ 32)

/-- What is left of a command once its first word is cut off. -/
def afterWord (s : CString) : CString :=
  (((s.dropWhile isBlank).dropWhile (· ≠ 32)).tail.dropWhile isBlank).rdropWhile isBlank

variable {m : BlockMemory} {cmd args slot p : Pointer} {s w rest : CString} {b steps : Nat}

/-- What is left is shorter. -/
theorem length_afterWord_le (s : CString) : (afterWord s).length ≤ s.length - 1 := by
  have trimmed := (List.rdropWhile_prefix isBlank
    (((s.dropWhile isBlank).dropWhile (· ≠ 32)).tail.dropWhile isBlank)).length_le
  have front := (List.dropWhile_suffix isBlank
    (l := ((s.dropWhile isBlank).dropWhile (· ≠ 32)).tail)).length_le
  have word := (List.dropWhile_suffix (fun c : UInt8 => decide (c ≠ 32))
    (l := s.dropWhile isBlank)).length_le
  have first := (List.dropWhile_suffix isBlank (l := s)).length_le
  rw [List.length_tail] at front
  exact Nat.le_trans trimmed (by omega)

/-- The words `split_to_argv` finds. -/
def splitArgs (s : CString) : List CString :=
  if _more : afterWord s = [] then [firstWord s]
  else firstWord s :: splitArgs (afterWord s)
termination_by s.length
decreasing_by
  have shorter := length_afterWord_le s
  have positive := List.length_pos_iff.mpr _more
  omega

/-- The last word. -/
theorem splitArgs_of_nil (last : afterWord s = []) : splitArgs s = [firstWord s] := by
  rw [splitArgs, dif_pos last]

/-- A word with others after it. -/
theorem splitArgs_of_ne (more : afterWord s ≠ []) :
    splitArgs s = firstWord s :: splitArgs (afterWord s) := by
  rw [splitArgs, dif_neg more]

/-! ## Trimming -/

/-- What an operation has written to a buffer is inside it. -/
def Grows (r r' : Region UInt8) : Prop :=
  ∀ j ∈ r'.written, j ∈ r.written ∨ 0 ≤ j ∧ j < strlen

/-- One operation after the other. -/
theorem Grows.trans {r r' r'' : Region UInt8} (first : Grows r r') (second : Grows r' r'') :
    Grows r r'' := by
  intro j member
  rcases second j member with before | inside
  · exact first j before
  · exact .inr inside

/-- A string that was written to the start of a buffer it fits into. -/
theorem Wrote.grows {r r' : Region UInt8} (wrote : Wrote r r' 0 s) (fits : s.length < strlen) :
    Grows r r' := by
  intro j member
  rcases wrote.written j member with before | inside
  · exact .inl before
  · exact .inr (by omega)

/-- A string in a buffer is shorter than any walk. -/
theorem short_of_fits (fits : s.length < strlen) : s.length < uintWidth :=
  Nat.lt_trans fits (by decide)

/-- The loop of `ltrim` skips what is blank. -/
theorem skipBlanks_eq (spells : Spells (m p.block) p.index s) (enough : s.length < steps) :
    skipBlanks m steps p = p.plus (s.takeWhile isBlank).length := by
  induction s generalizing p steps with
  | nil =>
    obtain ⟨steps, rfl⟩ := Nat.exists_eq_add_of_lt enough
    have nul : m.load p = 0 := spells
    have stops : ¬isBlank (m.load p) = true := by
      rw [nul]
      decide
    rw [skipBlanks, if_neg stops]
    simp [Pointer.plus]
  | cons c s ih =>
    cases steps with
    | zero => cases enough
    | succ steps =>
      obtain ⟨first, _, later⟩ := spells
      have char : m.load p = c := first
      rw [skipBlanks, char]
      by_cases skipped : isBlank c = true
      · rw [if_pos skipped, ih (p := p.plus 1) later (Nat.lt_of_succ_lt_succ enough),
          List.takeWhile_cons_of_pos skipped]
        simp only [Pointer.plus, List.length_cons]
        congr 1
        omega
      · rw [if_neg skipped, List.takeWhile_cons_of_neg skipped]
        simp [Pointer.plus]

/-- `ltrim` removes what is blank at the beginning. -/
theorem ltrim_spec (spells : Spells (m b) 0 s) (fits : s.length < strlen) :
    (∀ b' ≠ b, (ltrim m ⟨b, 0⟩).1 b' = m b') ∧
      Wrote (m b) ((ltrim m ⟨b, 0⟩).1 b) 0 (s.dropWhile isBlank) := by
  have walk : skipBlanks m uintWidth ⟨b, 0⟩ = ⟨b, 0 + (s.takeWhile isBlank).length⟩ :=
    skipBlanks_eq (p := ⟨b, 0⟩) spells (short_of_fits fits)
  rw [← List.takeWhile_append_dropWhile (p := isBlank) (l := s)] at spells
  have later : Spells (m b) (0 + (s.takeWhile isBlank).length) (s.dropWhile isBlank) :=
    spells.append
  have short : (s.dropWhile isBlank).length < uintWidth :=
    Nat.lt_of_le_of_lt (List.dropWhile_suffix isBlank).length_le (short_of_fits fits)
  have order : (0 : Int) ≤ 0 + (s.takeWhile isBlank).length := by omega
  rw [ltrim, walk]
  exact ⟨fun b' apart => BlockMemory.strcpy_of_ne _ _ later (fun _ => order) short apart,
    BlockMemory.strcpy_wrote ⟨b, 0⟩ _ later (fun _ => order) short⟩

/-- The first loop of `rtrim` goes to the NUL. -/
theorem toEnd_eq (spells : Spells (m p.block) p.index s) (enough : s.length < steps) :
    toEnd m steps p = p.plus s.length := by
  induction s generalizing p steps with
  | nil =>
    obtain ⟨steps, rfl⟩ := Nat.exists_eq_add_of_lt enough
    have nul : ¬m.load p ≠ 0 := not_not.mpr spells
    rw [toEnd, if_neg nul]
    simp [Pointer.plus]
  | cons c s ih =>
    cases steps with
    | zero => cases enough
    | succ steps =>
      obtain ⟨first, nonzero, later⟩ := spells
      have char : m.load p = c := first
      rw [toEnd, char, if_pos nonzero, ih (p := p.plus 1) later (Nat.lt_of_succ_lt_succ enough)]
      simp only [Pointer.plus, List.length_cons]
      congr 1
      omega

/-- The second loop of `rtrim` goes back over what is blank. -/
theorem backBlanks_eq (spells : Spells (m b) 0 (w ++ rest)) (enough : w.length < steps) :
    backBlanks m ⟨b, 0⟩ steps ⟨b, w.length - 1⟩ = ⟨b, (w.rdropWhile isBlank).length - 1⟩ := by
  induction w using List.reverseRecOn generalizing rest steps with
  | nil =>
    obtain ⟨steps, rfl⟩ := Nat.exists_eq_add_of_lt enough
    rw [backBlanks, if_neg fun both => absurd both.2 (by simp)]
    rfl
  | append_singleton w c ih =>
    cases steps with
    | zero => cases enough
    | succ steps =>
      rw [List.append_assoc, List.singleton_append] at spells
      have position : (((w ++ [c]).length : Nat) : Int) - 1 = w.length := by simp
      have char : m.load ⟨b, w.length⟩ = c := by
        have cell := spells.cell.1
        rwa [Int.zero_add] at cell
      rw [position, backBlanks, char]
      by_cases trimmed : isBlank c = true
      · rw [List.length_append, List.length_singleton] at enough
        rw [if_pos ⟨trimmed, Int.natCast_nonneg _⟩, List.rdropWhile_concat, if_pos trimmed]
        exact ih spells (Nat.lt_of_succ_lt_succ enough)
      · rw [if_neg fun both => trimmed both.1, List.rdropWhile_concat, if_neg trimmed, position]

/-- `rtrim` removes what is blank at the end. -/
theorem rtrim_spec (spells : Spells (m b) 0 s) (fits : s.length < strlen) :
    (∀ b' ≠ b, (rtrim m ⟨b, 0⟩).1 b' = m b') ∧
      Spells ((rtrim m ⟨b, 0⟩).1 b) 0 (s.rdropWhile isBlank) ∧
      Grows (m b) ((rtrim m ⟨b, 0⟩).1 b) := by
  cases s with
  | nil =>
    have nul : m.load ⟨b, 0⟩ = 0 := spells
    rw [rtrim, if_pos nul]
    exact ⟨fun _ _ => rfl, spells, fun _ member => .inl member⟩
  | cons c s =>
    have nonzero : ¬m.load ⟨b, 0⟩ = 0 := by
      rw [show m.load ⟨b, 0⟩ = c from spells.1]
      exact spells.2.1
    generalize whole : c :: s = text at *
    have walk : toEnd m uintWidth ⟨b, 0⟩ = ⟨b, 0 + text.length⟩ :=
      toEnd_eq (p := ⟨b, 0⟩) spells (short_of_fits fits)
    have back : backBlanks m ⟨b, 0⟩ uintWidth ⟨b, text.length - 1⟩ =
        ⟨b, (text.rdropWhile isBlank).length - 1⟩ :=
      backBlanks_eq (List.append_nil text ▸ spells) (short_of_fits fits)
    have result : (rtrim m ⟨b, 0⟩).1 = m.store ⟨b, (text.rdropWhile isBlank).length⟩ 0 := by
      rw [rtrim, if_neg nonzero, walk, Int.zero_add]
      show m.store ((backBlanks m ⟨b, 0⟩ uintWidth ⟨b, text.length - 1⟩).plus 1) 0 = _
      rw [back]
      simp only [Pointer.plus, Int.sub_add_cancel]
    obtain ⟨rest, split⟩ := List.rdropWhile_prefix isBlank text
    have inside : (text.rdropWhile isBlank).length ≤ text.length :=
      (List.rdropWhile_prefix isBlank text).length_le
    rw [result]
    refine ⟨fun b' apart => BlockMemory.store_of_ne apart, ?_, ?_⟩
    · rw [← split] at spells
      apply spells.cut
      · rw [BlockMemory.store_self, Int.zero_add]
        exact Region.cell_write_self ..
      · intro j _ below
        rw [BlockMemory.store_self]
        apply Region.cell_write_of_ne
        show j ≠ ((text.rdropWhile isBlank).length : Int)
        omega
    · rw [BlockMemory.store_self]
      intro j member
      rcases List.mem_cons.mp member with here | before
      · have position : j = ((text.rdropWhile isBlank).length : Int) := here
        exact .inr (by omega)
      · exact .inl before

/-! ## One word -/

/-- The first word of a command has been cut off in one buffer, and what is left is in another. -/
structure SplitOff (m m' : BlockMemory) (cmd args : Nat) (s : CString) : Prop where
  frame : ∀ b, b ≠ cmd → b ≠ args → m' b = m b
  word : Spells (m' cmd) 0 (firstWord s)
  left : Spells (m' args) 0 (afterWord s)
  cmdGrows : Grows (m cmd) (m' cmd)
  argsGrows : Grows (m args) (m' args)

/-- A word fits where its command does. -/
theorem length_firstWord_le (s : CString) : (firstWord s).length ≤ s.length := by
  have word := (List.takeWhile_prefix (fun c : UInt8 => decide (c ≠ 32))
    (l := s.dropWhile isBlank)).length_le
  have first := (List.dropWhile_suffix isBlank (l := s)).length_le
  exact Nat.le_trans word first

/-- A string up to its first space. -/
theorem space_cases (t : CString) :
    (32 : UInt8) ∉ t ∧ t.takeWhile (· ≠ 32) = t ∧ t.dropWhile (· ≠ 32) = [] ∨
      ∃ w r, t = w ++ 32 :: r ∧ (32 : UInt8) ∉ w ∧ t.takeWhile (· ≠ 32) = w ∧
        t.dropWhile (· ≠ 32) = 32 :: r := by
  induction t with
  | nil => exact .inl ⟨List.not_mem_nil, rfl, rfl⟩
  | cons c t ih =>
    by_cases space : c = 32
    · subst space
      exact .inr ⟨[], t, rfl, List.not_mem_nil, rfl, rfl⟩
    · have goesOn : decide (c ≠ 32) = true := decide_eq_true space
      simp only [List.takeWhile_cons, List.dropWhile_cons, goesOn, if_true]
      rcases ih with ⟨absent, taken, dropped⟩ | ⟨w, r, split, absent, taken, dropped⟩
      · left
        rw [taken, dropped]
        exact ⟨List.not_mem_cons_of_ne_of_not_mem (Ne.symm space) absent, rfl, rfl⟩
      · right
        rw [taken, dropped]
        exact ⟨c :: w, r, by rw [split]; rfl,
          List.not_mem_cons_of_ne_of_not_mem (Ne.symm space) absent, rfl, rfl⟩

/-- `_nish_split_par` cuts the first word off. -/
theorem nishSplitPar_spec {c a : Nat} (spells : Spells (m c) 0 s) (fits : s.length < strlen)
    (clear : Spells (m a) 0 []) (differ : a ≠ c) :
    SplitOff m (nishSplitPar m ⟨c, 0⟩ ⟨a, 0⟩) c a s := by
  obtain ⟨frame, trimmed⟩ := ltrim_spec spells fits
  have shorter : (s.dropWhile isBlank).length ≤ s.length :=
    (List.dropWhile_suffix isBlank).length_le
  have grows := trimmed.grows (by omega)
  unfold nishSplitPar
  dsimp only
  generalize ltrim m ⟨c, 0⟩ = l at *
  generalize trimmed_eq : s.dropWhile isBlank = t at *
  have spelled := trimmed.spells
  rcases space_cases t with ⟨absent, taken, dropped⟩ | ⟨w, r, split, absent, taken, dropped⟩
  · -- one word, and nothing after it
    have none := BlockMemory.strchr_none (p := ⟨c, 0⟩) spelled absent (short_of_fits (by omega))
    simp only [none]
    constructor
    · exact fun b apart _ => frame b apart
    · rw [firstWord, trimmed_eq, taken]
      exact spelled
    · rw [afterWord, trimmed_eq, dropped, frame a differ]
      exact clear
    · exact grows
    · rw [frame a differ]
      exact fun _ member => .inl member
  · -- a word up to a space
    subst split
    rw [List.length_append, List.length_cons] at shorter
    have found := BlockMemory.strchr_some (p := ⟨c, 0⟩) spelled absent (short_of_fits (by omega))
    simp only [found]
    have index : (Pointer.plus ⟨c, 0⟩ w.length) = ⟨c, w.length⟩ := by simp [Pointer.plus]
    have next : (Pointer.plus ⟨c, w.length⟩ 1) = ⟨c, w.length + 1⟩ := rfl
    simp only [index, next]
    -- the space is overwritten
    generalize cut_eq : l.1.store ⟨c, w.length⟩ 0 = cut
    have cutCmd : cut c = (l.1 c).write w.length 0 := by
      rw [← cut_eq]
      exact BlockMemory.store_self l.1 ⟨c, w.length⟩ 0
    have cutFrame (b : Nat) (apart : b ≠ c) : cut b = l.1 b := by
      rw [← cut_eq]
      exact BlockMemory.store_of_ne apart
    have word : Spells (cut c) 0 w := by
      rw [cutCmd]
      apply spelled.cut
      · rw [Int.zero_add]
        exact Region.cell_write_self ..
      · intro j _ below
        exact Region.cell_write_of_ne (by omega)
    have rest : Spells (cut c) (w.length + 1) r := by
      have after := spelled.append.2.2
      rw [Int.zero_add] at after
      rw [cutCmd]
      exact after.congr fun j low _ => Region.cell_write_of_ne (by omega)
    -- what is left is copied
    have short : r.length < uintWidth := short_of_fits (by omega)
    have copied := BlockMemory.strcpy_wrote ⟨a, 0⟩ ⟨c, w.length + 1⟩ rest
      (fun same => absurd same differ) short
    have copyFrame (b : Nat) (apart : b ≠ a) :
        cut.strcpy ⟨a, 0⟩ ⟨c, w.length + 1⟩ b = cut b :=
      BlockMemory.strcpy_of_ne ⟨a, 0⟩ _ rest (fun same => absurd same differ) short apart
    generalize cut.strcpy ⟨a, 0⟩ ⟨c, w.length + 1⟩ = copy at *
    -- and trimmed
    obtain ⟨frontFrame, front⟩ := ltrim_spec copied.spells (by omega)
    have shorter' : (r.dropWhile isBlank).length ≤ r.length :=
      (List.dropWhile_suffix isBlank).length_le
    obtain ⟨backFrame, back, backGrows⟩ := rtrim_spec front.spells (by omega)
    constructor
    · intro b apart apart'
      rw [backFrame b apart', frontFrame b apart', copyFrame b apart', cutFrame b apart,
        frame b apart]
    · rw [backFrame c (Ne.symm differ), frontFrame c (Ne.symm differ), copyFrame c (Ne.symm differ),
        firstWord, trimmed_eq, taken]
      exact word
    · rw [afterWord, trimmed_eq, dropped]
      exact back
    · rw [backFrame c (Ne.symm differ), frontFrame c (Ne.symm differ), copyFrame c (Ne.symm differ),
        cutCmd]
      apply grows.trans
      intro j member
      rcases List.mem_cons.mp member with here | before
      · exact .inr (by omega)
      · exact .inl before
    · have copyGrows : Grows (m a) (copy a) := by
        have onto := copied.grows (by omega)
        rw [show cut a = m a from (cutFrame a differ).trans (frame a differ)] at onto
        exact onto
      exact (copyGrows.trans (front.grows (by omega))).trans backGrows

/-- A word is at most as long as the command. -/
theorem length_le_of_mem_splitArgs (member : w ∈ splitArgs s) : w.length ≤ s.length := by
  induction s using splitArgs.induct with
  | case1 s last =>
    rw [splitArgs_of_nil last] at member
    rw [List.mem_singleton.mp member]
    exact length_firstWord_le s
  | case2 s more ih =>
    rw [splitArgs_of_ne more] at member
    rcases List.mem_cons.mp member with first | later
    · rw [first]
      exact length_firstWord_le s
    · exact ((ih later).trans (length_afterWord_le s)).trans (Nat.sub_le ..)

/-! ## Rounds -/

/-- The buffers of a call: those of the arguments are different ones, and not the two of
`split_to_argv` itself. -/
structure Buffers (argv : Region Nat) (cmd args : Nat) : Prop where
  differ : args ≠ cmd
  cmd : ∀ k : Nat, k < maxArgs → argv.cell k ≠ cmd
  args : ∀ k : Nat, k < maxArgs → argv.cell k ≠ args
  distinct : ∀ k l : Nat, k < maxArgs → l < maxArgs → argv.cell k = argv.cell l → k = l

/-- After a round, the first word is in a buffer of the arguments and what is left is the
command. -/
structure RoundDone (m m' : BlockMemory) (cmd args slot : Nat) (s : CString) : Prop where
  frame : ∀ b, b ≠ cmd → b ≠ args → b ≠ slot → m' b = m b
  word : Spells (m' slot) 0 (firstWord s)
  left : Spells (m' cmd) 0 (afterWord s)
  grows : ∀ b, Grows (m b) (m' b)

/-- A round. -/
theorem splitRound_spec {c a o : Nat} (spells : Spells (m c) 0 s) (fits : s.length < strlen)
    (differ : a ≠ c) (slotCmd : o ≠ c) (slotArgs : o ≠ a) :
    RoundDone m (splitRound m ⟨c, 0⟩ ⟨a, 0⟩ ⟨o, 0⟩) c a o s := by
  unfold splitRound
  dsimp only
  -- the buffer of what is left is cleared
  generalize cleared_eq : m.memset ⟨a, 0⟩ 0 strlen = cleared
  have clearedFrame (b : Nat) (apart : b ≠ a) : cleared b = m b := by
    rw [← cleared_eq]
    exact Function.update_of_ne apart ..
  have clearedArgs : cleared a = (m a).fill 0 0 strlen := by
    rw [← cleared_eq]
    exact Function.update_self ..
  have clear : Spells (cleared a) 0 [] := by
    rw [clearedArgs]
    exact Region.cell_fill_of_mem (Int.le_refl 0) (by decide)
  have clearedGrows : Grows (m a) (cleared a) := by
    rw [clearedArgs]
    intro j member
    rcases List.mem_append.mp member with filled | before
    · obtain ⟨k, range, rfl⟩ := List.mem_map.mp filled
      have below := List.mem_range.mp range
      exact .inr (by omega)
    · exact .inl before
  -- the word is cut off
  have command : Spells (cleared c) 0 s := by rwa [clearedFrame c (Ne.symm differ)]
  have off := nishSplitPar_spec command fits clear differ
  generalize nishSplitPar cleared ⟨c, 0⟩ ⟨a, 0⟩ = split at *
  -- and stored
  have wordFits := length_firstWord_le s
  have wordShort : (firstWord s).length < uintWidth := short_of_fits (by omega)
  have stored := BlockMemory.strcpy_wrote ⟨o, 0⟩ ⟨c, 0⟩ off.word
    (fun same => absurd same slotCmd) wordShort
  have storedFrame (b : Nat) (apart : b ≠ o) : split.strcpy ⟨o, 0⟩ ⟨c, 0⟩ b = split b :=
    BlockMemory.strcpy_of_ne ⟨o, 0⟩ _ off.word (fun same => absurd same slotCmd) wordShort apart
  generalize split.strcpy ⟨o, 0⟩ ⟨c, 0⟩ = store at *
  -- what is left is copied back
  have leftFits := length_afterWord_le s
  have leftShort : (afterWord s).length < uintWidth := short_of_fits (by omega)
  have left : Spells (store a) 0 (afterWord s) := by
    rw [storedFrame a (Ne.symm slotArgs)]
    exact off.left
  have back := BlockMemory.strcpy_wrote ⟨c, 0⟩ ⟨a, 0⟩ left
    (fun same => absurd same.symm differ) leftShort
  have backFrame (b : Nat) (apart : b ≠ c) : store.strcpy ⟨c, 0⟩ ⟨a, 0⟩ b = store b :=
    BlockMemory.strcpy_of_ne ⟨c, 0⟩ _ left (fun same => absurd same.symm differ) leftShort apart
  generalize store.strcpy ⟨c, 0⟩ ⟨a, 0⟩ = done at *
  have storedGrows := stored.grows (by omega)
  have backGrows := back.grows (by omega)
  constructor
  · intro b apart apart' apart''
    rw [backFrame b apart, storedFrame b apart'', off.frame b apart apart', clearedFrame b apart']
  · rw [backFrame o slotCmd]
    exact stored.spells
  · exact back.spells
  · intro b
    by_cases isCmd : b = c
    · subst isCmd
      have offGrows := off.cmdGrows
      rw [clearedFrame b (Ne.symm differ)] at offGrows
      have copyGrows := backGrows
      rw [show store b = split b from storedFrame b (Ne.symm slotCmd)] at copyGrows
      exact offGrows.trans copyGrows
    · rw [backFrame b isCmd]
      by_cases isSlot : b = o
      · subst isSlot
        rw [show split b = m b from
          (off.frame b isCmd slotArgs).trans (clearedFrame b slotArgs)] at storedGrows
        exact storedGrows
      · rw [storedFrame b isSlot]
        by_cases isArgs : b = a
        · subst isArgs
          exact clearedGrows.trans off.argsGrows
        · rw [off.frame b isCmd isArgs, clearedFrame b isArgs]
          exact fun _ member => .inl member

/-- What some rounds from one on leave: the words in the buffers of the arguments. -/
structure LoopDone (argv : Region Nat) (cmd args i : Nat) (words : List CString)
    (m m' : BlockMemory) : Prop where
  stored : ∀ k : Nat, (below : k < words.length) →
    Spells (m' (argv.cell ((i + k : Nat) : Int))) 0 words[k]
  frame : ∀ b, b ≠ cmd → b ≠ args → (∀ k < words.length, b ≠ argv.cell ((i + k : Nat) : Int)) →
    m' b = m b
  grows : ∀ b, Grows (m b) (m' b)

variable {argv : Region Nat} {c a i rounds : Nat}

/-- A command is empty when its first character is NUL. -/
theorem load_eq_zero (spells : Spells (m c) 0 s) : m.load ⟨c, 0⟩ = 0 ↔ s = [] := by
  cases s with
  | nil => exact iff_of_true spells rfl
  | cons d s =>
    apply iff_of_false
    · rw [show m.load ⟨c, 0⟩ = d from spells.1]
      exact spells.2.1
    · exact List.cons_ne_nil d s

/-- One round of the loop, with a buffer of the array. -/
theorem Buffers.round (buffers : Buffers argv c a) (spells : Spells (m c) 0 s)
    (fits : s.length < strlen) (inside : i < maxArgs) :
    RoundDone m (splitRound m ⟨c, 0⟩ ⟨a, 0⟩ ⟨argv.cell i, 0⟩) c a (argv.cell i) s :=
  splitRound_spec spells fits buffers.differ (buffers.cmd i inside) (buffers.args i inside)

/-- A loop for which there are enough buffers stores the words. -/
theorem splitLoop_spec (buffers : Buffers argv c a) (spells : Spells (m c) 0 s)
    (fits : s.length < strlen) (room : i + (splitArgs s).length ≤ maxArgs)
    (enough : (splitArgs s).length ≤ rounds) :
    ∃ m', splitLoop argv ⟨c, 0⟩ ⟨a, 0⟩ rounds i m = some (m', i + (splitArgs s).length) ∧
      LoopDone argv c a i (splitArgs s) m m' := by
  induction s using splitArgs.induct generalizing i m rounds with
  | case1 s last =>
    rw [splitArgs_of_nil last] at room enough ⊢
    rw [List.length_singleton] at room enough ⊢
    obtain ⟨rounds, rfl⟩ := Nat.exists_eq_add_of_le' enough
    have done := buffers.round spells fits (i := i) (by omega)
    have left := done.left
    rw [last] at left
    refine ⟨_, by rw [splitLoop, if_pos ((load_eq_zero left).mpr rfl)], ?_, ?_, done.grows⟩
    · intro k below
      rw [List.length_singleton] at below
      obtain rfl : k = 0 := by omega
      exact done.word
    · intro b apart apart' others
      exact done.frame b apart apart' (others 0 (by simp))
  | case2 s more ih =>
    rw [splitArgs_of_ne more] at room enough ⊢
    rw [List.length_cons] at room enough ⊢
    obtain ⟨rounds, rfl⟩ := Nat.exists_eq_add_of_le' (Nat.le_trans (Nat.le_add_left 1 _) enough)
    have inside : i < maxArgs := by omega
    have done := buffers.round spells fits inside
    have shorter := length_afterWord_le s
    have room' : i + 1 + (splitArgs (afterWord s)).length ≤ maxArgs := by omega
    have enough' : (splitArgs (afterWord s)).length ≤ rounds := by omega
    obtain ⟨m', run, later⟩ := ih done.left (by omega) room' enough'
    have goesOn : ¬(splitRound m ⟨c, 0⟩ ⟨a, 0⟩ ⟨argv.cell i, 0⟩).load ⟨c, 0⟩ = 0 :=
      fun ends => more ((load_eq_zero done.left).mp ends)
    have next (k : Nat) : i + 1 + k = i + (k + 1) := by omega
    refine ⟨m', ?_, ?_, ?_, fun b => (done.grows b).trans (later.grows b)⟩
    · rw [splitLoop, if_neg goesOn, run, next]
    · intro k below
      rw [List.length_cons] at below
      cases k with
      | zero =>
        have kept : m' (argv.cell i) =
            splitRound m ⟨c, 0⟩ ⟨a, 0⟩ ⟨argv.cell i, 0⟩ (argv.cell i) := by
          apply later.frame _ (buffers.cmd i inside) (buffers.args i inside)
          intro k small same
          have place := buffers.distinct i (i + 1 + k) inside (by omega) same
          omega
        rw [Nat.add_zero, kept]
        exact done.word
      | succ k =>
        have stored := later.stored k (by omega)
        rwa [next] at stored
    · intro b apart apart' others
      have first := others 0 (Nat.succ_pos _)
      rw [later.frame b apart apart', done.frame b apart apart' first]
      intro k below
      rw [next]
      exact others (k + 1) (Nat.succ_lt_succ below)

/-- The loop counts its rounds. -/
theorem splitLoop_lt {m' : BlockMemory} {j : Nat} {cmd args : Pointer}
    (ends : splitLoop argv cmd args rounds i m = some (m', j)) : i < j := by
  induction rounds generalizing i m with
  | zero => cases ends
  | succ rounds ih =>
    rw [splitLoop] at ends
    generalize splitRound m cmd args ⟨argv.cell i, 0⟩ = next at ends
    by_cases last : next.load cmd = 0
    · rw [if_pos last] at ends
      rw [← (Prod.mk.inj (Option.some.inj ends)).2]
      exact Nat.lt_succ_self i
    · rw [if_neg last] at ends
      exact Nat.lt_of_succ_lt (ih ends)

/-- A loop for which there are not ends past the array of the arguments, if it ends. -/
theorem splitLoop_long (buffers : Buffers argv c a) (spells : Spells (m c) 0 s)
    (fits : s.length < strlen) (long : maxArgs ≤ i + (splitArgs s).length) {m' : BlockMemory}
    {j : Nat}
    (ends : splitLoop argv ⟨c, 0⟩ ⟨a, 0⟩ rounds i m = some (m', j)) : maxArgs ≤ j := by
  induction s using splitArgs.induct generalizing i m rounds with
  | case1 s last =>
    rw [splitArgs_of_nil last, List.length_singleton] at long
    have counted := splitLoop_lt ends
    omega
  | case2 s more ih =>
    rw [splitArgs_of_ne more, List.length_cons] at long
    by_cases inside : i < maxArgs
    · cases rounds with
      | zero => cases ends
      | succ rounds =>
        have done := buffers.round spells fits inside
        have shorter := length_afterWord_le s
        have goesOn : ¬(splitRound m ⟨c, 0⟩ ⟨a, 0⟩ ⟨argv.cell i, 0⟩).load ⟨c, 0⟩ = 0 :=
          fun ends => more ((load_eq_zero done.left).mp ends)
        rw [splitLoop, if_neg goesOn] at ends
        exact ih done.left (by omega) (by omega) ends
    · have counted := splitLoop_lt ends
      omega

/-- A loop that ends is the same with more rounds to look at. -/
theorem splitLoop_mono {cmd args : Pointer} {left : BlockMemory × Nat} {more : Nat}
    (ends : splitLoop argv cmd args rounds i m = some left) (enough : rounds ≤ more) :
    splitLoop argv cmd args more i m = some left := by
  induction rounds generalizing i m more with
  | zero => cases ends
  | succ rounds ih =>
    cases more with
    | zero => cases enough
    | succ more =>
      rw [splitLoop] at ends ⊢
      generalize splitRound m cmd args ⟨argv.cell i, 0⟩ = next at ends ⊢
      by_cases last : next.load cmd = 0
      · rw [if_pos last] at ends ⊢
        exact ends
      · rw [if_neg last] at ends ⊢
        exact ih ends (Nat.le_of_succ_le_succ enough)

/-! ## Calls -/

/-- A command with text is copied and goes into the loop. -/
theorem splitToArgv_run {str cmd args : Nat} (line : Spells (m str) 0 s) (nonempty : s ≠ [])
    (rounds : Nat) :
    splitToArgv m (some ⟨str, 0⟩) argv cmd args rounds =
      (splitLoop argv ⟨cmd, 0⟩ ⟨args, 0⟩ rounds 0 (m.strncpy ⟨cmd, 0⟩ ⟨str, 0⟩ strlen)).map
        fun left => ⟨left.1, argv.write left.2 0, toInt left.2⟩ := by
  have letters : ¬m.load ⟨str, 0⟩ = 0 := fun nul => nonempty ((load_eq_zero line).mp nul)
  rw [splitToArgv]
  exact if_neg letters

/-- A call that returns is the same with more rounds to look at. -/
theorem splitToArgv_mono {str : Option Pointer} {cmd args more : Nat} {left : Arguments}
    (ends : splitToArgv m str argv cmd args rounds = some left) (enough : rounds ≤ more) :
    splitToArgv m str argv cmd args more = some left := by
  cases str with
  | none => exact ends
  | some str =>
    rw [splitToArgv] at ends ⊢
    dsimp only at ends ⊢
    by_cases empty : m.load str = 0
    · rw [if_pos empty] at ends ⊢
      exact ends
    · rw [if_neg empty] at ends ⊢
      obtain ⟨found, run, rfl⟩ := Option.map_eq_some_iff.mp ends
      rw [splitLoop_mono run enough]
      rfl

/-- A call for a command of few enough words stores them and the null pointer after them. -/
theorem splitToArgv_few {str cmd args : Nat} (buffers : Buffers argv cmd args)
    (line : Spells (m str) 0 s) (apart : cmd ≠ str) (fits : s.length < strlen) (nonempty : s ≠ [])
    (few : (splitArgs s).length < maxArgs) :
    ∃ m', splitToArgv m (some ⟨str, 0⟩) argv cmd args maxArgs =
        some ⟨m', argv.write (splitArgs s).length 0, (splitArgs s).length⟩ ∧
      LoopDone argv cmd args 0 (splitArgs s) (m.strncpy ⟨cmd, 0⟩ ⟨str, 0⟩ strlen) m' := by
  have spells := (BlockMemory.strncpy_spec (m := m) ⟨cmd, 0⟩ ⟨str, 0⟩ line apart fits).2.1
  obtain ⟨m', run, done⟩ := splitLoop_spec buffers spells fits (i := 0) (by omega)
    (Nat.le_of_lt few)
  have count : toInt (splitArgs s).length = (splitArgs s).length := by
    have small : ((splitArgs s).length : Int) < 16 := Int.ofNat_lt.mpr few
    rw [toInt]
    omega
  rw [Nat.zero_add] at run
  refine ⟨m', ?_, done⟩
  rw [splitToArgv_run line nonempty, run]
  show some (Arguments.mk m' (argv.write (splitArgs s).length 0) (toInt (splitArgs s).length)) = _
  rw [count]

end Nupkux
