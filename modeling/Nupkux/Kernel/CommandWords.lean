import Mathlib.Data.List.GetD
import Nupkux.Kernel.SplitArgv

/-!
# The words of a command

The words of a command are its runs of bytes other than the space. When no other byte of it is
trimmed, they are what `split_to_argv` finds, as long as the array has an entry for each and one
more for the null pointer after them.
-/

namespace Nupkux

/-- The runs of bytes other than the space. -/
def words (s : CString) : List CString := (s.splitOnP (· == 32)).filter (· ≠ [])

/-- No byte but the space is trimmed. -/
def PlainCommand (s : CString) : Prop := ∀ c ∈ s, isBlank c = true → c = 32

instance (s : CString) : Decidable (PlainCommand s) :=
  List.decidableBAll (fun c => isBlank c = true → c = 32) s

variable {s t w r : CString} {c : UInt8}

/-- There are no words in an empty command. -/
@[simp] theorem words_nil : words [] = [] := by simp [words]

/-- A space is between words. -/
theorem words_append (w r : CString) : words (w ++ 32 :: r) = words w ++ words r := by
  rw [words, List.splitOnP_append_cons w r (by decide), List.filter_append]
  rfl

/-- So a space in front is in no word. -/
theorem words_cons_space (r : CString) : words (32 :: r) = words r := by
  have split := words_append [] r
  rwa [words_nil, List.nil_append, List.nil_append] at split

/-- A run is a word. -/
theorem words_of_not_mem (absent : (32 : UInt8) ∉ w) (nonempty : w ≠ []) : words w = [w] := by
  have whole : w.splitOnP (· == 32) = [w] := by
    apply List.splitOnP_eq_singleton
    intro c member
    apply beq_false_of_ne
    rintro rfl
    exact absent member
  simp [words, whole, nonempty]

/-- The space is trimmed. -/
theorem isBlank_space : isBlank 32 = true := by decide

/-- Trimming a plain command at its beginning removes spaces. -/
theorem words_dropWhile (plain : PlainCommand s) : words (s.dropWhile isBlank) = words s := by
  induction s with
  | nil => rfl
  | cons c s ih =>
    rw [List.dropWhile_cons]
    by_cases trimmed : isBlank c = true
    · have space := plain c List.mem_cons_self trimmed
      rw [if_pos trimmed, ih fun d member => plain d (List.mem_cons_of_mem _ member), space,
        words_cons_space]
    · rw [if_neg trimmed]

/-- So does trimming it at its end. -/
theorem words_rdropWhile (plain : PlainCommand s) : words (s.rdropWhile isBlank) = words s := by
  induction s using List.reverseRecOn with
  | nil => rfl
  | append_singleton s c ih =>
    rw [List.rdropWhile_concat]
    by_cases trimmed : isBlank c = true
    · have space := plain c (List.mem_append_right _ (List.mem_singleton_self c)) trimmed
      rw [if_pos trimmed, ih fun d member => plain d (List.mem_append_left _ member), space,
        words_append, words_nil, List.append_nil]
    · rw [if_neg trimmed]

/-- A command that begins with a byte that is not trimmed has a word. -/
theorem words_ne_nil (first : ∀ c r, t = c :: r → isBlank c = false) (nonempty : t ≠ []) :
    words t ≠ [] := by
  have start (w r : CString) (same : t = w ++ 32 :: r) : w ≠ [] := by
    rintro rfl
    have blank := first 32 r same
    rw [isBlank_space] at blank
    cases blank
  rcases space_cases t with ⟨absent, _, _⟩ | ⟨w, r, split, absent, _, _⟩
  · rw [words_of_not_mem absent nonempty]
    exact List.cons_ne_nil _ _
  · rw [split, words_append, words_of_not_mem absent (start w r split)]
    exact List.cons_ne_nil _ _

/-- What trimming at the beginning leaves begins with a byte that is not trimmed. -/
theorem head_dropWhile (same : s.dropWhile isBlank = c :: r) : isBlank c = false := by
  induction s with
  | nil => cases same
  | cons d s ih =>
    rw [List.dropWhile_cons] at same
    by_cases trimmed : isBlank d = true
    · rw [if_pos trimmed] at same
      exact ih same
    · rw [if_neg trimmed] at same
      rw [← (List.cons.inj same).1]
      exact Bool.eq_false_iff.mpr trimmed

/-- So does what is left of a command. -/
theorem head_afterWord (same : afterWord s = c :: r) : isBlank c = false := by
  obtain ⟨rest, split⟩ := List.rdropWhile_prefix isBlank
    (((s.dropWhile isBlank).dropWhile (· ≠ 32)).tail.dropWhile isBlank)
  rw [show List.rdropWhile isBlank _ = c :: r from same] at split
  exact head_dropWhile split.symm

/-- What is left of a command is a part of it. -/
theorem mem_afterWord (member : c ∈ afterWord s) : c ∈ s := by
  have front := (List.rdropWhile_prefix isBlank _).subset member
  have rest := List.mem_of_mem_tail ((List.dropWhile_suffix isBlank).subset front)
  exact (List.dropWhile_suffix isBlank).subset ((List.dropWhile_suffix _).subset rest)

/-- The words of a plain command are its first word and those of what is left. -/
theorem words_eq_cons (plain : PlainCommand s) (worded : words s ≠ []) :
    words s = firstWord s :: words (afterWord s) := by
  have trimmedPlain : PlainCommand (s.dropWhile isBlank) := fun c member =>
    plain c ((List.dropWhile_suffix isBlank).subset member)
  rw [← words_dropWhile plain] at worded ⊢
  rw [firstWord, afterWord]
  generalize trimmed_eq : s.dropWhile isBlank = t at *
  have nonempty : t ≠ [] := by
    rintro rfl
    exact worded words_nil
  have start (w r : CString) (same : t = w ++ 32 :: r) : w ≠ [] := by
    rintro rfl
    have kept := head_dropWhile (trimmed_eq.trans same)
    rw [isBlank_space] at kept
    cases kept
  rcases space_cases t with ⟨absent, taken, dropped⟩ | ⟨w, r, split, absent, taken, dropped⟩
  · rw [taken, dropped, words_of_not_mem absent nonempty]
    rfl
  · have rest : PlainCommand r := by
      intro c member
      apply trimmedPlain c
      rw [split]
      exact List.mem_append_right _ (List.mem_cons_of_mem _ member)
    have restTrimmed : PlainCommand (r.dropWhile isBlank) := fun c member =>
      rest c ((List.dropWhile_suffix isBlank).subset member)
    rw [taken, dropped, List.tail_cons, words_rdropWhile restTrimmed, words_dropWhile rest, split,
      words_append, words_of_not_mem absent (start w r split)]
    rfl

/-- `split_to_argv` finds the words of a plain command. -/
theorem splitArgs_eq_words (plain : PlainCommand s) (worded : words s ≠ []) :
    splitArgs s = words s := by
  induction s using splitArgs.induct with
  | case1 s last =>
    rw [splitArgs_of_nil last, words_eq_cons plain worded, last, words_nil]
  | case2 s more ih =>
    have left : words (afterWord s) ≠ [] := words_ne_nil (fun c r => head_afterWord) more
    rw [splitArgs_of_ne more, words_eq_cons plain worded,
      ih (fun c member => plain c (mem_afterWord member)) left]

/-! ## Trimmed bytes that are no spaces -/

/-- A stretch without a space is at most one word. -/
theorem length_words_le_one (absent : (32 : UInt8) ∉ w) : (words w).length ≤ 1 := by
  by_cases empty : w = []
  · rw [empty, words_nil]
    exact Nat.zero_le 1
  · rw [words_of_not_mem absent empty]
    exact Nat.le_refl 1

/-- A byte in front takes no word away. -/
theorem length_words_le_cons (c : UInt8) (s : CString) :
    (words s).length ≤ (words (c :: s)).length := by
  by_cases space : c = 32
  · rw [space, words_cons_space]
  · rcases space_cases s with ⟨absent, _, _⟩ | ⟨w, r, split, absent, _, _⟩
    · have longer : (32 : UInt8) ∉ c :: s :=
        List.not_mem_cons_of_ne_of_not_mem (Ne.symm space) absent
      rw [words_of_not_mem longer (List.cons_ne_nil c s)]
      exact length_words_le_one absent
    · have longer : (32 : UInt8) ∉ c :: w :=
        List.not_mem_cons_of_ne_of_not_mem (Ne.symm space) absent
      have most := length_words_le_one absent
      rw [split, ← List.cons_append, words_append, words_append,
        words_of_not_mem longer (List.cons_ne_nil c w), List.length_append, List.length_append,
        List.length_singleton]
      omega

/-- Nor does a byte at the end. -/
theorem length_words_le_concat (s : CString) (c : UInt8) :
    (words s).length ≤ (words (s ++ [c])).length := by
  by_cases space : c = 32
  · rw [space, words_append, words_nil, List.append_nil]
  · induction hs : s.length using Nat.strong_induction_on generalizing s with
    | _ length ih =>
      rcases space_cases s with ⟨absent, _, _⟩ | ⟨w, r, split, absent, _, _⟩
      · have longer : (32 : UInt8) ∉ s ++ [c] := by
          intro member
          rcases List.mem_append.mp member with before | last
          · exact absent before
          · exact space (List.mem_singleton.mp last).symm
        rw [words_of_not_mem longer (by simp)]
        exact length_words_le_one absent
      · have shorter : r.length < length := by
          rw [← hs, split, List.length_append, List.length_cons]
          omega
        have rest := ih r.length shorter r rfl
        rw [split, List.append_assoc, List.cons_append, words_append, words_append,
          List.length_append, List.length_append]
        omega

/-- A part of a command has at most as many words. -/
theorem length_words_le_of_part (part : s <:+: t) : (words s).length ≤ (words t).length := by
  obtain ⟨front, back, rfl⟩ := part
  have before : (words s).length ≤ (words (front ++ s)).length := by
    induction front with
    | nil => exact Nat.le_refl _
    | cons c front ih => exact ih.trans (length_words_le_cons c (front ++ s))
  apply before.trans
  induction back using List.reverseRecOn with
  | nil => rw [List.append_nil]
  | append_singleton back c ih =>
    rw [← List.append_assoc]
    exact ih.trans (length_words_le_concat _ c)

/-- `split_to_argv` finds at most as many words as there are, and one in an empty command. -/
theorem length_splitArgs_le (s : CString) :
    (splitArgs s).length ≤ max 1 (words s).length := by
  induction s using splitArgs.induct with
  | case1 s last =>
    rw [splitArgs_of_nil last, List.length_singleton]
    exact Nat.le_max_left ..
  | case2 s more ih =>
    have left := List.length_pos_iff.mpr
      (words_ne_nil (fun c r => head_afterWord (s := s)) more)
    have trimmed := length_words_le_of_part (List.dropWhile_suffix isBlank (l := s)).isInfix
    have cut : (words (afterWord s)).length + 1 ≤ (words (s.dropWhile isBlank)).length := by
      unfold afterWord at more ⊢
      generalize trimmed_eq : s.dropWhile isBlank = t at *
      rcases space_cases t with ⟨_, _, dropped⟩ | ⟨w, r, split, absent, _, dropped⟩
      · rw [dropped] at more
        exact absurd rfl more
      · have worded : w ≠ [] := by
          rintro rfl
          have kept := head_dropWhile (trimmed_eq.trans split)
          rw [isBlank_space] at kept
          cases kept
        have part : (r.dropWhile isBlank).rdropWhile isBlank <:+: r :=
          (List.rdropWhile_prefix isBlank _).isInfix.trans (List.dropWhile_suffix isBlank).isInfix
        have fewer := length_words_le_of_part part
        rw [dropped, List.tail_cons, split, words_append, words_of_not_mem absent worded,
          List.length_append, List.length_singleton]
        omega
    rw [splitArgs_of_ne more, List.length_cons]
    omega

/-- A command of few words. -/
theorem length_splitArgs_lt (few : (words s).length < maxArgs) :
    (splitArgs s).length < maxArgs :=
  (length_splitArgs_le s).trans_lt (Nat.max_lt.mpr ⟨by decide, few⟩)

/-! ## Calls -/

/-- A call of `split_to_argv` on a command, with nothing recorded yet. -/
structure SplitCall (m : BlockMemory) (argv : Region Nat) (str cmd args : Nat) (s : CString) :
    Prop where
  buffers : Buffers argv cmd args
  line : Spells (m str) 0 s
  apart : cmd ≠ str
  fits : s.length ≤ strlen - 1
  fresh : ∀ b, (m b).written = []
  untouched : argv.written = []

/-- The words are in the buffers, their number is returned, and the entry after the last one
is 0. -/
structure SplitsInto (argv : Region Nat) (words : List CString) (left : Arguments) : Prop where
  count : left.argc = words.length
  strings : ∀ k : Nat, (below : k < words.length) →
    left.argv.cell k = argv.cell k ∧ Spells (left.memory (left.argv.cell k)) 0 words[k]
  last : left.argv.cell words.length = 0

/-- Nothing is stored outside the array of the arguments, the buffers it points to and the two of
the call itself. -/
structure StoresInside (m : BlockMemory) (argv : Region Nat) (cmd args : Nat) (left : Arguments) :
    Prop where
  array : left.argv.Within maxArgs
  buffers : ∀ b, (left.memory b).Within strlen
  others : ∀ b, b ≠ cmd → b ≠ args → (∀ k : Nat, k < maxArgs → b ≠ argv.cell k) →
    left.memory b = m b

/-- A call returns, stores nothing outside, and splits a command of few enough words. -/
def Splits (m : BlockMemory) (argv : Region Nat) (str cmd args : Nat) (s : CString) : Prop :=
  ∃ rounds left, splitToArgv m (some ⟨str, 0⟩) argv cmd args rounds = some left ∧
    StoresInside m argv cmd args left ∧
    ((words s).length < maxArgs → SplitsInto argv (words s) left)

variable {m : BlockMemory} {argv : Region Nat} {str cmd args rounds : Nat} {left : Arguments}

/-- The command is copied to the buffer of the call. -/
theorem SplitCall.copy (call : SplitCall m argv str cmd args s) :
    (∀ b ≠ cmd, m.strncpy ⟨cmd, 0⟩ ⟨str, 0⟩ strlen b = m b) ∧
      Spells (m.strncpy ⟨cmd, 0⟩ ⟨str, 0⟩ strlen cmd) 0 s ∧
      Grows (m cmd) (m.strncpy ⟨cmd, 0⟩ ⟨str, 0⟩ strlen cmd) := by
  have short : s.length < strlen := by
    have := call.fits
    simp only [strlen] at *
    omega
  obtain ⟨frame, spells, _, written⟩ := BlockMemory.strncpy_spec ⟨cmd, 0⟩ ⟨str, 0⟩ call.line
    call.apart short
  refine ⟨frame, spells, fun j member => ?_⟩
  rcases written j member with before | inside
  · exact .inl before
  · exact .inr (by simpa using inside)

/-- A command that fits is shorter than the buffers. -/
theorem SplitCall.short (call : SplitCall m argv str cmd args s) : s.length < strlen := by
  have fits := call.fits
  simp only [strlen] at *
  omega

/-- A command of few enough words is split. -/
theorem SplitCall.splits (call : SplitCall m argv str cmd args s) (nonempty : s ≠ [])
    (few : (splitArgs s).length < maxArgs) :
    ∃ left, splitToArgv m (some ⟨str, 0⟩) argv cmd args maxArgs = some left ∧
      StoresInside m argv cmd args left ∧ SplitsInto argv (splitArgs s) left := by
  obtain ⟨frame, _, grows⟩ := call.copy
  obtain ⟨m', run, done⟩ :=
    splitToArgv_few call.buffers call.line call.apart call.short nonempty few
  refine ⟨_, run, ?_, ?_⟩
  · constructor
    · apply Region.within_write.mpr
      constructor
      · omega
      · intro j member
        rw [call.untouched] at member
        cases member
    · intro b j member
      have growth : Grows (m b) (m' b) := by
        by_cases isCmd : b = cmd
        · rw [isCmd]
          exact grows.trans (done.grows cmd)
        · have later := done.grows b
          rwa [frame b isCmd] at later
      rcases growth j member with before | inside
      · rw [call.fresh] at before
        cases before
      · exact inside
    · intro b apart apart' others
      rw [← frame b apart]
      apply done.frame b apart apart'
      intro k below
      rw [Nat.zero_add]
      exact others k (Nat.lt_trans below few)
  · constructor
    · rfl
    · intro k below
      have entry : (argv.write (splitArgs s).length 0).cell k = argv.cell k :=
        Region.cell_write_of_ne (by omega)
      have stored := done.stored k below
      rw [Nat.zero_add] at stored
      refine ⟨entry, ?_⟩
      show Spells (m' ((argv.write (splitArgs s).length 0).cell k)) 0 _
      rw [entry]
      exact stored
    · exact Region.cell_write_self ..

/-- A command of too many words is stored past the array, if the call returns. -/
theorem SplitCall.not_splits (call : SplitCall m argv str cmd args s) (nonempty : s ≠ [])
    (many : maxArgs ≤ (splitArgs s).length) : ¬Splits m argv str cmd args s := by
  rintro ⟨rounds, left, run, inside, _⟩
  rw [splitToArgv_run call.line nonempty] at run
  obtain ⟨⟨m', j⟩, ends, rfl⟩ := Option.map_eq_some_iff.mp run
  have past := splitLoop_long call.buffers call.copy.2.1 call.short (by omega) ends
  have stored := (Region.within_write.mp inside.array).1
  omega

/-- A call splits a plain command if and only if the array has more entries than there are
words. -/
theorem splits_iff (call : SplitCall m argv str cmd args s) (plain : PlainCommand s)
    (worded : words s ≠ []) :
    Splits m argv str cmd args s ↔ (words s).length < maxArgs := by
  have nonempty : s ≠ [] := by
    rintro rfl
    exact worded words_nil
  have found := splitArgs_eq_words plain worded
  constructor
  · intro splits
    by_contra many
    exact call.not_splits nonempty (by rw [found]; omega) splits
  · intro few
    obtain ⟨left, run, inside, into⟩ := call.splits nonempty (by rwa [found])
    rw [found] at into
    exact ⟨maxArgs, left, run, inside, fun _ => into⟩

/-- A block for each buffer: the arguments are in the blocks from 1 on. -/
def argvBlocks : Region Nat where
  cell i := if 0 ≤ i ∧ i < maxArgs then i.toNat + 1 else 0

/-- A command in block 17. -/
def commandBlocks (s : CString) : BlockMemory := fun b =>
  { cell := fun i => if b = 17 ∧ 0 ≤ i then s.getD i.toNat 0 else 0 }

/-- The call for a command in its block, with blocks 18 and 19 for its own buffers. -/
theorem splitCall_commandBlocks (fits : s.length ≤ strlen - 1) (letters : NoNul s) :
    SplitCall (commandBlocks s) argvBlocks 17 18 19 s := by
  have entry (k : Nat) (inside : k < maxArgs) : argvBlocks.cell k = k + 1 := by
    have within : 0 ≤ (k : Int) ∧ (k : Int) < maxArgs := by omega
    exact (if_pos within).trans (by rw [Int.toNat_natCast])
  have small : maxArgs = 16 := rfl
  have buffers : Buffers argvBlocks 18 19 := by
    constructor
    · decide
    · intro k inside
      rw [entry k inside]
      omega
    · intro k inside
      rw [entry k inside]
      omega
    · intro k l inside inside' same
      rw [entry k inside, entry l inside'] at same
      omega
  have cell (j : Nat) : (commandBlocks s 17).cell (0 + j) = s.getD j 0 := by
    have here : 17 = 17 ∧ 0 ≤ (0 : Int) + j := ⟨rfl, by omega⟩
    have position : ((0 : Int) + j).toNat = j := by omega
    show (if 17 = 17 ∧ 0 ≤ (0 : Int) + j then s.getD ((0 : Int) + j).toNat 0 else 0) = _
    rw [if_pos here, position]
  have line : Spells (commandBlocks s 17) 0 s := by
    apply spells_of_cells letters
    · intro j below
      rw [cell, List.getD_eq_getElem _ _ below]
    · rw [cell, List.getD_eq_default _ _ (Nat.le_refl _)]
  exact ⟨buffers, line, by decide, fits, fun _ => rfl, rfl⟩

/-- `" ls  a "`. -/
def listCommand : CString := [32, 108, 115, 32, 32, 97, 32]

/-- Its words are `"ls"` and `"a"`. -/
theorem splits_listCommand :
    words listCommand = [[108, 115], [97]] ∧
      Splits (commandBlocks listCommand) argvBlocks 17 18 19 listCommand :=
  ⟨by decide, (splits_iff (splitCall_commandBlocks (by decide) (by decide))
    (by decide) (by decide)).mpr (by decide)⟩

/-- `"a "`, sixteen times. -/
def sixteenWords : CString := (List.replicate 16 [97, 32]).flatten

/-- A command of sixteen words: the null pointer is stored after the array. -/
theorem splits_not :
    (words sixteenWords).length = maxArgs ∧
      ¬Splits (commandBlocks sixteenWords) argvBlocks 17 18 19 sixteenWords := by
  have call := splitCall_commandBlocks (s := sixteenWords) (by decide) (by decide)
  have plain : PlainCommand sixteenWords := by decide
  have counted : (words sixteenWords).length = maxArgs := by decide
  refine ⟨counted, call.not_splits (by decide) ?_⟩
  rw [splitArgs_eq_words plain (by decide), counted]

end Nupkux
