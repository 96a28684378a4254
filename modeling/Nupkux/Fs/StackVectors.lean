import Nupkux.Fs.UserStack
import Nupkux.Kernel.ElfSegment

/-!
# The vectors of a program

A vector is an array of pointers to strings with a null pointer after them. `make_new_stack` builds a
block of two of them below a position and downwards: the strings of the environment, the addresses of
its strings, the same for the arguments, and the three words the program is started with. Here are
the bytes of that block, and what a program finds in it.
-/

namespace Nupkux

/-- Stretches of memory that do not overlap: where each begins, and its length. -/
def Separate (r r' : Nat × Nat) : Prop := r.1 + r.2 ≤ r'.1 ∨ r'.1 + r'.2 ≤ r.1

/-- A string of a vector, with its address. -/
abbrev Entry := Nat × List (BitVec 8)

/-- The bytes of the strings of a vector. -/
def stringsSize (strings : List (List (BitVec 8))) : Nat :=
  (strings.map fun s => s.length + 1).sum

/-- The bytes of a vector and its strings. -/
def vectorSize (strings : List (List (BitVec 8))) : Nat :=
  stringsSize strings + 4 * strings.length + 4

/-- Strings with a NUL after each. -/
def stringsImage (strings : List (List (BitVec 8))) : List (BitVec 8) :=
  (strings.map fun s => s ++ [0]).flatten

/-- Strings one after the other from an address on. -/
def placed : Nat → List (List (BitVec 8)) → List Entry
  | _, [] => []
  | a, s :: strings => (a, s) :: placed (a + s.length + 1) strings

/-- The stretches of a vector: its words and its strings. -/
def stretches (vec : Nat) (entries : List Entry) : List (Nat × Nat) :=
  (vec, 4 * entries.length + 4) :: entries.map fun e => (e.1, e.2.length + 1)

/-- The stretches of a vector, if there is one. -/
def optionalStretches (vec : Nat) : Option (List Entry) → List (Nat × Nat)
  | none => []
  | some entries => stretches vec entries

/-- The bytes of a vector and its strings, if there is one. -/
def optionalSize : Option (List (List (BitVec 8))) → Nat
  | none => 0
  | some strings => vectorSize strings

/-- The bytes of the block for arguments and an environment. -/
def blockSize (strings : List (List (BitVec 8))) (env : Option (List (List (BitVec 8)))) : Nat :=
  optionalSize env + vectorSize strings + 12

/-- The bytes of some words. -/
def wordBytes (words : List Nat) : List (BitVec 8) := words.flatMap Machine.bytes32

/-- A vector and its strings, when these end at an address. -/
def vectorBytes (buf : Nat) (strings : List (List (BitVec 8))) : List (BitVec 8) :=
  wordBytes ((placed (buf - stringsSize strings) strings).map Prod.fst ++ [0]) ++
    stringsImage strings

/-- A vector and its strings, if there is one. -/
def optionalBytes (buf : Nat) : Option (List (List (BitVec 8))) → List (BitVec 8)
  | none => []
  | some strings => vectorBytes buf strings

/-- The address of a vector that is built below another one, 0 if there is none. -/
def optionalAt (buf : Nat) : Option (List (List (BitVec 8))) → Nat
  | none => 0
  | some strings => buf - vectorSize strings

/-- The block below a position: the three words, the arguments and the environment. -/
def blockBytes (argc pos : Nat) (args env : Option (List (List (BitVec 8)))) : List (BitVec 8) :=
  wordBytes [argc, optionalAt (pos - optionalSize env) args, optionalAt pos env] ++
    (optionalBytes (pos - optionalSize env) args ++ optionalBytes pos env)

/-- A byte and its address, of bytes that are placed from an address on. -/
def Cell (a : Nat) (bytes : List (BitVec 8)) (b : Nat) (v : BitVec 8) : Prop :=
  a ≤ b ∧ bytes[b - a]? = some v

/-- A byte of an entry of a vector: of its pointer, which has an index, or of its string. -/
def EntryCell (vec i : Nat) (e : Entry) (b : Nat) (v : BitVec 8) : Prop :=
  Cell (vec + 4 * i) (Machine.bytes32 e.1) b v ∨ Cell e.1 (e.2 ++ [0]) b v

/-- A byte of a vector or its strings. -/
def VectorCell (vec : Nat) (entries : List Entry) (b : Nat) (v : BitVec 8) : Prop :=
  Cell vec (wordBytes (entries.map Prod.fst ++ [0])) b v ∨
    ∃ e ∈ entries, Cell e.1 (e.2 ++ [0]) b v

/-- A byte of a vector or its strings, if there is one. -/
def OptionalCell (vec : Nat) : Option (List Entry) → Nat → BitVec 8 → Prop
  | none, _, _ => False
  | some entries, b, v => VectorCell vec entries b v

/-- What makes a vector proper, wherever it is. -/
structure Proper (vec : Nat) (entries : List Entry) : Prop where
  nonnull : vec ≠ 0
  inRange : vec + 4 * entries.length + 4 ≤ uintWidth
  nonzero : ∀ e ∈ entries, e.1 ≠ 0
  letters : ∀ e ∈ entries, 0 ∉ e.2
  fits : ∀ e ∈ entries, e.1 + e.2.length < uintWidth

namespace Machine

/-- The bytes from an address on. -/
def HoldsAt (m : Machine) (a : Nat) (bytes : List (BitVec 8)) : Prop :=
  ∀ j, (inside : j < bytes.length) → m.byte (a + j) = some bytes[j]

/-- The words from an address on. -/
def WordsAt (m : Machine) (a : Nat) (words : List Nat) : Prop :=
  ∀ k, (inside : k < words.length) → m.value (a + 4 * k) 4 = some words[k]

/-- A string with its NUL. -/
structure StringAt (m : Machine) (a : Nat) (s : List (BitVec 8)) : Prop where
  letters : 0 ∉ s
  bytes : m.HoldsAt a (s ++ [0])
  inRange : a + s.length < uintWidth

/-- A vector of pointers to strings, with a null pointer after them. -/
structure VectorAt (m : Machine) (vec : Nat) (entries : List Entry) : Prop where
  nonnull : vec ≠ 0
  inRange : vec + 4 * entries.length + 4 ≤ uintWidth
  words : m.WordsAt vec (entries.map Prod.fst ++ [0])
  nonzero : ∀ e ∈ entries, e.1 ≠ 0
  strings : ∀ e ∈ entries, m.StringAt e.1 e.2

/-- A vector that may be the null pointer. -/
def OptionalVectorAt (m : Machine) (vec : Nat) : Option (List Entry) → Prop
  | none => vec = 0
  | some entries => m.VectorAt vec entries

/-- What a program finds at the address it is started with: the number of its arguments, a vector of
them and one of its environment, and no two of these stretches overlap. -/
structure BlockAt (m : Machine) (esp : Nat) (strings : List (List (BitVec 8)))
    (env : Option (List (List (BitVec 8)))) (args envs : Nat) (argEntries : List Entry)
    (envEntries : Option (List Entry)) : Prop where
  argc : m.value esp 4 = some strings.length
  argv : m.value (esp + 4) 4 = some args
  envp : m.value (esp + 8) 4 = some envs
  argVector : m.VectorAt args argEntries
  envVector : m.OptionalVectorAt envs envEntries
  argStrings : argEntries.map Prod.snd = strings
  envStrings : envEntries.map (List.map Prod.snd) = env
  separate : ((esp, 12) :: (stretches args argEntries ++
    optionalStretches envs envEntries)).Pairwise Separate

/-- Decoding a block gives arguments and an environment. -/
def Decodes (m : Machine) (esp : Nat) (strings : List (List (BitVec 8)))
    (env : Option (List (List (BitVec 8)))) : Prop :=
  ∃ args envs argEntries envEntries, m.BlockAt esp strings env args envs argEntries envEntries

end Machine

variable {strings more : List (List (BitVec 8))} {s bytes bytes' : List (BitVec 8)}
  {entries es rest : List Entry} {env : Option (List Entry)} {e : Entry}
  {words : List Nat} {a b v vec buf lo pos argc count : Nat} {u w : BitVec 8}
  {m m' : Machine} {r : Nat × Nat}

/-! ## Layout -/

/-- The bytes of one more string. -/
theorem stringsSize_concat (strings : List (List (BitVec 8))) (s : List (BitVec 8)) :
    stringsSize (strings ++ [s]) = stringsSize strings + (s.length + 1) := by
  simp [stringsSize]

/-- The bytes of the strings are as many as their size. -/
theorem length_stringsImage (strings : List (List (BitVec 8))) :
    (stringsImage strings).length = stringsSize strings := by
  simp [stringsImage, stringsSize, Function.comp_def]

/-- One more string. -/
theorem stringsImage_concat (strings : List (List (BitVec 8))) (s : List (BitVec 8)) :
    stringsImage (strings ++ [s]) = stringsImage strings ++ (s ++ [0]) := by
  simp [stringsImage]

/-- Later strings are placed after the earlier ones. -/
theorem placed_append (a : Nat) (strings more : List (List (BitVec 8))) :
    placed a (strings ++ more) = placed a strings ++ placed (a + stringsSize strings) more := by
  induction strings generalizing a with
  | nil => rfl
  | cons s strings ih =>
    have size : a + s.length + 1 + stringsSize strings = a + stringsSize (s :: strings) := by
      simp only [stringsSize, List.map_cons, List.sum_cons]
      omega
    rw [List.cons_append, placed, ih, placed, List.cons_append, size]

/-- The strings that are placed. -/
theorem map_snd_placed (a : Nat) (strings : List (List (BitVec 8))) :
    (placed a strings).map Prod.snd = strings := by
  induction strings generalizing a with
  | nil => rfl
  | cons s strings ih => rw [placed, List.map_cons, ih]

/-- Each string gets a place. -/
theorem length_placed (a : Nat) (strings : List (List (BitVec 8))) :
    (placed a strings).length = strings.length := by
  rw [← List.length_map, map_snd_placed]

/-- The places are after the first address and inside the size. -/
theorem placed_bounds (member : e ∈ placed a strings) :
    a ≤ e.1 ∧ e.1 + e.2.length + 1 ≤ a + stringsSize strings := by
  induction strings generalizing a with
  | nil => cases member
  | cons s strings ih =>
    have size : stringsSize (s :: strings) = s.length + 1 + stringsSize strings := by
      simp only [stringsSize, List.map_cons, List.sum_cons]
    rcases List.mem_cons.mp member with rfl | later
    · dsimp only
      omega
    · have bounds := ih later
      omega

/-- The strings do not overlap. -/
theorem placed_pairwise (a : Nat) (strings : List (List (BitVec 8))) :
    ((placed a strings).map fun e => (e.1, e.2.length + 1)).Pairwise Separate := by
  induction strings generalizing a with
  | nil => exact .nil
  | cons s strings ih =>
    rw [placed, List.map_cons, List.pairwise_cons]
    refine ⟨fun r member => ?_, ih _⟩
    obtain ⟨e, found, rfl⟩ := List.mem_map.mp member
    have bounds := placed_bounds found
    exact .inl bounds.1

/-- A vector that is placed below an address is between its size and the address. -/
theorem stretches_placed (fits : vectorSize strings ≤ buf)
    (member : r ∈ stretches (buf - vectorSize strings)
      (placed (buf - stringsSize strings) strings)) :
    buf - vectorSize strings ≤ r.1 ∧ r.1 + r.2 ≤ buf := by
  unfold vectorSize at *
  rcases List.mem_cons.mp member with rfl | member
  · rw [length_placed]
    dsimp only
    omega
  · obtain ⟨e, found, rfl⟩ := List.mem_map.mp member
    have bounds := placed_bounds found
    dsimp only
    omega

/-- The stretches of a vector that is placed below an address do not overlap. -/
theorem stretches_pairwise (fits : vectorSize strings ≤ buf) :
    (stretches (buf - vectorSize strings)
      (placed (buf - stringsSize strings) strings)).Pairwise Separate := by
  rw [stretches, List.pairwise_cons]
  refine ⟨fun r member => ?_, placed_pairwise _ _⟩
  obtain ⟨e, found, rfl⟩ := List.mem_map.mp member
  have bounds := placed_bounds found
  unfold vectorSize at *
  rw [length_placed]
  left
  dsimp only
  omega

/-! ## Cells -/

/-- There are no bytes. -/
@[simp] theorem cell_nil : ¬Cell a [] b u := fun cell => nomatch cell.2

/-- The first byte, and the others. -/
theorem cell_cons : Cell a (w :: bytes) b u ↔ b = a ∧ u = w ∨ Cell (a + 1) bytes b u := by
  unfold Cell
  rcases Nat.lt_trichotomy b a with before | rfl | behind
  · exact iff_of_false (by omega) (by omega)
  · simp [eq_comm]
  · rw [show b - a = b - (a + 1) + 1 by omega, List.getElem?_cons_succ]
    constructor
    · exact fun cell => .inr ⟨behind, cell.2⟩
    · rintro (⟨rfl, _⟩ | cell)
      · omega
      · exact ⟨by omega, cell.2⟩

/-- Bytes after other bytes. -/
theorem cell_append : Cell a (bytes ++ bytes') b u ↔
    Cell a bytes b u ∨ Cell (a + bytes.length) bytes' b u := by
  induction bytes generalizing a with
  | nil => simp
  | cons w bytes ih =>
    rw [List.cons_append, cell_cons, cell_cons, ih, or_assoc, List.length_cons, Nat.add_assoc,
      Nat.add_comm 1]

/-- A byte is behind the first address and before the end. -/
theorem Cell.bounds (cell : Cell a bytes b u) : a ≤ b ∧ b < a + bytes.length := by
  have inside := (List.getElem?_eq_some_iff.mp cell.2).1
  have low := cell.1
  omega

/-- An address has one byte. -/
theorem Cell.unique (cell : Cell a bytes b u) (cell' : Cell a bytes b w) : u = w :=
  Option.some.inj (cell.2.symm.trans cell'.2)

/-- Each address has a byte. -/
theorem exists_cell (low : a ≤ b) (high : b < a + bytes.length) : ∃ u, Cell a bytes b u :=
  ⟨_, low, List.getElem?_eq_getElem (by omega)⟩

/-- A word has four bytes. -/
@[simp] theorem length_bytes32 (v : Nat) : (Machine.bytes32 v).length = 4 := rfl

/-- The bytes of more words. -/
@[simp] theorem wordBytes_append (words more : List Nat) :
    wordBytes (words ++ more) = wordBytes words ++ wordBytes more := List.flatMap_append

/-- The bytes of one word. -/
@[simp] theorem wordBytes_singleton (v : Nat) : wordBytes [v] = Machine.bytes32 v :=
  List.append_nil _

/-- The number of bytes of some words. -/
@[simp] theorem length_wordBytes (words : List Nat) : (wordBytes words).length = 4 * words.length := by
  induction words with
  | nil => rfl
  | cons v words ih =>
    rw [← List.singleton_append, wordBytes_append, List.length_append, ih, wordBytes_singleton,
      length_bytes32, List.length_append, List.length_singleton]
    omega

/-- The number of bytes of a vector and its strings. -/
theorem length_vectorBytes (buf : Nat) (strings : List (List (BitVec 8))) :
    (vectorBytes buf strings).length = vectorSize strings := by
  rw [vectorBytes, List.length_append, length_wordBytes, length_stringsImage, List.length_append,
    List.length_map, length_placed, vectorSize, List.length_singleton]
  omega

/-- The bytes of the pointers of a vector. -/
theorem VectorCell.of_entry (cell : EntryCell vec es.length e b u) :
    VectorCell vec (es ++ e :: rest) b u := by
  rcases cell with pointer | text
  · left
    rw [List.map_append, List.map_cons, List.append_assoc, wordBytes_append, cell_append]
    right
    rw [List.cons_append, ← List.singleton_append, wordBytes_append, cell_append,
      wordBytes_singleton, length_wordBytes, List.length_map]
    exact .inl pointer
  · exact .inr ⟨e, List.mem_append_right _ List.mem_cons_self, text⟩

/-! ## Memory -/

namespace Machine

/-- Bytes are there if each of them is. -/
theorem holdsAt_iff : m.HoldsAt a bytes ↔ ∀ b u, Cell a bytes b u → m.byte b = some u := by
  constructor
  · intro holds b u cell
    obtain ⟨inside, rfl⟩ := List.getElem?_eq_some_iff.mp cell.2
    have found := holds (b - a) inside
    rwa [show a + (b - a) = b by have := cell.1; omega] at found
  · intro cells j inside
    refine cells (a + j) bytes[j] ⟨Nat.le_add_right .., ?_⟩
    rw [Nat.add_sub_cancel_left]
    exact List.getElem?_eq_getElem inside

/-- Bytes after other bytes. -/
theorem holdsAt_append : m.HoldsAt a (bytes ++ bytes') ↔
    m.HoldsAt a bytes ∧ m.HoldsAt (a + bytes.length) bytes' := by
  simp only [holdsAt_iff, cell_append, or_imp, forall_and]

/-- All bytes but the first one. -/
theorem HoldsAt.tail (holds : m.HoldsAt a (u :: bytes)) : m.HoldsAt (a + 1) bytes :=
  (holdsAt_append.mp (List.singleton_append ▸ holds)).2

/-- A number is read from its bytes. -/
theorem value_of_bytes (inRange : a + count ≤ uintWidth)
    (bytes : ∀ i < count, m.byte (a + i) = some (BitVec.ofNat 8 (v / 256 ^ i))) :
    m.value a count = some (v % 256 ^ count) := by
  induction count with
  | zero => simp [value, Nat.mod_one]
  | succ count ih =>
    have low := ih (by omega) fun i less => bytes i (Nat.lt_succ_of_lt less)
    have high := bytes count (Nat.lt_succ_self count)
    rw [value, low, Option.bind_eq_bind, Option.bind_some, uadd_of_lt (by omega), high,
      Option.bind_eq_bind, Option.bind_some, Nat.mod_pow_succ, BitVec.toNat_ofNat]

/-- A number that was read has its bytes there. -/
theorem bytes_of_value (inRange : a + count ≤ uintWidth) (reads : m.value a count = some v) :
    ∀ i < count, m.byte (a + i) = some (BitVec.ofNat 8 (v / 256 ^ i)) := by
  induction count generalizing v with
  | zero => exact fun i less => absurd less (Nat.not_lt_zero i)
  | succ count ih =>
    rw [value] at reads
    obtain ⟨low, lowRead, reads⟩ := Option.bind_eq_some_iff.mp reads
    obtain ⟨high, highRead, reads⟩ := Option.bind_eq_some_iff.mp reads
    rw [uadd_of_lt (by omega)] at highRead
    cases reads
    intro i less
    rcases Nat.lt_succ_iff_lt_or_eq.mp less with earlier | rfl
    · rw [ih (by omega) lowRead i earlier]
      obtain ⟨k, rfl⟩ := Nat.exists_eq_add_of_lt earlier
      have shifted : low + 256 ^ (i + k + 1) * high.toNat =
          low + 256 ^ i * (256 * (256 ^ k * high.toNat)) := by
        rw [Nat.pow_succ, Nat.pow_add, Nat.mul_assoc, Nat.mul_assoc, Nat.mul_left_comm (256 ^ k)]
      rw [shifted, Nat.add_mul_div_left _ _ (Nat.pow_pos (by decide))]
      congr 1
      apply BitVec.eq_of_toNat_eq
      simp only [BitVec.toNat_ofNat]
      omega
    · rw [highRead, Nat.add_mul_div_left _ _ (Nat.pow_pos (by decide)),
        Nat.div_eq_of_lt (value_lt lowRead), Nat.zero_add, BitVec.ofNat_toNat, BitVec.setWidth_eq]

/-- The bytes of a word, one by one. -/
theorem holdsAt_bytes32 : m.HoldsAt a (bytes32 v) ↔
    ∀ i < 4, m.byte (a + i) = some (BitVec.ofNat 8 (v / 256 ^ i)) := by
  have byte (i : Nat) (less : i < (bytes32 v).length) :
      (bytes32 v)[i] = BitVec.ofNat 8 (v / 256 ^ i) := by
    rcases i with _ | _ | _ | _ | i
    · simp [bytes32]
    · simp [bytes32]
    · simp [bytes32]
    · simp [bytes32]
    · exact absurd less (by simp)
  exact ⟨fun holds i less => (holds i less).trans (congrArg some (byte i less)),
    fun bytes i less => (bytes i less).trans (congrArg some (byte i less)).symm⟩

/-- A word is read if and only if its bytes are there. -/
theorem value_eq_some_iff (inRange : a + 4 ≤ uintWidth) :
    m.value a 4 = some v ↔ v < uintWidth ∧ m.HoldsAt a (bytes32 v) := by
  have width : uintWidth = 256 ^ 4 := by decide
  constructor
  · intro reads
    exact ⟨width ▸ value_lt reads, holdsAt_bytes32.mpr (bytes_of_value inRange reads)⟩
  · rintro ⟨small, holds⟩
    rw [value_of_bytes inRange (holdsAt_bytes32.mp holds), Nat.mod_eq_of_lt (width ▸ small)]

/-- Words are there if and only if their bytes are. -/
theorem wordsAt_iff (inRange : a + 4 * words.length ≤ uintWidth) :
    m.WordsAt a words ↔ (∀ v ∈ words, v < uintWidth) ∧ m.HoldsAt a (wordBytes words) := by
  induction words generalizing a with
  | nil => exact iff_of_true (fun k less => nomatch less) ⟨fun v member => (nomatch member),
      fun j less => nomatch less⟩
  | cons v words ih =>
    rw [List.length_cons] at inRange
    have first := value_eq_some_iff (m := m) (v := v) (show a + 4 ≤ uintWidth by omega)
    have split : m.WordsAt a (v :: words) ↔ m.value a 4 = some v ∧ m.WordsAt (a + 4) words := by
      constructor
      · intro at_
        refine ⟨at_ 0 (Nat.succ_pos _), fun k inside => ?_⟩
        have found := at_ (k + 1) (Nat.succ_lt_succ inside)
        rwa [show a + 4 * (k + 1) = a + 4 + 4 * k by omega] at found
      · rintro ⟨head, tail⟩ k inside
        cases k with
        | zero => exact head
        | succ k =>
          rw [show a + 4 * (k + 1) = a + 4 + 4 * k by omega]
          exact tail k (Nat.lt_of_succ_lt_succ inside)
    rw [split, first, ih (by omega), List.forall_mem_cons, ← List.singleton_append (l := words),
      wordBytes_append, wordBytes_singleton, holdsAt_append, length_bytes32, and_and_and_comm]

/-- A vector is proper. -/
theorem VectorAt.proper (vector : m.VectorAt vec entries) : Proper vec entries where
  nonnull := vector.nonnull
  inRange := vector.inRange
  nonzero := vector.nonzero
  letters e member := (vector.strings e member).letters
  fits e member := (vector.strings e member).inRange

/-- The words of a vector. -/
theorem VectorAt.words_iff (inRange : vec + 4 * entries.length + 4 ≤ uintWidth) :
    m.WordsAt vec (entries.map Prod.fst ++ [0]) ↔
      (∀ e ∈ entries, e.1 < uintWidth) ∧
        m.HoldsAt vec (wordBytes (entries.map Prod.fst ++ [0])) := by
  rw [wordsAt_iff (by simp; omega)]
  refine and_congr_left fun _ => ?_
  simp only [List.forall_mem_append, List.forall_mem_map, List.forall_mem_singleton]
  exact and_iff_left (by decide)

/-- A vector is there if and only if each of its bytes is. -/
theorem vectorAt_iff : m.VectorAt vec entries ↔
    Proper vec entries ∧ ∀ b u, VectorCell vec entries b u → m.byte b = some u := by
  constructor
  · intro vector
    refine ⟨vector.proper, fun b u cell => ?_⟩
    rcases cell with pointer | ⟨e, member, text⟩
    · exact holdsAt_iff.mp ((VectorAt.words_iff vector.inRange).mp vector.words).2 b u pointer
    · exact holdsAt_iff.mp (vector.strings e member).bytes b u text
  · rintro ⟨proper, cells⟩
    refine ⟨proper.nonnull, proper.inRange, (VectorAt.words_iff proper.inRange).mpr
      ⟨fun e member => ?_, holdsAt_iff.mpr fun b u cell => cells b u (.inl cell)⟩, proper.nonzero,
      fun e member => ⟨proper.letters e member,
        holdsAt_iff.mpr fun b u cell => cells b u (.inr ⟨e, member, cell⟩), proper.fits e member⟩⟩
    have fits := proper.fits e member
    omega

/-- The bytes of a vector that may be the null pointer. -/
theorem OptionalVectorAt.byte (vector : m.OptionalVectorAt vec env) (cell : OptionalCell vec env b u) :
    m.byte b = some u := by
  cases env with
  | none => cases cell
  | some entries => exact (vectorAt_iff.mp vector).2 b u cell

/-! ## Reading a vector -/

/-- The loop of `strlen` counts the characters. -/
theorem strlenLoop_eq {steps : Nat} (letters : 0 ∉ s) (holds : m.HoldsAt a (s ++ [0]))
    (inRange : a + s.length < uintWidth) (enough : s.length < steps) :
    m.strlenLoop steps a = some s.length := by
  induction s generalizing a steps with
  | nil =>
    obtain ⟨steps, rfl⟩ := Nat.exists_eq_add_of_lt enough
    have nul : m.byte a = some 0 := holds 0 (by simp)
    rw [strlenLoop, nul, Option.bind_eq_bind, Option.bind_some, if_pos rfl]
    rfl
  | cons c s ih =>
    cases steps with
    | zero => cases enough
    | succ steps =>
      rw [List.length_cons] at inRange enough
      have first : m.byte a = some c := holds 0 (by simp)
      have later : m.HoldsAt (a + 1) (s ++ [0]) := holds.tail
      have nonzero : c ≠ 0 := fun nul => letters (nul ▸ List.mem_cons_self)
      have rest : 0 ∉ s := fun member => letters (List.mem_cons_of_mem _ member)
      rw [strlenLoop, first, Option.bind_eq_bind, Option.bind_some, if_neg nonzero,
        uadd_of_lt (by omega), ih rest later (by omega) (by omega)]
      rfl

/-- `strlen` of a string. -/
theorem StringAt.strlen (string : m.StringAt a s) : m.strlen a = some s.length :=
  strlenLoop_eq string.letters string.bytes string.inRange
    (Nat.lt_of_le_of_lt (Nat.le_add_left ..) string.inRange)

/-- The loop over a vector counts the words before the null pointer. -/
theorem vectorLoop_eq {steps : Nat} (at_ : m.WordsAt a (words ++ [0])) (nonzero : 0 ∉ words)
    (inRange : a + 4 * words.length < uintWidth) (enough : words.length < steps) :
    m.vectorLoop steps a = some words.length := by
  induction words generalizing a steps with
  | nil =>
    obtain ⟨steps, rfl⟩ := Nat.exists_eq_add_of_lt enough
    have null : m.value a 4 = some 0 := at_ 0 (by simp)
    rw [vectorLoop, null, Option.bind_eq_bind, Option.bind_some, if_pos rfl]
    rfl
  | cons p words ih =>
    cases steps with
    | zero => cases enough
    | succ steps =>
      rw [List.length_cons] at inRange enough
      have first : m.value a 4 = some p := at_ 0 (by simp)
      have later : m.WordsAt (a + 4) (words ++ [0]) := by
        intro k inside
        have found := at_ (k + 1) (by simpa using inside)
        rwa [show a + 4 * (k + 1) = a + 4 + 4 * k by omega] at found
      have pointer : p ≠ 0 := fun null => nonzero (null ▸ List.mem_cons_self)
      have rest : 0 ∉ words := fun member => nonzero (List.mem_cons_of_mem _ member)
      rw [vectorLoop, first, Option.bind_eq_bind, Option.bind_some, if_neg pointer,
        uadd_of_lt (by omega), ih later rest (by omega) (by omega)]
      rfl

/-- The number of strings of a vector. -/
theorem VectorAt.length (vector : m.VectorAt vec entries) :
    m.vectorLength vec = some entries.length := by
  have inRange := vector.inRange
  have nonzero : 0 ∉ entries.map Prod.fst := by
    intro member
    obtain ⟨e, found, null⟩ := List.mem_map.mp member
    exact vector.nonzero e found null
  have loop : m.vectorLoop uintWidth vec = some (entries.map Prod.fst).length :=
    vectorLoop_eq vector.words nonzero (by rw [List.length_map]; omega)
      (by rw [List.length_map]; omega)
  rwa [List.length_map] at loop

/-- A memory has one string at an address. -/
theorem StringAt.unique {s' : List (BitVec 8)} (string : m.StringAt a s)
    (string' : m.StringAt a s') : s = s' := by
  have length : s.length = s'.length := Option.some.inj (string.strlen.symm.trans string'.strlen)
  refine List.ext_getElem length fun j inside inside' => ?_
  have found := (holdsAt_append.mp string.bytes).1 j inside
  have found' := (holdsAt_append.mp string'.bytes).1 j inside'
  exact Option.some.inj (found.symm.trans found')

/-- A memory has one vector at an address. -/
theorem VectorAt.unique {entries' : List Entry} (vector : m.VectorAt vec entries)
    (vector' : m.VectorAt vec entries') : entries = entries' := by
  have length : entries.length = entries'.length :=
    Option.some.inj (vector.length.symm.trans vector'.length)
  refine List.ext_getElem length fun k inside inside' => ?_
  have pointer : some entries[k].1 = some entries'[k].1 := by
    have found := vector.words k (by simp; omega)
    have found' := vector'.words k (by simp; omega)
    rw [List.getElem_append_left (by simpa using inside), List.getElem_map] at found
    rw [List.getElem_append_left (by simpa using inside'), List.getElem_map] at found'
    exact found.symm.trans found'
  have string := vector.strings _ (List.getElem_mem inside)
  rw [Option.some.inj pointer] at string
  have text := string.unique (vector'.strings _ (List.getElem_mem inside'))
  exact Prod.ext (Option.some.inj pointer) text

/-- So with a vector that may be the null pointer. -/
theorem OptionalVectorAt.unique {env' : Option (List Entry)} (vector : m.OptionalVectorAt vec env)
    (vector' : m.OptionalVectorAt vec env') : env = env' := by
  cases env with
  | none =>
    cases env' with
    | none => rfl
    | some entries' => exact absurd vector (VectorAt.nonnull vector')
  | some entries =>
    cases env' with
    | none => exact absurd vector' (VectorAt.nonnull vector)
    | some entries' => exact congrArg _ (VectorAt.unique vector vector')

/-- A block is decoded in one way. -/
theorem Decodes.unique {esp : Nat} {strings' : List (List (BitVec 8))}
    {texts texts' : Option (List (List (BitVec 8)))} (decodes : m.Decodes esp strings texts)
    (decodes' : m.Decodes esp strings' texts') : strings = strings' ∧ texts = texts' := by
  obtain ⟨args, envs, argEntries, envEntries, block⟩ := decodes
  obtain ⟨args', envs', argEntries', envEntries', block'⟩ := decodes'
  obtain rfl : args = args' := Option.some.inj (block.argv.symm.trans block'.argv)
  obtain rfl : envs = envs' := Option.some.inj (block.envp.symm.trans block'.envp)
  obtain rfl := block.argVector.unique block'.argVector
  obtain rfl := block.envVector.unique block'.envVector
  exact ⟨block.argStrings.symm.trans block'.argStrings,
    block.envStrings.symm.trans block'.envStrings⟩

/-! ## Decoding a block -/

/-- The strings that are placed one after the other. -/
theorem stringAt_of_placed (image : m.HoldsAt a (stringsImage strings))
    (letters : ∀ s ∈ strings, 0 ∉ s) (inRange : a + stringsSize strings ≤ uintWidth)
    (member : e ∈ placed a strings) : m.StringAt e.1 e.2 := by
  induction strings generalizing a with
  | nil => cases member
  | cons s strings ih =>
    have size : stringsSize (s :: strings) = s.length + 1 + stringsSize strings := by
      simp only [stringsSize, List.map_cons, List.sum_cons]
    have split : stringsImage (s :: strings) = (s ++ [0]) ++ stringsImage strings := by
      simp [stringsImage]
    rw [split] at image
    rcases List.mem_cons.mp member with rfl | later
    · refine ⟨letters s List.mem_cons_self, (holdsAt_append.mp image).1, ?_⟩
      dsimp only
      omega
    · have rest := (holdsAt_append.mp image).2
      rw [List.length_append, List.length_singleton, ← Nat.add_assoc] at rest
      exact ih rest (fun s found => letters s (List.mem_cons_of_mem _ found)) (by omega) later


/-- The bytes of a vector are a vector. -/
theorem vectorAt_of_bytes (holds : m.HoldsAt (buf - vectorSize strings) (vectorBytes buf strings))
    (letters : ∀ s ∈ strings, 0 ∉ s) (fits : vectorSize strings < buf) (inRange : buf < uintWidth) :
    m.VectorAt (buf - vectorSize strings) (placed (buf - stringsSize strings) strings) := by
  have total : vectorSize strings = stringsSize strings + 4 * strings.length + 4 := rfl
  obtain ⟨words, texts⟩ := holdsAt_append.mp holds
  rw [length_wordBytes, List.length_append, List.length_map, length_placed, List.length_singleton,
    show buf - vectorSize strings + 4 * (strings.length + 1) = buf - stringsSize strings by omega]
    at texts
  have bounds (e : Entry) (member : e ∈ placed (buf - stringsSize strings) strings) :=
    placed_bounds member
  refine ⟨by omega, by rw [length_placed]; omega, ?_, fun e member => ?_, fun e member =>
    stringAt_of_placed texts letters (by omega) member⟩
  · refine (VectorAt.words_iff (by rw [length_placed]; omega)).mpr ⟨fun e member => ?_, words⟩
    have := bounds e member
    omega
  · have := bounds e member
    omega

/-- So with a vector that may be missing. -/
theorem optionalVectorAt_of_bytes {texts : Option (List (List (BitVec 8)))}
    (holds : m.HoldsAt (buf - optionalSize texts) (optionalBytes buf texts))
    (letters : ∀ strings ∈ texts, ∀ s ∈ strings, 0 ∉ s) (fits : optionalSize texts < buf)
    (inRange : buf < uintWidth) : ∃ entries, m.OptionalVectorAt (optionalAt buf texts) entries ∧
      entries.map (List.map Prod.snd) = texts ∧
      (optionalStretches (optionalAt buf texts) entries).Pairwise Separate ∧
      ∀ r ∈ optionalStretches (optionalAt buf texts) entries,
        buf - optionalSize texts ≤ r.1 ∧ r.1 + r.2 ≤ buf := by
  cases texts with
  | none => exact ⟨none, rfl, rfl, .nil, fun r member => nomatch member⟩
  | some strings =>
    refine ⟨some (placed (buf - stringsSize strings) strings), ?_, ?_, ?_, fun r member => ?_⟩
    · exact vectorAt_of_bytes holds (letters strings rfl) fits inRange
    · rw [Option.map_some, map_snd_placed]
    · exact stretches_pairwise (Nat.le_of_lt fits)
    · exact stretches_placed (Nat.le_of_lt fits) member

/-- The bytes of a block are decoded to what it was made of. -/
theorem decodes_of_bytes {texts : Option (List (List (BitVec 8)))}
    (holds : m.HoldsAt lo (blockBytes strings.length pos (some strings) texts))
    (size : lo + blockSize strings texts = pos) (inRange : pos < uintWidth)
    (letters : ∀ s ∈ strings, 0 ∉ s) (letters' : ∀ more ∈ texts, ∀ s ∈ more, 0 ∉ s) :
    m.Decodes lo strings texts := by
  have total : vectorSize strings = stringsSize strings + 4 * strings.length + 4 := rfl
  unfold blockSize at size
  generalize top_eq : pos - optionalSize texts = top at *
  have base : top - vectorSize strings = lo + 12 := by omega
  obtain ⟨header, vectors⟩ := holdsAt_append.mp holds
  rw [top_eq] at header vectors
  obtain ⟨argBytes, envBytes⟩ := holdsAt_append.mp vectors
  have length : lo + (wordBytes [strings.length, optionalAt top (some strings),
      optionalAt pos texts]).length = top - vectorSize strings := by
    rw [length_wordBytes, base]
    rfl
  rw [length] at argBytes envBytes
  have length' : top - vectorSize strings + (optionalBytes top (some strings)).length =
      pos - optionalSize texts := by
    rw [optionalBytes, length_vectorBytes]
    omega
  rw [length'] at envBytes
  have argVector := vectorAt_of_bytes argBytes letters (by omega) (by omega)
  obtain ⟨envEntries, envVector, envStrings, envPairwise, envBounds⟩ :=
    optionalVectorAt_of_bytes envBytes letters' (by omega) inRange
  have argBounds (r : Nat × Nat) (member : r ∈ stretches (top - vectorSize strings)
      (placed (top - stringsSize strings) strings)) :
      top - vectorSize strings ≤ r.1 ∧ r.1 + r.2 ≤ top := stretches_placed (by omega) member
  have envRange : optionalAt pos texts < uintWidth := by
    cases texts with
    | none => exact Nat.zero_lt_of_lt inRange
    | some more => exact Nat.lt_of_le_of_lt (Nat.sub_le ..) inRange
  have words : m.WordsAt lo [strings.length, optionalAt top (some strings), optionalAt pos texts] :=
    (wordsAt_iff (by simp; omega)).mpr ⟨?_, header⟩
  · refine ⟨_, _, _, envEntries, words 0 (by simp), words 1 (by simp), words 2 (by simp), argVector,
      envVector, map_snd_placed _ _, envStrings, ?_⟩
    rw [List.pairwise_cons, List.pairwise_append]
    refine ⟨fun r member => ?_, stretches_pairwise (by omega), envPairwise,
      fun r member r' member' => ?_⟩
    · left
      dsimp only
      rcases List.mem_append.mp member with inArgs | inEnvs
      · have bounds := argBounds r inArgs
        omega
      · have bounds := envBounds r inEnvs
        omega
    · have bounds := argBounds r member
      have bounds' := envBounds r' member'
      left
      omega
  · intro v member
    simp only [List.mem_cons, List.not_mem_nil, or_false] at member
    rcases member with rfl | rfl | rfl
    · omega
    · show top - vectorSize strings < uintWidth
      omega
    · exact envRange

end Machine

end Nupkux
