import Nupkux.Lib.Region
import Nupkux.Types

/-!
# The user shell

`sh_gets` collects a line: each key is stored at the index, also a backspace, before it is looked
at, and the index is moved afterwards. Nothing compares the index with the length of the buffer.
What is echoed to the terminal is not kept.
-/

namespace Nupkux

/-- The length of `input` in `main`. -/
def inputLen : Nat := 255

/-- The loop of `sh_gets`, given the keys that come. It goes on waiting without a newline. -/
def shGetsLoop : CString → Int → Region UInt8 → Option (Region UInt8)
  | [], _, _ => none
  | key :: keys, i, buf =>
    let buf := buf.write i key
    if key = 10 then some (buf.write i 0)
    else if key = 8 then
      let i := i - 2
      let i := if i < 0 then -1 else i
      shGetsLoop keys (i + 1) buf
    else shGetsLoop keys (i + 1) buf

/-- `sh_gets`. -/
def shGets (keys : CString) (buf : Region UInt8) : Option (Region UInt8) := shGetsLoop keys 0 buf

/-- A line after a key: a backspace takes the last character off, other keys are appended. -/
def pressKey (typed : CString) (key : UInt8) : CString :=
  if key = 8 then typed.dropLast else typed ++ [key]

/-- The line after some keys. -/
def edited (keys : CString) : CString := keys.foldl pressKey []

/-- A buffer begins with some characters. -/
def BeginsWith (buf : Region UInt8) (typed : CString) : Prop :=
  ∀ k : Nat, (inside : k < typed.length) → buf.cell k = typed[k]

/-- `sh_gets` stores in the buffer only and leaves the edited line and a NUL there, cut to the
length of the buffer. -/
def EditsLine (keys rest : CString) (buf : Region UInt8) : Prop :=
  ∃ buf', shGets (keys ++ 10 :: rest) buf = some buf' ∧ buf'.Within inputLen ∧
    BeginsWith buf' ((edited keys).take (inputLen - 1) ++ [0])

variable {keys rest typed : CString} {key : UInt8} {buf : Region UInt8} {i : Int}

/-- The index after a key is the length of the line. -/
theorem nextIndex_eq (typed : CString) (key : UInt8) :
    (if key = 8 then (if (typed.length : Int) - 2 < 0 then -1 else (typed.length : Int) - 2) + 1
      else typed.length + 1) = ((pressKey typed key).length : Int) := by
  unfold pressKey
  by_cases back : key = 8
  · rw [if_pos back, if_pos back, List.length_dropLast]
    split <;> omega
  · rw [if_neg back, if_neg back, List.length_append, List.length_singleton]
    omega

/-- One turn of the loop. -/
theorem shGetsLoop_cons (more : key ≠ 10) (keys typed : CString) (buf : Region UInt8) :
    shGetsLoop (key :: keys) typed.length buf =
      shGetsLoop keys (pressKey typed key).length (buf.write typed.length key) := by
  rw [shGetsLoop, if_neg more, ← nextIndex_eq typed key]
  by_cases back : key = 8
  · rw [if_pos back, if_pos back]
  · rw [if_neg back, if_neg back]

/-- The line after a key is in the buffer. -/
theorem BeginsWith.press (begins : BeginsWith buf typed) (key : UInt8) :
    BeginsWith (buf.write typed.length key) (pressKey typed key) := by
  intro k inside
  by_cases last : k = typed.length
  · subst last
    rw [Region.cell_write_self]
    unfold pressKey at inside ⊢
    by_cases back : key = 8
    · rw [if_pos back, List.length_dropLast] at inside
      omega
    · simp [back]
  · rw [Region.cell_write_of_ne (by omega)]
    unfold pressKey at inside ⊢
    by_cases back : key = 8
    · simp only [back, if_true] at inside ⊢
      rw [List.length_dropLast] at inside
      rw [List.getElem_dropLast]
      exact begins k (by omega)
    · simp only [back, if_false] at inside ⊢
      rw [List.length_append, List.length_singleton] at inside
      rw [List.getElem_append_left (by omega)]
      exact begins k (by omega)

/-- The loop leaves the edited line, and stores at the length of the line after each of the first
keys. -/
theorem shGetsLoop_spec (begins : BeginsWith buf typed) (letters : 10 ∉ keys) (rest : CString) :
    ∃ buf', shGetsLoop (keys ++ 10 :: rest) typed.length buf = some buf' ∧
      BeginsWith buf' (keys.foldl pressKey typed ++ [0]) ∧
      ∀ j, j ∈ buf'.written ↔
        j ∈ buf.written ∨ ∃ n ≤ keys.length, j = ((keys.take n).foldl pressKey typed).length := by
  induction keys generalizing typed buf with
  | nil =>
    refine ⟨(buf.write typed.length 10).write typed.length 0, rfl, fun k inside => ?_, fun j => ?_⟩
    · rw [List.foldl_nil, List.length_append, List.length_singleton] at inside
      simp only [List.foldl_nil]
      by_cases last : k = typed.length
      · subst last
        simp
      · rw [Region.cell_write_of_ne (by omega), Region.cell_write_of_ne (by omega),
          List.getElem_append_left (by omega)]
        exact begins k (by omega)
    · have single : (∃ n ≤ ([] : CString).length, j = ((([] : CString).take n).foldl pressKey
          typed).length) ↔ j = typed.length := by
        simp only [List.length_nil, Nat.le_zero_eq, exists_eq_left, List.take_nil, List.foldl_nil]
      rw [single, Region.write, Region.write, List.mem_cons, List.mem_cons]
      tauto
  | cons key keys ih =>
    have more : key ≠ 10 := fun same => letters (same ▸ List.mem_cons_self)
    have later : 10 ∉ keys := fun member => letters (List.mem_cons_of_mem _ member)
    obtain ⟨buf', run, holds, written⟩ := ih (begins.press key) later
    refine ⟨buf', (shGetsLoop_cons more _ typed buf).trans run, holds, fun j => ?_⟩
    rw [written, Region.write, List.mem_cons]
    constructor
    · rintro ((here | before) | ⟨n, short, here⟩)
      · exact .inr ⟨0, Nat.zero_le _, here⟩
      · exact .inl before
      · exact .inr ⟨n + 1, Nat.succ_le_succ short, here⟩
    · rintro (before | ⟨n, short, here⟩)
      · exact .inl (.inr before)
      · cases n with
        | zero => exact .inl (.inl here)
        | succ n => exact .inr ⟨n, Nat.le_of_succ_le_succ short, here⟩

/-- `sh_gets` edits the line in its buffer if and only if the line is shorter than the buffer after
each of the first keys. -/
theorem editsLine_iff (within : buf.Within inputLen) (letters : 10 ∉ keys) (rest : CString) :
    EditsLine keys rest buf ↔ ∀ n ≤ keys.length, (edited (keys.take n)).length < inputLen := by
  have start : BeginsWith buf [] := fun k inside => absurd inside (Nat.not_lt_zero k)
  obtain ⟨buf', run, holds, written⟩ := shGetsLoop_spec start letters rest
  constructor
  · rintro ⟨buf'', run', inside, _⟩ n early
    obtain rfl := Option.some.inj (run'.symm.trans run)
    have last := inside _ ((written _).mpr (.inr ⟨n, early, rfl⟩))
    exact Int.ofNat_lt.mp last.2
  · intro short
    refine ⟨buf', run, fun j member => ?_, ?_⟩
    · rcases (written j).mp member with before | ⟨n, early, rfl⟩
      · exact within j before
      · exact ⟨Int.natCast_nonneg _, Int.ofNat_lt.mpr (short n early)⟩
    · have whole := short keys.length (Nat.le_refl _)
      rw [List.take_length] at whole
      rw [List.take_of_length_le (Nat.le_sub_one_of_lt whole)]
      exact holds

/-- `"a"`, `"b"`, a backspace and `"c"`. -/
theorem editsLine_iff_ac : EditsLine [97, 98, 8, 99] [] { cell := fun _ => 0 } ∧
    edited [97, 98, 8, 99] = [97, 99] :=
  ⟨(editsLine_iff (fun j member => absurd member List.not_mem_nil) (by decide) []).mpr (by decide),
    rfl⟩

/-- Keys without a backspace are the line. -/
theorem foldl_pressKey (plain : 8 ∉ keys) (typed : CString) :
    keys.foldl pressKey typed = typed ++ keys := by
  induction keys generalizing typed with
  | nil => exact (List.append_nil typed).symm
  | cons key keys ih =>
    have letter : key ≠ 8 := fun same => plain (same ▸ List.mem_cons_self)
    rw [List.foldl_cons, pressKey, if_neg letter,
      ih fun member => plain (List.mem_cons_of_mem _ member), List.append_assoc]
    rfl

/-- A line of as many letters as there are bytes: the newline is stored behind the buffer. -/
theorem editsLine_not : ¬EditsLine (List.replicate 255 97) [] { cell := fun _ => 0 } := by
  rintro ⟨buf', run, inside, _⟩
  have letters (c : UInt8) (other : c ≠ 97) : c ∉ List.replicate 255 97 :=
    fun member => other (List.eq_of_mem_replicate member)
  have start : BeginsWith { cell := fun _ => 0 } [] :=
    fun k inside => absurd inside (Nat.not_lt_zero k)
  obtain ⟨buf'', run', _, written⟩ := shGetsLoop_spec start (letters 10 (by decide)) []
  obtain rfl := Option.some.inj (run'.symm.trans run)
  have whole : ((List.replicate 255 (97 : UInt8)).foldl pressKey []).length = 255 := by
    rw [foldl_pressKey (letters 8 (by decide)), List.nil_append, List.length_replicate]
  have stored : (255 : Int) ∈ buf''.written := by
    refine (written 255).mpr (.inr ⟨255, Nat.le_of_eq List.length_replicate.symm, ?_⟩)
    rw [List.take_of_length_le (Nat.le_of_eq List.length_replicate), whole]
    rfl
  exact absurd (inside 255 stored).2 (Int.lt_irrefl _)

end Nupkux
