import Nupkux.Lib.Region
import Nupkux.Strings

/-!
# Strings in blocks of memory

The functions of `lib/string.c` on memory that is made of blocks: a pointer is a block and an index
into it, and what is written to a block is recorded. A walk along a string takes at most as many
steps as there are addresses. A copy may go from one place of a block to another place of it.
-/

namespace Nupkux

/-- Memory, as the blocks that pointers lead to. -/
abbrev BlockMemory := Nat → Region UInt8

/-- A `char *`. -/
structure Pointer where
  block : Nat
  index : Int
  deriving DecidableEq

/-- `p + n`. -/
def Pointer.plus (p : Pointer) (n : Int) : Pointer := { p with index := p.index + n }

namespace BlockMemory

/-- `*p`. -/
def load (m : BlockMemory) (p : Pointer) : UInt8 := (m p.block).cell p.index

/-- `*p = c`. -/
def store (m : BlockMemory) (p : Pointer) (c : UInt8) : BlockMemory :=
  Function.update m p.block ((m p.block).write p.index c)

/-- `memset(p, c, count)`. -/
def memset (m : BlockMemory) (p : Pointer) (c : UInt8) (count : Nat) : BlockMemory :=
  Function.update m p.block ((m p.block).fill p.index c count)

/-- The loop of `strchr`: where it ends. -/
def strchrLoop (m : BlockMemory) (chr : UInt8) : Nat → Pointer → Pointer
  | 0, str => str
  | steps + 1, str =>
    if m.load str ≠ 0 ∧ m.load str ≠ chr then m.strchrLoop chr steps (str.plus 1) else str

/-- `strchr`. -/
def strchr (m : BlockMemory) (str : Pointer) (chr : UInt8) : Option Pointer :=
  let str := m.strchrLoop chr uintWidth str
  if m.load str = 0 then none else some str

/-- The loop of `strcpy`, and the NUL after it. -/
def strcpyLoop : Nat → Pointer → Pointer → BlockMemory → BlockMemory
  | 0, tmp, _, m => m.store tmp 0
  | steps + 1, tmp, src, m =>
    if m.load src ≠ 0 then strcpyLoop steps (tmp.plus 1) (src.plus 1) (m.store tmp (m.load src))
    else m.store tmp 0

/-- `strcpy`. -/
def strcpy (m : BlockMemory) (dest src : Pointer) : BlockMemory := strcpyLoop uintWidth dest src m

/-- The first loop of `strncpy`: what is left of `num`, where `tmp` points, and the memory. -/
def strncpyLoop (src : Pointer) : Nat → Pointer → BlockMemory → Nat × Pointer × BlockMemory
  | num, tmp, m => match num with
    | 0 => if m.load src = 0 then (0, tmp, m) else (uintWidth - 1, tmp, m)
    | num + 1 =>
      if m.load src = 0 then (num + 1, tmp, m)
      else strncpyLoop (src.plus 1) num (tmp.plus 1) (m.store tmp (m.load src))

/-- `strncpy`. -/
def strncpy (m : BlockMemory) (dest src : Pointer) (num : Nat) : BlockMemory :=
  let copied := strncpyLoop src num dest m
  copied.2.2.memset copied.2.1 0 copied.1

end BlockMemory

/-- A string and its NUL stand in a block from an index on. -/
def Spells (r : Region UInt8) (i : Int) : CString → Prop
  | [] => r.cell i = 0
  | c :: s => r.cell i = c ∧ c ≠ 0 ∧ Spells r (i + 1) s

/-- A string was written to a block, and nothing else. -/
structure Wrote (r r' : Region UInt8) (i : Int) (s : CString) : Prop where
  spells : Spells r' i s
  others : ∀ j, j < i ∨ i + s.length < j → r'.cell j = r.cell j
  written : ∀ j ∈ r'.written, j ∈ r.written ∨ i ≤ j ∧ j ≤ i + s.length

variable {m : BlockMemory} {r r' : Region UInt8} {p dest src : Pointer} {i : Int}
  {s w rest : CString} {chr c : UInt8} {b num steps : Nat}

/-- A block that is not written to. -/
theorem BlockMemory.store_of_ne (apart : b ≠ p.block) : m.store p c b = m b :=
  Function.update_of_ne apart ..

/-- The block that is written to. -/
theorem BlockMemory.store_self (m : BlockMemory) (p : Pointer) (c : UInt8) :
    m.store p c p.block = (m p.block).write p.index c := Function.update_self ..

/-- A string stands where its cells are the same. -/
theorem Spells.congr (spells : Spells r i s)
    (same : ∀ j, i ≤ j → j ≤ i + s.length → r'.cell j = r.cell j) : Spells r' i s := by
  induction s generalizing i with
  | nil => exact (same i (Int.le_refl i) (by simp)).trans spells
  | cons c s ih =>
    obtain ⟨first, nonzero, later⟩ := spells
    refine ⟨(same i (Int.le_refl i) ?_).trans first, nonzero, ih later ?_⟩
    · simp only [List.length_cons]
      omega
    · intro j low high
      apply same j (by omega)
      simp only [List.length_cons]
      omega

/-- A string stands where its bytes and its NUL are. -/
theorem spells_of_cells (letters : NoNul s)
    (cells : ∀ j : Nat, (below : j < s.length) → r.cell (i + j) = s[j])
    (ends : r.cell (i + s.length) = 0) : Spells r i s := by
  induction s generalizing i with
  | nil => simpa [Spells] using ends
  | cons c s ih =>
    have next (j : Nat) : i + 1 + (j : Int) = i + (j + 1 : Nat) := by omega
    refine ⟨?_, letters.head_ne, ih letters.tail ?_ ?_⟩
    · simpa using cells 0 (Nat.succ_pos _)
    · intro j below
      rw [next]
      exact cells (j + 1) (Nat.succ_lt_succ below)
    · rw [next]
      exact ends

/-- A string is the text of its cells. -/
theorem Spells.text {most : Nat} (spells : Spells r i s) (room : s.length < most) :
    r.text i most = s := by
  induction s generalizing i most with
  | nil =>
    cases most with
    | zero => rfl
    | succ most => exact if_pos spells
  | cons c s ih =>
    cases most with
    | zero => cases room
    | succ most =>
      obtain ⟨first, nonzero, later⟩ := spells
      rw [Region.text, first, if_neg nonzero, ih later (Nat.lt_of_succ_lt_succ room)]

/-- The cells after a part of a string. -/
theorem Spells.append (spells : Spells r i (w ++ rest)) : Spells r (i + w.length) rest := by
  induction w generalizing i with
  | nil => simpa using spells
  | cons c w ih =>
    obtain ⟨_, _, later⟩ := spells
    have position : i + (w.length + 1 : Nat) = i + 1 + w.length := by omega
    rw [List.length_cons, position]
    exact ih later

/-- A cell of a string. -/
theorem Spells.cell (spells : Spells r i (w ++ c :: rest)) :
    r.cell (i + w.length) = c ∧ c ≠ 0 := ⟨spells.append.1, spells.append.2.1⟩

/-- The NUL of a string. -/
theorem Spells.ends (spells : Spells r i s) : r.cell (i + s.length) = 0 := by
  rw [← List.append_nil s] at spells
  exact spells.append

/-- A string that a NUL cuts. -/
theorem Spells.cut (spells : Spells r i (w ++ rest)) (ends : r'.cell (i + w.length) = 0)
    (same : ∀ j, i ≤ j → j < i + w.length → r'.cell j = r.cell j) : Spells r' i w := by
  induction w generalizing i with
  | nil => simpa [Spells] using ends
  | cons c w ih =>
    obtain ⟨first, nonzero, later⟩ := spells
    rw [List.length_cons] at ends same
    refine ⟨(same i (Int.le_refl i) (by omega)).trans first, nonzero, ih later ?_ ?_⟩
    · rwa [show i + 1 + (w.length : Int) = i + (w.length + 1 : Nat) by omega]
    · intro j low high
      exact same j (by omega) (by omega)

/-! ## The functions -/

/-- `strchr` walks up to the character. -/
theorem BlockMemory.strchrLoop_eq (spells : Spells (m p.block) p.index (w ++ rest))
    (absent : chr ∉ w)
    (ends : rest = [] ∨ rest.head? = some chr) (enough : w.length < steps) :
    m.strchrLoop chr steps p = p.plus w.length := by
  induction w generalizing p steps with
  | nil =>
    obtain ⟨steps, rfl⟩ := Nat.exists_eq_add_of_lt enough
    have stops : ¬(m.load p ≠ 0 ∧ m.load p ≠ chr) := by
      rintro ⟨nonzero, differ⟩
      rcases ends with rfl | first
      · exact nonzero spells
      · cases rest with
        | nil => cases first
        | cons c rest => exact differ (spells.1.trans (Option.some.inj first))
    rw [strchrLoop, if_neg stops]
    simp [Pointer.plus]
  | cons c w ih =>
    cases steps with
    | zero => cases enough
    | succ steps =>
      obtain ⟨first, nonzero, later⟩ := spells
      have goesOn : m.load p ≠ 0 ∧ m.load p ≠ chr := by
        rw [show m.load p = c from first]
        exact ⟨nonzero, fun same => absent (same ▸ List.mem_cons_self)⟩
      have rest_absent : chr ∉ w := fun member => absent (List.mem_cons_of_mem _ member)
      have next := ih (p := p.plus 1) later rest_absent (Nat.lt_of_succ_lt_succ enough)
      rw [strchrLoop, if_pos goesOn, next]
      simp only [Pointer.plus, List.length_cons]
      congr 1
      omega

/-- A character that a string does not have. -/
theorem BlockMemory.strchr_none (spells : Spells (m p.block) p.index s) (absent : chr ∉ s)
    (short : s.length < uintWidth) : m.strchr p chr = none := by
  have spelled : Spells (m p.block) p.index (s ++ []) := by rwa [List.append_nil]
  have walk := strchrLoop_eq spelled absent (.inl rfl) short
  have nul : m.load (p.plus s.length) = 0 := spells.ends
  rw [strchr, walk, if_pos nul]

/-- The first place of a character. -/
theorem BlockMemory.strchr_some (spells : Spells (m p.block) p.index (w ++ chr :: rest))
    (absent : chr ∉ w) (short : w.length < uintWidth) :
    m.strchr p chr = some (p.plus w.length) := by
  have walk := strchrLoop_eq spells absent (.inr rfl) short
  have here : m.load (p.plus w.length) ≠ 0 := by
    obtain ⟨same, nonzero⟩ := spells.cell
    rw [show m.load (p.plus w.length) = chr from same]
    exact nonzero
  rw [strchr, walk, if_neg here]

/-- `strcpy` writes the string, also to an earlier place of the same block. -/
theorem BlockMemory.strcpyLoop_spec (dest src : Pointer) (spells : Spells (m src.block) src.index s)
    (order : dest.block = src.block → dest.index ≤ src.index) (enough : s.length < steps) :
    (∀ b ≠ dest.block, strcpyLoop steps dest src m b = m b) ∧
      Wrote (m dest.block) (strcpyLoop steps dest src m dest.block) dest.index s := by
  induction s generalizing dest src m steps with
  | nil =>
    obtain ⟨steps, rfl⟩ := Nat.exists_eq_add_of_lt enough
    have nul : ¬m.load src ≠ 0 := not_not.mpr spells
    rw [strcpyLoop, if_neg nul]
    refine ⟨fun b apart => store_of_ne apart, ?_⟩
    rw [store_self]
    refine ⟨Region.cell_write_self .., fun j outside => Region.cell_write_of_ne ?_, ?_⟩
    · simp only [List.length_nil] at outside
      omega
    · intro j member
      rcases List.mem_cons.mp member with here | before
      · simp only [List.length_nil]
        exact .inr (by omega)
      · exact .inl before
  | cons c s ih =>
    cases steps with
    | zero => cases enough
    | succ steps =>
      obtain ⟨first, nonzero, later⟩ := spells
      have char : m.load src = c := first
      rw [strcpyLoop, char, if_pos nonzero]
      have spelled : Spells (m.store dest c (src.plus 1).block) (src.plus 1).index s := by
        show Spells (m.store dest c src.block) (src.index + 1) s
        by_cases same : src.block = dest.block
        · apply later.congr
          intro j low _
          have before := order same.symm
          rw [same, store_self]
          exact Region.cell_write_of_ne (by omega)
        · rwa [store_of_ne same]
      obtain ⟨frame, wrote⟩ := ih (dest.plus 1) (src.plus 1) spelled
        (fun same => Int.add_le_add_right (order same) 1) (Nat.lt_of_succ_lt_succ enough)
      have kept (j : Int) (outside : j < dest.index + 1 ∨ dest.index + 1 + s.length < j) :
          (strcpyLoop steps (dest.plus 1) (src.plus 1) (m.store dest c) dest.block).cell j =
            ((m dest.block).write dest.index c).cell j := by
        rw [← store_self]
        exact wrote.others j outside
      refine ⟨fun b apart => (frame b apart).trans (store_of_ne apart), ⟨?_, nonzero, wrote.spells⟩,
        ?_, ?_⟩
      · rw [kept dest.index (by omega)]
        exact Region.cell_write_self ..
      · intro j outside
        rw [List.length_cons] at outside
        rw [kept j (by omega)]
        exact Region.cell_write_of_ne (by omega)
      · intro j member
        rw [List.length_cons]
        rcases wrote.written j member with before | inside
        · rw [show (dest.plus 1).block = dest.block from rfl, store_self] at before
          rcases List.mem_cons.mp before with here | earlier
          · exact .inr (by omega)
          · exact .inl earlier
        · have position : (dest.plus 1).index = dest.index + 1 := rfl
          exact .inr (by omega)

/-- `strcpy` leaves the other blocks alone. -/
theorem BlockMemory.strcpy_of_ne (dest src : Pointer) (spells : Spells (m src.block) src.index s)
    (order : dest.block = src.block → dest.index ≤ src.index) (short : s.length < uintWidth)
    (apart : b ≠ dest.block) : m.strcpy dest src b = m b :=
  (strcpyLoop_spec dest src spells order short).1 b apart

/-- `strcpy` writes the string. -/
theorem BlockMemory.strcpy_wrote (dest src : Pointer) (spells : Spells (m src.block) src.index s)
    (order : dest.block = src.block → dest.index ≤ src.index) (short : s.length < uintWidth) :
    Wrote (m dest.block) (m.strcpy dest src dest.block) dest.index s :=
  (strcpyLoop_spec dest src spells order short).2

/-- One character of `strncpy`. -/
theorem BlockMemory.strncpy_succ (char : m.load src = c) (nonzero : c ≠ 0) (num : Nat) :
    m.strncpy dest src (num + 1) = (m.store dest c).strncpy (dest.plus 1) (src.plus 1) num := by
  have more : ¬m.load src = 0 := by rwa [char]
  rw [strncpy, strncpyLoop, if_neg more, char]
  rfl

/-- `strncpy` of a string that is shorter than its target fills the target. -/
theorem BlockMemory.strncpy_spec (dest src : Pointer) (spells : Spells (m src.block) src.index s)
    (differ : dest.block ≠ src.block) (fits : s.length < num) :
    (∀ b ≠ dest.block, m.strncpy dest src num b = m b) ∧
      Spells (m.strncpy dest src num dest.block) dest.index s ∧
      (∀ j < dest.index, (m.strncpy dest src num dest.block).cell j = (m dest.block).cell j) ∧
      ∀ j ∈ (m.strncpy dest src num dest.block).written,
        j ∈ (m dest.block).written ∨ dest.index ≤ j ∧ j < dest.index + num := by
  induction s generalizing dest src m num with
  | nil =>
    have filled : m.strncpy dest src num = m.memset dest 0 num := by
      have nul : m.load src = 0 := spells
      obtain ⟨num, rfl⟩ := Nat.exists_eq_add_of_lt fits
      rw [strncpy, strncpyLoop, if_pos nul]
    have target : m.memset dest 0 num dest.block = (m dest.block).fill dest.index 0 num :=
      Function.update_self ..
    rw [List.length_nil] at fits
    rw [filled, target]
    refine ⟨fun b apart => Function.update_of_ne apart .., ?_, fun j before => ?_, ?_⟩
    · exact Region.cell_fill_of_mem (Int.le_refl _) (by omega)
    · exact Region.cell_fill_of_not_mem (by omega)
    · intro j member
      rcases List.mem_append.mp member with written | before
      · obtain ⟨k, range, rfl⟩ := List.mem_map.mp written
        have below := List.mem_range.mp range
        exact .inr (by omega)
      · exact .inl before
  | cons c s ih =>
    rw [List.length_cons] at fits
    cases num with
    | zero => cases fits
    | succ num =>
      obtain ⟨first, nonzero, later⟩ := spells
      have spelled : Spells (m.store dest c (src.plus 1).block) (src.plus 1).index s := by
        show Spells (m.store dest c src.block) (src.index + 1) s
        rwa [store_of_ne differ.symm]
      rw [strncpy_succ first nonzero]
      obtain ⟨frame, whole, before, written⟩ := ih (dest.plus 1) (src.plus 1) spelled
        differ (Nat.lt_of_succ_lt_succ fits)
      have head : ((m.store dest c).strncpy (dest.plus 1) (src.plus 1) num dest.block).cell
          dest.index = c := by
        have kept := before dest.index (show dest.index < dest.index + 1 by omega)
        rw [show (dest.plus 1).block = dest.block from rfl, store_self] at kept
        rw [kept]
        exact Region.cell_write_self ..
      refine ⟨fun b apart => (frame b apart).trans (store_of_ne apart), ⟨head, nonzero, whole⟩,
        ?_, ?_⟩
      · intro j low
        have kept := before j (show j < dest.index + 1 by omega)
        rw [show (dest.plus 1).block = dest.block from rfl, store_self] at kept
        rw [kept]
        exact Region.cell_write_of_ne (by omega)
      · intro j member
        rcases written j member with old | inside
        · rw [show (dest.plus 1).block = dest.block from rfl, store_self] at old
          rcases List.mem_cons.mp old with here | earlier
          · exact .inr (by omega)
          · exact .inl earlier
        · have position : (dest.plus 1).index = dest.index + 1 := rfl
          exact .inr (by omega)

/-! ## Copying so many bytes -/

/-- Bytes were written to a block from an index on, each of them, and nothing else. -/
structure WroteBytes (r r' : Region UInt8) (i : Int) (bytes : CString) : Prop where
  cells : ∀ k : Nat, (inside : k < bytes.length) → r'.cell (i + k) = bytes[k]
  others : ∀ j, j < i ∨ i + bytes.length ≤ j → r'.cell j = r.cell j
  record : ∃ stored, r'.written = stored ++ r.written ∧
    ∀ j, j ∈ stored ↔ i ≤ j ∧ j < i + bytes.length

/-- `strncpy` writes so many bytes, those of the string and NULs after them. -/
structure CopiesBounded (m : BlockMemory) (dest src : Pointer) (num : Nat) (s : CString) :
    Prop where
  blocks : ∀ b ≠ dest.block, m.strncpy dest src num b = m b
  bytes : WroteBytes (m dest.block) (m.strncpy dest src num dest.block) dest.index
    (s.take num ++ List.replicate (num - s.length) 0)

variable {r'' : Region UInt8} {bytes more : CString}

/-- Nothing was written. -/
theorem WroteBytes.nil (r : Region UInt8) (i : Int) : WroteBytes r r i [] := by
  refine ⟨fun k inside => absurd inside (Nat.not_lt_zero k), fun j _ => rfl, [], rfl, fun j => ?_⟩
  simp only [List.not_mem_nil, List.length_nil, Int.natCast_zero, Int.add_zero, false_iff]
  omega

/-- One byte was written. -/
theorem WroteBytes.single (r : Region UInt8) (i : Int) (c : UInt8) :
    WroteBytes r (r.write i c) i [c] := by
  refine ⟨fun k inside => ?_, fun j outside => ?_, [i], rfl, fun j => ?_⟩
  · obtain rfl : k = 0 := by simpa using inside
    simp
  · rw [List.length_singleton] at outside
    exact Region.cell_write_of_ne (by omega)
  · rw [List.mem_singleton, List.length_singleton]
    omega

/-- A range was filled. -/
theorem WroteBytes.fill (r : Region UInt8) (i : Int) (c : UInt8) (count : Nat) :
    WroteBytes r (r.fill i c count) i (List.replicate count c) := by
  refine ⟨fun k inside => ?_, fun j outside => ?_, _, rfl, fun j => ?_⟩
  · rw [List.length_replicate] at inside
    rw [List.getElem_replicate]
    exact Region.cell_fill_of_mem (by omega) (by omega)
  · rw [List.length_replicate] at outside
    exact Region.cell_fill_of_not_mem (by omega)
  · rw [List.mem_map, List.length_replicate]
    constructor
    · rintro ⟨k, range, rfl⟩
      have below := List.mem_range.mp range
      omega
    · rintro ⟨low, high⟩
      exact ⟨(j - i).toNat, List.mem_range.mpr (by omega), by omega⟩

/-- Bytes after other bytes. -/
theorem WroteBytes.append (first : WroteBytes r r' i bytes)
    (second : WroteBytes r' r'' (i + bytes.length) more) : WroteBytes r r'' i (bytes ++ more) := by
  obtain ⟨stored, before, range⟩ := first.record
  obtain ⟨stored', after, range'⟩ := second.record
  refine ⟨fun k inside => ?_, fun j outside => ?_, stored' ++ stored, ?_, fun j => ?_⟩
  · rw [List.length_append] at inside
    by_cases early : k < bytes.length
    · rw [List.getElem_append_left early, second.others _ (by omega)]
      exact first.cells k early
    · have later := second.cells (k - bytes.length) (by omega)
      rw [List.getElem_append_right (by omega), ← later]
      congr 1
      omega
  · rw [List.length_append] at outside
    rw [second.others j (by omega), first.others j (by omega)]
  · rw [after, before, List.append_assoc]
  · rw [List.mem_append, range, range', List.length_append]
    omega

/-- How many bytes were written is on the record. -/
theorem WroteBytes.length_eq (first : WroteBytes r r' i bytes) (second : WroteBytes r r' i more) :
    bytes.length = more.length := by
  obtain ⟨stored, before, range⟩ := first.record
  obtain ⟨stored', after, range'⟩ := second.record
  obtain rfl : stored = stored' := List.append_cancel_right (before.symm.trans after)
  have both (j : Int) := (range j).symm.trans (range' j)
  have last := both (i + bytes.length)
  have last' := both (i + more.length)
  omega

/-- The loop of `strncpy` copies as much of the string as it may, and where the string goes on the
count has passed below 0. -/
theorem BlockMemory.strncpyLoop_spec (dest src : Pointer)
    (spells : Spells (m src.block) src.index s) (differ : dest.block ≠ src.block) (num : Nat) :
    ∃ m', strncpyLoop src num dest m =
        (if s.length ≤ num then num - s.length else uintWidth - 1,
          dest.plus (s.take num).length, m') ∧
      (∀ b ≠ dest.block, m' b = m b) ∧
      WroteBytes (m dest.block) (m' dest.block) dest.index (s.take num) := by
  induction s generalizing dest src m num with
  | nil =>
    have nul : m.load src = 0 := spells
    refine ⟨m, ?_, fun _ _ => rfl, ?_⟩
    · have here : dest.plus ([] : CString).length = dest := by simp [Pointer.plus]
      rw [List.take_nil, here, List.length_nil, if_pos (Nat.zero_le num), Nat.sub_zero]
      cases num with
      | zero => rw [strncpyLoop, if_pos nul]
      | succ num => rw [strncpyLoop, if_pos nul]
    · rw [List.take_nil]
      exact .nil _ _
  | cons c s ih =>
    obtain ⟨first, nonzero, later⟩ := spells
    have char : m.load src = c := first
    have more : ¬m.load src = 0 := by rwa [char]
    cases num with
    | zero =>
      refine ⟨m, ?_, fun _ _ => rfl, .nil _ _⟩
      have here : dest.plus ((c :: s).take 0).length = dest := by simp [Pointer.plus]
      rw [strncpyLoop, if_neg more, if_neg (by simp), here]
    | succ num =>
      have spelled : Spells (m.store dest c (src.plus 1).block) (src.plus 1).index s := by
        show Spells (m.store dest c src.block) (src.index + 1) s
        rwa [store_of_ne differ.symm]
      obtain ⟨m', run, frame, wrote⟩ := ih (dest.plus 1) (src.plus 1) spelled differ num
      refine ⟨m', ?_, fun b apart => (frame b apart).trans (store_of_ne apart), ?_⟩
      · rw [strncpyLoop, if_neg more, char, run, List.length_cons, List.take_succ_cons,
          List.length_cons, Nat.add_sub_add_right]
        congr 2
        · simp only [Nat.add_le_add_iff_right]
        · simp only [Pointer.plus, Pointer.mk.injEq, true_and]
          push_cast
          omega
      · rw [List.take_succ_cons]
        have here := WroteBytes.single (m dest.block) dest.index c
        rw [← store_self] at here
        exact here.append wrote

/-- Between two blocks `strncpy` writes so many bytes exactly if and only if the string is not
longer. -/
theorem BlockMemory.strncpy_iff (dest src : Pointer) (spells : Spells (m src.block) src.index s)
    (differ : dest.block ≠ src.block) : CopiesBounded m dest src num s ↔ s.length ≤ num := by
  obtain ⟨m', run, frame, wrote⟩ := strncpyLoop_spec dest src spells differ num
  have copied : m.strncpy dest src num = m'.memset (dest.plus (s.take num).length) 0
      (if s.length ≤ num then num - s.length else uintWidth - 1) := by
    rw [strncpy, run]
  have target := wrote.append (.fill (m' dest.block) (dest.index + (s.take num).length) 0
    (if s.length ≤ num then num - s.length else uintWidth - 1))
  have filled : m.strncpy dest src num dest.block =
      (m' dest.block).fill (dest.index + (s.take num).length) 0
        (if s.length ≤ num then num - s.length else uintWidth - 1) := by
    rw [copied]
    exact Function.update_self ..
  rw [← filled] at target
  constructor
  · intro copies
    by_contra long
    rw [if_neg long] at target
    have length := target.length_eq copies.bytes
    simp only [List.length_append, List.length_replicate, uintWidth] at length
    omega
  · intro short
    rw [if_pos short] at target
    refine ⟨fun b apart => ?_, target⟩
    rw [copied, ← frame b apart]
    exact Function.update_of_ne apart ..

/-- A block with `"ab"`, and others that are empty. -/
def twoLetters : BlockMemory := fun b =>
  if b = 1 then { cell := fun j => if j = 0 then 97 else if j = 1 then 98 else 0 }
  else { cell := fun _ => 7 }

/-- Two letters fill two bytes. -/
theorem BlockMemory.strncpy_iff_two : CopiesBounded twoLetters ⟨2, 0⟩ ⟨1, 0⟩ 2 [97, 98] := by
  have spells : Spells (twoLetters 1) 0 [97, 98] := ⟨rfl, by decide, rfl, by decide, rfl⟩
  exact (strncpy_iff ⟨2, 0⟩ ⟨1, 0⟩ spells (by decide)).mpr (by decide)

/-- Into one byte they are not cut. -/
theorem BlockMemory.strncpy_not : ¬CopiesBounded twoLetters ⟨2, 0⟩ ⟨1, 0⟩ 1 [97, 98] := by
  intro copies
  obtain ⟨stored, record, range⟩ := copies.bytes.record
  have behind : (1 : Int) ∈ (twoLetters.strncpy ⟨2, 0⟩ ⟨1, 0⟩ 1 2).written := by
    have written : (twoLetters.strncpy ⟨2, 0⟩ ⟨1, 0⟩ 1 2).written =
        (List.range (uintWidth - 1)).map (fun k : Nat => (1 : Int) + k) ++ [0] := rfl
    rw [written]
    exact List.mem_append_left _ (List.mem_map.mpr ⟨0, List.mem_range.mpr (by decide), rfl⟩)
  rw [record] at behind
  rcases List.mem_append.mp behind with inside | before
  · have outside := (range 1).mp inside
    revert outside
    decide
  · cases before

end Nupkux
