import Nupkux.Mm.HeapIndex
import Nupkux.Lib.Tiling

/-!
# What the heap looks like

Blocks tile the heap from its start to its end, each with a header and a footer that belong
together, and the index lists the holes among them. An operation replaces some neighbouring
blocks by others and leaves the rest alone, so that what it has to keep is said once, by
`WellFormed.replace`.
-/

namespace Nupkux

open Tiling

/-- A block of the heap: a hole, or one in use. Its size is that of header, payload and footer,
and fits the field for it. -/
structure Block where
  size : Nat
  hole : Bool
  large : headerSize + footerSize ≤ size
  small : size < sizeWidth
  deriving DecidableEq

/-- A block in use. -/
def Block.inUse (size : Nat) (large : headerSize + footerSize ≤ size) (small : size < sizeWidth) :
    Block where
  size
  hole := false
  large
  small

/-- A hole. -/
def Block.free (size : Nat) (large : headerSize + footerSize ≤ size) (small : size < sizeWidth) :
    Block where
  size
  hole := true
  large
  small

/-- The flag in the header. -/
def Block.flag (b : Block) : Nat := if b.hole then mmFlagHole else mmFlagBlock

/-- The header and the footer of a block at an address. -/
structure Tagged (m : Bytes) (address : Nat) (b : Block) : Prop where
  magic : magicAt m address = mmMagic
  size : sizeAt m address = b.size
  flag : flagAt m address = b.flag
  footerMagic : magicAt m (address + b.size - footerSize) = mmMagic
  footerHeader : headerAt m (address + b.size - footerSize) = address

/-- The addresses of the holes among blocks. -/
def holes (start : Nat) (blocks : List Block) : List Nat :=
  ((places Block.size start blocks).filter fun place => place.2.hole).map Prod.fst

variable {m m' : Bytes} {start stop address : Nat} {b : Block} {blocks before middle after : List Block}

/-! ## Headers and footers -/

section tags

variable (m : Bytes) (header footer : Nat)

/-- A flag is one bit. -/
theorem flagAt_lt : flagAt m header < 2 := by
  have word := m.word_lt (header + 4)
  unfold flagAt sizeWidth
  omega

/-- A size has 31 bits. -/
theorem sizeAt_lt : sizeAt m header < sizeWidth := Nat.mod_lt _ (by decide)

/-- The second word of a header. -/
theorem word_header : m.word (header + 4) = flagAt m header * sizeWidth + sizeAt m header :=
  (Nat.div_add_mod' ..).symm

variable {m header footer} {flag size other : Nat}

/-- The second word of a header when the flag has been set. -/
theorem word_setFlag (bit : flag < 2) :
    (setFlag m header flag).word (header + 4) = flag * sizeWidth + sizeAt m header := by
  have small := sizeAt_lt m header
  rw [setFlag, Bytes.word_store_self]
  apply Nat.mod_eq_of_lt
  unfold sizeWidth at *
  omega

/-- The second word of a header when the size has been set. -/
theorem word_setSize :
    (setSize m header size).word (header + 4) = flagAt m header * sizeWidth + size % sizeWidth := by
  have bit := flagAt_lt m header
  have small : size % sizeWidth < sizeWidth := Nat.mod_lt _ (by decide)
  rw [setSize, Bytes.word_store_self]
  apply Nat.mod_eq_of_lt
  unfold sizeWidth at *
  omega

/-- The flag that has been set. -/
@[simp] theorem flagAt_setFlag (bit : flag < 2) : flagAt (setFlag m header flag) header = flag := by
  have small := sizeAt_lt m header
  rw [flagAt, word_setFlag bit]
  unfold sizeWidth at *
  omega

/-- The size is kept when the flag is set. -/
@[simp] theorem sizeAt_setFlag (bit : flag < 2) :
    sizeAt (setFlag m header flag) header = sizeAt m header := by
  have small := sizeAt_lt m header
  rw [sizeAt, word_setFlag bit]
  unfold sizeWidth at *
  omega

/-- The size that has been set. -/
@[simp] theorem sizeAt_setSize :
    sizeAt (setSize m header size) header = size % sizeWidth := by
  rw [sizeAt, word_setSize]
  unfold sizeWidth
  omega

/-- The flag is kept when the size is set. -/
@[simp] theorem flagAt_setSize : flagAt (setSize m header size) header = flagAt m header := by
  rw [flagAt, word_setSize]
  unfold sizeWidth
  omega

end tags

/-- The words of a header and a footer. -/
theorem tagged_iff : Tagged m address b ↔
    m.word address = mmMagic ∧ m.word (address + 4) = b.flag * sizeWidth + b.size ∧
      m.word (address + b.size - footerSize) = mmMagic ∧
      m.word (address + b.size - footerSize + 4) = address := by
  constructor
  · intro tagged
    refine ⟨tagged.magic, ?_, tagged.footerMagic, tagged.footerHeader⟩
    rw [word_header, tagged.flag, tagged.size]
  · rintro ⟨magic, header, footerMagic, footerHeader⟩
    have small := b.small
    have bit : b.flag < 2 := by
      unfold Block.flag
      split <;> decide
    unfold sizeWidth at small header
    refine ⟨magic, ?_, ?_, footerMagic, footerHeader⟩
    · unfold sizeAt sizeWidth
      omega
    · unfold flagAt sizeWidth
      omega

instance (m : Bytes) (address : Nat) (b : Block) : Decidable (Tagged m address b) :=
  decidable_of_iff _ tagged_iff.symm

/-- The size of the payload of a block. -/
theorem payload_eq {size : Nat} (large : headerSize + footerSize ≤ size) (small : size < uintWidth) :
    usub (usub size headerSize) footerSize = size - (headerSize + footerSize) := by
  have first : usub size headerSize = size - headerSize := usub_of_le (by omega) small
  rw [first, usub_of_le (by omega) (by omega)]
  omega

/-! ## Blocks -/

/-- Whether a block is a hole is in its flag. -/
theorem Block.flag_eq_hole : b.flag = mmFlagHole ↔ b.hole = true := by
  unfold Block.flag
  cases b.hole <;> decide

/-- Blocks of one size and kind are the same. -/
theorem Block.ext' {other : Block} (size : b.size = other.size) (hole : b.hole = other.hole) :
    b = other := by
  cases b
  cases other
  cases size
  cases hole
  rfl

/-- A header decides about the block. -/
theorem tagged_decides (m : Bytes) : Decides (Tagged m) := by
  intro place piece other first second
  apply Block.ext'
  · rw [← first.size, second.size]
  · have flags := first.flag.symm.trans second.flag
    rw [Bool.eq_iff_iff, ← Block.flag_eq_hole, ← Block.flag_eq_hole, flags]

/-- Blocks are not empty. -/
theorem tagged_solid (m : Bytes) : Solid Block.size (Tagged m) :=
  fun _ piece _ => Nat.lt_of_lt_of_le (by decide) piece.large

/-- A block with the same bytes has the same header and footer. -/
theorem Tagged.same (tagged : Tagged m address b)
    (header : Bytes.Same address (address + headerSize) m m')
    (footer : Bytes.Same (address + b.size - footerSize) (address + b.size) m m') :
    Tagged m' address b := by
  have large := b.large
  unfold headerSize footerSize at large
  have word {lo hi a : Nat} (same : Bytes.Same lo hi m m') (low : lo ≤ a) (high : a + 4 ≤ hi) :
      m'.word a = m.word a := Bytes.word_congr same low high
  unfold headerSize at header
  constructor
  · exact (word header (Nat.le_refl _) (by omega)).trans tagged.magic
  · rw [← tagged.size, sizeAt, sizeAt, word header (by omega) (by omega)]
  · rw [← tagged.flag, flagAt, flagAt, word header (by omega) (by omega)]
  · exact (word footer (Nat.le_refl _) (by unfold footerSize; omega)).trans tagged.footerMagic
  · exact (word footer (Nat.le_add_right ..) (by unfold footerSize; omega)).trans
      tagged.footerHeader

/-- A block whose bytes are all the same. -/
theorem Tagged.same_of_bytes (tagged : Tagged m address b)
    (same : Bytes.Same address (address + b.size) m m') : Tagged m' address b := by
  have large := b.large
  unfold headerSize footerSize at large
  apply tagged.same
  · exact same.mono (Nat.le_refl _) (by unfold headerSize; omega)
  · exact same.mono (by unfold footerSize; omega) (Nat.le_refl _)

/-- Blocks with the same bytes tile in the same way. -/
theorem tiles_same (tiles : Tiles Block.size (Tagged m) start blocks stop)
    (same : Bytes.Same start stop m m') : Tiles Block.size (Tagged m') start blocks stop := by
  refine tiles.congr fun place piece member tagged => ?_
  obtain ⟨low, high⟩ := tiles.bounds member
  exact tagged.same_of_bytes (same.mono low high)

/-! ## Holes -/

/-- The holes of two lists of blocks. -/
theorem holes_append (start : Nat) (blocks more : List Block) :
    holes start (blocks ++ more) =
      holes start blocks ++ holes (start + total Block.size blocks) more := by
  rw [holes, places_append, List.filter_append, List.map_append]
  rfl

/-- The holes when the first block is one. -/
theorem holes_cons_of_hole (hole : b.hole = true) :
    holes start (b :: blocks) = start :: holes (start + b.size) blocks := by
  rw [holes, places, List.filter_cons, if_pos hole]
  rfl

/-- The holes when the first block is none. -/
theorem holes_cons_of_block (block : b.hole = false) :
    holes start (b :: blocks) = holes (start + b.size) blocks := by
  rw [holes, places, List.filter_cons, if_neg (by rw [block]; exact Bool.false_ne_true)]
  rfl

/-- A hole is a block with the flag of one. -/
theorem mem_holes : address ∈ holes start blocks ↔
    ∃ b : Block, b.hole = true ∧ (address, b) ∈ places Block.size start blocks := by
  unfold holes
  rw [List.mem_map]
  constructor
  · rintro ⟨⟨place, b⟩, member, rfl⟩
    obtain ⟨there, hole⟩ := List.mem_filter.mp member
    exact ⟨b, hole, there⟩
  · rintro ⟨b, hole, there⟩
    exact ⟨(address, b), List.mem_filter.mpr ⟨there, hole⟩, rfl⟩

/-- The number of holes. -/
theorem length_holes (start : Nat) (blocks : List Block) :
    (holes start blocks).length = blocks.countP Block.hole := by
  induction blocks generalizing start with
  | nil => rfl
  | cons b blocks ih =>
    cases hole : b.hole with
    | false =>
      rw [holes_cons_of_block hole, ih, List.countP_cons_of_neg]
      rw [hole]
      exact Bool.false_ne_true
    | true => rw [holes_cons_of_hole hole, List.length_cons, ih, List.countP_cons_of_pos hole]

/-- Holes are at different addresses. -/
theorem holes_nodup (start : Nat) (blocks : List Block) : (holes start blocks).Nodup := by
  induction blocks generalizing start with
  | nil => exact List.nodup_nil
  | cons b blocks ih =>
    cases hole : b.hole with
    | false =>
      rw [holes_cons_of_block hole]
      exact ih _
    | true =>
      rw [holes_cons_of_hole hole]
      refine List.nodup_cons.mpr ⟨fun member => ?_, ih _⟩
      obtain ⟨other, _, there⟩ := mem_holes.mp member
      obtain ⟨before, after, _, same⟩ := mem_places.mp there
      have large := b.large
      unfold headerSize footerSize at large
      omega

/-- Nothing, or one hole. -/
def AtMostAHole (blocks : List Block) : Prop := blocks = [] ∨ ∃ b, blocks = [b] ∧ b.hole = true

/-- There is at most one. -/
theorem AtMostAHole.length_le (hole : AtMostAHole blocks) : blocks.length ≤ 1 := by
  rcases hole with rfl | ⟨_, rfl, _⟩
  · exact Nat.zero_le 1
  · exact Nat.le_refl 1

namespace KernelHeap

variable {k k' : KernelHeap} {header size newsize : Nat}

/-! ## Writing a block -/

/-- `heap_malloc` writes the header and the footer of a block. -/
theorem useBlock_eq (k : KernelHeap) (header : Nat) (block : b.hole = false)
    (whole : b.size = size + (headerSize + footerSize)) (inRange : header + b.size < uintWidth) :
    ∃ m, k.useBlock header size b.size = k.setMemory m ∧ Tagged m header b ∧
      Bytes.OnlyIn header (header + b.size) k.memory m := by
  have small := b.small
  have flag : b.flag = mmFlagBlock := if_neg (by rw [block]; exact Bool.false_ne_true)
  have width : uintWidth = 0x100000000 := rfl
  unfold headerSize footerSize at whole
  have footer : uadd (uadd header headerSize) size = header + 8 + size := by
    have payload : uadd header 8 = header + 8 := uadd_of_lt (by omega)
    unfold headerSize
    rw [payload]
    exact uadd_of_lt (by omega)
  have value : header % 4294967296 = header := Nat.mod_eq_of_lt (by omega)
  have bits : b.size % sizeWidth = b.size := Nat.mod_eq_of_lt small
  have last : header + b.size - footerSize = header + 8 + size := by
    unfold footerSize
    omega
  unfold useBlock
  dsimp only
  rw [footer]
  refine ⟨_, rfl, ?_, ?_⟩
  · rw [tagged_iff, last, flag]
    refine ⟨?_, ?_, ?_, ?_⟩
    · simp (disch := omega) only [setMagic, setHeader, Bytes.word_store_self, Bytes.word_store_of_apart]
      rfl
    · simp (disch := omega) only [setMagic, setHeader, Bytes.word_store_of_apart, word_setSize, bits]
      rw [flagAt_setFlag (by decide)]
    · simp (disch := omega) only [setMagic, setHeader, Bytes.word_store_self, Bytes.word_store_of_apart]
      rfl
    · simp (disch := omega) only [setHeader, Bytes.word_store_self, value]
  · unfold setMagic setHeader setSize setFlag
    apply_rules [Bytes.OnlyIn.store, Bytes.OnlyIn.refl] <;> omega

/-- A heap that is as it should be: its blocks tile it, and the index lists its holes. The index
lies before the heap and has room for a fixed number of them. -/
structure WellFormed (k : KernelHeap) (blocks : List Block) : Prop where
  tiles : Tiles Block.size (Tagged k.memory) k.heap.start blocks k.heap.end_
  index : k.index.Perm (holes k.heap.start blocks)
  capacity : k.heap.entrycount ≤ k.heap.maxentries
  slots : k.heap.maxentries = mmIndexCount
  layout : k.slot k.heap.maxentries = k.heap.start
  inRange : k.heap.end_ < uintWidth

/-- What a heap as it should be comes to. -/
theorem wellFormed_iff {k : KernelHeap} : k.WellFormed blocks ↔
    Tiles Block.size (Tagged k.memory) k.heap.start blocks k.heap.end_ ∧
      k.index.Perm (holes k.heap.start blocks) ∧ k.heap.entrycount ≤ k.heap.maxentries ∧
      k.heap.maxentries = mmIndexCount ∧ k.slot k.heap.maxentries = k.heap.start ∧
      k.heap.end_ < uintWidth := by
  constructor
  · intro wf
    exact ⟨wf.tiles, wf.index, wf.capacity, wf.slots, wf.layout, wf.inRange⟩
  · rintro ⟨tiles, index, capacity, slots, layout, inRange⟩
    exact ⟨tiles, index, capacity, slots, layout, inRange⟩

instance (k : KernelHeap) (blocks : List Block) : Decidable (k.WellFormed blocks) :=
  decidable_of_iff _ wellFormed_iff.symm

/-- The index is in the order of size. -/
def Sorted (k : KernelHeap) : Prop := k.index.Pairwise (NotLarger k.memory)

/-- No two neighbours are both holes. -/
def Coalesced (blocks : List Block) : Prop :=
  blocks.IsChain fun b other => ¬(b.hole = true ∧ other.hole = true)

/-- Some neighbouring blocks are replaced by others in the same place. -/
theorem WellFormed.replace {middle' : List Block}
    (wf : k.WellFormed (before ++ middle ++ after))
    (heap : k'.heap = { k.heap with entrycount := k'.heap.entrycount })
    (capacity : k'.heap.entrycount ≤ k.heap.maxentries)
    (tiles : Tiles Block.size (Tagged k'.memory) (k.heap.start + total Block.size before) middle'
      (k.heap.start + total Block.size (before ++ middle)))
    (low : Bytes.Same k.heap.start (k.heap.start + total Block.size before) k.memory k'.memory)
    (high : Bytes.Same (k.heap.start + total Block.size (before ++ middle)) k.heap.end_ k.memory
      k'.memory)
    (index : k'.index.Perm (holes k.heap.start before ++
      holes (k.heap.start + total Block.size before) middle' ++
      holes (k.heap.start + total Block.size (before ++ middle)) after)) :
    k'.WellFormed (before ++ middle' ++ after) := by
  have start : k'.heap.start = k.heap.start := by rw [heap]
  have stop : k'.heap.end_ = k.heap.end_ := by rw [heap]
  have size : total Block.size (before ++ middle') = total Block.size (before ++ middle) := by
    have ends := tiles.stop_eq
    rw [total_append before middle']
    omega
  obtain ⟨whole, last⟩ := tiles_append.mp wf.tiles
  obtain ⟨first, _⟩ := tiles_append.mp whole
  constructor
  · rw [start, stop, tiles_append, tiles_append, size]
    exact ⟨⟨tiles_same first low, tiles⟩, tiles_same last high⟩
  · rw [start, holes_append, holes_append, size]
    exact index
  · rw [heap]
    exact capacity
  · rw [heap]
    exact wf.slots
  · rw [slot, heap]
    exact wf.layout
  · rw [stop]
    exact wf.inRange

/-! ## The index and what lies elsewhere -/

/-- The index depends on the bytes of its slots. -/
theorem index_setMemory (same : Bytes.Same (k.slot 0) (k.slot k.heap.entrycount) k.memory m) :
    (k.setMemory m).index = k.index := by
  refine List.map_congr_left fun i member => ?_
  have inside : i < k.heap.entrycount := List.mem_range.mp member
  show m.word (k.slot i) = k.memory.word (k.slot i)
  apply Bytes.word_congr same
  · unfold slot
    omega
  · unfold slot
    omega

/-- The size of a hole elsewhere is kept. -/
theorem sizeAt_same {header : Nat} (same : Bytes.Same header (header + headerSize) m m') :
    sizeAt m' header = sizeAt m header := by
  unfold headerSize at same
  have word : m'.word (header + 4) = m.word (header + 4) :=
    Bytes.word_congr same (by omega) (by omega)
  rw [sizeAt, sizeAt, word]

/-- An order by sizes depends on the sizes. -/
theorem pairwise_same {entries : List Nat} (sorted : entries.Pairwise (NotLarger m))
    (same : ∀ entry ∈ entries, sizeAt m' entry = sizeAt m entry) :
    entries.Pairwise (NotLarger m') := by
  refine sorted.imp_of_mem fun first second smaller => ?_
  rw [NotLarger, same _ first, same _ second]
  exact smaller

/-- The slots of the index end where the heap starts, at the latest. -/
theorem WellFormed.slot_le (wf : k.WellFormed blocks) {i : Nat} (inside : i ≤ k.heap.maxentries) :
    k.slot i ≤ k.heap.start := by
  rw [← wf.layout]
  unfold slot
  omega

/-- An entry of the index is a hole among the blocks. -/
theorem WellFormed.hole_of_entry (wf : k.WellFormed blocks) {i : Nat}
    (inside : i < k.heap.entrycount) :
    ∃ before hole after, blocks = before ++ hole :: after ∧ hole.hole = true ∧
      k.entry i = k.heap.start + total Block.size before := by
  have listed : k.entry i ∈ k.index := List.mem_map.mpr ⟨i, List.mem_range.mpr inside, rfl⟩
  obtain ⟨hole, isHole, place⟩ := mem_holes.mp (wf.index.mem_iff.mp listed)
  obtain ⟨before, after, here, address⟩ := mem_places.mp place
  exact ⟨before, hole, after, here, isHole, address⟩

/-- Each hole has an entry. -/
theorem WellFormed.entry_of_hole {hole : Block}
    (wf : k.WellFormed (before ++ hole :: after)) (isHole : hole.hole = true) :
    ∃ i < k.heap.entrycount, k.entry i = k.heap.start + total Block.size before := by
  have listed : k.heap.start + total Block.size before ∈ k.index := by
    refine wf.index.mem_iff.mpr (mem_holes.mpr ⟨hole, isHole, ?_⟩)
    exact mem_places.mpr ⟨before, after, rfl, rfl⟩
  obtain ⟨i, inside, same⟩ := List.mem_map.mp listed
  exact ⟨i, List.mem_range.mp inside, same⟩

/-- A block has its header and its footer. -/
theorem WellFormed.tagged (wf : k.WellFormed (before ++ b :: after)) :
    Tagged k.memory (k.heap.start + total Block.size before) b :=
  (tiles_middle.mp wf.tiles).2.1

/-- A block ends where the heap does, at the latest. -/
theorem WellFormed.block_le (wf : k.WellFormed (before ++ b :: after)) :
    k.heap.start + total Block.size before + b.size ≤ k.heap.end_ :=
  (wf.tiles.bounds (mem_places.mpr ⟨before, after, rfl, rfl⟩)).2

/-- Blocks that are not the last ones end before the heap does. -/
theorem WellFormed.total_lt (wf : k.WellFormed (before ++ after)) (more : after ≠ []) :
    k.heap.start + total Block.size before < k.heap.end_ := by
  have ends := wf.tiles.stop_eq
  cases after with
  | nil => exact absurd rfl more
  | cons b after =>
    have large := b.large
    rw [total_append, total] at ends
    unfold headerSize footerSize at large
    omega

/-- The holes besides one of them. -/
theorem holes_middle {hole : Block} (isHole : hole.hole = true) (start : Nat) :
    (holes start (before ++ hole :: after)).Perm
      ((start + total Block.size before) :: (holes start before ++
        holes (start + total Block.size before + hole.size) after)) := by
  rw [holes_append, holes_cons_of_hole isHole]
  exact List.perm_middle

/-- The index without one of its holes. -/
theorem WellFormed.index_eraseIdx {hole : Block} (wf : k.WellFormed (before ++ hole :: after))
    (isHole : hole.hole = true) {i : Nat} (inside : i < k.heap.entrycount)
    (entry : k.entry i = k.heap.start + total Block.size before) :
    (k.index.eraseIdx i).Perm (holes k.heap.start before ++
      holes (k.heap.start + total Block.size before + hole.size) after) := by
  have out := (k.entry_cons_eraseIdx_perm inside).trans
    (wf.index.trans (holes_middle isHole k.heap.start))
  rw [entry] at out
  exact out.cons_inv

/-- Holes of neighbouring blocks lie among them. -/
theorem bounds_of_mem_holes (tiles : Tiles Block.size (Tagged m) start blocks stop)
    (member : address ∈ holes start blocks) :
    start ≤ address ∧ address + (headerSize + footerSize) ≤ stop := by
  obtain ⟨hole, _, place⟩ := mem_holes.mp member
  obtain ⟨low, high⟩ := tiles.bounds place
  have large := hole.large
  omega

/-! ## Entries and the order of sizes -/

/-- An entry that is added keeps the index in order. -/
theorem sorted_heapAddEntry (sorted : k.Sorted) (small : header < uintWidth)
    (room : k.slot (k.heap.entrycount + 1) ≤ k.heap.start)
    (low : k.heap.start ≤ header) (above : ∀ entry ∈ k.index, k.heap.start ≤ entry) :
    (k.heapAddEntry header).Sorted := by
  have added := k.heapAddEntry_indexed small
  have total : Std.Total (NotLarger k.memory) := ⟨fun _ _ => Nat.le_total ..⟩
  have trans : IsTrans Nat (NotLarger k.memory) := ⟨fun _ _ _ => Nat.le_trans⟩
  have inserted := List.Pairwise.orderedInsert header k.index sorted
  unfold Sorted
  rw [added.index]
  refine pairwise_same inserted fun entry member => ?_
  have high : k.heap.start ≤ entry := by
    rcases (List.mem_orderedInsert _).mp member with rfl | member
    · exact low
    · exact above entry member
  exact sizeAt_same (added.memory.same (.inr (by omega)))

/-- An entry that is taken out keeps the index in order. -/
theorem sorted_heapDelEntry (sorted : k.Sorted) {i : Nat} (inside : i < k.heap.entrycount)
    (room : k.slot k.heap.entrycount ≤ k.heap.start)
    (above : ∀ entry ∈ k.index, k.heap.start ≤ entry) :
    (k.heapDelEntry (some i)).Sorted := by
  have deleted := k.heapDelEntry_indexed inside
  unfold Sorted
  rw [deleted.index]
  refine pairwise_same (sorted.sublist (List.eraseIdx_sublist ..)) fun entry member => ?_
  have high := above entry (List.mem_of_mem_eraseIdx member)
  exact sizeAt_same (deleted.memory.same (.inr (by omega)))

/-- The holes that are listed have their headers outside some space. -/
def ListsOutside (k : KernelHeap) (pos stop : Nat) : Prop :=
  ∀ entry ∈ k.index, k.heap.start ≤ entry ∧
    (entry + headerSize ≤ pos ∨ stop ≤ entry ∧ entry + headerSize ≤ k.heap.end_)

/-- The sizes of the holes that are listed are kept when nothing outside some space changes. -/
theorem ListsOutside.sizeAt {pos : Nat} (outside : k.ListsOutside pos stop)
    (low : Bytes.Same k.heap.start pos k.memory m)
    (high : Bytes.Same stop k.heap.end_ k.memory m) :
    ∀ entry ∈ k.index, sizeAt m entry = sizeAt k.memory entry := by
  intro entry member
  obtain ⟨above, before | ⟨behind, below⟩⟩ := outside entry member
  · exact sizeAt_same (low.mono above before)
  · exact sizeAt_same (high.mono behind below)

/-- Holes among the other blocks lie outside the replaced ones. -/
theorem WellFormed.listsOutside {middle : List Block}
    (wf : k.WellFormed (before ++ middle ++ after))
    (index : k'.index.Perm (holes k.heap.start before ++
      holes (k.heap.start + total Block.size (before ++ middle)) after))
    (start : k'.heap.start = k.heap.start) (end_ : k'.heap.end_ = k.heap.end_) :
    k'.ListsOutside (k.heap.start + total Block.size before)
      (k.heap.start + total Block.size (before ++ middle)) := by
  obtain ⟨whole, last⟩ := tiles_append.mp wf.tiles
  obtain ⟨first, _⟩ := tiles_append.mp whole
  have grows : total Block.size before ≤ total Block.size (before ++ middle) := by
    rw [total_append]
    omega
  intro entry member
  rw [start, end_]
  rcases List.mem_append.mp (index.mem_iff.mp member) with member | member
  · have bounds := bounds_of_mem_holes first member
    exact ⟨bounds.1, .inl (by omega)⟩
  · have bounds := bounds_of_mem_holes last member
    exact ⟨by omega, .inr ⟨bounds.1, by omega⟩⟩

end KernelHeap

end Nupkux
