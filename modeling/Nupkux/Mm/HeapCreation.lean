import Nupkux.Mm.HeapLayout

/-!
# Heaps with given blocks

`create_heap` makes a heap of one hole. From the headers and footers of any blocks that fit, and
the entries of their holes, a heap with these blocks is put together in the same way.
-/

namespace Nupkux

open Tiling

variable {m : Bytes} {address : Nat} {b : Block} {blocks : List Block}

/-- The header and the footer of a block are written. -/
def writeBlock (m : Bytes) (address : Nat) (b : Block) : Bytes :=
  (((m.store address mmMagic).store (address + 4) (b.flag * sizeWidth + b.size)).store
    (address + b.size - footerSize) mmMagic).store (address + b.size - footerSize + 4) address

/-- The headers and footers of blocks are written one after the other. -/
def writeBlocks : Nat → List Block → Bytes → Bytes
  | _, [], m => m
  | address, b :: blocks, m => writeBlocks (address + b.size) blocks (writeBlock m address b)

/-- The second word of a header fits. -/
theorem Block.word_lt (b : Block) : b.flag * sizeWidth + b.size < 4294967296 := by
  have small := b.small
  have bit : b.flag < 2 := by
    unfold Block.flag
    split <;> decide
  unfold sizeWidth at *
  omega

/-- A block that has been written. -/
theorem writeBlock_tagged (m : Bytes) (b : Block) (inRange : address < uintWidth) :
    Tagged (writeBlock m address b) address b ∧
      Bytes.OnlyIn address (address + b.size) m (writeBlock m address b) := by
  have large := b.large
  have word := b.word_lt
  have width : uintWidth = 4294967296 := rfl
  unfold headerSize footerSize at large
  unfold writeBlock footerSize
  constructor
  · rw [tagged_iff]
    unfold footerSize
    refine ⟨?_, ?_, ?_, ?_⟩
    · simp (disch := omega) only [Bytes.word_store_self, Bytes.word_store_of_apart]
      rfl
    · simp (disch := omega) only [Bytes.word_store_self, Bytes.word_store_of_apart]
      exact Nat.mod_eq_of_lt word
    · simp (disch := omega) only [Bytes.word_store_self, Bytes.word_store_of_apart]
      rfl
    · rw [Bytes.word_store_self]
      exact Nat.mod_eq_of_lt (by omega)
  · apply_rules [Bytes.OnlyIn.store, Bytes.OnlyIn.refl] <;> omega

/-- Blocks that have been written. -/
theorem writeBlocks_tiles (m : Bytes) (inRange : address + total Block.size blocks < uintWidth) :
    Tiles Block.size (Tagged (writeBlocks address blocks m)) address blocks
      (address + total Block.size blocks) ∧
      Bytes.OnlyIn address (address + total Block.size blocks) m (writeBlocks address blocks m) := by
  induction blocks generalizing address m with
  | nil => exact ⟨rfl, Bytes.OnlyIn.refl address address m⟩
  | cons b blocks ih =>
    have sum : address + total Block.size (b :: blocks) =
        address + b.size + total Block.size blocks := (Nat.add_assoc ..).symm
    rw [sum] at inRange ⊢
    have first := writeBlock_tagged m b (show address < uintWidth by omega)
    have others := ih (writeBlock m address b) inRange
    constructor
    · exact ⟨first.1.same_of_bytes (others.2.same (.inl (Nat.le_refl _))), others.1⟩
    · have whole : Bytes.OnlyIn address (address + b.size + total Block.size blocks)
          (writeBlock m address b) (writeBlocks (address + b.size) blocks (writeBlock m address b)) :=
        others.2.mono (Nat.le_add_right ..) (Nat.le_refl _)
      exact (first.2.mono (Nat.le_refl _) (Nat.le_add_right ..)).trans whole

/-- A block of 32 bytes in use. -/
def block32 : Block := Block.inUse 32 (by decide) (by decide)

/-- A hole of 48 bytes. -/
def hole48 : Block := Block.free 48 (by decide) (by decide)

namespace KernelHeap

/-- A heap in which the headers and footers of blocks have been written, without entries. -/
def unlisted (paging : Paging) (memory : Bytes) (start memend : Nat) (blocks : List Block) :
    KernelHeap where
  paging
  heap :=
    { entries := start - 4 * mmIndexCount
      entrycount := 0
      maxentries := mmIndexCount
      start
      end_ := start + total Block.size blocks
      memend
      pageflags := kernelFlags }
  memory := writeBlocks start blocks memory

/-- A heap with given blocks. -/
def ofBlocks (paging : Paging) (memory : Bytes) (start memend : Nat) (blocks : List Block) :
    KernelHeap :=
  (holes start blocks).foldl heapAddEntry (unlisted paging memory start memend blocks)

/-- Some holes have been entered. -/
structure Entered (k k' : KernelHeap) (entries : List Nat) : Prop where
  index : k'.index.Perm (entries ++ k.index)
  heap : k'.heap = { k.heap with entrycount := k.heap.entrycount + entries.length }
  paging : k'.paging = k.paging
  memory : ∀ stop, Bytes.Same k.heap.start stop k.memory k'.memory
  sorted : k'.Sorted

/-- Holes are entered one after the other. -/
theorem entered_foldl {k : KernelHeap} {entries : List Nat} (sorted : k.Sorted)
    (above : ∀ entry ∈ k.index, k.heap.start ≤ entry)
    (inHeap : ∀ entry ∈ entries, k.heap.start ≤ entry ∧ entry < uintWidth)
    (room : k.slot (k.heap.entrycount + entries.length) ≤ k.heap.start) :
    Entered k (entries.foldl heapAddEntry k) entries := by
  induction entries generalizing k with
  | nil => exact ⟨.refl _, rfl, rfl, fun stop => Bytes.Same.refl k.heap.start stop k.memory, sorted⟩
  | cons entry entries ih =>
    obtain ⟨low, small⟩ := inHeap entry List.mem_cons_self
    have room' : k.slot (k.heap.entrycount + 1) ≤ k.heap.start := by
      unfold slot at *
      rw [List.length_cons] at room
      omega
    have added := k.heapAddEntry_indexed small
    have length : (k.index.orderedInsert (NotLarger k.memory) entry).length =
        k.heap.entrycount + 1 := by
      rw [List.orderedInsert_length, length_index]
    have heap : (k.heapAddEntry entry).heap =
        { k.heap with entrycount := k.heap.entrycount + 1 } := by
      rw [added.heap, length]
    have index : (k.heapAddEntry entry).index.Perm (entry :: k.index) := by
      rw [added.index]
      exact List.perm_orderedInsert ..
    have rest : Entered (k.heapAddEntry entry) (entries.foldl heapAddEntry (k.heapAddEntry entry))
        entries := by
      apply ih
      · exact sorted_heapAddEntry sorted small room' low above
      · intro other member
        rw [heap]
        rcases List.mem_cons.mp (index.mem_iff.mp member) with rfl | member
        · exact low
        · exact above other member
      · rw [heap]
        exact fun other member => inHeap other (List.mem_cons_of_mem _ member)
      · rw [heap, slot, heap]
        show k.heap.entries + 4 * (k.heap.entrycount + 1 + entries.length) ≤ k.heap.start
        unfold slot at room
        rw [List.length_cons] at room
        omega
    refine ⟨?_, ?_, rest.paging.trans added.paging, fun stop => ?_, rest.sorted⟩
    · refine (rest.index.trans (index.append_left entries)).trans ?_
      exact List.perm_middle
    · show (entries.foldl heapAddEntry (k.heapAddEntry entry)).heap = _
      rw [rest.heap, heap, List.length_cons]
      refine congrArg (fun entrycount => { k.heap with entrycount }) ?_
      show k.heap.entrycount + 1 + entries.length = _
      omega
    · have second := rest.memory stop
      rw [heap] at second
      exact (added.memory.same (.inr room')).trans second

/-- Any blocks that fit are those of a heap. -/
theorem ofBlocks_wellFormed (paging : Paging) (m : Bytes) {start memend : Nat} {blocks : List Block}
    (low : 4 * mmIndexCount ≤ start) (inRange : start + total Block.size blocks < uintWidth)
    (few : (holes start blocks).length ≤ mmIndexCount) :
    (ofBlocks paging m start memend blocks).WellFormed blocks ∧
      (ofBlocks paging m start memend blocks).Sorted := by
  have written := writeBlocks_tiles m inRange
  have entered : Entered (unlisted paging m start memend blocks)
      (ofBlocks paging m start memend blocks) (holes start blocks) := by
    apply entered_foldl
    · exact .nil
    · exact fun entry member => absurd member List.not_mem_nil
    · intro entry member
      have bounds := bounds_of_mem_holes written.1 member
      refine ⟨bounds.1, ?_⟩
      omega
    · show start - 4 * mmIndexCount + 4 * (0 + (holes start blocks).length) ≤ start
      omega
  have count : (unlisted paging m start memend blocks).heap.entrycount + (holes start blocks).length =
      (holes start blocks).length := Nat.zero_add _
  have heap := entered.heap
  rw [count] at heap
  refine ⟨⟨?_, ?_, ?_, ?_, ?_, ?_⟩, entered.sorted⟩
  · rw [heap]
    exact tiles_same written.1 (entered.memory _)
  · rw [heap]
    have index := entered.index
    rwa [show (unlisted paging m start memend blocks).index = [] from rfl, List.append_nil] at index
  · rw [heap]
    exact few
  · rw [heap]
    rfl
  · rw [slot, heap]
    show start - 4 * mmIndexCount + 4 * mmIndexCount = start
    omega
  · rw [heap]
    exact inRange

/-- Entering holes changes their number only. -/
theorem foldl_heapAddEntry_heap (entries : List Nat) (k : KernelHeap) :
    (entries.foldl heapAddEntry k).heap =
      { k.heap with entrycount := k.heap.entrycount + entries.length } := by
  induction entries generalizing k with
  | nil => rfl
  | cons entry entries ih =>
    show (entries.foldl heapAddEntry (k.heapAddEntry entry)).heap = _
    rw [ih, heapAddEntry_heap, List.length_cons]
    refine congrArg (fun entrycount => { k.heap with entrycount }) ?_
    show k.heap.entrycount + 1 + entries.length = _
    omega

/-- Entering holes does not change the page tables. -/
theorem foldl_heapAddEntry_paging (entries : List Nat) (k : KernelHeap) :
    (entries.foldl heapAddEntry k).paging = k.paging := by
  induction entries generalizing k with
  | nil => rfl
  | cons entry entries ih =>
    show (entries.foldl heapAddEntry (k.heapAddEntry entry)).paging = _
    rw [ih, heapAddEntry_paging]

/-- The bounds of a heap with given blocks, and the number of its holes. -/
theorem ofBlocks_heap (paging : Paging) (m : Bytes) (start memend : Nat) (blocks : List Block) :
    (ofBlocks paging m start memend blocks).heap =
      { (unlisted paging m start memend blocks).heap with
        entrycount := (holes start blocks).length } := by
  unfold ofBlocks
  rw [foldl_heapAddEntry_heap]
  exact congrArg (fun entrycount => { (unlisted _ _ _ _ blocks).heap with entrycount })
    (Nat.zero_add _)

/-- A heap with given blocks from the second megabyte on, in memory that is zero elsewhere. -/
def secondMegabyte (blocks : List Block) : KernelHeap :=
  ofBlocks (.empty 0x400000 0) (fun _ => 0) 0x100000 0x400000 blocks

/-- Such a heap is as it should be. -/
theorem secondMegabyte_wellFormed {blocks : List Block}
    (inRange : 0x100000 + total Block.size blocks < uintWidth)
    (few : (holes 0x100000 blocks).length ≤ mmIndexCount) :
    (secondMegabyte blocks).WellFormed blocks ∧ (secondMegabyte blocks).Sorted :=
  ofBlocks_wellFormed _ _ (by decide) inRange few

/-- The bounds of such a heap, and the number of its holes. -/
theorem secondMegabyte_heap (blocks : List Block) :
    (secondMegabyte blocks).heap =
      { entries := 0xfe000, entrycount := (holes 0x100000 blocks).length, maxentries := mmIndexCount
        start := 0x100000, end_ := 0x100000 + total Block.size blocks, memend := 0x400000
        pageflags := kernelFlags } := by
  unfold secondMegabyte
  rw [ofBlocks_heap]
  rfl

/-- What `create_heap` makes: a hole, with its entry. -/
theorem createHeap_eq (paging : Paging) (m : Bytes) {start end_ : Nat} (memend pageflags : Nat)
    {hole : Block} (isHole : hole.hole = true)
    (whole : start + mmIndexCount * 4 + hole.size = end_) (inRange : end_ < uintWidth)
    (aligned : start % frameSize = 0) (endAligned : end_ % frameSize = 0) :
    ∃ m', createHeap paging m start end_ memend pageflags =
      { paging
        heap :=
          { entries := start, entrycount := 1, maxentries := mmIndexCount
            start := start + mmIndexCount * 4, end_, memend := assertAlign memend, pageflags }
        memory := m'
        stored := 1 } ∧
      m'.word start = start + mmIndexCount * 4 ∧
      Tagged m' (start + mmIndexCount * 4) hole := by
  have width : uintWidth = 4294967296 := rfl
  have slots : mmIndexCount * 4 = 8192 := rfl
  have large := hole.large
  have small := hole.small
  have index : assertAlign start = start := if_neg (not_not.mpr aligned)
  have stop : assertAlign end_ = end_ := if_neg (not_not.mpr endAligned)
  rw [slots] at whole ⊢
  have first : assertAlign (uadd start (mmIndexCount * 4)) = start + 8192 := by
    rw [slots, uadd_of_lt (by omega)]
    apply if_neg
    rw [not_not]
    unfold frameSize at *
    omega
  have bounds : Heap.create start end_ memend pageflags =
      { entries := start, entrycount := 1, maxentries := mmIndexCount, start := start + 8192
        end_, memend := assertAlign memend, pageflags } := by
    rw [Heap.create, index, first, stop]
  have size : usub end_ (start + 8192) = hole.size := by
    rw [usub_of_le (by omega) inRange]
    omega
  have bits : hole.size % sizeWidth = hole.size := Nat.mod_eq_of_lt small
  have value : (start + 8192) % 4294967296 = start + 8192 := Nat.mod_eq_of_lt (by omega)
  have flag : hole.flag = mmFlagHole := if_pos isHole
  have footer : usub end_ footerSize = start + 8192 + hole.size - footerSize := by
    unfold headerSize footerSize at *
    rw [usub_of_le (by omega) inRange]
    omega
  unfold createHeap
  rw [bounds]
  unfold Heap.size
  dsimp only
  rw [size, footer, entry_setEntry, if_pos rfl, width, value]
  unfold headerSize footerSize at *
  refine ⟨_, rfl, ?_, ?_⟩
  · simp (disch := omega) only [setEntry, slot, setMagic, setHeader, Bytes.word_store_of_apart]
    exact (Bytes.word_store_self _ start _).trans value
  · rw [tagged_iff, flag]
    unfold footerSize
    refine ⟨?_, ?_, ?_, ?_⟩
    · simp (disch := omega) only [setEntry, slot, setMagic, setHeader, setSize, setFlag,
        Bytes.word_store_self, Bytes.word_store_of_apart]
      rfl
    · simp (disch := omega) only [setEntry, slot, setMagic, setHeader, Bytes.word_store_of_apart]
      rw [word_setFlag (by decide), sizeAt_setSize, bits]
    · simp (disch := omega) only [setMagic, setHeader, Bytes.word_store_self,
        Bytes.word_store_of_apart]
      rfl
    · simp (disch := omega) only [setHeader, Bytes.word_store_self, value]

/-- `create_heap` makes one hole of the whole heap. -/
theorem createHeap_wellFormed (paging : Paging) (m : Bytes) {start end_ : Nat}
    (memend pageflags : Nat) {hole : Block} (isHole : hole.hole = true)
    (whole : start + mmIndexCount * 4 + hole.size = end_) (inRange : end_ < uintWidth)
    (aligned : start % frameSize = 0) (endAligned : end_ % frameSize = 0) :
    (createHeap paging m start end_ memend pageflags).WellFormed [hole] ∧
      (createHeap paging m start end_ memend pageflags).Sorted := by
  obtain ⟨m', created, listed, tagged⟩ :=
    createHeap_eq paging m memend pageflags isHole whole inRange aligned endAligned
  rw [created]
  have index : KernelHeap.index
      { paging
        heap :=
          { entries := start, entrycount := 1, maxentries := mmIndexCount
            start := start + mmIndexCount * 4, end_, memend := assertAlign memend, pageflags }
        memory := m'
        stored := 1 } = [start + mmIndexCount * 4] := congrArg (fun entry => [entry]) listed
  constructor
  · constructor
    · exact ⟨tagged, whole⟩
    · rw [index, holes_cons_of_hole isHole]
      exact .refl _
    · show 1 ≤ mmIndexCount
      decide
    · rfl
    · exact congrArg (start + ·) (Nat.mul_comm ..)
    · exact inRange
  · unfold Sorted
    rw [index]
    exact List.pairwise_singleton ..

end KernelHeap

end Nupkux
