import Nupkux.Mm.HeapFree

/-!
# Release at the end of the heap

When the freed block and the holes next to it reach the end of the heap, `heap_free` gives whole
pages back, and the part of the hole below the new end is to remain. Whether something remains is
decided by the sizes, and whether it is entered by whether there was a hole before the block.
-/

namespace Nupkux

open Tiling

/-- The size of the heap after whole pages have been given back, when so much of it is used. -/
def keptSize (used : Nat) : Nat := max (assertAlign used) mmKheapMin

/-- The heap keeps what is used, and does not grow. -/
theorem keptSize_bounds {used size : Nat} (less : used < size) (aligned : size % frameSize = 0)
    (atLeast : mmKheapMin ≤ size) (inRange : size + frameSize < uintWidth) :
    used ≤ keptSize used ∧ keptSize used ≤ size ∧ mmKheapMin ≤ keptSize used ∧
      (keptSize used < used + frameSize ∨ keptSize used = mmKheapMin) := by
  obtain ⟨above, below, page⟩ := assertAlign_spec (show used + frameSize < uintWidth by omega)
  unfold keptSize
  unfold frameSize at *
  omega

namespace KernelHeap

variable {k k' : KernelHeap} {m m' : Bytes} {b x : Block} {left before after : List Block}
  {used : Nat}

/-- `contract_heap` leaves the memory alone, and the record of stores. -/
theorem contractHeap_memory (k : KernelHeap) (newSize : Nat) :
    (k.contractHeap newSize).1.memory = k.memory ∧
      (k.contractHeap newSize).1.stored = k.stored := by
  unfold contractHeap
  generalize k.toAddressSpaces.contractHeap newSize = contracted
  cases contracted
  exact ⟨rfl, rfl⟩

/-- `contract_heap` when less than the whole heap is used. -/
theorem contractHeap_eq (less : used < k.heap.size) :
    (k.contractHeap used).2 = keptSize used ∧
      (k.contractHeap used).1.heap =
        { k.heap with end_ := uadd k.heap.start (keptSize used) } := by
  have contracts : k.heap.contractSize used = some (keptSize used) := by
    unfold Heap.contractSize keptSize
    rw [if_neg (by omega)]
    by_cases low : assertAlign used < mmKheapMin
    · rw [if_pos low, Nat.max_eq_right (Nat.le_of_lt low)]
    · rw [if_neg low, Nat.max_eq_left (Nat.le_of_not_lt low)]
  have contracted : k.heap.contract used =
      { k.heap with end_ := uadd k.heap.start (keptSize used) } := by
    rw [Heap.contract, contracts]
  unfold contractHeap AddressSpaces.contractHeap
  rw [contracts]
  exact ⟨rfl, contracted⟩

/-- `contract_heap` when the whole heap is used. -/
theorem contractHeap_of_size_le (whole : k.heap.size ≤ used) :
    (k.contractHeap used).2 = k.heap.size ∧ (k.contractHeap used).1.heap = k.heap := by
  have contracts : k.heap.contractSize used = none := if_pos whole
  unfold contractHeap AddressSpaces.contractHeap
  rw [contracts]
  exact ⟨rfl, rfl⟩

/-- The bounds of the heap are page boundaries, with at least the least size between them. -/
structure WholePages (k : KernelHeap) : Prop where
  aligned : k.heap.size % frameSize = 0
  atLeast : mmKheapMin ≤ k.heap.size

/-- The test of `heap_free` for whether something of the hole remains. -/
theorem remains_iff {space size : Nat} (whole : used + space = size) (positive : 0 < space)
    (aligned : size % frameSize = 0) (atLeast : mmKheapMin ≤ size)
    (inRange : size + 2 * frameSize ≤ uintWidth) :
    uadd (keptSize used) (space % sizeWidth) > size ↔ used < keptSize used ∧ space < sizeWidth := by
  have width : uintWidth = 4294967296 := rfl
  have widths : sizeWidth = 2147483648 := rfl
  have page : frameSize = 4096 := rfl
  have least : mmKheapMin = 1048576 := rfl
  obtain ⟨above, below, _, few⟩ :=
    keptSize_bounds (show used < size by omega) aligned atLeast (by omega)
  generalize keptSize used = kept at *
  rw [width, page] at inRange
  rw [page] at few
  unfold uadd
  rw [width, widths]
  omega

/-- Space that reaches the end of a heap, with a header like that of a hole. -/
structure AtEnd (k : KernelHeap) (address used space : Nat) : Prop where
  place : k.heap.start + used = address
  ends : address + space = k.heap.end_
  inRange : k.heap.end_ < uintWidth
  low : 2 * frameSize ≤ k.heap.start
  positive : 0 < space
  magic : magicAt k.memory address = mmMagic
  size : sizeAt k.memory address = space % sizeWidth
  flag : flagAt k.memory address = mmFlagHole

/-- The size of the heap. -/
theorem AtEnd.heap_size {address space : Nat} (atEnd : AtEnd k address used space) :
    used + space = k.heap.size ∧ k.heap.size + 2 * frameSize ≤ uintWidth ∧
      usub address k.heap.start = used := by
  have ⟨place, ends, inRange, low, positive, _, _, _⟩ := atEnd
  have size : k.heap.size = k.heap.end_ - k.heap.start := usub_of_le (by omega) inRange
  have offset : usub address k.heap.start = address - k.heap.start :=
    usub_of_le (by omega) (by omega)
  rw [size, offset]
  omega

/-- `heap_free` when nothing remains of the hole. -/
theorem shrink_of_drop {address space : Nat} (atEnd : AtEnd k address used space)
    (pages : k.WholePages) (drops : ¬(used < keptSize used ∧ space < sizeWidth)) :
    k.shrink address = (k.contractHeap used).1.heapDelEntry
      ((k.contractHeap used).1.heapFindEntry address) := by
  obtain ⟨whole, inRange, offset⟩ := atEnd.heap_size
  have positive := atEnd.positive
  obtain ⟨kept, heap⟩ := contractHeap_eq (show used < k.heap.size by omega)
  have test := remains_iff whole positive pages.aligned pages.atLeast inRange
  unfold shrink
  dsimp only
  rw [offset, kept, (k.contractHeap_memory used).1, atEnd.size]
  exact if_neg (test.not.mpr drops)

/-- `heap_free` when something of the hole remains. -/
theorem shrink_of_keep {address space : Nat} (atEnd : AtEnd k address used space)
    (pages : k.WholePages) (remains : used + (headerSize + footerSize) ≤ keptSize used)
    (small : space < sizeWidth) :
    ∃ m, k.shrink address = (k.contractHeap used).1.setMemory m ∧
      HoleFrom m address (keptSize used - used) ∧
      Bytes.OnlyIn address (address + (keptSize used - used)) k.memory m := by
  obtain ⟨whole, inRange, offset⟩ := atEnd.heap_size
  have positive := atEnd.positive
  obtain ⟨kept, heap⟩ := contractHeap_eq (show used < k.heap.size by omega)
  have test := remains_iff whole positive pages.aligned pages.atLeast inRange
  have page : 0 < frameSize := by decide
  obtain ⟨above, below, least, few⟩ :=
    keptSize_bounds (show used < k.heap.size by omega) pages.aligned pages.atLeast (by omega)
  have place := atEnd.place
  have ends := atEnd.ends
  have inRange' := atEnd.inRange
  have width : uintWidth = 4294967296 := rfl
  unfold headerSize footerSize at remains
  have bits : space % sizeWidth = space := Nat.mod_eq_of_lt small
  have given : usub k.heap.size (keptSize used) = k.heap.size - keptSize used :=
    usub_of_le below (by omega)
  have left : usub space (k.heap.size - keptSize used) = keptSize used - used := by
    rw [usub_of_le (by omega) (by omega)]
    omega
  have bits' : (keptSize used - used) % sizeWidth = keptSize used - used :=
    Nat.mod_eq_of_lt (by omega)
  have footer : usub (uadd address (keptSize used - used)) footerSize =
      address + (keptSize used - used) - footerSize := by
    unfold footerSize
    rw [uadd_of_lt (by omega)]
    exact usub_of_le (by omega) (by omega)
  have value : address % 4294967296 = address := Nat.mod_eq_of_lt (by omega)
  unfold shrink
  dsimp only
  rw [offset, kept, (k.contractHeap_memory used).1, atEnd.size,
    if_pos (test.mpr ⟨by omega, small⟩), bits, given, left, sizeAt_setSize, bits', footer]
  have apart : address + 8 ≤ address + (keptSize used - used) - footerSize := by
    unfold footerSize
    omega
  refine ⟨_, rfl, ⟨?_, ?_, ?_, ?_, ?_⟩, ?_⟩
  · rw [magicAt]
    simp (disch := omega) only [setMagic, setHeader, setSize, Bytes.word_store_of_apart]
    exact atEnd.magic
  · rw [sizeAt]
    simp (disch := omega) only [setMagic, setHeader, Bytes.word_store_of_apart]
    exact sizeAt_setSize
  · rw [flagAt]
    simp (disch := omega) only [setMagic, setHeader, Bytes.word_store_of_apart]
    exact flagAt_setSize.trans atEnd.flag
  · rw [magicAt]
    simp (disch := omega) only [setMagic, setHeader, Bytes.word_store_self,
      Bytes.word_store_of_apart]
    rfl
  · rw [headerAt, setHeader, Bytes.word_store_self, value]
  · unfold setMagic setHeader setSize footerSize
    apply_rules [Bytes.OnlyIn.store, Bytes.OnlyIn.refl] <;> omega

/-! ## The heap below its new end -/

/-- The blocks that reach the end of the heap have been replaced by what remains of them below a
new end, a hole or nothing, and the other blocks are as before. -/
structure Shrunk (k k' : KernelHeap) (left rest : List Block) : Prop where
  remains : AtMostAHole rest
  wellFormed : k'.WellFormed (left ++ rest)
  start : k'.heap.start = k.heap.start
  atLeast : mmKheapMin ≤ k'.heap.size
  atMost : k'.heap.end_ ≤ k.heap.end_
  low : Bytes.Same k.heap.start (k.heap.start + total Block.size left) k.memory k'.memory

/-- After some blocks there are only holes up to the end of the heap. -/
structure EndsIn (k k' : KernelHeap) (left rest : List Block) : Prop where
  areHoles : ∀ hole ∈ rest, hole.hole = true
  wellFormed : k'.WellFormed (left ++ rest)
  start : k'.heap.start = k.heap.start

/-- What remains are holes. -/
theorem Shrunk.endsIn {rest : List Block} (shrunk : Shrunk k k' left rest) :
    EndsIn k k' left rest := by
  refine ⟨?_, shrunk.wellFormed, shrunk.start⟩
  rcases shrunk.remains with rfl | ⟨hole, rfl, isHole⟩
  · exact fun _ member => absurd member List.not_mem_nil
  · intro other member
    rwa [List.mem_singleton.mp member]

/-- The blocks up to a new end. -/
theorem WellFormed.cut {middle rest : List Block} (wf : k.WellFormed (left ++ middle)) (stop : Nat)
    (heap : k'.heap = { k.heap with end_ := stop, entrycount := k'.heap.entrycount })
    (below : stop ≤ k.heap.end_)
    (tiles : Tiles Block.size (Tagged k'.memory) (k.heap.start + total Block.size left) rest stop)
    (low : Bytes.Same k.heap.start (k.heap.start + total Block.size left) k.memory k'.memory)
    (index : k'.index.Perm (holes k.heap.start (left ++ rest)))
    (capacity : k'.heap.entrycount ≤ k.heap.maxentries) : k'.WellFormed (left ++ rest) := by
  obtain ⟨first, _⟩ := tiles_append.mp wf.tiles
  constructor
  · rw [heap]
    exact tiles_append.mpr ⟨tiles_same first low, tiles⟩
  · rw [heap]
    exact index
  · rw [heap]
    exact capacity
  · rw [heap]
    exact wf.slots
  · rw [slot, heap]
    exact wf.layout
  · rw [heap]
    exact Nat.lt_of_le_of_lt below wf.inRange

/-- The freed block and the holes next to it look like one hole up to the end of the heap. The
holes before them are listed. -/
structure Reaches (k k' : KernelHeap) (left before : List Block) (space : Nat) : Prop where
  heap : k'.heap = { k.heap with entrycount := k'.heap.entrycount }
  index : k'.index.Perm (holes k.heap.start (left ++ before))
  atEnd : AtEnd k' (k.heap.start + total Block.size left) (total Block.size left) space
  low : Bytes.Same k.heap.start (k.heap.start + total Block.size left) k.memory k'.memory

/-- The heap after `contract_heap`. -/
theorem Reaches.contracted {space : Nat} {middle : List Block}
    (reaches : Reaches k k' left before space) (wf : k.WellFormed (left ++ middle))
    (pages : k.WholePages) :
    (k'.contractHeap (total Block.size left)).1.heap =
        { k'.heap with end_ := k.heap.start + keptSize (total Block.size left) } ∧
      (k'.contractHeap (total Block.size left)).1.index = k'.index ∧
      total Block.size left ≤ keptSize (total Block.size left) ∧
      mmKheapMin ≤ keptSize (total Block.size left) ∧
      k.heap.start + keptSize (total Block.size left) ≤ k.heap.end_ ∧
      keptSize (total Block.size left) - total Block.size left < sizeWidth := by
  obtain ⟨whole, inRange, _⟩ := reaches.atEnd.heap_size
  have positive := reaches.atEnd.positive
  have same : k'.heap.size = k.heap.size := by
    rw [Heap.size, Heap.size, reaches.heap]
  have start : k'.heap.start = k.heap.start := by rw [reaches.heap]
  have page : 0 < frameSize := by decide
  rw [same] at whole inRange
  obtain ⟨above, below, least, few⟩ :=
    keptSize_bounds (show total Block.size left < k.heap.size by omega) pages.aligned
      pages.atLeast (by omega)
  have small : keptSize (total Block.size left) - total Block.size left < sizeWidth := by
    unfold frameSize mmKheapMin at few
    unfold sizeWidth
    omega
  obtain ⟨_, heap⟩ := contractHeap_eq (show total Block.size left < k'.heap.size by omega)
  have ends := wf.tiles.stop_eq
  rw [total_append] at ends
  have inRange' := wf.inRange
  have size : k.heap.size = k.heap.end_ - k.heap.start := usub_of_le (by omega) inRange'
  have stop : uadd k'.heap.start (keptSize (total Block.size left)) =
      k.heap.start + keptSize (total Block.size left) := by
    rw [start]
    exact uadd_of_lt (by omega)
  rw [stop] at heap
  refine ⟨heap, ?_, above, least, by omega, small⟩
  unfold KernelHeap.index
  rw [heap]
  refine List.map_congr_left fun i _ => ?_
  rw [entry, entry, slot, slot, heap, (k'.contractHeap_memory _).1]

/-- The bounds are page boundaries until then. -/
theorem Reaches.pages {space : Nat} (reaches : Reaches k k' left before space)
    (pages : k.WholePages) : k'.WholePages := by
  constructor
  · rw [Heap.size, reaches.heap]
    exact pages.aligned
  · rw [Heap.size, reaches.heap]
    exact pages.atLeast

/-- The size of the heap with a new end. -/
theorem size_cut {stop : Nat} (h : Heap) (above : h.start ≤ stop) (inRange : stop < uintWidth)
    (entrycount : Nat) : Heap.size { h with end_ := stop, entrycount } = stop - h.start :=
  usub_of_le above inRange

/-- The hole before the block goes when the pages below the new end leave nothing of it. -/
theorem shrunk_gone {first : Block} {middle : List Block} {space : Nat}
    (wf : k.WellFormed (left ++ middle)) (pages : k.WholePages) (isHole : first.hole = true)
    (reaches : Reaches k k' left [first] space)
    (nothing : keptSize (total Block.size left) = total Block.size left)
    (capacity : k'.heap.entrycount ≤ k.heap.maxentries) :
    Shrunk k (k'.shrink (k.heap.start + total Block.size left)) left [] := by
  obtain ⟨heap, index, above, least, below, few⟩ := reaches.contracted wf pages
  have memory := (k'.contractHeap_memory (total Block.size left)).1
  have gone := shrink_of_drop reaches.atEnd (reaches.pages pages) (fun keeps => by omega)
  have listed : k.heap.start + total Block.size left ∈ k'.index := by
    refine reaches.index.mem_iff.mpr (mem_holes.mpr ⟨first, isHole, ?_⟩)
    exact mem_places.mpr ⟨left, [], rfl, rfl⟩
  rw [gone]
  generalize (k'.contractHeap (total Block.size left)).1 = short at *
  have heap' : short.heap = { k.heap with
      end_ := k.heap.start + total Block.size left, entrycount := k'.heap.entrycount } := by
    rw [heap, reaches.heap, nothing]
  rw [← index] at listed
  obtain ⟨i, inside, position, entry⟩ := heapFindEntry_of_mem listed
  have deleted := short.heapDelEntry_indexed inside
  have perm := (short.entry_cons_eraseIdx_perm inside).trans ((List.Perm.of_eq index).trans
    reaches.index)
  rw [entry, holes_append, holes_cons_of_hole isHole] at perm
  have rest := perm.trans List.perm_append_comm
  have few : (short.index.eraseIdx i).length = k'.heap.entrycount - 1 := by
    rw [List.length_eraseIdx, length_index, if_pos inside, heap']
  have deletedHeap : (short.heapDelEntry (some i)).heap = { k.heap with
      end_ := k.heap.start + total Block.size left, entrycount := k'.heap.entrycount - 1 } := by
    rw [deleted.heap, few, heap']
  have slots : short.slot short.heap.entrycount ≤ k.heap.start := by
    rw [slot, heap']
    exact wf.slot_le capacity
  have low : Bytes.Same k.heap.start (k.heap.start + total Block.size left) k.memory
      (short.heapDelEntry (some i)).memory := by
    have kept := heapDelEntry_same short (some i) (k.heap.start + total Block.size left) slots
    rw [memory] at kept
    exact reaches.low.trans kept
  rw [position]
  rw [nothing] at least below
  have size := size_cut k.heap (Nat.le_add_right k.heap.start (total Block.size left))
    (Nat.lt_of_le_of_lt below wf.inRange)
  refine ⟨.inl rfl, ?_, ?_, ?_, ?_, low⟩
  · apply wf.cut (k.heap.start + total Block.size left)
    · rw [deletedHeap]
    · exact below
    · rfl
    · exact low
    · rw [deleted.index, List.append_nil]
      exact rest.cons_inv
    · rw [deletedHeap]
      exact Nat.le_trans (Nat.sub_le ..) capacity
  · rw [deletedHeap]
  · rw [deletedHeap, size, Nat.add_sub_cancel_left]
    exact least
  · rw [deletedHeap]
    exact below

/-- The end has been set, and what is below it looks like a hole. The holes before the block are
listed. -/
structure Shortened (k k' : KernelHeap) (left before : List Block) (entrycount : Nat) :
    Prop where
  heap : k'.heap = { k.heap with
    end_ := k.heap.start + keptSize (total Block.size left), entrycount }
  index : k'.index.Perm (holes k.heap.start (left ++ before))
  looks : HoleFrom k'.memory (k.heap.start + total Block.size left)
    (keptSize (total Block.size left) - total Block.size left)
  low : Bytes.Same k.heap.start (k.heap.start + total Block.size left) k.memory k'.memory

/-- `heap_free` sets the end, and the size of the hole below it. -/
theorem Reaches.shortened {space : Nat} {middle : List Block}
    (reaches : Reaches k k' left before space) (wf : k.WellFormed (left ++ middle))
    (pages : k.WholePages)
    (remains : total Block.size left + (headerSize + footerSize) ≤
      keptSize (total Block.size left)) (small : space < sizeWidth)
    (capacity : k'.heap.entrycount ≤ k.heap.maxentries) :
    Shortened k (k'.shrink (k.heap.start + total Block.size left)) left before
      k'.heap.entrycount := by
  obtain ⟨heap, index, above, least, below, few⟩ := reaches.contracted wf pages
  obtain ⟨m, shrinks, looks, only⟩ :=
    shrink_of_keep reaches.atEnd (reaches.pages pages) remains small
  have memory := (k'.contractHeap_memory (total Block.size left)).1
  have heap' : (k'.contractHeap (total Block.size left)).1.heap = { k.heap with
      end_ := k.heap.start + keptSize (total Block.size left)
      entrycount := k'.heap.entrycount } := by
    rw [heap, reaches.heap]
  have slots : (k'.contractHeap (total Block.size left)).1.slot
      (k'.contractHeap (total Block.size left)).1.heap.entrycount ≤ k.heap.start := by
    rw [slot, heap']
    exact wf.slot_le capacity
  have kept : ((k'.contractHeap (total Block.size left)).1.setMemory m).index = k'.index := by
    rw [← index]
    apply index_setMemory
    rw [memory]
    exact only.same (.inl (by omega))
  rw [shrinks]
  refine ⟨heap', ?_, looks, ?_⟩
  · rw [kept]
    exact reaches.index
  · exact reaches.low.trans (only.same (.inl (Nat.le_refl _)))

/-- What remains of the hole, as a block. -/
theorem exists_remains {used kept : Nat} (remains : used + (headerSize + footerSize) ≤ kept)
    (small : kept - used < sizeWidth) : ∃ hole : Block, hole.hole = true ∧ hole.size = kept - used :=
  ⟨Block.free (kept - used) (by omega) small, rfl, rfl⟩

/-- The hole before the block is listed, and remains so. -/
theorem Shortened.behind {first : Block} {middle : List Block}
    {entrycount : Nat} (short : Shortened k k' left [first] entrycount)
    (wf : k.WellFormed (left ++ middle)) (isHole : first.hole = true)
    (remains : total Block.size left + (headerSize + footerSize) ≤
      keptSize (total Block.size left))
    (small : keptSize (total Block.size left) - total Block.size left < sizeWidth)
    (least : mmKheapMin ≤ keptSize (total Block.size left))
    (below : k.heap.start + keptSize (total Block.size left) ≤ k.heap.end_)
    (capacity : entrycount ≤ k.heap.maxentries) : ∃ rest, Shrunk k k' left rest := by
  obtain ⟨hole, isHole', size⟩ := exists_remains remains small
  have looks := short.looks
  rw [← size] at looks
  have size_k := size_cut k.heap (Nat.le_add_right k.heap.start (keptSize (total Block.size left)))
    (Nat.lt_of_le_of_lt below wf.inRange)
  refine ⟨[hole], .inr ⟨hole, rfl, isHole'⟩, ?_, ?_, ?_, ?_, short.low⟩
  · apply wf.cut (k.heap.start + keptSize (total Block.size left))
    · rw [short.heap]
    · exact below
    · refine ⟨looks.tagged isHole', ?_⟩
      show k.heap.start + total Block.size left + hole.size = _
      omega
    · exact short.low
    · have index := short.index
      rw [holes_append, holes_cons_of_hole isHole] at index
      rw [holes_append, holes_cons_of_hole isHole']
      exact index
    · rw [short.heap]
      exact capacity
  · rw [short.heap]
  · rw [short.heap, size_k, Nat.add_sub_cancel_left]
    exact least
  · rw [short.heap]
    exact below

/-- The freed block is entered as a hole, up to the new end. -/
theorem Shortened.alone {middle : List Block} {entrycount : Nat}
    (short : Shortened k k' left [] entrycount) (wf : k.WellFormed (left ++ middle))
    (remains : total Block.size left + (headerSize + footerSize) ≤
      keptSize (total Block.size left))
    (small : keptSize (total Block.size left) - total Block.size left < sizeWidth)
    (least : mmKheapMin ≤ keptSize (total Block.size left))
    (below : k.heap.start + keptSize (total Block.size left) ≤ k.heap.end_)
    (room : entrycount < k.heap.maxentries) :
    ∃ rest, Shrunk k (k'.heapAddEntry (k.heap.start + total Block.size left)) left rest := by
  obtain ⟨hole, isHole, size⟩ := exists_remains remains small
  have inRange := wf.inRange
  have looks := short.looks
  rw [← size] at looks
  have inHeap : k.heap.start + total Block.size left < uintWidth := by omega
  have added := k'.heapAddEntry_indexed inHeap
  have heap : (k'.heapAddEntry (k.heap.start + total Block.size left)).heap = { k.heap with
      end_ := k.heap.start + keptSize (total Block.size left), entrycount := entrycount + 1 } := by
    rw [heapAddEntry_heap, short.heap]
  have slots : k'.slot (k'.heap.entrycount + 1) ≤ k.heap.start := by
    rw [slot, short.heap]
    exact wf.slot_le room
  have others (stop : Nat) : Bytes.Same k.heap.start stop k'.memory
      (k'.heapAddEntry (k.heap.start + total Block.size left)).memory :=
    heapAddEntry_same k' stop inHeap slots
  have low := short.low.trans (others (k.heap.start + total Block.size left))
  have size_k := size_cut k.heap (Nat.le_add_right k.heap.start (keptSize (total Block.size left)))
    (Nat.lt_of_le_of_lt below inRange)
  refine ⟨[hole], .inr ⟨hole, rfl, isHole⟩, ?_, ?_, ?_, ?_, low⟩
  · apply wf.cut (k.heap.start + keptSize (total Block.size left))
    · rw [heap]
    · exact below
    · refine ⟨?_, ?_⟩
      · apply (looks.tagged isHole).same_of_bytes
        exact (others _).mono (Nat.le_add_right ..) (Nat.le_refl _)
      · show k.heap.start + total Block.size left + hole.size = _
        omega
    · exact low
    · have index := short.index
      rw [List.append_nil] at index
      rw [added.index, holes_append, holes_cons_of_hole isHole]
      refine (List.perm_orderedInsert ..).trans ((index.cons _).trans ?_)
      exact (List.perm_append_singleton ..).symm
    · rw [heap]
      exact room
  · rw [heap]
  · rw [heap, size_k, Nat.add_sub_cancel_left]
    exact least
  · rw [heap]
    exact below

/-! ## Up to the end of the heap -/

/-- The index lies before the heap. -/
theorem WellFormed.start_ge {blocks : List Block} (wf : k.WellFormed blocks) :
    2 * frameSize ≤ k.heap.start := by
  have layout := wf.layout
  rw [slot, wf.slots] at layout
  rw [← layout]
  exact Nat.le_add_left ..

/-- A size is added to that in a header. -/
theorem sizeAt_setSize_add {header size more : Nat} (found : sizeAt m header = size % sizeWidth) :
    sizeAt (setSize m header (uadd (sizeAt m header) more)) header = (size + more) % sizeWidth := by
  rw [sizeAt_setSize, found]
  unfold uadd uintWidth sizeWidth
  omega

/-- The header of the joined hole. -/
structure HeaderFrom (m : Bytes) (address space : Nat) : Prop where
  magic : magicAt m address = mmMagic
  size : sizeAt m address = space % sizeWidth
  flag : flagAt m address = mmFlagHole

/-- A size is added in the header of the joined hole. -/
theorem HeaderFrom.add {address space : Nat} (header : HeaderFrom m address space) (more : Nat) :
    HeaderFrom (setSize m address (uadd (sizeAt m address) more)) address (space + more) := by
  refine ⟨?_, sizeAt_setSize_add header.size, flagAt_setSize.trans header.flag⟩
  rw [magicAt, setSize, Bytes.word_store_of_apart _ _ (.inl (Nat.le_refl _))]
  exact header.magic

/-- The same bytes have the same header. -/
theorem HeaderFrom.same {address space : Nat} (header : HeaderFrom m address space)
    (same : Bytes.Same address (address + headerSize) m m') : HeaderFrom m' address space := by
  have word {a : Nat} (low : address ≤ a) (high : a + 4 ≤ address + headerSize) :
      m'.word a = m.word a := Bytes.word_congr same low high
  unfold headerSize at word
  refine ⟨(word (Nat.le_refl _) (by omega)).trans header.magic, ?_, ?_⟩
  · rw [sizeAt, word (by omega) (by omega)]
    exact header.size
  · rw [flagAt, word (by omega) (by omega)]
    exact header.flag

/-- The freed block reaches the end together with the holes next to it. -/
theorem reaches_of_header (k' : KernelHeap) {rest : List Block} {space : Nat}
    (wf : k.WellFormed (left ++ rest)) (size : total Block.size rest = space) (positive : 0 < space)
    (heap : k'.heap = { k.heap with entrycount := k'.heap.entrycount })
    (index : k'.index.Perm (holes k.heap.start (left ++ before)))
    (header : HeaderFrom k'.memory (k.heap.start + total Block.size left) space)
    (low : Bytes.Same k.heap.start (k.heap.start + total Block.size left) k.memory k'.memory) :
    Reaches k k' left before space := by
  have ends := wf.tiles.stop_eq
  rw [total_append, size] at ends
  refine ⟨heap, index, ⟨?_, ?_, ?_, ?_, positive, header.magic, header.size, header.flag⟩, low⟩
  · rw [heap]
  · rw [heap]
    show k.heap.start + total Block.size left + space = k.heap.end_
    omega
  · rw [heap]
    exact wf.inRange
  · rw [heap]
    exact wf.start_ge

/-- The last block is freed: what is behind the heap does not look like a hole with a size. -/
theorem settle_of_last (wf : k.WellFormed (left ++ (before ++ [b]))) (block : b.hole = false)
    (looks : HeaderFrom m (k.heap.start + total Block.size left) (total Block.size (before ++ [b])))
    (only : Bytes.OnlyIn (k.heap.start + total Block.size left) k.heap.end_ k.memory m)
    (clear : holeAt k.memory k.heap.end_ → sizeAt k.memory k.heap.end_ = 0) :
    ∃ k₁, (k.setMemory m).settle (k.heap.start + total Block.size left)
        (k.heap.end_ - footerSize) = k₁.shrink (k.heap.start + total Block.size left) ∧
      Reaches k k₁ left before (total Block.size (before ++ [b])) ∧
      k₁.heap.entrycount = k.heap.entrycount ∧
      Bytes.Same (k.heap.start + total Block.size left + headerSize) k.heap.end_ m k₁.memory := by
  have inRange := wf.inRange
  have low := wf.start_ge
  have ends := wf.tiles.stop_eq
  rw [total_append, total_append] at ends
  have single : total Block.size [b] = b.size := rfl
  have large := b.large
  have enough : footerSize ≤ k.heap.end_ := by
    unfold headerSize at large
    omega
  have page : footerSize ≤ frameSize := by decide
  have positive : 0 < total Block.size (before ++ [b]) := by
    rw [total_append]
    unfold headerSize at large
    omega
  have index : k.index.Perm (holes k.heap.start (left ++ before)) := by
    have perm := wf.index
    rw [← List.append_assoc, holes_append, holes_cons_of_block block] at perm
    exact perm.trans (List.Perm.of_eq (List.append_nil _))
  have wide : k.heap.start + total Block.size left + headerSize ≤ k.heap.end_ := by omega
  -- Words behind the heap are as before.
  have behind {m' : Bytes} (only' : Bytes.OnlyIn (k.heap.start + total Block.size left) k.heap.end_
      k.memory m') (a : Nat) (high : k.heap.end_ ≤ a) : m'.word a = k.memory.word a :=
    only'.word (.inr high)
  by_cases hole : holeAt m k.heap.end_
  · have settled := settle_of_holeAt (k.setMemory m) (k.heap.start + total Block.size left) hole
      enough inRange
    obtain ⟨m', stored, joint, footer⟩ :=
      (k.setMemory m).joinAfter_eq (k.heap.start + total Block.size left) k.heap.end_
    have nothing : sizeAt m k.heap.end_ = 0 := by
      unfold holeAt magicAt flagAt at hole
      rw [behind only _ (Nat.le_refl _), behind only _ (Nat.le_add_right ..)] at hole
      rw [sizeAt, behind only _ (Nat.le_add_right ..)]
      exact clear hole
    have only' : Bytes.OnlyIn (k.heap.start + total Block.size left) k.heap.end_ k.memory m' := by
      unfold headerSize at wide
      rw [← stored]
      exact only.store _ (by omega) (by omega)
    have looks' : HeaderFrom m' (k.heap.start + total Block.size left)
        (total Block.size (before ++ [b])) := by
      have grown := looks.add (sizeAt m k.heap.end_)
      rw [nothing, Nat.add_zero] at grown
      rw [← stored]
      show HeaderFrom (setSize m _ (uadd _ (sizeAt m k.heap.end_))) _ _
      rw [nothing]
      exact grown
    have index' := wf.index_setMemory only' (Nat.le_add_right ..)
    have unlisted : k.heap.end_ ∉ (k.setMemory m').index := by
      rw [index', wf.index.mem_iff]
      intro member
      have bounds := bounds_of_mem_holes wf.tiles member
      unfold headerSize at bounds
      omega
    have size : sizeAt m' k.heap.end_ = 0 := by
      rw [sizeAt, behind only' _ (Nat.le_add_right ..), ← behind only _ (Nat.le_add_right ..)]
      exact nothing
    have stop : uadd (usub (uadd k.heap.end_ 0) footerSize) footerSize = k.heap.end_ := by
      have same : uadd k.heap.end_ 0 = k.heap.end_ := uadd_of_lt inRange
      have last : usub k.heap.end_ footerSize = k.heap.end_ - footerSize :=
        usub_of_le enough inRange
      rw [same, last, uadd_of_lt (by omega)]
      omega
    rw [size] at footer
    rw [setMemory_setMemory, heapFindEntry_of_not_mem unlisted] at joint
    rw [footer, stop, joint, if_pos (by rfl)] at settled
    have payload : Bytes.Same (k.heap.start + total Block.size left + headerSize) k.heap.end_
        m m' := by
      rw [← stored]
      exact Bytes.same_store _ _ (.inr (Nat.le_refl _))
    refine ⟨k.setMemory m', settled, ?_, rfl, payload⟩
    apply reaches_of_header (k.setMemory m') wf rfl positive rfl
    · rw [index']
      exact index
    · exact looks'
    · exact only'.same (.inl (Nat.le_refl _))
  · have settled := settle_of_not_holeAt (k.setMemory m) (k.heap.start + total Block.size left)
      hole enough inRange
    rw [if_pos (by rfl)] at settled
    refine ⟨k.setMemory m, settled, ?_, rfl, Bytes.Same.refl _ _ m⟩
    apply reaches_of_header (k.setMemory m) wf rfl positive rfl
    · rw [wf.index_setMemory only (Nat.le_add_right ..)]
      exact index
    · exact looks
    · exact only.same (.inl (Nat.le_refl _))

/-- The last block but one is freed, before a hole. -/
theorem settle_of_last_hole (before : List Block) (stop : Nat)
    (wf : k.WellFormed (left ++ (before ++ [b, x]))) (block : b.hole = false)
    (isHole : x.hole = true)
    (place : k.heap.start + total Block.size left + total Block.size (before ++ [b]) = stop)
    (looks : HeaderFrom m (k.heap.start + total Block.size left) (total Block.size (before ++ [b])))
    (only : Bytes.OnlyIn (k.heap.start + total Block.size left) stop k.memory m) :
    ∃ k₁, (k.setMemory m).settle (k.heap.start + total Block.size left) (stop - footerSize) =
        k₁.shrink (k.heap.start + total Block.size left) ∧
      Reaches k k₁ left before (total Block.size (before ++ [b, x])) ∧
      k₁.heap.entrycount + 1 = k.heap.entrycount ∧
      Bytes.Same (k.heap.start + total Block.size left + headerSize) k.heap.end_ m k₁.memory := by
  have shift : left ++ (before ++ [b, x]) = left ++ (before ++ [b]) ++ [x] := by
    simp only [List.append_assoc, List.cons_append, List.nil_append]
  have wf' : k.WellFormed (left ++ (before ++ [b]) ++ [x]) := by rwa [← shift]
  have inRange := wf.inRange
  have low := wf.start_ge
  have page : footerSize ≤ frameSize := by decide
  have large := b.large
  have large' := x.large
  have next := wf'.tagged
  have below := wf'.tiles.stop_eq
  have joined : total Block.size (before ++ [b]) = total Block.size before + b.size :=
    total_append ..
  have whole : total Block.size (before ++ [b, x]) =
      total Block.size (before ++ [b]) + x.size := by
    rw [total_append, total_append]
    exact (Nat.add_assoc ..).symm
  have here : k.heap.start + total Block.size (left ++ (before ++ [b])) = stop := by
    rw [total_append]
    omega
  rw [here] at next
  have ends : stop + x.size = k.heap.end_ := by
    rw [total_append, ← Nat.add_assoc, here] at below
    exact below.symm
  have next' : Tagged m stop x := next.same_of_bytes (only.same (.inr (Nat.le_refl _)))
  have wide : k.heap.start + total Block.size left + headerSize ≤ stop := by omega
  have settled := settle_of_holeAt (k.setMemory m) (k.heap.start + total Block.size left)
    ((holeAt_iff next').mpr isHole) (by omega) (by omega)
  obtain ⟨m', stored, joint, footer⟩ :=
    (k.setMemory m).joinAfter_eq (k.heap.start + total Block.size left) stop
  have only' : Bytes.OnlyIn (k.heap.start + total Block.size left) stop k.memory m' := by
    unfold headerSize at wide
    rw [← stored]
    exact only.store _ (by omega) (by omega)
  have looks' : HeaderFrom m' (k.heap.start + total Block.size left)
      (total Block.size (before ++ [b, x])) := by
    rw [← stored, whole]
    show HeaderFrom (setSize m _ (uadd _ (sizeAt m stop))) _ _
    rw [next'.size]
    exact looks.add x.size
  have index' := wf.index_setMemory only' (Nat.le_add_right ..)
  have next₂ : Tagged m' stop x := next.same_of_bytes (only'.same (.inr (Nat.le_refl _)))
  have perm := wf'.index
  rw [holes_append, here, holes_cons_of_hole isHole, ← List.append_assoc, holes_append,
    holes_cons_of_block block] at perm
  have listed : stop ∈ (k.setMemory m').index := by
    rw [index']
    exact perm.mem_iff.mpr (List.mem_append_right _ List.mem_cons_self)
  obtain ⟨i, inside, position, entry⟩ := heapFindEntry_of_mem listed
  have last : uadd (usub (uadd stop (sizeAt m' stop)) footerSize) footerSize = k.heap.end_ := by
    have sum : uadd stop x.size = stop + x.size := uadd_of_lt (by omega)
    have back : usub (stop + x.size) footerSize = stop + x.size - footerSize :=
      usub_of_le (by omega) (by omega)
    rw [next₂.size, sum, back, uadd_of_lt (by omega)]
    omega
  have deleted := (k.setMemory m').heapDelEntry_indexed inside
  have heap : ((k.setMemory m').heapDelEntry (some i)).heap =
      { k.heap with entrycount := k.heap.entrycount - 1 } := heapDelEntry_heap _ _
  rw [footer, last, joint, setMemory_setMemory, position, heap, if_pos (by rfl)] at settled
  have slots : (k.setMemory m').slot (k.setMemory m').heap.entrycount ≤ k.heap.start :=
    wf.slot_le wf.capacity
  have kept (stop' : Nat) : Bytes.Same k.heap.start stop' m'
      ((k.setMemory m').heapDelEntry (some i)).memory :=
    heapDelEntry_same (k.setMemory m') (some i) stop' slots
  have positive : 0 < total Block.size (before ++ [b, x]) := by
    unfold headerSize at large
    omega
  refine ⟨_, settled, ?_, ?_, ?_⟩
  · apply reaches_of_header ((k.setMemory m').heapDelEntry (some i)) wf rfl positive
    · rw [heap]
    · have out := ((k.setMemory m').entry_cons_eraseIdx_perm inside).trans
        ((List.Perm.of_eq index').trans perm)
      rw [entry] at out
      rw [deleted.index]
      refine (out.trans List.perm_append_comm).cons_inv.trans (List.Perm.of_eq ?_)
      exact List.append_nil _
    · apply looks'.same
      exact (kept _).mono (Nat.le_add_right ..) (Nat.le_refl _)
    · exact (only'.same (.inl (Nat.le_refl _))).trans (kept _)
  · rw [heap]
    have one : 1 ≤ k.heap.entrycount := Nat.one_le_of_lt inside
    show k.heap.entrycount - 1 + 1 = k.heap.entrycount
    omega
  · have first : Bytes.Same (k.heap.start + total Block.size left + headerSize) k.heap.end_ m m' := by
      rw [← stored]
      exact Bytes.same_store _ _ (.inr (Nat.le_refl _))
    exact first.trans ((kept _).mono (by omega) (Nat.le_refl _))

/-! ## When the joined hole shrinks with the heap -/

/-- The bounds of the heap after it has shrunk. -/
theorem Reaches.shrink_heap {space : Nat} {middle : List Block}
    (reaches : Reaches k k' left before space) (wf : k.WellFormed (left ++ middle))
    (pages : k.WholePages) :
    (k'.shrink (k.heap.start + total Block.size left)).heap = { k.heap with
      end_ := k.heap.start + keptSize (total Block.size left)
      entrycount := (k'.shrink (k.heap.start + total Block.size left)).heap.entrycount } := by
  obtain ⟨heap, _⟩ := reaches.contracted wf pages
  obtain ⟨_, _, offset⟩ := reaches.atEnd.heap_size
  have heap' : (k'.contractHeap (total Block.size left)).1.heap = { k.heap with
      end_ := k.heap.start + keptSize (total Block.size left)
      entrycount := k'.heap.entrycount } := by
    rw [heap, reaches.heap]
  rcases k'.shrink_cases (k.heap.start + total Block.size left) with ⟨size, footer, stored⟩ | taken
  · rw [stored, offset, setMemory_heap, heap']
  · rw [taken, offset, heapDelEntry_heap, heap']

/-- The number of entries until then. -/
theorem Reaches.entrycount {space : Nat} (reaches : Reaches k k' left before space) :
    k'.heap.entrycount = left.countP Block.hole + before.countP Block.hole := by
  rw [← length_index, reaches.index.length_eq, length_holes, List.countP_append]

/-- What remains ends where the heap does. -/
theorem EndsIn.total_rest {rest : List Block} {stop : Nat} (ends : EndsIn k k' left rest)
    (end_ : k'.heap.end_ = k.heap.start + stop) :
    total Block.size left + total Block.size rest = stop := by
  have last := ends.wellFormed.tiles.stop_eq
  rw [end_, ends.start, total_append] at last
  omega

/-- There is one hole at most when not more than one has been entered. -/
theorem EndsIn.atMostAHole {rest : List Block} (ends : EndsIn k k' left rest)
    (few : k'.heap.entrycount ≤ left.countP Block.hole + 1) : AtMostAHole rest := by
  have all : rest.countP Block.hole = rest.length := List.countP_eq_length.mpr ends.areHoles
  rw [ends.wellFormed.entrycount_eq, List.countP_append, all] at few
  cases rest with
  | nil => exact .inl rfl
  | cons hole rest =>
    have none : rest.length = 0 := by
      rw [List.length_cons] at few
      omega
    rw [List.length_eq_zero_iff.mp none]
    exact .inr ⟨hole, rfl, ends.areHoles hole List.mem_cons_self⟩

/-- When there is a hole before the block. -/
theorem shrunk_behind_iff {first : Block} {middle : List Block} {space : Nat}
    (reaches : Reaches k k' left [first] space) (wf : k.WellFormed (left ++ middle))
    (pages : k.WholePages) (isHole : first.hole = true)
    (capacity : k'.heap.entrycount ≤ k.heap.maxentries) :
    (∃ rest, Shrunk k (k'.shrink (k.heap.start + total Block.size left)) left rest) ↔
      keptSize (total Block.size left) = total Block.size left ∨
        total Block.size left + (headerSize + footerSize) ≤ keptSize (total Block.size left) ∧
          space < sizeWidth := by
  obtain ⟨heap, index, above, least, below, few⟩ := reaches.contracted wf pages
  have heap' := reaches.shrink_heap wf pages
  constructor
  · rintro ⟨rest, shrunk⟩
    have ends := shrunk.endsIn.total_rest (by rw [heap'])
    rcases shrunk.remains with rfl | ⟨hole, rfl, isHole'⟩
    · exact .inl ends.symm
    · have single : total Block.size [hole] = hole.size := rfl
      have large := hole.large
      refine .inr ⟨by omega, ?_⟩
      by_contra big
      -- Then the entry of the hole is taken out.
      have gone := shrink_of_drop reaches.atEnd (reaches.pages pages) (fun keeps => big keeps.2)
      have listed : k.heap.start + total Block.size left ∈
          (k'.contractHeap (total Block.size left)).1.index := by
        rw [index]
        refine reaches.index.mem_iff.mpr (mem_holes.mpr ⟨first, isHole, ?_⟩)
        exact mem_places.mpr ⟨left, [], rfl, rfl⟩
      obtain ⟨i, _, position, _⟩ := heapFindEntry_of_mem listed
      have count := shrunk.wellFormed.entrycount_eq
      have count' := reaches.entrycount
      rw [gone, position, heapDelEntry_heap, heap, List.countP_append,
        List.countP_cons_of_pos isHole'] at count
      rw [List.countP_cons_of_pos isHole] at count'
      have less : k'.heap.entrycount - 1 = List.countP Block.hole left + 1 := count
      rw [List.countP_nil] at count'
      omega
  · rintro (nothing | ⟨remains, small⟩)
    · exact ⟨[], shrunk_gone wf pages isHole reaches nothing capacity⟩
    · have short := reaches.shortened wf pages remains small capacity
      exact short.behind wf isHole remains few least below capacity

/-- A size that does not fit its field is cut to what remains, and the payload holds a footer at
the right place. -/
def CutToFit (k : KernelHeap) (used space : Nat) : Prop :=
  space = sizeWidth + (keptSize used - used) ∧
    magicAt k.memory (k.heap.start + keptSize used - footerSize) = mmMagic ∧
    headerAt k.memory (k.heap.start + keptSize used - footerSize) = k.heap.start + used

/-- The block was not listed, so that nothing is taken out when the test says that nothing of the
hole remains. -/
theorem Reaches.dropped {middle : List Block} {space : Nat} (reaches : Reaches k k' left [] space)
    (wf : k.WellFormed (left ++ middle)) (pages : k.WholePages)
    (drops : ¬(total Block.size left < keptSize (total Block.size left) ∧ space < sizeWidth)) :
    k'.shrink (k.heap.start + total Block.size left) =
      (k'.contractHeap (total Block.size left)).1 := by
  obtain ⟨heap, index, above, least, below, few⟩ := reaches.contracted wf pages
  have unlisted : k.heap.start + total Block.size left ∉
      (k'.contractHeap (total Block.size left)).1.index := by
    rw [index, reaches.index.mem_iff, List.append_nil]
    intro member
    have bounds := bounds_of_mem_holes (tiles_append.mp wf.tiles).1 member
    unfold headerSize at bounds
    omega
  rw [shrink_of_drop reaches.atEnd (reaches.pages pages) drops, heapFindEntry_of_not_mem unlisted]
  rfl

/-- When there is no hole before the block, and only holes are left at the end. -/
theorem Reaches.remains_of_endsIn {middle rest : List Block} {space : Nat}
    (reaches : Reaches k k' left [] space) (wf : k.WellFormed (left ++ middle))
    (pages : k.WholePages) (capacity : k'.heap.entrycount ≤ k.heap.maxentries)
    (payload : Bytes.Same (k.heap.start + total Block.size left + headerSize) k.heap.end_ k.memory
      k'.memory)
    (ends : EndsIn k ((k'.shrink (k.heap.start + total Block.size left)).heapAddEntry
      (k.heap.start + total Block.size left)) left rest) :
    total Block.size left + (headerSize + footerSize) ≤ keptSize (total Block.size left) ∧
      k'.heap.entrycount < k.heap.maxentries ∧
      (space < sizeWidth ∨ k.CutToFit (total Block.size left) space) := by
  obtain ⟨heap, index, above, least, below, few⟩ := reaches.contracted wf pages
  have memory := (k'.contractHeap_memory (total Block.size left)).1
  have inRange := wf.inRange
  have heap' := reaches.shrink_heap wf pages
  have count := reaches.entrycount
  rw [List.countP_nil, Nat.add_zero] at count
  have dropped := reaches.dropped wf pages
  have contracted : (k'.contractHeap (total Block.size left)).1.heap = { k.heap with
      end_ := k.heap.start + keptSize (total Block.size left)
      entrycount := k'.heap.entrycount } := by
    rw [heap, reaches.heap]
  have last := ends.total_rest (by rw [heapAddEntry_heap, heap'])
  have remains : AtMostAHole rest := by
    apply ends.atMostAHole
    rw [heapAddEntry_heap, ← count]
    exact Nat.add_le_add_right (shrink_entrycount_le ..) 1
  have entries := ends.wellFormed.entrycount_eq
  have room := ends.wellFormed.capacity
  rw [heapAddEntry_heap] at entries room
  rw [List.countP_append] at entries
  rcases remains with rfl | ⟨hole, rfl, isHole⟩
  · rw [dropped (fun keeps => by rw [total] at last; omega), contracted] at entries
    have one : k'.heap.entrycount + 1 = List.countP Block.hole left := entries
    omega
  · have single : total Block.size [hole] = hole.size := rfl
    have large := hole.large
    have remains : total Block.size left + (headerSize + footerSize) ≤
        keptSize (total Block.size left) := by omega
    by_cases small : space < sizeWidth
    · have short := reaches.shortened wf pages remains small capacity
      rw [short.heap] at room
      exact ⟨remains, room, .inl small⟩
    · have drop := dropped (fun keeps => small keeps.2)
      rw [drop] at ends
      rw [drop, contracted] at room
      refine ⟨remains, room, .inr ?_⟩
      have slots : (k'.contractHeap (total Block.size left)).1.slot
          ((k'.contractHeap (total Block.size left)).1.heap.entrycount + 1) ≤ k.heap.start := by
        rw [slot, contracted]
        exact wf.slot_le room
      have kept := heapAddEntry_same (k'.contractHeap (total Block.size left)).1 k.heap.end_
        (show k.heap.start + total Block.size left < uintWidth by omega) slots
      rw [memory] at kept
      have wf' := ends.wellFormed
      have tagged := wf'.tagged
      rw [ends.start] at tagged
      have ends' : k.heap.start + total Block.size left + space = k.heap.end_ := by
        have ends := reaches.atEnd.ends
        rwa [reaches.heap] at ends
      have place : k.heap.start + total Block.size left + hole.size - footerSize =
          k.heap.start + keptSize (total Block.size left) - footerSize := by omega
      have word {a : Nat} (low : k.heap.start + total Block.size left + headerSize ≤ a)
          (high : a + 4 ≤ k.heap.end_) :
          ((k'.contractHeap (total Block.size left)).1.heapAddEntry
            (k.heap.start + total Block.size left)).memory.word a = k.memory.word a :=
        (Bytes.word_congr kept (by omega) high).trans (Bytes.word_congr payload low high)
      have footer := tagged.footerMagic
      have footer' := tagged.footerHeader
      have size := tagged.size
      rw [place, magicAt, word (by omega) (by unfold footerSize at *; omega)] at footer
      rw [place, headerAt, word (by omega) (by unfold footerSize at *; omega)] at footer'
      have first := reaches.atEnd.size
      have eight : headerSize = 8 := rfl
      rw [sizeAt, Bytes.word_congr kept (by omega) (by omega)] at size
      rw [sizeAt, size] at first
      unfold uintWidth at inRange
      refine ⟨?_, footer, footer'⟩
      unfold sizeWidth at *
      omega

/-- When there is no hole before the block, and a header and a footer or more remain of it. -/
theorem Reaches.shrunk_of_remains {middle : List Block} {space : Nat}
    (reaches : Reaches k k' left [] space) (wf : k.WellFormed (left ++ middle))
    (pages : k.WholePages) (capacity : k'.heap.entrycount ≤ k.heap.maxentries)
    (payload : Bytes.Same (k.heap.start + total Block.size left + headerSize) k.heap.end_ k.memory
      k'.memory)
    (remains : total Block.size left + (headerSize + footerSize) ≤
      keptSize (total Block.size left)) (room : k'.heap.entrycount < k.heap.maxentries)
    (fits : space < sizeWidth ∨ k.CutToFit (total Block.size left) space) :
    ∃ rest, Shrunk k ((k'.shrink (k.heap.start + total Block.size left)).heapAddEntry
      (k.heap.start + total Block.size left)) left rest := by
  obtain ⟨heap, index, above, least, below, few⟩ := reaches.contracted wf pages
  have memory := (k'.contractHeap_memory (total Block.size left)).1
  have contracted : (k'.contractHeap (total Block.size left)).1.heap = { k.heap with
      end_ := k.heap.start + keptSize (total Block.size left)
      entrycount := k'.heap.entrycount } := by
    rw [heap, reaches.heap]
  rcases fits with small | ⟨size, footer, footer'⟩
  · have short := reaches.shortened wf pages remains small capacity
    exact short.alone wf remains few least below room
  · rw [reaches.dropped wf pages (fun keeps => by omega)]
    have place : k.heap.start + total Block.size left +
        (keptSize (total Block.size left) - total Block.size left) - footerSize =
        k.heap.start + keptSize (total Block.size left) - footerSize := by omega
    have word {a : Nat} (low : k.heap.start + total Block.size left + headerSize ≤ a)
        (high : a + 4 ≤ k.heap.end_) :
        (k'.contractHeap (total Block.size left)).1.memory.word a = k.memory.word a := by
      rw [memory]
      exact Bytes.word_congr payload low high
    have short : Shortened k (k'.contractHeap (total Block.size left)).1 left []
        k'.heap.entrycount := by
      refine ⟨contracted, ?_, ⟨?_, ?_, ?_, ?_, ?_⟩, ?_⟩
      · rw [index]
        exact reaches.index
      · rw [memory]
        exact reaches.atEnd.magic
      · rw [memory, reaches.atEnd.size, size, Nat.add_mod_left]
      · rw [memory]
        exact reaches.atEnd.flag
      · rw [place, magicAt, word (by omega) (by unfold footerSize at *; omega)]
        exact footer
      · rw [place, headerAt, word (by omega) (by unfold footerSize at *; omega)]
        exact footer'
      · rw [memory]
        exact reaches.low
    exact short.alone wf remains few least below room

/-- When all of the heap is freed, one hole remains. -/
theorem Shrunk.exists_hole {rest : List Block} (shrunk : Shrunk k k' [] rest) :
    ∃ hole : Block, hole.hole = true ∧ k'.heap.entrycount = 1 ∧
      k.heap.start + hole.size = k'.heap.end_ ∧ Tagged k'.memory k.heap.start hole := by
  have ends := shrunk.wellFormed.tiles.stop_eq
  have inRange := shrunk.wellFormed.inRange
  have least := shrunk.atLeast
  have start := shrunk.start
  rw [List.nil_append] at ends
  rcases shrunk.remains with rfl | ⟨hole, rfl, isHole⟩
  · have size : k'.heap.size = 0 := by
      have whole : k'.heap.size = k'.heap.end_ - k'.heap.start :=
        usub_of_le (by rw [ends]; exact Nat.le_add_right ..) inRange
      rw [whole, ends]
      exact Nat.sub_self _
    rw [size] at least
    exact absurd least (by decide)
  · have wf := shrunk.wellFormed
    have tagged := wf.tagged
    have count := wf.entrycount_eq
    rw [List.nil_append, List.countP_cons_of_pos isHole, List.countP_nil] at count
    rw [start] at ends tagged
    exact ⟨hole, isHole, count, ends.symm, tagged⟩

/-- `heap_free` does not make a hole of the whole heap when it shrinks at an address before it. -/
theorem Strayed.not_shrink {found : Nat} {hole : Block} (strayed : Strayed k b found m)
    (before : found + 4 < k.heap.start) (tagged : Tagged k.memory (k.heap.start + b.size) x)
    (inRange : k.heap.end_ < uintWidth) (whole : k.heap.start + (b.size + x.size) = k.heap.end_)
    (ends : k.heap.start + hole.size = ((k.setMemory m).shrink found).heap.end_)
    (tagged' : Tagged ((k.setMemory m).shrink found).memory k.heap.start hole) :
    k.heap.entrycount ≠ ((k.setMemory m).shrink found).heap.entrycount := by
  have large := b.large
  have large' := x.large
  have eight : headerSize = 8 := rfl
  have eight' : footerSize = 8 := rfl
  have size : k.heap.size = k.heap.end_ - k.heap.start := usub_of_le (by omega) inRange
  have far : k.heap.size ≤ usub found k.heap.start := by
    rw [size]
    unfold usub uintWidth at *
    omega
  obtain ⟨kept, heap⟩ := contractHeap_of_size_le (k := k.setMemory m) far
  have memory := ((k.setMemory m).contractHeap_memory (usub found k.heap.start)).1
  have bounds : ((k.setMemory m).shrink found).heap.end_ = k.heap.end_ →
      hole.size = b.size + x.size := by
    intro same
    omega
  rcases (k.setMemory m).shrink_cases found with ⟨space, footer, stored⟩ | taken
  · have start : (k.setMemory m).heap.start = k.heap.start := rfl
    rw [start, memory] at stored
    have size' := bounds (by rw [stored, setMemory_heap, heap]; rfl)
    have strayed' := strayed.again space
    have memory' : ((k.setMemory m).shrink found).memory =
        setHeader (setMagic (setSize m found space) footer) found footer := by
      rw [stored]
      rfl
    generalize setSize m found space = m' at memory' strayed'
    rw [memory'] at tagged'
    have word {a : Nat} (apart : a + 4 ≤ footer ∨ footer + 8 ≤ a) :
        (setHeader (setMagic m' footer) found footer).word a = m'.word a := by
      rw [setHeader, setMagic, Bytes.word_store_of_apart _ _ (by omega),
        Bytes.word_store_of_apart _ _ (by omega)]
    have header := tagged'.size
    have last := tagged'.footerHeader
    rw [size', ← Nat.add_assoc] at last
    rw [size'] at header
    -- The footer that is stored cannot be in the header and in the footer of the hole.
    by_cases apart : k.heap.start + 8 ≤ footer ∨ footer + 8 ≤ k.heap.start + 4
    · have kept := strayed'.size (.inr (by omega))
      rw [sizeAt, word (by omega)] at header
      have same : sizeAt m' k.heap.start = b.size + x.size := header
      omega
    · rw [eight', headerAt, word (by omega), strayed'.words _ (by omega) (by omega) (by omega)]
        at last
      have old : k.memory.word (k.heap.start + b.size + x.size - 8 + 4) = k.heap.start + b.size :=
        tagged.footerHeader
      omega
  · have start : (k.setMemory m).heap.start = k.heap.start := rfl
    rw [start] at taken
    by_cases listed : found ∈ ((k.setMemory m).contractHeap (usub found k.heap.start)).1.index
    · obtain ⟨i, inside, position, _⟩ := heapFindEntry_of_mem listed
      rw [taken, position, heapDelEntry_heap, heap]
      rw [heap] at inside
      have one : k.heap.entrycount ≠ k.heap.entrycount - 1 := by
        have positive : i < k.heap.entrycount := inside
        omega
      exact one
    · rw [heapFindEntry_of_not_mem listed, heapDelEntry_none] at taken
      have size' := bounds (by rw [taken, heap]; rfl)
      rw [taken, memory] at tagged'
      have header := tagged'.size
      have last := tagged'.footerHeader
      rw [size', ← Nat.add_assoc] at last
      rw [size'] at header
      exact (strayed.not_hole tagged header last).elim

/-- The first block is not freed properly when the words before it look like the footer of a
hole. -/
theorem not_shrunk_of_stray (after : List Block) (wf : k.WellFormed ([] ++ (b :: after)))
    (block : b.hole = false) (next : AtMostAHole after)
    (looks : holeBefore (setFlag k.memory k.heap.start mmFlagHole) k.heap.start)
    {rest : List Block} (shrunk : Shrunk k (k.heapFree (k.heap.start + headerSize)) [] rest) :
    False := by
  have inRange := wf.inRange
  have tagged : Tagged k.memory k.heap.start b := wf.tagged
  have below : k.heap.start + b.size ≤ k.heap.end_ := wf.block_le
  have large := b.large
  have live : ¬b.hole = true := by
    rw [block]
    exact Bool.false_ne_true
  obtain ⟨m, found, stored, strayed⟩ := strayed_joinBefore tagged
  obtain ⟨hole, _, count, ends, tagged'⟩ := shrunk.exists_hole
  have freed := heapFree_eq tagged (Nat.lt_of_le_of_lt below inRange)
  rw [if_pos looks, stored] at freed
  rw [freed] at count ends tagged'
  dsimp only at count ends tagged'
  have count' := wf.entrycount_eq
  have fewer : ((k.setMemory m).settle found (k.heap.start + b.size - footerSize)).heap.entrycount ≤
      k.heap.entrycount := settle_entrycount_le ..
  rw [List.nil_append, List.countP_cons_of_neg live] at count'
  rcases next with rfl | ⟨x, rfl, isHole⟩
  · rw [List.countP_nil] at count'
    omega
  · have wf₂ : k.WellFormed ([] ++ [b] ++ x :: []) := wf
    have next : Tagged k.memory (k.heap.start + b.size) x := wf₂.tagged
    have whole : k.heap.end_ = k.heap.start + (b.size + x.size) := wf.tiles.stop_eq
    have large' := x.large
    have sixteen : headerSize + footerSize = 16 := rfl
    have enough : footerSize ≤ k.heap.start + b.size := by omega
    by_cases joins : holeAt m (k.heap.start + b.size)
    · have settled := settle_of_holeAt (k.setMemory m) found joins enough (by omega)
      obtain ⟨m', stored', joint, footer⟩ :=
        (k.setMemory m).joinAfter_eq found (k.heap.start + b.size)
      rw [setMemory_setMemory] at joint
      have strayed' : Strayed k b found m' := by
        rw [← stored']
        exact strayed.again _
      by_cases listed : k.heap.start + b.size ∈ (k.setMemory m').index
      · -- An entry is taken out, and none is added.
        obtain ⟨i, _, position, _⟩ := heapFindEntry_of_mem listed
        rw [position] at joint
        have one : ((k.setMemory m).joinAfter found (k.heap.start + b.size)).1.heap.entrycount =
            k.heap.entrycount - 1 := by
          rw [joint, heapDelEntry_heap]
          rfl
        have less := shrink_entrycount_le
          ((k.setMemory m).joinAfter found (k.heap.start + b.size)).1 found
        rw [List.countP_cons_of_pos isHole, List.countP_nil] at count'
        rw [settled] at count
        split at count <;> omega
      · rw [heapFindEntry_of_not_mem listed, heapDelEntry_none] at joint
        have there : k.heap.start + b.size ∈ k.index := by
          refine wf.index.mem_iff.mpr (mem_holes.mpr ⟨x, isHole, ?_⟩)
          exact mem_places.mpr ⟨[b], [], rfl, rfl⟩
        have low := strayed'.below_start wf b.large there listed
        have sizes : sizeAt m' (k.heap.start + b.size) = x.size := by
          unfold headerSize footerSize at large large'
          rw [sizeAt, strayed'.words _ (by omega) (by omega) (by omega)]
          exact next.size
        rw [← stored'] at sizes
        have last := joinAfter_footer (k := k.setMemory m) sizes (by omega) (by omega)
        have stop : k.heap.start + b.size + x.size = (k.setMemory m').heap.end_ := by
          show _ = k.heap.end_
          omega
        rw [last, joint, if_pos stop] at settled
        rw [settled] at count ends tagged'
        apply strayed'.not_shrink low next inRange whole.symm ends tagged'
        rw [count, count', List.countP_cons_of_pos isHole, List.countP_nil]
    · have settled := settle_of_not_holeAt (k.setMemory m) found joins enough (by omega)
      rw [settled, if_neg (by show k.heap.start + b.size ≠ k.heap.end_; omega)] at ends tagged'
      have size : hole.size = b.size + x.size := by
        have same : k.heap.start + hole.size = k.heap.end_ := ends
        omega
      have footer := tagged'.footerHeader
      have header := tagged'.size
      rw [size, ← Nat.add_assoc] at footer
      rw [size] at header
      exact strayed.not_hole next header footer

/-- What is behind the heap looks like a hole with a size, which is added to that of the freed
block, and the heap does not shrink. -/
theorem settle_of_false_end {space : Nat} (wf : k.WellFormed (left ++ before))
    (wide : k.heap.start + total Block.size left + headerSize ≤ k.heap.end_)
    (looks : HeaderFrom m (k.heap.start + total Block.size left) space)
    (only : Bytes.OnlyIn (k.heap.start + total Block.size left) k.heap.end_ k.memory m)
    (hole : holeAt k.memory k.heap.end_) (sized : sizeAt k.memory k.heap.end_ ≠ 0) :
    ∃ m', (k.setMemory m).settle (k.heap.start + total Block.size left)
        (k.heap.end_ - footerSize) = k.setMemory m' ∧
      sizeAt m' (k.heap.start + total Block.size left) =
        (space + sizeAt k.memory k.heap.end_) % sizeWidth := by
  have inRange := wf.inRange
  have low := wf.start_ge
  have page : footerSize ≤ frameSize := by decide
  have enough : footerSize ≤ k.heap.end_ := by
    unfold headerSize at wide
    omega
  have behind {m' : Bytes} (only' : Bytes.OnlyIn (k.heap.start + total Block.size left) k.heap.end_
      k.memory m') (a : Nat) (high : k.heap.end_ ≤ a) : m'.word a = k.memory.word a :=
    only'.word (.inr high)
  have hole' : holeAt m k.heap.end_ := by
    unfold holeAt magicAt flagAt
    rw [behind only _ (Nat.le_refl _), behind only _ (Nat.le_add_right ..)]
    exact hole
  have size : sizeAt m k.heap.end_ = sizeAt k.memory k.heap.end_ := by
    rw [sizeAt, behind only _ (Nat.le_add_right ..)]
    rfl
  have settled := settle_of_holeAt (k.setMemory m) (k.heap.start + total Block.size left) hole'
    enough inRange
  obtain ⟨m', stored, joint, footer⟩ :=
    (k.setMemory m).joinAfter_eq (k.heap.start + total Block.size left) k.heap.end_
  have only' : Bytes.OnlyIn (k.heap.start + total Block.size left) k.heap.end_ k.memory m' := by
    unfold headerSize at wide
    rw [← stored]
    exact only.store _ (by omega) (by omega)
  have size' : sizeAt m' k.heap.end_ = sizeAt k.memory k.heap.end_ := by
    rw [sizeAt, behind only' _ (Nat.le_add_right ..)]
    rfl
  have unlisted : k.heap.end_ ∉ (k.setMemory m').index := by
    rw [wf.index_setMemory only' (Nat.le_add_right ..), wf.index.mem_iff]
    intro member
    have bounds := bounds_of_mem_holes wf.tiles member
    unfold headerSize at bounds
    omega
  have small := sizeAt_lt k.memory k.heap.end_
  have away : uadd (usub (uadd k.heap.end_ (sizeAt k.memory k.heap.end_)) footerSize) footerSize ≠
      k.heap.end_ := by
    unfold uadd usub footerSize
    unfold uintWidth at *
    unfold sizeWidth at small
    omega
  rw [setMemory_setMemory, heapFindEntry_of_not_mem unlisted, heapDelEntry_none] at joint
  rw [size'] at footer
  rw [footer, joint, if_neg (by exact away)] at settled
  refine ⟨m', settled, ?_⟩
  have grown := (looks.add (sizeAt m k.heap.end_)).size
  rw [← size, ← stored]
  exact grown

/-- In a heap that has not shrunk, the freed block would have to be a hole of its size. -/
theorem EndsIn.size_of_end {rest : List Block} {space : Nat} {middle : List Block}
    (ends : EndsIn k k' left rest) (remains : AtMostAHole rest)
    (wf : k.WellFormed (left ++ middle)) (whole : total Block.size middle = space)
    (positive : 0 < space) (end_ : k'.heap.end_ = k.heap.end_) :
    sizeAt k'.memory (k.heap.start + total Block.size left) = space ∧ space < sizeWidth := by
  have last := wf.tiles.stop_eq
  have last' := ends.wellFormed.tiles.stop_eq
  rw [total_append] at last last'
  rw [end_, ends.start] at last'
  rcases remains with rfl | ⟨hole, rfl, isHole⟩
  · rw [show total Block.size ([] : List Block) = 0 from rfl] at last'
    omega
  · have wf' := ends.wellFormed
    have tagged := wf'.tagged
    rw [ends.start] at tagged
    have single : total Block.size [hole] = hole.size := rfl
    have small := hole.small
    have size : hole.size = space := by omega
    rw [tagged.size, size]
    exact ⟨rfl, by omega⟩

/-- A header of a hole. -/
theorem HoleFrom.header {address space : Nat} (looks : HoleFrom m address space) :
    HeaderFrom m address space := ⟨looks.magic, looks.size, looks.flag⟩

/-- What is behind the heap is not taken for a hole with a size. -/
def EndClear (k : KernelHeap) : Prop :=
  holeAt k.memory k.heap.end_ → sizeAt k.memory k.heap.end_ = 0

/-- A block with a hole before it. -/
theorem shrinks_behind_iff {first : Block} {after : List Block}
    (wf : k.WellFormed (left ++ ([first] ++ b :: after))) (pages : k.WholePages)
    (isHole : first.hole = true) (block : b.hole = false) (next : AtMostAHole after) :
    (∃ rest, Shrunk k
      (k.heapFree (k.heap.start + total Block.size left + first.size + headerSize)) left rest) ↔
      (after = [] → k.EndClear) ∧
        (keptSize (total Block.size left) = total Block.size left ∨
          total Block.size left + (headerSize + footerSize) ≤ keptSize (total Block.size left) ∧
            total Block.size ([first] ++ b :: after) < sizeWidth) := by
  have wf₁ : k.WellFormed (left ++ first :: (b :: after)) := wf
  have wf₂ : k.WellFormed (left ++ [first] ++ b :: after) := by rwa [List.append_cons] at wf₁
  have tagged := wf₁.tagged
  have second := wf₂.tagged
  have below := wf₂.block_le
  rw [total_append, show total Block.size [first] = first.size from rfl, ← Nat.add_assoc]
    at second below
  have inRange := wf.inRange
  have large := b.large
  have large' := first.large
  have joined : total Block.size ([first] ++ [b]) = first.size + b.size := rfl
  obtain ⟨m, freed, looks, only⟩ := heapFree_behind isHole tagged second (by omega)
  rcases next with rfl | ⟨x, rfl, isHole'⟩
  · have ends : k.heap.start + total Block.size left + first.size + b.size = k.heap.end_ := by
      have stop := wf.tiles.stop_eq
      rw [total_append, joined] at stop
      omega
    rw [ends] at only freed
    by_cases clear : k.EndClear
    · obtain ⟨k₁, settled, reaches, count, _⟩ :=
        settle_of_last wf block looks.header only clear
      rw [freed, settled, shrunk_behind_iff reaches wf pages isHole
        (by rw [count]; exact wf.capacity)]
      exact ⟨fun fits => ⟨fun _ => clear, fits⟩, And.right⟩
    · obtain ⟨hole, sized⟩ := Classical.not_imp.mp clear
      constructor
      · rintro ⟨rest, shrunk⟩
        obtain ⟨m', settled, size⟩ :=
          settle_of_false_end wf (by omega) looks.header only hole sized
        rw [freed, settled] at shrunk
        obtain ⟨same, small⟩ := shrunk.endsIn.size_of_end shrunk.remains wf joined
          (by unfold headerSize at large; omega) rfl
        have less := sizeAt_lt k.memory k.heap.end_
        have both : (first.size + b.size + sizeAt k.memory k.heap.end_) % sizeWidth =
            first.size + b.size := size.symm.trans same
        unfold sizeWidth at *
        omega
      · rintro ⟨clear', _⟩
        exact absurd (clear' rfl) clear
  · obtain ⟨k₁, settled, reaches, count, _⟩ := settle_of_last_hole [first] _ wf block
      isHole' (by rw [joined]; exact (Nat.add_assoc ..).symm) looks.header only
    rw [freed, settled, shrunk_behind_iff reaches wf pages isHole
      (by have capacity := wf.capacity; omega)]
    exact ⟨fun fits => ⟨(fun none => by cases none), fits⟩, And.right⟩

/-- `heap_free` of a block without a hole before it, at the end of the heap. -/
theorem freed_alone_of_endClear {after : List Block} (wf : k.WellFormed (left ++ ([] ++ b :: after)))
    (clear : ¬holeBefore (setFlag k.memory (k.heap.start + total Block.size left) mmFlagHole)
      (k.heap.start + total Block.size left)) (block : b.hole = false) (next : AtMostAHole after)
    (behind : after = [] → k.EndClear) :
    ∃ k₁, k.heapFree (k.heap.start + total Block.size left + headerSize) =
        (k₁.shrink (k.heap.start + total Block.size left)).heapAddEntry
          (k.heap.start + total Block.size left) ∧
      Reaches k k₁ left [] (total Block.size ([] ++ b :: after)) ∧
      k₁.heap.entrycount + after.length = k.heap.entrycount ∧
      Bytes.Same (k.heap.start + total Block.size left + headerSize) k.heap.end_ k.memory
        k₁.memory := by
  have wf₁ : k.WellFormed (left ++ b :: after) := wf
  have tagged := wf₁.tagged
  have below := wf₁.block_le
  have inRange := wf.inRange
  have large := b.large
  obtain ⟨m, freed, looks, only'⟩ :=
    heapFree_alone tagged (Nat.lt_of_le_of_lt below inRange) clear
  have only : Bytes.OnlyIn (k.heap.start + total Block.size left)
      (k.heap.start + total Block.size left + b.size) k.memory m :=
    only'.mono (Nat.le_refl _) (by omega)
  have payload : Bytes.Same (k.heap.start + total Block.size left + headerSize) k.heap.end_
      k.memory m := only'.same (.inr (Nat.le_refl _))
  rcases next with rfl | ⟨x, rfl, isHole'⟩
  · have ends : k.heap.start + total Block.size left + b.size = k.heap.end_ := by
      have stop := wf₁.tiles.stop_eq
      rw [total_append, show total Block.size [b] = b.size from rfl] at stop
      omega
    rw [ends] at only freed
    obtain ⟨k₁, settled, reaches, count, kept⟩ :=
      settle_of_last wf block looks.header only (behind rfl)
    rw [freed, settled]
    exact ⟨k₁, rfl, reaches, count, payload.trans kept⟩
  · obtain ⟨k₁, settled, reaches, count, kept⟩ := settle_of_last_hole []
      (k.heap.start + total Block.size left + b.size) wf block isHole' rfl looks.header only
    rw [freed, settled]
    exact ⟨k₁, rfl, reaches, count, payload.trans kept⟩

/-- The last block does not become a hole of its size when what is behind the heap is taken for a
hole with a size. -/
theorem not_endsIn_of_false_end (wf : k.WellFormed (left ++ ([] ++ [b])))
    (clear : ¬holeBefore (setFlag k.memory (k.heap.start + total Block.size left) mmFlagHole)
      (k.heap.start + total Block.size left)) (block : b.hole = false) (behind : ¬k.EndClear)
    {rest : List Block}
    (ends : EndsIn k (k.heapFree (k.heap.start + total Block.size left + headerSize)) left rest) :
    False := by
  have wf₁ : k.WellFormed (left ++ [b]) := wf
  have tagged := wf₁.tagged
  have below := wf₁.block_le
  have inRange := wf.inRange
  have large := b.large
  have eight : headerSize = 8 := rfl
  obtain ⟨hole, sized⟩ := Classical.not_imp.mp behind
  obtain ⟨m, freed, looks, only'⟩ :=
    heapFree_alone tagged (Nat.lt_of_le_of_lt below inRange) clear
  have stop : k.heap.start + total Block.size left + b.size = k.heap.end_ := by
    have last := wf₁.tiles.stop_eq
    rw [total_append, show total Block.size [b] = b.size from rfl] at last
    omega
  have only : Bytes.OnlyIn (k.heap.start + total Block.size left) k.heap.end_ k.memory m :=
    only'.mono (Nat.le_refl _) (by omega)
  rw [stop] at freed
  obtain ⟨m', settled, size⟩ := settle_of_false_end wf (by omega) looks.header only hole sized
  rw [freed, settled] at ends
  have count : k.heap.entrycount = left.countP Block.hole := by
    have live : ¬b.hole = true := by
      rw [block]
      exact Bool.false_ne_true
    rw [wf₁.entrycount_eq, List.countP_append, List.countP_cons_of_neg live, List.countP_nil]
    exact Nat.add_zero _
  have remains : AtMostAHole rest := by
    apply ends.atMostAHole
    rw [heapAddEntry_heap, ← count]
    exact Nat.le_refl _
  have high : (k.setMemory m').slot ((k.setMemory m').heap.entrycount + 1) ≤
      k.heap.start + 4 := by
    have slots := wf.slot_le wf.capacity
    unfold slot at *
    rw [setMemory_heap]
    omega
  have kept := heapAddEntry_same (k.setMemory m') k.heap.end_
    (show k.heap.start + total Block.size left < uintWidth by omega) high
  have single : total Block.size ([] ++ [b]) = b.size := rfl
  obtain ⟨same, small⟩ := ends.size_of_end remains wf single (by omega)
    (by rw [heapAddEntry_heap]; rfl)
  rw [sizeAt, Bytes.word_congr kept (by omega) (by omega)] at same
  have less := sizeAt_lt k.memory k.heap.end_
  have both : (b.size + sizeAt k.memory k.heap.end_) % sizeWidth = b.size :=
    size.symm.trans same
  unfold sizeWidth at *
  omega

/-- A block without a hole before it that reaches the end of the heap, with the hole after it: it
leaves a header and a footer or more below the new end, and the index has room. -/
def EndsAlone (k : KernelHeap) (used entrycount space : Nat) : Prop :=
  used + (headerSize + footerSize) ≤ keptSize used ∧ entrycount < k.heap.maxentries ∧
    (space < sizeWidth ∨ k.CutToFit used space)

/-- When only holes are left at the end, the freed block is one of them. -/
theorem endsAlone_of_endsIn {after rest : List Block}
    (wf : k.WellFormed (left ++ ([] ++ b :: after))) (pages : k.WholePages)
    (clear : ¬holeBefore (setFlag k.memory (k.heap.start + total Block.size left) mmFlagHole)
      (k.heap.start + total Block.size left)) (block : b.hole = false) (next : AtMostAHole after)
    (ends : EndsIn k (k.heapFree (k.heap.start + total Block.size left + headerSize)) left rest) :
    (after = [] → k.EndClear) ∧
      k.EndsAlone (total Block.size left) (k.heap.entrycount - after.length)
        (total Block.size ([] ++ b :: after)) := by
  have behind : after = [] → k.EndClear := by
    rintro rfl
    by_contra stray
    exact not_endsIn_of_false_end wf clear block stray ends
  obtain ⟨k₁, freed, reaches, count, kept⟩ :=
    freed_alone_of_endClear wf clear block next behind
  have capacity := wf.capacity
  rw [freed] at ends
  have remains := reaches.remains_of_endsIn wf pages (by omega) kept ends
  rw [show k₁.heap.entrycount = k.heap.entrycount - after.length by omega] at remains
  exact ⟨behind, remains⟩

/-- The freed block becomes a hole below the new end. -/
theorem shrunk_of_endsAlone {after : List Block} (wf : k.WellFormed (left ++ ([] ++ b :: after)))
    (pages : k.WholePages)
    (clear : ¬holeBefore (setFlag k.memory (k.heap.start + total Block.size left) mmFlagHole)
      (k.heap.start + total Block.size left)) (block : b.hole = false) (next : AtMostAHole after)
    (behind : after = [] → k.EndClear)
    (alone : k.EndsAlone (total Block.size left) (k.heap.entrycount - after.length)
      (total Block.size ([] ++ b :: after))) :
    ∃ rest, Shrunk k (k.heapFree (k.heap.start + total Block.size left + headerSize)) left rest := by
  obtain ⟨remains, room, fits⟩ := alone
  obtain ⟨k₁, freed, reaches, count, kept⟩ :=
    freed_alone_of_endClear wf clear block next behind
  have capacity := wf.capacity
  rw [freed]
  exact reaches.shrunk_of_remains wf pages (by omega) kept remains (by omega) fits

/-- A block without a hole before it. -/
theorem shrinks_alone_iff {after : List Block} (wf : k.WellFormed (left ++ ([] ++ b :: after)))
    (pages : k.WholePages) (endsInUse : EndsInUse left) (block : b.hole = false)
    (next : AtMostAHole after) :
    (∃ rest, Shrunk k (k.heapFree (k.heap.start + total Block.size left + headerSize)) left rest) ↔
      (after = [] → k.EndClear) ∧
        (left = [] → ¬holeBefore (setFlag k.memory k.heap.start mmFlagHole) k.heap.start) ∧
        total Block.size left + (headerSize + footerSize) ≤ keptSize (total Block.size left) ∧
        (after = [] → k.heap.entrycount < k.heap.maxentries) ∧
        (total Block.size ([] ++ b :: after) < sizeWidth ∨
          k.CutToFit (total Block.size left) (total Block.size ([] ++ b :: after))) := by
  by_cases first : left = [] → ¬holeBefore (setFlag k.memory k.heap.start mmFlagHole) k.heap.start
  · have clear := @clear_of_left k b left after wf endsInUse first
    constructor
    · rintro ⟨rest, shrunk⟩
      obtain ⟨behind, remains, room, fits⟩ :=
        endsAlone_of_endsIn wf pages clear block next shrunk.endsIn
      refine ⟨behind, first, remains, ?_, fits⟩
      rintro rfl
      exact room
    · rintro ⟨behind, _, remains, room, fits⟩
      apply shrunk_of_endsAlone wf pages clear block next behind
      refine ⟨remains, ?_, fits⟩
      rcases next with rfl | ⟨x, rfl, isHole'⟩
      · exact room rfl
      · have holes := wf.entrycount_eq
        have capacity := wf.capacity
        rw [List.countP_append, List.nil_append, List.countP_cons, List.countP_cons_of_pos isHole']
          at holes
        rw [List.length_singleton]
        omega
  · obtain ⟨rfl, stray⟩ := Classical.not_imp.mp first
    rw [not_not] at stray
    constructor
    · rintro ⟨rest, shrunk⟩
      exact (not_shrunk_of_stray after wf block next stray shrunk).elim
    · rintro ⟨_, clear, _⟩
      exact absurd stray (clear rfl)

/-- The blocks at the end of the heap that `heap_free` gives back, with the holes next to them. If
there is a hole before the block, either the new end is where that hole begins, or it is a header
and a footer or more behind that, and the size fits its field. If there is none, it is the latter,
and the index has room. What is behind the heap, or before it, is not taken for a hole. -/
def CanShrink (k : KernelHeap) (left before : List Block) (b : Block) (after : List Block) : Prop :=
  (after = [] → k.EndClear) ∧
  (left ++ before = [] →
    ¬holeBefore (setFlag k.memory k.heap.start mmFlagHole) k.heap.start) ∧
  (before = [] →
    total Block.size left + (headerSize + footerSize) ≤ keptSize (total Block.size left) ∧
      (after = [] → k.heap.entrycount < k.heap.maxentries) ∧
      (total Block.size (before ++ b :: after) < sizeWidth ∨
        k.CutToFit (total Block.size left) (total Block.size (before ++ b :: after)))) ∧
  (before ≠ [] → keptSize (total Block.size left) = total Block.size left ∨
    total Block.size left + (headerSize + footerSize) ≤ keptSize (total Block.size left) ∧
      total Block.size (before ++ b :: after) < sizeWidth)

/-- A block in use of the least size of the heap. -/
def blockMin : Block := Block.inUse mmKheapMin (by decide) (by decide)

/-- A block in use of one page. -/
def blockPage : Block := Block.inUse frameSize (by decide) (by decide)

/-- A heap of a block of the least size and one of a page. -/
theorem secondMegabyte_wholePages : (secondMegabyte [blockMin, blockPage]).WholePages := by
  constructor
  · rw [secondMegabyte_heap]
    decide
  · rw [secondMegabyte_heap]
    decide

end KernelHeap

end Nupkux
