import Nupkux.Mm.HeapCreation

/-!
# Allocation from the index

`heap_malloc` when a hole is large enough: the hole leaves the index, the block is put at its
beginning, and what remains is a hole again, unless it would be too small for one; then it
stays with the block.
-/

namespace Nupkux

open Tiling

namespace KernelHeap

variable {k k' : KernelHeap} {before after blocks : List Block} {hole b : Block}
  {header pos size newsize : Nat}

/-! ## The block and what remains -/

/-- `heap_malloc` makes what remains a hole and enters it. -/
theorem splitAfter_eq (k : KernelHeap) (header : Nat) (isHole : b.hole = true)
    (inside : header + b.size ≤ k.heap.end_) (inRange : k.heap.end_ < uintWidth) :
    ∃ m, k.splitAfter header b.size = (k.setMemory m).heapAddEntry header ∧
      Tagged m header b ∧ Bytes.OnlyIn header (header + b.size) k.memory m := by
  have large := b.large
  have small := b.small
  have width : uintWidth = 4294967296 := rfl
  have bits : b.size % sizeWidth = b.size := Nat.mod_eq_of_lt small
  have value : header % 4294967296 = header := Nat.mod_eq_of_lt (by omega)
  have flag : b.flag = mmFlagHole := if_pos isHole
  unfold headerSize footerSize at large
  have footer : usub (uadd header b.size) footerSize = header + b.size - footerSize := by
    rw [uadd_of_lt (by omega)]
    exact usub_of_le (by unfold footerSize; omega) (by omega)
  have below : header + b.size - footerSize < k.heap.end_ := by
    unfold footerSize
    omega
  unfold splitAfter
  dsimp only
  rw [sizeAt_setSize, bits, footer, if_pos below]
  unfold footerSize at *
  refine ⟨_, rfl, ?_, ?_⟩
  · rw [tagged_iff, flag]
    unfold footerSize
    refine ⟨?_, ?_, ?_, ?_⟩
    · simp (disch := omega) only [setMagic, setHeader, setSize, setFlag, Bytes.word_store_self,
        Bytes.word_store_of_apart]
      rfl
    · simp (disch := omega) only [setMagic, setHeader, Bytes.word_store_of_apart, word_setSize,
        bits]
      rw [flagAt_setFlag (by decide)]
    · simp (disch := omega) only [setMagic, setHeader, Bytes.word_store_self,
        Bytes.word_store_of_apart]
      rfl
    · simp (disch := omega) only [setHeader, Bytes.word_store_self, value]
  · unfold setMagic setHeader setSize setFlag
    apply_rules [Bytes.OnlyIn.store, Bytes.OnlyIn.refl] <;> omega

/-- `heap_malloc` puts a block into all of some space. -/
theorem place_whole_eq (k : KernelHeap) (pos : Nat) (block : b.hole = false)
    (whole : b.size = size + (headerSize + footerSize)) (inRange : pos + b.size < uintWidth) :
    ∃ m, k.place pos b.size size b.size = k.setMemory m ∧ Tagged m pos b ∧
      Bytes.OnlyIn pos (pos + b.size) k.memory m := by
  have same : usub b.size b.size = 0 := by
    rw [usub_of_le (Nat.le_refl _) (by omega), Nat.sub_self]
  obtain ⟨m, used, tagged, only⟩ := useBlock_eq k pos block whole inRange
  refine ⟨m, ?_, tagged, only⟩
  unfold place
  dsimp only
  rw [same, if_neg (not_not.mpr rfl), used]

/-- `heap_malloc` puts a block into some space and makes a hole of what remains. -/
theorem place_split_eq {rest : Block} (k : KernelHeap) (pos : Nat) (block : b.hole = false)
    (isHole : rest.hole = true) (whole : b.size = size + (headerSize + footerSize))
    (inside : pos + (b.size + rest.size) ≤ k.heap.end_) (inRange : k.heap.end_ < uintWidth) :
    ∃ m, k.place pos (b.size + rest.size) size b.size =
        (k.setMemory m).heapAddEntry (pos + b.size) ∧ Tagged m pos b ∧
      Tagged m (pos + b.size) rest ∧
      Bytes.OnlyIn pos (pos + (b.size + rest.size)) k.memory m := by
  have large := rest.large
  have remains : usub (b.size + rest.size) b.size = rest.size := by
    rw [usub_of_le (by omega) (by omega), Nat.add_sub_cancel_left]
  have positive : rest.size ≠ 0 := by
    unfold headerSize footerSize at large
    omega
  have next : uadd pos b.size = pos + b.size := uadd_of_lt (by omega)
  obtain ⟨m, used, tagged, only⟩ := useBlock_eq k pos block whole (by omega)
  have inside' : pos + b.size + rest.size ≤ k.heap.end_ := by rwa [Nat.add_assoc]
  obtain ⟨m', split, tagged', only'⟩ :=
    splitAfter_eq (k.setMemory m) (pos + b.size) isHole inside' inRange
  rw [setMemory_setMemory] at split
  refine ⟨m', ?_, tagged.same_of_bytes (only'.same (.inl (Nat.le_refl _))), tagged', ?_⟩
  · unfold place
    dsimp only
    rw [remains, if_pos positive, next, used, split]
  · exact (only.mono (Nat.le_refl _) (by omega)).trans (only'.mono (by omega) (by omega))

/-- A block has been put at the beginning of some space, with a hole in what remains. Apart from
the index, nothing outside the space has changed. -/
structure Placed (k k' : KernelHeap) (pos stop : Nat) (b : Block) (rest : List Block) : Prop where
  hole : AtMostAHole rest
  tiles : Tiles Block.size (Tagged k'.memory) pos (b :: rest) stop
  index : k'.index.Perm (holes pos (b :: rest) ++ k.index)
  heap : k'.heap = { k.heap with entrycount := k.heap.entrycount + rest.length }
  paging : k'.paging = k.paging
  low : Bytes.Same k.heap.start pos k.memory k'.memory
  high : Bytes.Same stop k.heap.end_ k.memory k'.memory
  stored : k'.stored ≤ max k.stored (k.heap.entrycount + rest.length)
  sorted : k.Sorted → k.ListsOutside pos stop → k'.Sorted

/-- The block fills the space. -/
theorem place_whole (block : b.hole = false) (whole : b.size = size + (headerSize + footerSize))
    (low : k.heap.start ≤ pos) (inside : pos + b.size ≤ k.heap.end_)
    (inRange : k.heap.end_ < uintWidth) (slots : k.slot k.heap.entrycount ≤ k.heap.start) :
    Placed k (k.place pos b.size size b.size) pos (pos + b.size) b [] := by
  obtain ⟨m, put, tagged, only⟩ :=
    k.place_whole_eq pos block whole (Nat.lt_of_le_of_lt inside inRange)
  rw [put]
  constructor
  · exact .inl rfl
  · exact ⟨tagged, rfl⟩
  · rw [holes_cons_of_block block, index_setMemory (only.same (.inl (by omega)))]
    exact .refl _
  · rfl
  · rfl
  · exact only.same (.inl (Nat.le_refl _))
  · exact only.same (.inr (Nat.le_refl _))
  · exact Nat.le_max_left ..
  · intro sorted outside
    unfold Sorted
    rw [index_setMemory (only.same (.inl (by omega)))]
    apply pairwise_same sorted
    exact outside.sizeAt (only.same (.inl (Nat.le_refl _))) (only.same (.inr (Nat.le_refl _)))

/-- The block leaves space for a hole. -/
theorem place_split {rest : Block} (block : b.hole = false) (isHole : rest.hole = true)
    (whole : b.size = size + (headerSize + footerSize))
    (low : k.heap.start ≤ pos) (inside : pos + (b.size + rest.size) ≤ k.heap.end_)
    (inRange : k.heap.end_ < uintWidth) (slots : k.slot (k.heap.entrycount + 1) ≤ k.heap.start) :
    Placed k (k.place pos (b.size + rest.size) size b.size) pos (pos + (b.size + rest.size)) b
      [rest] := by
  obtain ⟨m', put, tagged, tagged', only⟩ :=
    k.place_split_eq pos block isHole whole inside inRange
  have below : k.slot k.heap.entrycount ≤ k.heap.start := by
    unfold slot at *
    omega
  have index : (k.setMemory m').index = k.index := index_setMemory (only.same (.inl (by omega)))
  have small : pos + b.size < uintWidth := by omega
  have added := (k.setMemory m').heapAddEntry_indexed small
  have slots' : (k.setMemory m').slot (k.heap.entrycount + 1) ≤ k.heap.start := slots
  have others : Bytes.Same k.heap.start k.heap.end_ m'
      ((k.setMemory m').heapAddEntry (pos + b.size)).memory := added.memory.same (.inr slots')
  have length : (List.orderedInsert (NotLarger m') (pos + b.size) k.index).length =
      k.heap.entrycount + 1 := by
    rw [List.orderedInsert_length, length_index]
  have low' : Bytes.Same k.heap.start pos k.memory m' := only.same (.inl (Nat.le_refl _))
  have high' : Bytes.Same (pos + (b.size + rest.size)) k.heap.end_ k.memory m' :=
    only.same (.inr (Nat.le_refl _))
  rw [put]
  constructor
  · exact .inr ⟨rest, rfl, isHole⟩
  · refine ⟨tagged.same_of_bytes (others.mono low (by omega)), ?_, Nat.add_assoc ..⟩
    exact tagged'.same_of_bytes (others.mono (by omega) (by omega))
  · rw [added.index, index, holes_cons_of_block block, holes_cons_of_hole isHole]
    exact List.perm_orderedInsert ..
  · rw [added.heap, index]
    exact congrArg (fun entrycount => { k.heap with entrycount }) length
  · exact added.paging
  · exact low'.trans (others.mono (Nat.le_refl _) (by omega))
  · exact high'.trans (others.mono (by omega) (Nat.le_refl _))
  · exact added.stored
  · intro sorted outside
    have sizes := outside.sizeAt low' high'
    apply sorted_heapAddEntry _ (by omega) slots' (Nat.le_trans low (Nat.le_add_right ..))
    · rw [index]
      exact fun entry member => (outside entry member).1
    · unfold Sorted
      rw [index]
      exact pairwise_same sorted sizes

/-! ## The hole that is used -/

/-- A hole has been replaced by a block whose payload is the result, with a hole in what is left
of it before the block and after it. Everything else in the heap is as before. -/
structure Allocated (k k' : KernelHeap) (size result : Nat) (before front : List Block)
    (hole b : Block) (rest after : List Block) : Prop where
  block : b.hole = false
  inFront : AtMostAHole front
  behind : AtMostAHole rest
  wellFormed : k'.WellFormed (before ++ (front ++ b :: rest) ++ after)
  enough : size + (headerSize + footerSize) ≤ b.size
  result : result = k.heap.start + total Block.size (before ++ front) + headerSize
  start : k'.heap.start = k.heap.start
  end_ : k'.heap.end_ = k.heap.end_
  low : Bytes.Same k.heap.start (k.heap.start + total Block.size before) k.memory k'.memory
  high : Bytes.Same (k.heap.start + total Block.size before + hole.size) k.heap.end_
    k.memory k'.memory

/-- The block has been put where a hole was that is no longer in the index. -/
theorem Placed.allocated {rest : List Block} {i : Nat}
    (wf : k.WellFormed (before ++ [hole] ++ after)) (isHole : hole.hole = true)
    (block : b.hole = false) (enough : size + (headerSize + footerSize) ≤ b.size)
    (inside : i < k.heap.entrycount)
    (entry : k.entry i = k.heap.start + total Block.size before)
    (placed : Placed (k.heapDelEntry (some i)) k' (k.heap.start + total Block.size before)
      (k.heap.start + total Block.size before + hole.size) b rest) :
    Allocated k k' size (k.heap.start + total Block.size before + headerSize) before [] hole b rest
      after ∧ (k.Sorted → k'.Sorted) := by
  have wf' : k.WellFormed (before ++ hole :: after) := by rwa [List.append_cons]
  have last : total Block.size (before ++ [hole]) = total Block.size before + hole.size :=
    total_append ..
  have deleted := k.heapDelEntry_indexed inside
  have length : (k.index.eraseIdx i).length = k.heap.entrycount - 1 := by
    rw [List.length_eraseIdx, length_index, if_pos inside]
  have slots := wf.slot_le wf.capacity
  have others : Bytes.Same k.heap.start k.heap.end_ k.memory (k.heapDelEntry (some i)).memory :=
    deleted.memory.same (.inr slots)
  have below := wf'.block_le
  have heap : (k.heapDelEntry (some i)).heap =
      { k.heap with entrycount := k.heap.entrycount - 1 } := by
    rw [deleted.heap, length]
  have index := wf'.index_eraseIdx isHole inside entry
  rw [← deleted.index] at index
  have capacity := wf.capacity
  have few := placed.hole.length_le
  have heap' := placed.heap
  rw [heap] at heap'
  have low := placed.low
  have high := placed.high
  rw [heap] at low high
  have low' : Bytes.Same k.heap.start (k.heap.start + total Block.size before) k.memory
      k'.memory := (others.mono (Nat.le_refl _) (by omega)).trans low
  have high' : Bytes.Same (k.heap.start + total Block.size before + hole.size) k.heap.end_ k.memory
      k'.memory := (others.mono (by omega) (Nat.le_refl _)).trans high
  have wellFormed : k'.WellFormed (before ++ b :: rest ++ after) := by
    apply wf.replace
    · rw [heap']
    · rw [heap']
      show k.heap.entrycount - 1 + rest.length ≤ k.heap.maxentries
      omega
    · rw [last, ← Nat.add_assoc]
      exact placed.tiles
    · exact low'
    · rw [last, ← Nat.add_assoc]
      exact high'
    · rw [last, ← Nat.add_assoc]
      refine (placed.index.trans (index.append_left _)).trans ?_
      rw [← List.append_assoc]
      exact (List.perm_append_comm).append_right _
  refine ⟨⟨block, .inl rfl, placed.hole, wellFormed, enough, ?_, ?_, ?_, low', high'⟩, ?_⟩
  · rw [List.append_nil]
  · rw [heap']
  · rw [heap']
  · intro sorted
    apply placed.sorted
    · apply sorted_heapDelEntry sorted inside slots
      intro member there
      obtain ⟨_, _, place⟩ := mem_holes.mp (wf.index.mem_iff.mp there)
      exact (wf.tiles.bounds place).1
    · rw [Nat.add_assoc, ← last]
      apply wf.listsOutside
      · rw [last, ← Nat.add_assoc]
        exact index
      · rw [heap]
      · rw [heap]

/-- `heap_malloc` with a hole that is large enough, when the payload may begin anywhere. -/
theorem carve_allocated {i : Nat} (wf : k.WellFormed (before ++ [hole] ++ after))
    (isHole : hole.hole = true) (inside : i < k.heap.entrycount)
    (entry : k.entry i = k.heap.start + total Block.size before)
    (enough : size + (headerSize + footerSize) ≤ hole.size) :
    ∃ b rest, Allocated k (k.carve size (size + (headerSize + footerSize)) false i).1 size
      (k.carve size (size + (headerSize + footerSize)) false i).2 before [] hole b rest after ∧
      (k.Sorted → (k.carve size (size + (headerSize + footerSize)) false i).1.Sorted) := by
  have wf' : k.WellFormed (before ++ hole :: after) := by rwa [List.append_cons]
  have small := hole.small
  have large := hole.large
  have inRange := wf.inRange
  have tagged := wf'.tagged
  have below := wf'.block_le
  have deleted := k.heapDelEntry_indexed inside
  have length : (k.index.eraseIdx i).length = k.heap.entrycount - 1 := by
    rw [List.length_eraseIdx, length_index, if_pos inside]
  have heap : (k.heapDelEntry (some i)).heap =
      { k.heap with entrycount := k.heap.entrycount - 1 } := by
    rw [deleted.heap, length]
  have width : uintWidth = 4294967296 := rfl
  have widths : sizeWidth = 2147483648 := rfl
  have slots (j : Nat) (within : j ≤ k.heap.entrycount) :
      (k.heapDelEntry (some i)).slot j ≤ (k.heapDelEntry (some i)).heap.start := by
    unfold slot
    rw [heap]
    exact wf.slot_le (Nat.le_trans within wf.capacity)
  have payload := payload_eq large (Nat.lt_trans small (by decide))
  have result : uadd (k.heap.start + total Block.size before) headerSize =
      k.heap.start + total Block.size before + headerSize := by
    apply uadd_of_lt
    unfold headerSize at *
    omega
  have stop : (k.heapDelEntry (some i)).heap.end_ = k.heap.end_ := by rw [heap]
  have start : (k.heapDelEntry (some i)).heap.start = k.heap.start := by rw [heap]
  have count : (k.heapDelEntry (some i)).heap.entrycount = k.heap.entrycount - 1 := by rw [heap]
  unfold carve
  dsimp only
  rw [if_neg (by exact fun aligned => Bool.false_ne_true aligned.1), entry, tagged.size, payload,
    result]
  dsimp only
  by_cases tight : hole.size - (headerSize + footerSize) < size + (headerSize + footerSize)
  · rw [if_pos tight, if_pos tight]
    let b := Block.inUse hole.size large small
    have more : uadd size (usub hole.size (size + (headerSize + footerSize))) +
        (headerSize + footerSize) = hole.size := by
      rw [usub_of_le enough (by omega), uadd_of_lt (by omega)]
      omega
    refine ⟨b, [], Placed.allocated wf isHole rfl enough inside entry ?_⟩
    apply place_whole (b := b) rfl more.symm
    · rw [start]
      exact Nat.le_add_right ..
    · rw [stop]
      exact below
    · rw [stop]
      exact inRange
    · rw [count]
      exact slots _ (Nat.sub_le ..)
  · rw [if_neg tight, if_neg tight]
    let b := Block.inUse (size + (headerSize + footerSize)) (Nat.le_add_left ..) (by omega)
    let rest : Block := ⟨hole.size - b.size, true, by show _ ≤ hole.size - (size + _); omega, by
      show hole.size - (size + _) < _
      omega⟩
    have sizes : hole.size = b.size + rest.size := by
      show _ = b.size + (hole.size - b.size)
      have part : b.size ≤ hole.size := enough
      omega
    refine ⟨b, [rest], Placed.allocated wf isHole rfl (Nat.le_refl _) inside entry ?_⟩
    rw [sizes]
    apply place_split (b := b) rfl rfl rfl
    · rw [start]
      exact Nat.le_add_right ..
    · rw [stop, ← sizes]
      exact below
    · rw [stop]
      exact inRange
    · rw [count]
      exact slots _ (by omega)

/-- The index in the order of size, entry by entry. -/
theorem Sorted.entry_le (sorted : k.Sorted) {i j : Nat} (ordered : i ≤ j)
    (inside : j < k.heap.entrycount) :
    sizeAt k.memory (k.entry i) ≤ sizeAt k.memory (k.entry j) := by
  rcases Nat.eq_or_lt_of_le ordered with rfl | before
  · exact Nat.le_refl _
  · have last : j < k.index.length := by rwa [length_index]
    have pair := List.pairwise_iff_getElem.mp sorted i j (Nat.lt_trans before last) last before
    rwa [getElem_index, getElem_index] at pair

/-- Whether a hole suits, when the payload may begin anywhere. -/
theorem suits_iff {entry : Nat} : k.suits size false entry ↔ size ≤ sizeAt k.memory entry := by
  rw [suits, if_neg Bool.false_ne_true]

/-- `heap_malloc` when a hole is large enough: the smallest such hole becomes a block in use and,
if enough is left, a smaller hole. -/
theorem heapMalloc_allocates (wf : k.WellFormed blocks) (sorted : k.Sorted) (positive : 1 ≤ size)
    (small : size + (headerSize + footerSize) < sizeWidth)
    (sufficient : ∃ other ∈ blocks, other.hole = true ∧
      size + (headerSize + footerSize) ≤ other.size) (depth : Nat) :
    ∃ before hole after b rest k' result,
      blocks = before ++ hole :: after ∧ hole.hole = true ∧
      size + (headerSize + footerSize) ≤ hole.size ∧
      (∀ other ∈ blocks, other.hole = true → size + (headerSize + footerSize) ≤ other.size →
        hole.size ≤ other.size) ∧
      heapMalloc (depth + 1) size false k = some (k', result) ∧
      Allocated k k' size result before [] hole b rest after ∧ k'.Sorted := by
  have newsize : uadd size (headerSize + footerSize) = size + (headerSize + footerSize) :=
    uadd_of_lt (Nat.lt_trans small (by decide))
  -- Each hole is listed with its size.
  have listed (other : Block) (member : other ∈ blocks) (isHole : other.hole = true) :
      ∃ i < k.heap.entrycount, sizeAt k.memory (k.entry i) = other.size := by
    obtain ⟨before, after, rfl⟩ := List.append_of_mem member
    obtain ⟨i, inside, entry⟩ := wf.entry_of_hole isHole
    refine ⟨i, inside, ?_⟩
    rw [entry]
    exact wf.tagged.size
  obtain ⟨other, member, isHole, large⟩ := sufficient
  obtain ⟨j, inside, size_j⟩ := listed other member isHole
  cases found : k.findSmallestHole (size + (headerSize + footerSize)) false with
  | none =>
    have none := findSmallestHole_none.mp found (k.entry j)
      (List.mem_map.mpr ⟨j, List.mem_range.mpr inside, rfl⟩)
    rw [suits_iff, size_j] at none
    exact absurd large none
  | some i =>
    obtain ⟨bound, suits, first⟩ := findSmallestHole_some found
    obtain ⟨before, hole, after, rfl, isHole, entry⟩ := wf.hole_of_entry bound
    have size_i : sizeAt k.memory (k.entry i) = hole.size := by
      rw [entry]
      exact wf.tagged.size
    rw [suits_iff, size_i] at suits
    have wf' : k.WellFormed (before ++ [hole] ++ after) := by rwa [← List.append_cons]
    obtain ⟨b, rest, allocated, order⟩ := carve_allocated wf' isHole bound entry suits
    refine ⟨before, hole, after, b, rest, _, _, rfl, isHole, suits, ?_, ?_, allocated,
      order sorted⟩
    · intro other member isHole enough
      obtain ⟨j, within, size_j⟩ := listed other member isHole
      have later : i ≤ j := by
        by_contra earlier
        apply first j (Nat.lt_of_not_le earlier)
        rw [suits_iff, size_j]
        exact enough
      rw [← size_i, ← size_j]
      exact sorted.entry_le later within
    · have nonzero : size ≠ 0 := Nat.ne_of_gt positive
      rw [heapMalloc, newsize, if_neg nonzero, found]

/-- Three blocks in use with a hole of 4000 bytes and one of 200 between them. -/
def scattered : List Block :=
  [Block.inUse 72 (by decide) (by decide), Block.free 4000 (by decide) (by decide),
    Block.inUse 40 (by decide) (by decide), Block.free 200 (by decide) (by decide),
    Block.inUse 56 (by decide) (by decide)]

/-- A heap of two holes, from the smaller one of which 100 bytes are allocated. -/
theorem heapMalloc_allocates_hundred :
    ∃ before hole after b rest k' result,
      scattered = before ++ hole :: after ∧
      hole.hole = true ∧ 100 + (headerSize + footerSize) ≤ hole.size ∧
      (∀ other ∈ scattered, other.hole = true →
        100 + (headerSize + footerSize) ≤ other.size → hole.size ≤ other.size) ∧
      heapMalloc 1 100 false (secondMegabyte scattered) = some (k', result) ∧
      Allocated (secondMegabyte scattered) k' 100 result before [] hole b rest after ∧
      k'.Sorted := by
  have made := @secondMegabyte_wellFormed scattered (by decide) (by decide)
  refine heapMalloc_allocates made.1 made.2 (by decide) (by decide)
    ⟨Block.free 200 (by decide) (by decide), ?_, rfl, ?_⟩ 0
  · unfold scattered
    decide
  · decide

end KernelHeap

end Nupkux
