import Nupkux.Mm.HeapFree
import Nupkux.Mm.HeapMalloc

/-!
# Allocation of whole pages

`heap_malloc` when the payload is to begin at a page: the hole that is found keeps its beginning
and its entry, and the block is put behind it. The search and the split compute how much that is
in two ways, which agree where there is room for a header before the page.
-/

namespace Nupkux

open Tiling

namespace KernelHeap

variable {k k' : KernelHeap} {m : Bytes} {before front rest after blocks : List Block}
  {hole b f : Block} {i address pos size newsize : Nat}

/-- How much of a hole lies before the block when its payload begins at the next page. -/
def frontSize (address : Nat) : Nat := frameSize - headerSize - address % frameSize

/-- The beginning of a hole is large enough for a hole. -/
def RoomInFront (address : Nat) : Prop :=
  address % frameSize + headerSize + (headerSize + footerSize) ≤ frameSize

/-! ## The beginning of the hole -/

/-- `heap_malloc` cuts off the beginning of a hole. -/
theorem splitBefore_eq (tagged : Tagged k.memory address hole) (room : RoomInFront address)
    (isHole : f.hole = true) (size : f.size = frontSize address) (less : f.size ≤ hole.size)
    (inRange : address + hole.size < uintWidth) :
    ∃ m, k.splitBefore address = (k.setMemory m, address + f.size, hole.size - f.size) ∧
      Tagged m address f ∧ Bytes.OnlyIn address (address + f.size) k.memory m := by
  have large := f.large
  have small := f.small
  have width : uintWidth = 4294967296 := rfl
  have page : frameSize = 4096 := rfl
  have bits : f.size % sizeWidth = f.size := Nat.mod_eq_of_lt small
  have value : address % 4294967296 = address := Nat.mod_eq_of_lt (by omega)
  have flag : f.flag = mmFlagHole := if_pos isHole
  unfold RoomInFront at room
  unfold frontSize at size
  unfold headerSize footerSize at large room
  unfold headerSize at size
  rw [page] at room size
  have newpos : usub (usub (uadd address frameSize) (address % frameSize)) headerSize =
      address + f.size := by
    unfold usub uadd headerSize
    rw [page, width]
    omega
  have gap : usub (address + f.size) address = f.size := by
    rw [usub_of_le (by omega) (by omega)]
    omega
  have footer : usub (address + f.size) footerSize = address + f.size - footerSize :=
    usub_of_le (by unfold footerSize; omega) (by omega)
  have whole : sizeAt k.memory address = hole.size := tagged.size
  unfold splitBefore
  dsimp only
  rw [newpos, gap, footer, whole]
  generalize written : setHeader (setMagic (setMagic (setFlag (setSize k.memory address f.size)
    address mmFlagHole) (address + f.size - footerSize)) address) address
    (address + f.size - footerSize) = m
  have looks : Tagged m address f := by
    rw [tagged_iff, flag, ← written]
    unfold footerSize
    refine ⟨?_, ?_, ?_, ?_⟩
    · simp (disch := omega) only [setMagic, setHeader, Bytes.word_store_self,
        Bytes.word_store_of_apart]
      rfl
    · simp (disch := omega) only [setMagic, setHeader, Bytes.word_store_of_apart]
      rw [word_setFlag (by decide), sizeAt_setSize, bits]
    · simp (disch := omega) only [setMagic, setHeader, Bytes.word_store_self,
        Bytes.word_store_of_apart]
      rfl
    · simp (disch := omega) only [setHeader, Bytes.word_store_self, value]
  refine ⟨m, ?_, looks, ?_⟩
  · rw [looks.size, usub_of_le less (by omega)]
  · rw [← written]
    unfold setMagic setHeader setSize setFlag footerSize
    apply_rules [Bytes.OnlyIn.store, Bytes.OnlyIn.refl] <;> omega

/-! ## The block behind it -/

/-- A block with nothing behind it is entered nowhere. -/
theorem place_of_whole (k : KernelHeap) (pos size : Nat) {oldsize : Nat}
    (whole : usub oldsize newsize = 0) : ∃ m, k.place pos oldsize size newsize = k.setMemory m :=
  ⟨_, if_neg (not_not.mpr whole)⟩

/-- What remains behind a block is entered. -/
theorem place_of_split (k : KernelHeap) (pos size : Nat) {oldsize : Nat}
    (split : usub oldsize newsize ≠ 0) : ∃ m, k.place pos oldsize size newsize =
      (k.setMemory m).heapAddEntry (uadd pos newsize) :=
  ⟨_, if_pos split⟩

/-! ## The hole that is split -/

/-- The header of another hole lies before a hole or behind it. -/
theorem WellFormed.header_apart (wf : k.WellFormed (before ++ hole :: after))
    (isHole : hole.hole = true) {entry : Nat} (listed : entry ∈ k.index)
    (other : entry ≠ k.heap.start + total Block.size before) :
    k.heap.start ≤ entry ∧ (entry + headerSize ≤ k.heap.start + total Block.size before ∨
      k.heap.start + total Block.size before + hole.size ≤ entry ∧
        entry + headerSize ≤ k.heap.end_) := by
  obtain ⟨first, _, last⟩ := tiles_middle.mp wf.tiles
  have member := (holes_middle isHole k.heap.start).mem_iff.mp (wf.index.mem_iff.mp listed)
  rcases List.mem_cons.mp member with same | member
  · exact absurd same other
  · rcases List.mem_append.mp member with member | member
    · have bounds := bounds_of_mem_holes first member
      exact ⟨bounds.1, .inl (by omega)⟩
    · have bounds := bounds_of_mem_holes last member
      exact ⟨by omega, .inr ⟨bounds.1, by omega⟩⟩

/-- Nothing has changed outside the index and some space. -/
def OnlyIndexAnd (k k' : KernelHeap) (low high : Nat) : Prop :=
  ∀ a, a < k.slot 0 ∨ k.heap.start ≤ a → a < low ∨ high ≤ a → k'.memory a = k.memory a

/-- A hole has been replaced by a block whose payload begins at a page, and the index is in
order. -/
structure AllocatedPage (k k' : KernelHeap) (size result : Nat) (before front : List Block)
    (hole b : Block) (rest after : List Block) : Prop where
  allocated : Allocated k k' size result before front hole b rest after
  sorted : k'.Sorted
  aligned : result % frameSize = 0
  only : OnlyIndexAnd k k' (k.heap.start + total Block.size before)
    (k.heap.start + total Block.size before + hole.size)

/-- The block has been put behind the beginning of a hole, which is still in the index. -/
theorem Placed.allocated_behind (wf : k.WellFormed (before ++ [hole] ++ after))
    (isHole : hole.hole = true) (block : b.hole = false)
    (enough : size + (headerSize + footerSize) ≤ b.size) (isHole' : f.hole = true)
    (less : f.size ≤ hole.size)
    (tagged : Tagged m (k.heap.start + total Block.size before) f)
    (only : Bytes.OnlyIn (k.heap.start + total Block.size before)
      (k.heap.start + total Block.size before + f.size) k.memory m)
    (room : k.heap.entrycount + rest.length ≤ k.heap.maxentries)
    (placed : Placed (k.setMemory m) k' (k.heap.start + total Block.size before + f.size)
      (k.heap.start + total Block.size before + hole.size) b rest) :
    Allocated k k' size (k.heap.start + total Block.size before + f.size + headerSize) before [f]
      hole b rest after := by
  have wf' : k.WellFormed (before ++ hole :: after) := by rwa [List.append_cons]
  have last : total Block.size (before ++ [hole]) = total Block.size before + hole.size :=
    total_append ..
  have both : total Block.size (before ++ [f]) = total Block.size before + f.size :=
    total_append ..
  have below := wf'.block_le
  have slots := wf.slot_le wf.capacity
  have index : (k.setMemory m).index = k.index :=
    index_setMemory (only.same (.inl (by omega)))
  have heap : k'.heap = { k.heap with entrycount := k.heap.entrycount + rest.length } := placed.heap
  have second : Bytes.Same k.heap.start (k.heap.start + total Block.size before + f.size) m
      k'.memory := placed.low
  have third : Bytes.Same (k.heap.start + total Block.size before + hole.size) k.heap.end_ m
      k'.memory := placed.high
  have low : Bytes.Same k.heap.start (k.heap.start + total Block.size before) k.memory k'.memory :=
    (only.same (.inl (Nat.le_refl _))).trans (second.mono (Nat.le_refl _) (Nat.le_add_right ..))
  have high : Bytes.Same (k.heap.start + total Block.size before + hole.size) k.heap.end_ k.memory
      k'.memory := (only.same (.inr (by omega))).trans third
  have wellFormed : k'.WellFormed (before ++ ([f] ++ b :: rest) ++ after) := by
    apply wf.replace
    · rw [heap]
    · rw [heap]
      exact room
    · rw [last, ← Nat.add_assoc]
      refine ⟨tagged.same_of_bytes (second.mono (Nat.le_add_right ..) (Nat.le_refl _)), ?_⟩
      exact placed.tiles
    · exact low
    · rw [last, ← Nat.add_assoc]
      exact high
    · rw [last, ← Nat.add_assoc, List.singleton_append, holes_cons_of_hole isHole']
      have entries := placed.index
      rw [index] at entries
      refine (entries.trans ((wf'.index.trans (holes_middle isHole _)).append_left _)).trans ?_
      rw [List.append_assoc]
      exact List.perm_middle.trans
        (((List.perm_append_comm_assoc ..).cons _).trans List.perm_middle.symm)
  refine ⟨block, .inr ⟨f, rfl, isHole'⟩, placed.hole, wellFormed, enough, ?_, ?_, ?_, low, high⟩
  · rw [both, ← Nat.add_assoc]
  · rw [heap]
  · rw [heap]

/-- A hole that is cut to a size may stay where it is in the index: the holes that are listed
before it are not larger. -/
def StaysBehind (k : KernelHeap) (entry size : Nat) : Prop :=
  ∀ front rear, k.index = front ++ entry :: rear → ∀ other ∈ front, sizeAt k.memory other ≤ size

/-- Whether the index is in order after a hole has been cut and the others have kept their
sizes. -/
theorem pairwise_cut {m' : Bytes} {entries : List Nat} {entry : Nat} (nodup : entries.Nodup)
    (listed : entry ∈ entries) (sorted : entries.Pairwise (NotLarger m))
    (cut : sizeAt m' entry ≤ sizeAt m entry)
    (others : ∀ other ∈ entries, other ≠ entry → sizeAt m' other = sizeAt m other) :
    entries.Pairwise (NotLarger m') ↔ ∀ front rear, entries = front ++ entry :: rear →
      ∀ other ∈ front, sizeAt m other ≤ sizeAt m' entry := by
  constructor
  · rintro ordered front rear rfl other member
    have differ : other ≠ entry := by
      rintro rfl
      exact (List.nodup_append.mp nodup).2.2 other member other List.mem_cons_self rfl
    rw [← others other (List.mem_append_left _ member) differ]
    exact (List.pairwise_append.mp ordered).2.2 other member entry List.mem_cons_self
  · intro enough
    obtain ⟨front, rear, rfl⟩ := List.append_of_mem listed
    have rest : ∀ other ∈ front ++ rear, sizeAt m' other = sizeAt m other := by
      intro other member
      apply others other
      · rcases List.mem_append.mp member with member | member
        · exact List.mem_append_left _ member
        · exact List.mem_append_right _ (List.mem_cons_of_mem _ member)
      · rintro rfl
        exact (List.nodup_cons.mp (List.perm_middle.nodup_iff.mp nodup)).1 member
    obtain ⟨first, second, across⟩ := List.pairwise_append.mp sorted
    obtain ⟨smallest, last⟩ := List.pairwise_cons.mp second
    refine List.pairwise_append.mpr ⟨?_, List.pairwise_cons.mpr ⟨?_, ?_⟩, ?_⟩
    · exact pairwise_same first fun other member => rest other (List.mem_append_left _ member)
    · intro other member
      rw [NotLarger, rest other (List.mem_append_right _ member)]
      exact Nat.le_trans cut (smallest other member)
    · exact pairwise_same last fun other member => rest other (List.mem_append_right _ member)
    · intro one before other member
      rw [NotLarger, rest one (List.mem_append_left _ before)]
      rcases List.mem_cons.mp member with rfl | after
      · exact enough front rear rfl one before
      · rw [rest other (List.mem_append_right _ after)]
        exact across one before other (List.mem_cons_of_mem _ after)

/-- The index after the beginning of a hole has been cut off. -/
theorem sorted_front_iff (wf : k.WellFormed (before ++ hole :: after)) (sorted : k.Sorted)
    (isHole : hole.hole = true) (less : f.size ≤ hole.size)
    (size : sizeAt m (k.heap.start + total Block.size before) = f.size)
    (low : Bytes.Same k.heap.start (k.heap.start + total Block.size before) k.memory m)
    (high : Bytes.Same (k.heap.start + total Block.size before + hole.size) k.heap.end_ k.memory
      m) :
    k.index.Pairwise (NotLarger m) ↔
      k.StaysBehind (k.heap.start + total Block.size before) f.size := by
  have nodup := wf.index.nodup_iff.mpr (holes_nodup ..)
  have listed : k.heap.start + total Block.size before ∈ k.index :=
    wf.index.mem_iff.mpr ((holes_middle isHole _).mem_iff.mpr List.mem_cons_self)
  unfold StaysBehind
  rw [← size]
  apply pairwise_cut nodup listed sorted
  · rw [size, wf.tagged.size]
    exact less
  · intro other member differ
    obtain ⟨above, before | ⟨behind, below⟩⟩ := wf.header_apart isHole member differ
    · exact sizeAt_same (low.mono above before)
    · exact sizeAt_same (high.mono behind below)

/-- The beginning of the hole is large enough for a hole and may stay where it is in the index, and
nothing is left behind the block, or enough for a hole that can be entered. -/
def CanAlign (k : KernelHeap) (address whole size : Nat) : Prop :=
  1 ≤ size ∧ RoomInFront address ∧ k.StaysBehind address (frontSize address) ∧
    (frontSize address + (size + (headerSize + footerSize)) = whole ∨
      frontSize address + (size + (headerSize + footerSize)) + (headerSize + footerSize) ≤ whole ∧
        k.heap.entrycount < k.heap.maxentries)

/-- `heap_malloc` with a hole that has room before the page and for the block. -/
theorem carve_aligned_eq (wf : k.WellFormed (before ++ hole :: after))
    (entry : k.entry i = k.heap.start + total Block.size before)
    (room : RoomInFront (k.heap.start + total Block.size before)) (isHole : f.hole = true)
    (front : f.size = frontSize (k.heap.start + total Block.size before))
    (fits : f.size + (size + (headerSize + footerSize)) ≤ hole.size) :
    ∃ m, k.carve size (size + (headerSize + footerSize)) true i =
        ((k.setMemory m).place (k.heap.start + total Block.size before + f.size)
          (hole.size - f.size) size (size + (headerSize + footerSize)),
          k.heap.start + total Block.size before + f.size + headerSize) ∧
      Tagged m (k.heap.start + total Block.size before) f ∧
      Bytes.OnlyIn (k.heap.start + total Block.size before)
        (k.heap.start + total Block.size before + f.size) k.memory m := by
  have large := f.large
  have small := hole.small
  have below := wf.block_le
  have inRange := wf.inRange
  have layout := wf.layout
  rw [slot, wf.slots] at layout
  have high : frameSize ≤ k.heap.start + total Block.size before := by
    have index : 4 * mmIndexCount = 8192 := rfl
    unfold frameSize
    omega
  obtain ⟨m, split, tagged, only⟩ :=
    splitBefore_eq wf.tagged room isHole front (by omega) (by omega)
  have payload := payload_eq hole.large (Nat.lt_trans small (by decide))
  have roomy : ¬hole.size - (headerSize + footerSize) < size + (headerSize + footerSize) := by
    omega
  have result : uadd (k.heap.start + total Block.size before + f.size) headerSize =
      k.heap.start + total Block.size before + f.size + headerSize := uadd_of_lt (by omega)
  refine ⟨m, ?_, tagged, only⟩
  unfold carve
  dsimp only
  rw [entry, wf.tagged.size, payload, if_neg roomy, if_neg roomy, if_pos ⟨rfl, high⟩, split]
  dsimp only
  rw [result]

/-- The payload behind the beginning of a hole is at a page. -/
theorem frontSize_aligned (room : RoomInFront address) :
    (address + frontSize address + headerSize) % frameSize = 0 := by
  unfold RoomInFront at room
  unfold frontSize frameSize headerSize footerSize at *
  omega

/-- An entry is added after a change in some space. -/
theorem onlyIndexAnd_heapAddEntry {low high entry : Nat} (only : Bytes.OnlyIn low high k.memory m)
    (small : entry < uintWidth) (room : k.slot (k.heap.entrycount + 1) ≤ k.heap.start) :
    k.OnlyIndexAnd ((k.setMemory m).heapAddEntry entry) low high := by
  have added := ((k.setMemory m).heapAddEntry_indexed small).memory
  intro a outside apart
  rw [← only a apart]
  apply added a
  show a < k.slot _ ∨ k.slot (k.heap.entrycount + 1) ≤ a
  unfold slot at *
  omega

/-- `heap_malloc` with a hole that can be split. -/
theorem carve_allocatedPage (wf : k.WellFormed (before ++ hole :: after)) (sorted : k.Sorted)
    (isHole : hole.hole = true) (entry : k.entry i = k.heap.start + total Block.size before)
    (can : k.CanAlign (k.heap.start + total Block.size before) hole.size size) :
    ∃ f b rest, AllocatedPage k (k.carve size (size + (headerSize + footerSize)) true i).1 size
      (k.carve size (size + (headerSize + footerSize)) true i).2 before [f] hole b rest after := by
  obtain ⟨positive, room, stays, fits⟩ := can
  have small := hole.small
  have below := wf.block_le
  have inRange := wf.inRange
  have inFront : headerSize + footerSize ≤ frontSize (k.heap.start + total Block.size before) := by
    unfold RoomInFront frontSize at *
    omega
  let f := Block.free (frontSize (k.heap.start + total Block.size before)) inFront (by omega)
  have front : f.size = frontSize (k.heap.start + total Block.size before) := rfl
  rw [← front] at stays fits
  obtain ⟨m, carved, tagged, only⟩ :=
    carve_aligned_eq wf entry room rfl front
      (show f.size + (size + (headerSize + footerSize)) ≤ hole.size by omega)
  let b := Block.inUse (size + (headerSize + footerSize)) (Nat.le_add_left ..) (by omega)
  have slots := wf.slot_le wf.capacity
  have index : (k.setMemory m).index = k.index :=
    index_setMemory (only.same (.inl (by omega)))
  -- The beginning of the hole is in its place, and the other holes lie elsewhere.
  have sorted' : (k.setMemory m).Sorted := by
    unfold Sorted
    rw [index]
    refine (sorted_front_iff wf sorted isHole (by omega) tagged.size
      (only.same (.inl (Nat.le_refl _))) (only.same (.inr (by omega)))).mpr stays
  have outside : (k.setMemory m).ListsOutside (k.heap.start + total Block.size before + f.size)
      (k.heap.start + total Block.size before + hole.size) := by
    intro other member
    rw [index] at member
    by_cases same : other = k.heap.start + total Block.size before
    · rw [same]
      have large := f.large
      exact ⟨Nat.le_add_right .., .inl (by omega)⟩
    · obtain ⟨above, before | behind⟩ := wf.header_apart isHole member same
      · exact ⟨above, .inl (by omega)⟩
      · exact ⟨above, .inr behind⟩
  have wf' : k.WellFormed (before ++ [hole] ++ after) := by rwa [← List.append_cons]
  have whole : b.size = size + (headerSize + footerSize) := rfl
  have aligned := frontSize_aligned room
  rw [← front] at aligned
  rw [carved]
  rcases fits with exact | ⟨more, few⟩
  · have same : hole.size - f.size = b.size := by omega
    have stop : k.heap.start + total Block.size before + f.size + b.size =
        k.heap.start + total Block.size before + hole.size := by omega
    have placed := place_whole (k := k.setMemory m) (b := b) rfl rfl
      (show k.heap.start ≤ k.heap.start + total Block.size before + f.size by omega)
      (show _ ≤ k.heap.end_ by omega) inRange slots
    rw [stop] at placed
    obtain ⟨m', put, _, only'⟩ := place_whole_eq (k.setMemory m)
      (k.heap.start + total Block.size before + f.size) (b := b) rfl rfl (by omega)
    rw [same, ← whole]
    refine ⟨f, b, [], ?_, placed.sorted sorted' outside, aligned, ?_⟩
    · exact placed.allocated_behind wf' isHole rfl (Nat.le_refl _) rfl (by omega) tagged only
        wf.capacity
    · rw [put]
      intro a _ apart
      exact (only' a (by omega)).trans (only a (by omega))
  · let rest := Block.free (hole.size - f.size - b.size) (by omega) (by omega)
    have size' : rest.size = hole.size - f.size - b.size := rfl
    have same : hole.size - f.size = b.size + rest.size := by omega
    have stop : k.heap.start + total Block.size before + f.size + (b.size + rest.size) =
        k.heap.start + total Block.size before + hole.size := by omega
    have room' := wf.slot_le (show k.heap.entrycount + 1 ≤ k.heap.maxentries from few)
    have placed := place_split (k := k.setMemory m) (b := b) rfl
      (show rest.hole = true from rfl) rfl
      (show k.heap.start ≤ k.heap.start + total Block.size before + f.size by omega)
      (show _ ≤ k.heap.end_ by omega) inRange room'
    rw [stop] at placed
    obtain ⟨m', put, _, _, only'⟩ := place_split_eq (k.setMemory m)
      (k.heap.start + total Block.size before + f.size) (b := b) rfl
      (show rest.hole = true from rfl) rfl
      (show _ ≤ k.heap.end_ by omega) inRange
    rw [same, ← whole]
    refine ⟨f, b, [rest], ?_, placed.sorted sorted' outside, aligned, ?_⟩
    · exact placed.allocated_behind wf' isHole rfl (Nat.le_refl _) rfl (by omega) tagged only few
    · rw [put, setMemory_setMemory]
      refine onlyIndexAnd_heapAddEntry ?_ (by omega) room'
      rw [stop] at only'
      exact (only.mono (Nat.le_refl _) (by omega)).trans
        (only'.mono (by omega) (Nat.le_refl _))

/-! ## When the hole cannot be split -/

/-- Putting a block into some space enters what remains. -/
theorem place_entrycount (k : KernelHeap) (pos oldsize size newsize : Nat) :
    (k.place pos oldsize size newsize).heap.entrycount =
      k.heap.entrycount + if usub oldsize newsize = 0 then 0 else 1 := by
  by_cases whole : usub oldsize newsize = 0
  · obtain ⟨m, put⟩ := k.place_of_whole pos size whole
    rw [put, if_pos whole]
    rfl
  · obtain ⟨m, put⟩ := k.place_of_split pos size whole
    rw [put, if_neg whole, heapAddEntry_heap]
    rfl

/-- The heap is above the first page. -/
theorem WellFormed.frameSize_le (wf : k.WellFormed blocks) : frameSize ≤ k.heap.start := by
  have layout := wf.layout
  rw [slot, wf.slots] at layout
  rw [← layout]
  exact Nat.le_add_left_of_le (by decide)

/-- What `heap_malloc` does with a hole for a block at a page. -/
theorem carve_aligned (k : KernelHeap) (size newsize : Nat) {whole : Nat} (entry : k.entry i = address)
    (found : sizeAt k.memory address = whole) (high : frameSize ≤ address)
    (large : headerSize + footerSize ≤ whole) (small : whole < uintWidth) :
    ∃ size' newsize', (whole - (headerSize + footerSize) < newsize →
        size' = uadd size (usub whole newsize) ∧ newsize' = whole) ∧
      (newsize ≤ whole - (headerSize + footerSize) → size' = size ∧ newsize' = newsize) ∧
      k.carve size newsize true i = ((k.splitBefore address).1.place (k.splitBefore address).2.1
        (k.splitBefore address).2.2 size' newsize',
          uadd (k.splitBefore address).2.1 headerSize) := by
  have payload := payload_eq large small
  unfold carve
  dsimp only
  rw [entry, found, payload, if_pos ⟨rfl, high⟩]
  by_cases tight : whole - (headerSize + footerSize) < newsize
  · rw [if_pos tight, if_pos tight]
    exact ⟨_, _, fun _ => ⟨rfl, rfl⟩, fun roomy => absurd tight (Nat.not_lt.mpr roomy), rfl⟩
  · rw [if_neg tight, if_neg tight]
    exact ⟨_, _, fun tight' => absurd tight' tight, fun _ => ⟨rfl, rfl⟩, rfl⟩

/-- A hole whose payload is at a page is cut at its own address. -/
theorem splitBefore_at_page (k : KernelHeap) (atPage : (address + headerSize) % frameSize = 0)
    (high : frameSize ≤ address) (inRange : address < uintWidth) :
    ∃ m, k.splitBefore address = (k.setMemory m, address, sizeAt k.memory address) := by
  have width : uintWidth = 4294967296 := rfl
  have page : frameSize = 4096 := rfl
  have small := sizeAt_lt k.memory address
  have widths : sizeWidth = 2147483648 := rfl
  unfold headerSize at atPage
  rw [page] at atPage high
  have newpos : usub (usub (uadd address frameSize) (address % frameSize)) headerSize =
      address := by
    unfold usub uadd headerSize
    rw [page, width]
    omega
  have gap : usub address address = 0 := by
    rw [usub_of_le (Nat.le_refl _) inRange, Nat.sub_self]
  have footer : usub address footerSize = address - 8 :=
    usub_of_le (by unfold footerSize; omega) inRange
  unfold splitBefore
  dsimp only
  rw [newpos, gap, footer]
  have size : sizeAt (setHeader (setMagic (setMagic (setFlag (setSize k.memory address 0) address
      mmFlagHole) (address - 8)) address) address (address - 8)) address = 0 := by
    unfold sizeAt
    simp (disch := omega) only [setMagic, setHeader, Bytes.word_store_of_apart]
    rw [word_setFlag (by decide), sizeAt_setSize]
    decide
  rw [size, usub_of_le (Nat.zero_le _) (by omega)]
  exact ⟨_, rfl⟩

/-- The parts of the hole that has been replaced. -/
theorem Allocated.parts {result : Nat} (wf : k.WellFormed (before ++ [hole] ++ after))
    (isHole : hole.hole = true)
    (allocated : Allocated k k' size result before front hole b rest after) :
    total Block.size front + b.size + total Block.size rest = hole.size ∧
      k'.heap.entrycount + 1 = k.heap.entrycount + (front.length + rest.length) := by
  have wf' := allocated.wellFormed
  have old := wf.tiles.stop_eq
  have new := wf'.tiles.stop_eq
  rw [allocated.start, allocated.end_] at new
  have count (blocks : List Block) (few : AtMostAHole blocks) :
      blocks.countP Block.hole = blocks.length := by
    rcases few with rfl | ⟨one, rfl, isHole⟩
    · rfl
    · exact List.countP_cons_of_pos isHole
  have entries := wf.entrycount_eq
  have entries' := wf'.entrycount_eq
  simp only [List.countP_append, List.countP_cons, isHole, allocated.block, count front
    allocated.inFront, count rest allocated.behind, List.countP_nil] at entries entries'
  simp only [total_append, total] at old new
  constructor
  · omega
  · simp only [if_true, Bool.false_eq_true, if_false] at entries entries'
    omega

/-- A block at the address of the hole is not possible: the entry of the hole is kept. -/
theorem not_allocated_at_page {result : Nat} (wf : k.WellFormed (before ++ [hole] ++ after))
    (isHole : hole.hole = true) (entry : k.entry i = k.heap.start + total Block.size before)
    (made : AllocatedPage k (k.carve size (size + (headerSize + footerSize)) true i).1 size result
      before [] hole b rest after) : False := by
  have wf₁ : k.WellFormed (before ++ hole :: after) := by rwa [List.append_cons]
  have high := Nat.le_trans wf.frameSize_le (Nat.le_add_right _ (total Block.size before))
  have below := wf₁.block_le
  have inRange := wf.inRange
  have large := hole.large
  have small := hole.small
  have width : uintWidth = 4294967296 := rfl
  have widths : sizeWidth = 2147483648 := rfl
  have enough := made.allocated.enough
  obtain ⟨sizes, count⟩ := made.allocated.parts wf isHole
  have none : total Block.size ([] : List Block) = 0 := rfl
  have atPage := made.aligned
  rw [made.allocated.result, List.append_nil] at atPage
  obtain ⟨m, split⟩ := k.splitBefore_at_page atPage high (by omega)
  obtain ⟨size', newsize', tight, roomy, carved⟩ := k.carve_aligned size
    (size + (headerSize + footerSize)) entry wf₁.tagged.size high large (by omega)
  rw [split, wf₁.tagged.size] at carved
  have carved' := congrArg Prod.fst carved
  dsimp only at carved'
  -- There is a hole behind the block, and it has not been entered.
  have entries := (k.setMemory m).place_entrycount (k.heap.start + total Block.size before)
    hole.size size' newsize'
  rw [← carved'] at entries
  have few := made.allocated.behind.length_le
  have setCount : (k.setMemory m).heap.entrycount = k.heap.entrycount := rfl
  have empty : ([] : List Block).length = 0 := rfl
  have whole : usub hole.size newsize' = 0 := by
    by_contra split
    rw [if_neg split] at entries
    omega
  rw [if_pos whole] at entries
  have fits : hole.size - (headerSize + footerSize) < size + (headerSize + footerSize) := by
    by_contra fits
    obtain ⟨_, same⟩ := roomy (Nat.le_of_not_lt fits)
    rw [same, usub_of_le (by omega) (by omega)] at whole
    unfold headerSize footerSize at *
    omega
  obtain ⟨less, same⟩ := tight fits
  -- So the block has the size of the whole hole.
  let b' := Block.inUse hole.size large small
  have size_b' : b'.size = hole.size := rfl
  have more : hole.size = size' + (headerSize + footerSize) := by
    rw [less, usub_of_le (by omega) (by omega), uadd_of_lt (by omega)]
    omega
  obtain ⟨m', put, tagged, _⟩ := place_whole_eq (k.setMemory m)
    (k.heap.start + total Block.size before) (b := b') rfl more (by omega)
  have wf' : (k.carve size (size + (headerSize + footerSize)) true i).1.WellFormed
      (before ++ b :: (rest ++ after)) := by
    have wellFormed := made.allocated.wellFormed
    rwa [List.nil_append, List.append_assoc, List.cons_append] at wellFormed
  have new := wf'.tagged
  rw [made.allocated.start, carved', same] at new
  rw [← size_b', put] at new
  have size_eq : b.size = hole.size := new.size.symm.trans tagged.size
  obtain rfl | ⟨r, rfl, _⟩ := made.allocated.behind
  · rw [empty] at count
    omega
  · have remains := r.large
    have single : total Block.size [r] = r.size := rfl
    unfold headerSize footerSize at remains
    omega

/-- Where the block begins when there is a hole before it. -/
theorem front_of_result (room : headerSize + footerSize ≤ f.size)
    (inRange : address + f.size + (headerSize + footerSize) < uintWidth)
    (result : uadd (k.splitBefore address).2.1 headerSize = address + f.size + headerSize)
    (aligned : (address + f.size + headerSize) % frameSize = 0) :
    RoomInFront address ∧ f.size = frontSize address := by
  have newpos : (k.splitBefore address).2.1 =
      usub (usub (uadd address frameSize) (address % frameSize)) headerSize := rfl
  rw [newpos] at result
  unfold RoomInFront frontSize
  unfold usub uadd headerSize footerSize frameSize uintWidth at *
  omega

/-- A hole with a block before it is where the block ends. -/
theorem hole_behind {r : Block} {entry : Nat}
    (tiles : Tiles Block.size (Tagged m) pos (b :: r :: after) address) (block : b.hole = false)
    (isHole : r.hole = true) (member : entry ∈ holes pos (b :: r :: after))
    (inside : entry < pos + b.size + r.size) : entry = pos + b.size := by
  rw [holes_cons_of_block block, holes_cons_of_hole isHole] at member
  rcases List.mem_cons.mp member with same | member
  · exact same
  · have bounds := bounds_of_mem_holes tiles.2.2 member
    omega

namespace AllocatedPage

variable {result : Nat}

/-- The hole before the block is what lies before the page. -/
theorem room (wf : k.WellFormed (before ++ [hole] ++ after)) (isHole : hole.hole = true)
    (made : AllocatedPage k k' size result before [f] hole b rest after)
    (place : result =
      uadd (k.splitBefore (k.heap.start + total Block.size before)).2.1 headerSize) :
    RoomInFront (k.heap.start + total Block.size before) ∧
      f.size = frontSize (k.heap.start + total Block.size before) := by
  have wf₁ : k.WellFormed (before ++ hole :: after) := by rwa [List.append_cons]
  have below := wf₁.block_le
  have inRange := wf.inRange
  have large := b.large
  obtain ⟨sizes, _⟩ := made.allocated.parts wf isHole
  have single : total Block.size [f] = f.size := rfl
  have address := made.allocated.result
  have aligned := made.aligned
  rw [total_append, single, ← Nat.add_assoc] at address
  rw [address] at aligned
  exact front_of_result f.large (by omega) (place.symm.trans address) aligned

/-- The hole before the block stays in its place in the index. -/
theorem staysBehind (wf : k.WellFormed (before ++ [hole] ++ after)) (sorted : k.Sorted)
    (isHole : hole.hole = true)
    (made : AllocatedPage k k' size result before [f] hole b rest after)
    (listed : k.index.Sublist k'.index) :
    k.StaysBehind (k.heap.start + total Block.size before) f.size := by
  have wf₁ : k.WellFormed (before ++ hole :: after) := by rwa [List.append_cons]
  have wf' : k'.WellFormed (before ++ f :: (b :: rest ++ after)) := by
    have wellFormed := made.allocated.wellFormed
    rwa [List.append_assoc] at wellFormed
  have tagged := wf'.tagged
  rw [made.allocated.start] at tagged
  obtain ⟨sizes, _⟩ := made.allocated.parts wf isHole
  have single : total Block.size [f] = f.size := rfl
  exact (sorted_front_iff wf₁ sorted isHole (by omega) tagged.size made.allocated.low
    made.allocated.high).mp (List.Pairwise.sublist listed made.sorted)

/-- What remains behind the block, when it has been entered. -/
theorem size_of_entered {r : Block} {entry : Nat} (wf : k.WellFormed (before ++ [hole] ++ after))
    (isHole : hole.hole = true) (isHole' : r.hole = true)
    (made : AllocatedPage k k' size result before [f] hole b [r] after)
    (listed : entry ∈ k'.index)
    (above : k.heap.start + total Block.size before + f.size < entry)
    (inside : entry < k.heap.start + total Block.size before + hole.size) :
    entry = k.heap.start + total Block.size before + f.size + b.size := by
  obtain ⟨sizes, _⟩ := made.allocated.parts wf isHole
  have single (one : Block) : total Block.size [one] = one.size := rfl
  rw [single, single] at sizes
  have wf' : k'.WellFormed (before ++ [f] ++ b :: r :: after) := by
    have wellFormed := made.allocated.wellFormed
    rwa [← List.append_assoc, List.append_assoc] at wellFormed
  have place : k'.heap.start + total Block.size (before ++ [f]) =
      k.heap.start + total Block.size before + f.size := by
    rw [made.allocated.start, total_append, single, Nat.add_assoc]
  obtain ⟨first, last⟩ := tiles_append.mp wf'.tiles
  have member := wf'.index.mem_iff.mp listed
  rw [holes_append] at member
  rw [place] at first last member
  rcases List.mem_append.mp member with member | member
  · have bounds := bounds_of_mem_holes first member
    omega
  · exact hole_behind last made.allocated.block isHole' member (by omega)

end AllocatedPage

/-- The hole can be split when a block at a page with a hole before it is made of it. -/
theorem canAlign_of_front (wf : k.WellFormed (before ++ [hole] ++ after)) (sorted : k.Sorted)
    (isHole : hole.hole = true) (entry : k.entry i = k.heap.start + total Block.size before)
    (positive : 1 ≤ size)
    (made : AllocatedPage k (k.carve size (size + (headerSize + footerSize)) true i).1 size
      (k.carve size (size + (headerSize + footerSize)) true i).2 before [f] hole b rest after) :
    k.CanAlign (k.heap.start + total Block.size before) hole.size size := by
  have wf₁ : k.WellFormed (before ++ hole :: after) := by rwa [List.append_cons]
  have high := Nat.le_trans wf.frameSize_le (Nat.le_add_right _ (total Block.size before))
  have below := wf₁.block_le
  have inRange := wf.inRange
  have large := hole.large
  have small := hole.small
  have width : uintWidth = 4294967296 := rfl
  have widths : sizeWidth = 2147483648 := rfl
  have enough := made.allocated.enough
  have slots : k.slot k.heap.entrycount ≤ k.heap.start := wf.slot_le wf.capacity
  obtain ⟨sizes, count⟩ := made.allocated.parts wf isHole
  have single (one : Block) : total Block.size [one] = one.size := rfl
  rw [single] at sizes
  have large' := f.large
  have isHole' : f.hole = true := by
    rcases made.allocated.inFront with none | ⟨_, same, isHole'⟩
    · cases none
    · cases same
      exact isHole'
  obtain ⟨_, _, _, _, carved⟩ := k.carve_aligned size
    (size + (headerSize + footerSize)) entry wf₁.tagged.size high large (by omega)
  have address := congrArg Prod.snd carved
  dsimp only at address
  obtain ⟨room, front⟩ := made.room wf isHole address
  obtain ⟨m, carved', _, only⟩ :=
    carve_aligned_eq wf₁ entry room isHole' front
      (show f.size + (size + (headerSize + footerSize)) ≤ hole.size by omega)
  have put := congrArg Prod.fst carved'
  dsimp only at put
  have index : (k.setMemory m).index = k.index :=
    index_setMemory (only.same (.inl (by omega)))
  unfold CanAlign
  rw [← front]
  let b' := Block.inUse (size + (headerSize + footerSize)) (Nat.le_add_left ..) (by omega)
  have size_b' : b'.size = size + (headerSize + footerSize) := rfl
  by_cases whole : usub (hole.size - f.size) b'.size = 0
  · have same : hole.size - f.size = b'.size := by
      rw [usub_of_le (by omega) (by omega)] at whole
      omega
    obtain ⟨m', put', _, only'⟩ := place_whole_eq (k.setMemory m)
      (k.heap.start + total Block.size before + f.size) (b := b') rfl rfl (by omega)
    have index' : ((k.setMemory m).setMemory m').index = (k.setMemory m).index :=
      index_setMemory (only'.same (.inl (show k.slot k.heap.entrycount ≤ _ by omega)))
    rw [same] at put
    have listed : (k.carve size (size + (headerSize + footerSize)) true i).1.index = k.index := by
      rw [put.trans put', index', index]
    refine ⟨positive, room, made.staysBehind wf sorted isHole ?_, .inl (by omega)⟩
    rw [listed]
  · have entries := (k.setMemory m).place_entrycount
      (k.heap.start + total Block.size before + f.size) (hole.size - f.size) size b'.size
    rw [if_neg whole] at entries
    have entries' := (congrArg (fun k => k.heap.entrycount) put).trans entries
    have setCount : (k.setMemory m).heap.entrycount = k.heap.entrycount := rfl
    have one : [f].length = 1 := rfl
    obtain none | ⟨r, rfl, isHole''⟩ := made.allocated.behind
    · have empty : rest.length = 0 := congrArg List.length none
      omega
    rw [single] at sizes
    have remains := r.large
    have some_size : 0 < headerSize + footerSize := by decide
    -- What remains has been entered, so it is the hole behind the block.
    obtain ⟨m', put'⟩ := (k.setMemory m).place_of_split
      (k.heap.start + total Block.size before + f.size) size whole
    have next : uadd (k.heap.start + total Block.size before + f.size) b'.size =
        k.heap.start + total Block.size before + f.size + b'.size := uadd_of_lt (by omega)
    rw [next] at put'
    have small' : k.heap.start + total Block.size before + f.size + b'.size < uintWidth := by
      omega
    have added := (((k.setMemory m).setMemory m').heapAddEntry_indexed small').index
    have listed : k.heap.start + total Block.size before + f.size + b'.size ∈
        (k.carve size (size + (headerSize + footerSize)) true i).1.index := by
      rw [put.trans put', added]
      exact (List.mem_orderedInsert _).mpr (.inl rfl)
    have next' := made.size_of_entered wf isHole isHole'' listed (by omega) (by omega)
    have size_b : b.size = b'.size := by omega
    have same : hole.size - f.size = b'.size + r.size := by omega
    obtain ⟨m₂, put₂, _, _, only'⟩ := place_split_eq (k.setMemory m)
      (k.heap.start + total Block.size before + f.size) (b := b') rfl isHole'' rfl
      (show _ ≤ k.heap.end_ by omega) inRange
    have index' : ((k.setMemory m).setMemory m₂).index = (k.setMemory m).index :=
      index_setMemory (only'.same (.inl (show k.slot k.heap.entrycount ≤ _ by omega)))
    rw [same] at put
    have added₂ := (((k.setMemory m).setMemory m₂).heapAddEntry_indexed small').index
    have kept : k.index.Sublist
        (k.carve size (size + (headerSize + footerSize)) true i).1.index := by
      rw [put.trans put₂, added₂, index', index]
      exact List.sublist_orderedInsert ..
    have capacity := made.allocated.wellFormed.capacity
    rw [made.allocated.wellFormed.slots, ← wf.slots] at capacity
    exact ⟨positive, room, made.staysBehind wf sorted isHole kept, .inr ⟨by omega, by omega⟩⟩

/-- `heap_malloc` with the hole that it has found, when the payload is to begin at a page. -/
theorem allocatedPage_iff (wf : k.WellFormed (before ++ hole :: after)) (sorted : k.Sorted)
    (isHole : hole.hole = true) (entry : k.entry i = k.heap.start + total Block.size before)
    (found : k.findSmallestHole (uadd size (headerSize + footerSize)) true = some i)
    (depth : Nat) :
    (∃ k' result front b rest, heapMalloc (depth + 1) size true k = some (k', result) ∧
      AllocatedPage k k' size result before front hole b rest after) ↔
      k.CanAlign (k.heap.start + total Block.size before) hole.size size := by
  have wf' : k.WellFormed (before ++ [hole] ++ after) := by rwa [← List.append_cons]
  have small := hole.small
  have width : uintWidth = 4294967296 := rfl
  have widths : sizeWidth = 2147483648 := rfl
  have carves (positive : 1 ≤ size) (fits : size + (headerSize + footerSize) < uintWidth) :
      heapMalloc (depth + 1) size true k =
        some (k.carve size (size + (headerSize + footerSize)) true i) := by
    have nonzero : size ≠ 0 := Nat.ne_of_gt positive
    rw [uadd_of_lt fits] at found
    rw [heapMalloc, uadd_of_lt fits, if_neg nonzero, found]
  constructor
  · rintro ⟨k', result, front, b, rest, made, page⟩
    have large := b.small
    have enough := page.allocated.enough
    have address := page.allocated.result
    have positive : 1 ≤ size := by
      by_contra none
      have zero : size = 0 := by omega
      have returned : heapMalloc (depth + 1) size true k = some (k, 0) := by
        rw [heapMalloc, if_pos zero]
      rw [returned, Option.some.injEq, Prod.mk.injEq] at made
      have some_size : 0 < headerSize := by decide
      omega
    rw [carves positive (by omega), Option.some.injEq] at made
    obtain rfl : (k.carve size (size + (headerSize + footerSize)) true i).1 = k' := by rw [made]
    obtain rfl : (k.carve size (size + (headerSize + footerSize)) true i).2 = result := by rw [made]
    rcases page.allocated.inFront with rfl | ⟨f, rfl, _⟩
    · exact (not_allocated_at_page wf' isHole entry page).elim
    · exact canAlign_of_front wf' sorted isHole entry positive page
  · intro can
    obtain ⟨f, b, rest, page⟩ := carve_allocatedPage wf sorted isHole entry can
    obtain ⟨positive, _, _, fits⟩ := can
    refine ⟨_, _, [f], b, rest, ?_, page⟩
    rw [carves positive (by omega)]

/-- `heap_malloc` when the payload is to begin at a page and a hole has been found: the block is
put into the hole, with holes of at least 16 bytes before and behind it or nothing, exactly if
`CanAlign` holds. -/
theorem heapMalloc_pageAligned_iff (wf : k.WellFormed blocks) (sorted : k.Sorted)
    (found : k.findSmallestHole (uadd size (headerSize + footerSize)) true = some i)
    (depth : Nat) : ∃ before hole after, blocks = before ++ hole :: after ∧ hole.hole = true ∧
      k.entry i = k.heap.start + total Block.size before ∧
      ((∃ k' result front b rest, heapMalloc (depth + 1) size true k = some (k', result) ∧
        AllocatedPage k k' size result before front hole b rest after) ↔
        k.CanAlign (k.entry i) hole.size size) := by
  obtain ⟨inside, _⟩ := findSmallestHole_some found
  obtain ⟨before, hole, after, rfl, isHole, entry⟩ := wf.hole_of_entry inside
  refine ⟨before, hole, after, rfl, isHole, entry, ?_⟩
  rw [entry]
  exact allocatedPage_iff wf sorted isHole entry found depth

/-- The only hole of a heap is found if it suits. -/
theorem findSmallestHole_single {front : List Block} {pageAlign : Bool}
    (wf : k.WellFormed (front ++ [hole])) (inUse : holes k.heap.start front = [])
    (isHole : hole.hole = true)
    (suits : k.suits newsize pageAlign (k.heap.start + total Block.size front)) :
    k.findSmallestHole newsize pageAlign = some 0 ∧
      k.entry 0 = k.heap.start + total Block.size front := by
  have index := wf.index
  rw [holes_append, inUse, holes_cons_of_hole isHole] at index
  have single := List.perm_singleton.mp index
  have first := k.getElem?_index 0
  rw [single, ← length_index, single, List.length_singleton, if_pos Nat.one_pos] at first
  constructor
  · unfold findSmallestHole
    rw [single, List.findIdx?_cons, if_pos (decide_eq_true suits)]
  · exact (Option.some.inj first).symm

/-- A hole of two pages. -/
def holePages : Block := Block.free 8192 (by decide) (by decide)

/-- A block in use that ends where the header of a block at a page begins. -/
def blockBefore : Block := Block.inUse 4088 (by decide) (by decide)

/-- Blocks in use with a hole of 208 bytes and one of two pages between them. -/
def scatteredPages : List Block :=
  [Block.inUse 80 (by decide) (by decide), Block.free 208 (by decide) (by decide),
    Block.inUse 88 (by decide) (by decide), holePages, Block.inUse 96 (by decide) (by decide)]

/-- A heap of two holes, from the second one of which 100 bytes are allocated at a page. -/
theorem heapMalloc_pageAligned_iff_hundred :
    ∃ before hole after, scatteredPages = before ++ hole :: after ∧
      hole.hole = true ∧
      (secondMegabyte scatteredPages).entry 1 =
        (secondMegabyte scatteredPages).heap.start +
          total Block.size before ∧
      ((∃ k' result front b rest, heapMalloc 1 100 true
          (secondMegabyte scatteredPages) = some (k', result) ∧
        AllocatedPage (secondMegabyte scatteredPages) k' 100 result
          before front hole b rest after) ↔
        (secondMegabyte scatteredPages).CanAlign
          ((secondMegabyte scatteredPages).entry 1) hole.size 100) := by
  have made := @secondMegabyte_wellFormed scatteredPages (by decide) (by decide)
  exact heapMalloc_pageAligned_iff made.1 made.2 (by decide +kernel) 0

/-- When the payload of a hole is at a page already, it is not allocated from it as it should
be: its entry stays in the index. -/
theorem heapMalloc_pageAligned_not :
    (secondMegabyte [blockBefore, holePages]).WellFormed [blockBefore, holePages] ∧
      (secondMegabyte [blockBefore, holePages]).Sorted ∧
      (secondMegabyte [blockBefore, holePages]).findSmallestHole
        (uadd 100 (headerSize + footerSize)) true = some 0 ∧
      ¬∃ k' result front b rest,
        heapMalloc 1 100 true (secondMegabyte [blockBefore, holePages]) = some (k', result) ∧
          AllocatedPage (secondMegabyte [blockBefore, holePages]) k' 100 result [blockBefore] front
            holePages b rest [] := by
  have made := @secondMegabyte_wellFormed [blockBefore, holePages] (by decide) (by decide)
  have start := congrArg Heap.start (secondMegabyte_heap [blockBefore, holePages])
  have wf : (secondMegabyte [blockBefore, holePages]).WellFormed ([blockBefore] ++ [holePages]) :=
    made.1
  have size := wf.tagged.size
  have suits : (secondMegabyte [blockBefore, holePages]).suits (uadd 100 (headerSize + footerSize))
      true ((secondMegabyte [blockBefore, holePages]).heap.start +
        total Block.size [blockBefore]) := by
    rw [suits, if_pos rfl, size, start]
    decide
  obtain ⟨found, entry⟩ := findSmallestHole_single wf rfl rfl suits
  refine ⟨made.1, made.2, found, fun allocated => ?_⟩
  have room := ((allocatedPage_iff wf made.2 rfl entry found 0).mp allocated).2.1
  rw [start] at room
  exact absurd room (by unfold RoomInFront; decide)

end KernelHeap

end Nupkux
