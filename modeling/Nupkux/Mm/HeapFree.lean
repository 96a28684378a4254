import Nupkux.Mm.HeapCreation
import Mathlib.Data.List.Chain

/-!
# Release

`heap_free` away from the end of the heap: the block and the holes next to it are to become one
hole. The hole before the block grows where it is in the index, and the footer of the hole after
the block keeps pointing at the header that it had.
-/

namespace Nupkux

open Tiling

namespace KernelHeap

variable {k k' : KernelHeap} {m m' : Bytes} {address header : Nat} {b x : Block} {left before after right : List Block}

/-! ## What is next to a block -/

/-- The footer before a header tells whether there is a hole. -/
theorem holeBefore_iff (tagged : Tagged m address x) (next : address + x.size = header)
    (inRange : header < uintWidth) : holeBefore m header ↔ x.hole = true := by
  have large := x.large
  have footer : usub header footerSize = address + x.size - footerSize := by
    rw [next]
    exact usub_of_le (by omega) inRange
  unfold holeBefore
  rw [footer, tagged.footerMagic, tagged.footerHeader, tagged.magic, tagged.flag,
    Block.flag_eq_hole]
  exact ⟨fun looks => looks.2.2, fun isHole => ⟨rfl, rfl, isHole⟩⟩

/-- The footer before a header points at the block before it. -/
theorem headerAt_before (tagged : Tagged m address x) (next : address + x.size = header)
    (inRange : header < uintWidth) : headerAt m (usub header footerSize) = address := by
  have large := x.large
  have footer : usub header footerSize = address + x.size - footerSize := by
    rw [next]
    exact usub_of_le (by omega) inRange
  rw [footer, tagged.footerHeader]

/-- A header tells whether there is a hole. -/
theorem holeAt_iff (tagged : Tagged m header x) : holeAt m header ↔ x.hole = true := by
  unfold holeAt
  rw [tagged.magic, tagged.flag, Block.flag_eq_hole]
  exact ⟨And.right, fun isHole => ⟨rfl, isHole⟩⟩

/-- So much space looks like a hole. Its size is cut to the field for it. -/
structure HoleFrom (m : Bytes) (address space : Nat) : Prop where
  magic : magicAt m address = mmMagic
  size : sizeAt m address = space % sizeWidth
  flag : flagAt m address = mmFlagHole
  footerMagic : magicAt m (address + space - footerSize) = mmMagic
  footerHeader : headerAt m (address + space - footerSize) = address

/-- A hole as a block. -/
theorem HoleFrom.tagged {hole : Block} (looks : HoleFrom m address hole.size)
    (isHole : hole.hole = true) : Tagged m address hole :=
  ⟨looks.magic, looks.size.trans (Nat.mod_eq_of_lt hole.small),
    looks.flag.trans (if_pos isHole).symm, looks.footerMagic, looks.footerHeader⟩

/-- A block looks like a hole after its flag is set. -/
theorem holeFrom_setFlag (tagged : Tagged m header b) :
    HoleFrom (setFlag m header mmFlagHole) header b.size ∧
      Bytes.OnlyIn header (header + headerSize) m (setFlag m header mmFlagHole) := by
  have large := b.large
  unfold headerSize footerSize at large
  have others {a : Nat} (apart : a + 4 ≤ header + 4 ∨ header + 8 ≤ a) :
      (setFlag m header mmFlagHole).word a = m.word a :=
    Bytes.word_store_of_apart _ _ (by omega)
  have last : header + 8 ≤ header + b.size - footerSize := by
    unfold footerSize
    omega
  constructor
  · constructor
    · exact (others (.inl (Nat.le_refl _))).trans tagged.magic
    · exact (sizeAt_setFlag (by decide)).trans
        (tagged.size.trans (Nat.mod_eq_of_lt b.small).symm)
    · exact flagAt_setFlag (by decide)
    · exact (others (.inr last)).trans tagged.footerMagic
    · exact (others (.inr (Nat.le_add_right_of_le last))).trans tagged.footerHeader
  · exact Bytes.onlyIn_store _ _ (Nat.le_add_right ..) (Nat.le_refl _)

/-- `heap_free` joins a block with the hole before it. -/
theorem joinBefore_eq (k : KernelHeap) {hole : Block} (isHole : hole.hole = true)
    (first : Tagged k.memory address hole) (second : HoleFrom k.memory (address + hole.size) b.size)
    (inRange : address + hole.size + b.size < uintWidth) :
    ∃ m, k.joinBefore (address + hole.size) (address + hole.size + b.size - footerSize) b.size =
        (k.setMemory m, address) ∧
      HoleFrom m address (hole.size + b.size) ∧
      Bytes.OnlyIn address (address + hole.size + b.size) k.memory m := by
  have large := hole.large
  have large' := b.large
  have small := hole.small
  have small' := b.small
  have width : uintWidth = 4294967296 := rfl
  have widths : sizeWidth = 2147483648 := rfl
  have place : headerAt k.memory (usub (address + hole.size) footerSize) = address :=
    headerAt_before first rfl (by omega)
  have value : address % 4294967296 = address := Nat.mod_eq_of_lt (by omega)
  unfold headerSize footerSize at large large'
  have footer : address + (hole.size + b.size) - footerSize =
      address + hole.size + b.size - footerSize := by omega
  have apart : address + 8 ≤ address + hole.size + b.size - footerSize := by
    unfold footerSize
    omega
  have size : sizeAt (setHeader k.memory address (address + hole.size + b.size - footerSize))
      address = hole.size := by
    rw [sizeAt, setHeader, Bytes.word_store_of_apart _ _ (by omega)]
    exact first.size
  have sum : uadd hole.size b.size = hole.size + b.size := uadd_of_lt (by omega)
  have others {a v : Nat} (outside : a + 4 ≤ address + 4 ∨ address + 8 ≤ a) (m : Bytes) :
      (setSize m address v).word a = m.word a :=
    Bytes.word_store_of_apart _ _ (by omega)
  unfold joinBefore
  dsimp only
  rw [place, size, sum]
  refine ⟨_, rfl, ⟨?_, ?_, ?_, ?_, ?_⟩, ?_⟩
  · rw [magicAt, others (.inl (Nat.le_refl _)), setHeader, Bytes.word_store_of_apart _ _ (by omega)]
    exact first.magic
  · exact sizeAt_setSize
  · rw [flagAt_setSize, flagAt, setHeader, Bytes.word_store_of_apart _ _ (by omega)]
    exact first.flag.trans (if_pos isHole)
  · rw [footer, magicAt, others (.inr apart), setHeader,
      Bytes.word_store_of_apart _ _ (by omega)]
    exact second.footerMagic
  · rw [footer, headerAt, others (.inr (by omega)), setHeader, Bytes.word_store_self, value]
  · unfold setSize setHeader footerSize
    apply_rules [Bytes.OnlyIn.store, Bytes.OnlyIn.refl] <;> omega

/-- `heap_free` of a block with its header and footer. -/
theorem heapFree_eq (tagged : Tagged k.memory header b) (inRange : header + b.size < uintWidth) :
    k.heapFree (header + headerSize) =
      if holeBefore (setFlag k.memory header mmFlagHole) header then
        ((k.setMemory (setFlag k.memory header mmFlagHole)).joinBefore header
          (header + b.size - footerSize) b.size).1.settle
          ((k.setMemory (setFlag k.memory header mmFlagHole)).joinBefore header
            (header + b.size - footerSize) b.size).2 (header + b.size - footerSize)
      else ((k.setMemory (setFlag k.memory header mmFlagHole)).settle header
        (header + b.size - footerSize)).heapAddEntry header := by
  have large := b.large
  have place : usub (header + headerSize) headerSize = header := by
    rw [usub_of_le (Nat.le_add_left ..) (by unfold headerSize footerSize at *; omega)]
    exact Nat.add_sub_cancel ..
  have footer : usub (uadd header b.size) footerSize = header + b.size - footerSize := by
    rw [uadd_of_lt inRange]
    exact usub_of_le (by omega) inRange
  have notNull : header + headerSize ≠ 0 := Nat.succ_ne_zero _
  have magic : ¬(magicAt k.memory header ≠ mmMagic ∨
      magicAt k.memory (header + b.size - footerSize) ≠ mmMagic) := by
    rw [tagged.magic, tagged.footerMagic]
    exact fun differ => differ.elim (absurd rfl) (absurd rfl)
  unfold heapFree
  dsimp only
  rw [place, tagged.size, footer, if_neg notNull, if_neg magic]
  rfl

/-- `heap_free` of a block without a hole before it. -/
theorem heapFree_alone (tagged : Tagged k.memory header b) (inRange : header + b.size < uintWidth)
    (clear : ¬holeBefore (setFlag k.memory header mmFlagHole) header) :
    ∃ m, k.heapFree (header + headerSize) =
        ((k.setMemory m).settle header (header + b.size - footerSize)).heapAddEntry header ∧
      HoleFrom m header b.size ∧ Bytes.OnlyIn header (header + headerSize) k.memory m := by
  obtain ⟨freed, only⟩ := holeFrom_setFlag tagged
  refine ⟨_, ?_, freed, only⟩
  rw [heapFree_eq tagged inRange, if_neg clear]

/-- `heap_free` of a block with a hole before it. -/
theorem heapFree_behind {hole : Block} (isHole : hole.hole = true)
    (first : Tagged k.memory address hole) (second : Tagged k.memory (address + hole.size) b)
    (inRange : address + hole.size + b.size < uintWidth) :
    ∃ m, k.heapFree (address + hole.size + headerSize) =
        (k.setMemory m).settle address (address + hole.size + b.size - footerSize) ∧
      HoleFrom m address (hole.size + b.size) ∧
      Bytes.OnlyIn address (address + hole.size + b.size) k.memory m := by
  obtain ⟨freed, only⟩ := holeFrom_setFlag second
  have kept : Tagged (setFlag k.memory (address + hole.size) mmFlagHole) address hole :=
    first.same_of_bytes (only.same (.inl (Nat.le_refl _)))
  have looks : holeBefore (setFlag k.memory (address + hole.size) mmFlagHole)
      (address + hole.size) := (holeBefore_iff kept rfl (by omega)).mpr isHole
  obtain ⟨m, joined, joint, only'⟩ := joinBefore_eq (k.setMemory (setFlag k.memory
    (address + hole.size) mmFlagHole)) isHole kept freed inRange
  refine ⟨m, ?_, joint, ?_⟩
  · rw [heapFree_eq second inRange, if_pos looks, joined]
    rfl
  · have large := b.large
    exact (only.mono (Nat.le_add_right ..) (by omega)).trans only'

/-! ## What comes after the block -/

/-- `heap_free` when what follows looks like a hole. -/
theorem settle_of_holeAt (k : KernelHeap) (header : Nat) {stop : Nat} (looks : holeAt k.memory stop) (enough : footerSize ≤ stop)
    (small : stop < uintWidth) :
    k.settle header (stop - footerSize) =
      if uadd (k.joinAfter header stop).2 footerSize = (k.joinAfter header stop).1.heap.end_ then
        (k.joinAfter header stop).1.shrink header
      else (k.joinAfter header stop).1 := by
  have sum : uadd (stop - footerSize) footerSize = stop := by
    rw [uadd_of_lt (by omega)]
    exact Nat.sub_add_cancel enough
  unfold settle
  dsimp only
  rw [sum, if_pos looks]

/-- `heap_free` when what follows does not look like a hole. -/
theorem settle_of_not_holeAt (k : KernelHeap) (header : Nat) {stop : Nat} (looks : ¬holeAt k.memory stop)
    (enough : footerSize ≤ stop) (small : stop < uintWidth) :
    k.settle header (stop - footerSize) = if stop = k.heap.end_ then k.shrink header else k := by
  have sum : uadd (stop - footerSize) footerSize = stop := by
    rw [uadd_of_lt (by omega)]
    exact Nat.sub_add_cancel enough
  unfold settle
  dsimp only
  rw [sum, if_neg looks]
  dsimp only
  rw [sum]

/-- Nothing is joined when the next block is in use. -/
theorem settle_of_block {stop : Nat} (next : Tagged k.memory stop x) (block : x.hole = false)
    (enough : footerSize ≤ stop) (inside : stop < k.heap.end_) (inRange : k.heap.end_ < uintWidth) :
    k.settle header (stop - footerSize) = k := by
  have live : ¬holeAt k.memory stop := by
    rw [holeAt_iff next, block]
    exact Bool.false_ne_true
  rw [settle_of_not_holeAt k header live enough (by omega)]
  exact if_neg (Nat.ne_of_lt inside)

/-- The memory, the entry and the footer when the hole after the block has been joined. -/
theorem joinAfter_eq (k : KernelHeap) (header tmpheader : Nat) :
    ∃ m, setSize k.memory header (uadd (sizeAt k.memory header) (sizeAt k.memory tmpheader)) = m ∧
      (k.joinAfter header tmpheader).1 =
        (k.setMemory m).heapDelEntry ((k.setMemory m).heapFindEntry tmpheader) ∧
      (k.joinAfter header tmpheader).2 =
        usub (uadd tmpheader (sizeAt m tmpheader)) footerSize :=
  ⟨_, rfl, rfl, rfl⟩

/-- The end of the hole that has been joined. -/
theorem joinAfter_footer {stop size : Nat} (sizes : sizeAt (setSize k.memory header
      (uadd (sizeAt k.memory header) (sizeAt k.memory stop))) stop = size)
    (enough : footerSize ≤ size) (inRange : stop + size < uintWidth) :
    uadd (k.joinAfter header stop).2 footerSize = stop + size := by
  have whole : uadd stop size = stop + size := uadd_of_lt (by omega)
  have last : usub (stop + size) footerSize = stop + size - footerSize :=
    usub_of_le (by omega) (by omega)
  unfold joinAfter
  dsimp only
  rw [sizes, whole, last, uadd_of_lt (by omega)]
  omega

/-- The next hole is joined when it does not reach the end. -/
theorem settle_of_hole {stop : Nat} (next : Tagged k.memory stop x) (isHole : x.hole = true)
    (enough : footerSize ≤ stop) (inside : stop + x.size < k.heap.end_)
    (inRange : k.heap.end_ < uintWidth) (apart : header + headerSize ≤ stop) :
    k.settle header (stop - footerSize) = (k.joinAfter header stop).1 := by
  have large := x.large
  have looks : holeAt k.memory stop := (holeAt_iff next).mpr isHole
  have size : sizeAt (setSize k.memory header (uadd (sizeAt k.memory header)
      (sizeAt k.memory stop))) stop = x.size := by
    unfold headerSize at apart
    rw [sizeAt, setSize, Bytes.word_store_of_apart _ _ (by omega)]
    exact next.size
  have footer := joinAfter_footer size (by omega) (by omega)
  rw [settle_of_holeAt k header looks enough (by omega), footer]
  apply if_neg
  unfold joinAfter
  dsimp only
  rw [heapDelEntry_heap]
  exact Nat.ne_of_lt inside

/-! ## The joined hole -/

/-- Blocks that may stand next to a hole without being one themselves. -/
def EndsInUse (blocks : List Block) : Prop := ∀ other ∈ blocks.getLast?, other.hole = false

/-- Blocks of which the first one is in use. -/
def BeginsInUse (blocks : List Block) : Prop := ∀ other ∈ blocks.head?, other.hole = false

/-- A block in use, with the holes next to it and the other blocks. -/
structure Neighbours (left before : List Block) (b : Block) (after right : List Block) :
    Prop where
  block : b.hole = false
  before : AtMostAHole before
  after : AtMostAHole after
  left : EndsInUse left
  right : BeginsInUse right

/-- Some neighbouring blocks have become one hole, and everything else is as before. -/
structure Joined (k k' : KernelHeap) (left middle right : List Block) (hole : Block) :
    Prop where
  isHole : hole.hole = true
  size : hole.size = total Block.size middle
  wellFormed : k'.WellFormed (left ++ [hole] ++ right)
  sorted : k'.Sorted
  coalesced : Coalesced (left ++ [hole] ++ right)
  start : k'.heap.start = k.heap.start
  end_ : k'.heap.end_ = k.heap.end_
  low : Bytes.Same k.heap.start (k.heap.start + total Block.size left) k.memory k'.memory
  high : Bytes.Same (k.heap.start + total Block.size (left ++ middle)) k.heap.end_ k.memory
    k'.memory

/-- A hole between blocks in use is not next to another one. -/
theorem coalesced_around {middle : List Block} {hole : Block}
    (coalesced : Coalesced (left ++ middle ++ right)) (endsInUse : EndsInUse left)
    (beginsInUse : BeginsInUse right) : Coalesced (left ++ [hole] ++ right) := by
  obtain ⟨whole, last, _⟩ := List.isChain_append.mp coalesced
  obtain ⟨first, _, _⟩ := List.isChain_append.mp whole
  refine List.isChain_append.mpr ⟨List.isChain_append.mpr ⟨first, .singleton _, ?_⟩, last, ?_⟩
  · intro other member _ _ both
    rw [endsInUse other member] at both
    exact Bool.false_ne_true both.1
  · intro _ _ other member both
    rw [beginsInUse other member] at both
    exact Bool.false_ne_true both.2

/-- Blocks are coalesced when a block and perhaps a hole are put between those that are. -/
theorem coalesced_placed {rest : List Block} (first : Coalesced before) (last : Coalesced after)
    (begins : BeginsInUse after) (block : b.hole = false) (few : AtMostAHole rest) :
    Coalesced (before ++ ([] ++ b :: rest) ++ after) := by
  have middle : Coalesced (b :: rest) := by
    rcases few with rfl | ⟨hole, rfl, _⟩
    · exact .singleton _
    · refine List.isChain_cons_cons.mpr ⟨fun both => ?_, .singleton _⟩
      rw [block] at both
      exact Bool.false_ne_true both.1
  refine List.isChain_append.mpr ⟨List.isChain_append.mpr ⟨first, middle, ?_⟩, last, ?_⟩
  · intro _ _ other member both
    rw [← Option.some.inj member, block] at both
    exact Bool.false_ne_true both.2
  · intro _ _ other member both
    rw [begins other member] at both
    exact Bool.false_ne_true both.2

/-- What is behind a hole is in use. -/
theorem Coalesced.behind {hole : Block} (coalesced : Coalesced (before ++ hole :: after))
    (isHole : hole.hole = true) : Coalesced before ∧ Coalesced after ∧ BeginsInUse after := by
  obtain ⟨first, last, _⟩ := List.isChain_append.mp coalesced
  refine ⟨first, last.tail, fun other member => ?_⟩
  cases after with
  | nil => cases member
  | cons y after =>
    have apart := (List.isChain_cons_cons.mp last).1
    rw [← Option.some.inj member, Bool.eq_false_iff]
    exact fun both => apart ⟨isHole, both⟩

/-- The index is kept by stores into the heap. -/
theorem WellFormed.index_setMemory {blocks : List Block} {low high : Nat} (wf : k.WellFormed blocks)
    (only : Bytes.OnlyIn low high k.memory m) (inHeap : k.heap.start ≤ low) :
    (k.setMemory m).index = k.index := by
  have slots := wf.slot_le wf.capacity
  exact KernelHeap.index_setMemory (only.same (.inl (by omega)))

/-- A block that looks like a hole has been entered as one. -/
structure EnteredAlone (k k' : KernelHeap) (left : List Block) (b : Block) (right : List Block)
    (hole : Block) : Prop where
  wellFormed : k'.WellFormed (left ++ [hole] ++ right)
  start : k'.heap.start = k.heap.start
  end_ : k'.heap.end_ = k.heap.end_
  low : Bytes.Same k.heap.start (k.heap.start + total Block.size left) k.memory k'.memory
  high : Bytes.Same (k.heap.start + total Block.size (left ++ [b])) k.heap.end_ k.memory k'.memory

/-- `heap_free` enters a block that looks like a hole. -/
theorem entered_alone {hole : Block} (wf : k.WellFormed (left ++ [b] ++ right))
    (block : b.hole = false) (isHole : hole.hole = true) (size : hole.size = b.size)
    (looks : HoleFrom m (k.heap.start + total Block.size left) b.size)
    (only : Bytes.OnlyIn (k.heap.start + total Block.size left)
      (k.heap.start + total Block.size left + b.size) k.memory m)
    (room : k.heap.entrycount < k.heap.maxentries) :
    EnteredAlone k ((k.setMemory m).heapAddEntry (k.heap.start + total Block.size left)) left b right
      hole := by
  have wf' : k.WellFormed (left ++ b :: right) := by rwa [List.append_cons]
  have last : total Block.size (left ++ [b]) = total Block.size left + b.size := total_append ..
  have inside := wf'.block_le
  have inRange := wf.inRange
  have large := b.large
  have slots : (k.setMemory m).slot ((k.setMemory m).heap.entrycount + 1) ≤ k.heap.start :=
    wf.slot_le room
  have small : k.heap.start + total Block.size left < uintWidth := by omega
  have added := (k.setMemory m).heapAddEntry_indexed small
  have index := wf.index_setMemory only (Nat.le_add_right ..)
  rw [index] at added
  have heap : ((k.setMemory m).heapAddEntry (k.heap.start + total Block.size left)).heap =
      { k.heap with entrycount := k.heap.entrycount + 1 } := heapAddEntry_heap ..
  have others : Bytes.Same k.heap.start k.heap.end_ m
      ((k.setMemory m).heapAddEntry (k.heap.start + total Block.size left)).memory :=
    added.memory.same (.inr slots)
  have low : Bytes.Same k.heap.start (k.heap.start + total Block.size left) k.memory
      ((k.setMemory m).heapAddEntry (k.heap.start + total Block.size left)).memory :=
    (only.same (.inl (Nat.le_refl _))).trans (others.mono (Nat.le_refl _) (by omega))
  have high : Bytes.Same (k.heap.start + total Block.size (left ++ [b])) k.heap.end_ k.memory
      ((k.setMemory m).heapAddEntry (k.heap.start + total Block.size left)).memory :=
    (only.same (.inr (by omega))).trans (others.mono (by omega) (Nat.le_refl _))
  rw [← size] at looks
  have perm := wf.index
  rw [List.append_assoc, holes_append, List.singleton_append, holes_cons_of_block block] at perm
  refine ⟨?_, ?_, ?_, low, high⟩
  · apply wf.replace
    · rw [heap]
    · rw [heap]
      exact room
    · refine ⟨(looks.tagged isHole).same_of_bytes (others.mono (Nat.le_add_right ..) ?_), ?_⟩
      · omega
      · rw [size, last, ← Nat.add_assoc]
        rfl
    · exact low
    · exact high
    · rw [added.index, holes_cons_of_hole isHole, last, ← Nat.add_assoc]
      refine (List.perm_orderedInsert ..).trans ((perm.cons _).trans ?_)
      rw [List.append_assoc]
      exact List.perm_middle.symm
  · rw [heap]
  · rw [heap]

/-- A block without a hole next to it has become a hole. -/
theorem joined_alone {hole : Block} (wf : k.WellFormed (left ++ [b] ++ right)) (sorted : k.Sorted)
    (coalesced : Coalesced (left ++ [hole] ++ right)) (block : b.hole = false)
    (isHole : hole.hole = true) (size : hole.size = b.size)
    (looks : HoleFrom m (k.heap.start + total Block.size left) b.size)
    (only : Bytes.OnlyIn (k.heap.start + total Block.size left)
      (k.heap.start + total Block.size left + b.size) k.memory m)
    (room : k.heap.entrycount < k.heap.maxentries) :
    Joined k ((k.setMemory m).heapAddEntry (k.heap.start + total Block.size left)) left [b] right
      hole := by
  have wf' : k.WellFormed (left ++ b :: right) := by rwa [List.append_cons]
  have last : total Block.size (left ++ [b]) = total Block.size left + b.size := total_append ..
  have inside := wf'.block_le
  have inRange := wf.inRange
  have large := b.large
  have slots : (k.setMemory m).slot ((k.setMemory m).heap.entrycount + 1) ≤ k.heap.start :=
    wf.slot_le room
  have small : k.heap.start + total Block.size left < uintWidth := by omega
  have index := wf.index_setMemory only (Nat.le_add_right ..)
  have entered := entered_alone wf block isHole size looks only room
  have perm := wf.index
  rw [List.append_assoc, holes_append, List.singleton_append, holes_cons_of_block block] at perm
  refine ⟨isHole, size, entered.wellFormed, ?_, coalesced, entered.start, entered.end_, entered.low,
    entered.high⟩
  apply sorted_heapAddEntry _ small slots (Nat.le_add_right ..)
  · rw [index]
    intro entry member
    obtain ⟨_, _, place⟩ := mem_holes.mp (wf.index.mem_iff.mp member)
    exact (wf.tiles.bounds place).1
  · unfold Sorted
    rw [index]
    apply pairwise_same sorted
    have outside : k.ListsOutside (k.heap.start + total Block.size left)
        (k.heap.start + total Block.size (left ++ [b])) := by
      apply wf.listsOutside _ rfl rfl
      rw [last, ← Nat.add_assoc]
      exact perm
    apply outside.sizeAt (only.same (.inl (Nat.le_refl _))) (only.same (.inr ?_))
    omega

/-- A hole that grows to a size may stay where it is in the index: the holes that are listed
after it are not smaller. -/
def StaysInPlace (k : KernelHeap) (entry size : Nat) : Prop :=
  ∀ front rear, k.index = front ++ entry :: rear → ∀ other ∈ rear, size ≤ sizeAt k.memory other

/-- Whether the index is in order after a hole has grown and the others have kept their sizes. -/
theorem pairwise_grown {entries : List Nat} {entry : Nat} (nodup : entries.Nodup)
    (listed : entry ∈ entries) (sorted : entries.Pairwise (NotLarger m))
    (grown : sizeAt m entry ≤ sizeAt m' entry)
    (others : ∀ other ∈ entries, other ≠ entry → sizeAt m' other = sizeAt m other) :
    entries.Pairwise (NotLarger m') ↔ ∀ front rear, entries = front ++ entry :: rear →
      ∀ other ∈ rear, sizeAt m' entry ≤ sizeAt m other := by
  constructor
  · rintro ordered front rear rfl other member
    have differ : other ≠ entry := by
      rintro rfl
      exact (List.nodup_cons.mp (List.nodup_append.mp nodup).2.1).1 member
    have member' := List.mem_append_right front (List.mem_cons_of_mem entry member)
    rw [← others other member' differ]
    exact (List.pairwise_cons.mp (List.pairwise_append.mp ordered).2.1).1 other member
  · intro enough
    obtain ⟨front, rear, rfl⟩ := List.append_of_mem listed
    have rest : ∀ other ∈ front ++ rear, sizeAt m' other = sizeAt m other := by
      intro other member
      apply others other
      · rcases List.mem_append.mp member with member | member
        · exact List.mem_append_left _ member
        · exact List.mem_append_right _ (List.mem_cons_of_mem _ member)
      · rintro rfl
        exact (List.nodup_cons.mp (List.perm_middle.nodup_iff.mp nodup)).1 member
    obtain ⟨first, second, across⟩ := List.pairwise_append.mp sorted
    obtain ⟨smallest, last⟩ := List.pairwise_cons.mp second
    refine List.pairwise_append.mpr ⟨?_, List.pairwise_cons.mpr ⟨?_, ?_⟩, ?_⟩
    · exact pairwise_same first fun other member => rest other (List.mem_append_left _ member)
    · intro other member
      rw [NotLarger, rest other (List.mem_append_right _ member)]
      exact enough front rear rfl other member
    · exact pairwise_same last fun other member => rest other (List.mem_append_right _ member)
    · intro one before other member
      have smaller : sizeAt m one ≤ sizeAt m other := across one before other member
      rw [NotLarger, rest one (List.mem_append_left _ before)]
      rcases List.mem_cons.mp member with rfl | member
      · exact Nat.le_trans smaller grown
      · rwa [rest other (List.mem_append_right _ member)]

/-- The hole before a block has grown by it, and stays where it is in the index. -/
theorem joined_behind {first hole : Block} (wf : k.WellFormed (left ++ [first, b] ++ right))
    (coalesced : Coalesced (left ++ [hole] ++ right)) (isHole : first.hole = true)
    (block : b.hole = false) (isHole' : hole.hole = true) (size : hole.size = first.size + b.size)
    (looks : HoleFrom m (k.heap.start + total Block.size left) (first.size + b.size))
    (only : Bytes.OnlyIn (k.heap.start + total Block.size left)
      (k.heap.start + total Block.size left + (first.size + b.size)) k.memory m)
    (sorted : (k.setMemory m).Sorted) :
    Joined k (k.setMemory m) left [first, b] right hole := by
  have middle : total Block.size [first, b] = first.size + b.size := rfl
  have last : total Block.size (left ++ [first, b]) =
      total Block.size left + (first.size + b.size) := total_append ..
  have low : Bytes.Same k.heap.start (k.heap.start + total Block.size left) k.memory m :=
    only.same (.inl (Nat.le_refl _))
  have high : Bytes.Same (k.heap.start + total Block.size (left ++ [first, b])) k.heap.end_
      k.memory m := only.same (.inr (by omega))
  rw [← size] at looks
  refine ⟨isHole', size, ?_, sorted, coalesced, rfl, rfl, low, high⟩
  apply wf.replace
  · rfl
  · exact wf.capacity
  · refine ⟨looks.tagged isHole', ?_⟩
    show k.heap.start + total Block.size left + hole.size = _
    rw [size, last, Nat.add_assoc]
  · exact low
  · exact high
  · rw [wf.index_setMemory only (Nat.le_add_right ..), holes_cons_of_hole isHole']
    have index := wf.index
    rwa [holes_append, holes_append, holes_cons_of_hole isHole, holes_cons_of_block block] at index

/-! ## What goes wrong -/

/-- The number of holes is that of the entries. -/
theorem WellFormed.entrycount_eq {blocks : List Block} (wf : k.WellFormed blocks) :
    k.heap.entrycount = blocks.countP Block.hole := by
  rw [← length_holes k.heap.start, ← wf.index.length_eq, length_index]

/-- The footer of the hole after the block has to point at the header of the joined hole. -/
theorem Joined.footer_changes (front : List Block) {hole : Block}
    (joined : Joined k k' left (front ++ [x]) right hole)
    (tagged : Tagged k.memory (k.heap.start + total Block.size (left ++ front)) x)
    (positive : 0 < total Block.size front)
    (kept : Bytes.Same (k.heap.start + total Block.size (left ++ front))
      (k.heap.start + total Block.size (left ++ front) + x.size) k.memory k'.memory) : False := by
  have wf : k'.WellFormed (left ++ hole :: right) := by
    rw [List.append_cons]
    exact joined.wellFormed
  have new := wf.tagged.footerHeader
  have old := (tagged.same_of_bytes kept).footerHeader
  have size := joined.size
  rw [total_append] at size tagged old
  have single : total Block.size [x] = x.size := rfl
  have large := x.large
  have place : k'.heap.start + total Block.size left + hole.size =
      k.heap.start + (total Block.size left + total Block.size front) + x.size := by
    rw [joined.start, size, single]
    omega
  rw [place, joined.start] at new
  omega

/-- An entry less, or as many. -/
theorem heapDelEntry_entrycount_le (k : KernelHeap) (entry : Option Nat) :
    (k.heapDelEntry entry).heap.entrycount ≤ k.heap.entrycount := by
  rw [heapDelEntry_heap]
  exact Nat.sub_le ..

/-- Contraction changes only the end of the heap. -/
theorem contractHeap_heap (k : KernelHeap) (newSize : Nat) :
    (k.contractHeap newSize).1.heap = { k.heap with end_ := (k.contractHeap newSize).1.heap.end_ } := by
  unfold contractHeap AddressSpaces.contractHeap
  cases contracts : k.heap.contractSize newSize with
  | none => rfl
  | some size =>
    show k.heap.contract newSize = _
    unfold Heap.contract
    rw [contracts]

/-- What `heap_free` does at the end of the heap: it stores a size and a footer, or takes the entry
of the hole out. -/
theorem shrink_cases (k : KernelHeap) (header : Nat) :
    (∃ size footer, k.shrink header = (k.contractHeap (usub header k.heap.start)).1.setMemory
      (setHeader (setMagic (setSize (k.contractHeap (usub header k.heap.start)).1.memory header size)
        footer) header footer)) ∨
      k.shrink header = (k.contractHeap (usub header k.heap.start)).1.heapDelEntry
        ((k.contractHeap (usub header k.heap.start)).1.heapFindEntry header) := by
  unfold shrink
  dsimp only
  split
  · exact .inl ⟨_, _, rfl⟩
  · exact .inr rfl

/-- Shrinking takes out an entry, or none. -/
theorem shrink_entrycount_le (k : KernelHeap) (header : Nat) :
    (k.shrink header).heap.entrycount ≤ k.heap.entrycount := by
  have contracted := k.contractHeap_heap (usub header k.heap.start)
  have same : (k.contractHeap (usub header k.heap.start)).1.heap.entrycount =
      k.heap.entrycount := by rw [contracted]
  rcases k.shrink_cases header with ⟨size, footer, stored⟩ | taken
  · rw [stored, setMemory_heap]
    exact Nat.le_of_eq same
  · rw [taken]
    exact Nat.le_trans (heapDelEntry_entrycount_le ..) (Nat.le_of_eq same)

/-- Until the freed block is entered, entries are only taken out. -/
theorem settle_entrycount_le (k : KernelHeap) (header footer : Nat) :
    (k.settle header footer).heap.entrycount ≤ k.heap.entrycount := by
  unfold settle
  dsimp only
  split
  · unfold joinAfter
    dsimp only
    split
    · exact Nat.le_trans (shrink_entrycount_le ..) (heapDelEntry_entrycount_le ..)
    · exact heapDelEntry_entrycount_le ..
  · split
    · exact shrink_entrycount_le ..
    · exact Nat.le_refl _

/-- What is stored when the words before the first block look like the footer of a hole: the flag
of the block, the word in its footer, and sizes at the address that was found there. -/
structure Strayed (k : KernelHeap) (b : Block) (found : Nat) (m : Bytes) : Prop where
  words : ∀ a, (a + 4 ≤ k.heap.start + 4 ∨ k.heap.start + 8 ≤ a) →
    (a + 4 ≤ k.heap.start + b.size - 4 ∨ k.heap.start + b.size ≤ a) →
    (a + 4 ≤ found + 4 ∨ found + 8 ≤ a) → m.word a = k.memory.word a
  size : (k.heap.start + 8 ≤ found + 4 ∨ found + 8 ≤ k.heap.start + 4) →
    sizeAt m k.heap.start = b.size

/-- One more size is stored at that address. -/
theorem Strayed.again {found : Nat} (strayed : Strayed k b found m) (size : Nat) :
    Strayed k b found (setSize m found size) := by
  have others {a : Nat} (apart : a + 4 ≤ found + 4 ∨ found + 8 ≤ a) :
      (setSize m found size).word a = m.word a := Bytes.word_store_of_apart _ _ (by omega)
  constructor
  · intro a first second third
    rw [others third]
    exact strayed.words a first second third
  · intro apart
    rw [← strayed.size apart, sizeAt, sizeAt, others (by omega)]

/-- What `heap_free` stores when it joins the first block with what is found before it. -/
theorem strayed_joinBefore (tagged : Tagged k.memory k.heap.start b) :
    ∃ m found, (k.setMemory (setFlag k.memory k.heap.start mmFlagHole)).joinBefore k.heap.start
        (k.heap.start + b.size - footerSize) b.size = (k.setMemory m, found) ∧
      Strayed k b found m := by
  have large := b.large
  unfold headerSize footerSize at large
  unfold joinBefore footerSize
  dsimp only
  refine ⟨_, _, rfl, ?_⟩
  apply Strayed.again
  constructor
  · intro a first second _
    rw [setHeader, Bytes.word_store_of_apart _ _ (by omega)]
    exact Bytes.word_store_of_apart _ _ (by omega)
  · intro _
    rw [sizeAt, setHeader, Bytes.word_store_of_apart _ _ (by omega)]
    exact (sizeAt_setFlag (by decide)).trans tagged.size

/-- Such stores do not make one hole of the first block and the hole after it. -/
theorem Strayed.not_hole {found : Nat} (strayed : Strayed k b found m)
    (tagged : Tagged k.memory (k.heap.start + b.size) x)
    (size : sizeAt m k.heap.start = b.size + x.size)
    (footer : headerAt m (k.heap.start + b.size + x.size - footerSize) = k.heap.start) : False := by
  have large := x.large
  have large' := b.large
  unfold headerSize footerSize at *
  by_cases apart : k.heap.start + 8 ≤ found + 4 ∨ found + 8 ≤ k.heap.start + 4
  · have kept := strayed.size apart
    omega
  · have kept := strayed.words (k.heap.start + b.size + x.size - 8 + 4) (by omega) (by omega)
      (by omega)
    have old : k.memory.word (k.heap.start + b.size + x.size - 8 + 4) = k.heap.start + b.size :=
      tagged.footerHeader
    have new : m.word (k.heap.start + b.size + x.size - 8 + 4) = k.heap.start := footer
    omega

/-- When such stores take a hole out of the index, they are before the heap. -/
theorem Strayed.below_start {found entry : Nat} {blocks : List Block} (wf : k.WellFormed blocks)
    (large : headerSize + footerSize ≤ b.size) (strayed : Strayed k b found m)
    (listed : entry ∈ k.index) (gone : entry ∉ (k.setMemory m).index) :
    found + 4 < k.heap.start := by
  by_contra high
  apply gone
  obtain ⟨i, member, rfl⟩ := List.mem_map.mp listed
  have inside : i < k.heap.entrycount := List.mem_range.mp member
  have slot : k.slot i + 4 ≤ k.heap.start := by
    have capacity := wf.capacity
    have slots : k.slot (i + 1) ≤ k.heap.start := wf.slot_le (by omega)
    unfold slot at *
    omega
  refine List.mem_map.mpr ⟨i, member, ?_⟩
  unfold headerSize footerSize at large
  exact strayed.words (k.slot i) (by omega) (by omega) (by omega)

/-- The entries of the joined hole and of the others. -/
theorem Joined.entrycount_eq {middle : List Block} {hole : Block}
    (joined : Joined k k' left middle right hole) :
    k'.heap.entrycount = left.countP Block.hole + 1 + right.countP Block.hole := by
  rw [joined.wellFormed.entrycount_eq, List.countP_append, List.countP_append,
    List.countP_cons_of_pos joined.isHole, List.countP_nil]

/-- The header and the footer of the joined hole. -/
theorem Joined.tagged {middle : List Block} {hole : Block}
    (joined : Joined k k' left middle right hole) :
    Tagged k'.memory (k.heap.start + total Block.size left) hole := by
  have wf : k'.WellFormed (left ++ hole :: right) := by
    rw [List.append_cons]
    exact joined.wellFormed
  rw [← joined.start]
  exact wf.tagged

/-- The first block does not become part of a hole when the words before it look like the footer
of one. -/
theorem not_joined_of_stray (after : List Block) {hole : Block} (wf : k.WellFormed ([] ++ (b :: after) ++ right))
    (block : b.hole = false) (next : AtMostAHole after) (inside : right ≠ [])
    (looks : holeBefore (setFlag k.memory k.heap.start mmFlagHole) k.heap.start)
    (joined : Joined k (k.heapFree (k.heap.start + headerSize)) [] (b :: after) right hole) :
    False := by
  have inRange := wf.inRange
  have wf₁ : k.WellFormed ([] ++ b :: (after ++ right)) := wf
  have tagged : Tagged k.memory k.heap.start b := wf₁.tagged
  have below : k.heap.start + b.size ≤ k.heap.end_ := wf₁.block_le
  have large := b.large
  obtain ⟨m, found, stored, strayed⟩ := strayed_joinBefore tagged
  rw [heapFree_eq tagged (Nat.lt_of_le_of_lt below inRange), if_pos looks, stored] at joined
  have count := joined.entrycount_eq
  have count' := wf.entrycount_eq
  have fewer : ((k.setMemory m).settle found (k.heap.start + b.size - footerSize)).heap.entrycount ≤
      k.heap.entrycount := settle_entrycount_le ..
  have live : ¬b.hole = true := by
    rw [block]
    exact Bool.false_ne_true
  dsimp only at count
  rw [List.countP_nil] at count
  rcases next with rfl | ⟨x, rfl, isHole⟩
  · rw [List.nil_append, List.singleton_append, List.countP_cons_of_neg live] at count'
    omega
  · have wf₂ : k.WellFormed ([] ++ [b] ++ x :: right) := wf
    have next : Tagged k.memory (k.heap.start + b.size) x := wf₂.tagged
    have below' : k.heap.start + (b.size + x.size) < k.heap.end_ := wf.total_lt inside
    have large' := x.large
    have size : hole.size = b.size + x.size := joined.size
    rw [List.nil_append, List.cons_append, List.singleton_append, List.countP_cons_of_neg live,
      List.countP_cons_of_pos isHole] at count'
    -- The sizes and the footer that the joined hole would need are not there.
    have stuck {m' : Bytes} (strayed' : Strayed k b found m')
        (same : ((k.setMemory m).settle found
          (k.heap.start + b.size - footerSize)).memory = m') : False := by
      have header := joined.tagged.size
      have footer := joined.tagged.footerHeader
      rw [same, size] at header footer
      rw [← Nat.add_assoc] at footer
      exact strayed'.not_hole next header footer
    have enough : footerSize ≤ k.heap.start + b.size := by omega
    by_cases joins : holeAt m (k.heap.start + b.size)
    · have settled := settle_of_holeAt (k.setMemory m) found joins enough (by omega)
      have strayed' := strayed.again (uadd (sizeAt m found) (sizeAt m (k.heap.start + b.size)))
      have joint : ((k.setMemory m).joinAfter found (k.heap.start + b.size)).1 =
          (k.setMemory (setSize m found (uadd (sizeAt m found)
            (sizeAt m (k.heap.start + b.size))))).heapDelEntry
            ((k.setMemory (setSize m found (uadd (sizeAt m found)
              (sizeAt m (k.heap.start + b.size))))).heapFindEntry (k.heap.start + b.size)) := rfl
      by_cases listed : k.heap.start + b.size ∈ (k.setMemory (setSize m found (uadd (sizeAt m found)
          (sizeAt m (k.heap.start + b.size))))).index
      · -- An entry is taken out, and none is added.
        obtain ⟨i, _, position, _⟩ := heapFindEntry_of_mem listed
        rw [position] at joint
        have one : ((k.setMemory m).joinAfter found (k.heap.start + b.size)).1.heap.entrycount =
            k.heap.entrycount - 1 := by
          rw [joint, heapDelEntry_heap]
          rfl
        have less := shrink_entrycount_le
          ((k.setMemory m).joinAfter found (k.heap.start + b.size)).1 found
        rw [settled] at count
        split at count <;> omega
      · rw [heapFindEntry_of_not_mem listed] at joint
        have there : k.heap.start + b.size ∈ k.index := by
          refine wf.index.mem_iff.mpr (mem_holes.mpr ⟨x, isHole, ?_⟩)
          exact mem_places.mpr ⟨[b], right, rfl, rfl⟩
        have low := strayed'.below_start wf b.large there listed
        have sizes : sizeAt (setSize m found (uadd (sizeAt m found)
            (sizeAt m (k.heap.start + b.size)))) (k.heap.start + b.size) = x.size := by
          unfold headerSize footerSize at large large'
          rw [sizeAt, strayed'.words _ (by omega) (by omega) (by omega)]
          exact next.size
        have footer := joinAfter_footer (k := k.setMemory m) sizes (by omega) (by omega)
        rw [footer, joint] at settled
        apply stuck strayed'
        rw [settled]
        refine congrArg KernelHeap.memory (if_neg ?_)
        show k.heap.start + b.size + x.size ≠ k.heap.end_
        omega
    · have settled := settle_of_not_holeAt (k.setMemory m) found joins enough (by omega)
      apply stuck strayed
      rw [settled]
      refine congrArg KernelHeap.memory (if_neg ?_)
      show k.heap.start + b.size ≠ k.heap.end_
      omega

/-! ## When the freed block becomes part of a hole -/

/-- What is before a block in use is not a hole, unless it is the index. -/
theorem clear_of_left (wf : k.WellFormed (left ++ b :: right)) (endsInUse : EndsInUse left)
    (first : left = [] → ¬holeBefore (setFlag k.memory k.heap.start mmFlagHole) k.heap.start) :
    ¬holeBefore (setFlag k.memory (k.heap.start + total Block.size left) mmFlagHole)
      (k.heap.start + total Block.size left) := by
  rcases List.eq_nil_or_concat' left with rfl | ⟨front, y, rfl⟩
  · exact first rfl
  · have wf' : k.WellFormed (front ++ y :: (b :: right)) := by
      rw [List.append_cons]
      exact wf
    have block : y.hole = false := endsInUse y (List.getLast?_concat ..)
    have place : k.heap.start + total Block.size front + y.size =
        k.heap.start + total Block.size (front ++ [y]) := by
      rw [total_append]
      exact Nat.add_assoc ..
    have inRange := wf.inRange
    have below := wf'.block_le
    rw [place] at below
    have only := (holeFrom_setFlag wf.tagged).2
    have tagged : Tagged _ (k.heap.start + total Block.size front) y :=
      wf'.tagged.same_of_bytes (only.same (.inl (Nat.le_of_eq place)))
    rw [holeBefore_iff tagged place (by omega), block]
    exact Bool.false_ne_true

/-- The blocks that `heap_free` makes part of a hole, with the holes next to them. There is no
hole after the block. A hole before the block can grow by it where it is in the index, and the
size fits its field. Without one, the index has room, and when the block is the first one, the
words before it do not look like the footer of a hole. -/
def CanJoin (k : KernelHeap) (left before : List Block) (b : Block) (after : List Block) : Prop :=
  after = [] ∧
  (before = [] → k.heap.entrycount < k.heap.maxentries ∧ (left = [] →
    ¬holeBefore (setFlag k.memory k.heap.start mmFlagHole) k.heap.start)) ∧
  (before ≠ [] → total Block.size (before ++ [b]) < sizeWidth ∧
    k.StaysInPlace (k.heap.start + total Block.size left) (total Block.size (before ++ [b])))

/-- The block after the freed one is in use. -/
theorem settle_of_beginsInUse {stop : Nat} (wf : k.WellFormed (left ++ right)) (inside : right ≠ [])
    (beginsInUse : BeginsInUse right) (place : k.heap.start + total Block.size left = stop)
    (enough : footerSize ≤ stop) (kept : Bytes.Same stop k.heap.end_ k.memory m) (header : Nat) :
    (k.setMemory m).settle header (stop - footerSize) = k.setMemory m := by
  cases right with
  | nil => exact absurd rfl inside
  | cons y right =>
    have block : y.hole = false := beginsInUse y rfl
    have below := wf.block_le
    have large := y.large
    have tagged := wf.tagged
    unfold headerSize footerSize at large
    rw [place] at below tagged
    have next : Tagged m stop y := tagged.same_of_bytes (kept.mono (Nat.le_refl _) below)
    exact settle_of_block next block enough (show stop < k.heap.end_ by omega) wf.inRange

/-- The hole after the freed block is taken out of the index, and its bytes are kept. -/
theorem joinAfter_of_hole {front : List Block} {stop : Nat}
    (wf : k.WellFormed (left ++ front ++ x :: right)) (isHole : x.hole = true)
    (place : k.heap.start + total Block.size (left ++ front) = stop)
    (only : Bytes.OnlyIn (k.heap.start + total Block.size left) stop k.memory m)
    (wide : total Block.size left + headerSize ≤ total Block.size (left ++ front)) :
    ∃ k', ((k.setMemory m).joinAfter (k.heap.start + total Block.size left) stop).1 = k' ∧
      k'.heap = { k.heap with entrycount := k.heap.entrycount - 1 } ∧
      1 ≤ k.heap.entrycount ∧ Bytes.Same stop k.heap.end_ k.memory k'.memory ∧
      (∀ entry ∈ k'.index, entry ∈ k.index) ∧
      sizeAt k'.memory (k.heap.start + total Block.size left) =
        uadd (sizeAt m (k.heap.start + total Block.size left)) (sizeAt m stop) % sizeWidth := by
  unfold headerSize at wide
  have listed : stop ∈ k.index := by
    refine wf.index.mem_iff.mpr (mem_holes.mpr ⟨x, isHole, ?_⟩)
    exact mem_places.mpr ⟨left ++ front, right, rfl, place.symm⟩
  have slots : k.slot k.heap.entrycount ≤ k.heap.start := wf.slot_le wf.capacity
  obtain ⟨m', stored, joint, _⟩ :=
    (k.setMemory m).joinAfter_eq (k.heap.start + total Block.size left) stop
  have only' : Bytes.OnlyIn (k.heap.start + total Block.size left) stop k.memory m' := by
    rw [← stored]
    exact only.store _ (by omega) (by omega)
  have size : sizeAt m' (k.heap.start + total Block.size left) =
      uadd (sizeAt m (k.heap.start + total Block.size left)) (sizeAt m stop) % sizeWidth := by
    rw [← stored]
    exact sizeAt_setSize
  have index := wf.index_setMemory only' (Nat.le_add_right ..)
  rw [← index] at listed
  obtain ⟨i, inside, position, _⟩ := heapFindEntry_of_mem listed
  have deleted := (k.setMemory m').heapDelEntry_indexed inside
  rw [setMemory_setMemory, position] at joint
  refine ⟨_, joint, ?_, Nat.one_le_of_lt inside, ?_, ?_, ?_⟩
  · rw [heapDelEntry_heap]
    rfl
  · have first : Bytes.Same stop k.heap.end_ k.memory m' := only'.same (.inr (Nat.le_refl _))
    refine first.trans (heapDelEntry_same _ _ _ ?_)
    show k.slot k.heap.entrycount ≤ stop
    omega
  · intro entry member
    rw [deleted.index, index] at member
    exact List.mem_of_mem_eraseIdx member
  · have kept : Bytes.Same (k.heap.start + total Block.size left)
        (k.heap.start + total Block.size left + headerSize) m'
        ((k.setMemory m').heapDelEntry (some i)).memory := by
      apply heapDelEntry_same
      show k.slot k.heap.entrycount ≤ k.heap.start + total Block.size left
      omega
    rw [sizeAt_same kept, size]

/-- `heap_free` of a block before one in use, when no hole is before it. -/
theorem heapFree_between (wf : k.WellFormed (left ++ b :: right))
    (clear : ¬holeBefore (setFlag k.memory (k.heap.start + total Block.size left) mmFlagHole)
      (k.heap.start + total Block.size left)) (beginsInUse : BeginsInUse right)
    (inside : right ≠ []) :
    ∃ m, k.heapFree (k.heap.start + total Block.size left + headerSize) =
        (k.setMemory m).heapAddEntry (k.heap.start + total Block.size left) ∧
      HoleFrom m (k.heap.start + total Block.size left) b.size ∧
      Bytes.OnlyIn (k.heap.start + total Block.size left)
        (k.heap.start + total Block.size left + b.size) k.memory m := by
  have last : total Block.size (left ++ [b]) = total Block.size left + b.size := total_append ..
  have wf' : k.WellFormed (left ++ [b] ++ right) := by rwa [List.append_cons] at wf
  have below := wf.block_le
  have inRange := wf.inRange
  have large := b.large
  obtain ⟨m, freed, looks, only'⟩ :=
    heapFree_alone wf.tagged (Nat.lt_of_le_of_lt below inRange) clear
  have only : Bytes.OnlyIn (k.heap.start + total Block.size left)
      (k.heap.start + total Block.size left + b.size) k.memory m :=
    only'.mono (Nat.le_refl _) (by omega)
  have kept : Bytes.Same (k.heap.start + total Block.size left + b.size) k.heap.end_ k.memory m :=
    only.same (.inr (Nat.le_refl _))
  have settled := settle_of_beginsInUse wf' inside beginsInUse
    (by rw [last]; exact (Nat.add_assoc ..).symm) (by omega) kept
    (k.heap.start + total Block.size left)
  rw [settled] at freed
  exact ⟨m, freed, looks, only⟩

/-- A block without a hole next to it. -/
theorem joins_alone_iff (wf : k.WellFormed (left ++ [b] ++ right)) (sorted : k.Sorted)
    (coalesced : Coalesced (left ++ [b] ++ right)) (block : b.hole = false)
    (endsInUse : EndsInUse left) (beginsInUse : BeginsInUse right) (inside : right ≠ []) :
    (∃ hole, Joined k (k.heapFree (k.heap.start + total Block.size left + headerSize))
      left [b] right hole) ↔
      k.heap.entrycount < k.heap.maxentries ∧
        (left = [] → ¬holeBefore (setFlag k.memory k.heap.start mmFlagHole) k.heap.start) := by
  have wf' : k.WellFormed (left ++ b :: right) := by rwa [List.append_cons]
  by_cases first : left = [] → ¬holeBefore (setFlag k.memory k.heap.start mmFlagHole) k.heap.start
  · obtain ⟨m, freed, looks, only⟩ :=
      heapFree_between wf' (clear_of_left wf' endsInUse first) beginsInUse inside
    rw [freed]
    constructor
    · rintro ⟨hole, joined⟩
      refine ⟨?_, first⟩
      have capacity := joined.wellFormed.capacity
      rw [heapAddEntry_heap] at capacity
      exact capacity
    · rintro ⟨room, _⟩
      exact ⟨Block.free b.size b.large b.small, joined_alone wf sorted
        (coalesced_around coalesced endsInUse beginsInUse) block rfl rfl looks only room⟩
  · obtain ⟨rfl, stray⟩ := Classical.not_imp.mp first
    rw [not_not] at stray
    constructor
    · rintro ⟨hole, joined⟩
      exact (not_joined_of_stray [] wf block (.inl rfl) inside stray joined).elim
    · rintro ⟨_, clear⟩
      exact absurd stray (clear rfl)

/-- A block with a hole after it only. -/
theorem not_joined_alone (wf : k.WellFormed (left ++ [b, x] ++ right)) (block : b.hole = false)
    (isHole : x.hole = true) (endsInUse : EndsInUse left) (inside : right ≠ []) {hole : Block}
    (joined : Joined k (k.heapFree (k.heap.start + total Block.size left + headerSize))
      left [b, x] right hole) : False := by
  have wf₁ : k.WellFormed (left ++ b :: (x :: right)) := by
    rwa [List.append_assoc] at wf
  have wf₂ : k.WellFormed (left ++ [b] ++ x :: right) := by rwa [List.append_cons] at wf₁
  have last : total Block.size (left ++ [b]) = total Block.size left + b.size := total_append ..
  have place : k.heap.start + total Block.size (left ++ [b]) =
      k.heap.start + total Block.size left + b.size := by
    rw [last]
    exact (Nat.add_assoc ..).symm
  have tagged := wf₁.tagged
  have next := wf₂.tagged
  have below := wf₁.block_le
  have below' := wf₂.block_le
  have inRange := wf.inRange
  have large := b.large
  by_cases first : left = [] → ¬holeBefore (setFlag k.memory k.heap.start mmFlagHole) k.heap.start
  · obtain ⟨m, freed, looks, only'⟩ :=
      heapFree_alone tagged (Nat.lt_of_le_of_lt below inRange) (clear_of_left wf₁ endsInUse first)
    have only : Bytes.OnlyIn (k.heap.start + total Block.size left)
        (k.heap.start + total Block.size left + b.size) k.memory m :=
      only'.mono (Nat.le_refl _) (by omega)
    obtain ⟨k', joint, heap, positive, kept, _⟩ := joinAfter_of_hole wf₂ isHole place only (by omega)
    rw [place] at next below'
    have next' : Tagged m (k.heap.start + total Block.size left + b.size) x :=
      next.same_of_bytes (only.same (.inr (Nat.le_refl _)))
    have inside' : k.heap.start + total Block.size left + b.size + x.size < k.heap.end_ := by
      have lt := wf.total_lt inside
      rw [total_append] at lt
      have both : total Block.size [b, x] = b.size + x.size := rfl
      omega
    have settled := settle_of_hole (k := k.setMemory m) next' isHole (by omega) inside' inRange
      (show k.heap.start + total Block.size left + headerSize ≤ _ by omega)
    rw [freed, settled, joint] at joined
    have positive' : 0 < total Block.size [b] := Nat.lt_of_lt_of_le (by decide) large
    refine Joined.footer_changes [b] joined wf₂.tagged positive' ?_
    rw [place]
    refine (kept.mono (Nat.le_refl _) below').trans (heapAddEntry_same _ _ (by omega) ?_)
    have slots : k.slot k.heap.entrycount ≤ k.heap.start := wf.slot_le wf.capacity
    unfold slot at *
    rw [heap]
    show k.heap.entries + 4 * (k.heap.entrycount - 1 + 1) ≤ _
    omega
  · obtain ⟨rfl, stray⟩ := Classical.not_imp.mp first
    rw [not_not] at stray
    exact not_joined_of_stray [x] wf block (.inr ⟨x, rfl, isHole⟩) inside stray joined

/-- A block with a hole before it only. -/
theorem joins_behind_iff {first : Block} (wf : k.WellFormed (left ++ [first, b] ++ right))
    (sorted : k.Sorted) (coalesced : Coalesced (left ++ [first, b] ++ right))
    (isHole : first.hole = true) (block : b.hole = false) (endsInUse : EndsInUse left)
    (beginsInUse : BeginsInUse right) (inside : right ≠ []) :
    (∃ hole, Joined k (k.heapFree (k.heap.start + total Block.size left + first.size + headerSize))
      left [first, b] right hole) ↔
      first.size + b.size < sizeWidth ∧
        k.StaysInPlace (k.heap.start + total Block.size left) (first.size + b.size) := by
  have wf₁ : k.WellFormed (left ++ first :: (b :: right)) := by
    rwa [List.append_assoc] at wf
  have wf₂ : k.WellFormed (left ++ [first] ++ b :: right) := by rwa [List.append_cons] at wf₁
  have both : total Block.size [first, b] = first.size + b.size := rfl
  have last : total Block.size (left ++ [first, b]) =
      total Block.size left + (first.size + b.size) := total_append ..
  have tagged := wf₁.tagged
  have next := wf₂.tagged
  rw [total_append, show total Block.size [first] = first.size from rfl, ← Nat.add_assoc] at next
  have below := wf.total_lt inside
  rw [last] at below
  have inRange := wf.inRange
  have large := b.large
  have small := first.small
  obtain ⟨m, freed, looks, only⟩ := heapFree_behind isHole tagged next (by omega)
  have kept : Bytes.Same (k.heap.start + total Block.size left + first.size + b.size) k.heap.end_
      k.memory m := only.same (.inr (Nat.le_refl _))
  have settled := settle_of_beginsInUse wf inside beginsInUse (by rw [last]; omega) (by omega) kept
    (k.heap.start + total Block.size left)
  rw [freed, settled]
  have index := wf.index_setMemory only (Nat.le_add_right ..)
  -- The hole grows, and the other holes are where nothing is stored.
  have order (fits : first.size + b.size < sizeWidth) : (k.setMemory m).Sorted ↔
      k.StaysInPlace (k.heap.start + total Block.size left) (first.size + b.size) := by
    have size : sizeAt m (k.heap.start + total Block.size left) = first.size + b.size :=
      looks.size.trans (Nat.mod_eq_of_lt fits)
    have nodup := wf.index.nodup_iff.mpr (holes_nodup ..)
    have perm := wf.index
    rw [holes_append, holes_append, last, holes_cons_of_hole isHole, holes_cons_of_block block]
      at perm
    have listed : k.heap.start + total Block.size left ∈ k.index :=
      perm.mem_iff.mpr (List.mem_append_left _ (List.mem_append_right _ List.mem_cons_self))
    obtain ⟨whole, rear⟩ := tiles_append.mp wf.tiles
    obtain ⟨front, _⟩ := tiles_append.mp whole
    rw [last] at rear
    unfold Sorted StaysInPlace
    rw [index, ← size]
    apply pairwise_grown nodup listed sorted
    · show sizeAt k.memory _ ≤ sizeAt m _
      rw [size, tagged.size]
      exact Nat.le_add_right ..
    · intro other member differ
      apply sizeAt_same
      rcases List.mem_append.mp (perm.mem_iff.mp member) with member | member
      · rcases List.mem_append.mp member with member | member
        · have bounds := bounds_of_mem_holes front member
          exact only.same (.inl (by omega))
        · exact absurd (List.mem_singleton.mp member) differ
      · have bounds := bounds_of_mem_holes rear member
        exact only.same (.inr (by omega))
  constructor
  · rintro ⟨hole, joined⟩
    have fits : first.size + b.size < sizeWidth := by
      rw [← both, ← joined.size]
      exact hole.small
    exact ⟨fits, (order fits).mp joined.sorted⟩
  · rintro ⟨fits, stays⟩
    have large' : headerSize + footerSize ≤ first.size + b.size := by omega
    rw [Nat.add_assoc] at only
    exact ⟨Block.free (first.size + b.size) large' fits, joined_behind wf
      (coalesced_around coalesced endsInUse beginsInUse) isHole block rfl rfl looks only
      ((order fits).mpr stays)⟩

/-- A block with a hole before it and one after it. -/
theorem not_joined_behind {first : Block} (wf : k.WellFormed (left ++ [first, b, x] ++ right))
    (isHole : first.hole = true) (isHole' : x.hole = true) (inside : right ≠ []) {hole : Block}
    (joined : Joined k
      (k.heapFree (k.heap.start + total Block.size left + first.size + headerSize))
      left [first, b, x] right hole) : False := by
  have wf₁ : k.WellFormed (left ++ first :: (b :: x :: right)) := by
    rwa [List.append_assoc] at wf
  have wf₂ : k.WellFormed (left ++ [first] ++ b :: (x :: right)) := by
    rwa [List.append_cons] at wf₁
  have wf₃ : k.WellFormed (left ++ [first, b] ++ x :: right) := by
    have shift : left ++ [first, b] ++ x :: right = left ++ [first, b, x] ++ right := by
      rw [List.append_assoc, List.append_assoc]
      rfl
    rwa [shift]
  have all : total Block.size [first, b, x] = first.size + (b.size + x.size) := rfl
  have last : total Block.size (left ++ [first, b]) =
      total Block.size left + (first.size + b.size) := total_append ..
  have place : k.heap.start + total Block.size (left ++ [first, b]) =
      k.heap.start + total Block.size left + first.size + b.size := by omega
  have tagged := wf₁.tagged
  have second := wf₂.tagged
  have third := wf₃.tagged
  rw [total_append, show total Block.size [first] = first.size from rfl, ← Nat.add_assoc] at second
  rw [place] at third
  have below := wf.total_lt inside
  rw [total_append] at below
  have inRange := wf.inRange
  have large := b.large
  have large' := first.large
  obtain ⟨m, freed, looks, only⟩ := heapFree_behind isHole tagged second (by omega)
  obtain ⟨k', joint, heap, positive, kept, _⟩ := joinAfter_of_hole wf₃ isHole' place only (by omega)
  have next : Tagged m (k.heap.start + total Block.size left + first.size + b.size) x :=
    third.same_of_bytes (only.same (.inr (Nat.le_refl _)))
  have inside' : k.heap.start + total Block.size left + first.size + b.size + x.size <
      k.heap.end_ := by omega
  have settled := settle_of_hole (k := k.setMemory m) next isHole' (by omega) inside' inRange
    (show k.heap.start + total Block.size left + headerSize ≤ _ by omega)
  rw [freed, settled, joint] at joined
  refine Joined.footer_changes [first, b] joined wf₃.tagged ?_ ?_
  · exact Nat.lt_of_lt_of_le (by decide) (Nat.le_add_right_of_le large')
  · rw [place]
    exact kept.mono (Nat.le_refl _) (Nat.le_of_lt inside')

/-- `heap_free` of a block that does not reach the end of the heap, with the holes next to it: it
makes one hole of them exactly if `CanJoin` holds. -/
theorem joins_iff_of_neighbours (wf : k.WellFormed (left ++ (before ++ b :: after) ++ right))
    (sorted : k.Sorted) (coalesced : Coalesced (left ++ (before ++ b :: after) ++ right))
    (neighbours : Neighbours left before b after right) (inside : right ≠ []) :
    (∃ hole, Joined k (k.heapFree (k.heap.start + total Block.size (left ++ before) + headerSize))
      left (before ++ b :: after) right hole) ↔ k.CanJoin left before b after := by
  unfold CanJoin
  rcases neighbours.before with rfl | ⟨first, rfl, isHole⟩
  · rw [List.append_nil]
    rcases neighbours.after with rfl | ⟨x, rfl, isHole'⟩
    · rw [show ([] : List Block) ++ [b] = [b] from rfl, joins_alone_iff wf sorted coalesced
        neighbours.block neighbours.left neighbours.right inside]
      constructor
      · intro room
        exact ⟨rfl, fun _ => room, absurd rfl⟩
      · rintro ⟨_, room, _⟩
        exact room rfl
    · constructor
      · rintro ⟨hole, joined⟩
        exact (not_joined_alone wf neighbours.block isHole' neighbours.left inside joined).elim
      · rintro ⟨none, _⟩
        cases none
  · have place : k.heap.start + total Block.size (left ++ [first]) + headerSize =
        k.heap.start + total Block.size left + first.size + headerSize := by
      rw [total_append, ← Nat.add_assoc]
      rfl
    rw [place]
    rcases neighbours.after with rfl | ⟨x, rfl, isHole'⟩
    · rw [show [first] ++ [b] = [first, b] from rfl, joins_behind_iff wf sorted coalesced isHole
        neighbours.block neighbours.left neighbours.right inside]
      constructor
      · intro fits
        exact ⟨rfl, (fun none => by cases none), fun _ => fits⟩
      · rintro ⟨_, _, fits⟩
        exact fits (List.cons_ne_nil _ _)
    · constructor
      · rintro ⟨hole, joined⟩
        exact (not_joined_behind wf isHole isHole' inside joined).elim
      · rintro ⟨none, _⟩
        cases none

/-- The hole before a block, if there is one. -/
theorem exists_before (front : List Block) : ∃ left before, front = left ++ before ∧
    AtMostAHole before ∧ (before = [] → EndsInUse left) := by
  rcases List.eq_nil_or_concat' front with rfl | ⟨left, y, rfl⟩
  · exact ⟨[], [], rfl, .inl rfl, fun _ _ member => absurd member (Option.not_mem_none _)⟩
  · cases isHole : y.hole with
    | false =>
      refine ⟨left ++ [y], [], (List.append_nil _).symm, .inl rfl, fun _ other member => ?_⟩
      rw [List.getLast?_concat, Option.mem_some_iff] at member
      rw [← member, isHole]
    | true =>
      exact ⟨left, [y], rfl, .inr ⟨y, rfl, isHole⟩, fun none => absurd none (List.cons_ne_nil _ _)⟩

/-- A block in use has its neighbours. -/
theorem exists_neighbours {front rear : List Block} (coalesced : Coalesced (front ++ b :: rear))
    (block : b.hole = false) : ∃ left before after right, front = left ++ before ∧
      rear = after ++ right ∧ Neighbours left before b after right := by
  obtain ⟨front', rear', _⟩ := List.isChain_append.mp coalesced
  obtain ⟨left, before, rfl, atMost, alone⟩ := exists_before front
  have endsInUse : EndsInUse left := by
    rcases atMost with rfl | ⟨y, rfl, isHole⟩
    · exact alone rfl
    · intro other member
      have apart := (List.isChain_append.mp front').2.2 other member y rfl
      rw [Bool.eq_false_iff]
      exact fun both => apart ⟨both, isHole⟩
  have rightPart : ∃ after right, rear = after ++ right ∧ AtMostAHole after ∧ BeginsInUse right := by
    cases rear with
    | nil => exact ⟨[], [], rfl, .inl rfl, fun _ member => absurd member (Option.not_mem_none _)⟩
    | cons y right =>
      cases isHole : y.hole with
      | false =>
        refine ⟨[], y :: right, rfl, .inl rfl, fun other member => ?_⟩
        rw [← Option.some.inj member, isHole]
      | true =>
        refine ⟨[y], right, rfl, .inr ⟨y, rfl, isHole⟩, fun other member => ?_⟩
        cases right with
        | nil => cases member
        | cons z right =>
          have apart := (List.isChain_cons_cons.mp (List.isChain_cons_cons.mp rear').2).1
          rw [← Option.some.inj member, Bool.eq_false_iff]
          exact fun both => apart ⟨isHole, both⟩
  obtain ⟨after, right, split, atMost', beginsInUse⟩ := rightPart
  exact ⟨left, before, after, right, rfl, split, block, atMost, atMost', endsInUse, beginsInUse⟩

/-- `heap_free` of a block that does not reach the end of the heap, with the holes next to it:
exactly if `CanJoin` holds, they become one hole in a heap that is as it should be. -/
theorem heapFree_joins_iff {front rear : List Block} (wf : k.WellFormed (front ++ b :: rear))
    (sorted : k.Sorted) (coalesced : Coalesced (front ++ b :: rear)) (block : b.hole = false) :
    ∃ left before after right, front = left ++ before ∧ rear = after ++ right ∧
      Neighbours left before b after right ∧ (right ≠ [] →
        ((∃ hole, Joined k (k.heapFree (k.heap.start + total Block.size front + headerSize)) left
          (before ++ b :: after) right hole) ↔ k.CanJoin left before b after)) := by
  obtain ⟨left, before, after, right, rfl, rfl, neighbours⟩ := exists_neighbours coalesced block
  have shift : left ++ before ++ b :: (after ++ right) = left ++ (before ++ b :: after) ++ right := by
    simp only [List.append_assoc, List.cons_append]
  rw [shift] at wf coalesced
  exact ⟨left, before, after, right, rfl, rfl, neighbours,
    joins_iff_of_neighbours wf sorted coalesced neighbours⟩

/-- The second of three blocks in use is freed. -/
theorem heapFree_joins_iff_second :
    ∃ left before after right, [block32] = left ++ before ∧ [block32] = after ++ right ∧
      Neighbours left before block32 after right ∧ (right ≠ [] →
        ((∃ hole, Joined (secondMegabyte [block32, block32, block32])
          ((secondMegabyte [block32, block32, block32]).heapFree
            ((secondMegabyte [block32, block32, block32]).heap.start +
              total Block.size [block32] + headerSize)) left (before ++ block32 :: after) right
          hole) ↔
          (secondMegabyte [block32, block32, block32]).CanJoin left before block32 after)) := by
  have made := @secondMegabyte_wellFormed [block32, block32, block32] (by decide) (by decide)
  apply @heapFree_joins_iff _ block32 [block32] [block32] made.1 made.2
  · exact .cons_cons (fun both => Bool.false_ne_true both.1)
      (.cons_cons (fun both => Bool.false_ne_true both.1) (.singleton _))
  · rfl

/-- When the second of four blocks is freed and the third is a hole, they do not become one: the
footer of the hole keeps pointing at the third. -/
theorem heapFree_joins_not :
    (secondMegabyte [block32, block32, hole48, block32]).WellFormed
        [block32, block32, hole48, block32] ∧
      (secondMegabyte [block32, block32, hole48, block32]).Sorted ∧
      Coalesced [block32, block32, hole48, block32] ∧
      ¬∃ hole, Joined (secondMegabyte [block32, block32, hole48, block32])
        ((secondMegabyte [block32, block32, hole48, block32]).heapFree
          ((secondMegabyte [block32, block32, hole48, block32]).heap.start +
            total Block.size [block32] + headerSize))
        [block32] [block32, hole48] [block32] hole := by
  have made := @secondMegabyte_wellFormed [block32, block32, hole48, block32] (by decide)
    (by decide)
  refine ⟨made.1, made.2, ?_, ?_⟩
  · exact .cons_cons (fun both => Bool.false_ne_true both.1)
      (.cons_cons (fun both => Bool.false_ne_true both.1)
        (.cons_cons (fun both => Bool.false_ne_true both.2) (.singleton _)))
  · rintro ⟨hole, joined⟩
    have endsInUse : EndsInUse [block32] := by
      intro other member
      rw [← Option.some.inj member]
      rfl
    exact @not_joined_alone _ block32 hole48 [block32] [block32] made.1 rfl rfl endsInUse
      (List.cons_ne_nil _ _) hole joined

end KernelHeap

end Nupkux
