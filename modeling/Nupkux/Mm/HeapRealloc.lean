import Nupkux.Mm.HeapMalloc
import Nupkux.Mm.HeapShrink
import Mathlib.Tactic.IntervalCases

/-!
# Change of size

`heap_realloc` of a block in use. To make the block smaller, its end is cut off as a block of its
own and freed, however small that is; to make it larger, its contents are copied to another block,
as many bytes as the new one has.
-/

namespace Nupkux

open Tiling

namespace KernelHeap

variable {k k' : KernelHeap} {m m' : Bytes} {b x : Block} {left right : List Block}
  {header tail stop size : Nat}

/-! ## What a release leaves alone -/

/-- The bounds that `heap_free` changes at the end of the heap. -/
theorem shrink_heap (k : KernelHeap) (header : Nat) : (k.shrink header).heap = { k.heap with
    end_ := (k.shrink header).heap.end_, entrycount := (k.shrink header).heap.entrycount } := by
  have contracted := k.contractHeap_heap (usub header k.heap.start)
  rcases k.shrink_cases header with ⟨size, footer, stored⟩ | taken
  · rw [stored, setMemory_heap, contracted]
  · rw [taken, heapDelEntry_heap, contracted]

/-- The bounds that `heap_free` changes until the freed block is entered. -/
theorem settle_heap (k : KernelHeap) (header footer : Nat) :
    (k.settle header footer).heap = { k.heap with
      end_ := (k.settle header footer).heap.end_
      entrycount := (k.settle header footer).heap.entrycount } := by
  have joined (tmpheader : Nat) : (k.joinAfter header tmpheader).1.heap = { k.heap with
      entrycount := (k.joinAfter header tmpheader).1.heap.entrycount } := by
    unfold joinAfter
    dsimp only
    rw [heapDelEntry_heap]
    rfl
  unfold settle
  dsimp only
  split
  · split
    · rw [shrink_heap, joined]
    · rw [joined]
  · split
    · rw [shrink_heap]
    · rfl

/-- At the end of the heap `heap_free` stores at the footer before the hole, or behind it. -/
theorem shrink_low (low : k.heap.start ≤ tail) (less : tail < k.heap.end_)
    (inHeap : tail + sizeAt k.memory tail ≤ k.heap.end_) (inRange : k.heap.end_ < uintWidth)
    (first : 2 * frameSize ≤ k.heap.start) (pages : k.WholePages)
    (slots : k.slot k.heap.entrycount ≤ k.heap.start) :
    Bytes.Same k.heap.start (tail - footerSize) k.memory (k.shrink tail).memory := by
  have width : uintWidth = 4294967296 := rfl
  have widths : sizeWidth = 2147483648 := rfl
  have page : frameSize = 4096 := rfl
  have least : mmKheapMin = 1048576 := rfl
  have eight : footerSize = 8 := rfl
  have size : k.heap.size = k.heap.end_ - k.heap.start := usub_of_le (by omega) inRange
  have used : usub tail k.heap.start = tail - k.heap.start := usub_of_le low (by omega)
  obtain ⟨kept, heap⟩ := contractHeap_eq (show tail - k.heap.start < k.heap.size by omega)
  have memory := (k.contractHeap_memory (tail - k.heap.start)).1
  obtain ⟨above, below, _, few⟩ := keptSize_bounds
    (show tail - k.heap.start < k.heap.size by omega) pages.aligned pages.atLeast (by omega)
  have cut := sizeAt_lt k.memory tail
  unfold shrink
  dsimp only
  rw [used, kept, memory]
  generalize keptSize (tail - k.heap.start) = kept' at *
  split
  · next test =>
    have sum : uadd kept' (sizeAt k.memory tail) = kept' + sizeAt k.memory tail :=
      uadd_of_lt (by omega)
    rw [sum] at test
    have given : usub k.heap.size kept' = k.heap.size - kept' := usub_of_le below (by omega)
    have rest : usub (sizeAt k.memory tail) (k.heap.size - kept') =
        sizeAt k.memory tail - (k.heap.size - kept') := usub_of_le (by omega) (by omega)
    have bits : (sizeAt k.memory tail - (k.heap.size - kept')) % sizeWidth =
        sizeAt k.memory tail - (k.heap.size - kept') := Nat.mod_eq_of_lt (by omega)
    have ends : uadd tail (sizeAt k.memory tail - (k.heap.size - kept')) =
        tail + (sizeAt k.memory tail - (k.heap.size - kept')) := uadd_of_lt (by omega)
    have footer : usub (tail + (sizeAt k.memory tail - (k.heap.size - kept'))) footerSize =
        tail + (sizeAt k.memory tail - (k.heap.size - kept')) - footerSize :=
      usub_of_le (by omega) (by omega)
    rw [given, rest, sizeAt_setSize, bits, ends, footer]
    show Bytes.Same k.heap.start (tail - footerSize) k.memory (setHeader _ _ _)
    unfold setHeader setMagic setSize
    apply Bytes.Same.store
    · apply Bytes.Same.store
      · exact Bytes.same_store _ _ (.inl (by omega))
      · omega
    · omega
  · have kept'' := heapDelEntry_same (k.contractHeap (tail - k.heap.start)).1
      ((k.contractHeap (tail - k.heap.start)).1.heapFindEntry tail) (tail - footerSize)
      (show _ ≤ k.heap.start by rw [slot, heap]; exact slots)
    rwa [memory] at kept''

/-- Until the freed block is entered, `heap_free` stores at the footer before it, or behind it, if
it does not find its own size in what comes after the block. -/
theorem settle_low (low : k.heap.start ≤ tail) (less : tail < stop)
    (size : tail + sizeAt k.memory tail = stop) (below : stop ≤ k.heap.end_)
    (inRange : k.heap.end_ < uintWidth) (first : 2 * frameSize ≤ k.heap.start)
    (pages : k.WholePages) (slots : k.slot k.heap.entrycount ≤ k.heap.start)
    (apart : holeAt k.memory stop → tail + headerSize ≤ stop) :
    Bytes.Same k.heap.start (tail - footerSize) k.memory
      (k.settle tail (stop - footerSize)).memory := by
  have width : uintWidth = 4294967296 := rfl
  have widths : sizeWidth = 2147483648 := rfl
  have page : frameSize = 4096 := rfl
  have eight : footerSize = 8 := rfl
  have eight' : headerSize = 8 := rfl
  have enough : footerSize ≤ stop := by omega
  by_cases looks : holeAt k.memory stop
  · have settled := settle_of_holeAt k tail looks enough (by omega)
    obtain ⟨m, stored, joint, footer⟩ := k.joinAfter_eq tail stop
    have apart' := apart looks
    have others : sizeAt m stop = sizeAt k.memory stop := by
      rw [← stored, sizeAt, setSize, Bytes.word_store_of_apart _ _ (by omega)]
      rfl
    have cut := sizeAt_lt k.memory stop
    have cut' := sizeAt_lt k.memory tail
    have sum : uadd (sizeAt k.memory tail) (sizeAt k.memory stop) =
        sizeAt k.memory tail + sizeAt k.memory stop := uadd_of_lt (by omega)
    have grown : sizeAt m tail = (sizeAt k.memory tail + sizeAt k.memory stop) % sizeWidth := by
      rw [← stored, sum]
      exact sizeAt_setSize
    have atMost := Nat.mod_le (sizeAt k.memory tail + sizeAt k.memory stop) sizeWidth
    have only : Bytes.Same k.heap.start (tail - footerSize) k.memory m := by
      rw [← stored]
      exact Bytes.same_store _ _ (.inl (by omega))
    have slots' : (k.setMemory m).slot (k.setMemory m).heap.entrycount ≤ k.heap.start := slots
    have deleted := heapDelEntry_same (k.setMemory m) ((k.setMemory m).heapFindEntry stop)
      k.heap.end_ slots'
    have heap := heapDelEntry_heap (k.setMemory m) ((k.setMemory m).heapFindEntry stop)
    have fewer := heapDelEntry_entrycount_le (k.setMemory m) ((k.setMemory m).heapFindEntry stop)
    rw [others] at footer
    rw [settled, footer, joint]
    generalize (k.setMemory m).heapDelEntry ((k.setMemory m).heapFindEntry stop) = k₁ at *
    have heap' : k₁.heap = { k.heap with entrycount := k₁.heap.entrycount } := by
      rw [heap]
      rfl
    have kept : Bytes.Same k.heap.start (tail - footerSize) k.memory k₁.memory :=
      only.trans (deleted.mono (Nat.le_refl _) (by omega))
    split
    · next ends =>
      have reach : stop + sizeAt k.memory stop = k.heap.end_ := by
        have same : k₁.heap.end_ = k.heap.end_ := by rw [heap']
        rw [same] at ends
        unfold uadd usub uintWidth at ends
        omega
      have size' : sizeAt k₁.memory tail = sizeAt m tail :=
        sizeAt_same (deleted.mono low (by omega))
      have fewer' : k₁.heap.entrycount ≤ k.heap.entrycount := fewer
      have shrunk : Bytes.Same k₁.heap.start (tail - footerSize) k₁.memory
          (k₁.shrink tail).memory := by
        apply shrink_low
        · rw [heap']
          exact low
        · rw [heap']
          show tail < k.heap.end_
          omega
        · rw [size', grown, heap']
          show _ ≤ k.heap.end_
          omega
        · rw [heap']
          exact inRange
        · rw [heap']
          exact first
        · constructor
          · rw [heap']
            exact pages.aligned
          · rw [heap']
            exact pages.atLeast
        · unfold slot at *
          rw [heap']
          show k.heap.entries + 4 * k₁.heap.entrycount ≤ k.heap.start
          omega
      rw [heap'] at shrunk
      exact kept.trans shrunk
    · exact kept
  · rw [settle_of_not_holeAt k tail looks enough (by omega)]
    split
    · exact shrink_low low (by omega) (by omega) inRange first pages slots
    · exact Bytes.Same.refl k.heap.start (tail - footerSize) k.memory

/-- The bounds and the memory below a freed block, except perhaps its first word when the index has
overflowed. -/
structure FreedAt (k k' : KernelHeap) (tail : Nat) : Prop where
  heap : k'.heap = { k.heap with end_ := k'.heap.end_, entrycount := k'.heap.entrycount }
  low : Bytes.Same (k.heap.start + 4) (tail - footerSize) k.memory k'.memory
  first : k'.heap.entrycount ≤ k.heap.maxentries →
    Bytes.Same k.heap.start (tail - footerSize) k.memory k'.memory

/-- What `heap_free` does to a block that nothing before it is joined with. -/
theorem freedAt_of_clear (low : k.heap.start ≤ tail) (less : tail < stop)
    (size : tail + sizeAt k.memory tail = stop) (below : stop ≤ k.heap.end_)
    (inRange : k.heap.end_ < uintWidth) (start : 2 * frameSize ≤ k.heap.start)
    (pages : k.WholePages) (layout : k.slot k.heap.maxentries = k.heap.start)
    (capacity : k.heap.entrycount ≤ k.heap.maxentries)
    (clear : ¬holeBefore (setFlag k.memory tail mmFlagHole) tail)
    (apart : holeAt (setFlag k.memory tail mmFlagHole) stop → tail + headerSize ≤ stop) :
    FreedAt k (k.heapFree (uadd tail headerSize)) tail := by
  have page : frameSize = 4096 := rfl
  have eight : footerSize = 8 := rfl
  have eight' : headerSize = 8 := rfl
  have width : uintWidth = 4294967296 := rfl
  have slots : k.slot k.heap.entrycount ≤ k.heap.start := by
    unfold slot at *
    omega
  have refl : FreedAt k k tail := by
    refine ⟨rfl, ?_, fun _ => ?_⟩
    · exact Bytes.Same.refl (k.heap.start + 4) (tail - footerSize) k.memory
    · exact Bytes.Same.refl k.heap.start (tail - footerSize) k.memory
  have place : usub (uadd tail headerSize) headerSize = tail := by
    unfold usub uadd uintWidth
    omega
  have footer : usub (uadd tail (sizeAt k.memory tail)) footerSize = stop - footerSize := by
    rw [uadd_of_lt (by omega), size]
    exact usub_of_le (by omega) (by omega)
  unfold heapFree
  dsimp only
  rw [place, footer]
  split
  · exact refl
  · split
    · exact refl
    · rw [if_neg (by exact clear)]
      have only : Bytes.Same k.heap.start (tail - footerSize) k.memory
          (setFlag k.memory tail mmFlagHole) := Bytes.same_store _ _ (.inl (by omega))
      have settled := settle_low (k := k.setMemory (setFlag k.memory tail mmFlagHole)) low less
        (by
          show tail + sizeAt (setFlag k.memory tail mmFlagHole) tail = stop
          rw [sizeAt_setFlag (by decide), size])
        below inRange start ⟨pages.aligned, pages.atLeast⟩ slots apart
      have heap := settle_heap (k.setMemory (setFlag k.memory tail mmFlagHole)) tail
        (stop - footerSize)
      have fewer := settle_entrycount_le (k.setMemory (setFlag k.memory tail mmFlagHole)) tail
        (stop - footerSize)
      generalize (k.setMemory (setFlag k.memory tail mmFlagHole)).settle tail
        (stop - footerSize) = k₁ at *
      have heap' : k₁.heap = { k.heap with
          end_ := k₁.heap.end_, entrycount := k₁.heap.entrycount } := heap
      have fewer' : k₁.heap.entrycount ≤ k.heap.entrycount := fewer
      have kept := only.trans settled
      have slot : k₁.slot (k₁.heap.entrycount + 1) =
          k.heap.entries + 4 * (k₁.heap.entrycount + 1) := by rw [KernelHeap.slot, heap']
      unfold KernelHeap.slot at layout
      refine ⟨?_, ?_, fun room => ?_⟩
      · rw [heapAddEntry_heap, heap']
      · refine (kept.mono (Nat.le_add_right ..) (Nat.le_refl _)).trans ?_
        apply heapAddEntry_same _ _ (by omega)
        omega
      · rw [heapAddEntry_heap] at room
        have room' : k₁.heap.entrycount + 1 ≤ k.heap.maxentries := room
        refine kept.trans ?_
        apply heapAddEntry_same _ _ (by omega)
        omega

/-! ## The end of a block is cut off -/

/-- The memory when `heap_realloc` has cut the end off a block, before that is freed. -/
def cutMemory (m : Bytes) (ptr size : Nat) : Bytes :=
  let header := usub ptr headerSize
  let footer := usub (uadd header (sizeAt m header)) footerSize
  let tmpheader := uadd (uadd ptr size) footerSize
  let tmpfooter := uadd ptr size
  let m := setHeader m tmpheader footer
  let m := setHeader m header tmpfooter
  let m := setMagic (setMagic m tmpfooter) tmpheader
  let m := setFlag m tmpheader mmFlagBlock
  let m := setSize m tmpheader (uadd (usub footer tmpheader) footerSize)
  setSize m header (uadd (uadd headerSize size) footerSize)

/-- The heap when `heap_realloc` has cut the end off a block, before that is freed. -/
def cut (k : KernelHeap) (ptr size : Nat) : KernelHeap := k.setMemory (cutMemory k.memory ptr size)

/-- `heap_realloc` cuts the end off a block and frees it. -/
theorem cutBlock_eq (k : KernelHeap) (ptr size : Nat) :
    k.cutBlock ptr size =
      (k.cut ptr size).heapFree (uadd (uadd (uadd ptr size) footerSize) headerSize) := rfl

/-- A block in two parts, the first of which has room for so many bytes. The end of the second is
only as it should be when it has room for a header and a footer. -/
structure CutOff (m m' : Bytes) (header tail stop : Nat) : Prop where
  magic : m'.word header = mmMagic
  size : m'.word (header + 4) = tail - header
  footerMagic : m'.word (tail - 8) = mmMagic
  footerHeader : m'.word (tail - 8 + 4) = header
  tailMagic : m'.word tail = mmMagic
  tailSize : m'.word (tail + 4) = stop - tail
  last : tail + 16 ≤ stop → m'.word (stop - 8) = mmMagic ∧ m'.word (stop - 8 + 4) = tail
  payload : Bytes.Same (header + 8) (tail - 8) m m'
  rest : Bytes.Same (tail + 8) (stop - 4) m m'
  only : Bytes.OnlyIn header (max stop (tail + 8)) m m'

/-- The second part lies in the block when it has room for a header. -/
theorem CutOff.only_of_le (cutOff : CutOff m m' header tail stop) (enough : tail + 8 ≤ stop) :
    Bytes.OnlyIn header stop m m' := by
  have only := cutOff.only
  rwa [Nat.max_eq_left enough] at only

/-- `heap_realloc` cuts the end off a block. -/
theorem cutMemory_cutOff (tagged : Tagged m header b) (block : b.hole = false)
    (inRange : header + b.size < uintWidth) (less : size + (headerSize + footerSize) < b.size) :
    CutOff m (cutMemory m (header + headerSize) size) header
      (header + (size + (headerSize + footerSize))) (header + b.size) := by
  have large := b.large
  have small := b.small
  have width : uintWidth = 4294967296 := rfl
  have widths : sizeWidth = 2147483648 := rfl
  unfold headerSize footerSize at less large ⊢
  have place : usub (header + 8) 8 = header := by
    rw [usub_of_le (Nat.le_add_left ..) (by omega)]
    exact Nat.add_sub_cancel ..
  have footer : usub (uadd header b.size) 8 = header + b.size - 8 := by
    rw [uadd_of_lt inRange]
    exact usub_of_le (by omega) inRange
  have tmpfooter : uadd (header + 8) size = header + 8 + size := uadd_of_lt (by omega)
  have tmpheader : uadd (header + 8 + size) 8 = header + 8 + size + 8 := uadd_of_lt (by omega)
  have rest : uadd (usub (header + b.size - 8) (header + 8 + size + 8)) 8 =
      b.size - (size + 16) := by
    unfold uadd usub uintWidth
    omega
  have first : uadd (uadd 8 size) 8 = size + 16 := by
    rw [show uadd 8 size = 8 + size from uadd_of_lt (by omega), uadd_of_lt (by omega)]
    omega
  have flag : flagAt m header = 0 := by
    rw [tagged.flag]
    exact if_neg (by rw [block]; exact Bool.false_ne_true)
  have tail : header + (size + (8 + 8)) = header + 8 + size + 8 := by omega
  have back : header + 8 + size + 8 - 8 = header + 8 + size := Nat.add_sub_cancel ..
  have bits : (size + 16) % sizeWidth = size + 16 := Nat.mod_eq_of_lt (by omega)
  have bits' : (b.size - (size + 16)) % sizeWidth = b.size - (size + 16) :=
    Nat.mod_eq_of_lt (by omega)
  have value : (header + 8 + size + 8) % 4294967296 = header + 8 + size + 8 :=
    Nat.mod_eq_of_lt (by omega)
  have value' : header % 4294967296 = header := Nat.mod_eq_of_lt (by omega)
  have magic : mmMagic % 4294967296 = mmMagic := rfl
  unfold cutMemory headerSize footerSize
  dsimp only
  rw [place, tagged.size, footer, tmpfooter, tmpheader, rest, first, tail]
  constructor
  · simp (disch := omega) only [setMagic, setHeader, setSize, setFlag, Bytes.word_store_of_apart]
    exact tagged.magic
  · rw [word_setSize, bits]
    have kept : flagAt (setSize (setFlag (setMagic (setMagic (setHeader (setHeader m
        (header + 8 + size + 8) (header + b.size - 8)) header (header + 8 + size))
        (header + 8 + size)) (header + 8 + size + 8)) (header + 8 + size + 8) mmFlagBlock)
        (header + 8 + size + 8) (b.size - (size + 16))) header = flagAt m header := by
      unfold flagAt
      simp (disch := omega) only [setMagic, setHeader, setSize, setFlag, Bytes.word_store_of_apart]
    rw [kept, flag]
    omega
  · rw [back]
    simp (disch := omega) only [setMagic, setHeader, setSize, setFlag, Bytes.word_store_of_apart,
      Bytes.word_store_self]
    exact magic
  · rw [back]
    simp (disch := omega) only [setMagic, setHeader, setSize, setFlag, Bytes.word_store_of_apart,
      Bytes.word_store_self]
    exact value'
  · simp (disch := omega) only [setMagic, setHeader, setSize, setFlag, Bytes.word_store_of_apart,
      Bytes.word_store_self]
    exact magic
  · rw [setSize, Bytes.word_store_of_apart _ _ (by omega), word_setSize, bits',
      flagAt_setFlag (by decide)]
    unfold mmFlagBlock
    omega
  · intro enough
    constructor
    · simp (disch := omega) only [setMagic, setHeader, setSize, setFlag, Bytes.word_store_of_apart]
      have last := tagged.footerMagic
      unfold footerSize at last
      exact last
    · simp (disch := omega) only [setMagic, setHeader, setSize, setFlag, Bytes.word_store_of_apart,
        Bytes.word_store_self]
      exact value
  · intro a above below
    unfold setMagic setHeader setSize setFlag
    rw [Bytes.store_of_outside _ _ (by omega), Bytes.store_of_outside _ _ (by omega),
      Bytes.store_of_outside _ _ (by omega), Bytes.store_of_outside _ _ (by omega),
      Bytes.store_of_outside _ _ (by omega), Bytes.store_of_outside _ _ (by omega),
      Bytes.store_of_outside _ _ (by omega)]
  · intro a above below
    unfold setMagic setHeader setSize setFlag
    rw [Bytes.store_of_outside _ _ (by omega), Bytes.store_of_outside _ _ (by omega),
      Bytes.store_of_outside _ _ (by omega), Bytes.store_of_outside _ _ (by omega),
      Bytes.store_of_outside _ _ (by omega), Bytes.store_of_outside _ _ (by omega),
      Bytes.store_of_outside _ _ (by omega)]
  · unfold setMagic setHeader setSize setFlag
    apply_rules [Bytes.OnlyIn.store, Bytes.OnlyIn.refl] <;> omega

/-- `MM_MAGIC` does not overlap itself. -/
theorem not_magic_of_overlap {address few : Nat} (magic : m.word (address + few) = mmMagic)
    (positive : 0 < few) (overlaps : few < 4) : m.word address ≠ mmMagic := by
  intro magic'
  have byte (a : Nat) : (m a).toNat < 256 := (m a).isLt
  have first := byte address
  have second := byte (address + 1)
  have third := byte (address + 2)
  have fourth := byte (address + 3)
  have lowest : (m (address + few)).toNat = 0x52 := by
    have above := byte (address + few)
    unfold Bytes.word mmMagic at magic
    omega
  unfold Bytes.word mmMagic at magic'
  interval_cases few <;> omega

/-- A header does not begin inside of the header of a hole with so few bytes. -/
theorem not_holeAt_of_overlap {few : Nat} (magic : m.word tail = mmMagic)
    (size : m.word (tail + 4) = sizeWidth + few) (positive : 0 < few) (overlaps : few < 8) :
    ¬holeAt m (tail + few) := by
  rintro ⟨magic', -⟩
  by_cases near : few < 4
  · exact not_magic_of_overlap magic' positive near magic
  -- here the magic number would begin inside of the size
  have byte (a : Nat) : (m a).toNat < 256 := (m a).isLt
  have fifth := byte (tail + 4)
  have sixth := byte (tail + 5)
  have seventh := byte (tail + 6)
  have eighth := byte (tail + 7)
  have lowest : (m (tail + few)).toNat = 0x52 := by
    have above := byte (tail + few)
    unfold magicAt Bytes.word mmMagic at magic'
    omega
  unfold Bytes.word sizeWidth at size
  simp only [Nat.add_assoc, Nat.reduceAdd] at size
  have least : 4 ≤ few := Nat.le_of_not_lt near
  interval_cases few <;> omega

/-- The flag of the first part is that of a block in use. -/
theorem CutOff.flag (cutOff : CutOff m m' header tail stop) (small : tail - header < sizeWidth) :
    flagAt m' header = mmFlagBlock := by
  rw [flagAt, cutOff.size]
  exact Nat.div_eq_of_lt small

/-- The size of the second part. -/
theorem CutOff.tail_sizeAt (cutOff : CutOff m m' header tail stop)
    (small : stop - tail < sizeWidth) : sizeAt m' tail = stop - tail := by
  rw [sizeAt, cutOff.tailSize]
  exact Nat.mod_eq_of_lt small

/-- What is before the second part is not taken for a hole. -/
theorem CutOff.clear (cutOff : CutOff m m' header tail stop) (wide : header + 16 ≤ tail)
    (inRange : tail < uintWidth) (small : tail - header < sizeWidth) :
    ¬holeBefore (setFlag m' tail mmFlagHole) tail := by
  have footer : usub tail footerSize = tail - 8 := usub_of_le (by unfold footerSize; omega) inRange
  have others {a : Nat} (apart : a + 4 ≤ tail) : (setFlag m' tail mmFlagHole).word a = m'.word a :=
    Bytes.word_store_of_apart _ _ (by omega)
  rintro ⟨-, -, flag⟩
  rw [footer, headerAt, others (by omega), cutOff.footerHeader, flagAt, others (by omega)] at flag
  have live := cutOff.flag small
  unfold flagAt at live
  rw [live] at flag
  exact absurd flag (by decide)

/-- The end of the block that is cut off is freed. -/
theorem cutBlock_freedAt (wf : k.WellFormed (left ++ b :: right)) (pages : k.WholePages)
    (block : b.hole = false) (less : size + (headerSize + footerSize) < b.size) :
    FreedAt (k.cut (k.heap.start + total Block.size left + headerSize) size)
      (k.cutBlock (k.heap.start + total Block.size left + headerSize) size)
      (k.heap.start + total Block.size left + (size + (headerSize + footerSize))) := by
  have inRange := wf.inRange
  have below := wf.block_le
  have small := b.small
  have width : uintWidth = 4294967296 := rfl
  have widths : sizeWidth = 2147483648 := rfl
  have cutOff := cutMemory_cutOff wf.tagged block (by omega) less
  have first := wf.start_ge
  have layout := wf.layout
  have capacity := wf.capacity
  rw [cutBlock_eq]
  unfold headerSize footerSize at *
  generalize header_eq : k.heap.start + total Block.size left = header at *
  have payload : uadd (header + 8) size = header + 8 + size := uadd_of_lt (by omega)
  have place : uadd (header + 8 + size) 8 = header + (size + (8 + 8)) := by
    rw [uadd_of_lt (by omega)]
    omega
  rw [payload, place]
  generalize tail_eq : header + (size + (8 + 8)) = tail at *
  have sized : sizeAt (cutMemory k.memory (header + 8) size) tail = header + b.size - tail :=
    cutOff.tail_sizeAt (by omega)
  have sum : tail + sizeAt (k.cut (header + 8) size).memory tail = header + b.size := by
    show tail + sizeAt (cutMemory k.memory (header + 8) size) tail = header + b.size
    omega
  refine freedAt_of_clear ?_ ?_ sum ?_ ?_ ?_ ?_ ?_ ?_ ?_ ?_
  · show k.heap.start ≤ tail
    omega
  · omega
  · exact below
  · exact inRange
  · exact first
  · exact ⟨pages.aligned, pages.atLeast⟩
  · exact layout
  · exact capacity
  · exact cutOff.clear (by omega) (by omega) (by omega)
  · intro looks
    by_contra overlaps
    unfold headerSize at overlaps
    have stop : header + b.size = tail + (header + b.size - tail) := by omega
    rw [stop] at looks
    refine not_holeAt_of_overlap ?_ ?_ (by omega) (by omega) looks
    · exact (Bytes.word_store_of_apart _ _ (by omega)).trans cutOff.tailMagic
    · show (setFlag (cutMemory k.memory (header + 8) size) tail mmFlagHole).word (tail + 4) = _
      rw [word_setFlag (by decide), sized]
      exact congrArg (· + (header + b.size - tail)) (Nat.one_mul _)

/-! ## The branches -/

section branches

variable (tagged : Tagged k.memory header b) (inRange : header + b.size < uintWidth)
  (asked : 1 ≤ size) (depth : Nat)

include tagged inRange asked

/-- `heap_realloc` of a block with its header and footer. -/
theorem heapRealloc_eq : heapRealloc depth k (header + headerSize) size =
    if size + (headerSize + footerSize) = b.size then
      some { heap := k, result := header + headerSize }
    else if size + (headerSize + footerSize) < b.size then
      some { heap := k.cutBlock (header + headerSize) size, result := header + headerSize }
    else (heapMalloc depth size false k).bind fun found =>
      if found.2 = 0 then some { heap := found.1, result := 0 }
      else some
        { heap := (found.1.setMemory (Bytes.copy found.2 (header + headerSize) size
            found.1.memory)).heapFree (header + headerSize)
          result := found.2
          copied := some (header + headerSize, size) } := by
  have large := b.large
  have small := b.small
  have widths : sizeWidth < uintWidth := by decide
  have eight : headerSize = 8 := rfl
  have eight' : footerSize = 8 := rfl
  have place : usub (header + headerSize) headerSize = header := by
    rw [usub_of_le (Nat.le_add_left ..) (by omega)]
    exact Nat.add_sub_cancel ..
  have footer : usub (uadd header b.size) footerSize = header + b.size - footerSize := by
    rw [uadd_of_lt inRange]
    exact usub_of_le (by omega) inRange
  have notNull : header + headerSize ≠ 0 := Nat.succ_ne_zero _
  have positive : size ≠ 0 := by omega
  have magic : ¬(magicAt k.memory header ≠ mmMagic ∨
      magicAt k.memory (header + b.size - footerSize) ≠ mmMagic) := by
    rw [tagged.magic, tagged.footerMagic]
    exact fun differ => differ.elim (absurd rfl) (absurd rfl)
  have payload := payload_eq large (Nat.lt_trans small widths)
  unfold heapRealloc
  dsimp only
  rw [place, tagged.size, footer, payload, if_neg notNull, if_neg positive, if_neg magic]
  by_cases same : size + (headerSize + footerSize) = b.size
  · rw [if_pos same, if_pos (by omega)]
  · rw [if_neg same, if_neg (show size ≠ b.size - (headerSize + footerSize) by omega)]
    by_cases less : size + (headerSize + footerSize) < b.size
    · rw [if_pos less, if_pos (by omega), if_neg (Nat.not_lt_zero _)]
    · rw [if_neg less, if_neg (by omega)]
      rfl

/-- `heap_realloc` copies as many bytes as the new block has. -/
theorem heapRealloc_copied {out : Reallocated} (more : b.size < size + (headerSize + footerSize))
    (served : heapRealloc depth k (header + headerSize) size = some out) (found : out.result ≠ 0) :
    out.copied = some (header + headerSize, size) := by
  rw [heapRealloc_eq tagged inRange asked depth, if_neg (Nat.ne_of_gt more),
    if_neg (Nat.not_lt.mpr (Nat.le_of_lt more))] at served
  obtain ⟨⟨k₁, res⟩, _, served⟩ := Option.bind_eq_some_iff.mp served
  dsimp only at served
  split at served
  · rw [← Option.some.inj served] at found
    exact absurd rfl found
  · rw [← Option.some.inj served]

end branches

/-! ## The live blocks -/

/-- The addresses of the blocks in use, and the blocks. -/
def live (start : Nat) (blocks : List Block) : List (Nat × Block) :=
  (places Block.size start blocks).filter fun place => !place.2.hole

/-- The live blocks of two lists. -/
theorem live_append (start : Nat) (blocks more : List Block) :
    live start (blocks ++ more) =
      live start blocks ++ live (start + total Block.size blocks) more := by
  rw [live, places_append, List.filter_append]
  rfl

/-- The live blocks when the first block is one. -/
theorem live_cons_of_block {start : Nat} {blocks : List Block} (block : b.hole = false) :
    live start (b :: blocks) = (start, b) :: live (start + b.size) blocks := by
  rw [live, places, List.filter_cons, if_pos (by rw [block]; rfl)]
  rfl

/-- The live blocks are those that are not holes. -/
theorem mem_live {start address : Nat} {blocks : List Block} :
    (address, b) ∈ live start blocks ↔
      (address, b) ∈ places Block.size start blocks ∧ b.hole = false := by
  unfold live
  rw [List.mem_filter, Bool.not_eq_true']

/-- There is no live block among holes. -/
theorem live_eq_nil_iff {start : Nat} {blocks : List Block} :
    live start blocks = [] ↔ ∀ hole ∈ blocks, hole.hole = true := by
  constructor
  · intro none hole member
    by_contra block
    obtain ⟨before, after, rfl⟩ := List.append_of_mem member
    rw [live_append, live_cons_of_block (Bool.eq_false_iff.mpr block)] at none
    exact absurd none (List.append_ne_nil_of_right_ne_nil _ (List.cons_ne_nil _ _))
  · intro all
    refine List.eq_nil_iff_forall_not_mem.mpr fun ⟨address, other⟩ member => ?_
    obtain ⟨place, block⟩ := mem_live.mp member
    obtain ⟨before, after, rfl, _⟩ := mem_places.mp place
    rw [all other (List.mem_append_right _ List.mem_cons_self)] at block
    exact absurd block (by decide)

/-- A live block has been given another size. The live blocks are those from before, but for this
one, whose payload is at the result now and begins with what was in the old one. Only the old
payload is read, and space is given back only when it has room for a header and a footer. -/
structure Resized (k : KernelHeap) (left : List Block) (b : Block) (right : List Block)
    (size : Nat) (out : Reallocated) (b' : Block) (blocks : List Block) : Prop where
  wellFormed : out.heap.WellFormed blocks
  start : out.heap.heap.start = k.heap.start
  block : b'.hole = false
  enough : size + (headerSize + footerSize) ≤ b'.size
  blocks : ∃ address, out.result = address + headerSize ∧
    (live k.heap.start blocks).Perm ((address, b') :: (live k.heap.start left ++
      live (k.heap.start + total Block.size left + b.size) right))
  contents : ∀ i < min (b.size - (headerSize + footerSize)) size,
    out.heap.memory (out.result + i) =
      k.memory (k.heap.start + total Block.size left + headerSize + i)
  reads : ∀ source count, out.copied = some (source, count) →
    k.heap.start + total Block.size left + headerSize ≤ source ∧
      source + count + footerSize ≤ k.heap.start + total Block.size left + b.size
  givesBack : out.result = k.heap.start + total Block.size left + headerSize →
    b'.size = b.size ∨ b'.size + (headerSize + footerSize) ≤ b.size
  others : ∀ place ∈ live k.heap.start left ++
    live (k.heap.start + total Block.size left + b.size) right,
    Bytes.Same place.1 (place.1 + place.2.size) k.memory out.heap.memory

/-- A block keeps its size. -/
theorem resized_same (wf : k.WellFormed (left ++ b :: right)) (block : b.hole = false)
    (same : size + (headerSize + footerSize) = b.size) :
    Resized k left b right size
      { heap := k, result := k.heap.start + total Block.size left + headerSize } b
      (left ++ b :: right) := by
  constructor
  · exact wf
  · rfl
  · exact block
  · exact Nat.le_of_eq same
  · refine ⟨_, rfl, ?_⟩
    rw [live_append, live_cons_of_block block]
    exact List.perm_middle
  · exact fun _ _ => rfl
  · intro source count copied
    cases copied
  · exact fun _ => .inl rfl
  · exact fun place _ => Bytes.Same.refl place.1 (place.1 + place.2.size) k.memory

/-- A block in use is made of two. -/
structure Parts (b first rest : Block) (size : Nat) : Prop where
  block : b.hole = false
  firstBlock : first.hole = false
  restBlock : rest.hole = false
  room : first.size = size + (headerSize + footerSize)
  whole : first.size + rest.size = b.size

/-- A block with enough space can be cut in two. -/
theorem exists_parts (block : b.hole = false) (enough : size + 2 * (headerSize + footerSize) ≤ b.size) :
    ∃ first rest, Parts b first rest size := by
  have small := b.small
  have fits : size + (headerSize + footerSize) < sizeWidth := by omega
  refine ⟨Block.inUse (size + (headerSize + footerSize)) (Nat.le_add_left ..) fits,
    Block.inUse (b.size - (size + (headerSize + footerSize))) (by omega) (by omega), block, rfl, rfl,
    rfl, ?_⟩
  show size + (headerSize + footerSize) + (b.size - (size + (headerSize + footerSize))) = b.size
  omega

section parts

variable {first rest : Block} (wf : k.WellFormed (left ++ b :: right))
  (parts : Parts b first rest size)

include wf parts

/-- The words that are stored when a block is cut in two. -/
theorem Parts.cutOff : CutOff k.memory
    (k.cut (k.heap.start + total Block.size left + headerSize) size).memory
    (k.heap.start + total Block.size left)
    (k.heap.start + total Block.size left + first.size)
    (k.heap.start + total Block.size left + b.size) := by
  have inRange := wf.inRange
  have below := wf.block_le
  have large := rest.large
  have whole := parts.whole
  have room := parts.room
  have eight : headerSize = 8 := rfl
  rw [room]
  exact cutMemory_cutOff wf.tagged parts.block (by omega) (by omega)

/-- What is cut off lies in the block. -/
theorem Parts.only : Bytes.OnlyIn (k.heap.start + total Block.size left)
    (k.heap.start + total Block.size left + b.size) k.memory
    (k.cut (k.heap.start + total Block.size left + headerSize) size).memory := by
  have large := rest.large
  have whole := parts.whole
  have eight : headerSize = 8 := rfl
  exact (parts.cutOff wf).only_of_le (by omega)

/-- The heap with the two parts. -/
theorem Parts.wellFormed :
    (k.cut (k.heap.start + total Block.size left + headerSize) size).WellFormed
      (left ++ [first] ++ rest :: right) := by
  have cutOff := parts.cutOff wf
  have only := parts.only wf
  have large := rest.large
  have large' := first.large
  have whole := parts.whole
  have wf' : k.WellFormed (left ++ [b] ++ right) := by rwa [List.append_cons] at wf
  have last : total Block.size (left ++ [b]) = total Block.size left + b.size := total_append ..
  have shift : left ++ [first] ++ rest :: right = left ++ [first, rest] ++ right := by
    rw [List.append_assoc, List.append_assoc]
    rfl
  have live {part : Block} (used : part.hole = false) : part.flag * sizeWidth + part.size =
      part.size := by
    rw [Block.flag, if_neg (by rw [used]; exact Bool.false_ne_true)]
    exact (congrArg (· + part.size) (Nat.zero_mul _)).trans (Nat.zero_add _)
  unfold headerSize footerSize at large large'
  rw [shift]
  apply wf'.replace
  · rfl
  · exact wf.capacity
  · refine ⟨?_, ?_, ?_⟩
    · rw [tagged_iff, live parts.firstBlock]
      refine ⟨cutOff.magic, ?_, cutOff.footerMagic, cutOff.footerHeader⟩
      rw [cutOff.size]
      exact Nat.add_sub_cancel_left ..
    · have stop : k.heap.start + total Block.size left + first.size + rest.size =
          k.heap.start + total Block.size left + b.size := by omega
      have ends := cutOff.last (by omega)
      rw [tagged_iff, live parts.restBlock, stop]
      refine ⟨cutOff.tailMagic, ?_, ends⟩
      rw [cutOff.tailSize]
      omega
    · show k.heap.start + total Block.size left + first.size + rest.size = _
      rw [last]
      omega
  · exact only.same (.inl (Nat.le_refl _))
  · rw [last, ← Nat.add_assoc]
    exact only.same (.inr (Nat.le_refl _))
  · have index := wf.index
    have kept : (k.cut (k.heap.start + total Block.size left + headerSize) size).index = k.index :=
      wf.index_setMemory only (Nat.le_add_right ..)
    rw [holes_append, holes_cons_of_block parts.block] at index
    rw [kept, holes_cons_of_block parts.firstBlock, holes_cons_of_block parts.restBlock, last,
      ← Nat.add_assoc]
    refine index.trans (List.Perm.of_eq ?_)
    exact congrArg (· ++ _) (List.append_nil _).symm

/-- `heap_realloc` frees the second part. -/
theorem Parts.cutBlock_eq :
    k.cutBlock (k.heap.start + total Block.size left + headerSize) size =
      (k.cut (k.heap.start + total Block.size left + headerSize) size).heapFree
        ((k.cut (k.heap.start + total Block.size left + headerSize) size).heap.start +
          total Block.size (left ++ [first]) + headerSize) := by
  have inRange := wf.inRange
  have below := wf.block_le
  have large := rest.large
  have whole := parts.whole
  have room := parts.room
  have single : total Block.size (left ++ [first]) = total Block.size left + first.size :=
    total_append ..
  have start : (k.cut (k.heap.start + total Block.size left + headerSize) size).heap.start =
      k.heap.start := rfl
  rw [KernelHeap.cutBlock_eq, start, single, room]
  unfold headerSize footerSize at *
  have one : uadd (k.heap.start + total Block.size left + 8) size =
      k.heap.start + total Block.size left + 8 + size := uadd_of_lt (by omega)
  have two : uadd (k.heap.start + total Block.size left + 8 + size) 8 =
      k.heap.start + total Block.size left + 8 + size + 8 := uadd_of_lt (by omega)
  have three : uadd (k.heap.start + total Block.size left + 8 + size + 8) 8 =
      k.heap.start + total Block.size left + 8 + size + 8 + 8 := uadd_of_lt (by omega)
  rw [one, two, three]
  refine congrArg _ ?_
  omega

/-- The block is made smaller when what is behind the first part is as it was. -/
theorem Parts.resized {more : List Block}
    (wellFormed : k'.WellFormed (left ++ [first] ++ more)) (start : k'.heap.start = k.heap.start)
    (low : Bytes.Same k.heap.start (k.heap.start + total Block.size (left ++ [first]))
      (k.cut (k.heap.start + total Block.size left + headerSize) size).memory k'.memory)
    (same : live (k.heap.start + total Block.size left + first.size) more =
      live (k.heap.start + total Block.size left + b.size) right)
    (others : ∀ place ∈ live (k.heap.start + total Block.size left + b.size) right,
      Bytes.Same place.1 (place.1 + place.2.size) k.memory k'.memory) :
    Resized k left b right size
      { heap := k', result := k.heap.start + total Block.size left + headerSize } first
      (left ++ [first] ++ more) := by
  have room := parts.room
  have whole := parts.whole
  have large := rest.large
  have single : total Block.size (left ++ [first]) = total Block.size left + first.size :=
    total_append ..
  rw [single, ← Nat.add_assoc] at low
  constructor
  · exact wellFormed
  · exact start
  · exact parts.firstBlock
  · exact Nat.le_of_eq room.symm
  · refine ⟨_, rfl, ?_⟩
    rw [live_append, live_append, live_cons_of_block parts.firstBlock, single, ← Nat.add_assoc,
      same, List.append_assoc]
    exact List.perm_middle
  · intro i inside
    have payload := (parts.cutOff wf).payload
    have eight : headerSize = 8 := rfl
    have eight' : footerSize = 8 := rfl
    show k'.memory (k.heap.start + total Block.size left + headerSize + i) = _
    rw [low _ (by omega) (by omega), payload _ (by omega) (by omega)]
  · intro source count copied
    cases copied
  · exact fun _ => .inr (by omega)
  · intro place member
    rcases List.mem_append.mp member with member | member
    · obtain ⟨there, _⟩ := mem_live.mp member
      obtain ⟨above, below⟩ := (tiles_append.mp wf.tiles).1.bounds there
      have kept : Bytes.Same place.1 (place.1 + place.2.size) k.memory _ :=
        (parts.only wf).same (.inl below)
      exact kept.trans (low.mono above (by omega))
    · exact others place member

/-- The second part stays behind the first, as a hole. -/
theorem Parts.resized_of_entered {hole : Block} (isHole : hole.hole = true)
    (size_eq : hole.size = rest.size)
    (entered : EnteredAlone (k.cut (k.heap.start + total Block.size left + headerSize) size) k'
      (left ++ [first]) rest right hole) :
    ∃ blocks, Resized k left b right size
      { heap := k', result := k.heap.start + total Block.size left + headerSize } first blocks := by
  have whole := parts.whole
  have shift : left ++ [first] ++ [hole] ++ right = left ++ [first] ++ hole :: right :=
    List.append_assoc ..
  have wellFormed := entered.wellFormed
  rw [shift] at wellFormed
  have stop : k.heap.start + total Block.size (left ++ [first] ++ [rest]) =
      k.heap.start + total Block.size left + b.size := by
    rw [total_append, total_append, show total Block.size [first] = first.size from rfl,
      show total Block.size [rest] = rest.size from rfl]
    omega
  refine ⟨_, parts.resized wf wellFormed entered.start entered.low ?_ ?_⟩
  · have place : k.heap.start + total Block.size left + first.size + hole.size =
        k.heap.start + total Block.size left + b.size := by omega
    rw [live, places, List.filter_cons, if_neg (by rw [isHole]; decide), place]
    rfl
  · intro place member
    obtain ⟨there, _⟩ := mem_live.mp member
    obtain ⟨above, below⟩ := (tiles_middle.mp wf.tiles).2.2.bounds there
    have kept : Bytes.Same place.1 (place.1 + place.2.size) k.memory _ :=
      (parts.only wf).same (.inr above)
    have high := entered.high
    exact kept.trans (high.mono (Nat.le_trans (Nat.le_of_eq stop) above) below)

/-- The second part reaches the end of the heap, and is given back there. -/
theorem Parts.resized_of_shrunk {more : List Block} (next : AtMostAHole right)
    (shrunk : Shrunk (k.cut (k.heap.start + total Block.size left + headerSize) size) k'
      (left ++ [first]) more) :
    Resized k left b right size
      { heap := k', result := k.heap.start + total Block.size left + headerSize } first
      (left ++ [first] ++ more) := by
  have none : live (k.heap.start + total Block.size left + b.size) right = [] := by
    rw [live_eq_nil_iff]
    rcases next with rfl | ⟨x, rfl, isHole⟩
    · exact fun _ member => absurd member List.not_mem_nil
    · intro other member
      rwa [List.mem_singleton.mp member]
  apply parts.resized wf shrunk.wellFormed shrunk.start shrunk.low
  · rw [none, live_eq_nil_iff]
    exact shrunk.endsIn.areHoles
  · rw [none]
    exact fun _ member => absurd member List.not_mem_nil

end parts

/-- The part that has been cut off a block is given back as it should be, with what comes after it.
A hole after it reaches the end of the heap. At the end, a header and a footer or more remain; away
from it the index has room. -/
def CanGiveBack (k : KernelHeap) (used space : Nat) (after : List Block) : Prop :=
  (∀ x ∈ after.head?, x.hole = true → after = [x]) ∧
  (after = [] → k.EndClear) ∧
  (AtMostAHole after →
    k.EndsAlone used (k.heap.entrycount - after.length) (space + total Block.size after)) ∧
  (¬AtMostAHole after → k.heap.entrycount < k.heap.maxentries)

/-- A heap that has been made smaller at a block keeps the blocks before it, and gives the block the
room that was asked for. -/
theorem resized_size {b' : Block} {blocks : List Block} (wf : k.WellFormed (left ++ b :: right))
    (pages : k.WholePages) (block : b.hole = false)
    (less : size + (headerSize + footerSize) < b.size)
    (resized : Resized k left b right size
      { heap := k.cutBlock (k.heap.start + total Block.size left + headerSize) size
        result := k.heap.start + total Block.size left + headerSize } b' blocks) :
    b'.size = size + (headerSize + footerSize) ∧ ∃ more, blocks = left ++ b' :: more := by
  have freed := cutBlock_freedAt wf pages block less
  have below := wf.block_le
  have inRange := wf.inRange
  have small := b.small
  have eight : headerSize = 8 := rfl
  have eight' : footerSize = 8 := rfl
  have width : sizeWidth < uintWidth := by decide
  have cutOff := cutMemory_cutOff wf.tagged block (Nat.lt_of_le_of_lt below inRange) less
  obtain ⟨address, result, perm⟩ := resized.blocks
  have place : k.heap.start + total Block.size left = address :=
    Nat.add_right_cancel result
  have member := (mem_live.mp (perm.mem_iff.mpr List.mem_cons_self)).1
  obtain ⟨before, more, rfl, here⟩ := mem_places.mp member
  have wf' := resized.wellFormed
  have tagged := wf'.tagged
  have start := resized.start
  rw [start, ← here, ← place] at tagged
  have kept : Bytes.Same k.heap.start (k.heap.start + total Block.size left)
      k.memory (k.cutBlock (k.heap.start + total Block.size left + headerSize) size).memory := by
    have capacity := wf'.capacity
    rw [show Reallocated.heap _ = k.cutBlock _ _ from rfl] at capacity
    have same : (k.cutBlock (k.heap.start + total Block.size left + headerSize)
        size).heap.maxentries = k.heap.maxentries := by
      rw [freed.heap]
      rfl
    rw [same] at capacity
    have only : Bytes.Same k.heap.start (k.heap.start + total Block.size left) k.memory _ :=
      cutOff.only.same (.inl (Nat.le_refl _))
    exact only.trans ((freed.first capacity).mono (Nat.le_refl _) (by omega))
  constructor
  · have word := Bytes.word_congr freed.low (show (k.cut _ size).heap.start + 4 ≤
      k.heap.start + total Block.size left + 4 by
        show k.heap.start + 4 ≤ _
        omega) (by omega)
    have size' := tagged.size
    rw [sizeAt, word, show (k.cut (k.heap.start + total Block.size left + headerSize) size).memory =
      cutMemory k.memory (k.heap.start + total Block.size left + headerSize) size from rfl,
      cutOff.size, Nat.mod_eq_of_lt (by omega)] at size'
    omega
  · have first := (tiles_append.mp wf.tiles).1
    have second := (tiles_append.mp wf'.tiles).1
    have stop : k.heap.start + total Block.size before =
        k.heap.start + total Block.size left := by omega
    rw [start, stop] at second
    have same := Tiles.unique (tagged_decides _) (tagged_solid _) (tiles_same first kept) second
    exact ⟨more, by rw [same]⟩

/-- A block before a hole that does not reach the end of the heap is not freed as it should be. -/
theorem not_wellFormed_before_hole {far more : List Block}
    (wf : k.WellFormed (left ++ b :: x :: far)) (block : b.hole = false) (isHole : x.hole = true)
    (inside : far ≠ [])
    (clear : ¬holeBefore (setFlag k.memory (k.heap.start + total Block.size left) mmFlagHole)
      (k.heap.start + total Block.size left))
    (wf' : (k.heapFree (k.heap.start + total Block.size left + headerSize)).WellFormed
      (left ++ more))
    (perm : (live (k.heap.start + total Block.size left) more).Perm
      (live (k.heap.start + total Block.size left + b.size) (x :: far))) : False := by
  have wf₂ : k.WellFormed (left ++ [b] ++ x :: far) := by rwa [List.append_cons] at wf
  have last : total Block.size (left ++ [b]) = total Block.size left + b.size := total_append ..
  have place : k.heap.start + total Block.size (left ++ [b]) =
      k.heap.start + total Block.size left + b.size := by omega
  have tagged := wf.tagged
  have next := wf₂.tagged
  have below := wf.block_le
  have below' := wf₂.total_lt (List.cons_ne_nil _ _)
  have inRange := wf.inRange
  have large := b.large
  have large' := x.large
  have small := b.small
  have small' := x.small
  have eight : headerSize = 8 := rfl
  have eight' : footerSize = 8 := rfl
  have width : sizeWidth = 2147483648 := rfl
  have width' : uintWidth = 4294967296 := rfl
  obtain ⟨m, freed, looks, only'⟩ :=
    heapFree_alone tagged (Nat.lt_of_le_of_lt below inRange) clear
  have only : Bytes.OnlyIn (k.heap.start + total Block.size left)
      (k.heap.start + total Block.size left + b.size) k.memory m :=
    only'.mono (Nat.le_refl _) (by omega)
  obtain ⟨k₁, joint, heap, positive, kept, listed, size⟩ :=
    joinAfter_of_hole wf₂ isHole place only (by omega)
  rw [place] at next
  have next' : Tagged m (k.heap.start + total Block.size left + b.size) x :=
    next.same_of_bytes (only.same (.inr (Nat.le_refl _)))
  have inside' : k.heap.start + total Block.size left + b.size + x.size < k.heap.end_ := by
    have shift : left ++ [b] ++ x :: far = left ++ [b, x] ++ far := by
      rw [List.append_assoc, List.append_assoc]
      rfl
    rw [shift] at wf₂
    have lt := wf₂.total_lt inside
    rw [total_append] at lt
    have both : total Block.size [b, x] = b.size + x.size := rfl
    omega
  have settled := settle_of_hole (k := k.setMemory m) next' isHole (by omega) inside' inRange
    (show k.heap.start + total Block.size left + headerSize ≤ _ by omega)
  rw [settled, joint] at freed
  rw [freed] at wf'
  have whole : sizeAt k₁.memory (k.heap.start + total Block.size left) =
      (b.size + x.size) % sizeWidth := by
    have sum : uadd b.size x.size = b.size + x.size := uadd_of_lt (by omega)
    rw [size, looks.size, Nat.mod_eq_of_lt small, next'.size, sum]
  have slots : k₁.slot (k₁.heap.entrycount + 1) ≤ k.heap.start := by
    have slots := wf.slot_le wf.capacity
    unfold slot at *
    rw [heap]
    show k.heap.entries + 4 * (k.heap.entrycount - 1 + 1) ≤ k.heap.start
    omega
  have added := k₁.heapAddEntry_indexed
    (show k.heap.start + total Block.size left < uintWidth by omega)
  have others := heapAddEntry_same k₁ k.heap.end_
    (show k.heap.start + total Block.size left < uintWidth by omega) slots
  have bounds : (k₁.heapAddEntry (k.heap.start + total Block.size left)).heap.start =
      k.heap.start ∧ (k₁.heapAddEntry (k.heap.start + total Block.size left)).heap.end_ =
      k.heap.end_ := by
    rw [heapAddEntry_heap, heap]
    exact ⟨rfl, rfl⟩
  have tiles := (tiles_append.mp wf'.tiles).2
  have index := wf'.index
  rw [bounds.1, bounds.2] at tiles
  rw [bounds.1] at index
  cases more with
  | nil =>
    have ends : k.heap.start + total Block.size left = k.heap.end_ := tiles
    omega
  | cons c more =>
    have header := tiles.1.size
    rw [sizeAt, Bytes.word_congr others (by omega) (by omega)] at header
    have size' : (b.size + x.size) % sizeWidth = c.size := whole.symm.trans header
    have large'' := c.large
    by_cases fits : b.size + x.size < sizeWidth
    · -- The footer of the second hole still points at it.
      rw [Nat.mod_eq_of_lt fits] at size'
      have footer := tiles.1.footerHeader
      have stop : k.heap.start + total Block.size left + c.size - footerSize =
          k.heap.start + total Block.size left + b.size + x.size - footerSize := by omega
      rw [stop, headerAt, Bytes.word_congr others (by omega) (by omega),
        Bytes.word_congr kept (by omega) (by omega)] at footer
      have old : k.memory.word (k.heap.start + total Block.size left + b.size + x.size -
          footerSize + 4) = k.heap.start + total Block.size left + b.size := next.footerHeader
      omega
    · -- The size has been cut, and no block begins where the hole would end.
      rw [width] at size'
      have short : c.size < b.size := by omega
      have tiles' := tiles.2
      cases more with
      | nil =>
        have ends : k.heap.start + total Block.size left + c.size = k.heap.end_ := tiles'
        omega
      | cons e more =>
        have there : (k.heap.start + total Block.size left + c.size, e) ∈
            places Block.size (k.heap.start + total Block.size left) (c :: e :: more) :=
          List.mem_cons_of_mem _ List.mem_cons_self
        have farther := (tiles_append.mp wf₂.tiles).2
        rw [place] at farther
        cases kind : e.hole with
        | false =>
          have member := perm.mem_iff.mp (mem_live.mpr ⟨there, kind⟩)
          have above := (farther.bounds (mem_live.mp member).1).1
          omega
        | true =>
          have member : k.heap.start + total Block.size left + c.size ∈
              (k₁.heapAddEntry (k.heap.start + total Block.size left)).index := by
            rw [index.mem_iff, holes_append]
            exact List.mem_append_right _ (mem_holes.mpr ⟨e, kind, there⟩)
          rw [added.index, List.mem_orderedInsert] at member
          rcases member with same | member
          · omega
          · have old := wf₂.index.mem_iff.mp (listed _ member)
            rw [holes_append, List.mem_append, place] at old
            rcases old with old | old
            · rw [holes_append, holes_cons_of_block block, List.mem_append] at old
              rcases old with old | old
              · have within := bounds_of_mem_holes (tiles_append.mp wf.tiles).1 old
                omega
              · exact absurd old List.not_mem_nil
            · have within := bounds_of_mem_holes farther old
              omega

section parts

variable {first rest b' : Block} {blocks : List Block} (parts : Parts b first rest size)

include parts

/-- What follows the first part in a heap that has been made smaller at a block. -/
theorem Parts.more (wf : k.WellFormed (left ++ b :: right)) (pages : k.WholePages)
    (resized : Resized k left b right size
      { heap := k.cutBlock (k.heap.start + total Block.size left + headerSize) size
        result := k.heap.start + total Block.size left + headerSize } b' blocks) :
    ∃ more, (k.cutBlock (k.heap.start + total Block.size left + headerSize) size).WellFormed
        (left ++ [first] ++ more) ∧
      (live (k.heap.start + total Block.size (left ++ [first])) more).Perm
        (live (k.heap.start + total Block.size left + b.size) right) := by
  have whole := parts.whole
  have large := rest.large
  have eight : headerSize = 8 := rfl
  have less : size + (headerSize + footerSize) < b.size := by
    rw [← parts.room]
    omega
  obtain ⟨size', more, rfl⟩ := resized_size wf pages parts.block less resized
  have same : b' = first := by
    apply Block.ext'
    · rw [size', parts.room]
    · rw [resized.block, parts.firstBlock]
  have wellFormed := resized.wellFormed
  obtain ⟨address, result, perm⟩ := resized.blocks
  have place : k.heap.start + total Block.size left = address := Nat.add_right_cancel result
  have single : total Block.size (left ++ [first]) = total Block.size left + first.size :=
    total_append ..
  rw [same, List.append_cons] at wellFormed
  rw [same, live_append, live_cons_of_block parts.firstBlock, ← place] at perm
  refine ⟨more, wellFormed, ?_⟩
  rw [single, ← Nat.add_assoc]
  exact List.perm_append_left_iff _ |>.mp (List.perm_middle.symm.trans perm).cons_inv

/-- Cutting a block in two keeps what is behind the heap. -/
theorem Parts.endClear_iff (wf : k.WellFormed (left ++ b :: right)) :
    (k.cut (k.heap.start + total Block.size left + headerSize) size).EndClear ↔ k.EndClear := by
  have behind : Bytes.Same k.heap.end_ (k.heap.end_ + headerSize) k.memory
      (k.cut (k.heap.start + total Block.size left + headerSize) size).memory :=
    (parts.only wf).same (.inr wf.block_le)
  have magic := Bytes.word_congr behind (Nat.le_refl _) (by unfold headerSize; omega)
  have size' := Bytes.word_congr behind (Nat.le_add_right k.heap.end_ 4) (by unfold headerSize; omega)
  unfold EndClear holeAt magicAt flagAt sizeAt
  rw [← magic, ← size']
  rfl

/-- Whether a size is cut to what remains is seen in words that are there before the block is cut in
two. -/
theorem Parts.cutToFit_iff (wf : k.WellFormed (left ++ b :: right)) (next : AtMostAHole right)
    (remains : total Block.size left + first.size + (headerSize + footerSize) ≤
      keptSize (total Block.size left + first.size)) :
    (k.cut (k.heap.start + total Block.size left + headerSize) size).CutToFit
        (total Block.size left + first.size) (rest.size + total Block.size right) ↔
      k.CutToFit (total Block.size left + first.size) (rest.size + total Block.size right) := by
  have cutOff := parts.cutOff wf
  have whole := parts.whole
  have small : total Block.size right < sizeWidth := by
    rcases next with rfl | ⟨x, rfl, _⟩
    · decide
    · exact x.small
  have start : (k.cut (k.heap.start + total Block.size left + headerSize) size).heap.start =
    k.heap.start := rfl
  refine and_congr_right fun space => ?_
  unfold headerSize footerSize at *
  rw [start]
  generalize kept_eq : keptSize (total Block.size left + first.size) = kept at *
  have magic := Bytes.word_congr cutOff.rest (show _ ≤ k.heap.start + kept - 8 by omega) (by omega)
  unfold magicAt headerAt
  rw [magic]
  by_cases apart : total Block.size right + 4 ≤ sizeWidth
  · rw [Bytes.word_congr cutOff.rest (show _ ≤ k.heap.start + kept - 8 + 4 by omega) (by omega)]
  · -- the place overlaps the footer of the block, whose magic is there
    have footer := wf.tagged.footerMagic
    unfold footerSize at footer
    have place : k.heap.start + total Block.size left + b.size - 8 =
        k.heap.start + kept - 8 + (sizeWidth - total Block.size right) := by omega
    rw [magicAt, place] at footer
    have other := not_magic_of_overlap footer (by omega) (by omega)
    exact iff_of_false (fun both => other both.1) fun both => other both.1

/-- The second part can be given back exactly if the words that are there before the block is cut in
two say so. -/
theorem Parts.canGiveBack_iff (wf : k.WellFormed (left ++ b :: right)) :
    (k.cut (k.heap.start + total Block.size left + headerSize) size).CanGiveBack
        (total Block.size left + first.size) rest.size right ↔
      k.CanGiveBack (total Block.size left + first.size) rest.size right := by
  have heap : (k.cut (k.heap.start + total Block.size left + headerSize) size).heap = k.heap := rfl
  unfold CanGiveBack EndsAlone
  rw [parts.endClear_iff wf, heap]
  refine and_congr_right fun _ => and_congr_right fun _ => and_congr_left fun _ =>
    imp_congr_right fun next => and_congr_right fun remains => and_congr_right fun _ => ?_
  rw [parts.cutToFit_iff wf next remains]

/-- When there is room for another block in what the block no longer needs, it is made smaller as it
should be exactly if the second part can be given back. -/
theorem Parts.resized_iff (wf : k.WellFormed (left ++ b :: right)) (pages : k.WholePages) :
    (∃ b' blocks, Resized k left b right size
      { heap := k.cutBlock (k.heap.start + total Block.size left + headerSize) size
        result := k.heap.start + total Block.size left + headerSize } b' blocks) ↔
      k.CanGiveBack (total Block.size left + first.size) rest.size right := by
  rw [← parts.canGiveBack_iff wf]
  have wf₁ := parts.wellFormed wf
  have inRange := wf₁.inRange
  have below := wf₁.block_le
  have freed := parts.cutBlock_eq wf
  have pages₁ : (k.cut (k.heap.start + total Block.size left + headerSize) size).WholePages :=
    ⟨pages.aligned, pages.atLeast⟩
  have endsInUse : EndsInUse (left ++ [first]) := by
    intro other member
    rw [List.getLast?_concat, Option.mem_some_iff] at member
    rw [← member, parts.firstBlock]
  have some : left ++ [first] ≠ [] := List.append_ne_nil_of_right_ne_nil _ (List.cons_ne_nil _ _)
  have clear := clear_of_left wf₁ endsInUse fun none => absurd none some
  have single : total Block.size (left ++ [first]) = total Block.size left + first.size :=
    total_append ..
  rw [← single]
  -- What comes after the second part is in use when it is not a hole at the end.
  have beginsInUse (far : ¬AtMostAHole right)
      (atEnd : ∀ x ∈ right.head?, x.hole = true → right = [x]) : BeginsInUse right := by
    intro x member
    rw [Bool.eq_false_iff]
    intro isHole
    exact far (.inr ⟨x, atEnd x member isHole, isHole⟩)
  have inside (far : ¬AtMostAHole right) : right ≠ [] := by
    rintro rfl
    exact far (.inl rfl)
  constructor
  · rintro ⟨b', blocks, resized⟩
    obtain ⟨more, wellFormed, perm⟩ := parts.more wf pages resized
    have start : (k.cutBlock (k.heap.start + total Block.size left + headerSize) size).heap.start =
        k.heap.start := resized.start
    rw [freed] at wellFormed start
    have stop : k.heap.start + total Block.size left + b.size =
        k.heap.start + total Block.size (left ++ [first]) + rest.size := by
      have whole := parts.whole
      omega
    rw [stop] at perm
    by_cases far : AtMostAHole right
    · have areHoles : ∀ hole ∈ more, hole.hole = true := by
        have none : live (k.heap.start + total Block.size (left ++ [first]) + rest.size) right =
            [] := by
          rw [live_eq_nil_iff]
          rcases far with rfl | ⟨x, rfl, isHole⟩
          · exact fun _ member => absurd member List.not_mem_nil
          · intro other member
            rwa [List.mem_singleton.mp member]
        rw [none] at perm
        exact live_eq_nil_iff.mp (List.perm_nil.mp perm)
      obtain ⟨behind, alone⟩ := endsAlone_of_endsIn wf₁ pages₁ clear parts.restBlock far
        ⟨areHoles, wellFormed, start⟩
      refine ⟨?_, behind, fun _ => alone, absurd far⟩
      intro other member _
      rcases far with rfl | ⟨x, rfl, _⟩
      · cases member
      · rw [Option.some.inj member]
    · have atEnd : ∀ x ∈ right.head?, x.hole = true → right = [x] := by
        intro x member isHole
        cases right with
        | nil => exact absurd member (Option.not_mem_none _)
        | cons y right =>
          obtain rfl := Option.some.inj member
          by_contra inside
          refine not_wellFormed_before_hole wf₁ parts.restBlock isHole ?_ clear wellFormed perm
          rintro rfl
          exact inside rfl
      obtain ⟨m, frees, _⟩ := heapFree_between wf₁ clear (beginsInUse far atEnd) (inside far)
      refine ⟨atEnd, ?_, fun next => absurd next far, fun _ => ?_⟩
      · rintro rfl
        exact absurd (.inl rfl) far
      · have capacity := wellFormed.capacity
        rw [frees, heapAddEntry_heap] at capacity
        exact capacity
  · rintro ⟨atEnd, behind, alone, room⟩
    by_cases far : AtMostAHole right
    · obtain ⟨more, shrunk⟩ :=
        shrunk_of_endsAlone wf₁ pages₁ clear parts.restBlock far behind (alone far)
      rw [← freed] at shrunk
      exact ⟨_, _, parts.resized_of_shrunk wf far shrunk⟩
    · obtain ⟨m, frees, looks, only⟩ :=
        heapFree_between wf₁ clear (beginsInUse far atEnd) (inside far)
      have wf₂ := wf₁
      rw [List.append_cons] at wf₂
      let hole := Block.free rest.size rest.large rest.small
      have isHole : hole.hole = true := rfl
      have made := entered_alone wf₂ parts.restBlock isHole rfl looks only (room far)
      obtain ⟨blocks, resized⟩ := parts.resized_of_entered wf isHole rfl made
      rw [freed.trans frees]
      exact ⟨_, blocks, resized⟩

end parts

/-! ## Every size -/

/-- The sizes that a block can be given: its own, and those that leave room for another block in
what it no longer needs, when that can be given back. -/
def CanResize (k : KernelHeap) (left : List Block) (b : Block) (right : List Block) (size : Nat) :
    Prop :=
  size + (headerSize + footerSize) = b.size ∨
    size + 2 * (headerSize + footerSize) ≤ b.size ∧
      k.CanGiveBack (total Block.size left + (size + (headerSize + footerSize)))
        (b.size - (size + (headerSize + footerSize))) right

/-- A block is not made larger as it should be: bytes behind its payload are read. -/
theorem not_resized_of_more {out : Reallocated} {b' : Block} {blocks : List Block}
    (wf : k.WellFormed (left ++ b :: right)) (asked : 1 ≤ size)
    (more : b.size < size + (headerSize + footerSize)) (depth : Nat)
    (served : heapRealloc depth k (k.heap.start + total Block.size left + headerSize) size =
      some out) (resized : Resized k left b right size out b' blocks) : False := by
  have inRange := Nat.lt_of_le_of_lt wf.block_le wf.inRange
  obtain ⟨address, result, _⟩ := resized.blocks
  have found : out.result ≠ 0 := by
    rw [result]
    exact Nat.succ_ne_zero _
  have copied := heapRealloc_copied wf.tagged inRange asked depth more served found
  have reads := (resized.reads _ _ copied).2
  unfold headerSize footerSize at *
  omega

/-- `heap_malloc` returns a block when a hole is large enough. -/
theorem heapMalloc_serves {hole : Block} (wf : k.WellFormed (left ++ hole :: right))
    (isHole : hole.hole = true) (positive : 1 ≤ size)
    (small : size + (headerSize + footerSize) < uintWidth)
    (enough : size + (headerSize + footerSize) ≤ hole.size) (depth : Nat) :
    ∃ k' result, heapMalloc (depth + 1) size false k = some (k', result) ∧ result ≠ 0 := by
  have newsize : uadd size (headerSize + footerSize) = size + (headerSize + footerSize) :=
    uadd_of_lt small
  have nonzero : size ≠ 0 := Nat.ne_of_gt positive
  obtain ⟨j, inside, entry⟩ := wf.entry_of_hole isHole
  cases found : k.findSmallestHole (size + (headerSize + footerSize)) false with
  | none =>
    have none := findSmallestHole_none.mp found (k.entry j)
      (List.mem_map.mpr ⟨j, List.mem_range.mpr inside, rfl⟩)
    rw [suits_iff, entry, wf.tagged.size] at none
    exact absurd enough none
  | some i =>
    obtain ⟨bound, suits, _⟩ := findSmallestHole_some found
    obtain ⟨before, other, after, here, isHole', entry'⟩ := wf.hole_of_entry bound
    rw [here] at wf
    rw [suits_iff, entry', wf.tagged.size] at suits
    have wf' : k.WellFormed (before ++ [other] ++ after) := by rwa [← List.append_cons]
    obtain ⟨b, rest, allocated, _⟩ := carve_allocated wf' isHole' bound entry' suits
    refine ⟨_, _, by rw [heapMalloc, newsize, if_neg nonzero, found], ?_⟩
    rw [allocated.result]
    exact Nat.succ_ne_zero _

end KernelHeap

end Nupkux
