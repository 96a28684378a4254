import Nupkux.Lib.Words
import Nupkux.Mm.HeapPages

/-!
# The kernel heap

`mm.c` as it works on memory: a block lies between a header with its size and a footer with the
address of its header, and the index lists the holes. Headers, footers and the index are words
in the memory that the heap hands out, so a store at a wrong place is a store into something
else. When the heap grows, the page tables that the new pages need are allocated from the heap
itself. What an access to a page without a frame does is left out; the bytes of page tables are
in `paging`.
-/

namespace Nupkux

/-- `MM_MAGIC`. -/
def mmMagic : Nat := 0x68747552

/-- `MM_FLAG_BLOCK`. -/
def mmFlagBlock : Nat := 0

/-- `MM_FLAG_HOLE`. -/
def mmFlagHole : Nat := 1

/-- `sizeof(mm_header)`. -/
def headerSize : Nat := 8

/-- `sizeof(mm_footer)`. -/
def footerSize : Nat := 8

/-- The number of values of the 31 bits of `size`. The flag is the bit above them. -/
def sizeWidth : Nat := 2147483648

/-! ## Headers and footers -/

section tags

variable (m : Bytes) (header footer : Nat)

/-- `header->magic`, or `footer->magic`. -/
def magicAt : Nat := m.word header

/-- `header->size`. -/
def sizeAt : Nat := m.word (header + 4) % sizeWidth

/-- `header->flag`. -/
def flagAt : Nat := m.word (header + 4) / sizeWidth

/-- `footer->header`. -/
def headerAt : Nat := m.word (footer + 4)

/-- `header->magic = MM_MAGIC`, or that of a footer. -/
def setMagic : Bytes := m.store header mmMagic

/-- `header->size = size`. -/
def setSize (size : Nat) : Bytes :=
  m.store (header + 4) (flagAt m header * sizeWidth + size % sizeWidth)

/-- `header->flag = flag`. -/
def setFlag (flag : Nat) : Bytes := m.store (header + 4) (flag * sizeWidth + sizeAt m header)

/-- `footer->header = header`. -/
def setHeader : Bytes := m.store (footer + 4) header

end tags

/-- The heap, the page tables, and the memory. The highest index of a store into `entries[]` is
recorded: `stored` is the one after it. -/
structure KernelHeap extends AddressSpaces where
  memory : Bytes
  stored : Nat := 0

namespace KernelHeap

/-! ## The index -/

/-- The address of a slot of the index. -/
def slot (k : KernelHeap) (i : Nat) : Nat := k.heap.entries + 4 * i

/-- `entries[i]`. -/
def entry (k : KernelHeap) (i : Nat) : Nat := k.memory.word (k.slot i)

/-- The entries in use. -/
def index (k : KernelHeap) : List Nat := (List.range k.heap.entrycount).map k.entry

/-- `entries[i] = value`. -/
def setEntry (k : KernelHeap) (i value : Nat) : KernelHeap :=
  { k with memory := k.memory.store (k.slot i) value, stored := max k.stored (i + 1) }

/-- Change the memory. -/
def setMemory (k : KernelHeap) (memory : Bytes) : KernelHeap := { k with memory }

/-- Change `entrycount`. -/
def setEntrycount (k : KernelHeap) (entrycount : Nat) : KernelHeap :=
  { k with heap := { k.heap with entrycount } }

/-- The loop of `heap_add_entry` that moves entries up by one, for a number of turns. -/
def shiftUp : Nat → Nat → Nat → KernelHeap → KernelHeap
  | 0, _, _, k => k
  | turns + 1, i, tmp, k => shiftUp turns (i + 1) (k.entry (i + 1)) (k.setEntry (i + 1) tmp)

/-- Where `heap_add_entry` enters a hole: before the first one that is not smaller. -/
def addPosition (k : KernelHeap) (entry : Nat) : Nat :=
  k.index.findIdx fun other => ¬sizeAt k.memory other < sizeAt k.memory entry

/-- `heap_add_entry`. -/
def heapAddEntry (k : KernelHeap) (entry : Nat) : KernelHeap :=
  let i := k.addPosition entry
  let entrycount := k.heap.entrycount
  if i = entrycount then (k.setEntry entrycount entry).setEntrycount (entrycount + 1)
  else (shiftUp (entrycount - i) i (k.entry i) (k.setEntry i entry)).setEntrycount (entrycount + 1)

/-- The loop of `heap_del_entry` that moves entries down by one, for a number of turns. -/
def shiftDown : Nat → Nat → KernelHeap → KernelHeap
  | 0, _, k => k
  | turns + 1, i, k => shiftDown turns (i + 1) (k.setEntry i (k.entry (i + 1)))

/-- `heap_del_entry`. -/
def heapDelEntry (k : KernelHeap) : Option Nat → KernelHeap
  | none => k
  | some i =>
    (shiftDown (k.heap.entrycount - i) i k).setEntrycount (k.heap.entrycount - 1)

/-- `create_heap`. -/
def createHeap (paging : Paging) (memory : Bytes) (start end_ memend pageflags : Nat) :
    KernelHeap :=
  let heap := Heap.create start end_ memend pageflags
  let initholestart := heap.start
  let m := setMagic memory initholestart
  let m := setSize m initholestart heap.size
  let m := setFlag m initholestart mmFlagHole
  let initholeend := usub heap.end_ footerSize
  let k : KernelHeap := { paging, heap, memory := m }
  let k := k.setEntry 0 initholestart
  k.setMemory (setHeader (setMagic k.memory initholeend) (k.entry 0) initholeend)

/-- `heap_find_entry`. -/
def heapFindEntry (k : KernelHeap) (entry : Nat) : Option Nat :=
  k.index.findIdx? fun other => other = entry

/-- How far behind a hole the payload of an aligned block begins. -/
def alignOffset (location : Nat) : Nat :=
  if uadd location headerSize % frameSize ≠ 0 then
    frameSize - uadd location headerSize % frameSize
  else 0

/-- The test of `find_smallest_hole`; sizes are compared as `int`s for an aligned block. -/
def suits (k : KernelHeap) (size : Nat) (pageAlign : Bool) (entry : Nat) : Prop :=
  if pageAlign then
    toInt size ≤ toInt (toInt (sizeAt k.memory entry) - alignOffset entry)
  else size ≤ sizeAt k.memory entry

instance (k : KernelHeap) (size : Nat) (pageAlign : Bool) (entry : Nat) :
    Decidable (k.suits size pageAlign entry) := by
  unfold suits
  infer_instance

/-- `find_smallest_hole`. -/
def findSmallestHole (k : KernelHeap) (size : Nat) (pageAlign : Bool) : Option Nat :=
  k.index.findIdx? fun entry => k.suits size pageAlign entry

/-! ## Growing and shrinking -/

/-- `_kmalloc_pa` for a page table: the heap after it, the address and the physical address. -/
abbrev KmallocPa := KernelHeap → Option (KernelHeap × Nat × Nat)

/-- `make_table` in the kernel directory. -/
def makeTable (kmallocPa : KmallocPa) (k : KernelHeap) (index flags : Nat) :
    Option KernelHeap := do
  let (k, res, phys) ← kmallocPa k
  some { k with paging :=
    (k.paging.newTable res).setTable k.paging.kernelDirectory index res (phys ||| flags) }

/-- `make_page` in the kernel directory, with a frame. -/
def makePage (kmallocPa : KmallocPa) (k : KernelHeap) (address flags : Nat) :
    Option KernelHeap := do
  let tab := address / frameSize / tableEntries
  let k ← if (k.paging.directoryAt k.paging.kernelDirectory).physTabs tab = 0
    then k.makeTable kmallocPa tab flags else some k
  some { k with paging := k.paging.allocFrame (k.paging.kernelPage address) flags }

/-- `expand_heap`. -/
def expandHeap (kmallocPa : KmallocPa) (k : KernelHeap) (newSize : Nat) : Option KernelHeap :=
  match k.heap.expandSize newSize with
  | none => some k
  | some size => do
    let grown ← (k.heap.growth newSize).foldlM
      (fun k' address => k'.makePage kmallocPa address k.heap.pageflags) k
    some { grown with heap := { grown.heap with end_ := uadd grown.heap.start size } }

/-- `contract_heap`, and the size it returns. -/
def contractHeap (k : KernelHeap) (newSize : Nat) : KernelHeap × Nat :=
  let (s, size) := k.toAddressSpaces.contractHeap newSize
  ({ k with toAddressSpaces := s }, size)

/-- The entry of the hole with the highest address. -/
def highestHole (k : KernelHeap) : Option Nat :=
  ((List.range k.heap.entrycount).foldl (fun (best : Nat × Option Nat) i =>
    if best.1 < k.entry i then (k.entry i, some i) else best) (0, none)).2

/-- The part of `heap_malloc` that hands what the heap has grown by to the hole with the highest
address, or makes it a hole when there is none. -/
def giveSpace (k : KernelHeap) (oldsize oldend : Nat) : KernelHeap :=
  let newsize := k.heap.size
  match k.highestHole with
  | none =>
    let header := oldend
    let m := setSize k.memory header (usub newsize oldsize)
    let m := setFlag m header mmFlagHole
    let newfooter := usub (uadd oldend (sizeAt m header)) footerSize
    let m := setMagic (setMagic m newfooter) header
    let m := setHeader m header newfooter
    (k.setMemory m).heapAddEntry header
  | some idx =>
    let header := k.entry idx
    let m := setSize k.memory header (uadd (sizeAt k.memory header) (usub newsize oldsize))
    let newfooter := usub (uadd header (sizeAt m header)) footerSize
    let m := setHeader m header newfooter
    let m := setMagic m newfooter
    k.setMemory m

/-- The part of `heap_malloc` that is done when no hole suits. -/
def grow (kmallocPa : KmallocPa) (k : KernelHeap) (newsize : Nat) : Option KernelHeap := do
  let k' ← k.expandHeap kmallocPa (uadd k.heap.size newsize)
  some (k'.giveSpace k.heap.size k.heap.end_)

/-! ## Allocation -/

/-- The part of `heap_malloc` that cuts off the beginning of a hole, so that what follows the
header of the block begins at a page. The address and the size of the rest are returned. -/
def splitBefore (k : KernelHeap) (header : Nat) : KernelHeap × Nat × Nat :=
  let oldsize := sizeAt k.memory header
  let newpos := usub (usub (uadd header frameSize) (header % frameSize)) headerSize
  let newfooter := usub newpos footerSize
  let m := setSize k.memory header (usub newpos header)
  let m := setFlag m header mmFlagHole
  let m := setMagic (setMagic m newfooter) header
  let m := setHeader m header newfooter
  (k.setMemory m, newpos, usub oldsize (sizeAt m header))

/-- The part of `heap_malloc` that writes the header and the footer of the block. -/
def useBlock (k : KernelHeap) (header size newsize : Nat) : KernelHeap :=
  let newfooter := uadd (uadd header headerSize) size
  let m := setFlag k.memory header mmFlagBlock
  let m := setSize m header newsize
  let m := setMagic (setMagic m newfooter) header
  let m := setHeader m header newfooter
  k.setMemory m

/-- The part of `heap_malloc` that makes what remains a hole. -/
def splitAfter (k : KernelHeap) (newheader size : Nat) : KernelHeap :=
  let m := setMagic k.memory newheader
  let m := setFlag m newheader mmFlagHole
  let m := setSize m newheader size
  let newfooter := usub (uadd newheader (sizeAt m newheader)) footerSize
  let m := if newfooter < k.heap.end_ then setHeader (setMagic m newfooter) newheader newfooter
    else m
  (k.setMemory m).heapAddEntry newheader

/-- The part of `heap_malloc` that puts the block at the beginning of so much space. -/
def place (k : KernelHeap) (oldpos oldsize size newsize : Nat) : KernelHeap :=
  let k := k.useBlock oldpos size newsize
  if usub oldsize newsize ≠ 0 then k.splitAfter (uadd oldpos newsize) (usub oldsize newsize)
  else k

/-- The part of `heap_malloc` that is done with the hole that was found. -/
def carve (k : KernelHeap) (size newsize : Nat) (pageAlign : Bool) (holePos : Nat) :
    KernelHeap × Nat :=
  let header := k.entry holePos
  let whole := sizeAt k.memory header
  let tight := usub (usub whole headerSize) footerSize < newsize
  let size := if tight then uadd size (usub whole newsize) else size
  let newsize := if tight then whole else newsize
  let (k, oldpos, oldsize) :=
    if pageAlign ∧ frameSize ≤ header then k.splitBefore header
    else (k.heapDelEntry (some holePos), header, whole)
  (k.place oldpos oldsize size newsize, uadd oldpos headerSize)

/-- `_kmalloc_base` when there is a heap: the address and the physical address. -/
def kmallocBase (heapMalloc : Nat → Bool → KernelHeap → Option (KernelHeap × Nat)) (sz : Nat)
    (align : Bool) : KmallocPa := fun k => do
  let (k, res) ← heapMalloc sz align k
  some (k, res, uadd ((k.paging.pageAt (k.paging.kernelPage res)).frame * frameSize)
    (res % frameSize))

/-- `heap_malloc`, if it returns before the calls are nested deeper than given. -/
def heapMalloc : Nat → Nat → Bool → KernelHeap → Option (KernelHeap × Nat)
  | 0, _, _, _ => none
  | depth + 1, size, pageAlign, k =>
    let newsize := uadd size (headerSize + footerSize)
    if size = 0 then some (k, 0)
    else match k.findSmallestHole newsize pageAlign with
      | none => do
        let k ← k.grow (kmallocBase (heapMalloc depth) pageTableSize true) newsize
        heapMalloc depth size pageAlign k
      | some holePos => some (k.carve size newsize pageAlign holePos)

/-! ## Release -/

/-- The footer before a header looks like that of a hole. -/
def holeBefore (m : Bytes) (header : Nat) : Prop :=
  magicAt m (usub header footerSize) = mmMagic ∧
    magicAt m (headerAt m (usub header footerSize)) = mmMagic ∧
    flagAt m (headerAt m (usub header footerSize)) = mmFlagHole

instance (m : Bytes) (header : Nat) : Decidable (holeBefore m header) := by
  unfold holeBefore
  infer_instance

/-- An address looks like the header of a hole. -/
def holeAt (m : Bytes) (header : Nat) : Prop :=
  magicAt m header = mmMagic ∧ flagAt m header = mmFlagHole

instance (m : Bytes) (header : Nat) : Decidable (holeAt m header) := by
  unfold holeAt
  infer_instance

/-- The part of `heap_free` that joins a block with the hole before it. The header of the result
is returned. -/
def joinBefore (k : KernelHeap) (header footer oldsize : Nat) : KernelHeap × Nat :=
  let before := headerAt k.memory (usub header footerSize)
  let m := setHeader k.memory before footer
  let m := setSize m before (uadd (sizeAt m before) oldsize)
  (k.setMemory m, before)

/-- The part of `heap_free` that joins the hole at `header` with the one at `tmpheader`. The
footer of the result is returned. -/
def joinAfter (k : KernelHeap) (header tmpheader : Nat) : KernelHeap × Nat :=
  let m := setSize k.memory header (uadd (sizeAt k.memory header) (sizeAt k.memory tmpheader))
  let footer := usub (uadd tmpheader (sizeAt m tmpheader)) footerSize
  let k := k.setMemory m
  (k.heapDelEntry (k.heapFindEntry tmpheader), footer)

/-- The part of `heap_free` that is done when the hole at `header` ends where the heap does. -/
def shrink (k : KernelHeap) (header : Nat) : KernelHeap :=
  let oldsize := k.heap.size
  let (k, newsize) := k.contractHeap (usub header k.heap.start)
  if uadd newsize (sizeAt k.memory header) > oldsize then
    let m := setSize k.memory header (usub (sizeAt k.memory header) (usub oldsize newsize))
    let footer := usub (uadd header (sizeAt m header)) footerSize
    let m := setHeader (setMagic m footer) header footer
    k.setMemory m
  else k.heapDelEntry (k.heapFindEntry header)

/-- The part of `heap_free` that is done when the hole before the block has been joined: the one
after it is joined, and the heap shrinks if they end where it does. -/
def settle (k : KernelHeap) (header footer : Nat) : KernelHeap :=
  let tmpheader := uadd footer footerSize
  let (k, footer) := if holeAt k.memory tmpheader then k.joinAfter header tmpheader
    else (k, footer)
  if uadd footer footerSize = k.heap.end_ then k.shrink header else k

/-- `heap_free`. -/
def heapFree (k : KernelHeap) (ptr : Nat) : KernelHeap :=
  let header := usub ptr headerSize
  let oldsize := sizeAt k.memory header
  let footer := usub (uadd header oldsize) footerSize
  if ptr = 0 then k
  else if magicAt k.memory header ≠ mmMagic ∨ magicAt k.memory footer ≠ mmMagic then k
  else
    let k := k.setMemory (setFlag k.memory header mmFlagHole)
    if holeBefore k.memory header then
      let (k, header) := k.joinBefore header footer oldsize
      k.settle header footer
    else (k.settle header footer).heapAddEntry header

/-! ## Change of size -/

/-- The part of `heap_realloc` that cuts the end off a block and frees it. -/
def cutBlock (k : KernelHeap) (ptr size : Nat) : KernelHeap :=
  let header := usub ptr headerSize
  let footer := usub (uadd header (sizeAt k.memory header)) footerSize
  let tmpheader := uadd (uadd ptr size) footerSize
  let tmpfooter := uadd ptr size
  let m := setHeader k.memory tmpheader footer
  let m := setHeader m header tmpfooter
  let m := setMagic (setMagic m tmpfooter) tmpheader
  let m := setFlag m tmpheader mmFlagBlock
  let m := setSize m tmpheader (uadd (usub footer tmpheader) footerSize)
  let m := setSize m header (uadd (uadd headerSize size) footerSize)
  (k.setMemory m).heapFree (uadd tmpheader headerSize)

/-- What `heap_realloc` returns: the heap, the result, and the source and the number of bytes of
its `memcpy`, if it gets there. -/
structure Reallocated where
  heap : KernelHeap
  result : Nat
  copied : Option (Nat × Nat) := none

/-- `heap_realloc`, with a bound for the calls of `heap_malloc`. -/
def heapRealloc (depth : Nat) (k : KernelHeap) (ptr size : Nat) : Option Reallocated :=
  let header := usub ptr headerSize
  let whole := sizeAt k.memory header
  let footer := usub (uadd header whole) footerSize
  let payload := usub (usub whole headerSize) footerSize
  if ptr = 0 then some { heap := k, result := 0 }
  else if size = 0 then some { heap := k.heapFree ptr, result := 0 }
  else if magicAt k.memory header ≠ mmMagic ∨ magicAt k.memory footer ≠ mmMagic then
    some { heap := k, result := 0 }
  else if size = payload then some { heap := k, result := ptr }
  else if size < payload then
    -- The difference is unsigned, so this is never the case.
    if usub (usub whole size) (2 * (headerSize - footerSize)) < 0 then
      some { heap := k, result := ptr }
    else some { heap := k.cutBlock ptr size, result := ptr }
  else do
    let (k, res) ← heapMalloc depth size false k
    if res = 0 then some { heap := k, result := 0 }
    else
      let copy := k.setMemory (Bytes.copy res ptr size k.memory)
      some { heap := copy.heapFree ptr, result := res, copied := some (ptr, size) }

end KernelHeap

end Nupkux
