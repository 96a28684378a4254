import Nupkux.Mm.FrameOwnership
import Nupkux.Mm.HeapBounds

/-!
# Address spaces

`setup_paging` maps the kernel into `kernel_directory`, makes the kernel heap and clones the
directory; from then on `fork` clones directories and `exit` frees them, while the heap grows
in `kernel_directory`. Until there is a heap, blocks come from `kmalloc_pos`, which the loops
of `setup_paging` read as their bound; where such a block lies is left to `PageBlocks`.
-/

namespace Nupkux

/-- `IPC_MEMSIZE`. -/
def ipcMemsize : Nat := 0x400000

/-- `KERNEL_FLAGS`. -/
def kernelFlags : Nat := 1

/-- The size of a page directory. -/
def pageDirectorySize : Nat := 8196

/-- The size of a page table. -/
def pageTableSize : Nat := 4096

/-- The state of `setup_paging` before there is a heap. -/
structure Boot where
  paging : Paging
  kmallocPos : Nat

namespace Boot

/-- `make_page` in the kernel directory; a new table is taken from `kmalloc_pos`. -/
def makePage (blocks : PageBlocks) (b : Boot) (address flags : Nat) : Boot :=
  let tab := address / frameSize / tableEntries
  { paging := (b.paging.makePage blocks address flags b.paging.kernelDirectory true).1
    kmallocPos :=
      if (b.paging.directoryAt b.paging.kernelDirectory).physTabs tab = 0 then
        uadd (assertAlign b.kmallocPos) pageTableSize
      else b.kmallocPos }

/-- `MAP_MEMORY` from page `i` on, with a number of turns that has to suffice. The end is
looked at again before each turn. -/
def mapMemory (blocks : PageBlocks) (end_ : Nat → Nat) (flags : Nat) :
    Nat → Nat → Boot → Option Boot
  | 0, _, _ => none
  | turns + 1, i, b =>
    if i ≤ end_ b.kmallocPos then
      mapMemory blocks end_ flags turns (uadd i frameSize) (b.makePage blocks i flags)
    else some b

/-- `kmalloc_pos` and the kernel directory after the frame map and the directory are
allocated. -/
def start (memend kmallocPos : Nat) : Boot :=
  let kernelDirectory := assertAlign (uadd kmallocPos (memend / frameSize / 8))
  { paging := Paging.empty memend kernelDirectory
    kmallocPos := uadd kernelDirectory pageDirectorySize }

/-- The kernel directory of `setup_paging`. The numbers of turns of its four loops have to
suffice. -/
def mapKernel (blocks : PageBlocks) (memstart memend kmallocPos turns : Nat) : Option Boot := do
  let b := start memend kmallocPos
  let b ← b.mapMemory blocks (fun _ => memstart) kernelFlags turns 0
  let b ← b.mapMemory blocks (fun _ => uadd memstart ipcMemsize) userFlags turns memstart
  let b ← b.mapMemory blocks (fun pos => uadd pos frameSize) kernelFlags turns
    (uadd memstart ipcMemsize)
  b.mapMemory blocks (fun pos => uadd (uadd (alignUp pos) mmKheapStart) mmKheapSize) kernelFlags
    turns (assertAlign (uadd mmKheapStart b.kmallocPos))

/-- The heap of `setup_paging`. -/
def heap (memend : Nat) (b : Boot) : Heap :=
  Heap.create (uadd mmKheapStart b.kmallocPos)
    (uadd (uadd mmKheapStart mmKheapSize) b.kmallocPos) memend kernelFlags

end Boot

/-- Page directories and the bounds of the kernel heap. -/
structure AddressSpaces where
  paging : Paging
  heap : Heap

namespace AddressSpaces

/-- `clone_directory`. -/
def cloneDirectory (blocks : PageBlocks) (s : AddressSpaces) (src : Nat) : AddressSpaces :=
  { s with paging := (s.paging.cloneDirectory blocks src).1 }

/-- `setup_paging`. -/
def setupPaging (blocks : PageBlocks) (memstart memend kmallocPos turns : Nat) :
    Option AddressSpaces := do
  let b ← Boot.mapKernel blocks memstart memend kmallocPos turns
  let s : AddressSpaces := { paging := b.paging, heap := b.heap memend }
  some (s.cloneDirectory blocks s.paging.kernelDirectory)

/-- The loop of `expand_heap` over the pages to be made. -/
def makePages (blocks : PageBlocks) (flags : Nat) : List Nat → Paging → Paging
  | [], p => p
  | address :: addresses, p =>
    makePages blocks flags addresses (p.makePage blocks address flags p.kernelDirectory true).1

/-- `expand_heap`. A page table that it has to make comes from `blocks`, as if that were not
the heap it expands. -/
def expandHeap (blocks : PageBlocks) (s : AddressSpaces) (newSize : Nat) : AddressSpaces where
  paging := makePages blocks s.heap.pageflags (s.heap.growth newSize) s.paging
  heap := s.heap.expand newSize

/-- The loop of `contract_heap` from offset `i` down. Offsets are UINTs and get smaller by a page
each turn, so there are at most as many turns as pages. -/
def freePages (start newSize : Nat) : Nat → Nat → Paging → Paging
  | 0, _, p => p
  | turns + 1, i, p =>
    if newSize < i then
      freePages start newSize turns (usub i frameSize)
        (p.freePage (uadd start i) p.kernelDirectory).1
    else p

/-- `contract_heap`, and the size it returns. -/
def contractHeap (s : AddressSpaces) (newSize : Nat) : AddressSpaces × Nat :=
  match s.heap.contractSize newSize with
  | none => (s, s.heap.size)
  | some size =>
    ({ paging := freePages s.heap.start size frameNumbers (usub s.heap.size frameSize) s.paging
       heap := s.heap.contract newSize }, size)

/-- `free_directory`. -/
def freeDirectory (s : AddressSpaces) (dir : Nat) : AddressSpaces :=
  { s with paging := s.paging.freeDirectory dir }

end AddressSpaces

/-- A call on the address spaces. -/
inductive AddressCall where
  | expandHeap (newSize : Nat)
  | cloneDirectory (src : Nat)
  | freeDirectory (dir : Nat)

/-- The steps: growth by any size, clones of directories that are there, and the end of those
that are clones. -/
inductive AddressStep : AddressSpaces → AddressCall → AddressSpaces → Prop
  | expandHeap {s : AddressSpaces} (blocks : PageBlocks) (newSize : Nat) :
      AddressStep s (.expandHeap newSize) (s.expandHeap blocks newSize)
  | cloneDirectory {s : AddressSpaces} {src : Nat} (blocks : PageBlocks)
      (live : src ∈ s.paging.directory) :
      AddressStep s (.cloneDirectory src) (s.cloneDirectory blocks src)
  | freeDirectory {s : AddressSpaces} {dir : Nat} (live : dir ∈ s.paging.directory)
      (clone : dir ≠ s.paging.kernelDirectory) :
      AddressStep s (.freeDirectory dir) (s.freeDirectory dir)

/-- Runs from `setup_paging`. -/
def addressSpaces : TransitionSystem AddressSpaces AddressCall where
  initial s := ∃ blocks, ∃ memstart < uintWidth, ∃ memend < uintWidth, ∃ kmallocPos turns,
    AddressSpaces.setupPaging blocks memstart memend kmallocPos turns = some s
  step := AddressStep

end Nupkux
