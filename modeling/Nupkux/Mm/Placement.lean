import Nupkux.Mm.AddressSpaces

/-!
# Boot with the places of objects

`setup_paging` once more, up to the heap, with the addresses of what it allocates: there is no
heap yet, so `_kmalloc_base` places one object after another from `kmalloc_pos` on. The end of
a `MAP_MEMORY` loop is looked at again before each turn, and a page table that the loop needs
is itself placed at `kmalloc_pos`. Every object handed out is recorded.
-/

namespace Nupkux

/-- `sizeof(heap)`. -/
def heapSize : Nat := 28

/-- The state of `setup_paging` before there is a heap, with the address and the size of every
object it was handed. -/
structure Placement where
  paging : Paging
  kmallocPos : Nat
  objects : List (Nat × Nat) := []

namespace Placement

/-- `_kmalloc_base` before there is a heap. The physical address is the address. -/
def kmallocBase (b : Placement) (sz : Nat) (align : Bool) : Placement × Nat :=
  let res := if align then assertAlign b.kmallocPos else b.kmallocPos
  ({ b with kmallocPos := uadd res sz, objects := (res, sz) :: b.objects }, res)

/-- `make_table` in the kernel directory. -/
def makeTable (b : Placement) (index flags : Nat) : Placement :=
  let (b, res) := b.kmallocBase pageTableSize true
  { b with paging :=
      (b.paging.newTable res).setTable b.paging.kernelDirectory index res (res ||| flags) }

/-- `make_page` in the kernel directory, with a frame. -/
def makePage (b : Placement) (address flags : Nat) : Placement :=
  let index := address / frameSize
  let tab := index / tableEntries
  let b := if (b.paging.directoryAt b.paging.kernelDirectory).physTabs tab = 0
    then b.makeTable tab flags else b
  let page := (b.paging.tableOf b.paging.kernelDirectory tab, index % tableEntries)
  { b with paging := b.paging.allocFrame page flags }

/-- `MAP_MEMORY` from page `i` on, with a number of turns that has to suffice. -/
def mapMemory (end_ : Nat → Nat) (flags : Nat) : Nat → Nat → Placement → Option Placement
  | 0, _, _ => none
  | turns + 1, i, b =>
    if i ≤ end_ b.kmallocPos then
      mapMemory end_ flags turns (uadd i frameSize) (b.makePage i flags)
    else some b

/-- The frame map and the kernel directory are allocated. -/
def start (memstart memend : Nat) : Placement :=
  let b : Placement :=
    { paging := Paging.empty memend 0, kmallocPos := uadd memstart ipcMemsize }
  let (b, _) := b.kmallocBase (memend / frameSize / 8) false
  let (b, kernelDirectory) := b.kmallocBase pageDirectorySize true
  { b with paging := Paging.empty memend kernelDirectory }

/-- The entry of a page in the kernel directory. -/
def page (b : Placement) (number : Nat) : Page :=
  b.paging.pageAt
    (b.paging.tableOf b.paging.kernelDirectory (number / tableEntries), number % tableEntries)

/-- The frame a page is mapped to, if there is a table for it and its entry is present. -/
def frameOf (b : Placement) (number : Nat) : Option Nat :=
  if (b.paging.directoryAt b.paging.kernelDirectory).physTabs (number / tableEntries) = 0 then none
  else if (b.page number).flags % 2 = 0 then none
  else some (b.page number).frame

end Placement

/-- What `setup_paging` has when `create_heap` has returned. -/
structure BootMapping where
  /-- `kmalloc_pos` when the third loop ends. -/
  preHeapEnd : Nat
  placement : Placement
  heap : Heap

/-- `setup_paging`, until `create_heap` has returned. The numbers of turns of its four loops
have to suffice. -/
def BootMapping.setupPaging (memstart memend turns : Nat) : Option BootMapping := do
  let b := Placement.start memstart memend
  let b ← b.mapMemory (fun _ => memstart) kernelFlags turns 0
  let b ← b.mapMemory (fun _ => uadd memstart ipcMemsize) userFlags turns memstart
  let b ← b.mapMemory (fun pos => uadd pos frameSize) kernelFlags turns
    (uadd memstart ipcMemsize)
  let preHeapEnd := b.kmallocPos
  let b ← b.mapMemory (fun pos => uadd (uadd (alignUp pos) mmKheapStart) mmKheapSize) kernelFlags
    turns (assertAlign (uadd mmKheapStart b.kmallocPos))
  let heap := Heap.create (uadd mmKheapStart b.kmallocPos)
    (uadd (uadd mmKheapStart mmKheapSize) b.kmallocPos) memend kernelFlags
  some { preHeapEnd, placement := (b.kmallocBase heapSize false).1, heap }

end Nupkux
