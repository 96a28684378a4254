import Nupkux.Types
import Nupkux.Lib.Store

/-!
# Page tables and physical frames

Page directories point to page tables, and the entries of page tables record physical frames;
a bit map marks the frames in use. The kernel's tables are shared: a cloned directory points
to those of `kernel_directory` and has copies of all others. What the pages contain, and what
the processor does with a directory, is left out.
-/

namespace Nupkux

/-- The entries of a page table, and the tables of a page directory. -/
def tableEntries : Nat := 1024

/-- What `first_frame` returns when no frame is free. -/
def noFrame : Nat := 0xFFFFFFFF

/-- The number of values of the flags of a page, which are 12 bits. -/
def pageFlags : Nat := 4096

/-- The number of values of the frame number of a page, which is 20 bits. -/
def frameNumbers : Nat := 1048576

/-- `PAGE_FLAG_PRESENT | PAGE_FLAG_WRITE | PAGE_FLAG_USERMODE`. -/
def userFlags : Nat := 7

/-- `struct _page`: 12 bits of flags and 20 bits of frame number. -/
structure Page where
  flags : Nat := 0
  frame : Nat := 0
  deriving DecidableEq, Repr, Inhabited

/-- `struct _page_table`. -/
abbrev PageTable := Nat → Page

/-- `struct _page_directory`. The tables are addresses, 0 the null pointer. -/
structure PageDirectory where
  physTabs : Nat → Nat := fun _ => 0
  physPos : Nat := 0
  tables : Nat → Nat := fun _ => 0
  deriving Inhabited

/-- The page directories and tables that are allocated, and the globals of `paging.c`. -/
structure Paging where
  framecount : Nat
  framemap : Nat → BitVec 32 := fun _ => 0
  kernelDirectory : Nat
  directory : Store PageDirectory := ∅
  table : Store PageTable := ∅
  /-- Some allocation has found no free frame. -/
  starved : Bool := false

/-- The blocks `_kmalloc_pa` hands out for tables and directories, and their physical
addresses, which are not null. -/
structure PageBlocks where
  table : Allocator PageTable
  directory : Allocator PageDirectory
  phys : Nat → Nat
  phys_ne_zero : ∀ address, phys address ≠ 0

/-- A pointer to an entry of a page table: the table and the index. -/
abbrev PagePointer := Nat × Nat

namespace Paging

/-- `first_frame`. -/
def firstFrame (p : Paging) : Nat :=
  ((List.range (p.framecount / 32)).findSome? fun i =>
    if p.framemap i = 0xFFFFFFFF#32 then none
    else ((List.range 32).find? fun j => p.framemap i &&& (1#32 <<< j) = 0#32).map
      fun j => i * 32 + j).getD noFrame

/-- `framemap[number/32] |= (1 << (number % 32))`. -/
def setFrame (p : Paging) (number : Nat) : Paging :=
  let word := p.framemap (number / 32) ||| 1#32 <<< (number % 32)
  { p with framemap := Function.update p.framemap (number / 32) word }

/-- `framemap[number/32] &= ~(1 << (number % 32))`. -/
def clearFrame (p : Paging) (number : Nat) : Paging :=
  let word := p.framemap (number / 32) &&& ~~~(1#32 <<< (number % 32))
  { p with framemap := Function.update p.framemap (number / 32) word }

/-- Change an entry of a page table. -/
def setPage (p : Paging) (page : PagePointer) (content : Page) : Paging :=
  { p with table := p.table.modify page.1 fun entries =>
      Function.update entries page.2 content }

/-- An entry of a page table. -/
def pageAt (p : Paging) (page : PagePointer) : Page :=
  ((p.table.lookup page.1).map (· page.2)).getD {}

/-- `alloc_frame`. -/
def allocFrame (p : Paging) (page : PagePointer) (flags : Nat) : Paging :=
  let number := p.firstFrame
  if (p.pageAt page).frame ≠ 0 then p
  else
    let p := { p with starved := p.starved || number == noFrame }
    (p.setPage page { flags := flags % pageFlags, frame := number % frameNumbers }).setFrame number

/-- `free_frame`. -/
def freeFrame (p : Paging) (page : PagePointer) : Paging :=
  let number := (p.pageAt page).frame
  let p := p.setPage page { p.pageAt page with frame := 0 }
  if number ≠ 0 then p.clearFrame number else p

/-- A directory. -/
def directoryAt (p : Paging) (directory : Nat) : PageDirectory :=
  (p.directory.lookup directory).getD {}

/-- Enter a table into a directory. -/
def setTable (p : Paging) (directory index table phys : Nat) : Paging :=
  { p with directory := p.directory.modify directory fun dir =>
      { dir with
        physTabs := Function.update dir.physTabs index phys
        tables := Function.update dir.tables index table } }

/-- `memset(table, 0, sizeof(page_table))` of a new table. -/
def newTable (p : Paging) (table : Nat) : Paging :=
  { p with table := p.table.insert table fun _ => {} }

/-- `make_table`. -/
def makeTable (blocks : PageBlocks) (p : Paging) (index flags directory : Nat) : Paging :=
  let res := blocks.table.address p.table
  (p.newTable res).setTable directory index res (blocks.phys res ||| flags)

/-- `make_page`. -/
def makePage (blocks : PageBlocks) (p : Paging) (address flags directory : Nat)
    (alloc : Bool) : Paging × PagePointer :=
  let index := address / frameSize
  let tab := index / tableEntries
  let p := if (p.directoryAt directory).physTabs tab = 0 then p.makeTable blocks tab flags directory
    else p
  let page := ((p.directoryAt directory).tables tab, index % tableEntries)
  (if alloc then p.allocFrame page flags else p, page)

/-- `free_page`, which returns null if there is no table. -/
def freePage (p : Paging) (address directory : Nat) : Paging × Option PagePointer :=
  let index := address / frameSize
  let tab := index / tableEntries
  if (p.directoryAt directory).physTabs tab = 0 then (p, none)
  else
    let page := ((p.directoryAt directory).tables tab, index % tableEntries)
    (p.freeFrame page, some page)

/-- The loop of `clone_table` over the entries below a bound, the last one first: every frame
in use gets a frame of its own. -/
def cloneEntries (src table : Nat) : Nat → Paging → Paging
  | 0, p => p
  | i + 1, p =>
    let p := if (p.pageAt (src, i)).frame = 0 then p
      else p.allocFrame (table, i) (p.pageAt (src, i)).flags
    cloneEntries src table i p

/-- `clone_table`: the copy and its physical address. -/
def cloneTable (blocks : PageBlocks) (p : Paging) (src : Nat) : Paging × Nat × Nat :=
  let table := blocks.table.address p.table
  (cloneEntries src table tableEntries (p.newTable table), table, blocks.phys table)

/-- One turn of the loop of `clone_directory`: a table of the kernel is shared and another one
copied. -/
def cloneEntry (blocks : PageBlocks) (src dir : Nat) (p : Paging) (i : Nat) : Paging :=
  if (p.directoryAt src).tables i = 0 then p
  else if (p.directoryAt p.kernelDirectory).tables i = (p.directoryAt src).tables i then
    p.setTable dir i ((p.directoryAt src).tables i) ((p.directoryAt src).physTabs i)
  else
    let (p, table, phys) := p.cloneTable blocks ((p.directoryAt src).tables i)
    p.setTable dir i table (phys ||| userFlags)

/-- The loop of `clone_directory` over the tables below a bound, the last one first. -/
def cloneTables (blocks : PageBlocks) (src dir : Nat) : Nat → Paging → Paging
  | 0, p => p
  | i + 1, p => cloneTables blocks src dir i (p.cloneEntry blocks src dir i)

/-- `clone_directory`. -/
def cloneDirectory (blocks : PageBlocks) (p : Paging) (src : Nat) : Paging × Nat :=
  let dir := blocks.directory.address p.directory
  let p := { p with directory := p.directory.insert dir { physPos := blocks.phys dir } }
  (cloneTables blocks src dir tableEntries p, dir)

/-- The loop of `free_table` over the entries below a bound, the last one first. -/
def clearEntries (table : Nat) : Nat → Paging → Paging
  | 0, p => p
  | i + 1, p =>
    let number := (p.pageAt (table, i)).frame
    clearEntries table i (if number ≠ 0 then p.clearFrame number else p)

/-- `free_table`. -/
def freeTable (p : Paging) (table : Nat) : Paging :=
  let p := clearEntries table tableEntries p
  { p with table := p.table.erase table }

/-- One turn of the loop of `free_directory`: a table of the kernel is kept. -/
def freeEntry (dir : Nat) (p : Paging) (i : Nat) : Paging :=
  if (p.directoryAt dir).tables i = 0 then p
  else if (p.directoryAt p.kernelDirectory).tables i ≠ (p.directoryAt dir).tables i then
    p.freeTable ((p.directoryAt dir).tables i)
  else p

/-- The loop of `free_directory` over the tables below a bound, the last one first. -/
def freeTables (dir : Nat) : Nat → Paging → Paging
  | 0, p => p
  | i + 1, p => freeTables dir i (p.freeEntry dir i)

/-- `free_directory`. -/
def freeDirectory (p : Paging) (dir : Nat) : Paging :=
  let p := freeTables dir tableEntries p
  { p with directory := p.directory.erase dir }

end Paging

end Nupkux
