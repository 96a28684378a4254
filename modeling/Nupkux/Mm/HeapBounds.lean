import Nupkux.Types
import Mathlib.Data.List.Basic

/-!
# The bounds of the kernel heap

The kernel heap lies between `start` and `end`, which are page boundaries; it grows and
shrinks at its end by whole pages. All sizes and addresses are UINTs.
-/

namespace Nupkux

/-- `MM_KHEAP_START`: the distance of the heap from what was allocated before it. -/
def mmKheapStart : Nat := 0x40000

/-- `MM_KHEAP_SIZE`. -/
def mmKheapSize : Nat := 0x300000

/-- `MM_KHEAP_MIN`: the heap does not shrink below this size. -/
def mmKheapMin : Nat := 0x100000

/-- `MM_INDEX_COUNT`. -/
def mmIndexCount : Nat := 0x800

/-- `struct _heap`. The index is at `entries`. -/
structure Heap where
  entries : Nat
  entrycount : Nat
  maxentries : Nat
  start : Nat
  end_ : Nat
  memend : Nat
  pageflags : Nat
  deriving DecidableEq, Repr

namespace Heap

/-- The heap that `create_heap` makes: the index of holes comes first, with one entry. -/
def create (start end_ memend pageflags : Nat) : Heap where
  entries := assertAlign start
  entrycount := 1
  maxentries := mmIndexCount
  start := assertAlign (uadd (assertAlign start) (mmIndexCount * 4))
  end_ := assertAlign end_
  memend := assertAlign memend
  pageflags

/-- `end - start`. -/
def size (h : Heap) : Nat := usub h.end_ h.start

/-- The size to which `expand_heap` expands, if it does: not beyond the end of memory. -/
def expandSize (h : Heap) (newSize : Nat) : Option Nat :=
  if newSize ≤ h.size then none
  else if uadd h.start (assertAlign newSize) > h.memend then none
  else some (assertAlign newSize)

/-- The pages that `expand_heap` makes. -/
def growth (h : Heap) (newSize : Nat) : List Nat :=
  match h.expandSize newSize with
  | none => []
  | some newSize => (List.range ((newSize - h.size + (frameSize - 1)) / frameSize)).map
      fun k => uadd h.start (h.size + k * frameSize)

/-- The heap after `expand_heap`. -/
def expand (h : Heap) (newSize : Nat) : Heap :=
  match h.expandSize newSize with
  | none => h
  | some newSize => { h with end_ := uadd h.start newSize }

/-- The size to which `contract_heap` contracts, if it does: whole pages, and not below the
minimum. -/
def contractSize (h : Heap) (newSize : Nat) : Option Nat :=
  if newSize ≥ h.size then none
  else if assertAlign newSize < mmKheapMin then some mmKheapMin
  else some (assertAlign newSize)

/-- The heap after `contract_heap`. -/
def contract (h : Heap) (newSize : Nat) : Heap :=
  match h.contractSize newSize with
  | none => h
  | some newSize => { h with end_ := uadd h.start newSize }

/-- Pages have addresses. -/
theorem growth_lt {h : Heap} {newSize address : Nat} (made : address ∈ h.growth newSize) :
    address < uintWidth := by
  unfold growth at made
  split at made
  · exact absurd made List.not_mem_nil
  · rename_i newSize expands
    obtain ⟨k, _, rfl⟩ := List.mem_map.mp made
    exact uadd_lt _ _

/-- Growth by whole pages within memory makes the last page below the new end. -/
theorem last_mem_growth {h : Heap} {newSize : Nat} (grows : h.size < newSize)
    (sizeAligned : h.size % frameSize = 0) (aligned : newSize % frameSize = 0)
    (fits : h.start + newSize ≤ h.memend) (small : h.memend < uintWidth) :
    h.start + newSize - frameSize ∈ h.growth newSize := by
  have same : assertAlign newSize = newSize := if_neg (not_not.mpr aligned)
  have sum : uadd h.start newSize = h.start + newSize := uadd_of_lt (by omega)
  have expands : h.expandSize newSize = some newSize := by
    rw [expandSize, if_neg (by omega), same, sum, if_neg (by omega)]
  have page : uadd h.start (h.size + ((newSize - h.size) / frameSize - 1) * frameSize) =
      h.start + newSize - frameSize := by
    simp only [uadd, frameSize, uintWidth] at *
    omega
  unfold growth
  rw [expands]
  refine List.mem_map.mpr ⟨(newSize - h.size) / frameSize - 1, List.mem_range.mpr ?_, page⟩
  simp only [frameSize] at *
  omega

end Heap

end Nupkux
