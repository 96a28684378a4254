import Nupkux.Mm.BootMapping

/-!
# The heap's pages at boot

The last loop of `setup_paging` leaves out the pages between what was placed and the heap, and
gives the pages of the heap the frames that come next. With this all mappings made at boot are
known.
-/

namespace Nupkux

namespace Placement

open Paging

variable {b : Placement} {first shift pages start last memstart memend flags : Nat}

/-- The frames when the pages of the heap have been made up to `last`. -/
def heapFrames (shift pages start last number : Nat) : Option Nat :=
  if number < pages then some (number + shift)
  else if start ≤ number ∧ number < last then some (pages + shift + (number - start))
  else none

/-- The pages of the heap have been made up to `last`. -/
abbrev Grown (first shift pages start last : Nat) (b : Placement) : Prop :=
  b.Laid first (tablesFor (if last = start then pages else last))
    (heapFrames shift pages start last) (pages + shift + (last - start))

/-- No page of the heap has been made. -/
theorem Initial.grown (initial : b.Initial first shift pages) (start : Nat) :
    b.Grown first shift pages start start := by
  have frames : heapFrames shift pages start start = initialFrames shift pages := by
    funext number
    have none : ¬(start ≤ number ∧ number < start) := by omega
    rw [heapFrames, initialFrames, if_neg none]
  unfold Grown
  rw [if_pos rfl, frames, Nat.sub_self, Nat.add_zero]
  exact initial

/-- The position of `kmalloc_pos` while the pages of the heap are made. -/
theorem Grown.position_eq (grown : b.Grown first shift pages start last)
    (some_page : 0 < pages) (after : pages ≤ last) :
    b.kmallocPos = frameSize * (first + tablesFor (if last = start then pages else last)) := by
  apply grown.position
  split
  · simp only [tablesFor, tableEntries]
    omega
  · simp only [tablesFor, tableEntries]
    omega

/-- The next page of the heap is made. -/
theorem Grown.next (grown : b.Grown first shift pages start last) (begins : start ≤ last)
    (after : pages ≤ start) (near : start / tableEntries ≤ tablesFor pages)
    (room : frameSize * (first + tablesFor (if last = start then pages else last) + 1) <
      uintWidth) (odd : flags % 2 = 1) :
    (b.makePage (frameSize * last) flags).Grown first shift pages start (last + 1) := by
  have table : last / tableEntries ≤ tablesFor (if last = start then pages else last) := by
    split
    · rename_i same
      rw [same]
      exact near
    · simp only [tablesFor, tableEntries]
      omega
  have tables : max (tablesFor (if last = start then pages else last)) (last / tableEntries + 1) =
      tablesFor (if last + 1 = start then pages else last + 1) := by
    have another : last + 1 ≠ start := by omega
    rw [if_neg another]
    split
    · simp only [tablesFor, tableEntries]
      omega
    · simp only [tablesFor, tableEntries]
      omega
  have above : ¬last < pages := by omega
  have free : (heapFrames shift pages start last last).getD 0 = 0 := by
    have none : ¬(start ≤ last ∧ last < last) := by omega
    rw [heapFrames, if_neg above, if_neg none]
    rfl
  have frames : Function.update (heapFrames shift pages start last) last
      (some (pages + shift + (last - start))) = heapFrames shift pages start (last + 1) := by
    funext number
    by_cases here : number = last
    · rw [here, Function.update_self, heapFrames, if_neg above,
        if_pos ⟨begins, Nat.lt_succ_self _⟩]
    · rw [Function.update_of_ne here, heapFrames, heapFrames]
      have same : start ≤ number ∧ number < last ↔ start ≤ number ∧ number < last + 1 := by omega
      rw [if_congr same rfl rfl]
  have made := grown.makePage_give table room odd free
  rw [tables, frames] at made
  have count : pages + shift + (last + 1 - start) = pages + shift + (last - start) + 1 := by omega
  unfold Grown
  rw [count]
  exact made

/-- The page after the last one the heap loop makes. -/
def heapLast (first : Nat) : Nat := first + identityTables first + heapTables first + 0x342

/-- The page tables while the pages of the heap are made: at its end they are enough. -/
theorem tablesFor_heap {number : Nat} (ahead : number ≤ heapLast first) :
    tablesFor (if number = first + identityTables first + 0x40 then
      first + identityTables first + 2 else number) ≤ identityTables first + heapTables first := by
  have identity := tablesFor_identity first
  split
  · omega
  · unfold heapLast at ahead
    unfold heapTables at ahead ⊢
    split at ahead
    · rename_i beyond
      rw [if_pos beyond]
      simp only [identityTables, tablesFor, tableEntries] at *
      omega
    · rename_i within
      rw [if_neg within]
      simp only [identityTables, tablesFor, tableEntries] at *
      omega

/-- Before its end, the loop goes on. -/
theorem lt_heapLast {number : Nat} (before : number < heapLast first)
    (begins : first + identityTables first + 0x40 ≤ number) :
    number ≤ first + tablesFor (if number = first + identityTables first + 0x40 then
      first + identityTables first + 2 else number) + 0x341 := by
  have identity := tablesFor_identity first
  split
  · omega
  · unfold heapLast heapTables at before
    split at before
    · simp only [identityTables, tablesFor, tableEntries] at *
      omega
    · simp only [identityTables, tablesFor, tableEntries] at *
      omega

/-- At its end there are all the page tables. -/
theorem tablesFor_heapLast (first : Nat) :
    tablesFor (if heapLast first = first + identityTables first + 0x40 then
      first + identityTables first + 2 else heapLast first) =
        identityTables first + heapTables first := by
  have apart : heapLast first ≠ first + identityTables first + 0x40 := by
    unfold heapLast
    omega
  rw [if_neg apart]
  unfold heapLast heapTables
  split
  · simp only [identityTables, tablesFor, tableEntries] at *
    omega
  · simp only [identityTables, tablesFor, tableEntries] at *
    omega

/-- The end the heap loop looks at. -/
theorem heap_end {tables : Nat} (fits : frameSize * (first + tables + 0x342) < uintWidth) :
    uadd (uadd (alignUp (frameSize * (first + tables))) mmKheapStart) mmKheapSize =
      frameSize * (first + tables + 0x341) := by
  have up : alignUp (frameSize * (first + tables)) = frameSize * (first + tables + 1) := by
    simp only [alignUp, uadd, frameSize, uintWidth] at *
    omega
  have start : uadd (frameSize * (first + tables + 1)) mmKheapStart =
      frameSize * (first + tables + 0x41) := by
    simp only [uadd, mmKheapStart, frameSize, uintWidth] at *
    omega
  rw [up, start]
  simp only [uadd, mmKheapSize, frameSize, uintWidth] at *
  omega

/-- The last loop makes the pages of the heap. -/
theorem heap_loop (fits : frameSize * heapLast first < uintWidth) {turns : Nat}
    (enough : frameNumbers < turns)
    (initial : b.Initial first shift (first + identityTables first + 2)) :
    ∃ b', b.mapMemory (fun pos => uadd (uadd (alignUp pos) mmKheapStart) mmKheapSize) kernelFlags
        turns (assertAlign (uadd mmKheapStart b.kmallocPos)) = some b' ∧
      b'.Grown first shift (first + identityTables first + 2) (first + identityTables first + 0x40)
        (heapLast first) := by
  have position := initial.position_eq (Nat.succ_pos _)
  rw [tablesFor_identity] at position
  have below : first + identityTables first + 0x342 ≤ heapLast first := by
    unfold heapLast
    omega
  have all : first + (identityTables first + heapTables first) + 0x342 ≤ heapLast first := by
    unfold heapLast
    omega
  have begins : assertAlign (uadd mmKheapStart b.kmallocPos) =
      frameSize * (first + identityTables first + 0x40) := by
    have sum : uadd mmKheapStart b.kmallocPos =
        frameSize * (first + identityTables first + 0x40) := by
      rw [position]
      simp only [uadd, mmKheapStart, frameSize, uintWidth] at *
      omega
    rw [sum]
    exact assertAlign_mul _
  have near : (first + identityTables first + 0x40) / tableEntries ≤
      tablesFor (first + identityTables first + 2) := by
    simp only [tablesFor, tableEntries]
    omega
  have room {tables : Nat} (few : tables ≤ identityTables first + heapTables first) :
      frameSize * (first + tables + 0x342) < uintWidth := by
    apply Nat.lt_of_le_of_lt _ fits
    apply Nat.mul_le_mul_left
    omega
  rw [begins]
  apply mapMemory_rule (fun number b => b.Grown first shift (first + identityTables first + 2)
    (first + identityTables first + 0x40) number)
  · intro number b low high grown
    have few := tablesFor_heap (Nat.le_of_lt high)
    have ahead := lt_heapLast high low
    have position := Grown.position_eq grown (Nat.succ_pos _) (by omega)
    constructor
    · show frameSize * number ≤ uadd (uadd (alignUp b.kmallocPos) _) _
      rw [position, heap_end (room few)]
      exact Nat.mul_le_mul_left _ ahead
    · apply grown.next low (by omega) near _ rfl
      apply Nat.lt_of_le_of_lt _ (room few)
      apply Nat.mul_le_mul_left
      omega
  · intro b grown
    have position := Grown.position_eq grown (Nat.succ_pos _) (by omega)
    rw [tablesFor_heapLast] at position
    show uadd (uadd (alignUp b.kmallocPos) _) _ < _
    rw [position, heap_end (room (Nat.le_refl _))]
    apply Nat.mul_lt_mul_of_pos_left _ (by decide)
    unfold heapLast
    omega
  · exact fits
  · simp only [frameSize, frameNumbers, uintWidth] at *
    omega
  · omega
  · exact initial.grown _

/-- A page is made without a change to how many frames there are. -/
theorem framecount_makePage (b : Placement) (address flags : Nat) :
    (b.makePage address flags).paging.framecount = b.paging.framecount := by
  unfold makePage
  dsimp only
  rw [framecount_allocFrame]
  split <;> rfl

/-- So are all pages of a loop. -/
theorem framecount_mapMemory {end_ : Nat → Nat} {turns i : Nat} {b' : Placement}
    (made : b.mapMemory end_ flags turns i = some b') :
    b'.paging.framecount = b.paging.framecount := by
  induction turns generalizing i b with
  | zero => cases made
  | succ turns ih =>
    rw [mapMemory] at made
    split at made
    · rw [ih made, framecount_makePage]
    · cases made
      rfl

/-- All the loops of `setup_paging`. -/
theorem loops (aligned : memstart % frameSize = 0) (inRange : memend < uintWidth)
    (fits : frameSize * heapLast (firstTable memstart memend) < uintWidth) {turns : Nat}
    (enough : frameNumbers < turns) :
    ∃ r, BootMapping.setupPaging memstart memend turns = some r ∧
      r.preHeapEnd = frameSize * (firstTable memstart memend +
        identityTables (firstTable memstart memend)) ∧
      ∃ b : Placement, b.Grown (firstTable memstart memend) (lostFrames memstart)
          (firstTable memstart memend + identityTables (firstTable memstart memend) + 2)
          (firstTable memstart memend + identityTables (firstTable memstart memend) + 0x40)
          (heapLast (firstTable memstart memend)) ∧
        b.paging.framecount = memend / frameSize ∧ r.placement = (b.kmallocBase heapSize false).1 ∧
        r.heap = Heap.create (uadd mmKheapStart b.kmallocPos)
          (uadd (uadd mmKheapStart mmKheapSize) b.kmallocPos) memend kernelFlags := by
  have before : frameSize * (firstTable memstart memend +
      identityTables (firstTable memstart memend) + 0x342) < uintWidth := by
    apply Nat.lt_of_le_of_lt _ fits
    apply Nat.mul_le_mul_left
    unfold heapLast
    omega
  obtain ⟨b1, made1, initial1⟩ := first_loop aligned inRange before enough
  obtain ⟨b2, made2, initial2⟩ := second_loop aligned before enough initial1
  obtain ⟨b3, made3, initial3⟩ := third_loop aligned before enough initial2
  obtain ⟨b4, made4, grown⟩ := heap_loop fits enough initial3
  have position := initial3.position_eq (Nat.succ_pos _)
  rw [tablesFor_identity] at position
  have framecount : b4.paging.framecount = memend / frameSize := by
    rw [framecount_mapMemory made4, framecount_mapMemory made3, framecount_mapMemory made2,
      framecount_mapMemory made1]
    rfl
  refine ⟨⟨b3.kmallocPos, (b4.kmallocBase heapSize false).1, _⟩, ?_, position, b4, grown,
    framecount, rfl, rfl⟩
  unfold BootMapping.setupPaging
  simp only [made1, made2, made3, made4, Option.bind_eq_bind, Option.bind_some]
  rfl

/-- While there are frames, a page that was given one is mapped to it. -/
theorem Laid.frameOf_eq {tables count number frame : Nat} {frames : Nat → Option Nat}
    (laid : b.Laid first tables frames count) (fed : b.paging.starved = false)
    (given : frames number = some frame) : b.frameOf number = some frame := by
  have room := laid.fed.mp fed
  have inside : number < tables * tableEntries := by
    by_contra above
    rw [laid.unmapped number (Nat.le_of_not_lt above)] at given
    cases given
  have table : ¬tables ≤ number / tableEntries := by
    apply Nat.not_le.mpr
    rw [Nat.div_lt_iff_lt_mul (by decide)]
    exact inside
  have entry := laid.mapped room number inside
  rw [given] at entry
  have present : ¬(b.page number).flags % 2 = 0 := by
    rw [entry.2]
    decide
  unfold frameOf
  rw [if_neg fun none => table ((laid.phys _).mp none), if_neg present, entry.1]

end Placement

namespace BootMapping

open Placement

variable {memstart memend : Nat}

/-- The mappings that the kernel relies on: what was placed before the heap is mapped to its own
addresses, and the heap has frames of its own. -/
structure Mapped (r : BootMapping) : Prop where
  identity : ∀ number ≤ (r.preHeapEnd + frameSize) / frameSize,
    r.placement.frameOf number = some number
  inside : ∀ object ∈ r.placement.objects, ∀ address, object.1 ≤ address →
    address < object.1 + object.2 → address / frameSize ≤ (r.preHeapEnd + frameSize) / frameSize
  heap : ∀ address, r.heap.entries ≤ address → address < r.heap.end_ →
    ∃ frame ≠ 0, r.placement.frameOf (address / frameSize) = some frame
  distinct : ∀ address other, r.heap.entries ≤ address → address < r.heap.end_ →
    r.heap.entries ≤ other → other < r.heap.end_ →
    r.placement.frameOf (address / frameSize) = r.placement.frameOf (other / frameSize) →
    address / frameSize = other / frameSize

/-- The frames that all the mappings take. -/
def framesNeeded (memstart memend : Nat) : Nat :=
  heapLast (firstTable memstart memend) - 0x3E + lostFrames memstart

/-- The index begins at a page boundary. -/
theorem create_entries (start end_ memend pageflags : Nat) :
    (Heap.create start end_ memend pageflags).entries = assertAlign start := rfl

/-- The heap ends at a page boundary. -/
theorem create_end (start end_ memend pageflags : Nat) :
    (Heap.create start end_ memend pageflags).end_ = assertAlign end_ := rfl

/-- The pages of the heap, as `create_heap` sets its bounds, have been made. -/
theorem heap_pages {first tables address : Nat}
    (fits : frameSize * (first + tables + 0x342) < uintWidth) {h : Heap}
    (made : h = Heap.create (uadd mmKheapStart (frameSize * (first + tables)))
      (uadd (uadd mmKheapStart mmKheapSize) (frameSize * (first + tables))) memend kernelFlags)
    (low : h.entries ≤ address) (high : address < h.end_) :
    first + tables + 0x40 ≤ address / frameSize ∧ address / frameSize < first + tables + 0x340 := by
  have start : uadd mmKheapStart (frameSize * (first + tables)) =
      frameSize * (first + tables + 0x40) := by
    simp only [uadd, mmKheapStart, frameSize, uintWidth] at *
    omega
  have end_ : uadd (uadd mmKheapStart mmKheapSize) (frameSize * (first + tables)) =
      frameSize * (first + tables + 0x340) := by
    simp only [uadd, mmKheapStart, mmKheapSize, frameSize, uintWidth] at *
    omega
  rw [made, create_entries, start, assertAlign_mul] at low
  rw [made, create_end, end_, assertAlign_mul] at high
  simp only [frameSize] at *
  omega

/-- What is at boot when the loops have ended: pages are mapped to the frames of their own
numbers, but for the frames that were lost. -/
structure Booted (memstart memend first : Nat) (r : BootMapping) : Prop where
  end_ : r.preHeapEnd = frameSize * (first + identityTables first)
  fed : r.placement.paging.starved = false ↔
    heapLast first - 0x3E + lostFrames memstart ≤ memend / frameSize / 32 * 32
  low : r.placement.paging.starved = false → ∀ number < first + identityTables first + 2,
    r.placement.frameOf number = some (number + lostFrames memstart)
  objects : ∀ object ∈ r.placement.objects,
    object.1 + object.2 ≤ frameSize * (first + identityTables first + 2)
  bounds : ∀ address, r.heap.entries ≤ address → address < r.heap.end_ →
    first + identityTables first + 0x40 ≤ address / frameSize ∧
      address / frameSize < heapLast first
  high : r.placement.paging.starved = false → ∀ number,
    first + identityTables first + 0x40 ≤ number → number < heapLast first →
    r.placement.frameOf number = some (first + identityTables first + 2 + lostFrames memstart +
      (number - (first + identityTables first + 0x40)))

/-- `setup_paging` returns, with everything mapped as far as there are frames. -/
theorem setupPaging_booted (aligned : memstart % frameSize = 0) (inRange : memend < uintWidth)
    (fits : frameSize * heapLast (firstTable memstart memend) < uintWidth) {turns : Nat}
    (enough : frameNumbers < turns) :
    ∃ r, setupPaging memstart memend turns = some r ∧
      r.Booted memstart memend (firstTable memstart memend) := by
  obtain ⟨r, made, end_, b, grown, framecount, placement, heap⟩ :=
    loops aligned inRange fits enough
  refine ⟨r, made, ?_⟩
  generalize firstTable memstart memend = first at *
  have after : first + identityTables first + 0x342 ≤ heapLast first := by
    unfold heapLast
    omega
  have position := grown.position_eq (Nat.succ_pos _) (by omega)
  rw [tablesFor_heapLast] at position
  have one : heapTables first ≤ 1 := by
    unfold heapTables
    split
    · exact Nat.le_refl 1
    · exact Nat.zero_le 1
  have paging : r.placement.paging = b.paging := by
    rw [placement]
    rfl
  have mapped (number : Nat) : r.placement.frameOf number = b.frameOf number := by
    rw [placement]
    rfl
  have room : frameSize * (first + (identityTables first + heapTables first) + 0x342) <
      uintWidth := by
    apply Nat.lt_of_le_of_lt _ fits
    apply Nat.mul_le_mul_left
    unfold heapLast
    omega
  constructor
  · exact end_
  · have frames : first + identityTables first + 2 + lostFrames memstart +
        (heapLast first - (first + identityTables first + 0x40)) =
        heapLast first - 0x3E + lostFrames memstart := by omega
    rw [paging, grown.fed, frames, usable, framecount]
  · intro fed number below
    rw [mapped]
    exact grown.frameOf_eq (paging ▸ fed) (if_pos below)
  · intro object member
    rw [placement] at member
    rcases List.mem_cons.mp member with rfl | older
    · show b.kmallocPos + heapSize ≤ _
      rw [position]
      simp only [heapSize, frameSize]
      omega
    · apply Nat.le_trans (grown.objects object older)
      rw [position]
      apply Nat.mul_le_mul_left
      omega
  · intro address low high
    rw [position] at heap
    have inside := heap_pages room heap low high
    unfold heapLast
    omega
  · intro fed number low high
    rw [mapped]
    apply grown.frameOf_eq (paging ▸ fed)
    unfold heapFrames
    rw [if_neg (by omega), if_pos ⟨low, high⟩]

/-- The mappings are as intended when no frame was lost. -/
theorem Booted.mapped {first : Nat} {r : BootMapping} (booted : r.Booted memstart memend first)
    (nonzero : memstart ≠ 0) (fed : r.placement.paging.starved = false) : r.Mapped := by
  have lost : lostFrames memstart = 0 := if_neg nonzero
  have last : (r.preHeapEnd + frameSize) / frameSize = first + identityTables first + 1 := by
    rw [booted.end_, ← Nat.mul_succ]
    exact Nat.mul_div_cancel_left _ (by decide)
  constructor
  · intro number below
    have given := booted.low fed number (by omega)
    rw [lost] at given
    exact given
  · intro object member address _ high
    have ends := booted.objects object member
    rw [last]
    apply Nat.le_of_lt_succ
    rw [Nat.div_lt_iff_lt_mul (by decide), Nat.mul_comm]
    exact Nat.lt_of_lt_of_le high ends
  · intro address low high
    obtain ⟨after, before⟩ := booted.bounds address low high
    exact ⟨_, by omega, booted.high fed _ after before⟩
  · intro address other low high low' high' same
    obtain ⟨after, before⟩ := booted.bounds address low high
    obtain ⟨after', before'⟩ := booted.bounds other low' high'
    rw [booted.high fed _ after before, booted.high fed _ after' before', Option.some.injEq] at same
    omega

/-- Boot maps what it places to its own addresses, and the heap to frames of its own: for working
memory that does not begin at page 0 and a heap that is mapped below the end of addresses,
whenever there are frames for all of it, and it is said how many that takes. -/
theorem setupPaging_mapped (aligned : memstart % frameSize = 0) (nonzero : memstart ≠ 0)
    (inRange : memend < uintWidth)
    (fits : frameSize * heapLast (firstTable memstart memend) < uintWidth) {turns : Nat}
    (enough : frameNumbers < turns) :
    ∃ r, setupPaging memstart memend turns = some r ∧
      (r.placement.paging.starved = false ↔
        framesNeeded memstart memend ≤ memend / frameSize / 32 * 32) ∧
      (r.placement.paging.starved = false → r.Mapped) := by
  obtain ⟨r, made, booted⟩ := setupPaging_booted aligned inRange fits enough
  exact ⟨r, made, booted.fed, booted.mapped nonzero⟩

/-- 64 MB of memory, with working memory from 2 MB on. -/
theorem setupPaging_mapped_64M : ∃ r, setupPaging 0x200000 0x4000000 (frameNumbers + 1) = some r ∧
    r.Mapped := by
  have fits : frameSize * heapLast (firstTable 0x200000 0x4000000) < uintWidth := by
    decide +kernel
  obtain ⟨r, made, fed, mapped⟩ := setupPaging_mapped (by decide +kernel) (by decide) (by decide)
    fits (Nat.lt_succ_self frameNumbers)
  exact ⟨r, made, mapped (fed.mpr (by decide +kernel))⟩

/-- Working memory from page 0 on: page 0 is made twice, and frame 0 looks as if it were none; so
page 1 has frame 2. -/
theorem setupPaging_from_zero : ∃ r, setupPaging 0 0x4000000 (frameNumbers + 1) = some r ∧
    r.placement.paging.starved = false ∧ ¬r.Mapped := by
  have fits : frameSize * heapLast (firstTable 0 0x4000000) < uintWidth := by
    decide +kernel
  obtain ⟨r, made, booted⟩ := setupPaging_booted (by decide) (by decide) fits
    (Nat.lt_succ_self frameNumbers)
  have fed : r.placement.paging.starved = false := booted.fed.mpr (by decide +kernel)
  refine ⟨r, made, fed, fun mapped => ?_⟩
  have intended := mapped.identity 1 (by
    rw [booted.end_]
    decide +kernel)
  have given := booted.low fed 1 (by decide +kernel)
  rw [given] at intended
  exact absurd intended (by decide)

end BootMapping

end Nupkux
