import Nupkux.Mm.KernelMappings
import Nupkux.Mm.FrameExhaustion

/-!
# The pages of the heap

The heap should have frames for the pages between its start and its end, and for no others
behind its start. Growth makes the pages of its new part. Shrinking frees pages from the old end
down, but stops before the first page behind the new end.
-/

namespace Nupkux

namespace Paging

variable {p p' : Paging} {address other frame flags : Nat}

/-- The entry of an address in the kernel directory. -/
abbrev kernelPage (p : Paging) (address : Nat) : PagePointer :=
  (p.tableOf p.kernelDirectory (address / frameSize / tableEntries),
    address / frameSize % tableEntries)

/-- The frame of an address, if it is mapped in the kernel directory. -/
def kernelFrame (p : Paging) (address : Nat) : Option Nat := p.holds (p.kernelPage address)

/-- Addresses of different pages have different entries, if there is a table. -/
theorem Linked.kernelPage_inj (linked : p.Linked)
    (there : p.tableOf p.kernelDirectory (address / frameSize / tableEntries) ≠ 0)
    (same : p.kernelPage address = p.kernelPage other) :
    address / frameSize = other / frameSize := by
  obtain ⟨table, entry⟩ := Prod.mk.injEq .. ▸ same
  obtain ⟨tab, _⟩ := linked.shared _ _ _ _ there table
  simp only [frameSize, tableEntries] at *
  omega

/-- An address without a table is not mapped. -/
theorem Linked.kernelFrame_of_absent (linked : p.Linked)
    (absent : p.tableOf p.kernelDirectory (address / frameSize / tableEntries) = 0) :
    p.kernelFrame address = none := by
  rw [kernelFrame, holds_eq_none, pageAt_of_dead]
  show p.tableOf p.kernelDirectory _ ∉ p.table
  rw [absent]
  exact linked.null

/-- The addresses of one page are mapped to one frame. -/
theorem kernelFrame_congr (p : Paging) (same : address / frameSize = other / frameSize) :
    p.kernelFrame address = p.kernelFrame other := by
  rw [kernelFrame, kernelFrame, kernelPage, kernelPage, same]

/-- What is mapped depends on the entries, when no table has been entered. -/
theorem SameTables.kernelPage (same : SameTables p p') (address : Nat) :
    p'.kernelPage address = p.kernelPage address := by
  rw [Paging.kernelPage, Paging.kernelPage, tableOf, tableOf, same.kernelDirectory,
    same.directoryAt]

/-- `alloc_frame` changes one entry. -/
theorem holds_allocFrame_of_ne {page one : PagePointer} (live : page.1 ∈ p.table)
    (differ : one ≠ page) (flags : Nat) :
    (p.allocFrame page flags).holds one = p.holds one := by
  by_cases mapped : (p.pageAt page).frame = 0
  · apply holds_congr
    rw [pageAt_allocFrame mapped live, if_neg differ]
  · rw [allocFrame_of_mapped mapped]

/-- An entry has a frame after `alloc_frame` found one. -/
theorem Frames.holds_allocFrame (frames : p.Frames) {page : PagePointer} (live : page.1 ∈ p.table)
    (fed : (p.allocFrame page flags).starved = false) :
    ∃ frame, (p.allocFrame page flags).holds page = some frame := by
  by_cases mapped : (p.pageAt page).frame = 0
  · have found : p.firstFrame ≠ noFrame := by
      intro none
      unfold Paging.allocFrame at fed
      dsimp only at fed
      rw [if_neg (not_not.mpr mapped)] at fed
      simp [setFrame, setPage, none] at fed
    obtain ⟨bounded, free⟩ := p.firstFrame_spec.resolve_left found
    have nonzero : p.firstFrame ≠ 0 := fun zero =>
      free ((frames.owned.used_iff _).mpr (.inl zero))
    have small : p.firstFrame % frameNumbers = p.firstFrame :=
      Nat.mod_eq_of_lt (bounded.trans frames.small)
    refine ⟨p.firstFrame, holds_eq_some.mpr ⟨nonzero, ?_⟩⟩
    rw [pageAt_allocFrame mapped live, if_pos rfl]
    exact small
  · rw [allocFrame_of_mapped mapped]
    exact ⟨_, holds_eq_some.mpr ⟨mapped, rfl⟩⟩

/-- A new page table maps nothing. -/
theorem PagingInvariant.kernelFrame_makeTable (invariant : p.PagingInvariant)
    (blocks : PageBlocks) {tab : Nat}
    (absent : p.tableOf p.kernelDirectory tab = 0) (flags other : Nat) :
    (p.makeTable blocks tab flags p.kernelDirectory).kernelFrame other = p.kernelFrame other := by
  have linked := invariant.linked
  have fresh := blocks.table.address_fresh p.table
  have phys : (p.kernelEntry tab).2 = 0 := by
    by_contra present
    exact (linked.present _ _).mp present absent
  obtain ⟨_, _, others⟩ := makeTable_grown blocks linked.kernel phys flags
  have entry (page : PagePointer) :
      (p.makeTable blocks tab flags p.kernelDirectory).pageAt page = p.pageAt page :=
    pageAt_newTable fresh page
  by_cases here : other / frameSize / tableEntries = tab
  · rw [linked.kernelFrame_of_absent (here ▸ absent), kernelFrame, holds_eq_none, entry,
      pageAt_of_dead]
    show (p.makeTable blocks tab flags p.kernelDirectory).tableOf p.kernelDirectory _ ∉ p.table
    have entered := tableOf_setTable (p := p.newTable (blocks.table.address p.table))
      linked.kernel tab (blocks.table.address p.table)
      (blocks.phys (blocks.table.address p.table) ||| flags) p.kernelDirectory tab
    rw [if_pos ⟨rfl, rfl⟩] at entered
    rw [Paging.makeTable, here, entered]
    exact AList.lookup_eq_none.mp fresh
  · have table : (p.makeTable blocks tab flags p.kernelDirectory).kernelPage other =
        p.kernelPage other := by
      have same := congrArg Prod.fst (others _ here)
      exact Prod.ext same rfl
    rw [kernelFrame, table]
    exact holds_congr (entry _)

/-- `make_page` maps a page, and the others stay as they are. -/
theorem PagingInvariant.kernelFrame_makePage (invariant : p.PagingInvariant)
    (blocks : PageBlocks) (inRange : address < uintWidth) (flags : Nat)
    (made : (p.makePage blocks address flags p.kernelDirectory true).1 = p') :
    (∀ other, other / frameSize ≠ address / frameSize → p'.kernelFrame other = p.kernelFrame other) ∧
      (∀ frame, p.kernelFrame address = some frame → p'.kernelFrame address = some frame) ∧
      (p'.starved = false → ∃ frame, p'.kernelFrame address = some frame) := by
  have tab : address / frameSize / tableEntries < tableEntries := by
    simp only [frameSize, tableEntries, uintWidth] at *
    omega
  have filled (q : Paging) (invariant' : q.PagingInvariant)
      (same : ∀ other, q.kernelFrame other = p.kernelFrame other)
      (there : q.tableOf q.kernelDirectory (address / frameSize / tableEntries) ≠ 0)
      (alloc : q.allocFrame (q.kernelPage address) flags = p') :
      (∀ other, other / frameSize ≠ address / frameSize →
        p'.kernelFrame other = p.kernelFrame other) ∧
      (∀ frame, p.kernelFrame address = some frame → p'.kernelFrame address = some frame) ∧
      (p'.starved = false → ∃ frame, p'.kernelFrame address = some frame) := by
    have tables := allocFrame_tables q (q.kernelPage address) flags
    have live := invariant'.linked.live _ _ there
    rw [alloc] at tables
    refine ⟨fun other differ => ?_, fun frame held => ?_, fun fed => ?_⟩
    · have apart : q.kernelPage other ≠ q.kernelPage address := fun equal =>
        differ (invariant'.linked.kernelPage_inj there equal.symm).symm
      rw [← same, kernelFrame, tables.kernelPage, ← alloc]
      exact holds_allocFrame_of_ne live apart flags
    · rw [← same] at held
      have mapped : (q.pageAt (q.kernelPage address)).frame ≠ 0 := by
        rw [(holds_eq_some.mp held).2]
        exact (holds_eq_some.mp held).1
      rw [← alloc, allocFrame_of_mapped mapped]
      exact held
    · rw [kernelFrame, tables.kernelPage, ← alloc]
      apply (invariant'.frames (tables.starved fed)).holds_allocFrame live
      rw [alloc]
      exact fed
  unfold Paging.makePage at made
  dsimp only at made
  rw [if_pos rfl] at made
  by_cases absent : (p.directoryAt p.kernelDirectory).physTabs (address / frameSize / tableEntries) = 0
  · rw [if_pos absent] at made
    have free : p.tableOf p.kernelDirectory (address / frameSize / tableEntries) = 0 := by
      by_contra some_table
      exact (invariant.linked.present _ _).mpr some_table absent
    have table := invariant.linked.makeTable invariant.referenced blocks invariant.linked.kernel tab
      free flags
    exact filled _ (invariant.makeTable blocks invariant.linked.kernel tab free flags)
      (invariant.kernelFrame_makeTable blocks free flags) table.2.2 made
  · rw [if_neg absent] at made
    exact filled p invariant (fun _ => rfl) ((invariant.linked.present _ _).mp absent) made

/-- `make_page` does not make up for frames that were missing. -/
theorem starved_makePage (blocks : PageBlocks) (address flags : Nat)
    (fed : (p.makePage blocks address flags p.kernelDirectory true).1.starved = false) :
    p.starved = false := by
  unfold Paging.makePage at fed
  dsimp only at fed
  rw [if_pos rfl] at fed
  have before := (allocFrame_tables _ _ flags).starved fed
  split at before
  · exact before
  · exact before

/-- Nor does the loop of `expand_heap`. -/
theorem starved_makePages (blocks : PageBlocks) (flags : Nat) {addresses : List Nat}
    (fed : (AddressSpaces.makePages blocks flags addresses p).starved = false) :
    p.starved = false := by
  induction addresses generalizing p with
  | nil => exact fed
  | cons address addresses ih => exact starved_makePage blocks address flags (ih fed)

/-- The loop of `expand_heap` maps its pages, and the others stay as they are. -/
theorem PagingInvariant.kernelFrame_makePages (invariant : p.PagingInvariant)
    (blocks : PageBlocks) (flags : Nat) {addresses : List Nat}
    (inRange : ∀ address ∈ addresses, address < uintWidth) :
    let made := AddressSpaces.makePages blocks flags addresses p
    (∀ other, (∀ address ∈ addresses, other / frameSize ≠ address / frameSize) →
      made.kernelFrame other = p.kernelFrame other) ∧
      (∀ other frame, p.kernelFrame other = some frame → made.kernelFrame other = some frame) ∧
      (made.starved = false → ∀ address ∈ addresses, ∃ frame,
        made.kernelFrame address = some frame) := by
  dsimp only
  induction addresses generalizing p with
  | nil => exact ⟨fun _ _ => rfl, fun _ _ held => held, fun _ _ none => absurd none List.not_mem_nil⟩
  | cons address addresses ih =>
    have here := inRange address List.mem_cons_self
    have later := fun other member => inRange other (List.mem_cons_of_mem address member)
    obtain ⟨others, keeps, maps⟩ := invariant.kernelFrame_makePage blocks here flags rfl
    have kernel := (makePage_grown blocks invariant.linked.kernel address flags).1.others
      |>.kernelDirectory
    have invariant' := invariant.makePage blocks here flags invariant.linked.kernel true
    obtain ⟨others', keeps', maps'⟩ := ih invariant' later
    have keep (other frame : Nat) (held : p.kernelFrame other = some frame) :
        (p.makePage blocks address flags p.kernelDirectory true).1.kernelFrame other =
          some frame := by
      by_cases same : other / frameSize = address / frameSize
      · rw [kernelFrame_congr _ same] at held ⊢
        exact keeps frame held
      · rw [others other same]
        exact held
    refine ⟨fun other apart => ?_, fun other frame held => keeps' other frame (keep other frame held),
      fun fed other member => ?_⟩
    · rw [← others other (apart address List.mem_cons_self)]
      exact others' other fun one member => apart one (List.mem_cons_of_mem address member)
    · rcases List.mem_cons.mp member with rfl | more
      · obtain ⟨frame, held⟩ := maps (starved_makePages blocks flags fed)
        exact ⟨frame, keeps' other frame held⟩
      · exact maps' fed other more

/-- The entries after `free_frame`. -/
theorem pageAt_freeFrame {page : PagePointer} (live : page.1 ∈ p.table) (other : PagePointer) :
    (p.freeFrame page).pageAt other =
      if other = page then { p.pageAt page with frame := 0 } else p.pageAt other := by
  unfold freeFrame
  dsimp only
  split
  · exact pageAt_setPage live _ other
  · exact pageAt_setPage live _ other

/-- The frame map after `free_frame`. -/
theorem marked_freeFrame {page : PagePointer} {frame : Nat} :
    (p.freeFrame page).marked frame ↔ p.marked frame ∧ p.holds page ≠ some frame := by
  unfold freeFrame
  dsimp only
  split
  · rename_i mapped
    have same : p.holds page ≠ some frame ↔ frame ≠ (p.pageAt page).frame := by
      rw [ne_eq, holds_eq_some, not_and]
      constructor
      · intro other equal
        exact other (equal ▸ mapped) equal.symm
      · intro differ _ equal
        exact differ equal.symm
    rw [clearFrame_marked, same]
    rfl
  · rename_i unmapped
    rw [holds_eq_none.mpr (not_not.mp unmapped)]
    exact ⟨fun mark => ⟨mark, Option.some_ne_none _ ∘ Eq.symm⟩, And.left⟩

/-- `free_page` takes the frame of a page and gives it back, and the others stay as they are. -/
theorem Linked.kernelFrame_freePage (linked : p.Linked) (address : Nat)
    (freed : (p.freePage address p.kernelDirectory).1 = p') :
    SameTables p p' ∧
      (∀ other, p'.kernelFrame other =
        if other / frameSize = address / frameSize then none else p.kernelFrame other) ∧
      ∀ frame, p'.marked frame ↔ p.marked frame ∧ p.kernelFrame address ≠ some frame := by
  have absent_iff := linked.present p.kernelDirectory (address / frameSize / tableEntries)
  unfold Paging.freePage at freed
  dsimp only at freed
  by_cases absent : (p.directoryAt p.kernelDirectory).physTabs (address / frameSize / tableEntries) = 0
  · rw [if_pos absent] at freed
    have none := linked.kernelFrame_of_absent
      (not_not.mp fun some_table => absent_iff.mpr some_table absent)
    rw [← freed, none]
    refine ⟨.refl p, fun other => ?_, fun frame => ?_⟩
    swap
    · exact ⟨fun mark => ⟨mark, Option.some_ne_none frame ∘ Eq.symm⟩, And.left⟩
    split
    · rename_i same
      rw [kernelFrame_congr p same, none]
    · rfl
  · rw [if_neg absent] at freed
    have there := absent_iff.mp absent
    have live := linked.live _ _ there
    have tables := freeFrame_tables p (p.kernelPage address)
    rw [← freed]
    refine ⟨tables, fun other => ?_, fun frame => marked_freeFrame⟩
    show (p.freeFrame (p.kernelPage address)).holds _ = _
    rw [tables.kernelPage]
    have entry : (p.freeFrame (p.kernelPage address)).pageAt (p.kernelPage other) = _ :=
      pageAt_freeFrame live (p.kernelPage other)
    split
    · rename_i same
      have equal : p.kernelPage other = p.kernelPage address := by
        rw [kernelPage, kernelPage, same]
      rw [holds_eq_none, entry, if_pos equal]
    · rename_i differ
      have apart : p.kernelPage other ≠ p.kernelPage address := fun equal =>
        differ (linked.kernelPage_inj there equal.symm).symm
      apply holds_congr
      rw [entry, if_neg apart]

/-- The loop of `contract_heap` takes the frames of the pages behind the first one. -/
theorem Linked.kernelFrame_freePages (linked : p.Linked) {start newSize offset turns : Nat}
    (aligned : start % frameSize = 0) (whole : newSize % frameSize = 0)
    (last : offset % frameSize = 0) (inRange : start + offset < uintWidth)
    (positive : 0 < newSize) (enough : offset < turns * frameSize)
    (freed : AddressSpaces.freePages start newSize turns offset p = p') :
    (∀ other, p'.kernelFrame other =
      if start + newSize + frameSize ≤ other ∧ other < start + offset + frameSize then none
      else p.kernelFrame other) ∧
    ∀ frame, p'.marked frame ↔ p.marked frame ∧ ∀ other, start + newSize + frameSize ≤ other →
      other < start + offset + frameSize → p.kernelFrame other ≠ some frame := by
  induction turns generalizing p offset with
  | zero => omega
  | succ turns ih =>
    rw [AddressSpaces.freePages] at freed
    by_cases more : newSize < offset
    · have page : uadd start offset = start + offset := uadd_of_lt inRange
      have room : newSize + frameSize ≤ offset := by
        simp only [frameSize] at *
        omega
      have below : usub offset frameSize = offset - frameSize :=
        usub_of_le (Nat.le_trans (Nat.le_add_left ..) room)
          (Nat.lt_of_le_of_lt (Nat.le_add_left ..) inRange)
      have pages (other : Nat) : other / frameSize = (start + offset) / frameSize ↔
          start + offset ≤ other ∧ other < start + offset + frameSize := by
        simp only [frameSize] at *
        omega
      rw [if_pos more, page, below] at freed
      obtain ⟨tables, entries, marks⟩ := linked.kernelFrame_freePage (start + offset) rfl
      have last' : (offset - frameSize) % frameSize = 0 := by
        rw [← Nat.mod_eq_sub_mod (Nat.le_trans (Nat.le_add_left ..) room)]
        exact last
      have inRange' : start + (offset - frameSize) < uintWidth :=
        Nat.lt_of_le_of_lt (Nat.add_le_add_left (Nat.sub_le ..) start) inRange
      have enough' : offset - frameSize < turns * frameSize := by
        rw [Nat.succ_mul] at enough
        omega
      obtain ⟨entries', marks'⟩ := ih (tables.linked linked) last' inRange' enough' freed
      have rest : start + (offset - frameSize) + frameSize = start + offset := by
        simp only [frameSize] at *
        omega
      rw [rest] at entries' marks'
      refine ⟨fun other => ?_, fun frame => ?_⟩
      · rw [entries', entries]
        by_cases low : start + newSize + frameSize ≤ other ∧ other < start + offset
        · rw [if_pos low, if_pos ⟨low.1, by omega⟩]
        · rw [if_neg low]
          by_cases last : other / frameSize = (start + offset) / frameSize
          · have inside := (pages other).mp last
            rw [if_pos last, if_pos ⟨by omega, inside.2⟩]
          · have outside := mt (pages other).mpr last
            rw [if_neg last, if_neg (by omega)]
      · rw [marks', marks, and_assoc, and_congr_right_iff]
        intro _
        constructor
        · rintro ⟨last, low⟩ other above under
          by_cases here : other / frameSize = (start + offset) / frameSize
          · rw [p.kernelFrame_congr here]
            exact last
          · have outside := mt (pages other).mpr here
            have held := low other above (by omega)
            rw [entries, if_neg here] at held
            exact held
        · intro all
          refine ⟨all (start + offset) (by omega) (by simp only [frameSize]; omega), ?_⟩
          intro other above under
          rw [entries]
          split
          · exact Option.some_ne_none frame ∘ Eq.symm
          · exact all other above (by omega)
    · rw [if_neg more] at freed
      rw [← freed]
      refine ⟨fun other => (if_neg (by omega)).symm, fun frame => ⟨fun mark => ⟨mark, ?_⟩, And.left⟩⟩
      intro other low high
      omega

end Paging

namespace AddressSpaces

open Paging

variable {s s' : AddressSpaces} {newSize : Nat}

/-- The heap has frames for the pages between its start and its end, which are page boundaries,
and for no others behind its start. -/
structure HeapMapped (s : AddressSpaces) : Prop where
  invariant : s.paging.PagingInvariant
  startAligned : s.heap.start % frameSize = 0
  endAligned : s.heap.end_ % frameSize = 0
  ordered : s.heap.start < s.heap.end_
  inRange : s.heap.end_ < uintWidth
  exact : ∀ address < uintWidth, s.heap.start ≤ address →
    ((∃ frame, s.paging.kernelFrame address = some frame) ↔ address < s.heap.end_)

/-- The pages of the heap have followed its end. -/
structure Follows (s s' : AddressSpaces) : Prop where
  exact : ∀ address < uintWidth, s'.heap.start ≤ address →
    ((∃ frame, s'.paging.kernelFrame address = some frame) ↔ address < s'.heap.end_)
  keeps : ∀ address, s.heap.start ≤ address → address < s.heap.end_ → address < s'.heap.end_ →
    s'.paging.kernelFrame address = s.paging.kernelFrame address
  freed : ∀ address frame, s'.heap.end_ ≤ address → s.heap.start ≤ address →
    address < s.heap.end_ → s.paging.kernelFrame address = some frame → ¬s'.paging.marked frame

/-- The heap is as large as the distance of its bounds. -/
theorem HeapMapped.size_eq (mapped : s.HeapMapped) :
    s.heap.size = s.heap.end_ - s.heap.start :=
  usub_of_le (Nat.le_of_lt mapped.ordered) mapped.inRange

/-- Nothing happened. -/
theorem HeapMapped.follows_self (mapped : s.HeapMapped) : Follows s s :=
  ⟨mapped.exact, fun _ _ _ _ => rfl, fun address frame above _ below _ => by omega⟩

/-- A request that wraps ends at the start of the heap or before. -/
theorem wraps_le {start : Nat} (aligned : start % frameSize = 0) (inRange : newSize < uintWidth)
    (low : start < uintWidth) (beyond : uintWidth - frameSize < start + newSize) :
    uadd start (assertAlign newSize) ≤ start := by
  unfold assertAlign
  split
  · simp only [uadd, frameSize, uintWidth] at *
    omega
  · simp only [uadd, frameSize, uintWidth] at *
    omega

/-- A request that does not wrap is rounded up to whole pages. -/
theorem assertAlign_fits {start : Nat} (aligned : start % frameSize = 0)
    (fits : start + newSize ≤ uintWidth - frameSize) :
    newSize ≤ assertAlign newSize ∧ assertAlign newSize % frameSize = 0 ∧
      start + assertAlign newSize ≤ uintWidth - frameSize := by
  unfold assertAlign
  split
  · simp only [uadd, frameSize, uintWidth] at *
    omega
  · simp only [frameSize, uintWidth] at *
    omega

/-- Growth makes exactly the pages of the new part. -/
theorem mem_growth {h : Heap} (startAligned : h.start % frameSize = 0)
    (endAligned : h.end_ % frameSize = 0) (ordered : h.start < h.end_)
    (inRange : h.end_ < uintWidth) (grows : h.size < newSize)
    (fits : h.start + newSize ≤ uintWidth - frameSize)
    (allowed : ¬h.memend < uadd h.start (assertAlign newSize)) (other : Nat) :
    (∃ address ∈ h.growth newSize, other / frameSize = address / frameSize) ↔
      h.end_ ≤ other ∧ other < h.start + assertAlign newSize := by
  obtain ⟨low, whole, high⟩ := assertAlign_fits startAligned fits
  have size : h.size = h.end_ - h.start := usub_of_le (Nat.le_of_lt ordered) inRange
  have expands : h.expandSize newSize = some (assertAlign newSize) := by
    rw [Heap.expandSize, if_neg (Nat.not_le.mpr grows), if_neg allowed]
  have page {k : Nat} (inside : k < (assertAlign newSize - h.size + (frameSize - 1)) / frameSize) :
      uadd h.start (h.size + k * frameSize) = h.end_ + k * frameSize := by
    simp only [uadd, frameSize, uintWidth] at *
    omega
  have made (address : Nat) : address ∈ h.growth newSize ↔
      ∃ k < (assertAlign newSize - h.size + (frameSize - 1)) / frameSize,
        uadd h.start (h.size + k * frameSize) = address := by
    unfold Heap.growth
    rw [expands]
    simp only [List.mem_map, List.mem_range]
  constructor
  · rintro ⟨address, member, same⟩
    obtain ⟨k, inside, rfl⟩ := (made address).mp member
    rw [page inside] at same
    simp only [frameSize] at *
    omega
  · rintro ⟨above, below⟩
    have inside : (other - h.end_) / frameSize <
        (assertAlign newSize - h.size + (frameSize - 1)) / frameSize := by
      simp only [frameSize] at *
      omega
    refine ⟨_, (made _).mpr ⟨(other - h.end_) / frameSize, inside, rfl⟩, ?_⟩
    rw [page inside]
    simp only [frameSize] at *
    omega

/-- The pages of the heap follow `expand_heap` unless the new end wraps. -/
theorem HeapMapped.expand_follows (mapped : s.HeapMapped) (blocks : PageBlocks)
    (inRange : newSize < uintWidth)
    (fed : (s.expandHeap blocks newSize).paging.starved = false) :
    Follows s (s.expandHeap blocks newSize) ↔
      newSize ≤ s.heap.size ∨ s.heap.memend < uadd s.heap.start (assertAlign newSize) ∨
        s.heap.start + newSize ≤ uintWidth - frameSize := by
  obtain ⟨others, keeps, maps⟩ := mapped.invariant.kernelFrame_makePages blocks s.heap.pageflags
    fun address made => Heap.growth_lt made
  by_cases expands : newSize ≤ s.heap.size ∨ s.heap.memend < uadd s.heap.start (assertAlign newSize)
  · have refused : s.heap.expandSize newSize = none := by
      unfold Heap.expandSize
      rcases expands with small | beyond
      · exact if_pos small
      · rw [if_pos beyond, ite_self]
    have same : s.expandHeap blocks newSize = s := by
      unfold expandHeap Heap.expand Heap.growth
      rw [refused]
      rfl
    rw [same]
    exact iff_of_true mapped.follows_self (expands.imp_right .inl)
  · obtain ⟨grows, allowed⟩ := not_or.mp expands
    have expanded : s.heap.expandSize newSize = some (assertAlign newSize) := by
      rw [Heap.expandSize, if_neg grows, if_neg allowed]
    have start : (s.expandHeap blocks newSize).heap.start = s.heap.start := by
      unfold expandHeap Heap.expand
      rw [expanded]
    have end_ : (s.expandHeap blocks newSize).heap.end_ =
        uadd s.heap.start (assertAlign newSize) := by
      unfold expandHeap Heap.expand
      rw [expanded]
    rw [or_iff_right grows, or_iff_right allowed]
    constructor
    · intro follows
      by_contra beyond
      have low : s.heap.start < uintWidth := Nat.lt_trans mapped.ordered mapped.inRange
      have wraps := wraps_le mapped.startAligned inRange low (Nat.lt_of_not_le beyond)
      obtain ⟨frame, held⟩ := (mapped.exact s.heap.start low (Nat.le_refl _)).mpr mapped.ordered
      have still := (follows.exact s.heap.start low (Nat.le_of_eq start)).mp
        ⟨frame, keeps _ frame held⟩
      rw [end_] at still
      omega
    · intro fits
      obtain ⟨above, _, high⟩ := assertAlign_fits mapped.startAligned fits
      have sum : uadd s.heap.start (assertAlign newSize) = s.heap.start + assertAlign newSize := by
        apply uadd_of_lt
        simp only [frameSize, uintWidth] at *
        omega
      have pages := mem_growth mapped.startAligned mapped.endAligned mapped.ordered mapped.inRange
        (Nat.lt_of_not_le grows) fits allowed
      have size := mapped.size_eq
      constructor
      · intro address small low
        rw [start] at low
        rw [end_, sum]
        have before := mapped.exact address small low
        by_cases new : s.heap.end_ ≤ address ∧ address < s.heap.start + assertAlign newSize
        · obtain ⟨page, made, same⟩ := (pages address).mpr new
          obtain ⟨frame, held⟩ := maps fed page made
          refine iff_of_true ⟨frame, ?_⟩ new.2
          rw [kernelFrame_congr _ same]
          exact held
        · have same := others address fun page made equal =>
            new ((pages address).mp ⟨page, made, equal⟩)
          have kept : (s.expandHeap blocks newSize).paging.kernelFrame address =
            s.paging.kernelFrame address := same
          rw [kept, before]
          omega
      · intro address _ below _
        apply others
        intro page made equal
        have new := (pages address).mp ⟨page, made, equal⟩
        omega
      · intro address frame above' _ below
        rw [end_, sum] at above'
        omega

/-- The first page behind the new end is not freed. -/
theorem contract_leaks {start end_ size : Nat} {p p' : Paging} (invariant : p.PagingInvariant)
    (startAligned : start % frameSize = 0) (endAligned : end_ % frameSize = 0)
    (inRange : end_ < uintWidth) (whole : size % frameSize = 0) (positive : 0 < size)
    (shrinks : start + size < end_)
    (freed : freePages start size frameNumbers (end_ - start - frameSize) p = p') :
    p'.kernelFrame (start + size) = p.kernelFrame (start + size) := by
  have last : (end_ - start - frameSize) % frameSize = 0 := by
    simp only [frameSize] at *
    omega
  have inside : start + (end_ - start - frameSize) < uintWidth := by omega
  have enough : end_ - start - frameSize < frameNumbers * frameSize := by
    simp only [frameNumbers, frameSize, uintWidth] at *
    omega
  obtain ⟨entries, _⟩ := invariant.linked.kernelFrame_freePages startAligned whole last inside
    positive enough freed
  have before : ¬start + size + frameSize ≤ start + size := by
    simp only [frameSize]
    omega
  rw [entries, if_neg fun both => before both.1]

/-- Nothing is freed unless the new end is before the old one. -/
theorem freePages_of_le {start size offset turns : Nat} {p : Paging} (ends : offset ≤ size)
    (some_turn : 0 < turns) : freePages start size turns offset p = p := by
  cases turns with
  | zero => omega
  | succ turns => rw [freePages, if_neg (Nat.not_lt.mpr ends)]

/-- The pages of the heap follow `contract_heap` only if it keeps the end. -/
theorem HeapMapped.contract_follows (mapped : s.HeapMapped) (newSize : Nat) :
    Follows s (s.contractHeap newSize).1 ↔
      s.heap.size ≤ newSize ∨ max (assertAlign newSize) mmKheapMin = s.heap.size := by
  have size := mapped.size_eq
  have ⟨invariant, startAligned, endAligned, ordered, inRange, exact⟩ := mapped
  by_cases keeps : s.heap.size ≤ newSize
  · have refused : s.heap.contractSize newSize = none := if_pos keeps
    have same : (s.contractHeap newSize).1 = s := by
      unfold contractHeap
      rw [refused]
    rw [same]
    exact iff_of_true mapped.follows_self (.inl keeps)
  · have contracts : s.heap.contractSize newSize =
        some (max (assertAlign newSize) mmKheapMin) := by
      unfold Heap.contractSize
      rw [if_neg keeps]
      split
      · rw [max_eq_right (by omega)]
      · rw [max_eq_left (by omega)]
    have whole : max (assertAlign newSize) mmKheapMin % frameSize = 0 := by
      have rounded : assertAlign newSize % frameSize = 0 := by
        apply (assertAlign_spec _).2.2
        simp only [frameSize, uintWidth] at *
        omega
      rcases max_choice (assertAlign newSize) mmKheapMin with left | right
      · rw [left]
        exact rounded
      · rw [right]
        decide
    have positive : 0 < max (assertAlign newSize) mmKheapMin :=
      Nat.lt_of_lt_of_le (by decide) (Nat.le_max_right ..)
    have bounded : max (assertAlign newSize) mmKheapMin < uintWidth := by
      apply Nat.max_lt.mpr ⟨assertAlign_lt (by omega), by decide⟩
    have offset : usub s.heap.size frameSize = s.heap.end_ - s.heap.start - frameSize := by
      rw [size]
      apply usub_of_le
      · simp only [frameSize] at *
        omega
      · omega
    rw [or_iff_right keeps, size]
    unfold contractHeap Heap.contract
    rw [contracts]
    dsimp only
    rw [offset]
    generalize max (assertAlign newSize) mmKheapMin = newSize at *
    generalize freed : freePages s.heap.start newSize frameNumbers
      (s.heap.end_ - s.heap.start - frameSize) s.paging = p'
    have low : s.heap.start < uintWidth := Nat.lt_trans ordered inRange
    constructor
    · intro follows
      rcases Nat.lt_trichotomy newSize (s.heap.end_ - s.heap.start) with less | same | more
      · have sum : uadd s.heap.start newSize = s.heap.start + newSize := uadd_of_lt (by omega)
        obtain ⟨frame, held⟩ := (exact (s.heap.start + newSize) (by omega) (by omega)).mpr (by omega)
        rw [← contract_leaks invariant startAligned endAligned inRange whole positive (by omega)
          freed] at held
        have still : s.heap.start + newSize < uadd s.heap.start newSize :=
          (follows.exact (s.heap.start + newSize) (by omega)
            (Nat.le_add_right s.heap.start newSize)).mp ⟨frame, held⟩
        omega
      · exact same
      · rw [freePages_of_le (by omega) (by decide)] at freed
        by_cases wraps : s.heap.start + newSize < uintWidth
        · have sum : uadd s.heap.start newSize = s.heap.start + newSize := uadd_of_lt wraps
          obtain ⟨frame, held⟩ := (follows.exact s.heap.end_ inRange (Nat.le_of_lt ordered)).mpr
            (show s.heap.end_ < uadd s.heap.start newSize by omega)
          rw [← freed] at held
          have still := (exact _ inRange (Nat.le_of_lt ordered)).mp ⟨frame, held⟩
          omega
        · have wrapped : uadd s.heap.start newSize < s.heap.start := by
            simp only [uadd, uintWidth] at *
            omega
          obtain ⟨frame, held⟩ := (exact s.heap.start low (Nat.le_refl _)).mpr ordered
          rw [freed] at held
          have still : s.heap.start < uadd s.heap.start newSize :=
            (follows.exact s.heap.start low (Nat.le_refl s.heap.start)).mp ⟨frame, held⟩
          omega
    · intro same
      have sum : uadd s.heap.start newSize = s.heap.end_ := by
        rw [same, uadd_of_lt (by omega)]
        omega
      rw [freePages_of_le (by omega) (by decide)] at freed
      rw [sum, ← freed]
      exact mapped.follows_self

/-- The pages of the heap follow its end: at growth unless the request wraps, at shrinking only
when the end stays where it is. -/
theorem heap_pages_follow (mapped : s.HeapMapped) (blocks : PageBlocks)
    (inRange : newSize < uintWidth) :
    ((s.expandHeap blocks newSize).paging.starved = false →
      (Follows s (s.expandHeap blocks newSize) ↔
        newSize ≤ s.heap.size ∨ s.heap.memend < uadd s.heap.start (assertAlign newSize) ∨
          s.heap.start + newSize ≤ uintWidth - frameSize)) ∧
      (Follows s (s.contractHeap newSize).1 ↔
        s.heap.size ≤ newSize ∨ max (assertAlign newSize) mmKheapMin = s.heap.size) :=
  ⟨mapped.expand_follows blocks inRange, mapped.contract_follows newSize⟩

/-- A heap of 257 pages from page 1 on, mapped to the frames of their own numbers. -/
def largeHeap : AddressSpaces where
  heap :=
    { entries := 0
      entrycount := 1
      maxentries := mmIndexCount
      start := 0x1000
      end_ := 0x102000
      memend := 0x1000000
      pageflags := kernelFlags }
  paging :=
    { framecount := 4096
      framemap := fun word => if word < 8 then 0xFFFFFFFF#32 else if word = 8 then 3#32 else 0#32
      kernelDirectory := 1
      directory := AList.insert 1
        { physTabs := fun tab => if tab = 0 then 3 else 0
          tables := fun tab => if tab = 0 then 2 else 0 } ∅
      table := AList.insert 2
        (fun i => if 0 < i ∧ i < 258 then { flags := 1, frame := i } else {}) ∅ }

/-- Its directories. -/
theorem largeHeap_tables (directory index : Nat) :
    largeHeap.paging.tableOf directory index = (if directory = 1 ∧ index = 0 then 2 else 0) ∧
      (largeHeap.paging.directoryAt directory).physTabs index =
        if directory = 1 ∧ index = 0 then 3 else 0 := by
  unfold tableOf directoryAt largeHeap
  simp only [Store.lookup_insert_eq]
  by_cases kernel : directory = 1
  · rw [if_pos kernel]
    simp only [kernel, true_and, Option.getD_some, and_self]
  · rw [if_neg kernel]
    simp only [kernel, false_and, if_false]
    exact ⟨rfl, rfl⟩

/-- Its frames. -/
theorem largeHeap_holds (page : PagePointer) (frame : Nat) :
    largeHeap.paging.holds page = some frame ↔
      page.1 = 2 ∧ 0 < page.2 ∧ page.2 < 258 ∧ frame = page.2 := by
  rw [holds_eq_some]
  unfold pageAt largeHeap
  simp only [Store.lookup_insert_eq]
  by_cases table : page.1 = 2
  · rw [if_pos table]
    by_cases inside : 0 < page.2 ∧ page.2 < 258
    · simp only [Option.map_some, Option.getD_some, if_pos inside]
      omega
    · simp only [Option.map_some, Option.getD_some, if_neg inside]
      omega
  · rw [if_neg table]
    show frame ≠ 0 ∧ 0 = frame ↔ _
    omega

/-- Its frame map. -/
theorem largeHeap_marked (frame : Nat) : largeHeap.paging.marked frame ↔ frame < 258 := by
  have bit : frame % 32 < 32 := Nat.mod_lt _ (by decide)
  show (if frame / 32 < 8 then 0xFFFFFFFF#32 else if frame / 32 = 8 then 3#32 else 0#32).getLsbD
    (frame % 32) = true ↔ _
  split
  · have ones : ∀ j < 32, (0xFFFFFFFF#32).getLsbD j = true := by decide
    exact iff_of_true (ones _ bit) (by omega)
  · split
    · have two : ∀ j < 32, (3#32).getLsbD j = true ↔ j < 2 := by decide
      rw [two _ bit]
      omega
    · rw [BitVec.getLsbD_zero]
      exact iff_of_false Bool.false_ne_true (by omega)

/-- It is a heap whose pages are mapped. -/
theorem largeHeap_mapped : largeHeap.HeapMapped := by
  have tables := largeHeap_tables
  have holds := largeHeap_holds
  have table_mem (table : Nat) : table ∈ largeHeap.paging.table ↔ table = 2 :=
    (AList.mem_insert _).trans (or_iff_left (AList.notMem_empty table))
  have linked : largeHeap.paging.Linked := by
    constructor
    · exact (AList.mem_insert _).mpr (.inl rfl)
    · rw [table_mem]
      decide
    · intro directory index
      rw [(tables directory index).1, (tables directory index).2]
      split <;> decide
    · intro directory index there
      rw [(tables directory index).1] at there
      split at there
      · rename_i here
        rw [here.2]
        decide
      · exact absurd rfl there
    · intro directory index there
      rw [table_mem]
      rw [(tables directory index).1] at there ⊢
      split at there
      · rename_i here
        exact if_pos here
      · exact absurd rfl there
    · intro directory other index index' there same
      rw [(tables directory index).1] at there same
      rw [(tables other index').1] at same
      split at there
      · rename_i here
        rw [if_pos here] at same
        split at same
        · rename_i here'
          exact ⟨here.2.trans here'.2.symm, .inl (here.1.trans here'.1.symm)⟩
        · cases same
      · exact absurd rfl there
  have frames : largeHeap.paging.Frames := by
    constructor
    · constructor
      · intro page other frame held held'
        rw [holds] at held held'
        exact Prod.ext (held.1.trans held'.1.symm) (by omega)
      · intro frame
        rw [largeHeap_marked]
        constructor
        · intro below
          by_cases zero : frame = 0
          · exact .inl zero
          · exact .inr ⟨(2, frame), (holds _ _).mpr ⟨rfl, Nat.pos_of_ne_zero zero, below, rfl⟩⟩
        · rintro (rfl | ⟨page, held⟩)
          · decide
          · rw [holds] at held
            omega
      · intro page frame held
        rw [holds] at held
        omega
    · intro page frame held
      rw [holds] at held
      show frame < 4096
      omega
    · intro page frame held
      rw [holds] at held
      show page.2 < 1024
      omega
    · decide
  refine ⟨⟨linked, fun table there => ?_, fun _ => frames⟩, by decide, by decide, by decide,
    by decide, fun address inRange above => ?_⟩
  · refine .inr ⟨1, 0, ?_⟩
    rw [(tables 1 0).1, (table_mem table).mp there]
    rfl
  · have low : 0x1000 ≤ address := above
    have kernel (frame : Nat) : largeHeap.paging.kernelFrame address = some frame ↔
        (if address / frameSize / tableEntries = 0 then 2 else 0) = 2 ∧
          0 < address / frameSize % tableEntries ∧ address / frameSize % tableEntries < 258 ∧
          frame = address / frameSize % tableEntries := by
      have entry := (tables 1 (address / frameSize / tableEntries)).1
      simp only [true_and] at entry
      rw [kernelFrame, holds, ← entry]
      rfl
    show _ ↔ address < 0x102000
    simp only [kernel, exists_and_left, exists_eq, and_true]
    by_cases table : address / frameSize / tableEntries = 0
    · rw [if_pos table]
      simp only [frameSize, tableEntries, true_and] at *
      omega
    · rw [if_neg table]
      simp only [frameSize, tableEntries] at *
      omega

/-- Its pages follow a request that it is large enough for, and one that makes it not smaller. -/
theorem heap_pages_follow_large :
    Follows largeHeap (largeHeap.expandHeap FirstPages.blocks 0x1000) ∧
      Follows largeHeap (largeHeap.contractHeap 0x101000).1 := by
  have both := heap_pages_follow largeHeap_mapped FirstPages.blocks
    (show 0x1000 < uintWidth by decide)
  have keeps := heap_pages_follow largeHeap_mapped FirstPages.blocks
    (show 0x101000 < uintWidth by decide)
  exact ⟨(both.1 rfl).mpr (.inl (by decide)), keeps.2.mpr (.inl (by decide))⟩

/-- It is contracted by one page, which stays mapped and keeps its frame. -/
theorem contractHeap_leaks : ¬Follows largeHeap (largeHeap.contractHeap 0x100000).1 ∧
    (largeHeap.contractHeap 0x100000).1.heap.end_ = 0x101000 ∧
    (largeHeap.contractHeap 0x100000).1.paging.kernelFrame 0x101000 = some 257 := by
  refine ⟨fun follows => ?_, by decide, by decide +kernel⟩
  have condition := (largeHeap_mapped.contract_follows 0x100000).mp follows
  exact absurd condition (by decide)

end AddressSpaces

end Nupkux
