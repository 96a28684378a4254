import Nupkux.Mm.HeapAligned
import Nupkux.Mm.HeapRealloc

/-!
# Allocation that grows the heap

`heap_malloc` when no hole is large enough and the heap can grow: what the heap has grown by is
added to the hole with the highest address, or becomes a hole when there is none, and the call is
made again. Whether the hole with the highest address ends where the heap did is not looked at.
-/

namespace Nupkux

open Tiling

namespace KernelHeap

variable {k k' : KernelHeap} {m : Bytes} {left right blocks blocks' : List Block} {hole b : Block}
  {i address pos size newsize stop : Nat}

/-! ## The pages of the new part -/

/-- There is a page table for an address. -/
def Tabled (p : Paging) (address : Nat) : Prop :=
  (p.directoryAt p.kernelDirectory).physTabs (address / frameSize / tableEntries) ≠ 0

/-- Pages are made without an allocation when there are page tables for them. -/
theorem foldlM_makePage (flags : Nat) {pages : List Nat} (k : KernelHeap)
    (tabled : ∀ address ∈ pages, Tabled k.paging address) :
    ∃ paging, ∀ kmallocPa, pages.foldlM (fun k' address => makePage kmallocPa k' address flags) k =
      some { k with paging } := by
  induction pages generalizing k with
  | nil => exact ⟨k.paging, fun _ => rfl⟩
  | cons address pages ih =>
    have same := Paging.allocFrame_tables k.paging (k.paging.kernelPage address) flags
    have made (kmallocPa : KmallocPa) : k.makePage kmallocPa address flags =
        some { k with paging := k.paging.allocFrame (k.paging.kernelPage address) flags } := by
      have there := tabled address List.mem_cons_self
      unfold makePage
      dsimp only
      rw [if_neg there]
      rfl
    obtain ⟨paging, rest⟩ := ih
      { k with paging := k.paging.allocFrame (k.paging.kernelPage address) flags }
      (fun other member => by
        show (Paging.directoryAt (k.paging.allocFrame _ flags)
          (k.paging.allocFrame _ flags).kernelDirectory).physTabs _ ≠ 0
        rw [same.kernelDirectory, same.directoryAt]
        exact tabled other (List.mem_cons_of_mem _ member))
    refine ⟨paging, fun kmallocPa => ?_⟩
    rw [List.foldlM_cons, made]
    exact rest kmallocPa

/-- The size that the heap grows to when so much is asked for: whole pages. -/
def grownSize (k : KernelHeap) (size : Nat) : Nat :=
  assertAlign (k.heap.size + (size + (headerSize + footerSize)))

/-- The heap can grow for an allocation: the new end is not beyond the end of memory, and there
are page tables for the new pages. -/
structure CanGrow (k : KernelHeap) (size : Nat) : Prop where
  whole : k.heap.size + (size + (headerSize + footerSize)) ≤ k.grownSize size
  fits : k.heap.start + k.grownSize size ≤ k.heap.memend
  memend : k.heap.memend < uintWidth
  tabled : ∀ address ∈ k.heap.growth (k.heap.size + (size + (headerSize + footerSize))),
    Tabled k.paging address

/-- `expand_heap` when the heap can grow. -/
theorem expandHeap_eq (can : k.CanGrow size) :
    ∃ paging, ∀ kmallocPa, k.expandHeap kmallocPa
        (uadd k.heap.size (uadd size (headerSize + footerSize))) =
      some { k with paging, heap := { k.heap with end_ := k.heap.start + k.grownSize size } } := by
  obtain ⟨whole, fits, memend, tabled⟩ := can
  have some_size : 0 < headerSize + footerSize := by decide
  have inner : uadd size (headerSize + footerSize) = size + (headerSize + footerSize) :=
    uadd_of_lt (by omega)
  have sum : uadd k.heap.size (size + (headerSize + footerSize)) =
      k.heap.size + (size + (headerSize + footerSize)) := uadd_of_lt (by omega)
  have stop : uadd k.heap.start (k.grownSize size) = k.heap.start + k.grownSize size :=
    uadd_of_lt (by omega)
  have expands : k.heap.expandSize (k.heap.size + (size + (headerSize + footerSize))) =
      some (k.grownSize size) := by
    unfold Heap.expandSize
    rw [if_neg (by omega)]
    show (if uadd k.heap.start (k.grownSize size) > k.heap.memend then none
      else some (k.grownSize size)) = _
    rw [stop, if_neg (by omega)]
  obtain ⟨paging, made⟩ := foldlM_makePage k.heap.pageflags k tabled
  refine ⟨paging, fun kmallocPa => ?_⟩
  unfold expandHeap
  rw [inner, sum, expands]
  dsimp only
  rw [made]
  show some { k with paging, heap := { k.heap with end_ := uadd k.heap.start _ } } = _
  rw [stop]

/-! ## The hole with the highest address -/

/-- The highest of the first entries, and its number. -/
def highestOf (k : KernelHeap) (n : Nat) : Nat × Option Nat :=
  (List.range n).foldl (fun (best : Nat × Option Nat) i =>
    if best.1 < k.entry i then (k.entry i, some i) else best) (0, none)

/-- The search over one entry more. -/
theorem highestOf_succ (k : KernelHeap) (n : Nat) : k.highestOf (n + 1) =
    if (k.highestOf n).1 < k.entry n then (k.entry n, some n) else k.highestOf n := by
  unfold highestOf
  rw [List.range_succ, List.foldl_append]
  rfl

/-- No entry is higher than the one found, and it is one of them unless all are 0. -/
theorem highestOf_spec (k : KernelHeap) (n : Nat) :
    (∀ j < n, k.entry j ≤ (k.highestOf n).1) ∧
      (k.highestOf n = (0, none) ∨ ∃ i < n, k.highestOf n = (k.entry i, some i)) := by
  induction n with
  | zero => exact ⟨fun j none => absurd none (Nat.not_lt_zero j), .inl rfl⟩
  | succ n ih =>
    obtain ⟨above, found⟩ := ih
    rw [highestOf_succ]
    by_cases higher : (k.highestOf n).1 < k.entry n
    · rw [if_pos higher]
      refine ⟨fun j inside => ?_, .inr ⟨n, Nat.lt_succ_self n, rfl⟩⟩
      rcases Nat.lt_succ_iff_lt_or_eq.mp inside with before | rfl
      · exact Nat.le_trans (above j before) (Nat.le_of_lt higher)
      · exact Nat.le_refl _
    · rw [if_neg higher]
      refine ⟨fun j inside => ?_, found.imp_right fun ⟨i, before, same⟩ =>
        ⟨i, Nat.lt_succ_of_lt before, same⟩⟩
      rcases Nat.lt_succ_iff_lt_or_eq.mp inside with before | rfl
      · exact above j before
      · exact Nat.le_of_not_lt higher

/-- The entry of the hole with the highest address, when there is a hole. -/
theorem highestHole_of_listed (positive : ∀ j < k.heap.entrycount, 0 < k.entry j)
    (listed : 0 < k.heap.entrycount) : ∃ i < k.heap.entrycount, k.highestHole = some i ∧
      ∀ j < k.heap.entrycount, k.entry j ≤ k.entry i := by
  obtain ⟨above, none | ⟨i, inside, found⟩⟩ := k.highestOf_spec k.heap.entrycount
  · have high := above 0 listed
    have low := positive 0 listed
    rw [none] at high
    exact absurd low (Nat.not_lt.mpr high)
  · rw [found] at above
    exact ⟨i, inside, congrArg Prod.snd found, above⟩

/-- There is no hole with the highest address when there is none. -/
theorem highestHole_of_empty (empty : k.heap.entrycount = 0) : k.highestHole = none := by
  unfold highestHole
  rw [empty]
  rfl

/-! ## The space that is offered -/

/-- Space has been entered as a hole behind some blocks of a heap that has grown. Its header says
how large it is, cut to the field for it. -/
structure Offered (k k' : KernelHeap) (left : List Block) (stop : Nat) : Prop where
  heap : k'.heap = { k.heap with end_ := stop, entrycount := k'.heap.entrycount }
  few : k'.heap.entrycount ≤ k.heap.maxentries
  listed : ∀ entry ∈ k'.index,
    entry = k.heap.start + total Block.size left ∨ entry ∈ holes k.heap.start left
  low : Bytes.Same k.heap.start (k.heap.start + total Block.size left - footerSize) k.memory
    k'.memory

/-- The memory when the space has been added to a hole. -/
def addSpace (m : Bytes) (header space : Nat) : Bytes :=
  let m := setSize m header (uadd (sizeAt m header) space)
  let newfooter := usub (uadd header (sizeAt m header)) footerSize
  setMagic (setHeader m header newfooter) newfooter

/-- The memory when the space has been made a hole. -/
def makeSpace (m : Bytes) (header space : Nat) : Bytes :=
  let m := setSize m header space
  let m := setFlag m header mmFlagHole
  let newfooter := usub (uadd header (sizeAt m header)) footerSize
  setHeader (setMagic (setMagic m newfooter) header) header newfooter

/-- Where a footer is written when the size of a hole has been cut to its field. -/
theorem cut_footer {space : Nat} (low : footerSize ≤ address)
    (inRange : address + space < uintWidth) :
    usub (uadd address (space % sizeWidth)) footerSize =
      address + space % sizeWidth - footerSize := by
  have less : space % sizeWidth ≤ space := Nat.mod_le ..
  rw [uadd_of_lt (by omega), usub_of_le (by omega) (by omega)]

/-- Space is added to a hole. -/
theorem addSpace_spec {old space : Nat} (low : footerSize ≤ address)
    (inRange : address + (old + space) < uintWidth) (large : headerSize ≤ old)
    (magic : magicAt m address = mmMagic) (flag : flagAt m address = mmFlagHole)
    (size : sizeAt m address = old) :
    Bytes.OnlyIn (address - footerSize) (address + (old + space)) m (addSpace m address space) ∧
      (headerSize + footerSize ≤ old + space → old + space < sizeWidth →
        HoleFrom (addSpace m address space) address (old + space) ∧
          Bytes.OnlyIn address (address + (old + space)) m (addSpace m address space)) := by
  have sum : uadd old space = old + space := uadd_of_lt (by omega)
  have less : (old + space) % sizeWidth ≤ old + space := Nat.mod_le ..
  have value (small : address < uintWidth) : address % 4294967296 = address :=
    Nat.mod_eq_of_lt small
  unfold addSpace
  dsimp only
  rw [size, sum, sizeAt_setSize, cut_footer low inRange]
  unfold headerSize footerSize at *
  constructor
  · unfold setMagic setHeader setSize
    apply_rules [Bytes.OnlyIn.store, Bytes.OnlyIn.refl] <;> omega
  · intro enough small
    rw [Nat.mod_eq_of_lt small]
    refine ⟨⟨?_, ?_, ?_, ?_, ?_⟩, ?_⟩
    · unfold magicAt
      simp (disch := omega) only [setMagic, setHeader, setSize, Bytes.word_store_of_apart]
      exact magic
    · unfold sizeAt
      simp (disch := omega) only [setMagic, setHeader, Bytes.word_store_of_apart]
      exact sizeAt_setSize
    · unfold flagAt
      simp (disch := omega) only [setMagic, setHeader, Bytes.word_store_of_apart]
      exact flagAt_setSize.trans flag
    · unfold magicAt footerSize
      simp (disch := omega) only [setMagic, Bytes.word_store_self]
      rfl
    · unfold headerAt footerSize
      simp (disch := omega) only [setMagic, setHeader, Bytes.word_store_of_apart,
        Bytes.word_store_self]
      exact value (by omega)
    · unfold setMagic setHeader setSize
      apply_rules [Bytes.OnlyIn.store, Bytes.OnlyIn.refl] <;> omega

/-- Space is made a hole. -/
theorem makeSpace_spec (m : Bytes) {space : Nat} (low : footerSize ≤ address)
    (inRange : address + space < uintWidth) (large : headerSize ≤ space) :
    Bytes.OnlyIn (address - footerSize) (address + space) m (makeSpace m address space) ∧
      (headerSize + footerSize ≤ space → space < sizeWidth →
        HoleFrom (makeSpace m address space) address space ∧
          Bytes.OnlyIn address (address + space) m (makeSpace m address space)) := by
  have less : space % sizeWidth ≤ space := Nat.mod_le ..
  have bit : mmFlagHole < 2 := by decide
  have value (small : address < uintWidth) : address % 4294967296 = address :=
    Nat.mod_eq_of_lt small
  unfold makeSpace
  dsimp only
  rw [sizeAt_setFlag bit, sizeAt_setSize, cut_footer low inRange]
  unfold headerSize footerSize at *
  constructor
  · unfold setMagic setHeader setSize setFlag
    apply_rules [Bytes.OnlyIn.store, Bytes.OnlyIn.refl] <;> omega
  · intro enough small
    rw [Nat.mod_eq_of_lt small]
    refine ⟨⟨?_, ?_, ?_, ?_, ?_⟩, ?_⟩
    · unfold magicAt
      simp (disch := omega) only [setMagic, setHeader, Bytes.word_store_of_apart,
        Bytes.word_store_self]
      rfl
    · unfold sizeAt
      simp (disch := omega) only [setMagic, setHeader, Bytes.word_store_of_apart]
      exact (sizeAt_setFlag bit).trans sizeAt_setSize
    · unfold flagAt
      simp (disch := omega) only [setMagic, setHeader, Bytes.word_store_of_apart]
      exact flagAt_setFlag bit
    · unfold magicAt footerSize
      simp (disch := omega) only [setMagic, setHeader, Bytes.word_store_of_apart,
        Bytes.word_store_self]
      rfl
    · unfold headerAt footerSize
      simp (disch := omega) only [setHeader, Bytes.word_store_self]
      exact value (by omega)
    · unfold setMagic setHeader setSize setFlag
      apply_rules [Bytes.OnlyIn.store, Bytes.OnlyIn.refl] <;> omega

/-- How much the heap grows. -/
def newPart (k : KernelHeap) (size : Nat) : Nat := k.grownSize size - k.heap.size

/-- The heap with a new end. -/
def expanded (k : KernelHeap) (paging : Paging) (stop : Nat) : KernelHeap :=
  { k with paging, heap := { k.heap with end_ := stop } }

/-- The new end of the heap. -/
theorem CanGrow.ends (can : k.CanGrow size) (wf : k.WellFormed blocks) :
    k.heap.size = k.heap.end_ - k.heap.start ∧ k.heap.start ≤ k.heap.end_ ∧
      k.heap.start + k.grownSize size = k.heap.end_ + k.newPart size ∧
      size + (headerSize + footerSize) ≤ k.newPart size ∧
      k.heap.end_ + k.newPart size < uintWidth := by
  obtain ⟨whole, fits, memend, _⟩ := can
  have inRange := wf.inRange
  have ends := wf.tiles.stop_eq
  have size_eq : k.heap.size = k.heap.end_ - k.heap.start := usub_of_le (by omega) inRange
  unfold newPart
  omega

/-- What the heap has grown by is added to the hole with the highest address. -/
theorem giveSpace_of_some (k : KernelHeap) (oldsize oldend : Nat)
    (found : k.highestHole = some i) : k.giveSpace oldsize oldend =
      k.setMemory (addSpace k.memory (k.entry i) (usub k.heap.size oldsize)) := by
  unfold giveSpace addSpace
  rw [found]

/-- What the heap has grown by becomes a hole when there is none. -/
theorem giveSpace_of_none (k : KernelHeap) (oldsize oldend : Nat)
    (found : k.highestHole = none) : k.giveSpace oldsize oldend =
      (k.setMemory (makeSpace k.memory oldend (usub k.heap.size oldsize))).heapAddEntry oldend := by
  unfold giveSpace makeSpace
  rw [found]

/-- The heap has grown, and what it has grown by is offered. -/
theorem grow_eq (wf : k.WellFormed blocks) (can : k.CanGrow size) :
    ∃ paging, ∀ kmallocPa, k.grow kmallocPa (uadd size (headerSize + footerSize)) =
      some ((k.expanded paging (k.heap.end_ + k.newPart size)).giveSpace k.heap.size
        k.heap.end_) ∧
      usub (k.expanded paging (k.heap.end_ + k.newPart size)).heap.size k.heap.size =
        k.newPart size := by
  obtain ⟨size_eq, low, stop, _, inRange⟩ := can.ends wf
  obtain ⟨paging, expands⟩ := expandHeap_eq can
  rw [stop] at expands
  refine ⟨paging, fun kmallocPa => ⟨?_, ?_⟩⟩
  · unfold grow
    rw [expands]
    rfl
  · have grown : (k.expanded paging (k.heap.end_ + k.newPart size)).heap.size =
        k.heap.end_ + k.newPart size - k.heap.start :=
      usub_of_le (show k.heap.start ≤ k.heap.end_ + k.newPart size by omega) inRange
    rw [grown, usub_of_le (by omega) (by omega)]
    omega

/-- The heap after it has grown and what it has grown by has been offered. -/
def offered (k : KernelHeap) (paging : Paging) (size : Nat) : KernelHeap :=
  (k.expanded paging (k.heap.end_ + k.newPart size)).giveSpace k.heap.size k.heap.end_

/-- There is no hole among blocks in use. -/
theorem holes_of_inUse {start : Nat} (inUse : ∀ other ∈ right, other.hole = false) :
    holes start right = [] := by
  refine List.eq_nil_iff_forall_not_mem.mpr fun entry member => ?_
  obtain ⟨other, isHole, place⟩ := mem_holes.mp member
  obtain ⟨before, after, rfl, _⟩ := mem_places.mp place
  rw [inUse other (List.mem_append_right _ List.mem_cons_self)] at isHole
  exact absurd isHole (by decide)

/-- The entries when nothing but blocks in use is behind a hole. -/
theorem WellFormed.listed_of_last (wf : k.WellFormed (left ++ hole :: right))
    (isHole : hole.hole = true) (inUse : ∀ other ∈ right, other.hole = false) {entry : Nat}
    (listed : entry ∈ k.index) :
    entry = k.heap.start + total Block.size left ∨ entry ∈ holes k.heap.start left := by
  have member := (holes_middle isHole k.heap.start).mem_iff.mp (wf.index.mem_iff.mp listed)
  rw [holes_of_inUse inUse, List.append_nil] at member
  exact List.mem_cons.mp member

/-- A hole with nothing but blocks in use behind it has the highest address. -/
theorem WellFormed.highestHole_eq (wf : k.WellFormed (left ++ hole :: right))
    (isHole : hole.hole = true) (inUse : ∀ other ∈ right, other.hole = false) :
    ∃ i < k.heap.entrycount, k.highestHole = some i ∧
      k.entry i = k.heap.start + total Block.size left := by
  have low := wf.frameSize_le
  have page : 0 < frameSize := by decide
  obtain ⟨first, _⟩ := tiles_append.mp wf.tiles
  have listed (j : Nat) (inside : j < k.heap.entrycount) : k.entry j ∈ k.index :=
    List.mem_map.mpr ⟨j, List.mem_range.mpr inside, rfl⟩
  obtain ⟨j, inside, here⟩ := wf.entry_of_hole isHole
  have positive (j : Nat) (inside : j < k.heap.entrycount) : 0 < k.entry j := by
    rcases wf.listed_of_last isHole inUse (listed j inside) with same | member
    · omega
    · have bounds := bounds_of_mem_holes first member
      omega
  obtain ⟨i, inside', found, highest⟩ := highestHole_of_listed positive (Nat.zero_lt_of_lt inside)
  refine ⟨i, inside', found, ?_⟩
  rcases wf.listed_of_last isHole inUse (listed i inside') with same | member
  · exact same
  · have bounds := bounds_of_mem_holes first member
    have above := highest j inside
    have some_size : 0 < headerSize + footerSize := by decide
    omega

/-- A heap with a hole offers it, with what it has grown by. -/
theorem offered_of_hole (wf : k.WellFormed (left ++ hole :: right)) (isHole : hole.hole = true)
    (inUse : ∀ other ∈ right, other.hole = false) (paging : Paging)
    (part : usub (k.expanded paging (k.heap.end_ + k.newPart size)).heap.size k.heap.size =
      k.newPart size) :
    k.offered paging size = (k.expanded paging (k.heap.end_ + k.newPart size)).setMemory
      (addSpace k.memory (k.heap.start + total Block.size left) (k.newPart size)) := by
  obtain ⟨i, _, found, entry⟩ := wf.highestHole_eq isHole inUse
  have found' : (k.expanded paging (k.heap.end_ + k.newPart size)).highestHole = some i := found
  unfold offered
  rw [giveSpace_of_some _ _ _ found', part, ← entry]
  rfl

/-- A heap without a hole offers what it has grown by. -/
theorem offered_of_none (wf : k.WellFormed left) (none : ∀ other ∈ left, other.hole = false)
    (paging : Paging)
    (part : usub (k.expanded paging (k.heap.end_ + k.newPart size)).heap.size k.heap.size =
      k.newPart size) :
    k.offered paging size = ((k.expanded paging (k.heap.end_ + k.newPart size)).setMemory
      (makeSpace k.memory k.heap.end_ (k.newPart size))).heapAddEntry k.heap.end_ := by
  have empty : k.heap.entrycount = 0 := by
    rw [wf.entrycount_eq]
    exact List.countP_eq_zero.mpr fun other member => by rw [none other member]; decide
  have found : (k.expanded paging (k.heap.end_ + k.newPart size)).highestHole = .none :=
    highestHole_of_empty empty
  unfold offered
  rw [giveSpace_of_none _ _ _ found, part]
  rfl

/-- The index does not change with the end of the heap. -/
theorem index_expanded (same : Bytes.Same (k.slot 0) (k.slot k.heap.entrycount) k.memory m)
    (paging : Paging) (stop : Nat) : ((k.expanded paging stop).setMemory m).index = k.index :=
  index_setMemory same

/-- The slots in use end before the footer in front of the last hole. -/
theorem WellFormed.slot_last (wf : k.WellFormed (left ++ right))
    (few : right.countP Block.hole ≤ 1) :
    k.slot k.heap.entrycount + footerSize ≤ k.heap.start + total Block.size left := by
  have layout := wf.layout
  have capacity := wf.capacity
  have count := wf.entrycount_eq
  rw [List.countP_append] at count
  rw [wf.slots] at capacity layout
  have slots : mmIndexCount = 2048 := rfl
  unfold slot at *
  unfold footerSize
  cases left with
  | nil =>
    rw [List.countP_nil] at count
    omega
  | cons b left =>
    have large := b.large
    unfold headerSize footerSize at large
    rw [total]
    omega

/-- A heap with a hole has offered it, with what it has grown by. -/
theorem offered_hole (wf : k.WellFormed (left ++ hole :: right)) (isHole : hole.hole = true)
    (inUse : ∀ other ∈ right, other.hole = false) (can : k.CanGrow size) (paging : Paging)
    (part : usub (k.expanded paging (k.heap.end_ + k.newPart size)).heap.size k.heap.size =
      k.newPart size) :
    Offered k (k.offered paging size) left (k.heap.end_ + k.newPart size) := by
  obtain ⟨_, _, _, _, inRange⟩ := can.ends wf
  have below := wf.block_le
  have low := wf.frameSize_le
  have page : footerSize ≤ frameSize := by decide
  have large := hole.large
  have count : (hole :: right).countP Block.hole ≤ 1 := by
    rw [List.countP_cons_of_pos isHole, List.countP_eq_zero.mpr]
    exact fun other member => by rw [inUse other member]; decide
  have slots := wf.slot_last count
  have tagged := wf.tagged
  obtain ⟨only, _⟩ := addSpace_spec (show footerSize ≤ _ by omega)
    (show k.heap.start + total Block.size left + (hole.size + k.newPart size) < _ by omega)
    (by omega) tagged.magic (tagged.flag.trans (if_pos isHole)) tagged.size
  rw [offered_of_hole wf isHole inUse paging part]
  constructor
  · rfl
  · exact wf.capacity
  · intro entry listed
    apply wf.listed_of_last isHole inUse
    rwa [index_expanded (only.same (.inl (show k.slot k.heap.entrycount ≤ _ by omega)))]
      at listed
  · exact only.same (.inl (Nat.le_refl _))

/-- The only entry of an index. -/
theorem index_heapAddEntry_of_empty (empty : k.index = []) (small : address < uintWidth) :
    (k.heapAddEntry address).index = [address] := by
  rw [(k.heapAddEntry_indexed small).index, empty]
  rfl

/-- What a heap without a hole looks like when it has made a hole of what it has grown by. -/
theorem offered_none_spec (wf : k.WellFormed left) (none : ∀ other ∈ left, other.hole = false)
    (can : k.CanGrow size) (paging : Paging)
    (part : usub (k.expanded paging (k.heap.end_ + k.newPart size)).heap.size k.heap.size =
      k.newPart size) :
    (k.offered paging size).heap =
        { k.heap with end_ := k.heap.end_ + k.newPart size, entrycount := 1 } ∧
      (k.offered paging size).index = [k.heap.end_] ∧
      ∀ stop, Bytes.Same k.heap.start stop (makeSpace k.memory k.heap.end_ (k.newPart size))
        (k.offered paging size).memory := by
  obtain ⟨_, _, _, enough, inRange⟩ := can.ends wf
  have ends := wf.tiles.stop_eq
  have low := wf.frameSize_le
  have page : footerSize ≤ frameSize := by decide
  have wf' : k.WellFormed (left ++ []) := by rwa [List.append_nil]
  have slots := wf'.slot_last (Nat.zero_le 1)
  have empty : k.heap.entrycount = 0 := by
    rw [wf.entrycount_eq]
    exact List.countP_eq_zero.mpr fun other member => by rw [none other member]; decide
  have unlisted : k.index = [] := List.eq_nil_of_length_eq_zero (by rw [length_index, empty])
  have first : k.slot (k.heap.entrycount + 1) ≤ k.heap.start := by
    apply wf.slot_le
    rw [empty, wf.slots]
    decide
  obtain ⟨only, _⟩ := makeSpace_spec k.memory (show footerSize ≤ k.heap.end_ by omega) inRange
    (show headerSize ≤ k.newPart size by omega)
  rw [offered_of_none wf none paging part]
  generalize grown : (k.expanded paging (k.heap.end_ + k.newPart size)).setMemory
    (makeSpace k.memory k.heap.end_ (k.newPart size)) = offer
  have heap : offer.heap = { k.heap with end_ := k.heap.end_ + k.newPart size } := by
    rw [← grown]
    rfl
  have memory : offer.memory = makeSpace k.memory k.heap.end_ (k.newPart size) := by
    rw [← grown]
    rfl
  refine ⟨?_, ?_, fun stop => ?_⟩
  · rw [heapAddEntry_heap, heap]
    exact congrArg (fun entrycount =>
      { k.heap with end_ := k.heap.end_ + k.newPart size, entrycount := entrycount + 1 }) empty
  · apply index_heapAddEntry_of_empty _ wf.inRange
    rw [← grown, index_expanded (only.same (.inl (by omega))), unlisted]
  · rw [← memory]
    apply offer.heapAddEntry_same _ wf.inRange
    unfold slot at *
    rw [heap]
    exact first

/-- A heap without a hole has offered what it has grown by. -/
theorem offered_none (wf : k.WellFormed left) (none : ∀ other ∈ left, other.hole = false)
    (can : k.CanGrow size) (paging : Paging)
    (part : usub (k.expanded paging (k.heap.end_ + k.newPart size)).heap.size k.heap.size =
      k.newPart size) :
    Offered k (k.offered paging size) left (k.heap.end_ + k.newPart size) := by
  obtain ⟨_, _, _, enough, inRange⟩ := can.ends wf
  have ends := wf.tiles.stop_eq
  have low := wf.frameSize_le
  have page : footerSize ≤ frameSize := by decide
  obtain ⟨only, _⟩ := makeSpace_spec k.memory (show footerSize ≤ k.heap.end_ by omega) inRange
    (show headerSize ≤ k.newPart size by omega)
  obtain ⟨heap, index, memory⟩ := offered_none_spec wf none can paging part
  constructor
  · rw [heap]
  · rw [heap, wf.slots]
    show 1 ≤ mmIndexCount
    decide
  · intro entry listed
    rw [index] at listed
    rw [← ends]
    exact .inl (List.mem_singleton.mp listed)
  · rw [← ends]
    exact (only.same (.inl (Nat.le_refl _))).trans (memory _)

/-- The heap is as it should be when the space that is offered looks like a hole. -/
theorem Offered.wellFormed (offer : Offered k k' left stop) (wf : k.WellFormed (left ++ right))
    (isHole : hole.hole = true)
    (tagged : Tagged k'.memory (k.heap.start + total Block.size left) hole)
    (low : Bytes.Same k.heap.start (k.heap.start + total Block.size left) k.memory k'.memory)
    (ends : k.heap.start + total Block.size left + hole.size = stop) (inRange : stop < uintWidth)
    (index : k'.index.Perm (holes k.heap.start left ++ [k.heap.start + total Block.size left])) :
    k'.WellFormed (left ++ [hole]) := by
  have heap := offer.heap
  obtain ⟨first, _⟩ := tiles_append.mp wf.tiles
  have start : k'.heap.start = k.heap.start := by rw [heap]
  constructor
  · rw [heap]
    exact tiles_append.mpr ⟨tiles_same first low, tagged, ends⟩
  · rw [start, holes_append, holes_cons_of_hole isHole]
    exact index
  · have few := offer.few
    rw [heap]
    exact few
  · rw [heap]
    exact wf.slots
  · unfold slot
    rw [heap]
    exact wf.layout
  · rw [heap]
    exact inRange

/-- The blocks of a heap that offers its last hole, if it has one, with what it has grown by. -/
structure OffersTail (left tail : List Block) : Prop where
  hole : AtMostAHole tail
  alone : tail = [] → ∀ other ∈ left, other.hole = false

/-- The heap is as it should be after it has grown, if the last hole was its end or there was
none, and together with what the heap has grown by it is not too large. -/
theorem offered_wellFormed {tail : List Block} (wf : k.WellFormed (left ++ tail))
    (offers : OffersTail left tail) (can : k.CanGrow size)
    (fits : total Block.size tail + k.newPart size < sizeWidth) (paging : Paging)
    (part : usub (k.expanded paging (k.heap.end_ + k.newPart size)).heap.size k.heap.size =
      k.newPart size) :
    ∃ hole : Block, hole.hole = true ∧ hole.size = total Block.size tail + k.newPart size ∧
      (k.offered paging size).WellFormed (left ++ [hole]) ∧
      Offered k (k.offered paging size) left (k.heap.end_ + k.newPart size) ∧
      Bytes.Same k.heap.start (k.heap.start + total Block.size left) k.memory
        (k.offered paging size).memory := by
  obtain ⟨_, _, _, enough, inRange⟩ := can.ends wf
  have ends := wf.tiles.stop_eq
  rw [total_append] at ends
  have low := wf.frameSize_le
  have page : footerSize ≤ frameSize := by decide
  let hole := Block.free (total Block.size tail + k.newPart size) (by omega) fits
  have size_eq : hole.size = total Block.size tail + k.newPart size := rfl
  refine ⟨hole, rfl, rfl, ?_⟩
  rcases offers.hole with rfl | ⟨last, rfl, isHole⟩
  · have wf' : k.WellFormed left := by rwa [List.append_nil] at wf
    have none := offers.alone rfl
    have offer := offered_none wf' none can paging part
    have same : total Block.size left + total Block.size ([] : List Block) =
      total Block.size left := Nat.add_zero _
    have size_eq' : hole.size = k.newPart size := Nat.zero_add _
    rw [same] at ends
    obtain ⟨_, nice⟩ := makeSpace_spec k.memory (show footerSize ≤ k.heap.end_ by omega) inRange
      (show headerSize ≤ k.newPart size by omega)
    obtain ⟨looks, only⟩ := nice (by omega) (by omega)
    obtain ⟨heap, index, memory⟩ := offered_none_spec wf' none can paging part
    have same : Bytes.Same k.heap.start (k.heap.start + total Block.size left) k.memory
        (k.offered paging size).memory := by
      rw [← ends]
      exact (only.same (.inl (Nat.le_refl _))).trans (memory _)
    refine ⟨?_, offer, same⟩
    apply offer.wellFormed wf rfl _ same (by omega) inRange
    · rw [index, holes_of_inUse none, ← ends]
      exact .refl _
    · rw [← ends]
      rw [← size_eq'] at looks memory
      have tagged := looks.tagged rfl
      exact tagged.same_of_bytes ((memory _).mono (by omega) (Nat.le_refl _))
  · have single : total Block.size [last] = last.size := rfl
    have inUse : ∀ other ∈ ([] : List Block), other.hole = false := fun _ none => by cases none
    have offer := offered_hole wf isHole inUse can paging part
    have tagged := wf.tagged
    have large := last.large
    rw [single] at ends size_eq
    obtain ⟨_, nice⟩ := addSpace_spec (show footerSize ≤ _ by omega)
      (show k.heap.start + total Block.size left + (last.size + k.newPart size) < _ by omega)
      (by omega) tagged.magic (tagged.flag.trans (if_pos isHole)) tagged.size
    obtain ⟨looks, only⟩ := nice (by omega) (by omega)
    have slots := wf.slot_le wf.capacity
    have index : (k.offered paging size).index = k.index := by
      rw [offered_of_hole wf isHole inUse paging part]
      exact index_expanded (only.same (.inl (by omega))) ..
    have memory : (k.offered paging size).memory = addSpace k.memory
        (k.heap.start + total Block.size left) (k.newPart size) := by
      rw [offered_of_hole wf isHole inUse paging part]
      rfl
    have same : Bytes.Same k.heap.start (k.heap.start + total Block.size left) k.memory
        (k.offered paging size).memory := by
      rw [memory]
      exact only.same (.inl (Nat.le_refl _))
    refine ⟨?_, offer, same⟩
    apply offer.wellFormed wf rfl _ same (by omega) inRange
    · rw [index]
      have entries := wf.index
      rwa [holes_append, holes_cons_of_hole isHole] at entries
    · rw [memory]
      exact looks.tagged rfl

/-! ## The block that is allocated -/

/-- A block has been allocated in a heap that has grown to a new end. The live blocks are those
from before and this one, whose payload is the result, and none of those from before has
changed. -/
structure Extended (k k' : KernelHeap) (blocks blocks' : List Block) (size result stop : Nat) :
    Prop where
  wellFormed : k'.WellFormed blocks'
  start : k'.heap.start = k.heap.start
  end_ : k'.heap.end_ = stop
  allocated : ∃ address b, result = address + headerSize ∧ b.hole = false ∧
    size + (headerSize + footerSize) ≤ b.size ∧
    (live k.heap.start blocks').Perm ((address, b) :: live k.heap.start blocks)
  others : ∀ place ∈ live k.heap.start blocks,
    Bytes.Same place.1 (place.1 + place.2.size) k.memory k'.memory

/-- No hole is large enough. -/
def NoneLarge (blocks : List Block) (size : Nat) : Prop :=
  ∀ other ∈ blocks, other.hole = true → other.size < size + (headerSize + footerSize)

/-- No hole is found when none is large enough. -/
theorem WellFormed.findSmallestHole_eq_none (wf : k.WellFormed blocks)
    (none : NoneLarge blocks size) :
    k.findSmallestHole (size + (headerSize + footerSize)) false = .none := by
  refine findSmallestHole_none.mpr fun entry member suits => ?_
  obtain ⟨i, inside, rfl⟩ := List.mem_map.mp member
  obtain ⟨before, other, after, rfl, isHole, entry⟩ := wf.hole_of_entry (List.mem_range.mp inside)
  rw [suits_iff, entry, wf.tagged.size] at suits
  exact absurd (none other (List.mem_append_right _ List.mem_cons_self) isHole)
    (Nat.not_lt.mpr suits)

/-- `heap_malloc` when no hole is large enough and the heap can grow. -/
theorem heapMalloc_grows (wf : k.WellFormed blocks) (none : NoneLarge blocks size)
    (positive : 1 ≤ size) (can : k.CanGrow size) :
    ∃ paging, usub (k.expanded paging (k.heap.end_ + k.newPart size)).heap.size k.heap.size =
        k.newPart size ∧ ∀ depth, heapMalloc (depth + 1) size false k =
      heapMalloc depth size false (k.offered paging size) := by
  obtain ⟨_, _, _, enough, inRange⟩ := can.ends wf
  obtain ⟨paging, grows⟩ := grow_eq wf can
  refine ⟨paging, (grows fun _ => .none).2, fun depth => ?_⟩
  have newsize : uadd size (headerSize + footerSize) = size + (headerSize + footerSize) :=
    uadd_of_lt (by omega)
  have nonzero : size ≠ 0 := Nat.ne_of_gt positive
  have found := wf.findSmallestHole_eq_none none
  rw [heapMalloc, newsize, if_neg nonzero, found]
  have grown := (grows (kmallocBase (heapMalloc depth) pageTableSize true)).1
  rw [newsize] at grown
  dsimp only
  rw [grown]
  rfl

/-- The last hole is found when it is large enough and no other one is. -/
theorem WellFormed.findSmallestHole_last (wf : k.WellFormed (left ++ [hole]))
    (isHole : hole.hole = true) (none : NoneLarge left size)
    (enough : size + (headerSize + footerSize) ≤ hole.size) :
    ∃ i < k.heap.entrycount, k.entry i = k.heap.start + total Block.size left ∧
      k.findSmallestHole (size + (headerSize + footerSize)) false = some i := by
  obtain ⟨j, inside, entry⟩ := wf.entry_of_hole isHole
  cases found : k.findSmallestHole (size + (headerSize + footerSize)) false with
  | none =>
    have small := findSmallestHole_none.mp found (k.entry j)
      (List.mem_map.mpr ⟨j, List.mem_range.mpr inside, rfl⟩)
    rw [suits_iff, entry, wf.tagged.size] at small
    exact absurd enough small
  | some i =>
    obtain ⟨bound, suits, _⟩ := findSmallestHole_some found
    obtain ⟨before, other, after, here, isHole', entry'⟩ := wf.hole_of_entry bound
    have wf' : k.WellFormed (before ++ other :: after) := by rwa [← here]
    rw [suits_iff, entry', wf'.tagged.size] at suits
    refine ⟨i, bound, ?_, rfl⟩
    rcases List.eq_nil_or_concat' after with rfl | ⟨after', last, rfl⟩
    · rw [entry', (List.append_inj' here rfl).1]
    · have member : other ∈ left := by
        have split : left ++ [hole] = (before ++ other :: after') ++ [last] := by
          rw [here, List.append_assoc, List.cons_append]
        rw [(List.append_inj' split rfl).1]
        exact List.mem_append_right _ List.mem_cons_self
      exact absurd (none other member isHole') (Nat.not_lt.mpr suits)

/-- There is no live block in at most a hole. -/
theorem live_of_atMostAHole {start : Nat} (few : AtMostAHole blocks) :
    live start blocks = [] := by
  rcases few with rfl | ⟨one, rfl, isHole⟩
  · rfl
  · exact live_eq_nil_iff.mpr fun other member => by rw [List.mem_singleton.mp member, isHole]

/-- The block is allocated as it should be when the last hole was the end of the heap, or there
was none. -/
theorem extended_coalesced_of_fits {tail : List Block} (wf : k.WellFormed (left ++ tail))
    (offers : OffersTail left tail) (none : NoneLarge (left ++ tail) size) (positive : 1 ≤ size)
    (can : k.CanGrow size) (fits : total Block.size tail + k.newPart size < sizeWidth) :
    ∃ k' result blocks', (∀ depth, heapMalloc (depth + 2) size false k = some (k', result)) ∧
      Extended k k' (left ++ tail) blocks' size result (k.heap.end_ + k.newPart size) ∧
      (Coalesced (left ++ tail) → Coalesced blocks') := by
  obtain ⟨_, _, _, enough, inRange⟩ := can.ends wf
  obtain ⟨paging, part, grows⟩ := heapMalloc_grows wf none positive can
  obtain ⟨hole, isHole, size_eq, wf', offer, same⟩ :=
    offered_wellFormed wf offers can fits paging part
  have none' : NoneLarge left size := fun other member =>
    none other (List.mem_append_left _ member)
  obtain ⟨i, inside, entry, found⟩ :=
    wf'.findSmallestHole_last isHole none' (by omega)
  have wf₁ : (k.offered paging size).WellFormed (left ++ [hole] ++ []) := by
    rwa [List.append_nil]
  obtain ⟨b, rest, allocated, _⟩ := carve_allocated wf₁ isHole inside entry
    (show size + (headerSize + footerSize) ≤ hole.size by omega)
  have start : (k.offered paging size).heap.start = k.heap.start := by rw [offer.heap]
  have end_ : (k.offered paging size).heap.end_ = k.heap.end_ + k.newPart size := by
    rw [offer.heap]
  refine ⟨_, ((k.offered paging size).carve size (size + (headerSize + footerSize)) false i).2, _,
    fun depth => ?_, ⟨allocated.wellFormed, ?_, ?_, ?_, ?_⟩, fun coalesced => ?_⟩
  · have newsize : uadd size (headerSize + footerSize) = size + (headerSize + footerSize) :=
      uadd_of_lt (by omega)
    have nonzero : size ≠ 0 := Nat.ne_of_gt positive
    rw [grows, heapMalloc, newsize, if_neg nonzero, found]
  · rw [allocated.start, start]
  · rw [allocated.end_, end_]
  · refine ⟨k.heap.start + total Block.size left, b, ?_, allocated.block, allocated.enough, ?_⟩
    · rw [allocated.result, List.append_nil, start]
    · rw [List.append_nil, List.nil_append, live_append, live_append,
        live_cons_of_block allocated.block, live_of_atMostAHole allocated.behind,
        live_of_atMostAHole offers.hole, List.append_nil]
      exact List.perm_append_singleton _ _
  · intro place member
    rw [live_append, live_of_atMostAHole offers.hole, List.append_nil] at member
    obtain ⟨first, _⟩ := tiles_append.mp wf.tiles
    obtain ⟨low, high⟩ := first.bounds (mem_live.mp (show (place.1, place.2) ∈ _ from member)).1
    have low' := allocated.low
    rw [start] at low'
    exact (same.mono low high).trans (low'.mono low high)
  · exact coalesced_placed (List.isChain_append.mp coalesced).1 .nil
      (fun _ member => absurd member (Option.not_mem_none _)) allocated.block allocated.behind

/-- The block is allocated as it should be in any case. -/
theorem extended_of_fits {tail : List Block} (wf : k.WellFormed (left ++ tail))
    (offers : OffersTail left tail) (none : NoneLarge (left ++ tail) size) (positive : 1 ≤ size)
    (can : k.CanGrow size) (fits : total Block.size tail + k.newPart size < sizeWidth) :
    ∃ k' result blocks', (∀ depth, heapMalloc (depth + 2) size false k = some (k', result)) ∧
      Extended k k' (left ++ tail) blocks' size result (k.heap.end_ + k.newPart size) := by
  obtain ⟨k', result, blocks', served, extended, _⟩ :=
    extended_coalesced_of_fits wf offers none positive can fits
  exact ⟨k', result, blocks', served, extended⟩

/-! ## When the space cannot be used -/

/-- Of two blocks at different addresses, the first one ends before the other. -/
theorem places_apart {start place place' : Nat} {other : Block}
    (first : (place, b) ∈ places Block.size start blocks)
    (second : (place', other) ∈ places Block.size start blocks) (before : place < place') :
    place + b.size ≤ place' := by
  induction blocks generalizing start with
  | nil => cases first
  | cons one blocks ih =>
    have above {a : Nat} {c : Block}
        (member : (a, c) ∈ places Block.size (start + one.size) blocks) :
        start + one.size ≤ a := by
      obtain ⟨_, _, _, same⟩ := mem_places.mp member
      omega
    rcases List.mem_cons.mp first with same | first
    · cases same
      rcases List.mem_cons.mp second with same | second
      · cases same
        exact absurd before (Nat.lt_irrefl _)
      · exact above second
    · rcases List.mem_cons.mp second with same | second
      · cases same
        have after := above first
        omega
      · exact ih first second

/-- What `heap_malloc` does with a hole when the payload may begin anywhere. -/
theorem carve_unaligned (k : KernelHeap) {whole : Nat} (entry : k.entry i = address)
    (found : sizeAt k.memory address = whole)
    (enough : size + (headerSize + footerSize) ≤ whole) (small : whole < uintWidth) :
    ∃ size' newsize', newsize' = size' + (headerSize + footerSize) ∧
      (newsize' = whole ∨ newsize' + (headerSize + footerSize) ≤ whole) ∧
      k.carve size (size + (headerSize + footerSize)) false i =
        ((k.heapDelEntry (some i)).place address whole size' newsize',
          uadd address headerSize) := by
  have payload := payload_eq (show headerSize + footerSize ≤ whole by omega) small
  have unaligned : ¬(false = true ∧ frameSize ≤ address) := fun both => Bool.false_ne_true both.1
  unfold carve
  dsimp only
  rw [entry, found, payload, if_neg unaligned]
  by_cases tight : whole - (headerSize + footerSize) < size + (headerSize + footerSize)
  · rw [if_pos tight, if_pos tight]
    refine ⟨_, _, ?_, .inl rfl, rfl⟩
    rw [usub_of_le enough small, uadd_of_lt (by omega)]
    omega
  · rw [if_neg tight, if_neg tight]
    exact ⟨_, _, rfl, .inr (by omega), rfl⟩

/-- The block is put at the beginning of the space that is offered. -/
theorem Offered.carved {result : Nat} (offer : Offered k k' left stop)
    (wf : k.WellFormed (left ++ right)) (none : NoneLarge left size) (positive : 1 ≤ size)
    (small : size + (headerSize + footerSize) < uintWidth) {k₂ : KernelHeap}
    (served : heapMalloc 1 size false k' = some (k₂, result)) :
    ∃ i < k'.heap.entrycount, k'.entry i = k.heap.start + total Block.size left ∧
      size + (headerSize + footerSize) ≤
        sizeAt k'.memory (k.heap.start + total Block.size left) ∧
      k'.carve size (size + (headerSize + footerSize)) false i = (k₂, result) := by
  have newsize : uadd size (headerSize + footerSize) = size + (headerSize + footerSize) :=
    uadd_of_lt small
  have nonzero : size ≠ 0 := Nat.ne_of_gt positive
  rw [heapMalloc, newsize, if_neg nonzero] at served
  cases found : k'.findSmallestHole (size + (headerSize + footerSize)) false with
  | none =>
    rw [found] at served
    dsimp only at served
    obtain ⟨_, _, none⟩ := Option.bind_eq_some_iff.mp served
    cases none
  | some i =>
    rw [found] at served
    obtain ⟨inside, suits, _⟩ := findSmallestHole_some found
    rw [suits_iff] at suits
    have listed : k'.entry i ∈ k'.index := List.mem_map.mpr ⟨i, List.mem_range.mpr inside, rfl⟩
    have here : k'.entry i = k.heap.start + total Block.size left := by
      refine (offer.listed _ listed).resolve_right fun member => ?_
      obtain ⟨first, _⟩ := tiles_append.mp wf.tiles
      obtain ⟨other, isHole, place⟩ := mem_holes.mp member
      obtain ⟨before, after, rfl, address⟩ := mem_places.mp place
      have bounds := bounds_of_mem_holes first member
      have tagged := (tiles_middle.mp first).2.1
      rw [← address] at tagged
      have low := offer.low.mono bounds.1
        (show k'.entry i + headerSize ≤ _ by unfold headerSize footerSize at *; omega)
      rw [sizeAt_same low, tagged.size] at suits
      exact absurd (none other (List.mem_append_right _ List.mem_cons_self) isHole)
        (Nat.not_lt.mpr suits)
    rw [here] at suits
    exact ⟨i, inside, here, suits, Option.some.inj served⟩

/-- The block would lie over the one behind the hole. -/
theorem not_extended_of_behind {x : Block} {result : Nat} (inUse : x.hole = false)
    (less : hole.size < size + (headerSize + footerSize))
    (place : result = k.heap.start + total Block.size left + headerSize)
    (extended : Extended k k' (left ++ hole :: x :: right) blocks' size result stop) : False := by
  obtain ⟨address, b, here, block, enough, live_eq⟩ := extended.allocated
  have same : address = k.heap.start + total Block.size left := by omega
  have old : (k.heap.start + total Block.size left + hole.size, x) ∈
      live k.heap.start (left ++ hole :: x :: right) := by
    refine mem_live.mpr ⟨mem_places.mpr ⟨left ++ [hole], right, ?_, ?_⟩, inUse⟩
    · rw [List.append_assoc]
      rfl
    · rw [total_append, Nat.add_assoc]
      rfl
  have new := (mem_live.mp (live_eq.mem_iff.mpr List.mem_cons_self)).1
  have kept := (mem_live.mp (live_eq.mem_iff.mpr (List.mem_cons_of_mem _ old))).1
  have large := hole.large
  have some_size : 0 < headerSize + footerSize := by decide
  have apart := places_apart new kept (by omega)
  omega

/-- A block has been put at the beginning of the space, with a hole in the rest of what the header
tells of it. -/
theorem Offered.placed (offer : Offered k k' left stop) (wf : k.WellFormed (left ++ right))
    (inside : i < k'.heap.entrycount)
    (entry : k'.entry i = k.heap.start + total Block.size left) {whole : Nat}
    (found : sizeAt k'.memory (k.heap.start + total Block.size left) = whole)
    (enough : size + (headerSize + footerSize) ≤ whole) (inRange : stop < uintWidth)
    (fits : k.heap.start + total Block.size left + whole ≤ stop) :
    ∃ b rest, Placed (k'.heapDelEntry (some i))
      (k'.carve size (size + (headerSize + footerSize)) false i).1
      (k.heap.start + total Block.size left) (k.heap.start + total Block.size left + whole) b
      rest := by
  have small : whole < sizeWidth := by
    rw [← found]
    exact sizeAt_lt ..
  have widths : sizeWidth < uintWidth := by decide
  have heap : (k'.heapDelEntry (some i)).heap =
      { k.heap with end_ := stop, entrycount := k'.heap.entrycount - 1 } := by
    rw [heapDelEntry_heap, if_neg (Option.some_ne_none i), offer.heap]
  have start' : (k'.heapDelEntry (some i)).heap.start = k.heap.start := by rw [heap]
  have end' : (k'.heapDelEntry (some i)).heap.end_ = stop := by rw [heap]
  have count' : (k'.heapDelEntry (some i)).heap.entrycount = k'.heap.entrycount - 1 := by rw [heap]
  have room (j : Nat) (within : j ≤ k'.heap.entrycount) :
      (k'.heapDelEntry (some i)).slot j ≤ (k'.heapDelEntry (some i)).heap.start := by
    unfold slot
    rw [heap]
    exact wf.slot_le (Nat.le_trans within offer.few)
  obtain ⟨size', newsize', sizes, split, carved⟩ :=
    k'.carve_unaligned entry found enough (by omega)
  rw [carved]
  let b := Block.inUse newsize' (by omega) (by omega)
  have size_b : b.size = newsize' := rfl
  have low : (k'.heapDelEntry (some i)).heap.start ≤ k.heap.start + total Block.size left := by
    rw [start']
    exact Nat.le_add_right ..
  have high : k.heap.start + total Block.size left + whole ≤
      (k'.heapDelEntry (some i)).heap.end_ := by rwa [end']
  rw [← end'] at inRange
  rcases split with same | more
  · refine ⟨b, [], ?_⟩
    rw [← same, ← size_b] at high ⊢
    apply place_whole rfl sizes low high inRange
    rw [count']
    exact room _ (Nat.sub_le ..)
  · let rest := Block.free (whole - newsize') (by omega) (by omega)
    have size_rest : rest.size = whole - newsize' := rfl
    have sum : whole = b.size + rest.size := by omega
    refine ⟨b, [rest], ?_⟩
    rw [sum] at high ⊢
    rw [← size_b]
    apply place_split rfl rfl sizes low high inRange
    rw [count']
    exact room _ (by omega)

/-- The space is larger than a hole can be, so that there would be nothing behind what the header
tells of it. -/
theorem not_extended_of_large {tail : List Block} {result : Nat} {k₂ : KernelHeap}
    (wf : k.WellFormed (left ++ tail)) (few : AtMostAHole tail)
    (offer : Offered k k' left stop) (inside : i < k'.heap.entrycount)
    (entry : k'.entry i = k.heap.start + total Block.size left)
    (enough : size + (headerSize + footerSize) ≤
      sizeAt k'.memory (k.heap.start + total Block.size left))
    (carved : k'.carve size (size + (headerSize + footerSize)) false i = (k₂, result))
    (inRange : stop < uintWidth)
    (large : k.heap.start + total Block.size left + sizeWidth ≤ stop)
    (extended : Extended k k₂ (left ++ tail) blocks' size result stop) : False := by
  have small := sizeAt_lt k'.memory (k.heap.start + total Block.size left)
  generalize found : sizeAt k'.memory (k.heap.start + total Block.size left) = whole
    at enough small
  have some_size : 0 < headerSize + footerSize := by decide
  have widths : sizeWidth < uintWidth := by decide
  have here : k.heap.start + total Block.size left + headerSize = result := by
    obtain ⟨_, _, _, _, carved'⟩ := k'.carve_unaligned entry found enough (by omega)
    have address := congrArg Prod.snd (carved'.symm.trans carved)
    dsimp only at address
    rwa [uadd_of_lt (by omega)] at address
  obtain ⟨b, rest, placed⟩ := offer.placed wf inside entry found enough inRange (by omega)
  rw [carved] at placed
  have index := placed.index
  rw [(k'.heapDelEntry_indexed inside).index] at index
  obtain ⟨first, _⟩ := tiles_append.mp wf.tiles
  -- Every entry is before the end of what the header tells.
  have before (other : Nat) (listed : other ∈ k₂.index) :
      other < k.heap.start + total Block.size left + whole := by
    rcases List.mem_append.mp (index.mem_iff.mp listed) with member | member
    · have bounds := bounds_of_mem_holes placed.tiles member
      omega
    · rcases offer.listed _ (List.mem_of_mem_eraseIdx member) with same | member
      · omega
      · have bounds := bounds_of_mem_holes first member
        omega
  obtain ⟨address, b', address_eq, block, enough', live_eq⟩ := extended.allocated
  have same : address = k.heap.start + total Block.size left := by omega
  have new := (mem_live.mp (live_eq.mem_iff.mpr List.mem_cons_self)).1
  obtain ⟨before', after', rfl, start_eq⟩ := mem_places.mp new
  have wf' := extended.wellFormed
  have tiles := (tiles_append.mp wf'.tiles).2
  rw [extended.start, extended.end_, ← start_eq, same] at tiles
  -- There is another block where that ends, which is neither listed nor was it live before.
  obtain ⟨more, split, last⟩ := placed.tiles.extends (tagged_decides _) (tagged_solid _) tiles
    (by omega)
  cases more with
  | nil =>
    have ends : k.heap.start + total Block.size left + whole = stop := last
    omega
  | cons y more =>
    have there : (k.heap.start + total Block.size left + whole, y) ∈
        places Block.size k.heap.start (before' ++ b' :: after') := by
      refine mem_places.mpr ⟨before' ++ b :: rest, more, ?_, ?_⟩
      · rw [split, List.append_assoc]
      · rw [total_append, ← Nat.add_assoc, ← start_eq, same]
        have ends := placed.tiles.stop_eq
        omega
    cases isHole : y.hole with
    | true =>
      have listed := before _ (wf'.index.mem_iff.mpr (by
        rw [extended.start]
        exact mem_holes.mpr ⟨y, isHole, there⟩))
      omega
    | false =>
      have alive := live_eq.mem_iff.mp (mem_live.mpr ⟨there, isHole⟩)
      rcases List.mem_cons.mp alive with equal | member
      · have equal' := congrArg Prod.fst equal
        dsimp only at equal'
        omega
      · rw [live_append, live_of_atMostAHole few, List.append_nil] at member
        have bounds := first.bounds (mem_live.mp member).1
        omega

/-- The last hole is the end of the heap, or there is none, and together with what the heap grows
by it is smaller than 2 GiB. -/
def CanExtend (k : KernelHeap) (blocks : List Block) (size : Nat) : Prop :=
  1 ≤ size ∧ ∃ left tail, blocks = left ++ tail ∧ OffersTail left tail ∧
    total Block.size tail + k.newPart size < sizeWidth

/-- Blocks with a hole have a last one. -/
theorem exists_last_hole (blocks : List Block) : (∀ other ∈ blocks, other.hole = false) ∨
    ∃ left hole right, blocks = left ++ hole :: right ∧ hole.hole = true ∧
      ∀ other ∈ right, other.hole = false := by
  induction blocks with
  | nil => exact .inl fun _ member => by cases member
  | cons b blocks ih =>
    rcases ih with inUse | ⟨left, hole, right, rfl, isHole, inUse⟩
    · cases isHole : b.hole with
      | true => exact .inr ⟨[], b, blocks, rfl, isHole, inUse⟩
      | false =>
        refine .inl fun other member => ?_
        rcases List.mem_cons.mp member with rfl | member
        · exact isHole
        · exact inUse other member
    · exact .inr ⟨b :: left, hole, right, rfl, isHole, inUse⟩

/-- The heap could be extended when a block has been allocated as it should be. -/
theorem canExtend_of_extended {result : Nat} (wf : k.WellFormed blocks)
    (none : NoneLarge blocks size) (can : k.CanGrow size)
    (served : heapMalloc 2 size false k = some (k', result))
    (extended : Extended k k' blocks blocks' size result (k.heap.end_ + k.newPart size)) :
    k.CanExtend blocks size := by
  obtain ⟨_, _, _, enough, inRange⟩ := can.ends wf
  have positive : 1 ≤ size := by
    by_contra none
    have zero : size = 0 := by omega
    have returned : heapMalloc 2 size false k = some (k, 0) := by
      rw [heapMalloc, if_pos zero]
    obtain ⟨address, _, here, _⟩ := extended.allocated
    have nothing := congrArg Prod.snd (Option.some.inj (returned.symm.trans served))
    have some_size : 0 < headerSize := by decide
    dsimp only at nothing
    omega
  obtain ⟨paging, part, grows⟩ := heapMalloc_grows wf none positive can
  rw [grows] at served
  refine ⟨positive, ?_⟩
  rcases exists_last_hole blocks with inUse | ⟨left, hole, right, rfl, isHole, inUse⟩
  · have wf' : k.WellFormed (blocks ++ []) := by rwa [List.append_nil]
    have ends := wf.tiles.stop_eq
    have offer := offered_none wf inUse can paging part
    obtain ⟨i, inside, entry, large, carved⟩ := offer.carved wf' none positive (by omega) served
    have nothing : total Block.size ([] : List Block) = 0 := rfl
    refine ⟨blocks, [], (List.append_nil _).symm, ⟨.inl rfl, fun _ => inUse⟩, ?_⟩
    by_contra fits
    rw [← List.append_nil blocks] at extended
    exact not_extended_of_large wf' (.inl rfl) offer inside entry large carved inRange (by omega)
      extended
  · have offer := offered_hole wf isHole inUse can paging part
    have none' : NoneLarge left size := fun other member =>
      none other (List.mem_append_left _ member)
    obtain ⟨i, inside, entry, large, carved⟩ := offer.carved wf none' positive (by omega) served
    have less := none hole (List.mem_append_right _ List.mem_cons_self) isHole
    have below := wf.block_le
    cases right with
    | nil =>
      have ends := wf.tiles.stop_eq
      have single : total Block.size [hole] = hole.size := rfl
      rw [total_append] at ends
      refine ⟨left, [hole], rfl, ⟨.inr ⟨hole, rfl, isHole⟩, fun none => by cases none⟩, ?_⟩
      by_contra fits
      exact not_extended_of_large wf (.inr ⟨hole, rfl, isHole⟩) offer inside entry large carved
        inRange (by omega) extended
    | cons x right =>
      obtain ⟨size', newsize', _, _, carved'⟩ := carve_unaligned _ entry rfl large
        (Nat.lt_trans (sizeAt_lt ..) (by decide))
      have address := congrArg Prod.snd (carved'.symm.trans carved)
      dsimp only at address
      rw [uadd_of_lt (by omega)] at address
      exact (not_extended_of_behind (inUse x List.mem_cons_self) less address.symm
        extended).elim

/-- When no hole is large enough and the heap can grow, `heap_malloc` calls itself once and
allocates a block in a heap that is as it should be, exactly if `CanExtend` holds. -/
theorem heapMalloc_grows_iff (wf : k.WellFormed blocks) (none : NoneLarge blocks size)
    (can : k.CanGrow size) :
    (∃ k' result blocks', (∀ depth, heapMalloc (depth + 2) size false k = some (k', result)) ∧
      Extended k k' blocks blocks' size result (k.heap.start + k.grownSize size)) ↔
      k.CanExtend blocks size := by
  obtain ⟨_, _, stop, _, _⟩ := can.ends wf
  rw [stop]
  constructor
  · rintro ⟨k', result, blocks', served, extended⟩
    exact canExtend_of_extended wf none can (served 0) extended
  · rintro ⟨positive, left, tail, rfl, offers, fits⟩
    exact extended_of_fits wf offers none positive can fits

/-! ## Heaps of a megabyte -/

/-- Page tables for all addresses. -/
def everyTable : Paging where
  framecount := 1024
  kernelDirectory := 1
  directory := AList.insert 1 { physTabs := fun _ => 1, tables := fun _ => 2 } ∅

/-- There is a page table. -/
theorem everyTable_tabled (address : Nat) : Tabled everyTable address := by
  unfold Tabled Paging.directoryAt everyTable
  rw [Store.lookup_insert_eq, if_pos rfl]
  exact Nat.one_ne_zero

/-- A heap with given blocks from the second megabyte on, which can grow to the fourth one. -/
def withTables (blocks : List Block) : KernelHeap :=
  ofBlocks everyTable (fun _ => 0) 0x100000 0x400000 blocks

/-- The bounds of such a heap. -/
theorem withTables_heap (blocks : List Block) :
    (withTables blocks).heap =
      { entries := 0xfe000, entrycount := (holes 0x100000 blocks).length, maxentries := mmIndexCount
        start := 0x100000, end_ := 0x100000 + total Block.size blocks, memend := 0x400000
        pageflags := kernelFlags } := by
  unfold withTables
  rw [ofBlocks_heap]
  rfl

/-- Such a heap can grow as long as there is memory. -/
theorem withTables_canGrow {blocks : List Block}
    (whole : (withTables blocks).heap.size + (size + (headerSize + footerSize)) ≤
      (withTables blocks).grownSize size)
    (fits : 0x100000 + (withTables blocks).grownSize size ≤ 0x400000) :
    (withTables blocks).CanGrow size := by
  have heap := withTables_heap blocks
  refine ⟨whole, ?_, ?_, fun address _ => ?_⟩
  · rw [heap]
    exact fits
  · rw [heap]
    show 0x400000 < uintWidth
    decide
  · unfold withTables ofBlocks
    rw [foldl_heapAddEntry_paging]
    exact everyTable_tabled address

/-- A heap of a megabyte without a hole, from which 100 bytes are allocated. -/
theorem heapMalloc_grows_iff_hundred :
    (∃ k' result blocks', (∀ depth, heapMalloc (depth + 2) 100 false (withTables [blockMin]) =
        some (k', result)) ∧
      Extended (withTables [blockMin]) k' [blockMin] blocks' 100 result
        ((withTables [blockMin]).heap.start + (withTables [blockMin]).grownSize 100)) ↔
      (withTables [blockMin]).CanExtend [blockMin] 100 := by
  have made := @ofBlocks_wellFormed everyTable (fun _ => 0) 0x100000 0x400000 [blockMin]
    (by decide) (by decide) (by decide)
  have heap := withTables_heap [blockMin]
  refine heapMalloc_grows_iff made.1 ?_ (withTables_canGrow ?_ ?_)
  · intro other member isHole
    rw [List.mem_singleton.mp member] at isHole
    exact absurd isHole (by decide)
  · unfold grownSize
    rw [heap]
    decide
  · unfold grownSize
    rw [heap]
    decide

/-- A block that ends with the first megabyte of a heap that begins with a hole of 48 bytes. -/
def blockRest : Block := Block.inUse (0x100000 - 48) (by decide) (by decide)

/-- When the only hole is at the beginning of a heap, the heap that has grown is not as it should
be. -/
theorem heapMalloc_grows_not :
    (withTables [hole48, blockRest]).WellFormed [hole48, blockRest] ∧
      NoneLarge [hole48, blockRest] 100 ∧ (withTables [hole48, blockRest]).CanGrow 100 ∧
      ¬∃ k' result blocks', (∀ depth, heapMalloc (depth + 2) 100 false
          (withTables [hole48, blockRest]) = some (k', result)) ∧
        Extended (withTables [hole48, blockRest]) k' [hole48, blockRest] blocks' 100 result
          ((withTables [hole48, blockRest]).heap.start +
            (withTables [hole48, blockRest]).grownSize 100) := by
  have made := @ofBlocks_wellFormed everyTable (fun _ => 0) 0x100000 0x400000 [hole48, blockRest]
    (by decide) (by decide) (by decide)
  have wf : (withTables [hole48, blockRest]).WellFormed [hole48, blockRest] := made.1
  have heap := withTables_heap [hole48, blockRest]
  have none : NoneLarge [hole48, blockRest] 100 := by
    intro other member isHole
    rcases List.mem_cons.mp member with rfl | member
    · decide
    · rw [List.mem_singleton.mp member] at isHole
      exact absurd isHole (by decide)
  have can : (withTables [hole48, blockRest]).CanGrow 100 := by
    apply withTables_canGrow
    · unfold grownSize
      rw [heap]
      decide
    · unfold grownSize
      rw [heap]
      decide
  refine ⟨wf, none, can, ?_⟩
  rintro ⟨k', result, blocks', served, extended⟩
  obtain ⟨_, _, stop, _, _⟩ := can.ends wf
  rw [stop] at extended
  obtain ⟨_, left, tail, split, offers, _⟩ := canExtend_of_extended wf none can (served 0) extended
  rcases offers.hole with rfl | ⟨last, rfl, isHole⟩
  · have inUse := offers.alone rfl hole48 (by rw [← List.append_nil left, ← split]; decide)
    exact absurd inUse (by decide)
  · have same : [hole48] ++ [blockRest] = left ++ [last] := split
    obtain ⟨_, one⟩ := List.append_inj' same rfl
    rw [← (List.cons.inj one).1] at isHole
    exact absurd isHole (by decide)

end KernelHeap

end Nupkux
