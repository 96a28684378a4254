import Nupkux.Mm.AddressSpaces

/-!
# Kernel mappings are common to all address spaces

A clone gets the page tables the kernel directory has at that time. A table that the heap
makes later is in the kernel directory only, so the mappings are common as long as the heap
grows within tables that are there.
-/

namespace Nupkux

namespace Paging

variable {p p' p'' : Paging} {address flags : Nat}

/-- Every directory has the page tables that the kernel directory has. -/
def KernelMapped (p : Paging) : Prop :=
  ∀ directory ∈ p.directory, ∀ i < tableEntries, p.tableOf p.kernelDirectory i ≠ 0 →
    p.tableOf directory i = p.tableOf p.kernelDirectory i ∧
      (p.directoryAt directory).physTabs i = (p.directoryAt p.kernelDirectory).physTabs i

/-- An entry of the kernel directory: the table and its physical address. -/
def kernelEntry (p : Paging) (i : Nat) : Nat × Nat :=
  (p.tableOf p.kernelDirectory i, (p.directoryAt p.kernelDirectory).physTabs i)

/-- The kernel directory got new tables where it had none, and nothing else happened to
directories. -/
structure Grown (p p' : Paging) : Prop where
  others : SameOthers p.kernelDirectory p p'
  tables : ∀ table ∈ p.table, table ∈ p'.table
  entry : ∀ i, p'.kernelEntry i = p.kernelEntry i ∨
    (p.kernelEntry i).2 = 0 ∧ (p'.kernelEntry i).1 ∉ p.table

/-- Nothing happened. -/
theorem Grown.refl (p : Paging) : Grown p p :=
  ⟨⟨rfl, fun _ => .rfl, fun _ _ => rfl⟩, fun _ there => there, fun _ => .inl rfl⟩

/-- Growth continues. -/
theorem Grown.trans (first : Grown p p') (second : Grown p' p'') : Grown p p'' where
  others := first.others.trans (first.others.kernelDirectory ▸ second.others)
  tables table there := second.tables table (first.tables table there)
  entry i := by
    rcases second.entry i with same | ⟨free, fresh⟩
    · rw [same]
      exact first.entry i
    · rcases first.entry i with same | ⟨free', _⟩
      · exact .inr ⟨same ▸ free, fun there => fresh (first.tables _ there)⟩
      · exact .inr ⟨free', fun there => fresh (first.tables _ there)⟩

/-- A table of the kernel directory stays. -/
theorem Grown.keeps (grown : Grown p p') {i : Nat} (present : (p.kernelEntry i).2 ≠ 0) :
    p'.kernelEntry i = p.kernelEntry i :=
  (grown.entry i).resolve_right fun new => present new.1

/-- A change of entries of page tables changes no directory. -/
theorem SameTables.kernelEntry (same : SameTables p p') (i : Nat) :
    p'.kernelEntry i = p.kernelEntry i := by
  rw [Paging.kernelEntry, Paging.kernelEntry, tableOf, tableOf, same.kernelDirectory,
    same.directoryAt]

/-- A change of entries of page tables is no growth. -/
theorem SameTables.grown (same : SameTables p p') : Grown p p' where
  others := by
    refine ⟨same.kernelDirectory, fun other => ?_, fun other _ => same.directoryAt other⟩
    rw [same.directory]
  tables table there := (same.table table).mpr there
  entry i := .inl (same.kernelEntry i)

/-- `make_table` for the kernel directory makes the table. -/
theorem makeTable_grown (blocks : PageBlocks) (live : p.kernelDirectory ∈ p.directory)
    {index : Nat} (absent : (p.kernelEntry index).2 = 0) (flags : Nat) :
    Grown p (p.makeTable blocks index flags p.kernelDirectory) ∧
      ((p.makeTable blocks index flags p.kernelDirectory).kernelEntry index).2 ≠ 0 ∧
      ∀ i, i ≠ index →
        (p.makeTable blocks index flags p.kernelDirectory).kernelEntry i = p.kernelEntry i := by
  have fresh : blocks.table.address p.table ∉ p.table :=
    AList.lookup_eq_none.mp (blocks.table.address_fresh p.table)
  set res := blocks.table.address p.table with res_def
  have entry (i : Nat) : (p.makeTable blocks index flags p.kernelDirectory).kernelEntry i =
      if i = index then (res, blocks.phys res ||| flags) else p.kernelEntry i := by
    have tables := tableOf_setTable (p := p.newTable res) live index res
      (blocks.phys res ||| flags) p.kernelDirectory i
    have phys := physTabs_setTable (p := p.newTable res) live index res
      (blocks.phys res ||| flags) p.kernelDirectory i
    simp only [true_and] at tables phys
    change (Paging.tableOf _ p.kernelDirectory i, _) = _
    apply Prod.ext
    · refine tables.trans ?_
      split <;> rfl
    · refine phys.trans ?_
      split <;> rfl
  refine ⟨⟨⟨rfl, fun other => ?_, fun other differ => ?_⟩, fun table there => ?_, fun i => ?_⟩, ?_,
    fun i differ => ?_⟩
  · exact mem_directory_setTable (p.newTable res) p.kernelDirectory index res _
  · refine (directoryAt_setTable (p := p.newTable res) live index res _ other).trans ?_
    rw [if_neg differ]
    rfl
  · exact (AList.mem_insert _).mpr (.inr there)
  · rw [entry]
    by_cases here : i = index
    · right
      rw [if_pos here, here]
      exact ⟨absent, fresh⟩
    · left
      rw [if_neg here]
  · rw [entry, if_pos rfl]
    change blocks.phys res ||| flags ≠ 0
    rw [Ne, Nat.or_eq_zero_iff]
    exact fun both => blocks.phys_ne_zero _ both.1
  · rw [entry, if_neg differ]

/-- `make_page` makes the table of its page where the kernel directory has none. -/
theorem makePage_grown (blocks : PageBlocks) (live : p.kernelDirectory ∈ p.directory)
    (address flags : Nat) :
    let made := (p.makePage blocks address flags p.kernelDirectory true).1
    let tab := address / frameSize / tableEntries
    Grown p made ∧ (made.kernelEntry tab).2 ≠ 0 ∧
      ∀ i, i ≠ tab → made.kernelEntry i = p.kernelEntry i := by
  dsimp only
  set tab := address / frameSize / tableEntries with tab_def
  unfold makePage
  dsimp only
  rw [if_pos rfl, ← tab_def]
  have filled (q : Paging) (page : PagePointer) (grown : Grown p q)
      (present : (q.kernelEntry tab).2 ≠ 0)
      (others : ∀ i, i ≠ tab → q.kernelEntry i = p.kernelEntry i) :
      Grown p (q.allocFrame page flags) ∧ ((q.allocFrame page flags).kernelEntry tab).2 ≠ 0 ∧
        ∀ i, i ≠ tab → (q.allocFrame page flags).kernelEntry i = p.kernelEntry i := by
    have same := allocFrame_tables q page flags
    refine ⟨grown.trans same.grown, ?_, fun i differ => ?_⟩
    · rw [same.kernelEntry]
      exact present
    · rw [same.kernelEntry, others i differ]
  split
  · rename_i absent
    obtain ⟨grown, present, others⟩ := makeTable_grown blocks live absent flags
    exact filled _ _ grown present others
  · rename_i present
    exact filled _ _ (.refl p) present fun _ _ => rfl

/-- The kernel directory stays, and stays in use. -/
theorem Grown.live (grown : Grown p p') (live : p.kernelDirectory ∈ p.directory) :
    p'.kernelDirectory ∈ p'.directory := by
  rw [grown.others.kernelDirectory, grown.others.mem]
  exact live

/-- The loop of `expand_heap` makes the tables its pages need, and no others. -/
theorem makePages_grown (blocks : PageBlocks) (flags : Nat) (addresses : List Nat)
    (live : p.kernelDirectory ∈ p.directory) :
    Grown p (AddressSpaces.makePages blocks flags addresses p) ∧
      ∀ address ∈ addresses, ((AddressSpaces.makePages blocks flags addresses p).kernelEntry
        (address / frameSize / tableEntries)).2 ≠ 0 := by
  induction addresses generalizing p with
  | nil => exact ⟨.refl p, fun address none => absurd none List.not_mem_nil⟩
  | cons address addresses ih =>
    obtain ⟨grown, present, _⟩ := makePage_grown blocks live address flags
    obtain ⟨grown', present'⟩ := ih (grown.live live)
    refine ⟨grown.trans grown', fun other made => ?_⟩
    rcases List.mem_cons.mp made with rfl | later
    · rw [AddressSpaces.makePages, grown'.keeps present]
      exact present
    · exact present' other later

/-- The loop of `expand_heap` changes no directory when the tables are there. -/
theorem makePages_entry (blocks : PageBlocks) (flags : Nat) {addresses : List Nat}
    (live : p.kernelDirectory ∈ p.directory)
    (present : ∀ address ∈ addresses,
      (p.kernelEntry (address / frameSize / tableEntries)).2 ≠ 0) (i : Nat) :
    (AddressSpaces.makePages blocks flags addresses p).kernelEntry i = p.kernelEntry i := by
  induction addresses generalizing p with
  | nil => rfl
  | cons address addresses ih =>
    have here : (p.directoryAt p.kernelDirectory).physTabs (address / frameSize / tableEntries) ≠ 0 :=
      present address List.mem_cons_self
    have entry (i : Nat) :
        (p.makePage blocks address flags p.kernelDirectory true).1.kernelEntry i =
          p.kernelEntry i := by
      unfold makePage
      dsimp only
      rw [if_pos rfl, if_neg here]
      exact (allocFrame_tables p _ flags).kernelEntry i
    rw [AddressSpaces.makePages, ih ((makePage_grown blocks live address flags).1.live live),
      entry]
    intro other later
    rw [entry]
    exact present other (List.mem_cons_of_mem _ later)

/-- The loop of `expand_heap` keeps the invariant of page tables. -/
theorem PagingInvariant.makePages (invariant : p.PagingInvariant) (blocks : PageBlocks)
    (flags : Nat) (addresses : List Nat) (inRange : ∀ address ∈ addresses, address < uintWidth) :
    (AddressSpaces.makePages blocks flags addresses p).PagingInvariant := by
  induction addresses generalizing p with
  | nil => exact invariant
  | cons address addresses ih =>
    apply ih
    · exact invariant.makePage blocks (inRange address List.mem_cons_self) flags
        invariant.linked.kernel true
    · exact fun other later => inRange other (List.mem_cons_of_mem _ later)

/-- Only the kernel directory is there. -/
def Alone (p : Paging) : Prop := ∀ directory ∈ p.directory, directory = p.kernelDirectory

/-- The mappings are common when directories did not change. -/
theorem KernelMapped.same (mapped : p.KernelMapped) (others : SameOthers p.kernelDirectory p p')
    (entry : ∀ i, p'.kernelEntry i = p.kernelEntry i) : p'.KernelMapped := by
  intro directory there i inside some_table
  have looks : (p'.tableOf directory i, (p'.directoryAt directory).physTabs i) =
      (p.tableOf directory i, (p.directoryAt directory).physTabs i) := by
    by_cases kernel : directory = p.kernelDirectory
    · have here := entry i
      rw [kernelEntry, kernelEntry, others.kernelDirectory] at here
      rw [kernel]
      exact here
    · rw [tableOf, others.directoryAt directory kernel]
  have same := entry i
  rw [kernelEntry, kernelEntry, Prod.mk.injEq] at same
  rw [Prod.mk.injEq] at looks
  rw [same.1] at some_table
  have before := mapped directory ((others.mem directory).mp there) i inside some_table
  rw [looks.1, looks.2, same.1, same.2]
  exact before

/-- The mappings are common when there is one directory. -/
theorem Alone.kernelMapped (alone : p.Alone) : p.KernelMapped := by
  intro directory there i _ _
  rw [alone directory there]
  exact ⟨rfl, rfl⟩

/-- Growth that makes a table while there is another directory breaks the common mappings. -/
theorem Grown.breaks (grown : Grown p p') (linked : p.Linked) (crowded : ¬p.Alone) {i : Nat}
    (inside : i < tableEntries) (absent : (p.kernelEntry i).2 = 0)
    (made : (p'.kernelEntry i).1 ≠ 0) : ¬p'.KernelMapped := by
  intro mapped
  simp only [Alone, not_forall] at crowded
  obtain ⟨directory, there, clone⟩ := crowded
  have both := mapped directory ((grown.others.mem directory).mpr there) i inside made
  have fresh : (p'.kernelEntry i).1 ∉ p.table := by
    rcases grown.entry i with same | new
    · have none : (p.kernelEntry i).1 = 0 := by
        by_contra some_table
        exact (linked.present p.kernelDirectory i).mpr some_table absent
      rw [same, none]
      exact linked.null
    · exact new.2
  apply fresh
  change p'.tableOf p'.kernelDirectory i ∈ p.table
  rw [← both.1, tableOf, grown.others.directoryAt directory clone]
  apply linked.live
  change p'.tableOf p'.kernelDirectory i ≠ 0 at made
  rwa [← both.1, tableOf, grown.others.directoryAt directory clone] at made

/-- A clone has the kernel's tables, as the directory it is cloned from has. -/
theorem KernelMapped.cloneDirectory (mapped : p.KernelMapped) (invariant : p.PagingInvariant)
    (blocks : PageBlocks) {src : Nat} (live : src ∈ p.directory) :
    (p.cloneDirectory blocks src).1.KernelMapped := by
  obtain ⟨_, fresh, kernel, mem, others, shared⟩ := invariant.cloneDirectory blocks live
  generalize (p.cloneDirectory blocks src).1 = q at kernel mem others shared ⊢
  generalize (p.cloneDirectory blocks src).2 = dir at fresh mem others shared
  have kernelLive := invariant.linked.kernel
  have kernelKept : q.directoryAt p.kernelDirectory = p.directoryAt p.kernelDirectory :=
    others _ fun same => fresh (same ▸ kernelLive)
  have kernelTable (i : Nat) : q.tableOf p.kernelDirectory i = p.tableOf p.kernelDirectory i := by
    rw [tableOf, kernelKept]
  intro directory there i inside some_table
  rw [kernel, kernelTable] at some_table
  rw [kernel, kernelTable, kernelKept]
  by_cases clone : directory = dir
  · have source := mapped src live i inside some_table
    have entry := shared i inside (source.1 ▸ some_table) source.1.symm
    rw [Prod.mk.injEq] at entry
    rw [clone, entry.1, entry.2]
    exact source
  · rw [tableOf, others directory clone]
    exact mapped directory (((mem directory).mp there).resolve_left clone) i inside some_table

/-- A clone leaves the kernel directory as it is, which is then not the only one. -/
theorem cloneDirectory_kernel (invariant : p.PagingInvariant) (blocks : PageBlocks) {src : Nat}
    (live : src ∈ p.directory) :
    (∀ i, (p.cloneDirectory blocks src).1.kernelEntry i = p.kernelEntry i) ∧
      ¬(p.cloneDirectory blocks src).1.Alone := by
  obtain ⟨_, fresh, kernel, mem, others, _⟩ := invariant.cloneDirectory blocks live
  generalize (p.cloneDirectory blocks src).1 = q at kernel mem others ⊢
  generalize (p.cloneDirectory blocks src).2 = dir at fresh mem others
  have differ : p.kernelDirectory ≠ dir := fun same => fresh (same ▸ invariant.linked.kernel)
  refine ⟨fun i => ?_, fun alone => ?_⟩
  · rw [kernelEntry, kernelEntry, tableOf, tableOf, kernel, others _ differ]
  · exact differ (kernel.symm.trans (alone dir ((mem dir).mpr (.inl rfl))).symm)

/-- The other directories stay as they are when one goes. -/
theorem KernelMapped.eraseDirectory (mapped : p.KernelMapped) {q : Paging} {dir : Nat}
    (clone : dir ≠ p.kernelDirectory) (directories : q.directory = p.directory)
    (kernel : q.kernelDirectory = p.kernelDirectory) :
    KernelMapped { q with directory := q.directory.erase dir } := by
  set left := ({ q with directory := q.directory.erase dir } : Paging)
  have looks (other : Nat) (differ : other ≠ dir) :
      left.directoryAt other = p.directoryAt other := by
    simp only [left, directoryAt, Store.lookup_erase_eq, if_neg differ, directories]
  have leftKernel : left.kernelDirectory = p.kernelDirectory := kernel
  intro directory there i inside some_table
  obtain ⟨differ, there⟩ := AList.mem_erase.mp there
  rw [directories] at there
  rw [leftKernel, tableOf, looks _ clone.symm] at some_table
  rw [leftKernel, tableOf, tableOf, looks directory differ, looks _ clone.symm]
  exact mapped directory there i inside some_table

/-- The other directories stay as they are when one is freed. -/
theorem KernelMapped.freeDirectory (mapped : p.KernelMapped) {dir : Nat}
    (clone : dir ≠ p.kernelDirectory) : (p.freeDirectory dir).KernelMapped := by
  obtain ⟨directories, kernel, _⟩ := freeTables_tables dir tableEntries p
  exact mapped.eraseDirectory clone directories kernel

end Paging

namespace AddressSpaces

open Paging

variable {s s' : AddressSpaces} {call : AddressCall}

/-- The call grows the heap only where the kernel directory has page tables, unless the kernel
directory is the only one. -/
def KeepsMappings (s : AddressSpaces) : AddressCall → Prop
  | .expandHeap newSize =>
    (∀ address ∈ s.heap.growth newSize,
      (s.paging.directoryAt s.paging.kernelDirectory).physTabs
        (address / frameSize / tableEntries) ≠ 0) ∨ s.paging.Alone
  | .cloneDirectory _ => True
  | .freeDirectory _ => True

/-- Growth by a page without a page table, while there is a clone, is not in place. -/
theorem not_keeps {q : Paging} {h : Heap} {newSize address : Nat}
    (made : address ∈ h.growth newSize)
    (absent : (q.kernelEntry (address / frameSize / tableEntries)).2 = 0) (crowded : ¬q.Alone) :
    ¬KeepsMappings { paging := q, heap := h } (.expandHeap newSize) := by
  rintro (inPlace | alone)
  · exact inPlace address made absent
  · exact crowded alone

/-- The invariant: page tables are linked, and kernel mappings are common. -/
structure Mapped (s : AddressSpaces) : Prop where
  paging : s.paging.PagingInvariant
  common : s.paging.KernelMapped

/-- Growth keeps the mappings common exactly when it makes no table or there is one
directory. -/
theorem Mapped.expandHeap (mapped : s.Mapped) (blocks : PageBlocks) (newSize : Nat) :
    (s.expandHeap blocks newSize).paging.PagingInvariant ∧
      ((s.expandHeap blocks newSize).paging.KernelMapped ↔
        s.KeepsMappings (.expandHeap newSize)) := by
  have linked := mapped.paging.linked
  have invariant := mapped.paging.makePages blocks s.heap.pageflags (s.heap.growth newSize)
    fun address made => Heap.growth_lt made
  obtain ⟨grown, present⟩ := makePages_grown blocks s.heap.pageflags (s.heap.growth newSize)
    linked.kernel
  refine ⟨invariant, fun common => ?_, fun keeps => ?_⟩
  · by_contra breaks
    simp only [KeepsMappings, not_or, not_forall, not_not] at breaks
    obtain ⟨⟨address, made, absent⟩, crowded⟩ := breaks
    have inside : address / frameSize / tableEntries < tableEntries := by
      have small := Heap.growth_lt made
      simp only [frameSize, tableEntries, uintWidth] at *
      omega
    have some_table := (invariant.linked.present _ _).mp (present address made)
    exact grown.breaks linked crowded inside absent some_table common
  · rcases keeps with inPlace | alone
    · have entry := makePages_entry blocks s.heap.pageflags linked.kernel inPlace
      exact mapped.common.same grown.others entry
    · have alone' : (s.expandHeap blocks newSize).paging.Alone := by
        intro directory there
        exact (alone directory ((grown.others.mem directory).mp there)).trans
          grown.others.kernelDirectory.symm
      exact alone'.kernelMapped

/-- A clone keeps the mappings common. -/
theorem Mapped.cloneDirectory (mapped : s.Mapped) (blocks : PageBlocks) {src : Nat}
    (live : src ∈ s.paging.directory) : (s.cloneDirectory blocks src).Mapped := by
  have invariant := (mapped.paging.cloneDirectory blocks live).1
  have common := mapped.common.cloneDirectory mapped.paging blocks live
  unfold AddressSpaces.cloneDirectory
  generalize (s.paging.cloneDirectory blocks src).1 = q at invariant common ⊢
  exact ⟨invariant, common⟩

/-- The other directories stay as they are when one is freed. -/
theorem Mapped.freeDirectory (mapped : s.Mapped) {dir : Nat}
    (clone : dir ≠ s.paging.kernelDirectory) : (s.freeDirectory dir).Mapped where
  paging := mapped.paging.freeDirectory clone
  common := mapped.common.freeDirectory clone

/-- Every call keeps the page tables linked, and the mappings common exactly when it grows the
heap in place. -/
theorem Mapped.step (mapped : s.Mapped) (step : AddressStep s call s') :
    s'.paging.PagingInvariant ∧ (s'.paging.KernelMapped ↔ s.KeepsMappings call) := by
  cases step with
  | expandHeap blocks newSize => exact mapped.expandHeap blocks newSize
  | cloneDirectory blocks live =>
    have kept := mapped.cloneDirectory blocks live
    exact ⟨kept.paging, iff_of_true kept.common trivial⟩
  | freeDirectory live clone =>
    have kept := mapped.freeDirectory clone
    exact ⟨kept.paging, iff_of_true kept.common trivial⟩

end AddressSpaces

namespace Boot

open Paging

variable {b b' : Boot}

/-- Page tables are linked, and the kernel directory is the only one. -/
structure Booted (b : Boot) : Prop where
  paging : b.paging.PagingInvariant
  alone : b.paging.Alone

/-- A page is made in the kernel directory. -/
theorem Booted.makePage (booted : b.Booted) (blocks : PageBlocks) {address : Nat}
    (inRange : address < uintWidth) (flags : Nat) : (b.makePage blocks address flags).Booted := by
  have live := booted.paging.linked.kernel
  have others := (makePage_grown blocks live address flags).1.others
  refine ⟨booted.paging.makePage blocks inRange flags live true, fun directory there => ?_⟩
  exact (booted.alone directory ((others.mem directory).mp there)).trans
    others.kernelDirectory.symm

/-- `MAP_MEMORY` makes pages. -/
theorem Booted.mapMemory (booted : b.Booted) {blocks : PageBlocks} {end_ : Nat → Nat}
    {flags turns i : Nat} (inRange : i < uintWidth)
    (done : b.mapMemory blocks end_ flags turns i = some b') : b'.Booted := by
  induction turns generalizing b i with
  | zero => cases done
  | succ turns ih =>
    rw [Boot.mapMemory] at done
    split at done
    · exact ih (booted.makePage blocks inRange flags) (uadd_lt _ _) done
    · cases done
      exact booted

/-- The first loop of `setup_paging` makes page 0 first. -/
theorem mapMemory_start {blocks : PageBlocks} {memend kmallocPos last flags turns : Nat}
    (inRange : memend < uintWidth)
    (done : (start memend kmallocPos).mapMemory blocks (fun _ => last) flags turns 0 = some b') :
    b'.Booted := by
  cases turns with
  | zero => cases done
  | succ turns =>
    rw [mapMemory, if_pos (Nat.zero_le last)] at done
    have invariant : ((start memend kmallocPos).makePage blocks 0 flags).paging.PagingInvariant :=
      .start ⟨memend, inRange, _, blocks, flags, 0, by decide, rfl⟩
    have linked := empty_linked memend (start memend kmallocPos).paging.kernelDirectory
    have others := (makePage_grown blocks linked.kernel 0 flags).1.others
    have booted : ((start memend kmallocPos).makePage blocks 0 flags).Booted := by
      refine ⟨invariant, fun directory there => ?_⟩
      refine Eq.trans ?_ others.kernelDirectory.symm
      have before := (others.mem directory).mp there
      exact ((AList.mem_insert _).mp before).resolve_right (AList.notMem_empty directory)
    exact booted.mapMemory (uadd_lt _ _) done

/-- The loops of `setup_paging` make pages in the kernel directory only. -/
theorem mapKernel_booted {blocks : PageBlocks} {memstart memend kmallocPos turns : Nat}
    (startInRange : memstart < uintWidth) (inRange : memend < uintWidth)
    (done : mapKernel blocks memstart memend kmallocPos turns = some b') : b'.Booted := by
  unfold mapKernel at done
  obtain ⟨kernel, mapped, done⟩ := Option.bind_eq_some_iff.mp done
  obtain ⟨ipc, mapped', done⟩ := Option.bind_eq_some_iff.mp done
  obtain ⟨preHeap, mapped'', done⟩ := Option.bind_eq_some_iff.mp done
  have booted := (mapMemory_start inRange mapped).mapMemory startInRange mapped'
  exact (booted.mapMemory (uadd_lt _ _) mapped'').mapMemory (assertAlign_lt (uadd_lt _ _)) done

/-! ### The loops end -/

/-- The page tables of the kernel directory. -/
def tables (b : Boot) : Finset Nat :=
  (Finset.range tableEntries).filter fun t => (b.paging.kernelEntry t).2 ≠ 0

/-- Every page table took at most two pages of `kmalloc_pos`, and none lies above `top`. -/
structure Below (first top : Nat) (b : Boot) : Prop where
  live : b.paging.kernelDirectory ∈ b.paging.directory
  position : b.kmallocPos ≤ first + 2 * frameSize * b.tables.card
  absent : ∀ t, top / frameSize / tableEntries < t → (b.paging.kernelEntry t).2 = 0

variable {first top : Nat}

/-- There are at most as many page tables as entries for them. -/
theorem Below.position_le (below : Below first top b) :
    b.kmallocPos ≤ first + 2 * frameSize * tableEntries := by
  have few : b.tables.card ≤ tableEntries :=
    (Finset.card_filter_le _ _).trans (Finset.card_range tableEntries).le
  exact below.position.trans (Nat.add_le_add_left (Nat.mul_le_mul_left _ few) _)

/-- An aligned address is less than a page above. -/
theorem assertAlign_le (value : Nat) : assertAlign value ≤ value + frameSize := by
  unfold assertAlign
  split
  · refine (Nat.mod_le _ _).trans ?_
    omega
  · omega

/-- A page below `top` is made. -/
theorem Below.makePage (below : Below first top b) (blocks : PageBlocks) {address : Nat}
    (inRange : address < uintWidth) (low : address ≤ top) (flags : Nat) :
    Below first top (b.makePage blocks address flags) := by
  obtain ⟨grown, present, others⟩ := makePage_grown blocks below.live address flags
  set tab := address / frameSize / tableEntries
  have inside : tab < tableEntries := by
    simp only [tab, frameSize, tableEntries, uintWidth] at *
    omega
  have under : tab ≤ top / frameSize / tableEntries :=
    Nat.div_le_div_right (Nat.div_le_div_right low)
  have kept : b.tables ⊆ (b.makePage blocks address flags).tables := by
    intro t there
    obtain ⟨range, here⟩ := Finset.mem_filter.mp there
    refine Finset.mem_filter.mpr ⟨range, ?_⟩
    exact (congrArg Prod.snd (grown.keeps here)).trans_ne here
  have there : tab ∈ (b.makePage blocks address flags).tables :=
    Finset.mem_filter.mpr ⟨Finset.mem_range.mpr inside, present⟩
  refine ⟨grown.live below.live, ?_, fun t above => ?_⟩
  · have before := below.position
    by_cases absent : (b.paging.kernelEntry tab).2 = 0
    · -- the new table takes the page it needs and what is left of the one before
      have taken : (b.makePage blocks address flags).kmallocPos =
          uadd (assertAlign b.kmallocPos) pageTableSize := if_pos absent
      have aligned := assertAlign_le b.kmallocPos
      have sum : uadd (assertAlign b.kmallocPos) pageTableSize ≤
          assertAlign b.kmallocPos + pageTableSize := Nat.mod_le _ _
      have more : b.tables.card + 1 ≤ (b.makePage blocks address flags).tables.card := by
        refine Finset.card_lt_card ⟨kept, fun same => ?_⟩
        exact (Finset.mem_filter.mp (same there)).2 absent
      have room := Nat.mul_le_mul_left (2 * frameSize) more
      rw [Nat.mul_succ] at room
      simp only [frameSize, pageTableSize] at *
      omega
    · have untaken : (b.makePage blocks address flags).kmallocPos = b.kmallocPos := if_neg absent
      have room := Nat.mul_le_mul_left (2 * frameSize) (Finset.card_le_card kept)
      omega
  · exact (congrArg Prod.snd (others t (by omega))).trans (below.absent t above)

/-- A loop whose end stays below `top` ends. -/
theorem Below.mapMemory (below : Below first top b) (blocks : PageBlocks) {end_ : Nat → Nat}
    (low : ∀ pos ≤ first + 2 * frameSize * tableEntries, end_ pos ≤ top)
    (small : top + frameSize < uintWidth) (flags : Nat) {turns i : Nat}
    (begins : i ≤ top + frameSize) (enough : top + frameSize < i + turns * frameSize) :
    ∃ b', b.mapMemory blocks end_ flags turns i = some b' ∧ Below first top b' := by
  induction turns generalizing b i with
  | zero => omega
  | succ turns ih =>
    rw [Boot.mapMemory]
    split
    · rename_i before
      have under : i ≤ top := before.trans (low _ below.position_le)
      have next : uadd i frameSize = i + frameSize := uadd_of_lt (by omega)
      rw [next]
      rw [Nat.succ_mul] at enough
      exact ih (below.makePage blocks (by omega) under flags) (by omega) (by omega)
    · exact ⟨b, rfl, below⟩

/-- The highest end of a loop of `setup_paging`. -/
def highest (memstart memend kmallocPos : Nat) : Nat :=
  max (memstart + ipcMemsize) ((start memend kmallocPos).kmallocPos +
    2 * frameSize * tableEntries + 2 * frameSize + mmKheapStart + mmKheapSize)

/-- `setup_paging` begins without page tables. -/
theorem start_below (memend kmallocPos top : Nat) :
    Below (start memend kmallocPos).kmallocPos top (start memend kmallocPos) := by
  set kernelDirectory := (start memend kmallocPos).paging.kernelDirectory with kernel_def
  have linked := empty_linked memend kernelDirectory
  refine ⟨linked.kernel, Nat.le_add_right _ _, fun t _ => ?_⟩
  by_contra present
  have some_table := (linked.present kernelDirectory t).mp present
  exact AList.notMem_empty _ (linked.live kernelDirectory t some_table)

/-- The loops of `setup_paging` end, if they have turns for all memory below their highest end,
and make no page table above it. -/
theorem mapKernel_returns (blocks : PageBlocks) {memstart memend kmallocPos turns : Nat}
    (small : highest memstart memend kmallocPos + frameSize < uintWidth)
    (enough : highest memstart memend kmallocPos + frameSize < turns * frameSize) :
    ∃ b, mapKernel blocks memstart memend kmallocPos turns = some b ∧
      Below (start memend kmallocPos).kmallocPos (highest memstart memend kmallocPos) b := by
  set top := highest memstart memend kmallocPos with top_def
  have memory : memstart + ipcMemsize ≤ top := le_max_left _ _
  have kernel : (start memend kmallocPos).kmallocPos + 2 * frameSize * tableEntries +
      2 * frameSize + mmKheapStart + mmKheapSize ≤ top := le_max_right _ _
  have sum (a b : Nat) : uadd a b ≤ a + b := Nat.mod_le _ _
  have roundUp (a : Nat) : alignUp a ≤ a + frameSize := (sum _ _).trans (by omega)
  have below := start_below memend kmallocPos top
  have kernelLow : memstart ≤ top := by omega
  have ipcLow : uadd memstart ipcMemsize ≤ top := (sum _ _).trans memory
  have loop {b : Boot} (below : Below (start memend kmallocPos).kmallocPos top b)
      (end_ : Nat → Nat) (flags : Nat) {i : Nat} (begins : i ≤ top + frameSize)
      (low : ∀ pos ≤ (start memend kmallocPos).kmallocPos + 2 * frameSize * tableEntries,
        end_ pos ≤ top) :
      ∃ b', b.mapMemory blocks end_ flags turns i = some b' ∧
        Below (start memend kmallocPos).kmallocPos top b' :=
    below.mapMemory blocks low small flags begins (by omega)
  obtain ⟨kernel, mapped, below⟩ :=
    loop below (fun _ => memstart) kernelFlags (Nat.zero_le _) fun _ _ => kernelLow
  obtain ⟨ipc, mapped', below⟩ := loop below (fun _ => uadd memstart ipcMemsize) userFlags
    (kernelLow.trans (Nat.le_add_right _ _)) fun _ _ => ipcLow
  obtain ⟨preHeap, mapped'', below⟩ := loop below (fun pos => uadd pos frameSize) kernelFlags
    (ipcLow.trans (Nat.le_add_right _ _)) fun pos few => (sum _ _).trans (by omega)
  have begins : assertAlign (uadd mmKheapStart preHeap.kmallocPos) ≤ top + frameSize := by
    have few := below.position_le
    have aligned := assertAlign_le (uadd mmKheapStart preHeap.kmallocPos)
    have added := sum mmKheapStart preHeap.kmallocPos
    omega
  have low (pos : Nat)
      (few : pos ≤ (start memend kmallocPos).kmallocPos + 2 * frameSize * tableEntries) :
      uadd (uadd (alignUp pos) mmKheapStart) mmKheapSize ≤ top := by
    have added := sum (uadd (alignUp pos) mmKheapStart) mmKheapSize
    have added' := sum (alignUp pos) mmKheapStart
    have aligned := roundUp pos
    omega
  obtain ⟨heap, mapped''', below⟩ := loop below _ kernelFlags begins low
  refine ⟨heap, ?_, below⟩
  simp only [mapKernel, Option.bind_eq_bind, mapped, mapped', mapped'', mapped''',
    Option.bind_some]

end Boot

namespace AddressSpaces

variable {s : AddressSpaces}

/-- `setup_paging` makes the mappings common to the kernel directory and its clone. -/
theorem Mapped.start (initial : addressSpaces.initial s) : s.Mapped := by
  obtain ⟨blocks, memstart, startInRange, memend, inRange, kmallocPos, turns, done⟩ := initial
  unfold setupPaging at done
  obtain ⟨b, mapped, done⟩ := Option.bind_eq_some_iff.mp done
  have booted := Boot.mapKernel_booted startInRange inRange mapped
  have before : Mapped { paging := b.paging, heap := b.heap memend } :=
    ⟨booted.paging, booted.alone.kernelMapped⟩
  have after := before.cloneDirectory blocks booted.paging.linked.kernel
  dsimp only at done
  rw [Option.some.injEq] at done
  rwa [← done]

/-- Runs that grow the heap in place keep the mappings common. -/
theorem Mapped.of_path {first : AddressSpaces} {calls : List AddressCall} (start : first.Mapped)
    (path : addressSpaces.Path KeepsMappings first calls s) : s.Mapped := by
  refine path.keeps Mapped (fun s call s' mapped keeps step => ?_) start
  have kept := mapped.step step
  exact ⟨kept.1, kept.2.mpr keeps⟩

end AddressSpaces

/-- Kernel mappings: in every run from `setup_paging` that grows the heap only within page tables
that are there, or while there is no clone, all directories have the tables of the kernel
directory; and any other growth breaks this. -/
theorem kernel_mappings_common {first s : AddressSpaces} {calls : List AddressCall}
    (start : addressSpaces.initial first)
    (path : addressSpaces.Path AddressSpaces.KeepsMappings first calls s) :
    s.paging.KernelMapped ∧ ∀ call s', AddressStep s call s' →
      (s'.paging.KernelMapped ↔ s.KeepsMappings call) := by
  have mapped := (AddressSpaces.Mapped.start start).of_path path
  exact ⟨mapped.common, fun call s' step => (mapped.step step).2⟩

/-! With 64 MB of memory the heap grows beyond the page tables made at boot. -/

namespace LostMapping

open AddressSpaces Paging

/-- `setup_paging` of a kernel that ends at 2 MB. -/
def setup : Option AddressSpaces := setupPaging FirstPages.blocks 0x200000 0x4000000 0x600000 10000

/-- What the kernel's loops leave behind. -/
theorem setup_below : ∃ b, Boot.mapKernel FirstPages.blocks 0x200000 0x4000000 0x600000 10000 =
    some b ∧ Boot.Below (Boot.start 0x4000000 0x600000).kmallocPos
      (Boot.highest 0x200000 0x4000000 0x600000) b :=
  Boot.mapKernel_returns FirstPages.blocks (by decide) (by decide)

/-- A run starts there. -/
theorem setup_initial {first : AddressSpaces} (done : setup = some first) :
    addressSpaces.initial first :=
  ⟨FirstPages.blocks, 0x200000, by decide, 0x4000000, by decide, 0x600000, 10000, done⟩

/-- It returns the kernel directory and a clone of it. -/
theorem setup_returns {b : Boot} (mapped : Boot.mapKernel FirstPages.blocks 0x200000 0x4000000
      0x600000 10000 = some b) :
    setup = some { paging := (b.paging.cloneDirectory FirstPages.blocks b.paging.kernelDirectory).1
                   heap := b.heap 0x4000000 } := by
  simp only [setup, setupPaging, mapped, Option.bind_eq_bind, Option.bind_some,
    AddressSpaces.cloneDirectory]

/-- The bounds of the heap, for a kernel that took less than 14 MB. -/
theorem heap_bounds {b : Boot} (low : b.kmallocPos ≤ 0xE03004) :
    let h := b.heap 0x4000000
    0x42000 ≤ h.start ∧ h.start ≤ 0xF00000 ∧ h.start % frameSize = 0 ∧ h.start ≤ h.end_ ∧
      h.end_ ≤ h.start + 0x400000 ∧ h.end_ % frameSize = 0 := by
  have position : uadd mmKheapStart b.kmallocPos = 0x40000 + b.kmallocPos :=
    uadd_of_lt (by simp only [mmKheapStart, uintWidth]; omega)
  have index := assertAlign_spec (a := 0x40000 + b.kmallocPos)
    (by simp only [frameSize, uintWidth]; omega)
  have above : uadd (assertAlign (0x40000 + b.kmallocPos)) (mmIndexCount * 4) =
      assertAlign (0x40000 + b.kmallocPos) + 0x2000 :=
    uadd_of_lt (by simp only [mmIndexCount, frameSize, uintWidth] at *; omega)
  have start := assertAlign_spec (a := assertAlign (0x40000 + b.kmallocPos) + 0x2000)
    (by simp only [frameSize, uintWidth] at *; omega)
  have last : uadd (uadd mmKheapStart mmKheapSize) b.kmallocPos = 0x340000 + b.kmallocPos :=
    uadd_of_lt (by change 0x340000 + b.kmallocPos < 4294967296; omega)
  have end_ := assertAlign_spec (a := 0x340000 + b.kmallocPos)
    (by simp only [frameSize, uintWidth]; omega)
  simp only [Boot.heap, Heap.create, position, above, last]
  simp only [frameSize] at *
  omega

/-- Growth by 32 MB makes a page above the tables of the boot. -/
theorem growth_above {b : Boot} (low : b.kmallocPos ≤ 0xE03004) :
    ∃ address ∈ (b.heap 0x4000000).growth 0x2000000,
      Boot.highest 0x200000 0x4000000 0x600000 / frameSize / tableEntries <
        address / frameSize / tableEntries := by
  have tables : Boot.highest 0x200000 0x4000000 0x600000 / frameSize / tableEntries = 4 := by
    decide
  have memory : (b.heap 0x4000000).memend = 0x4000000 := by
    change assertAlign 0x4000000 = 0x4000000
    decide
  obtain ⟨startAbove, startBelow, startAligned, ordered, endBelow, endAligned⟩ := heap_bounds low
  have size : (b.heap 0x4000000).size = (b.heap 0x4000000).end_ - (b.heap 0x4000000).start :=
    usub_of_le ordered (by simp only [uintWidth]; omega)
  refine ⟨_, Heap.last_mem_growth ?_ ?_ (by decide) ?_ ?_, ?_⟩
  · omega
  · rw [size]
    simp only [frameSize] at *
    omega
  · omega
  · rw [memory]
    decide
  · rw [tables]
    simp only [frameSize, tableEntries]
    omega

/-- It returns, and growth by 32 MB is then not in place. -/
theorem setup_loses : ∃ first, setup = some first ∧
    ¬first.KeepsMappings (.expandHeap 0x2000000) := by
  obtain ⟨b, mapped, below⟩ := setup_below
  have booted := Boot.mapKernel_booted (by decide) (by decide) mapped
  have cloned := cloneDirectory_kernel booted.paging FirstPages.blocks booted.paging.linked.kernel
  obtain ⟨address, made, above⟩ := growth_above below.position_le
  refine ⟨_, setup_returns mapped, not_keeps made ?_ cloned.2⟩
  exact (congrArg Prod.snd (cloned.1 _)).trans (below.absent _ above)

end LostMapping

open LostMapping AddressSpaces in
/-- The mappings after boot, and one more clone. -/
theorem kernel_mappings_common_clone : ∃ first, setup = some first ∧
    (first.cloneDirectory FirstPages.blocks first.paging.kernelDirectory).paging.KernelMapped := by
  obtain ⟨first, done, -⟩ := setup_loses
  have start := setup_initial done
  have live := (Mapped.start start).paging.linked.kernel
  have keeps : first.KeepsMappings (.cloneDirectory first.paging.kernelDirectory) := trivial
  have step : AddressStep first (.cloneDirectory first.paging.kernelDirectory) _ :=
    .cloneDirectory FirstPages.blocks live
  exact ⟨first, done, (kernel_mappings_common start
    ((TransitionSystem.Path.nil first).snoc keeps step)).1⟩

open LostMapping AddressSpaces in
/-- Not all runs keep the mappings common: growth by 32 MB after boot makes page tables that the
clone of the boot does not have. -/
theorem kernel_mappings_common_lost :
    ¬ ∀ first s calls, addressSpaces.initial first →
      addressSpaces.Path TransitionSystem.Unrestricted first calls s → s.paging.KernelMapped := by
  intro common
  obtain ⟨first, done, loses⟩ := setup_loses
  have start := setup_initial done
  have step := AddressStep.expandHeap (s := first) FirstPages.blocks 0x2000000
  have kept := common first _ _ start ((TransitionSystem.Path.nil first).snoc trivial step)
  exact loses (((Mapped.start start).step step).2.mp kept)

end Nupkux
