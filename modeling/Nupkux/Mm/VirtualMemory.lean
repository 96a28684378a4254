import Nupkux.Lib.Spaces
import Nupkux.Mm.CloneRelease

/-!
# Virtual memory

What the page tables are for: each directory but the one of the kernel has pages of its own,
which no call but those that name it changes, though their frames come from one pool. `fork`
gives a new directory the pages of another one as they are, the kernel's tables excepted,
which all directories share.
-/

namespace Nupkux

/-! ## What the processor sees -/

/-- The frame behind the page with a number, if the page is present and there is such memory. -/
def Paging.frameOf (p : Paging) (directory number : Nat) : Option Nat :=
  if (p.directoryAt directory).physTabs (number / tableEntries) = 0 then none
  else
    let page := p.pageNo directory number
    if page.flags &&& pageFlagPresent ≠ 0 ∧ page.frame < p.framecount then some page.frame
    else none

namespace PagedMemory

variable {α : Type}

/-- What the processor reads in the page with a number. -/
def load (m : PagedMemory α) (directory number : Nat) : Option α :=
  (m.paging.frameOf directory number).map m.content

/-- `free_directory`. -/
def freeDirectory (m : PagedMemory α) (dir : Nat) : PagedMemory α :=
  { m with paging := m.paging.freeDirectory dir }

/-- The frame of a page is changed. -/
def storeFrame (m : PagedMemory α) (frame : Nat) (change : α → α) : PagedMemory α :=
  { m with content := Function.update m.content frame (change (m.content frame)) }

end PagedMemory

/-- A call on the page tables, or a store by a program that runs in a directory. -/
inductive MemoryCall (α : Type) where
  | paging (call : PagingCall)
  | store (directory number : Nat) (change : α → α)

/-- The call changes pages of a directory: `clone_directory` changes none that is there. -/
def MemoryCall.Changes {α : Type} (directory : Nat) : MemoryCall α → Prop
  | .paging (.makePage _ _ other _) | .paging (.freePage _ other) |
    .paging (.freeDirectory other) | .store other _ _ => other = directory
  | .paging (.cloneDirectory _) => False

/-- The steps. Pages are given back in the directory of the kernel only, by `contract_heap`; a
store in a page that is not present faults and is not one. -/
inductive MemoryStep {α : Type} : PagedMemory α → MemoryCall α → PagedMemory α → Prop
  | makePage {m : PagedMemory α} {address directory : Nat} (blocks : PageBlocks)
      (inRange : address < uintWidth) (flags : Nat) (live : directory ∈ m.paging.directory)
      (alloc : Bool) : MemoryStep m (.paging (.makePage address flags directory alloc))
        { m with paging := (m.paging.makePage blocks address flags directory alloc).1 }
  | freePage {m : PagedMemory α} {address : Nat} (inRange : address < uintWidth) :
      MemoryStep m (.paging (.freePage address m.paging.kernelDirectory))
        { m with paging := (m.paging.freePage address m.paging.kernelDirectory).1 }
  | cloneDirectory {m : PagedMemory α} {src : Nat} (blocks : PageBlocks)
      (live : src ∈ m.paging.directory) :
      MemoryStep m (.paging (.cloneDirectory src)) (m.cloneDirectory blocks src).1
  | freeDirectory {m : PagedMemory α} {dir : Nat} (live : dir ∈ m.paging.directory)
      (user : dir ≠ m.paging.kernelDirectory) :
      MemoryStep m (.paging (.freeDirectory dir)) (m.freeDirectory dir)
  | store {m : PagedMemory α} {directory number frame : Nat}
      (found : m.paging.frameOf directory number = some frame) (change : α → α) :
      MemoryStep m (.store directory number change) (m.storeFrame frame change)

/-- Runs of the memory, whatever the frames contain at first, in which every allocation finds a
free frame. -/
def memorySystem (α : Type) : TransitionSystem (PagedMemory α) (MemoryCall α) where
  initial m := pagingSystem.initial m.paging ∧ m.paging.starved = false
  step m call m' := MemoryStep m call m' ∧ m'.paging.starved = false

/-! ## What a directory has for itself -/

namespace PagedMemory

variable {α : Type}

/-- The flags and the contents of a page in a table of the directory's own, if it has a frame. -/
def own (m : PagedMemory α) (directory number : Nat) : Option (Nat × α) :=
  let page := m.paging.pageNo directory number
  if m.paging.Private directory (number / tableEntries) ∧ page.frame ≠ 0 then
    some (page.flags, m.content page.frame)
  else none

/-- The directories but the one of the kernel, as spaces of pages. -/
def spaces (m : PagedMemory α) : Spaces Nat Nat (Nat × α) := fun directory =>
  if directory ∈ m.paging.directory ∧ directory ≠ m.paging.kernelDirectory then
    some (m.own directory)
  else none

end PagedMemory

/-- A call as one on spaces. -/
def MemoryCall.seen {α : Type} : MemoryCall α → Option (SpaceCall Nat Nat (Nat × α))
  | .paging (.makePage address _ directory _) => some (.map directory (address / frameSize))
  | .paging (.freePage _ _) => none
  | .paging (.cloneDirectory src) => some (.fork src)
  | .paging (.freeDirectory dir) => some (.release dir)
  | .store directory number change =>
    some (.store directory number fun page => (page.1, change page.2))

/-! ## Tables and entries -/

namespace Paging

variable {p p' q : Paging} {page other : PagePointer} {directory index number flags : Nat}
  {blocks : PageBlocks}

/-- A directory has been given a table at an index, a new one if there was none. -/
structure TableThere (directory index : Nat) (p q : Paging) : Prop where
  linked : q.Linked
  nonnull : q.tableOf directory index ≠ 0
  pages : ∀ page, q.pageAt page = p.pageAt page
  kept : ∀ other i, p.tableOf other i ≠ 0 → q.tableOf other i = p.tableOf other i
  fresh : ∀ other i, p.tableOf other i = 0 → q.tableOf other i ≠ 0 →
    other = directory ∧ q.tableOf other i ∉ p.table
  directories : ∀ other, other ∈ q.directory ↔ other ∈ p.directory
  kernelDirectory : q.kernelDirectory = p.kernelDirectory
  framemap : q.framemap = p.framemap
  framecount : q.framecount = p.framecount
  starved : q.starved = p.starved

/-- `make_page` allocates for an entry of a table that is there then. -/
theorem exists_tableThere {address : Nat} (linked : p.Linked) (referenced : p.Referenced 0)
    (blocks : PageBlocks) (inRange : address < uintWidth) (flags : Nat)
    (live : directory ∈ p.directory) (alloc : Bool) :
    ∃ q, TableThere directory (address / frameSize / tableEntries) p q ∧
      (p.makePage blocks address flags directory alloc).1 =
        if alloc then q.allocFrame (q.entryOf directory (address / frameSize)) flags else q := by
  have inside : address / frameSize / tableEntries < tableEntries := by
    simp only [frameSize, tableEntries, uintWidth] at *
    omega
  unfold makePage
  dsimp only
  by_cases absent : (p.directoryAt directory).physTabs (address / frameSize / tableEntries) = 0
  · have free : p.tableOf directory (address / frameSize / tableEntries) = 0 := by
      by_contra there
      exact (linked.present directory _).mpr there absent
    have made := linked.makeTable referenced blocks live inside free flags
    have fresh := blocks.table.address_fresh p.table
    have entered := @tableOf_setTable (p.newTable (blocks.table.address p.table)) directory live
      (address / frameSize / tableEntries) (blocks.table.address p.table)
      (blocks.phys (blocks.table.address p.table) ||| flags)
    rw [if_pos absent]
    refine ⟨p.makeTable blocks (address / frameSize / tableEntries) flags directory, ?_, rfl⟩
    refine ⟨made.1, made.2.2, pageAt_newTable fresh, fun other i there => ?_,
      fun other i none there => ?_, fun other => mem_directory_setTable _ directory _ _ _, rfl, rfl, rfl, rfl⟩
    · rw [makeTable, entered, if_neg]
      · rfl
      · rintro ⟨rfl, rfl⟩
        exact there free
    · rw [makeTable, entered] at there ⊢
      by_cases here : other = directory ∧ i = address / frameSize / tableEntries
      · rw [if_pos here]
        exact ⟨here.1, AList.lookup_eq_none.mp fresh⟩
      · rw [if_neg here] at there
        exact absurd none there
  · rw [if_neg absent]
    exact ⟨p, ⟨linked, (linked.present directory _).mp absent, fun _ => rfl, fun _ _ _ => rfl,
      fun _ _ none there => absurd none there, fun _ => Iff.rfl, rfl, rfl, rfl, rfl⟩, rfl⟩

/-- A directory has the same tables of its own, but for new ones. -/
theorem TableThere.private_iff (there : TableThere directory index p q) (linked : p.Linked)
    {other i : Nat} (old : p.tableOf other i ≠ 0) : q.Private other i ↔ p.Private other i := by
  have same := there.kept other i old
  rw [Private, Private, same, there.kernelDirectory]
  refine and_congr_right fun _ => ?_
  by_cases none : p.tableOf p.kernelDirectory i = 0
  · rw [none]
    refine iff_of_true (fun shared => ?_) (Ne.symm old)
    have new : q.tableOf p.kernelDirectory i ≠ 0 := fun zero => old (shared.symm.trans zero)
    exact (there.fresh _ i none new).2 (shared ▸ linked.live other i old)
  · rw [there.kept _ i none]

/-- An entry of a directory's own table is that of one page of this directory only. -/
theorem Private.unique {other number' : Nat} (linked : p.Linked)
    (owned : p.Private directory (number / tableEntries))
    (same : p.entryOf directory number = p.entryOf other number') :
    other = directory ∧ number' = number := by
  obtain ⟨tables, entries⟩ := Prod.ext_iff.mp same
  obtain ⟨indices, together⟩ := linked.shared directory other _ _ owned.1 tables
  refine ⟨(together.resolve_right owned.2).symm, ?_⟩
  simp only [tableEntries] at *
  omega

/-- Entries keep to their bits, and one in a table that is not the kernel's has a frame or is
empty. -/
structure Tidy (p : Paging) : Prop where
  narrow : ∀ page, (p.pageAt page).flags < pageFlags
  blank : ∀ page : PagePointer, (∀ i, p.tableOf p.kernelDirectory i ≠ page.1) →
    (p.pageAt page).frame = 0 → p.pageAt page = {}

/-- A change that keeps the tables of the kernel keeps the entries tidy, if those it changes
are. -/
theorem Tidy.change (tidy : p.Tidy) (linked : p.Linked)
    (kernel : ∀ i, p.tableOf p.kernelDirectory i ≠ 0 →
      p'.tableOf p'.kernelDirectory i = p.tableOf p.kernelDirectory i)
    (pages : ∀ page, p'.pageAt page = p.pageAt page ∨ p'.pageAt page = {} ∨
      (p'.pageAt page).flags < pageFlags ∧
        ((p'.pageAt page).frame ≠ 0 ∨ ∃ i, p'.tableOf p'.kernelDirectory i = page.1)) :
    p'.Tidy := by
  constructor
  · intro page
    rcases pages page with same | empty | ⟨narrow, _⟩
    · rw [same]
      exact tidy.narrow page
    · rw [empty]
      decide
    · exact narrow
  · intro page apart zero
    rcases pages page with same | empty | ⟨_, some_frame | ⟨i, shared⟩⟩
    · rw [same] at zero ⊢
      by_cases there : page.1 ∈ p.table
      · refine tidy.blank page (fun i shared => apart i ?_) zero
        rw [kernel i fun none => linked.null (none ▸ shared ▸ there), shared]
      · exact pageAt_of_dead there
    · exact empty
    · exact absurd zero some_frame
    · exact absurd shared (apart i)

/-- What `alloc_frame` makes of the entries. -/
theorem pageAt_allocFrame_cases (p : Paging) (page : PagePointer) (flags : Nat)
    (other : PagePointer) : (p.allocFrame page flags).pageAt other = p.pageAt other ∨
      other = page ∧ (p.pageAt page).frame = 0 ∧ (p.allocFrame page flags).pageAt other =
        { flags := flags % pageFlags, frame := p.firstFrame % frameNumbers } := by
  by_cases same : other = page
  · by_cases unmapped : (p.pageAt page).frame = 0
    · by_cases live : page.1 ∈ p.table
      · refine .inr ⟨same, unmapped, ?_⟩
        rw [pageAt_allocFrame unmapped live, if_pos same]
      · left
        have dead := (allocFrame_tables p page flags).table page.1
        rw [same, pageAt_of_dead live, pageAt_of_dead fun there => live (dead.mp there)]
    · rw [allocFrame_of_mapped unmapped]
      exact .inl rfl
  · exact .inl (pageAt_allocFrame_ne flags same)

/-- `first_frame` does not return frame 0, which is in use. -/
theorem firstFrame_ne_zero (reserved : p.marked 0) (small : p.framecount < frameNumbers) :
    p.firstFrame % frameNumbers ≠ 0 := by
  rcases p.firstFrame_spec with none | ⟨inside, free⟩
  · rw [none]
    decide
  · rw [Nat.mod_eq_of_lt (by omega)]
    intro zero
    exact free (zero ▸ reserved)

/-- `free_frame` changes one entry, which keeps its flags. -/
theorem freeFrame_entry (p : Paging) (page other : PagePointer) :
    (p.freeFrame page).pageAt other = p.pageAt other ∨
      other = page ∧ ((p.freeFrame page).pageAt other).flags = (p.pageAt page).flags := by
  have entries : (p.freeFrame page).pageAt other =
      (p.setPage page { p.pageAt page with frame := 0 }).pageAt other := by
    unfold freeFrame
    dsimp only
    split <;> rfl
  rw [entries]
  by_cases live : page.1 ∈ p.table
  · rw [pageAt_setPage live]
    by_cases same : other = page
    · rw [if_pos same]
      exact .inr ⟨same, rfl⟩
    · rw [if_neg same]
      exact .inl rfl
  · rw [setPage_of_dead live]
    exact .inl rfl

/-- The directory has a table of the kernel at the index. -/
def Shares (p : Paging) (directory index : Nat) : Prop :=
  p.tableOf directory index ≠ 0 ∧ p.tableOf p.kernelDirectory index = p.tableOf directory index

instance (p : Paging) (directory index : Nat) : Decidable (p.Shares directory index) :=
  inferInstanceAs (Decidable (_ ∧ _))

/-- A table of the kernel is not the directory's own. -/
theorem shares_iff (there : p.tableOf directory index ≠ 0) :
    p.Shares directory index ↔ ¬p.Private directory index := by
  rw [Shares, Private, and_iff_right there, and_iff_right there, not_not]

/-- What a directory shares depends on its tables and on those of the kernel. -/
theorem shares_congr (at_directory : p'.directoryAt directory = p.directoryAt directory)
    (at_kernel : p'.directoryAt p.kernelDirectory = p.directoryAt p.kernelDirectory)
    (kernel : p'.kernelDirectory = p.kernelDirectory) (index : Nat) :
    p'.Shares directory index ↔ p.Shares directory index := by
  rw [Shares, Shares, kernel, tableOf, tableOf, at_directory, at_kernel]

/-! ## Entries stay tidy -/

/-- `make_page` with a frame that is not frame 0, or in the directory of the kernel. -/
theorem Tidy.makePage {address : Nat} (tidy : p.Tidy) (linked : p.Linked)
    (referenced : p.Referenced 0) (blocks : PageBlocks) (inRange : address < uintWidth)
    (flags : Nat) (live : directory ∈ p.directory) (alloc : Bool)
    (reserved : p.marked 0 ∧ p.framecount < frameNumbers ∨ directory = p.kernelDirectory) :
    (p.makePage blocks address flags directory alloc).1.Tidy := by
  obtain ⟨q, there, made⟩ := exists_tableThere linked referenced blocks inRange flags live alloc
  have tables (i : Nat) (old : p.tableOf p.kernelDirectory i ≠ 0) :
      q.tableOf q.kernelDirectory i = p.tableOf p.kernelDirectory i := by
    rw [there.kernelDirectory]
    exact there.kept _ i old
  rw [made]
  cases alloc with
  | false => exact tidy.change linked tables fun page => .inl (there.pages page)
  | true =>
    have same := allocFrame_tables q (q.entryOf directory (address / frameSize)) flags
    refine tidy.change linked (fun i old => ?_) fun page => ?_
    · rw [if_pos rfl, tableOf, same.directoryAt, same.kernelDirectory]
      exact tables i old
    · rw [if_pos rfl]
      rcases q.pageAt_allocFrame_cases (q.entryOf directory (address / frameSize)) flags page with
        kept | ⟨rfl, _, entry⟩
      · exact .inl (kept.trans (there.pages page))
      · refine .inr (.inr ?_)
        rw [entry]
        refine ⟨Nat.mod_lt _ (by decide), ?_⟩
        rcases reserved with ⟨reserved, small⟩ | kernel
        · left
          dsimp only
          rw [firstFrame_congr there.framecount there.framemap]
          exact firstFrame_ne_zero reserved small
        · right
          refine ⟨address / frameSize / tableEntries, ?_⟩
          rw [tableOf, same.directoryAt, same.kernelDirectory, there.kernelDirectory, kernel]

/-- `free_page` in the directory of the kernel. -/
theorem Tidy.freePage (tidy : p.Tidy) (linked : p.Linked) (address : Nat) :
    (p.freePage address p.kernelDirectory).1.Tidy := by
  unfold Paging.freePage
  dsimp only
  split
  · exact tidy
  · have same := freeFrame_tables p (p.entryOf p.kernelDirectory (address / frameSize))
    refine tidy.change linked (fun i _ => ?_) fun page => ?_
    · rw [tableOf, same.directoryAt, same.kernelDirectory]
    · rcases p.freeFrame_entry (p.entryOf p.kernelDirectory (address / frameSize)) page with
        kept | ⟨rfl, flags⟩
      · exact .inl kept
      · refine .inr (.inr ⟨flags ▸ tidy.narrow _, .inr ⟨address / frameSize / tableEntries, ?_⟩⟩)
        rw [tableOf, same.directoryAt, same.kernelDirectory]

/-- What `free_directory` leaves. -/
theorem Tidy.leaves {dir : Nat} (tidy : p.Tidy) (linked : p.Linked) (leaves : Leaves dir p q)
    (user : dir ≠ p.kernelDirectory) : q.Tidy := by
  refine tidy.change linked (fun i _ => ?_) fun page => ?_
  · rw [leaves.kernelDirectory, tableOf, directoryAt, leaves.directory, if_neg user.symm]
    rfl
  · by_cases there : page.1 ∈ q.table
    · exact .inl (leaves.pages page there)
    · exact .inr (.inl (pageAt_of_dead there))

end Paging

/-! ## Spaces -/

namespace PagedMemory

variable {α : Type} {m m' : PagedMemory α} {directory number index flags : Nat}
  {blocks : PageBlocks}

/-- What every state of a run has. -/
structure Sound (m : PagedMemory α) : Prop where
  invariant : m.paging.PagingInvariant
  tidy : m.paging.Tidy
  fed : m.paging.starved = false

/-- A directory has nothing where it has no table of its own. -/
theorem own_of_not_private (shared : ¬m.paging.Private directory (number / tableEntries)) :
    m.own directory number = none := if_neg fun both => shared both.1

/-- What a directory has in a table of its own. -/
theorem own_of_private (owned : m.paging.Private directory (number / tableEntries)) :
    m.own directory number =
      if (m.paging.pageNo directory number).frame ≠ 0 then
        some ((m.paging.pageNo directory number).flags,
          m.content (m.paging.pageNo directory number).frame)
      else none := by
  unfold own
  dsimp only
  by_cases mapped : (m.paging.pageNo directory number).frame ≠ 0
  · rw [if_pos ⟨owned, mapped⟩, if_pos mapped]
  · rw [if_neg fun both => mapped both.2, if_neg mapped]

/-- What a directory has depends on its own tables and on the frames that they record. -/
theorem own_congr (owned : m'.paging.Private directory (number / tableEntries) ↔
      m.paging.Private directory (number / tableEntries))
    (page : m.paging.Private directory (number / tableEntries) →
      m'.paging.pageNo directory number = m.paging.pageNo directory number)
    (content : (m.paging.pageNo directory number).frame ≠ 0 →
      m'.content (m.paging.pageNo directory number).frame =
        m.content (m.paging.pageNo directory number).frame) :
    m'.own directory number = m.own directory number := by
  by_cases here : m.paging.Private directory (number / tableEntries)
  · rw [own_of_private here, own_of_private (owned.mpr here), page here]
    split
    · rename_i mapped
      rw [content mapped]
    · rfl
  · rw [own_of_not_private here, own_of_not_private fun there => here (owned.mp there)]

/-- The spaces are the same if the directories are, and what they have. -/
theorem spaces_congr (directories : ∀ other, other ∈ m'.paging.directory ↔
      other ∈ m.paging.directory) (kernel : m'.paging.kernelDirectory = m.paging.kernelDirectory)
    (same : ∀ other n, m'.own other n = m.own other n) : m'.spaces = m.spaces := by
  funext other
  rw [spaces, spaces, funext (same other)]
  exact if_congr (and_congr (directories other) (by rw [kernel])) rfl rfl

/-- The spaces after a change in one page. -/
theorem spaces_alter (directories : ∀ other, other ∈ m'.paging.directory ↔
      other ∈ m.paging.directory) (kernel : m'.paging.kernelDirectory = m.paging.kernelDirectory)
    (change : Option (Nat × α) → Option (Nat × α))
    (here : m'.own directory number = change (m.own directory number))
    (same : ∀ other n, ¬(other = directory ∧ n = number) → m'.own other n = m.own other n) :
    m'.spaces = m.spaces.alter directory number change := by
  have there (other : Nat) : other ∈ m'.paging.directory ∧ other ≠ m'.paging.kernelDirectory ↔
      other ∈ m.paging.directory ∧ other ≠ m.paging.kernelDirectory :=
    and_congr (directories other) (by rw [kernel])
  funext other
  by_cases named : other = directory
  · subst named
    by_cases user : other ∈ m.paging.directory ∧ other ≠ m.paging.kernelDirectory
    · have before : m.spaces other = some (m.own other) := if_pos user
      rw [Spaces.alter_self before, spaces, if_pos ((there other).mpr user)]
      congr 1
      funext n
      by_cases page : n = number
      · rw [page, here, Function.update_self]
      · rw [Function.update_of_ne page, same other n fun both => page both.2]
    · have before : m.spaces other = none := if_neg user
      rw [Spaces.alter_of_none before, before, spaces, if_neg fun both => user ((there other).mp both)]
  · rw [Spaces.alter_ne _ named, spaces, spaces,
      funext fun n => same other n fun both => named both.1]
    exact if_congr (there other) rfl rfl

/-! ## The steps on spaces -/

/-- A table that is made gives a directory nothing. -/
theorem own_tableThere {q : Paging} (linked : m.paging.Linked)
    (there : Paging.TableThere directory index m.paging q) (other n : Nat) :
    ({ m with paging := q } : PagedMemory α).own other n = m.own other n := by
  by_cases old : m.paging.tableOf other (n / tableEntries) = 0
  · rw [own_of_not_private fun owned => owned.1 old]
    by_cases new : q.tableOf other (n / tableEntries) = 0
    · exact own_of_not_private fun owned => owned.1 new
    · refine if_neg fun both => both.2 ?_
      have dead : q.tableOf other (n / tableEntries) ∉ m.paging.table :=
        (there.fresh other _ old new).2
      change (q.pageAt (q.entryOf other n)).frame = 0
      rw [there.pages, Paging.pageAt_of_dead dead]
  · refine own_congr (there.private_iff linked old) (fun _ => ?_) fun _ => rfl
    change q.pageAt (q.tableOf other (n / tableEntries), n % tableEntries) = _
    rw [there.pages, there.kept other _ old]
    rfl

/-- An allocation for an entry without a frame leaves what the directories have in others. -/
theorem own_allocFrame (linked : m.paging.Linked) (other n : Nat) :
    let after : PagedMemory α :=
      { m with paging := m.paging.allocFrame (m.paging.entryOf directory number) flags }
    after.own other n = m.own other n ∨
      other = directory ∧ n = number ∧ m.own other n = none := by
  intro after
  have same := Paging.allocFrame_tables m.paging (m.paging.entryOf directory number) flags
  have entry : after.paging.entryOf other n = m.paging.entryOf other n := by
    rw [Paging.entryOf, Paging.tableOf, same.directoryAt]
  have owned : after.paging.Private other (n / tableEntries) ↔
      m.paging.Private other (n / tableEntries) := by
    rw [Paging.Private, Paging.tableOf, Paging.tableOf, same.directoryAt, same.kernelDirectory,
      same.directoryAt]
    exact Iff.rfl
  rcases m.paging.pageAt_allocFrame_cases (m.paging.entryOf directory number) flags
    (m.paging.entryOf other n) with kept | ⟨here, unmapped, _⟩
  · exact .inl (own_congr owned (fun _ => by rw [Paging.pageNo, entry]; exact kept) fun _ => rfl)
  · by_cases mine : m.paging.Private other (n / tableEntries)
    · obtain ⟨rfl, rfl⟩ := mine.unique linked here
      refine .inr ⟨rfl, rfl, if_neg fun both => both.2 ?_⟩
      exact unmapped
    · left
      rw [own_of_not_private mine, own_of_not_private fun there => mine (owned.mp there)]

/-- `make_page` leaves what the directories have in pages but the one without contents. -/
theorem makePage_own {address : Nat} (invariant : m.paging.PagingInvariant) (blocks : PageBlocks)
    (inRange : address < uintWidth) (flags : Nat) (live : directory ∈ m.paging.directory)
    (alloc : Bool) (other n : Nat) :
    let after := PagedMemory.mk (m.paging.makePage blocks address flags directory alloc).1 m.content
    after.own other n = m.own other n ∨
      other = directory ∧ n = address / frameSize ∧ m.own other n = none := by
  obtain ⟨q, there, made⟩ := Paging.exists_tableThere invariant.linked invariant.referenced blocks
    inRange flags live alloc
  dsimp only
  rw [made, ← own_tableThere invariant.linked there]
  cases alloc with
  | false => exact .inl rfl
  | true =>
    have opened : (PagedMemory.mk q m.content).paging.Linked := there.linked
    exact own_allocFrame opened other n

/-- `make_page` gives the page contents, if it is one of the directory's own without any. -/
theorem makePage_spaces {address : Nat} (invariant : m.paging.PagingInvariant)
    (blocks : PageBlocks) (inRange : address < uintWidth) (flags : Nat)
    (live : directory ∈ m.paging.directory) (alloc : Bool) :
    let after := PagedMemory.mk (m.paging.makePage blocks address flags directory alloc).1 m.content
    after.spaces = m.spaces.alter directory (address / frameSize)
      (·.or (after.own directory (address / frameSize))) := by
  intro after
  obtain ⟨q, there, made⟩ := Paging.exists_tableThere invariant.linked invariant.referenced blocks
    inRange flags live alloc
  have own := makePage_own invariant blocks inRange flags live alloc
  have same := Paging.allocFrame_tables q (q.entryOf directory (address / frameSize)) flags
  refine spaces_alter (fun other => ?_) ?_ _ ?_ fun other n apart => ?_
  · change other ∈ (m.paging.makePage blocks address flags directory alloc).1.directory ↔ _
    rw [made, ← there.directories]
    cases alloc with
    | false => exact Iff.rfl
    | true => exact iff_of_eq (congrArg (other ∈ ·) same.directory)
  · change (m.paging.makePage blocks address flags directory alloc).1.kernelDirectory = _
    rw [made, ← there.kernelDirectory]
    cases alloc with
    | false => rfl
    | true => exact same.kernelDirectory
  · rcases own directory (address / frameSize) with kept | ⟨_, _, free⟩
    · rw [kept]
      cases m.own directory (address / frameSize) <;> rfl
    · rw [free]
      rfl
  · exact (own other n).resolve_right fun here => apart ⟨here.1, here.2.1⟩

/-- The frame behind a page is the one that its entry records. -/
theorem frameOf_frame {p : Paging} {frame : Nat} (found : p.frameOf directory number = some frame) :
    (p.pageNo directory number).frame = frame := by
  unfold Paging.frameOf at found
  dsimp only at found
  split at found
  · cases found
  · split at found
    · exact Option.some.inj found
    · cases found

/-- A store changes a page of the directory's own, or none. -/
theorem store_spaces {frame : Nat} (sound : m.Sound)
    (found : m.paging.frameOf directory number = some frame) (change : α → α) :
    (m.storeFrame frame change).spaces =
      m.spaces.alter directory number (Option.map fun page => (page.1, change page.2)) := by
  have frames := sound.invariant.frames sound.fed
  have here := frameOf_frame found
  have directories (other : Nat) : other ∈ (m.storeFrame frame change).paging.directory ↔
      other ∈ m.paging.directory := Iff.rfl
  refine spaces_alter directories rfl _ ?_ fun other n apart => ?_
  · by_cases owned : m.paging.Private directory (number / tableEntries)
    · rw [own_of_private owned, own_of_private (m := m.storeFrame frame change) owned]
      change (if (m.paging.pageNo directory number).frame ≠ 0 then _ else none) = _
      split
      · change some ((m.paging.pageNo directory number).flags,
          Function.update m.content frame (change (m.content frame))
            (m.paging.pageNo directory number).frame) = _
        rw [here, Function.update_self]
        rfl
      · rfl
    · rw [own_of_not_private owned, own_of_not_private (m := m.storeFrame frame change) owned]
      rfl
  · by_cases owned : m.paging.Private other (n / tableEntries)
    · refine own_congr Iff.rfl (fun _ => rfl) fun mapped => Function.update_of_ne (fun same => ?_) _ _
      -- the frame would have two entries
      have mine : m.paging.holds (m.paging.entryOf other n) = some frame :=
        Paging.holds_eq_some.mpr ⟨same ▸ mapped, same⟩
      have theirs : m.paging.holds (m.paging.entryOf directory number) = some frame :=
        Paging.holds_eq_some.mpr ⟨same ▸ mapped, here⟩
      obtain ⟨rfl, rfl⟩ := owned.unique sound.invariant.linked
        (frames.owned.distinct _ _ _ mine theirs)
      exact apart ⟨rfl, rfl⟩
    · rw [own_of_not_private owned, own_of_not_private (m := m.storeFrame frame change) owned]

/-- What a directory that is there has as a space. -/
theorem contents_spaces (live : directory ∈ m.paging.directory) :
    m.spaces.contents directory = m.own directory := by
  by_cases user : directory = m.paging.kernelDirectory
  · have absent : m.spaces directory = none := if_neg fun both => both.2 user
    funext n
    rw [Spaces.contents, absent, own_of_not_private fun owned => owned.2 (by rw [user])]
    rfl
  · exact Spaces.contents_of_some (if_pos ⟨live, user⟩)

/-- `free_page` in the directory of the kernel takes nothing from the spaces. -/
theorem freePage_spaces (sound : m.Sound) (address : Nat) :
    (PagedMemory.mk (m.paging.freePage address m.paging.kernelDirectory).1 m.content).spaces =
      m.spaces := by
  unfold Paging.freePage
  dsimp only
  split
  · rfl
  · set page := m.paging.entryOf m.paging.kernelDirectory (address / frameSize)
    have same := Paging.freeFrame_tables m.paging page
    have kept := m.paging.freeFrame_entry page
    refine spaces_congr (fun other => iff_of_eq (congrArg (other ∈ ·) same.directory))
      same.kernelDirectory fun other n => own_congr ?_ (fun owned => ?_) fun _ => rfl
    · change (m.paging.freeFrame page).Private _ _ ↔ _
      rw [Paging.Private, Paging.tableOf, Paging.tableOf, same.directoryAt, same.kernelDirectory,
        same.directoryAt]
      exact Iff.rfl
    · change (m.paging.freeFrame page).pageAt
        (((m.paging.freeFrame page).directoryAt other).tables _, _) = _
      rw [same.directoryAt]
      refine (kept (m.paging.entryOf other n)).resolve_right fun here => ?_
      obtain ⟨rfl, _⟩ := owned.unique sound.invariant.linked here.1
      exact owned.2 rfl

/-- What `free_directory` leaves are the other spaces. -/
theorem spaces_leaves {q : Paging} {dir : Nat} (linked : m.paging.Linked)
    (leaves : Paging.Leaves dir m.paging q) (user : dir ≠ m.paging.kernelDirectory) :
    (PagedMemory.mk q m.content).spaces = Function.update m.spaces dir none := by
  have at_other {other : Nat} (apart : other ≠ dir) :
      q.directoryAt other = m.paging.directoryAt other := by
    rw [Paging.directoryAt, leaves.directory, if_neg apart, Paging.directoryAt]
  funext other
  by_cases same : other = dir
  · rw [same, Function.update_self]
    refine if_neg fun both => ?_
    have gone := leaves.directory dir
    rw [if_pos rfl] at gone
    exact AList.lookup_eq_none.mp gone both.1
  · rw [Function.update_of_ne same]
    have there : other ∈ q.directory ↔ other ∈ m.paging.directory := by
      rw [← AList.lookup_isSome, leaves.directory, if_neg same, AList.lookup_isSome]
    have owned (i : Nat) : q.Private other i ↔ m.paging.Private other i := by
      rw [Paging.Private, Paging.tableOf, Paging.tableOf, leaves.kernelDirectory, at_other same,
        at_other user.symm]
      exact Iff.rfl
    have kept (n : Nat) : (PagedMemory.mk q m.content).own other n = m.own other n := by
      refine own_congr (owned _) (fun mine => ?_) fun _ => rfl
      change q.pageAt ((q.directoryAt other).tables _, _) = _
      rw [at_other same]
      refine leaves.pages (m.paging.entryOf other n) ((leaves.table _).mpr
        ⟨linked.live other _ mine.1, fun i _ freed => ?_⟩)
      -- a table of both directories would be one of the kernel
      obtain ⟨rfl, together⟩ := linked.shared other dir _ i mine.1 freed.1.symm
      exact mine.2 (together.resolve_left same)
    rw [spaces, spaces, funext kept]
    exact if_congr (and_congr there (by rw [leaves.kernelDirectory])) rfl rfl

/-- What a copy has is what the source has. -/
theorem own_clone {src dir : Nat} (linked : m.paging.Linked) (linked' : m'.paging.Linked)
    (clone : IsClone blocks src dir m m')
    (kernel : ∀ i, m'.paging.tableOf m'.paging.kernelDirectory i =
      m.paging.tableOf m.paging.kernelDirectory i) (n : Nat) : m'.own dir n = m.own src n := by
  by_cases inside : n / tableEntries < tableEntries
  · by_cases owned : m.paging.Private src (n / tableEntries)
    · have table := clone.own _ inside owned
      have nonnull : m'.paging.tableOf dir (n / tableEntries) ≠ 0 := fun none =>
        linked'.null (none ▸ table.live)
      have owned' : m'.paging.Private dir (n / tableEntries) := by
        refine ⟨nonnull, fun shared => table.fresh ?_⟩
        rw [kernel] at shared
        rw [← shared]
        exact linked.live _ _ (shared ▸ nonnull)
      have entry : n % tableEntries < tableEntries := Nat.mod_lt _ (by decide)
      rw [own_of_private owned, own_of_private owned']
      by_cases mapped : (m.paging.pageNo src n).frame ≠ 0
      · have page := table.mapped _ entry mapped
        have mapped' : (m'.paging.pageNo dir n).frame ≠ 0 := page.mapped
        rw [if_pos mapped, if_pos mapped']
        exact congrArg some (Prod.ext page.flags page.content)
      · have unmapped' : (m'.paging.pageNo dir n).frame = 0 :=
          table.unmapped _ entry (not_not.mp mapped)
        rw [if_neg mapped, if_neg (not_not.mpr unmapped')]
    · rw [own_of_not_private owned, own_of_not_private]
      by_cases none : m.paging.tableOf src (n / tableEntries) = 0
      · exact fun owned' => owned'.1 (clone.null _ inside none).1
      · have together : m.paging.tableOf m.paging.kernelDirectory (n / tableEntries) =
            m.paging.tableOf src (n / tableEntries) :=
          not_not.mp fun apart => owned ⟨none, apart⟩
        exact fun owned' => owned'.2
          ((kernel _).trans (together.trans (clone.shared _ inside none together).1.symm))
  · rw [own_of_not_private fun owned => inside (linked.inside _ _ owned.1),
      own_of_not_private fun owned => inside (linked'.inside _ _ owned.1)]

/-- What a copy shares is what the source shares. -/
theorem shares_clone {src dir : Nat} (linked : m.paging.Linked) (linked' : m'.paging.Linked)
    (clone : IsClone blocks src dir m m')
    (kernel : ∀ i, m'.paging.tableOf m'.paging.kernelDirectory i =
      m.paging.tableOf m.paging.kernelDirectory i) (i : Nat) :
    m'.paging.Shares dir i ↔ m.paging.Shares src i := by
  rw [Paging.Shares, kernel]
  by_cases inside : i < tableEntries
  · by_cases none : m.paging.tableOf src i = 0
    · exact iff_of_false (fun shares => shares.1 (clone.null i inside none).1)
        fun shares => shares.1 none
    · by_cases together : m.paging.tableOf m.paging.kernelDirectory i = m.paging.tableOf src i
      · rw [(clone.shared i inside none together).1, Paging.Shares]
      · refine iff_of_false (fun shares => ?_) fun shares => together shares.2
        have table := clone.own i inside ⟨none, together⟩
        exact table.fresh (shares.2 ▸ linked.live _ i (shares.2.symm ▸ shares.1))
  · exact iff_of_false (fun shares => inside (linked'.inside _ _ shares.1))
      fun shares => inside (linked.inside _ _ shares.1)

/-- When `clone_directory` finds its frames, it makes a copy and keeps the tables of the
kernel. -/
theorem Sound.isClone {src : Nat} (sound : m.Sound) (blocks : PageBlocks)
    (live : src ∈ m.paging.directory)
    (fed : (m.cloneDirectory blocks src).1.paging.starved = false) :
    (m.cloneDirectory blocks src).1.paging.Linked ∧
      IsClone blocks src (m.cloneDirectory blocks src).2 m (m.cloneDirectory blocks src).1 ∧
      ∀ i, (m.cloneDirectory blocks src).1.paging.tableOf
          (m.cloneDirectory blocks src).1.paging.kernelDirectory i =
        m.paging.tableOf m.paging.kernelDirectory i := by
  have linked := sound.invariant.linked
  have frames := sound.invariant.frames sound.fed
  have clones := cloneDirectory_clones sound.invariant blocks frames.small live
  obtain ⟨invariant', directories⟩ := cloneDirectory_directories sound.invariant blocks live
  have clone := clones.isClone directories sound.invariant invariant' fed sound.tidy.narrow
  refine ⟨invariant'.linked, clone, fun i => ?_⟩
  have user : m.paging.kernelDirectory ≠ (m.cloneDirectory blocks src).2 :=
    fun same => clone.fresh (same ▸ linked.kernel)
  rw [clone.kernelDirectory, Paging.tableOf, clone.others _ user]

/-- `clone_directory` gives the new directory what the source has, and leaves the others. -/
theorem cloneDirectory_spaces {src : Nat} (sound : m.Sound) (blocks : PageBlocks)
    (live : src ∈ m.paging.directory)
    (fed : (m.cloneDirectory blocks src).1.paging.starved = false) :
    m.spaces (m.cloneDirectory blocks src).2 = none ∧
      (m.cloneDirectory blocks src).1.spaces =
        Function.update m.spaces (m.cloneDirectory blocks src).2
          (some (m.spaces.contents src)) := by
  have linked := sound.invariant.linked
  have frames := sound.invariant.frames sound.fed
  obtain ⟨linked', clone, kernel⟩ := sound.isClone blocks live fed
  rw [contents_spaces live]
  generalize (m.cloneDirectory blocks src).2 = dir at *
  generalize (m.cloneDirectory blocks src).1 = m' at *
  have user : m.paging.kernelDirectory ≠ dir := fun same => clone.fresh (same ▸ linked.kernel)
  refine ⟨if_neg fun both => clone.fresh both.1, funext fun other => ?_⟩
  by_cases new : other = dir
  · rw [new, Function.update_self]
    have there : dir ∈ m'.paging.directory ∧ dir ≠ m'.paging.kernelDirectory :=
      ⟨(clone.directories dir).mpr (.inl rfl), clone.kernelDirectory ▸ user.symm⟩
    rw [spaces, if_pos there]
    exact congrArg some (funext (own_clone linked linked' clone kernel))
  · rw [Function.update_of_ne new]
    have owned (i : Nat) : m'.paging.Private other i ↔ m.paging.Private other i := by
      rw [Paging.Private, kernel, Paging.tableOf, clone.others other new]
      exact Iff.rfl
    have kept (n : Nat) : m'.own other n = m.own other n := by
      by_cases mine : m.paging.Private other (n / tableEntries)
      · refine own_congr (owned _) (fun _ => ?_) fun mapped => ?_
        · rw [Paging.pageNo, Paging.entryOf, Paging.tableOf, clone.others other new]
          exact clone.entries (m.paging.entryOf other n) (linked.live other _ mine.1)
        · exact clone.contents _ (marked_of_recorded frames mapped)
      · rw [own_of_not_private mine, own_of_not_private fun there => mine ((owned _).mp there)]
    rw [spaces, spaces, funext kept]
    refine if_congr (and_congr ?_ (by rw [clone.kernelDirectory])) rfl rfl
    rw [clone.directories, or_iff_right new]

/-- The copy of a tidy directory is tidy. -/
theorem tidy_clone {src dir : Nat} (sound : m.Sound) (clones : Clones blocks src dir m m')
    (fed : m'.paging.starved = false) (user : m.paging.kernelDirectory ≠ dir)
    (directories : Directories src dir m.paging m'.paging) : m'.paging.Tidy := by
  have frames := sound.invariant.frames sound.fed
  have copied := clones.copied fed
  refine sound.tidy.change sound.invariant.linked (fun i _ => ?_) fun page => ?_
  · rw [directories.kernelDirectory, Paging.tableOf, directories.others _ user]
  · by_cases source : ∃ original, MadeFor m.paging m'.paging src dir tableEntries page original
    · obtain ⟨original, made⟩ := source
      have copy := copied.copied page original made
      have free := (Paging.mem_freeFrames.mp copy.free).2
      refine .inr (.inr ⟨copy.flags ▸ Nat.mod_lt _ (by decide), .inl fun zero => ?_⟩)
      exact free (zero ▸ (frames.owned.used_iff 0).mpr (.inl rfl))
    · exact .inl (copied.kept page (not_exists.mp source))

/-- Every step that finds its frames keeps the memory sound. -/
theorem Sound.step {call : MemoryCall α} (sound : m.Sound) (step : MemoryStep m call m')
    (fed : m'.paging.starved = false) : m'.Sound := by
  have linked := sound.invariant.linked
  have frames := sound.invariant.frames sound.fed
  cases step with
  | makePage blocks inRange flags live alloc =>
    exact ⟨sound.invariant.makePage blocks inRange flags live alloc,
      sound.tidy.makePage linked sound.invariant.referenced blocks inRange flags live alloc
        (.inl ⟨(frames.owned.used_iff 0).mpr (.inl rfl), frames.small⟩), fed⟩
  | freePage inRange =>
    exact ⟨sound.invariant.freePage _ _, sound.tidy.freePage linked _, fed⟩
  | cloneDirectory blocks live =>
    obtain ⟨invariant', directories⟩ := cloneDirectory_directories sound.invariant blocks live
    have clones := cloneDirectory_clones sound.invariant blocks frames.small live
    exact ⟨invariant', tidy_clone sound clones fed
      (fun same => directories.fresh (same ▸ linked.kernel)) directories, fed⟩
  | freeDirectory live user =>
    exact ⟨sound.invariant.freeDirectory user,
      sound.tidy.leaves linked (m.paging.freeDirectory_leaves _) user, fed⟩
  | store found change => exact ⟨sound.invariant, sound.tidy, sound.fed⟩

/-- A run starts with a sound memory. -/
theorem Sound.start (initial : (memorySystem α).initial m) : m.Sound := by
  obtain ⟨start, fed⟩ := initial
  refine ⟨.start start, ?_, fed⟩
  obtain ⟨memoryEnd, _, kernelDirectory, blocks, flags, address, inside, made⟩ := start
  have linked := Paging.empty_linked memoryEnd kernelDirectory
  have empty (page : PagePointer) : (Paging.empty memoryEnd kernelDirectory).pageAt page = {} :=
    Paging.pageAt_of_dead (AList.notMem_empty page.1)
  have tidy : (Paging.empty memoryEnd kernelDirectory).Tidy :=
    ⟨fun page => by rw [empty]; decide, fun page _ _ => empty page⟩
  rw [made]
  refine tidy.makePage linked (fun table there => absurd there (AList.notMem_empty table)) blocks
    ?_ flags linked.kernel true (.inr rfl)
  simp only [frameSize, uintWidth] at *
  omega

/-- Every state that a run reaches is sound. -/
theorem sound_of_reachable (reached : (memorySystem α).Reachable m) : m.Sound :=
  reached.invariant (fun _ initial => .start initial)
    fun _ _ _ sound _ step => sound.step step.1 step.2

/-- A run starts without spaces. -/
theorem spaces_start (initial : (memorySystem α).initial m) (directory : Nat) :
    m.spaces directory = none := by
  obtain ⟨⟨memoryEnd, _, kernelDirectory, blocks, flags, address, inside, made⟩, _⟩ := initial
  have linked := Paging.empty_linked memoryEnd kernelDirectory
  have live : kernelDirectory ∈ (Paging.empty memoryEnd kernelDirectory).directory := linked.kernel
  have inRange : address < uintWidth := by
    simp only [frameSize, uintWidth] at *
    omega
  obtain ⟨q, there, eq⟩ := Paging.exists_tableThere linked
    (fun table there => absurd there (AList.notMem_empty table)) blocks inRange flags live true
  have same := Paging.allocFrame_tables q (q.entryOf kernelDirectory (address / frameSize)) flags
  rw [if_pos rfl] at eq
  refine if_neg fun both => both.2 ?_
  have old := both.1
  rw [made, eq, same.directory, there.directories] at old
  rw [made, eq, same.kernelDirectory, there.kernelDirectory]
  exact ((AList.mem_insert _).mp old).resolve_right (AList.notMem_empty directory)

/-- A step is one on spaces, or does not concern them. -/
theorem Sound.simulates {call : MemoryCall α} (sound : m.Sound) (step : MemoryStep m call m')
    (fed : m'.paging.starved = false) :
    (call.seen = none ∧ m'.spaces = m.spaces) ∨
      ∃ seen, call.seen = some seen ∧ Spaces.Step m.spaces seen m'.spaces := by
  cases step with
  | makePage blocks inRange flags live alloc =>
    refine .inr ⟨_, rfl, ?_⟩
    rw [makePage_spaces sound.invariant blocks inRange flags live alloc]
    exact .map _ _ _
  | freePage inRange => exact .inl ⟨rfl, freePage_spaces sound _⟩
  | cloneDirectory blocks live =>
    obtain ⟨fresh, spaces⟩ := cloneDirectory_spaces sound blocks live fed
    refine .inr ⟨_, rfl, ?_⟩
    rw [spaces]
    exact .fork _ fresh
  | freeDirectory live user =>
    refine .inr ⟨_, rfl, ?_⟩
    rw [freeDirectory, spaces_leaves sound.invariant.linked (m.paging.freeDirectory_leaves _) user]
    exact .release _
  | store found change =>
    refine .inr ⟨_, rfl, ?_⟩
    rw [store_spaces sound found change]
    exact .store _ _ _

end PagedMemory

end Nupkux
