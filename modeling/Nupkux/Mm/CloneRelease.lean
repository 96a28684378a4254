import Nupkux.Mm.CloneDirectory

/-!
# A copy and its release

When the frame map has a free frame for each page to copy, `clone_directory` makes a copy whose
own pages have frames of their own, and `free_directory` of the copy gives back exactly these
frames and the tables they are entered in.
-/

namespace Nupkux

namespace Paging

variable {p p' : Paging} {page : PagePointer} {dir bound i : Nat}

/-! ## Release -/

/-- A turn of `free_directory` keeps the entries of the tables that remain. -/
theorem pageAt_freeEntry (remains : page.1 ∈ (p.freeEntry dir i).table) :
    (p.freeEntry dir i).pageAt page = p.pageAt page := by
  unfold freeEntry at remains ⊢
  split
  · rfl
  · rename_i some_table
    rw [if_neg some_table] at remains
    split
    · rename_i apart
      rw [if_pos apart] at remains
      have differ := ((freeTable_tables p _).2.2.2 page.1).mp remains
      have cleared := clearEntries_frame (p.tableOf dir i) tableEntries p
      unfold freeTable
      generalize clearEntries (p.tableOf dir i) tableEntries p = q at cleared ⊢
      obtain ⟨framemap, rfl⟩ := cleared
      dsimp only
      rw [pageAt, Store.lookup_erase_eq, if_neg differ.1, pageAt]
    · rfl

/-- An entry is read from the table found. -/
theorem pageAt_eq_getD (p : Paging) (page : PagePointer) :
    p.pageAt page = (p.table.lookup page.1).getD (fun _ => {}) page.2 := by
  rw [pageAt]
  cases p.table.lookup page.1 <;> rfl

/-- The loop of `free_directory` keeps the entries of the tables that remain. -/
theorem pageAt_freeTables (remains : page.1 ∈ (freeTables dir bound p).table) :
    (freeTables dir bound p).pageAt page = p.pageAt page := by
  induction bound generalizing p with
  | zero => rfl
  | succ i ih =>
    rw [freeTables] at remains ⊢
    have later := ((freeTables_tables dir i (p.freeEntry dir i)).2.2.2.2 page.1).mp remains
    rw [ih remains, pageAt_freeEntry later.1]

/-- What `free_directory` leaves. -/
structure Leaves (dir : Nat) (p p' : Paging) : Prop where
  kernelDirectory : p'.kernelDirectory = p.kernelDirectory
  starved : p'.starved = p.starved
  directory : ∀ other, p'.directory.lookup other =
    if other = dir then none else p.directory.lookup other
  table : ∀ table, table ∈ p'.table ↔ table ∈ p.table ∧ ∀ i < tableEntries, ¬p.Own dir i table
  pages : ∀ page : PagePointer, page.1 ∈ p'.table → p'.pageAt page = p.pageAt page

/-- A directory goes after its own tables. -/
theorem Leaves.erase {q : Paging} (directory : q.directory = p.directory)
    (kernel : q.kernelDirectory = p.kernelDirectory) (starved : q.starved = p.starved)
    (table : ∀ table, table ∈ q.table ↔ table ∈ p.table ∧ ∀ i < tableEntries, ¬p.Own dir i table)
    (pages : ∀ page : PagePointer, page.1 ∈ q.table → q.pageAt page = p.pageAt page) :
    Leaves dir p { q with directory := q.directory.erase dir } where
  kernelDirectory := kernel
  starved := starved
  directory other := by rw [Store.lookup_erase_eq, directory]
  table := table
  pages := pages

/-- `free_directory` leaves the other directories, and the tables that are not its own. -/
theorem freeDirectory_leaves (p : Paging) (dir : Nat) : Leaves dir p (p.freeDirectory dir) := by
  obtain ⟨directory, kernel, starved, _, table⟩ := freeTables_tables dir tableEntries p
  exact .erase directory kernel starved table fun _ => pageAt_freeTables

/-- The frame map is the same if the same frames are marked. -/
theorem framemap_eq_of_marked (same : ∀ frame, p'.marked frame ↔ p.marked frame) :
    p'.framemap = p.framemap := by
  funext word
  apply BitVec.eq_of_getLsbD_eq
  intro j inside
  have quotient : (word * 32 + j) / 32 = word := by omega
  have remainder : (word * 32 + j) % 32 = j := by omega
  have marks := same (word * 32 + j)
  rw [marked, marked, quotient, remainder] at marks
  exact Bool.eq_iff_iff.mpr marks

/-- The frame map of a state with the same entries is the same. -/
theorem Frames.framemap_eq (frames : p.Frames) (frames' : p'.Frames)
    (pages : ∀ page, p'.pageAt page = p.pageAt page) : p'.framemap = p.framemap := by
  refine framemap_eq_of_marked fun frame => ?_
  rw [frames'.owned.used_iff, frames.owned.used_iff]
  exact or_congr Iff.rfl (exists_congr fun page => by rw [holds_congr (pages page)])

/-- The later state has the frame map, tables and directories of the earlier one. -/
structure SameMemory (p p' : Paging) : Prop where
  framemap : p'.framemap = p.framemap
  table : ∀ table, p'.table.lookup table = p.table.lookup table
  directory : ∀ directory, p'.directory.lookup directory = p.directory.lookup directory
  kernelDirectory : p'.kernelDirectory = p.kernelDirectory

end Paging

/-! ## The copy -/

namespace PagedMemory

variable {α : Type} {m m' : PagedMemory α} {blocks : PageBlocks} {src dir : Nat}

/-- An entry of the copy has the flags and contents of an entry of the source, on a frame that was
free and that no other entry records. -/
structure PageCopied (m m' : PagedMemory α) (original page : PagePointer) : Prop where
  mapped : (m'.paging.pageAt page).frame ≠ 0
  flags : (m'.paging.pageAt page).flags = (m.paging.pageAt original).flags
  free : (m'.paging.pageAt page).frame ∈ m.paging.freeFrames
  alone : ∀ other, (m'.paging.pageAt other).frame = (m'.paging.pageAt page).frame → other = page
  content : m'.content (m'.paging.pageAt page).frame = m.content (m.paging.pageAt original).frame

/-- A table of the copy is a new one, mapped where a table of the source is. -/
structure TableCopied (blocks : PageBlocks) (m m' : PagedMemory α) (original table phys : Nat) :
    Prop where
  fresh : table ∉ m.paging.table
  live : table ∈ m'.paging.table
  phys : phys = blocks.phys table ||| userFlags
  unmapped : ∀ j < tableEntries, (m.paging.pageAt (original, j)).frame = 0 →
    (m'.paging.pageAt (table, j)).frame = 0
  mapped : ∀ j < tableEntries, (m.paging.pageAt (original, j)).frame ≠ 0 →
    PageCopied m m' (original, j) (table, j)

/-- A new directory is a copy of another one: it has the tables that the source shares with the
kernel directory, and tables of its own for those of the source's own. All else is as before. -/
structure IsClone (blocks : PageBlocks) (src dir : Nat) (m m' : PagedMemory α) : Prop where
  fresh : dir ∉ m.paging.directory
  directories : ∀ other, other ∈ m'.paging.directory ↔ other = dir ∨ other ∈ m.paging.directory
  null : ∀ i < tableEntries, m.paging.tableOf src i = 0 →
    m'.paging.tableOf dir i = 0 ∧ (m'.paging.directoryAt dir).physTabs i = 0
  shared : ∀ i < tableEntries, m.paging.tableOf src i ≠ 0 →
    m.paging.tableOf m.paging.kernelDirectory i = m.paging.tableOf src i →
    m'.paging.tableOf dir i = m.paging.tableOf src i ∧
      (m'.paging.directoryAt dir).physTabs i = (m.paging.directoryAt src).physTabs i
  own : ∀ i < tableEntries, m.paging.Private src i →
    TableCopied blocks m m' (m.paging.tableOf src i) (m'.paging.tableOf dir i)
      ((m'.paging.directoryAt dir).physTabs i)
  distinct : ∀ i < tableEntries, ∀ j < tableEntries, m.paging.Private src i →
    m'.paging.tableOf dir i = m'.paging.tableOf dir j → i = j
  kernelDirectory : m'.paging.kernelDirectory = m.paging.kernelDirectory
  others : ∀ other, other ≠ dir → m'.paging.directoryAt other = m.paging.directoryAt other
  entries : ∀ page : PagePointer, page.1 ∈ m.paging.table →
    m'.paging.pageAt page = m.paging.pageAt page
  contents : ∀ frame, m.paging.marked frame → m'.content frame = m.content frame

/-- The tables of the copy are those that have been added. -/
theorem Clones.nonnull (clones : Clones blocks src dir m m') (linked : m'.paging.Linked) {i : Nat}
    (below : i < tableEntries) (owned : m.paging.Private src i) :
    m'.paging.tableOf dir i ≠ 0 := by
  intro none
  have there := (clones.adds.tables _).mpr (.inr ⟨i, below, owned, rfl⟩)
  rw [none] at there
  exact linked.null there

/-- A table of the source's own is copied. -/
theorem Clones.tableCopied (clones : Clones blocks src dir m m')
    (invariant : m.paging.PagingInvariant) (invariant' : m'.paging.PagingInvariant)
    (fed : m'.paging.starved = false)
    (narrow : ∀ page, (m.paging.pageAt page).flags < pageFlags) {i : Nat}
    (below : i < tableEntries) (owned : m.paging.Private src i) :
    TableCopied blocks m m' (m.paging.tableOf src i) (m'.paging.tableOf dir i)
      ((m'.paging.directoryAt dir).physTabs i) := by
  have frames := invariant.frames (clones.feeds.left fed).1
  have frames' := invariant'.frames fed
  have nonnull := clones.nonnull invariant'.linked below owned
  obtain ⟨fresh, phys⟩ := clones.adds.fresh i below owned
  have copied := clones.copied fed
  refine ⟨fresh, (clones.adds.tables _).mpr (.inr ⟨i, below, owned, rfl⟩), phys,
    fun j inside unmapped => ?_, fun j inside mapped => ?_⟩
  · have kept := copied.kept (m'.paging.tableOf dir i, j) ?_
    · rw [kept, Paging.pageAt_of_dead fresh]
    · rintro original ⟨t, _, _, at_table, _, rfl, mapped⟩
      obtain rfl := (invariant'.linked.shared dir dir i t nonnull at_table).1
      exact mapped unmapped
  · have copy := copied.copied (m'.paging.tableOf dir i, j) (m.paging.tableOf src i, j)
      ⟨i, below, owned, rfl, inside, rfl, mapped⟩
    have free := (Paging.mem_freeFrames.mp copy.free).2
    have some_frame : (m'.paging.pageAt (m'.paging.tableOf dir i, j)).frame ≠ 0 := by
      intro zero
      rw [zero] at free
      exact free ((frames.owned.used_iff 0).mpr (.inl rfl))
    refine ⟨some_frame, ?_, copy.free, fun other same => ?_, copy.content⟩
    · rw [copy.flags, Nat.mod_eq_of_lt (narrow _)]
    · exact frames'.owned.distinct other _ _ (Paging.holds_eq_some.mpr ⟨some_frame, same⟩)
        (Paging.holds_eq_some.mpr ⟨some_frame, rfl⟩)

/-- What is known of the directories after `clone_directory`. -/
structure Directories (src dir : Nat) (p p' : Paging) : Prop where
  fresh : dir ∉ p.directory
  mem : ∀ other, other ∈ p'.directory ↔ other = dir ∨ other ∈ p.directory
  kernelDirectory : p'.kernelDirectory = p.kernelDirectory
  others : ∀ other, other ≠ dir → p'.directoryAt other = p.directoryAt other
  shared : ∀ i < tableEntries, p.tableOf src i ≠ 0 →
    p.tableOf p.kernelDirectory i = p.tableOf src i →
    (p'.tableOf dir i, (p'.directoryAt dir).physTabs i) =
      (p.tableOf src i, (p.directoryAt src).physTabs i)

/-- The directory is a copy. -/
theorem Clones.isClone (clones : Clones blocks src dir m m')
    (directories : Directories src dir m.paging m'.paging)
    (invariant : m.paging.PagingInvariant) (invariant' : m'.paging.PagingInvariant)
    (fed : m'.paging.starved = false)
    (narrow : ∀ page, (m.paging.pageAt page).flags < pageFlags) :
    IsClone blocks src dir m m' where
  fresh := directories.fresh
  directories := directories.mem
  null i below none := by
    have null := clones.adds.null i below none
    rw [null.1, null.2, Paging.tableOf, Paging.directoryAt_of_dead directories.fresh]
    exact ⟨rfl, rfl⟩
  shared i below some_table together :=
    Prod.ext_iff.mp (directories.shared i below some_table together)
  own _ below owned := clones.tableCopied invariant invariant' fed narrow below owned
  distinct i below j _ owned same :=
    (invariant'.linked.shared dir dir i j (clones.nonnull invariant'.linked below owned) same).1
  kernelDirectory := directories.kernelDirectory
  others := directories.others
  entries := clones.adds.pages
  contents := (clones.copied fed).contents

/-- The copy's own tables are those that have been added. -/
theorem Clones.remains (clones : Clones blocks src dir m m')
    (directories : Directories src dir m.paging m'.paging) (linked : m.paging.Linked)
    (linked' : m'.paging.Linked) (table : Nat) :
    (table ∈ m'.paging.table ∧ ∀ i < tableEntries, ¬m'.paging.Own dir i table) ↔
      table ∈ m.paging.table := by
  have user : m.paging.kernelDirectory ≠ dir := fun same => directories.fresh (same ▸ linked.kernel)
  have kernel (i : Nat) : m'.paging.tableOf m'.paging.kernelDirectory i =
      m.paging.tableOf m.paging.kernelDirectory i := by
    rw [directories.kernelDirectory, Paging.tableOf, directories.others _ user]
  rw [clones.adds.tables]
  constructor
  · rintro ⟨before | ⟨i, below, owned, rfl⟩, unfreed⟩
    · exact before
    · have nonnull := clones.nonnull linked' below owned
      refine absurd ⟨rfl, nonnull, fun same => ?_⟩ (unfreed i below)
      rw [kernel] at same
      refine (clones.adds.fresh i below owned).1 ?_
      rw [← same] at nonnull ⊢
      exact linked.live _ i nonnull
  · intro before
    refine ⟨.inl before, fun i below => ?_⟩
    rintro ⟨here, nonnull, apart⟩
    rw [kernel] at apart
    by_cases some_table : m.paging.tableOf src i = 0
    · have null := (clones.adds.null i below some_table).1
      rw [here, Paging.tableOf, Paging.directoryAt_of_dead directories.fresh] at null
      exact nonnull null
    · by_cases together : m.paging.tableOf m.paging.kernelDirectory i = m.paging.tableOf src i
      · have shared := (Prod.ext_iff.mp (directories.shared i below some_table together)).1
        exact apart (together.trans (shared.symm.trans here))
      · exact (clones.adds.fresh i below ⟨some_table, together⟩).1 (here ▸ before)

/-- Freeing the copy gives the memory back. -/
theorem Clones.released (clones : Clones blocks src dir m m')
    (directories : Directories src dir m.paging m'.paging)
    (invariant : m.paging.PagingInvariant) (invariant' : m'.paging.PagingInvariant)
    (fed : m'.paging.starved = false) :
    Paging.SameMemory m.paging (m'.paging.freeDirectory dir) := by
  have user : dir ≠ m'.paging.kernelDirectory := fun same =>
    directories.fresh (by rw [same, directories.kernelDirectory]; exact invariant.linked.kernel)
  have leaves := m'.paging.freeDirectory_leaves dir
  have after := (invariant'.freeDirectory user).frames (leaves.starved.trans fed)
  generalize m'.paging.freeDirectory dir = q at leaves after ⊢
  have before := invariant.frames (clones.feeds.left fed).1
  have remains (table : Nat) : table ∈ q.table ↔ table ∈ m.paging.table :=
    (leaves.table table).trans
      (clones.remains directories invariant.linked invariant'.linked table)
  have pages (page : PagePointer) : q.pageAt page = m.paging.pageAt page := by
    by_cases live : page.1 ∈ m.paging.table
    · rw [leaves.pages page ((remains page.1).mpr live), clones.adds.pages page live]
    · rw [Paging.pageAt_of_dead live,
        Paging.pageAt_of_dead fun there => live ((remains page.1).mp there)]
  refine ⟨before.framemap_eq after pages, fun table => ?_, fun other => ?_,
    leaves.kernelDirectory.trans directories.kernelDirectory⟩
  · refine Store.lookup_eq_of_getD (fun _ => {}) (remains table) (funext fun j => ?_)
    have same := pages (table, j)
    rwa [Paging.pageAt_eq_getD, Paging.pageAt_eq_getD] at same
  · rw [leaves.directory]
    by_cases same : other = dir
    · rw [if_pos same, same, AList.lookup_eq_none.mpr directories.fresh]
    · rw [if_neg same]
      exact Store.lookup_eq_of_getD {} ((directories.mem other).trans (or_iff_right same))
        (directories.others other same)

/-- The directories after `clone_directory`. -/
theorem cloneDirectory_directories (invariant : m.paging.PagingInvariant) (blocks : PageBlocks)
    (live : src ∈ m.paging.directory) :
    (m.cloneDirectory blocks src).1.paging.PagingInvariant ∧
      Directories src (m.cloneDirectory blocks src).2 m.paging
        (m.cloneDirectory blocks src).1.paging := by
  obtain ⟨same, same_dir⟩ := m.cloneDirectory_paging blocks src
  rw [same, same_dir]
  obtain ⟨done, fresh, kernel, mem, others, shared⟩ := invariant.cloneDirectory blocks live
  exact ⟨done, fresh, mem, kernel, others, shared⟩

end PagedMemory

/-- When the frame map has a free frame for each page that is not in a table of the kernel,
`clone_directory` makes a copy of the directory, and freeing the copy gives the memory back.

The states are those that every run keeps, and the flags of a page are 12 bits. -/
theorem PagedMemory.cloneDirectory_copies {α : Type} (m : PagedMemory α) (blocks : PageBlocks)
    {src : Nat} (invariant : m.paging.PagingInvariant) (fed : m.paging.starved = false)
    (live : src ∈ m.paging.directory)
    (narrow : ∀ page, (m.paging.pageAt page).flags < pageFlags)
    (enough : m.paging.demand src tableEntries ≤ m.paging.freeFrames.length) :
    let copy := m.cloneDirectory blocks src
    PagedMemory.IsClone blocks src copy.2 m copy.1 ∧
      Paging.SameMemory m.paging (copy.1.paging.freeDirectory copy.2) := by
  intro copy
  have small := (invariant.frames fed).small
  have clones := cloneDirectory_clones invariant blocks small live
  obtain ⟨invariant', directories⟩ := cloneDirectory_directories invariant blocks live
  have fed' := clones.feeds.enough fed enough
  exact ⟨clones.isClone directories invariant invariant' fed' narrow,
    clones.released directories invariant invariant' fed'⟩

namespace TwoPages

/-- A kernel with one page, and a process that shares its table and has another one with one page. -/
def paging : Paging where
  framecount := 64
  framemap word := if word = 0 then 7#32 else 0#32
  kernelDirectory := 1
  directory := AList.insert 2
    { physTabs := fun i => if i = 0 then 21 else if i = 1 then 11 else 0
      tables := fun i => if i = 0 then 20 else if i = 1 then 10 else 0 }
    (AList.insert 1
      { physTabs := fun i => if i = 0 then 21 else 0, tables := fun i => if i = 0 then 20 else 0 } ∅)
  table := AList.insert 10 (fun j => if j = 0 then { flags := 7, frame := 2 } else {})
    (AList.insert 20 (fun j => if j = 0 then { flags := 3, frame := 1 } else {}) ∅)

/-- Each frame contains its number. -/
def memory : PagedMemory Nat := { paging, content := id }

/-- Both have the table of the kernel, and the process one more. -/
theorem tables (directory i : Nat) :
    paging.tableOf directory i =
        (if i = 0 ∧ (directory = 1 ∨ directory = 2) then 20
          else if i = 1 ∧ directory = 2 then 10 else 0) ∧
      (paging.directoryAt directory).physTabs i =
        if i = 0 ∧ (directory = 1 ∨ directory = 2) then 21
          else if i = 1 ∧ directory = 2 then 11 else 0 := by
  rw [Paging.tableOf, Paging.directoryAt, paging, Store.lookup_insert_eq, Store.lookup_insert_eq]
  by_cases user : directory = 2
  · simp [user]
  · by_cases kernel : directory = 1
    · simp [kernel]
    · simp [user, kernel]

/-- Each table has one entry in use. -/
theorem pages (page : PagePointer) :
    paging.pageAt page = if page = (10, 0) then { flags := 7, frame := 2 }
      else if page = (20, 0) then { flags := 3, frame := 1 } else {} := by
  obtain ⟨table, j⟩ := page
  rw [Paging.pageAt, paging, Store.lookup_insert_eq, Store.lookup_insert_eq]
  by_cases own : table = 10
  · simp [own]
  · by_cases kernel : table = 20
    · simp [kernel]
    · simp [own, kernel]

/-- Frames 0, 1 and 2 are marked. -/
theorem marks (frame : Nat) : paging.marked frame ↔ frame < 3 := by
  rw [Paging.marked, paging]
  dsimp only
  by_cases first : frame / 32 = 0
  · have small : frame < 32 := by omega
    have all : ∀ j < 32, (7#32).getLsbD j = true ↔ j < 3 := by decide
    rw [if_pos first, Nat.mod_eq_of_lt small]
    exact all frame small
  · rw [if_neg first]
    simp only [BitVec.getLsbD_zero, Bool.false_eq_true, false_iff]
    omega

/-- A table of a directory is the shared one or that of the process. -/
theorem table_cases {directory i : Nat} (some_table : paging.tableOf directory i ≠ 0) :
    i = 0 ∧ (directory = 1 ∨ directory = 2) ∧ paging.tableOf directory i = 20 ∨
      i = 1 ∧ directory = 2 ∧ paging.tableOf directory i = 10 := by
  rw [(tables directory i).1] at some_table ⊢
  by_cases shared : i = 0 ∧ (directory = 1 ∨ directory = 2)
  · exact .inl ⟨shared.1, shared.2, if_pos shared⟩
  · rw [if_neg shared] at some_table ⊢
    have own : i = 1 ∧ directory = 2 := by
      by_contra other
      exact some_table (if_neg other)
    exact .inr ⟨own.1, own.2, if_pos own⟩

/-- The directories are linked to their tables. -/
theorem linked : paging.Linked := by
  refine ⟨by decide, by decide, fun directory i => ?_, fun directory i some_table => ?_,
    fun directory i some_table => ?_, fun directory other i j some_table same => ?_⟩
  · rw [(tables directory i).1, (tables directory i).2]
    split
    · decide
    · split <;> decide
  · rcases table_cases some_table with ⟨rfl, _⟩ | ⟨rfl, _⟩ <;> decide
  · rcases table_cases some_table with ⟨_, _, shared⟩ | ⟨_, _, own⟩
    · rw [shared]
      decide
    · rw [own]
      decide
  · have another : paging.tableOf other j ≠ 0 := fun none => some_table (same.trans none)
    rcases table_cases some_table with ⟨rfl, _, shared⟩ | ⟨rfl, rfl, own⟩
    · rw [shared] at same ⊢
      rcases table_cases another with ⟨rfl, _⟩ | ⟨_, _, own⟩
      · exact ⟨rfl, .inr rfl⟩
      · omega
    · rw [own] at same
      rcases table_cases another with ⟨_, _, shared⟩ | ⟨rfl, rfl, _⟩
      · omega
      · exact ⟨rfl, .inl rfl⟩

/-- The two frames in use are owned by the entries. -/
theorem frames : paging.Frames := by
  have held {page : PagePointer} {frame : Nat} :
      paging.holds page = some frame ↔ page = (10, 0) ∧ frame = 2 ∨ page = (20, 0) ∧ frame = 1 := by
    rw [Paging.holds_eq_some, pages]
    by_cases own : page = (10, 0)
    · simp only [own, if_true, true_and, Prod.mk.injEq, Nat.reduceEqDiff, false_and, or_false]
      omega
    · by_cases kernel : page = (20, 0)
      · simp only [kernel, if_true, true_and, Prod.mk.injEq, Nat.reduceEqDiff, false_and, false_or,
          if_false]
        omega
      · simp only [own, kernel, if_false, false_and, or_false, iff_false]
        rintro ⟨nonzero, rfl⟩
        exact nonzero rfl
  refine ⟨⟨fun page other frame one two => ?_, fun frame => ?_, fun page frame one => ?_⟩,
    fun page frame one => ?_, fun page frame one => ?_, by decide⟩
  · rcases held.mp one with ⟨rfl, rfl⟩ | ⟨rfl, rfl⟩ <;>
      rcases held.mp two with ⟨rfl, same⟩ | ⟨rfl, same⟩ <;> first | rfl | omega
  · rw [marks]
    constructor
    · intro below
      have three : frame = 0 ∨ frame = 1 ∨ frame = 2 := by omega
      rcases three with rfl | rfl | rfl
      · exact .inl rfl
      · exact .inr ⟨(20, 0), held.mpr (.inr ⟨rfl, rfl⟩)⟩
      · exact .inr ⟨(10, 0), held.mpr (.inl ⟨rfl, rfl⟩)⟩
    · rintro (rfl | ⟨page, one⟩)
      · decide
      · rcases held.mp one with ⟨_, rfl⟩ | ⟨_, rfl⟩ <;> decide
  · rcases held.mp one with ⟨_, rfl⟩ | ⟨_, rfl⟩ <;> decide
  · rcases held.mp one with ⟨_, rfl⟩ | ⟨_, rfl⟩ <;> decide
  · rcases held.mp one with ⟨rfl, _⟩ | ⟨rfl, _⟩ <;> decide

/-- The state is one that runs keep. -/
theorem invariant : paging.PagingInvariant := by
  refine ⟨linked, fun table there => .inr ?_, fun _ => frames⟩
  rcases (AList.mem_insert _).mp there with rfl | more
  · exact ⟨2, 1, rfl⟩
  · rcases (AList.mem_insert _).mp more with rfl | none
    · exact ⟨2, 0, rfl⟩
    · exact absurd none (AList.notMem_empty table)

/-- One page is to copy, and a frame is free. -/
theorem enough : paging.demand 2 tableEntries ≤ paging.freeFrames.length := by
  have one_table : paging.demand 2 tableEntries = paging.inUse 10 tableEntries := by
    refine (Finset.sum_eq_single 1 (fun i _ other => if_neg fun owned => ?_) fun none => ?_).trans ?_
    · rcases table_cases owned.1 with ⟨rfl, _⟩ | ⟨own, _⟩
      · exact owned.2 rfl
      · exact other own
    · exact absurd (Finset.mem_range.mpr (by decide)) none
    · exact if_pos (by decide)
  have one_page : paging.inUse 10 tableEntries = 1 := by
    refine (Finset.sum_eq_single 0 (fun j _ other => ?_) fun none => ?_).trans ?_
    · rw [pages, if_neg fun same => other (congrArg Prod.snd same), 
        if_neg (show ((10, j) : PagePointer) ≠ (20, 0) by simp)]
      rfl
    · exact absurd (Finset.mem_range.mpr (by decide)) none
    · rw [pages]
      rfl
  rw [one_table, one_page]
  exact List.length_pos_of_mem (Paging.mem_freeFrames.mpr ⟨by decide, (marks 3).not.mpr (by decide)⟩)

end TwoPages

open TwoPages in
/-- A process with a page of its own and one that the kernel shares is copied, and the copy freed. -/
theorem PagedMemory.cloneDirectory_copies_page :
    let copy := memory.cloneDirectory FirstPages.blocks 2
    PagedMemory.IsClone FirstPages.blocks 2 copy.2 memory copy.1 ∧
      Paging.SameMemory memory.paging (copy.1.paging.freeDirectory copy.2) := by
  refine memory.cloneDirectory_copies FirstPages.blocks invariant rfl (by decide)
    (fun page => ?_) enough
  change (TwoPages.paging.pageAt page).flags < pageFlags
  rw [pages]
  split
  · decide
  · split <;> decide

end Nupkux
