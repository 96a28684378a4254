import Nupkux.Mm.CloneTable

/-!
# Copies of address spaces

`clone_directory` shares the tables of the kernel and copies all others, and `free_directory`
takes the same decision when it frees the copy. When there are frames enough, each entry of a
copied table has a frame of its own, and freeing gives back what the copy has taken.
-/

namespace Nupkux

namespace Paging

variable {p p' : Paging} {page : PagePointer} {src dir bound i : Nat} {blocks : PageBlocks}

/-- The source has a table of its own at the index. -/
def Private (p : Paging) (src i : Nat) : Prop :=
  p.tableOf src i ≠ 0 ∧ p.tableOf p.kernelDirectory i ≠ p.tableOf src i

instance (p : Paging) (src i : Nat) : Decidable (p.Private src i) :=
  inferInstanceAs (Decidable (_ ∧ _))

/-- The number of entries in use in the source's own tables, below an index. -/
def demand (p : Paging) (src bound : Nat) : Nat :=
  ∑ i ∈ Finset.range bound,
    if p.Private src i then p.inUse (p.tableOf src i) tableEntries else 0

/-! ## Entering a table -/

/-- Entering a table changes no entry. -/
theorem pageAt_setTable (p : Paging) (directory index table phys : Nat) (page : PagePointer) :
    (p.setTable directory index table phys).pageAt page = p.pageAt page := rfl

/-- Entering a table keeps the page tables. -/
theorem table_setTable (p : Paging) (directory index table phys : Nat) :
    (p.setTable directory index table phys).table = p.table := rfl

/-- Entering a table keeps the number of frames. -/
theorem framecount_setTable (p : Paging) (directory index table phys : Nat) :
    (p.setTable directory index table phys).framecount = p.framecount := rfl

/-- Entering a table takes no frame. -/
theorem setTable_feeds (p : Paging) (directory index table phys : Nat) :
    Feeds p (p.setTable directory index table phys) 0 := .none rfl rfl rfl

/-- A new table takes no frame. -/
theorem newTable_feeds (p : Paging) (table : Nat) : Feeds p (p.newTable table) 0 :=
  .none rfl rfl rfl

/-! ## One turn -/

/-- What is read of a source that is not the copy. -/
theorem SameOthers.tableOf (others : SameOthers dir p p') {directory : Nat}
    (apart : directory ≠ dir) (i : Nat) : p'.tableOf directory i = p.tableOf directory i := by
  rw [Paging.tableOf, others.directoryAt directory apart]

/-- The source has the same tables of its own. -/
theorem SameOthers.private_iff (others : SameOthers dir p p') (apart : src ≠ dir)
    (user : p.kernelDirectory ≠ dir) (i : Nat) : p'.Private src i ↔ p.Private src i := by
  rw [Private, Private, others.kernelDirectory, others.tableOf apart, others.tableOf user]

/-- A turn of `clone_directory` for a table of the source's own. -/
theorem cloneEntry_of_private (owned : p.Private src i) (blocks : PageBlocks) (dir : Nat) :
    p.cloneEntry blocks src dir i =
      (cloneEntries (p.tableOf src i) (blocks.table.address p.table) tableEntries
          (p.newTable (blocks.table.address p.table))).setTable dir i
        (blocks.table.address p.table) (blocks.phys (blocks.table.address p.table) ||| userFlags) := by
  unfold cloneEntry
  rw [if_neg owned.1, if_neg owned.2]
  rfl

/-- A turn of `clone_directory` for another table, or none, changes no table. -/
theorem cloneEntry_of_not_private (shared : ¬p.Private src i) (blocks : PageBlocks) (dir : Nat) :
    (p.cloneEntry blocks src dir i).table = p.table ∧
      (p.cloneEntry blocks src dir i).framemap = p.framemap ∧
      (p.cloneEntry blocks src dir i).framecount = p.framecount ∧
      (p.cloneEntry blocks src dir i).starved = p.starved := by
  unfold cloneEntry
  split
  · exact ⟨rfl, rfl, rfl, rfl⟩
  · rename_i some_table
    split
    · exact ⟨rfl, rfl, rfl, rfl⟩
    · rename_i apart
      exact absurd ⟨some_table, apart⟩ shared

/-- The tables after a turn of `clone_directory`. -/
theorem mem_table_cloneEntry (p : Paging) (blocks : PageBlocks) (src dir i table : Nat) :
    table ∈ (p.cloneEntry blocks src dir i).table ↔
      table ∈ p.table ∨ p.Private src i ∧ table = blocks.table.address p.table := by
  by_cases owned : p.Private src i
  · have entries := (cloneEntries_tables (p.tableOf src i) (blocks.table.address p.table)
      tableEntries (p.newTable (blocks.table.address p.table))).table table
    rw [cloneEntry_of_private owned, and_iff_right owned, table_setTable, entries]
    exact (AList.mem_insert _).trans or_comm
  · rw [(cloneEntry_of_not_private owned blocks dir).1, or_iff_left fun both => owned both.1]

/-- A turn of `clone_directory` keeps the entries of the tables from before. -/
theorem pageAt_cloneEntry (blocks : PageBlocks) (src dir i : Nat) (old : page.1 ∈ p.table) :
    (p.cloneEntry blocks src dir i).pageAt page = p.pageAt page := by
  have fresh : p.table.lookup (blocks.table.address p.table) = none :=
    blocks.table.address_fresh p.table
  by_cases owned : p.Private src i
  · have differ : page.1 ≠ blocks.table.address p.table := by
      intro same
      exact AList.lookup_eq_none.mp fresh (same ▸ old)
    rw [cloneEntry_of_private owned, pageAt_setTable, pageAt_cloneEntries_ne _ _ _ differ,
      pageAt_newTable fresh]
  · rw [pageAt, (cloneEntry_of_not_private owned blocks dir).1, pageAt]

/-- A turn of `clone_directory` keeps the number of frames. -/
theorem cloneEntry_framecount (p : Paging) (blocks : PageBlocks) (src dir i : Nat) :
    (p.cloneEntry blocks src dir i).framecount = p.framecount := by
  by_cases owned : p.Private src i
  · rw [cloneEntry_of_private owned, framecount_setTable, cloneEntries_framecount]
    rfl
  · exact (cloneEntry_of_not_private owned blocks dir).2.2.1

/-- A turn of `clone_directory` takes a frame for each entry in use of a table of the source's
own. -/
theorem cloneEntry_feeds (small : p.framecount < frameNumbers)
    (live : p.tableOf src i ≠ 0 → p.tableOf src i ∈ p.table) (blocks : PageBlocks) (dir : Nat) :
    Feeds p (p.cloneEntry blocks src dir i)
      (if p.Private src i then p.inUse (p.tableOf src i) tableEntries else 0) := by
  have fresh : p.table.lookup (blocks.table.address p.table) = none :=
    blocks.table.address_fresh p.table
  by_cases owned : p.Private src i
  · rw [if_pos owned, cloneEntry_of_private owned]
    have apart : p.tableOf src i ≠ blocks.table.address p.table := by
      intro same
      exact AList.lookup_eq_none.mp fresh (same ▸ live owned.1)
    have pages := pageAt_newTable fresh
    have empty : ∀ j < tableEntries, ((p.newTable (blocks.table.address p.table)).pageAt
        (blocks.table.address p.table, j)).frame = 0 := by
      intro j _
      rw [pages, pageAt_of_dead (AList.lookup_eq_none.mp fresh)]
    have taken := cloneEntries_feeds (p := p.newTable _) small apart empty
    rw [inUse_congr fun j => pages _] at taken
    have entered := ((newTable_feeds p _).trans taken).trans (setTable_feeds _ dir i
      (blocks.table.address p.table) (blocks.phys (blocks.table.address p.table) ||| userFlags))
    rwa [Nat.zero_add, Nat.add_zero] at entered
  · rw [if_neg owned]
    obtain ⟨_, framemap, count, starved⟩ := cloneEntry_of_not_private owned blocks dir
    exact .none starved count framemap

/-! ## The loop -/

/-- A turn of `clone_directory` leaves the entries of the copy below it. -/
theorem free_cloneEntry (blocks : PageBlocks) (src : Nat) (live : dir ∈ p.directory)
    (free : ∀ t < i + 1, p.tableOf dir t = 0) :
    ∀ t < i, (p.cloneEntry blocks src dir i).tableOf dir t = 0 := by
  intro t below
  have entry := congrArg (·.1) ((cloneEntry_others blocks src i live).2 t)
  rw [if_neg fun both => (by omega : t ≠ i) both.1] at entry
  exact entry.trans (free t (by omega))

/-- What the loop of `clone_directory` adds: a new table for each of the source's own, nothing
where the source has none. The entries of the other tables are as before. -/
structure Adds (blocks : PageBlocks) (src dir bound : Nat) (p p' : Paging) : Prop where
  null : ∀ i < bound, p.tableOf src i = 0 →
    p'.tableOf dir i = p.tableOf dir i ∧
      (p'.directoryAt dir).physTabs i = (p.directoryAt dir).physTabs i
  fresh : ∀ i < bound, p.Private src i → p'.tableOf dir i ∉ p.table ∧
    (p'.directoryAt dir).physTabs i = blocks.phys (p'.tableOf dir i) ||| userFlags
  tables : ∀ table, table ∈ p'.table ↔
    table ∈ p.table ∨ ∃ i < bound, p.Private src i ∧ p'.tableOf dir i = table
  pages : ∀ page : PagePointer, page.1 ∈ p.table → p'.pageAt page = p.pageAt page

/-- The loop of `clone_directory` adds the tables below its bound. -/
theorem PagingInvariant.cloneTables_adds (invariant : p.PagingInvariant) (blocks : PageBlocks)
    (live : dir ∈ p.directory) (apart : src ≠ dir) (user : p.kernelDirectory ≠ dir)
    (inside : bound ≤ tableEntries) (free : ∀ i < bound, p.tableOf dir i = 0) :
    Adds blocks src dir bound p (Paging.cloneTables blocks src dir bound p) := by
  induction bound generalizing p with
  | zero =>
    refine ⟨fun i below => absurd below (Nat.not_lt_zero i),
      fun i below => absurd below (Nat.not_lt_zero i), fun table => ?_, fun _ _ => rfl⟩
    refine (or_iff_left ?_).symm
    rintro ⟨i, below, _⟩
    exact absurd below (Nat.not_lt_zero i)
  | succ i ih =>
    obtain ⟨others, entries⟩ := cloneEntry_others blocks src i live
    have invariant' := invariant.cloneEntry blocks src live (by omega) (free i (by omega))
    have free' := free_cloneEntry blocks src live free
    have tables := mem_table_cloneEntry p blocks src dir i
    have pages (page : PagePointer) (old : page.1 ∈ p.table) :=
      pageAt_cloneEntry blocks src dir i old
    rw [Paging.cloneTables]
    generalize p.cloneEntry blocks src dir i = q at others entries invariant' free' tables pages ⊢
    have live' := (others.mem dir).mpr live
    have user' : q.kernelDirectory ≠ dir := by rwa [others.kernelDirectory]
    obtain ⟨_, _, kept, _⟩ := invariant'.cloneTables blocks live' apart user'
      (Nat.le_of_succ_le inside) free'
    have adds := ih invariant' live' user' (Nat.le_of_succ_le inside) free'
    have own := others.private_iff apart user
    -- the turn has entered what it makes at its own index
    have here := (kept i le_rfl).trans (entries i)
    generalize Paging.cloneTables blocks src dir i q = r at kept adds here ⊢
    obtain ⟨here_table, here_phys⟩ := Prod.ext_iff.mp here
    have entered (owned : p.Private src i) : r.tableOf dir i = blocks.table.address p.table ∧
        (r.directoryAt dir).physTabs i =
          blocks.phys (blocks.table.address p.table) ||| userFlags := by
      rw [if_pos ⟨rfl, owned.1⟩, clonedEntry, if_neg owned.2] at here_table here_phys
      exact ⟨here_table, here_phys⟩
    refine ⟨fun t below none => ?_, fun t below owned => ?_, fun table => ?_,
      fun page old => ?_⟩
    · rcases Nat.lt_succ_iff_lt_or_eq.mp below with lower | rfl
      · have entry := entries t
        rw [if_neg fun both => (by omega : t ≠ i) both.1] at entry
        obtain ⟨same_table, same_phys⟩ := Prod.ext_iff.mp entry
        have later := adds.null t lower (by rwa [others.tableOf apart])
        exact ⟨later.1.trans same_table, later.2.trans same_phys⟩
      · rw [if_neg fun both => both.2 none] at here_table here_phys
        exact ⟨here_table, here_phys⟩
    · rcases Nat.lt_succ_iff_lt_or_eq.mp below with lower | rfl
      · obtain ⟨fresh, phys⟩ := adds.fresh t lower ((own t).mpr owned)
        exact ⟨fun there => fresh ((tables _).mpr (.inl there)), phys⟩
      · obtain ⟨new, phys⟩ := entered owned
        rw [phys, new]
        exact ⟨AList.lookup_eq_none.mp (blocks.table.address_fresh p.table), rfl⟩
    · rw [adds.tables, tables, or_assoc]
      refine or_congr Iff.rfl ⟨?_, ?_⟩
      · rintro (⟨owned, rfl⟩ | ⟨t, below, owned, rfl⟩)
        · exact ⟨i, Nat.lt_succ_self i, owned, (entered owned).1⟩
        · exact ⟨t, Nat.lt_succ_of_lt below, (own t).mp owned, rfl⟩
      · rintro ⟨t, below, owned, rfl⟩
        rcases Nat.lt_succ_iff_lt_or_eq.mp below with lower | rfl
        · exact .inr ⟨t, lower, (own t).mpr owned, rfl⟩
        · exact .inl ⟨owned, (entered owned).1⟩
    · rw [adds.pages page ((tables _).mpr (.inl old)), pages page old]

/-- The loop of `clone_directory` takes a frame for each entry in use of the tables that are the
source's own. -/
theorem PagingInvariant.cloneTables_feeds (invariant : p.PagingInvariant) (blocks : PageBlocks)
    (small : p.framecount < frameNumbers) (live : dir ∈ p.directory) (apart : src ≠ dir)
    (user : p.kernelDirectory ≠ dir) (inside : bound ≤ tableEntries)
    (free : ∀ i < bound, p.tableOf dir i = 0) :
    Feeds p (Paging.cloneTables blocks src dir bound p) (p.demand src bound) := by
  induction bound generalizing p with
  | zero => exact .none rfl rfl rfl
  | succ i ih =>
    have others := (cloneEntry_others blocks src i live).1
    have invariant' := invariant.cloneEntry blocks src live (by omega) (free i (by omega))
    have count := cloneEntry_framecount p blocks src dir i
    have free' := free_cloneEntry blocks src live free
    have first := cloneEntry_feeds small (invariant.linked.live src i) blocks dir
    have same : (p.cloneEntry blocks src dir i).demand src i = p.demand src i := by
      refine Finset.sum_congr rfl fun t _ => ?_
      rw [others.tableOf apart]
      refine if_ctx_congr (others.private_iff apart user t) (fun owned => ?_) fun _ => rfl
      exact inUse_congr fun j => pageAt_cloneEntry blocks src dir i
        (invariant.linked.live src t owned.1)
    have second := ih invariant' (by rwa [count]) ((others.mem dir).mpr live)
      (by rwa [others.kernelDirectory]) (Nat.le_of_succ_le inside) free'
    rw [same] at second
    rw [Paging.cloneTables, demand, Finset.sum_range_succ, Nat.add_comm]
    exact first.trans second

end Paging

/-! ## Contents -/

namespace PagedMemory

variable {α : Type} {m : PagedMemory α} {src dir bound i : Nat}

/-- A frame that an entry records is marked. -/
theorem marked_of_recorded (frames : m.paging.Frames) {page : PagePointer}
    (mapped : (m.paging.pageAt page).frame ≠ 0) :
    m.paging.marked (m.paging.pageAt page).frame :=
  (frames.owned.used_iff _).mpr (.inr ⟨page, Paging.holds_eq_some.mpr ⟨mapped, rfl⟩⟩)

/-- Entering a table does not starve. -/
theorem starved_setTable (m : PagedMemory α) (directory index table phys : Nat) :
    ({ m with paging := m.paging.setTable directory index table phys } :
      PagedMemory α).paging.starved = m.paging.starved := rfl

/-- A new table copies nothing. -/
theorem newTable_copied {table : Nat} (fresh : m.paging.table.lookup table = none) :
    Copied m { m with paging := m.paging.newTable table } fun _ _ => False :=
  .none rfl rfl (Paging.pageAt_newTable fresh) rfl

/-- Entering a table copies nothing. -/
theorem setTable_copied (m : PagedMemory α) (directory index table phys : Nat) :
    Copied m { m with paging := m.paging.setTable directory index table phys }
      fun _ _ => False :=
  .none rfl rfl (fun _ => rfl) rfl

/-- A turn of `clone_directory` for a table of the source's own. -/
theorem cloneEntry_of_private (owned : m.paging.Private src i) (blocks : PageBlocks) (dir : Nat) :
    let table := blocks.table.address m.paging.table
    let copied := cloneEntries (m.paging.tableOf src i) table tableEntries
      { m with paging := m.paging.newTable table }
    m.cloneEntry blocks src dir i =
      { copied with paging := copied.paging.setTable dir i table (blocks.phys table ||| userFlags) }
    := by
  intro table copied
  unfold cloneEntry
  dsimp only
  rw [if_neg owned.1, if_neg owned.2]
  rfl

/-- A turn of `clone_directory` for another table, or none, changes no contents. -/
theorem cloneEntry_content (shared : ¬m.paging.Private src i) (blocks : PageBlocks) (dir : Nat) :
    (m.cloneEntry blocks src dir i).content = m.content := by
  unfold cloneEntry
  dsimp only
  split
  · rfl
  · rename_i some_table
    split
    · rfl
    · rename_i apart
      exact absurd ⟨some_table, apart⟩ shared

/-- A turn of `clone_directory` copies the entries in use of a table of the source's own. -/
theorem cloneEntry_copied (frames : m.paging.Frames)
    (live : m.paging.tableOf src i ≠ 0 → m.paging.tableOf src i ∈ m.paging.table)
    (blocks : PageBlocks) (dir : Nat)
    (fed : (m.cloneEntry blocks src dir i).paging.starved = false) :
    Copied m (m.cloneEntry blocks src dir i) fun page original =>
      m.paging.Private src i ∧ page.1 = blocks.table.address m.paging.table ∧
        page.2 < tableEntries ∧ original = (m.paging.tableOf src i, page.2) ∧
        (m.paging.pageAt original).frame ≠ 0 := by
  have fresh : m.paging.table.lookup (blocks.table.address m.paging.table) = none :=
    blocks.table.address_fresh m.paging.table
  by_cases owned : m.paging.Private src i
  · have entered := cloneEntry_of_private owned blocks dir
    dsimp only at entered
    rw [entered, starved_setTable] at fed
    rw [entered]
    set table := blocks.table.address m.paging.table
    set begun : PagedMemory α := { m with paging := m.paging.newTable table }
    have pages (page : PagePointer) : begun.paging.pageAt page = m.paging.pageAt page :=
      Paging.pageAt_newTable fresh page
    have apart : m.paging.tableOf src i ≠ table := fun same =>
      AList.lookup_eq_none.mp fresh (same ▸ live owned.1)
    have empty : ∀ j < tableEntries, (begun.paging.pageAt (table, j)).frame = 0 := by
      intro j _
      rw [pages, Paging.pageAt_of_dead (AList.lookup_eq_none.mp fresh)]
    have marked : ∀ j < tableEntries,
        (begun.paging.pageAt (m.paging.tableOf src i, j)).frame ≠ 0 →
        begun.paging.marked (begun.paging.pageAt (m.paging.tableOf src i, j)).frame := by
      intro j _ mapped
      rw [pages] at mapped ⊢
      exact marked_of_recorded frames mapped
    have copied := cloneEntries_copied (m := begun) frames.small
      ((AList.mem_insert _).mpr (.inl rfl)) apart empty marked fed
    refine (((newTable_copied fresh).trans copied ?_).trans (setTable_copied _ _ _ _ _)
      fun _ _ none => none.elim).congr fun page original => ?_
    · rintro page original ⟨_, _, rfl, mapped⟩
      rw [pages] at mapped
      exact ⟨fun _ => id, fun _ => id, marked_of_recorded frames mapped⟩
    · rw [and_iff_right owned, pages, false_or, or_false]
  · obtain ⟨table, framemap, count, _⟩ := Paging.cloneEntry_of_not_private owned blocks dir
    rw [← cloneEntry_paging] at table framemap count
    refine (Copied.none count framemap (fun page => ?_) (cloneEntry_content owned blocks dir)).congr
      fun page original => iff_of_false (fun here => owned here.1) id
    rw [Paging.pageAt, table, Paging.pageAt]

/-- The entry in use that an entry of the copy is made for. -/
def MadeFor (p p' : Paging) (src dir bound : Nat) (page original : PagePointer) : Prop :=
  ∃ t < bound, p.Private src t ∧ page.1 = p'.tableOf dir t ∧ page.2 < tableEntries ∧
    original = (p.tableOf src t, page.2) ∧ (p.pageAt original).frame ≠ 0

/-- The loop of `clone_directory`, when it finds its frames, copies the entries in use of the
tables that are the source's own. -/
theorem cloneTables_copied (invariant : m.paging.PagingInvariant) (blocks : PageBlocks)
    (small : m.paging.framecount < frameNumbers) (live : dir ∈ m.paging.directory)
    (apart : src ≠ dir) (user : m.paging.kernelDirectory ≠ dir) (inside : bound ≤ tableEntries)
    (free : ∀ i < bound, m.paging.tableOf dir i = 0)
    (fed : (cloneTables blocks src dir bound m).paging.starved = false) :
    Copied m (cloneTables blocks src dir bound m)
      (MadeFor m.paging (cloneTables blocks src dir bound m).paging src dir bound) := by
  induction bound generalizing m with
  | zero =>
    refine (Copied.none rfl rfl (fun _ => rfl) rfl).congr fun page original => iff_of_false ?_ id
    rintro ⟨t, below, _⟩
    exact Nat.not_lt_zero t below
  | succ i ih =>
    obtain ⟨others, entries⟩ := Paging.cloneEntry_others blocks src i live
    have invariant' := invariant.cloneEntry blocks src live (by omega) (free i (by omega))
    have free' := Paging.free_cloneEntry blocks src live free
    have count := Paging.cloneEntry_framecount m.paging blocks src dir i
    have tables := Paging.mem_table_cloneEntry m.paging blocks src dir i
    have pages (page : PagePointer) (old : page.1 ∈ m.paging.table) :=
      Paging.pageAt_cloneEntry blocks src dir i old
    have taken := Paging.cloneEntry_feeds small (invariant.linked.live src i) blocks dir
    have copied := fun frames =>
      cloneEntry_copied (m := m) frames (invariant.linked.live src i) blocks dir
    rw [cloneTables] at fed ⊢
    rw [← cloneEntry_paging] at others entries invariant' free' count tables taken
    simp only [← cloneEntry_paging] at pages
    generalize m.cloneEntry blocks src dir i = n
      at others entries invariant' free' count tables pages taken copied fed ⊢
    have small' : n.paging.framecount < frameNumbers := by rwa [count]
    have live' := (others.mem dir).mpr live
    have user' : n.paging.kernelDirectory ≠ dir := by rwa [others.kernelDirectory]
    have inside' := Nat.le_of_succ_le inside
    have second := ih invariant' small' live' user' inside' free' fed
    have taken' := invariant'.cloneTables_feeds blocks small' live' apart user' inside' free'
    have adds := invariant'.cloneTables_adds blocks live' apart user' inside' free'
    obtain ⟨_, _, kept, _⟩ := invariant'.cloneTables blocks live' apart user' inside' free'
    rw [← cloneTables_paging] at taken' adds
    simp only [← cloneTables_paging] at kept
    generalize cloneTables blocks src dir i n = r at second taken' adds kept fed ⊢
    have fed' := (taken'.left fed).1
    have frames := invariant.frames (taken.left fed').1
    have first := copied frames fed'
    have old (t : Nat) (owned : m.paging.Private src t) := invariant.linked.live src t owned.1
    have own := others.private_iff apart user
    have here (owned : m.paging.Private src i) :
        r.paging.tableOf dir i = blocks.table.address m.paging.table := by
      refine (congrArg Prod.fst ((kept i le_rfl).trans (entries i))).trans ?_
      rw [if_pos ⟨rfl, owned.1⟩, Paging.clonedEntry, if_neg owned.2]
    refine (first.trans second ?_).congr fun page original => ?_
    · rintro page original ⟨t, below, owned, at_table, _, rfl, mapped⟩
      have owned_before := (own t).mp owned
      refine ⟨fun other there => ?_, fun other there => ?_, ?_⟩
      · refine (adds.fresh t below owned).1 (at_table ▸ (tables _).mpr (.inr ⟨there.1, there.2.1⟩))
      · have same := there.2.1
        rw [others.tableOf apart] at same
        exact AList.lookup_eq_none.mp (blocks.table.address_fresh m.paging.table)
          (same ▸ old t owned_before)
      · rw [others.tableOf apart, pages _ (old t owned_before)] at mapped
        rw [others.tableOf apart]
        exact marked_of_recorded frames mapped
    · constructor
      · rintro ⟨t, below, owned, at_table, entry, rfl, mapped⟩
        rcases Nat.lt_succ_iff_lt_or_eq.mp below with lower | rfl
        · refine .inr ⟨t, lower, (own t).mpr owned, at_table, entry, ?_, ?_⟩
          · rw [others.tableOf apart]
          · rwa [pages _ (old t owned)]
        · exact .inl ⟨owned, at_table.trans (here owned), entry, rfl, mapped⟩
      · rintro (⟨owned, at_table, entry, rfl, mapped⟩ | ⟨t, below, owned, at_table, entry, rfl, mapped⟩)
        · exact ⟨i, Nat.lt_succ_self i, owned, at_table.trans (here owned).symm, entry, rfl, mapped⟩
        · have owned_before := (own t).mp owned
          rw [others.tableOf apart, pages _ (old t owned_before)] at mapped
          rw [others.tableOf apart]
          exact ⟨t, Nat.lt_succ_of_lt below, owned_before, at_table, entry, rfl, mapped⟩

/-! ## The whole copy -/

/-- The empty copy changes no table of the source's own. -/
theorem private_opened (p : Paging) (blocks : PageBlocks) (src i : Nat) :
    (p.opened blocks).Private src i ↔ p.Private src i := by
  have tables := p.tables_opened blocks
  rw [Paging.Private, (tables src i).1, (tables _ i).1]
  exact Iff.rfl

/-- The state in which the loop of `clone_directory` begins. -/
def opened (m : PagedMemory α) (blocks : PageBlocks) : PagedMemory α :=
  { m with paging := m.paging.opened blocks }

/-- `clone_directory` is the loop over all tables. -/
theorem cloneDirectory_eq (m : PagedMemory α) (blocks : PageBlocks) (src : Nat) :
    m.cloneDirectory blocks src =
      (cloneTables blocks src (blocks.directory.address m.paging.directory) tableEntries
        (m.opened blocks), blocks.directory.address m.paging.directory) := rfl

/-- What `clone_directory` does to the page tables and the contents: it takes a frame for each
entry in use of the source's own tables, and when it has found them, these entries are copied. -/
structure Clones (blocks : PageBlocks) (src dir : Nat) (m m' : PagedMemory α) : Prop where
  feeds : Paging.Feeds m.paging m'.paging (m.paging.demand src tableEntries)
  adds : Paging.Adds blocks src dir tableEntries m.paging m'.paging
  copied : m'.paging.starved = false →
    Copied m m' (MadeFor m.paging m'.paging src dir tableEntries)

/-- `clone_directory` clones. -/
theorem cloneDirectory_clones (invariant : m.paging.PagingInvariant) (blocks : PageBlocks)
    (small : m.paging.framecount < frameNumbers) (live : src ∈ m.paging.directory) :
    Clones blocks src (m.cloneDirectory blocks src).2 m (m.cloneDirectory blocks src).1 := by
  rw [cloneDirectory_eq]
  dsimp only
  have fresh := m.paging.opened_fresh blocks
  have tables := m.paging.tables_opened blocks
  have own := private_opened m.paging blocks src
  set dir := blocks.directory.address m.paging.directory
  have begun : (m.opened blocks).paging.PagingInvariant := invariant.opened blocks
  have there : dir ∈ (m.opened blocks).paging.directory :=
    (m.paging.mem_opened blocks dir).mpr (.inl rfl)
  have differ {other : Nat} (before : other ∈ m.paging.directory) : other ≠ dir :=
    fun same => fresh (same ▸ before)
  have apart := differ live
  have user : (m.opened blocks).paging.kernelDirectory ≠ dir := differ invariant.linked.kernel
  have null (i : Nat) : m.paging.tableOf dir i = 0 ∧
      (m.paging.directoryAt dir).physTabs i = 0 := by
    rw [Paging.tableOf, Paging.directoryAt_of_dead fresh]
    exact ⟨rfl, rfl⟩
  have free : ∀ i < tableEntries, (m.opened blocks).paging.tableOf dir i = 0 := fun i _ =>
    (tables dir i).1.trans (null i).1
  have feeds := begun.cloneTables_feeds blocks small there apart user le_rfl free
  have adds := begun.cloneTables_adds blocks there apart user le_rfl free
  have copied := cloneTables_copied begun blocks small there apart user le_rfl free
  rw [← cloneTables_paging] at feeds adds
  generalize cloneTables blocks src dir tableEntries (m.opened blocks) = r at feeds adds copied ⊢
  have same : (m.opened blocks).paging.demand src tableEntries =
      m.paging.demand src tableEntries := by
    refine Finset.sum_congr rfl fun t _ => ?_
    change (if (m.paging.opened blocks).Private src t
      then m.paging.inUse ((m.paging.opened blocks).tableOf src t) tableEntries else 0) = _
    rw [(tables src t).1]
    exact if_congr (own t) rfl rfl
  have opening : Paging.Feeds m.paging (m.opened blocks).paging 0 := .none rfl rfl rfl
  have taken := opening.trans feeds
  rw [Nat.zero_add, same] at taken
  refine ⟨taken, ⟨fun i below none => ?_, fun i below owned => ?_, fun table => ?_, adds.pages⟩,
    fun fed => ?_⟩
  · obtain ⟨at_table, at_phys⟩ := adds.null i below ((tables src i).1.trans none)
    exact ⟨at_table.trans (tables dir i).1, at_phys.trans (tables dir i).2⟩
  · exact adds.fresh i below ((own i).mpr owned)
  · refine (adds.tables table).trans (or_congr Iff.rfl ?_)
    exact exists_congr fun i => and_congr Iff.rfl (and_congr (own i) Iff.rfl)
  · have frames := invariant.frames (taken.left fed).1
    have nothing : Copied m (m.opened blocks) fun _ _ => False := .none rfl rfl (fun _ => rfl) rfl
    refine (nothing.trans (copied fed) ?_).congr fun page original => ?_
    · rintro page original ⟨_, _, _, _, _, _, mapped⟩
      exact ⟨fun _ => id, fun _ => id, marked_of_recorded frames mapped⟩
    · rw [false_or]
      refine exists_congr fun t => and_congr Iff.rfl (and_congr (own t).symm ?_)
      refine and_congr Iff.rfl (and_congr Iff.rfl (and_congr ?_ Iff.rfl))
      change _ ↔ original = ((m.paging.opened blocks).tableOf src t, page.2)
      rw [(tables src t).1]

end PagedMemory

end Nupkux
