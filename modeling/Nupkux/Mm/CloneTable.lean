import Mathlib.Algebra.BigOperators.Intervals
import Nupkux.Mm.Translation

/-!
# Copies of page tables

Cloning with what the frames contain: `clone_page` copies one frame to another one, whatever a
frame contains. The loop of `clone_table` gives each entry in use a frame that was free, as long
as there is one, with the flags of the entry and the contents of its frame.
-/

namespace Nupkux

/-- The page tables, and what each frame contains. -/
structure PagedMemory (α : Type) where
  paging : Paging
  content : Nat → α

namespace PagedMemory

variable {α : Type}

/-- `clone_page(src * FRAME_SIZE, dest * FRAME_SIZE)`. -/
def clonePage (m : PagedMemory α) (src dest : Nat) : PagedMemory α :=
  { m with content := Function.update m.content dest (m.content src) }

/-- The loop of `clone_table`, with the contents of the frames. -/
def cloneEntries (src table : Nat) : Nat → PagedMemory α → PagedMemory α
  | 0, m => m
  | i + 1, m =>
    let m := if (m.paging.pageAt (src, i)).frame = 0 then m
      else
        let m := { m with
          paging := m.paging.allocFrame (table, i) (m.paging.pageAt (src, i)).flags }
        m.clonePage (m.paging.pageAt (src, i)).frame (m.paging.pageAt (table, i)).frame
    cloneEntries src table i m

/-- `clone_table`, with the contents of the frames. -/
def cloneTable (blocks : PageBlocks) (m : PagedMemory α) (src : Nat) :
    PagedMemory α × Nat × Nat :=
  let table := blocks.table.address m.paging.table
  (cloneEntries src table tableEntries { m with paging := m.paging.newTable table }, table,
    blocks.phys table)

/-- One turn of the loop of `clone_directory`, with the contents of the frames. -/
def cloneEntry (blocks : PageBlocks) (src dir : Nat) (m : PagedMemory α) (i : Nat) :
    PagedMemory α :=
  let source := m.paging.directoryAt src
  if source.tables i = 0 then m
  else if (m.paging.directoryAt m.paging.kernelDirectory).tables i = source.tables i then
    { m with paging := m.paging.setTable dir i (source.tables i) (source.physTabs i) }
  else
    let (m, table, phys) := m.cloneTable blocks (source.tables i)
    { m with paging := m.paging.setTable dir i table (phys ||| userFlags) }

/-- The loop of `clone_directory`, with the contents of the frames. -/
def cloneTables (blocks : PageBlocks) (src dir : Nat) : Nat → PagedMemory α → PagedMemory α
  | 0, m => m
  | i + 1, m => cloneTables blocks src dir i (m.cloneEntry blocks src dir i)

/-- `clone_directory`, with the contents of the frames. -/
def cloneDirectory (blocks : PageBlocks) (m : PagedMemory α) (src : Nat) :
    PagedMemory α × Nat :=
  let dir := blocks.directory.address m.paging.directory
  let opened := { m with paging := { m.paging with
    directory := m.paging.directory.insert dir { physPos := blocks.phys dir } } }
  (cloneTables blocks src dir tableEntries opened, dir)

/-! ## The page tables do not depend on the contents -/

/-- The loop of `clone_table` on the page tables. -/
theorem cloneEntries_paging (src table bound : Nat) (m : PagedMemory α) :
    (cloneEntries src table bound m).paging = m.paging.cloneEntries src table bound := by
  induction bound generalizing m with
  | zero => rfl
  | succ i ih =>
    rw [cloneEntries, ih, Paging.cloneEntries]
    split <;> rfl

/-- One turn of the loop of `clone_directory` on the page tables. -/
theorem cloneEntry_paging (blocks : PageBlocks) (src dir : Nat) (m : PagedMemory α) (i : Nat) :
    (m.cloneEntry blocks src dir i).paging = m.paging.cloneEntry blocks src dir i := by
  unfold cloneEntry Paging.cloneEntry
  dsimp only
  split
  · rfl
  · split
    · rfl
    · rw [cloneTable, Paging.cloneTable]
      dsimp only
      rw [cloneEntries_paging]

/-- The loop of `clone_directory` on the page tables. -/
theorem cloneTables_paging (blocks : PageBlocks) (src dir bound : Nat) (m : PagedMemory α) :
    (cloneTables blocks src dir bound m).paging = m.paging.cloneTables blocks src dir bound := by
  induction bound generalizing m with
  | zero => rfl
  | succ i ih => rw [cloneTables, ih, cloneEntry_paging, Paging.cloneTables]

/-- `clone_directory` on the page tables. -/
theorem cloneDirectory_paging (blocks : PageBlocks) (m : PagedMemory α) (src : Nat) :
    (m.cloneDirectory blocks src).1.paging = (m.paging.cloneDirectory blocks src).1 ∧
      (m.cloneDirectory blocks src).2 = (m.paging.cloneDirectory blocks src).2 := by
  rw [cloneDirectory, Paging.cloneDirectory]
  dsimp only
  rw [cloneTables_paging]
  exact ⟨rfl, rfl⟩

end PagedMemory

/-! ## Free frames -/

namespace Paging

variable {p p' p'' : Paging} {page other : PagePointer} {src table bound needed needed' : Nat}

/-- A part of a run takes so many free frames, if it finds them all. -/
structure Feeds (p p' : Paging) (needed : Nat) : Prop where
  enough : p.starved = false → needed ≤ p.freeFrames.length → p'.starved = false
  left : p'.starved = false →
    p.starved = false ∧ p'.freeFrames.length + needed = p.freeFrames.length

/-- Two parts of a run. -/
theorem Feeds.trans (first : Feeds p p' needed) (second : Feeds p' p'' needed') :
    Feeds p p'' (needed + needed') := by
  refine ⟨fun fed enough => ?_, fun fed => ?_⟩
  · have fed' := first.enough fed (by omega)
    have left := (first.left fed').2
    exact second.enough fed' (by omega)
  · obtain ⟨fed', left'⟩ := second.left fed
    obtain ⟨fed'', left⟩ := first.left fed'
    exact ⟨fed'', by omega⟩

/-- A part that takes no frame. -/
theorem Feeds.none (starved : p'.starved = p.starved) (count : p'.framecount = p.framecount)
    (framemap : p'.framemap = p.framemap) : Feeds p p' 0 := by
  have same : p'.freeFrames = p.freeFrames := by rw [freeFrames, freeFrames, count, framemap]
  refine ⟨fun fed _ => by rw [starved, fed], fun fed => ⟨by rw [← starved, fed], ?_⟩⟩
  rw [same, Nat.add_zero]

/-- An allocation starves when `first_frame` finds nothing. -/
theorem allocFrame_starved (unmapped : (p.pageAt page).frame = 0) (flags : Nat) :
    (p.allocFrame page flags).starved = (p.starved || p.firstFrame == noFrame) := by
  unfold allocFrame
  dsimp only
  rw [if_neg (not_not.mpr unmapped)]
  rfl

/-- `first_frame` finds a frame if there is a free one. -/
theorem firstFrame_found (small : p.framecount < frameNumbers) :
    p.firstFrame ≠ noFrame ↔ 0 < p.freeFrames.length := by
  rw [firstFrame_eq]
  cases free : p.freeFrames with
  | nil => simp
  | cons first rest =>
    have inside : first < p.framecount / 32 * 32 :=
      (mem_freeFrames.mp (free ▸ List.mem_cons_self)).1
    have below : p.framecount / 32 * 32 ≤ p.framecount := Nat.div_mul_le_self ..
    simp only [List.head?_cons, Option.getD_some, List.length_cons, Nat.zero_lt_succ, iff_true]
    simp only [noFrame, frameNumbers] at small ⊢
    omega

/-- An allocation takes one free frame. -/
theorem allocFrame_feeds (small : p.framecount < frameNumbers)
    (unmapped : (p.pageAt page).frame = 0) (flags : Nat) :
    Feeds p (p.allocFrame page flags) 1 := by
  have starved := allocFrame_starved unmapped flags
  have found := firstFrame_found small
  constructor
  · intro fed enough
    rw [starved, fed, Bool.false_or, beq_eq_false_iff_ne]
    exact found.mpr enough
  · intro fed
    rw [starved, Bool.or_eq_false_iff, beq_eq_false_iff_ne] at fed
    have positive := found.mp fed.2
    rw [freeFrames_allocFrame unmapped, List.length_tail]
    exact ⟨fed.1, by omega⟩

/-- Entries other than the one allocated for are kept. -/
theorem pageAt_allocFrame_ne (flags : Nat) (differ : other ≠ page) :
    (p.allocFrame page flags).pageAt other = p.pageAt other := by
  by_cases mapped : (p.pageAt page).frame = 0
  · by_cases live : page.1 ∈ p.table
    · rw [pageAt_allocFrame mapped live, if_neg differ]
    · unfold allocFrame
      dsimp only
      rw [if_neg (not_not.mpr mapped)]
      have dead : page.1 ∉ ({ p with starved := p.starved || p.firstFrame == noFrame } :
        Paging).table := live
      rw [setPage_of_dead dead]
      rfl
  · rw [allocFrame_of_mapped mapped]

/-- The loop of `clone_table` changes entries of the copy only. -/
theorem pageAt_cloneEntries_ne (p : Paging) (src bound : Nat) (differ : other.1 ≠ table) :
    (p.cloneEntries src table bound).pageAt other = p.pageAt other := by
  induction bound generalizing p with
  | zero => rfl
  | succ i ih =>
    have apart : other ≠ (table, i) := fun same => differ (congrArg Prod.fst same)
    rw [cloneEntries, ih]
    split
    · rfl
    · exact pageAt_allocFrame_ne _ apart

/-- The number of entries in use below a bound. -/
def inUse (p : Paging) (table bound : Nat) : Nat :=
  ∑ i ∈ Finset.range bound, if (p.pageAt (table, i)).frame = 0 then 0 else 1

/-- The number depends on the entries. -/
theorem inUse_congr (same : ∀ i, p'.pageAt (table, i) = p.pageAt (table, i)) :
    p'.inUse table bound = p.inUse table bound :=
  Finset.sum_congr rfl fun i _ => by rw [same]

/-- The loop of `clone_table` takes a frame for each entry in use. -/
theorem cloneEntries_feeds (small : p.framecount < frameNumbers) (apart : src ≠ table)
    (empty : ∀ i < bound, (p.pageAt (table, i)).frame = 0) :
    Feeds p (p.cloneEntries src table bound) (p.inUse src bound) := by
  induction bound generalizing p with
  | zero => exact .none rfl rfl rfl
  | succ i ih =>
    rw [cloneEntries, inUse, Finset.sum_range_succ]
    by_cases unmapped : (p.pageAt (src, i)).frame = 0
    · rw [if_pos unmapped, if_pos unmapped]
      exact ih small fun j below => empty j (by omega)
    · rw [if_neg unmapped, if_neg unmapped, Nat.add_comm]
      have differ (j : Nat) : (src, j) ≠ (table, i) := fun same => apart (congrArg Prod.fst same)
      have kept (j : Nat) := pageAt_allocFrame_ne (p := p) (p.pageAt (src, i)).flags (differ j)
      refine (allocFrame_feeds small (empty i (by omega)) (p.pageAt (src, i)).flags).trans ?_
      rw [← inUse, ← inUse_congr kept]
      refine ih (by rwa [framecount_allocPage]) fun j below => ?_
      rw [pageAt_allocFrame_ne]
      · exact empty j (by omega)
      · intro same
        have index : j = i := congrArg Prod.snd same
        omega

/-- The loop of `clone_table` keeps the number of frames. -/
theorem cloneEntries_framecount (p : Paging) (src table bound : Nat) :
    (p.cloneEntries src table bound).framecount = p.framecount := by
  induction bound generalizing p with
  | zero => rfl
  | succ i ih =>
    rw [cloneEntries, ih]
    split
    · rfl
    · exact framecount_allocPage ..

end Paging

/-! ## Copies -/

namespace PagedMemory

variable {α : Type} {m m' m'' : PagedMemory α} {src table bound : Nat}
  {source source' : PagePointer → PagePointer → Prop}

/-- An entry is a copy of another one, on a frame that was free. -/
structure IsCopy (m m' : PagedMemory α) (page original : PagePointer) : Prop where
  flags : (m'.paging.pageAt page).flags = (m.paging.pageAt original).flags % pageFlags
  free : (m'.paging.pageAt page).frame ∈ m.paging.freeFrames
  taken : m'.paging.marked (m'.paging.pageAt page).frame
  content : m'.content (m'.paging.pageAt page).frame =
    m.content (m.paging.pageAt original).frame

/-- Some entries have become copies of others; the other entries and the contents of the marked
frames are as before. -/
structure Copied (m m' : PagedMemory α) (source : PagePointer → PagePointer → Prop) : Prop where
  framecount : m'.paging.framecount = m.paging.framecount
  marked : ∀ frame, m.paging.marked frame → m'.paging.marked frame
  kept : ∀ page, (∀ original, ¬source page original) →
    m'.paging.pageAt page = m.paging.pageAt page
  copied : ∀ page original, source page original → IsCopy m m' page original
  contents : ∀ frame, m.paging.marked frame → m'.content frame = m.content frame

/-- Nothing has been copied. -/
theorem Copied.none (count : m'.paging.framecount = m.paging.framecount)
    (framemap : m'.paging.framemap = m.paging.framemap)
    (pages : ∀ page, m'.paging.pageAt page = m.paging.pageAt page)
    (contents : m'.content = m.content) : Copied m m' fun _ _ => False := by
  refine ⟨count, fun frame before => ?_, fun page _ => pages page, fun _ _ none => none.elim,
    fun frame _ => by rw [contents]⟩
  rw [Paging.marked, framemap]
  exact before

/-- The copies are described in another way. -/
theorem Copied.congr (copied : Copied m m' source)
    (same : ∀ page original, source' page original ↔ source page original) :
    Copied m m' source' := by
  have equal : source' = source := funext fun page => funext fun original =>
    propext (same page original)
  rw [equal]
  exact copied

/-- Copies after copies: what is copied later has not been touched before. -/
theorem Copied.trans (first : Copied m m' source) (second : Copied m' m'' source')
    (apart : ∀ page original, source' page original →
      (∀ other, ¬source page other) ∧ (∀ other, ¬source original other) ∧
        m.paging.marked (m.paging.pageAt original).frame) :
    Copied m m'' fun page original => source page original ∨ source' page original := by
  refine ⟨second.framecount.trans first.framecount,
    fun frame before => second.marked frame (first.marked frame before), fun page none => ?_,
    fun page original either => ?_, fun frame before => ?_⟩
  · rw [second.kept page fun original there => none original (.inr there),
      first.kept page fun original here => none original (.inl here)]
  · rcases either with here | there
    · have copy := first.copied page original here
      -- the later copies leave the earlier ones
      have earlier : m''.paging.pageAt page = m'.paging.pageAt page :=
        second.kept page fun original' there => (apart page original' there).1 original here
      refine ⟨?_, ?_, ?_, ?_⟩
      · rw [earlier, copy.flags]
      · rw [earlier]
        exact copy.free
      · rw [earlier]
        exact second.marked _ copy.taken
      · rw [earlier, second.contents _ copy.taken, copy.content]
    · obtain ⟨_, untouched, original_marked⟩ := apart page original there
      have copy := second.copied page original there
      have same := first.kept original untouched
      refine ⟨?_, ?_, copy.taken, ?_⟩
      · rw [copy.flags, same]
      · obtain ⟨inside, free⟩ := Paging.mem_freeFrames.mp copy.free
        rw [first.framecount] at inside
        exact Paging.mem_freeFrames.mpr ⟨inside, fun before => free (first.marked _ before)⟩
      · rw [copy.content, same, first.contents _ original_marked]
  · rw [second.contents frame (first.marked frame before), first.contents frame before]

/-- One turn of the loop of `clone_table` for an entry in use, when `first_frame` finds a
frame. -/
theorem allocFrame_copied {i : Nat} (small : m.paging.framecount < frameNumbers)
    (live : table ∈ m.paging.table) (apart : src ≠ table)
    (empty : (m.paging.pageAt (table, i)).frame = 0)
    (found : m.paging.firstFrame ≠ noFrame) :
    let next : PagedMemory α := { m with
      paging := m.paging.allocFrame (table, i) (m.paging.pageAt (src, i)).flags }
    Copied m
      (next.clonePage (next.paging.pageAt (src, i)).frame (next.paging.pageAt (table, i)).frame)
      fun page original => page = (table, i) ∧ original = (src, i) := by
  intro next
  obtain ⟨inside, unmarked⟩ := m.paging.firstFrame_cases.resolve_left fun none => found none.1
  have below : m.paging.framecount / 32 * 32 ≤ m.paging.framecount := Nat.div_mul_le_self ..
  have pages := Paging.pageAt_allocFrame empty live (m.paging.pageAt (src, i)).flags
  have frame : m.paging.firstFrame % frameNumbers = m.paging.firstFrame :=
    Nat.mod_eq_of_lt (by omega)
  rw [frame] at pages
  have here : next.paging.pageAt (table, i) =
      { flags := (m.paging.pageAt (src, i)).flags % pageFlags, frame := m.paging.firstFrame } :=
    (pages (table, i)).trans (if_pos rfl)
  have there : next.paging.pageAt (src, i) = m.paging.pageAt (src, i) :=
    (pages (src, i)).trans (if_neg fun same => apart (congrArg Prod.fst same))
  have marks := Paging.marked_allocFrame empty (m.paging.pageAt (src, i)).flags
  refine ⟨Paging.framecount_allocPage .., fun number before => (marks number).mpr (.inr before),
    fun page none => ?_, ?_, fun number before => ?_⟩
  · refine (pages page).trans (if_neg ?_)
    rintro rfl
    exact none (src, i) ⟨rfl, rfl⟩
  · rintro page original ⟨rfl, rfl⟩
    refine ⟨congrArg Page.flags here, ?_, ?_, ?_⟩
    · change (next.paging.pageAt (table, i)).frame ∈ m.paging.freeFrames
      rw [here]
      exact Paging.mem_freeFrames.mpr ⟨inside, unmarked⟩
    · exact (marks _).mpr (.inl (congrArg Page.frame here))
    · change Function.update m.content (next.paging.pageAt (table, i)).frame
        (m.content (next.paging.pageAt (src, i)).frame) (next.paging.pageAt (table, i)).frame = _
      rw [Function.update_self, there]
  · change Function.update m.content (next.paging.pageAt (table, i)).frame
      (m.content (next.paging.pageAt (src, i)).frame) number = _
    rw [here, Function.update_of_ne]
    rintro rfl
    exact unmarked before

/-- The loop of `clone_table`, when it finds its frames: the entries in use are copied. -/
theorem cloneEntries_copied (small : m.paging.framecount < frameNumbers)
    (live : table ∈ m.paging.table) (apart : src ≠ table)
    (empty : ∀ i < bound, (m.paging.pageAt (table, i)).frame = 0)
    (marked : ∀ i < bound, (m.paging.pageAt (src, i)).frame ≠ 0 →
      m.paging.marked (m.paging.pageAt (src, i)).frame)
    (fed : (cloneEntries src table bound m).paging.starved = false) :
    Copied m (cloneEntries src table bound m) fun page original => page.1 = table ∧
      page.2 < bound ∧ original = (src, page.2) ∧ (m.paging.pageAt original).frame ≠ 0 := by
  induction bound generalizing m with
  | zero =>
    refine (Copied.none rfl rfl (fun _ => rfl) rfl).congr fun page original => ?_
    exact iff_of_false (fun here => Nat.not_lt_zero _ here.2.1) id
  | succ i ih =>
    rw [cloneEntries] at fed ⊢
    have shorter (page original : PagePointer) (differ : (m.paging.pageAt original).frame ≠ 0 →
        original = (src, page.2) → page.2 ≠ i) :
        (page.1 = table ∧ page.2 < i + 1 ∧ original = (src, page.2) ∧
          (m.paging.pageAt original).frame ≠ 0) ↔
        page.1 = table ∧ page.2 < i ∧ original = (src, page.2) ∧
          (m.paging.pageAt original).frame ≠ 0 := by
      constructor
      · rintro ⟨at_table, below, same, mapped⟩
        have apart := differ mapped same
        exact ⟨at_table, by omega, same, mapped⟩
      · rintro ⟨at_table, below, same, mapped⟩
        exact ⟨at_table, by omega, same, mapped⟩
    by_cases unmapped : (m.paging.pageAt (src, i)).frame = 0
    · rw [if_pos unmapped] at fed ⊢
      have copied := ih small live (fun j below => empty j (by omega))
        (fun j below => marked j (by omega)) fed
      refine copied.congr fun page original => shorter page original fun mapped same index => ?_
      rw [same, index] at mapped
      exact mapped unmapped
    · rw [if_neg unmapped] at fed ⊢
      have free := empty i (by omega)
      have found : m.paging.firstFrame ≠ noFrame := by
        intro none
        have earlier := (Paging.cloneEntries_tables src table i _).starved
          (by rw [← cloneEntries_paging]; exact fed)
        have starved := Paging.allocFrame_starved free (m.paging.pageAt (src, i)).flags
        rw [none, beq_self_eq_true, Bool.or_true] at starved
        exact absurd (starved.symm.trans earlier) (by decide)
      have first := allocFrame_copied small live apart free found
      have same := Paging.allocFrame_tables m.paging (table, i) (m.paging.pageAt (src, i)).flags
      have live' := (same.table table).mpr live
      dsimp only at first fed ⊢
      generalize next_def : clonePage _ _ _ = next at first fed ⊢
      rw [show (m.paging.allocFrame _ _).table = next.paging.table by rw [← next_def]; rfl] at live'
      -- the earlier entries of both tables are as before
      have copy_kept (j : Nat) (below : j < i) :
          next.paging.pageAt (table, j) = m.paging.pageAt (table, j) := by
        refine first.kept (table, j) fun _ here => ?_
        have index : j = i := congrArg Prod.snd here.1
        omega
      have source_kept (j : Nat) : next.paging.pageAt (src, j) = m.paging.pageAt (src, j) :=
        first.kept (src, j) fun _ here => apart (congrArg Prod.fst here.1)
      have second := ih (by rw [first.framecount]; exact small) live'
        (fun j below => by rw [copy_kept j below]; exact empty j (by omega))
        (fun j below mapped => by
          rw [source_kept] at mapped ⊢
          exact first.marked _ (marked j (by omega) mapped)) fed
      refine (first.trans second ?_).congr fun page original => ?_
      · rintro ⟨_, j⟩ _ ⟨rfl, below, rfl, mapped⟩
        rw [source_kept] at mapped
        refine ⟨fun _ here => ?_, fun _ here => apart (congrArg Prod.fst here.1),
          marked j (Nat.lt_succ_of_lt below) mapped⟩
        have index : j = i := congrArg Prod.snd here.1
        exact absurd below (by omega)
      · constructor
        · rintro ⟨at_table, below, rfl, mapped⟩
          by_cases index : page.2 = i
          · exact .inl ⟨Prod.ext at_table index, by rw [index]⟩
          · refine .inr ⟨at_table, by omega, rfl, ?_⟩
            rwa [source_kept]
        · rintro (⟨rfl, rfl⟩ | ⟨at_table, below, rfl, mapped⟩)
          · exact ⟨rfl, Nat.lt_succ_self i, rfl, unmapped⟩
          · rw [source_kept] at mapped
            exact ⟨at_table, by omega, rfl, mapped⟩

end PagedMemory

end Nupkux
