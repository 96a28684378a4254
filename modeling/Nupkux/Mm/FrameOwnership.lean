import Nupkux.Mm.Paging
import Nupkux.Lib.Ownership
import Nupkux.Lib.Transition

/-!
# Physical frames are owned by one page each

The frames recorded in page tables are held by their entries in the sense of `Owned`, with
frame 0 reserved and the bit map as the marks. Which tables there are is a second matter:
`Linked` says that directories share only the tables of the kernel directory, so that freeing
a directory frees exactly the tables nobody else points to.
-/

namespace Nupkux

namespace Paging

variable {p p' : Paging} {page other : PagePointer} {frame directory index table : Nat}

/-! ## The bit map -/

/-- The bit of a frame in the frame map. -/
def marked (p : Paging) (frame : Nat) : Prop := (p.framemap (frame / 32)).getLsbD (frame % 32)

/-- Setting a bit marks its frame. -/
theorem setFrame_marked (p : Paging) (number frame : Nat) :
    (p.setFrame number).marked frame ↔ frame = number ∨ p.marked frame := by
  simp only [marked, setFrame, Function.update_apply]
  by_cases word : frame / 32 = number / 32
  · rw [if_pos word, BitVec.getLsbD_or, Bool.or_eq_true, ← word, or_comm]
    refine or_congr ?_ Iff.rfl
    have same : frame % 32 = number % 32 ↔ frame = number := by omega
    have bit : number % 32 < 32 := Nat.mod_lt _ (by decide)
    rw [← BitVec.twoPow_eq, BitVec.getLsbD_twoPow, ← same, eq_comm (a := frame % 32)]
    simp only [bit, decide_true, Bool.true_and, decide_eq_true_eq]
  · have differ : frame ≠ number := fun same => word (congrArg (· / 32) same)
    simp only [if_neg word, differ, false_or]

/-- Clearing a bit unmarks its frame. -/
theorem clearFrame_marked (p : Paging) (number frame : Nat) :
    (p.clearFrame number).marked frame ↔ p.marked frame ∧ frame ≠ number := by
  have below : frame % 32 < 32 := Nat.mod_lt _ (by decide)
  simp only [marked, clearFrame, Function.update_apply]
  by_cases word : frame / 32 = number / 32
  · rw [if_pos word, BitVec.getLsbD_and, Bool.and_eq_true, ← word]
    refine and_congr Iff.rfl ?_
    have same : frame % 32 = number % 32 ↔ frame = number := by omega
    have bit : number % 32 < 32 := Nat.mod_lt _ (by decide)
    rw [BitVec.getLsbD_not, ← BitVec.twoPow_eq, BitVec.getLsbD_twoPow, ne_eq, ← same,
      eq_comm (a := frame % 32)]
    simp only [below, bit, decide_true, Bool.true_and, Bool.not_eq_true',
      decide_eq_false_iff_not]
  · have differ : frame ≠ number := fun same => word (congrArg (· / 32) same)
    simp only [if_neg word, differ, ne_eq, not_false_eq_true, and_true]

/-- The test of `first_frame` for a bit of a word. -/
theorem and_shiftLeft_eq_zero (word : BitVec 32) {j : Nat} (inside : j < 32) :
    word &&& (1#32 <<< j) = 0#32 ↔ word.getLsbD j = false := by
  rw [← BitVec.twoPow_eq, BitVec.and_twoPow]
  split
  · rename_i set
    constructor
    · intro zero
      have one := congrArg (·.getLsbD j) zero
      simp [inside] at one
    · intro clear
      rw [clear] at set
      cases set
  · rename_i clear
    exact iff_of_true rfl (Bool.eq_false_iff.mpr clear)

/-- `first_frame` returns a free frame of the words it looks at, if any. -/
theorem firstFrame_cases (p : Paging) :
    (p.firstFrame = noFrame ∧ ∀ frame < p.framecount / 32 * 32, p.marked frame) ∨
      p.firstFrame < p.framecount / 32 * 32 ∧ ¬p.marked p.firstFrame := by
  unfold firstFrame
  cases found : (List.range (p.framecount / 32)).findSome? fun i =>
      if p.framemap i = 0xFFFFFFFF#32 then none
      else ((List.range 32).find? fun j => p.framemap i &&& (1#32 <<< j) = 0#32).map
        fun j => i * 32 + j with
  | none =>
    refine .inl ⟨rfl, fun frame inside => ?_⟩
    rw [List.findSome?_eq_none_iff] at found
    have word := found (frame / 32) (List.mem_range.mpr (by omega))
    have bit : frame % 32 < 32 := Nat.mod_lt _ (by decide)
    split at word
    · rename_i full
      have ones : ∀ j < 32, (0xFFFFFFFF#32).getLsbD j = true := by decide
      rw [marked, full]
      exact ones _ bit
    · rw [Option.map_eq_none_iff, List.find?_eq_none] at word
      have set := word (frame % 32) (List.mem_range.mpr bit)
      rw [decide_eq_true_eq, and_shiftLeft_eq_zero _ bit] at set
      exact Bool.eq_true_of_not_eq_false set
  | some number =>
    right
    obtain ⟨i, inside, here⟩ := List.exists_of_findSome?_eq_some found
    have word := List.mem_range.mp inside
    split at here
    · cases here
    · obtain ⟨j, free, rfl⟩ := Option.map_eq_some_iff.mp here
      have bit := List.mem_range.mp (List.mem_of_find?_eq_some free)
      have clear := List.find?_some free
      rw [decide_eq_true_eq, and_shiftLeft_eq_zero _ bit] at clear
      have quotient : (i * 32 + j) / 32 = i := by omega
      have remainder : (i * 32 + j) % 32 = j := by omega
      rw [Option.getD_some, marked, quotient, remainder, clear]
      exact ⟨by omega, Bool.false_ne_true⟩

/-- `first_frame` returns a free frame, if any. -/
theorem firstFrame_spec (p : Paging) :
    p.firstFrame = noFrame ∨ p.firstFrame < p.framecount ∧ ¬p.marked p.firstFrame := by
  refine p.firstFrame_cases.imp And.left fun found => ⟨?_, found.2⟩
  exact Nat.lt_of_lt_of_le found.1 (Nat.div_mul_le_self ..)

/-- A word all of whose frames are in use. -/
theorem framemap_eq_full {i : Nat} (full : ∀ j < 32, p.marked (i * 32 + j)) :
    p.framemap i = 0xFFFFFFFF#32 := by
  apply BitVec.eq_of_getLsbD_eq
  intro j inside
  have set := full j inside
  have quotient : (i * 32 + j) / 32 = i := by omega
  have remainder : (i * 32 + j) % 32 = j := by omega
  rw [marked, quotient, remainder] at set
  rw [set]
  have ones : ∀ j < 32, (0xFFFFFFFF#32).getLsbD j = true := by decide
  exact (ones j inside).symm

/-- When the frames in use are the first ones, `first_frame` is the one after them. -/
theorem firstFrame_of_initial {count : Nat}
    (marks : ∀ f < p.framecount / 32 * 32, p.marked f ↔ f < count) :
    p.firstFrame = if count < p.framecount / 32 * 32 then count else noFrame := by
  have full {i : Nat} (words : i < p.framecount / 32) (below : i * 32 + 32 ≤ count) :
      p.framemap i = 0xFFFFFFFF#32 :=
    framemap_eq_full fun j inside => (marks _ (by omega)).mpr (by omega)
  unfold firstFrame
  by_cases room : count < p.framecount / 32 * 32
  · rw [if_pos room]
    have bit (j : Nat) (inside : j < 32) :
        (p.framemap (count / 32)).getLsbD j = true ↔ j < count % 32 := by
      have here := marks (count / 32 * 32 + j) (by omega)
      have quotient : (count / 32 * 32 + j) / 32 = count / 32 := by omega
      have remainder : (count / 32 * 32 + j) % 32 = j := by omega
      rw [marked, quotient, remainder] at here
      rw [here]
      omega
    have free : (List.range 32).find? (fun j =>
        p.framemap (count / 32) &&& (1#32 <<< j) = 0#32) = some (count % 32) := by
      rw [List.find?_range_eq_some]
      refine ⟨?_, List.mem_range.mpr (by omega), ?_⟩
      · rw [decide_eq_true_eq, and_shiftLeft_eq_zero _ (by omega)]
        exact Bool.eq_false_iff.mpr fun set => Nat.lt_irrefl _ ((bit _ (by omega)).mp set)
      · intro j before
        rw [Bool.not_eq_true', decide_eq_false_iff_not, and_shiftLeft_eq_zero _ (by omega),
          Bool.not_eq_false]
        exact (bit j (by omega)).mpr before
    have partly : p.framemap (count / 32) ≠ 0xFFFFFFFF#32 := by
      intro all
      have ones : ∀ j < 32, (0xFFFFFFFF#32).getLsbD j = true := by decide
      have set := ones (count % 32) (by omega)
      rw [← all] at set
      exact Nat.lt_irrefl _ ((bit _ (by omega)).mp set)
    obtain ⟨before, after, words⟩ := List.append_of_mem
      (List.mem_range.mpr (show count / 32 < p.framecount / 32 by omega))
    have sorted := List.pairwise_lt_range (n := p.framecount / 32)
    rw [words, List.pairwise_append] at sorted
    have found : (List.range (p.framecount / 32)).findSome? (fun i =>
        if p.framemap i = 0xFFFFFFFF#32 then none
        else ((List.range 32).find? fun j => p.framemap i &&& (1#32 <<< j) = 0#32).map
          fun j => i * 32 + j) = some (count / 32 * 32 + count % 32) := by
      rw [List.findSome?_eq_some_iff]
      refine ⟨before, count / 32, after, words, ?_, ?_⟩
      · rw [if_neg partly, free, Option.map_some]
      · intro i member
        have earlier : i < count / 32 := sorted.2.2 i member _ List.mem_cons_self
        rw [if_pos (full (by omega) (by omega))]
    rw [found, Option.getD_some]
    omega
  · rw [if_neg room]
    have none : (List.range (p.framecount / 32)).findSome? (fun i =>
        if p.framemap i = 0xFFFFFFFF#32 then none
        else ((List.range 32).find? fun j => p.framemap i &&& (1#32 <<< j) = 0#32).map
          fun j => i * 32 + j) = none := by
      rw [List.findSome?_eq_none_iff]
      intro i member
      have words := List.mem_range.mp member
      rw [if_pos (full words (by omega))]
    rw [none]
    rfl

/-! ## Entries -/

/-- A change of one entry. -/
theorem pageAt_setPage (live : page.1 ∈ p.table) (content : Page) (other : PagePointer) :
    (p.setPage page content).pageAt other = if other = page then content else p.pageAt other := by
  obtain ⟨entries, found⟩ := Store.mem_iff_lookup.mp live
  simp only [pageAt, setPage, Store.lookup_modify]
  by_cases table : other.1 = page.1
  · rw [if_pos table, found, table, found]
    by_cases index : other.2 = page.2
    · simp [Prod.ext table index]
    · have differ : other ≠ page := fun same => index (congrArg (·.2) same)
      simp [differ, index]
  · have differ : other ≠ page := fun same => table (congrArg (·.1) same)
    rw [if_neg table, if_neg differ]

/-- A change of an entry of a table that is not there does nothing. -/
theorem setPage_of_dead (dead : page.1 ∉ p.table) (content : Page) :
    p.setPage page content = p := by
  have absent : p.table.lookup page.1 = none := AList.lookup_eq_none.mpr dead
  simp only [setPage, Store.modify, absent]

/-- A change of an entry keeps which tables there are. -/
theorem mem_table_setPage (p : Paging) (page : PagePointer) (content : Page) :
    table ∈ (p.setPage page content).table ↔ table ∈ p.table := by
  rw [Store.mem_iff_lookup, Store.mem_iff_lookup]
  simp only [setPage, Store.lookup_modify]
  split
  · rename_i same
    rw [same]
    cases p.table.lookup page.1 <;> simp
  · rfl

/-- A table that is not there has null entries. -/
theorem pageAt_of_dead (dead : page.1 ∉ p.table) : p.pageAt page = {} := by
  have absent : p.table.lookup page.1 = none := AList.lookup_eq_none.mpr dead
  simp only [pageAt, absent]
  rfl

/-- The frame an entry holds; frame number 0 is none. -/
def holds (p : Paging) (page : PagePointer) : Option Nat :=
  if (p.pageAt page).frame = 0 then none else some (p.pageAt page).frame

/-- An entry that holds a frame. -/
theorem holds_eq_some : p.holds page = some frame ↔ frame ≠ 0 ∧ (p.pageAt page).frame = frame := by
  unfold holds
  split
  · rename_i zero
    simp only [zero, reduceCtorEq, false_iff, not_and]
    exact fun nonzero same => nonzero same.symm
  · rename_i nonzero
    simp only [Option.some.injEq]
    constructor
    · rintro rfl
      exact ⟨nonzero, rfl⟩
    · exact And.right

/-- An entry that holds no frame. -/
theorem holds_eq_none : p.holds page = none ↔ (p.pageAt page).frame = 0 := by
  unfold holds
  split <;> simp_all

/-- Which entry holds which frame depends on the entry. -/
theorem holds_congr (same : p'.pageAt page = p.pageAt other) : p'.holds page = p.holds other := by
  unfold holds
  rw [same]

/-! ## Frames -/

/-- The frames recorded in page tables are owned by their entries, frame 0 is reserved, and
the frame map is exact. -/
structure Frames (p : Paging) : Prop where
  owned : Owned (· = 0) p.marked p.holds
  bounded : ∀ page frame, p.holds page = some frame → frame < p.framecount
  inside : ∀ page frame, p.holds page = some frame → page.2 < tableEntries
  small : p.framecount < frameNumbers

/-- `alloc_frame` on an entry of a table that is there keeps the ownership, if it finds a
frame. -/
theorem Frames.allocFrame (frames : p.Frames) (live : page.1 ∈ p.table)
    (index : page.2 < tableEntries) {flags : Nat}
    (fed : (p.allocFrame page flags).starved = false) : (p.allocFrame page flags).Frames := by
  unfold Paging.allocFrame at fed ⊢
  dsimp only at fed ⊢
  split
  · exact frames
  · rename_i unmapped
    rw [if_neg unmapped] at fed
    have empty : (p.pageAt page).frame = 0 := not_not.mp unmapped
    have found : p.firstFrame ≠ noFrame := by
      intro none
      simp [setFrame, setPage, none] at fed
    obtain ⟨bounded, free⟩ := p.firstFrame_spec.resolve_left found
    have nonzero : p.firstFrame ≠ 0 := fun zero =>
      free ((frames.owned.used_iff _).mpr (.inl zero))
    have small : p.firstFrame % frameNumbers = p.firstFrame :=
      Nat.mod_eq_of_lt (bounded.trans frames.small)
    set tried := ({ p with starved := p.starved || p.firstFrame == noFrame } : Paging)
    set content : Page := { flags := flags % pageFlags, frame := p.firstFrame % frameNumbers }
    have entries (other : PagePointer) :
        ((tried.setPage page content).setFrame p.firstFrame).pageAt other =
          if other = page then content else p.pageAt other :=
      pageAt_setPage (p := tried) live content other
    have here : ((tried.setPage page content).setFrame p.firstFrame).holds page =
        some p.firstFrame := by
      rw [holds_eq_some, entries, if_pos rfl]
      exact ⟨nonzero, small⟩
    have there (other : PagePointer) (differ : other ≠ page) :
        ((tried.setPage page content).setFrame p.firstFrame).holds other = p.holds other :=
      holds_congr (by rw [entries, if_neg differ])
    refine ⟨frames.owned.acquire free (holds_eq_none.mpr empty)
      (fun other => setFrame_marked _ _ _) here there, fun other frame held => ?_,
      fun other frame held => ?_, frames.small⟩
    · by_cases same : other = page
      · rw [same, here] at held
        rw [← Option.some.inj held]
        exact bounded
      · rw [there other same] at held
        exact frames.bounded other frame held
    · by_cases same : other = page
      · rw [same]
        exact index
      · rw [there other same] at held
        exact frames.inside other frame held

/-- `free_frame` keeps the ownership. -/
theorem Frames.freeFrame (frames : p.Frames) (page : PagePointer) : (p.freeFrame page).Frames := by
  unfold Paging.freeFrame
  dsimp only
  by_cases live : page.1 ∈ p.table
  · have entries (other : PagePointer) := pageAt_setPage live { p.pageAt page with frame := 0 } other
    have emptied (q : Paging) (pages : q.pageAt = (p.setPage page
        { p.pageAt page with frame := 0 }).pageAt) : q.holds page = none := by
      rw [holds_eq_none, pages, entries, if_pos rfl]
    have others (q : Paging) (pages : q.pageAt = (p.setPage page
        { p.pageAt page with frame := 0 }).pageAt) (other : PagePointer) (differ : other ≠ page) :
        q.holds other = p.holds other :=
      holds_congr (by rw [pages, entries, if_neg differ])
    have kept (q : Paging) (pages : q.pageAt = (p.setPage page
        { p.pageAt page with frame := 0 }).pageAt) {other : PagePointer} {frame : Nat}
        (held : q.holds other = some frame) : p.holds other = some frame := by
      by_cases same : other = page
      · rw [same, emptied q pages] at held
        cases held
      · rwa [others q pages other same] at held
    have released (q : Paging) (pages : q.pageAt = (p.setPage page
        { p.pageAt page with frame := 0 }).pageAt) (count : q.framecount = p.framecount)
        (marks : ∀ frame, q.marked frame ↔ p.marked frame ∧ p.holds page ≠ some frame) :
        q.Frames := by
      refine ⟨frames.owned.release (· = page) (fun frame => ?_) (fun other same => ?_)
        (others q pages), fun other frame held => ?_, fun other frame held => ?_, ?_⟩
      · rw [marks]
        simp only [forall_eq]
      · rw [same]
        exact emptied q pages
      · rw [count]
        exact frames.bounded other frame (kept q pages held)
      · exact frames.inside other frame (kept q pages held)
      · rw [count]
        exact frames.small
    split
    · rename_i nonzero
      refine released _ rfl rfl fun frame => ?_
      rw [clearFrame_marked]
      refine and_congr Iff.rfl (not_congr ?_)
      rw [holds_eq_some]
      constructor
      · rintro rfl
        exact ⟨nonzero, rfl⟩
      · exact fun held => held.2.symm
    · rename_i zero
      refine released _ rfl rfl fun frame => ?_
      have none : p.holds page = none := holds_eq_none.mpr (not_not.mp zero)
      rw [none]
      exact ⟨fun mark => ⟨mark, by simp⟩, And.left⟩
  · rw [setPage_of_dead live, pageAt_of_dead live, if_neg (by decide)]
    exact frames

/-- A new table has null entries. -/
theorem pageAt_newTable (fresh : p.table.lookup table = none) (page : PagePointer) :
    (p.newTable table).pageAt page = p.pageAt page := by
  simp only [pageAt, newTable, Store.lookup_insert_eq]
  split
  · rename_i same
    rw [same, fresh]
    rfl
  · rfl

/-- A new table keeps the ownership. -/
theorem Frames.newTable (frames : p.Frames) (fresh : p.table.lookup table = none) :
    (p.newTable table).Frames := by
  have same (page : PagePointer) := holds_congr (pageAt_newTable fresh page)
  refine ⟨frames.owned.congr (fun _ => .rfl) same, fun page frame held => ?_,
    fun page frame held => ?_, frames.small⟩
  · exact frames.bounded page frame (same page ▸ held)
  · exact frames.inside page frame (same page ▸ held)

/-- The ownership of frames depends on the tables and the frame map. -/
theorem Frames.same (frames : p.Frames) (count : p'.framecount = p.framecount)
    (framemap : p'.framemap = p.framemap) (table : p'.table = p.table) : p'.Frames := by
  have marks (frame : Nat) : p'.marked frame ↔ p.marked frame := by rw [marked, marked, framemap]
  have entries (page : PagePointer) : p'.holds page = p.holds page :=
    holds_congr (by rw [pageAt, pageAt, table])
  refine ⟨frames.owned.congr marks entries, fun page frame held => ?_,
    fun page frame held => ?_, ?_⟩
  · rw [count]
    exact frames.bounded page frame (entries page ▸ held)
  · exact frames.inside page frame (entries page ▸ held)
  · rw [count]
    exact frames.small

/-- The loop of `free_table` unmarks the frames of its entries. -/
theorem clearEntries_marked (table bound : Nat) (p : Paging) (frame : Nat) :
    (clearEntries table bound p).marked frame ↔
      p.marked frame ∧ ∀ i < bound, p.holds (table, i) ≠ some frame := by
  induction bound generalizing p with
  | zero => simp [clearEntries]
  | succ i ih =>
    have entries (number : Nat) (page : PagePointer) : (p.clearFrame number).holds page =
        p.holds page := rfl
    rw [clearEntries, ih]
    by_cases zero : (p.pageAt (table, i)).frame = 0
    · have none : p.holds (table, i) = none := holds_eq_none.mpr zero
      rw [if_neg (not_not.mpr zero), Nat.forall_lt_succ_right, none]
      simp only [ne_eq, reduceCtorEq, not_false_eq_true, and_true]
    · rw [if_pos zero, clearFrame_marked]
      simp only [entries, Nat.forall_lt_succ_right]
      have here : p.holds (table, i) ≠ some frame ↔ frame ≠ (p.pageAt (table, i)).frame := by
        refine not_congr (holds_eq_some.trans ⟨fun held => held.2.symm, ?_⟩)
        rintro rfl
        exact ⟨zero, rfl⟩
      rw [here]
      tauto

/-- The loop of `free_table` changes the frame map only. -/
theorem clearEntries_frame (table bound : Nat) (p : Paging) :
    ∃ framemap, clearEntries table bound p = { p with framemap } := by
  induction bound generalizing p with
  | zero => exact ⟨p.framemap, rfl⟩
  | succ i ih =>
    rw [clearEntries]
    split
    · obtain ⟨framemap, same⟩ := ih (p.clearFrame (p.pageAt (table, i)).frame)
      exact ⟨framemap, by rw [same]; rfl⟩
    · exact ih p

/-- `free_table` keeps the ownership: the entries it drops hold nothing any more. -/
theorem Frames.freeTable (frames : p.Frames) (table : Nat) : (p.freeTable table).Frames := by
  have marks := clearEntries_marked table tableEntries p
  have cleared := clearEntries_frame table tableEntries p
  unfold Paging.freeTable
  generalize clearEntries table tableEntries p = q at marks cleared ⊢
  obtain ⟨framemap, rfl⟩ := cleared
  dsimp only
  set freed := ({ p with framemap, table := AList.erase table p.table } : Paging)
  have entries (page : PagePointer) : freed.pageAt page =
      if page.1 = table then {} else p.pageAt page := by
    simp only [freed, pageAt, Store.lookup_erase_eq]
    split <;> rfl
  have emptied (page : PagePointer) (here : page.1 = table) : freed.holds page = none := by
    rw [holds_eq_none, entries, if_pos here]
  have others (page : PagePointer) (differ : page.1 ≠ table) :
      freed.holds page = p.holds page :=
    holds_congr (by rw [entries, if_neg differ])
  have kept {page : PagePointer} {frame : Nat} (held : freed.holds page = some frame) :
      p.holds page = some frame := by
    by_cases here : page.1 = table
    · rw [emptied page here] at held
      cases held
    · rwa [others page here] at held
  refine ⟨frames.owned.release (·.1 = table) (fun frame => (marks frame).trans ?_) emptied others,
    fun page frame held => frames.bounded page frame (kept held),
    fun page frame held => frames.inside page frame (kept held), frames.small⟩
  refine and_congr Iff.rfl ⟨fun unheld page here held => ?_,
    fun unheld i _ => unheld (table, i) rfl⟩
  have inside := frames.inside page frame held
  exact unheld page.2 inside (by rwa [← here])

/-! ## Tables -/

/-- The table a directory points to, 0 for none; a directory that is not there has none. -/
abbrev tableOf (p : Paging) (directory index : Nat) : Nat :=
  (p.directoryAt directory).tables index

/-- Directories share only the tables of the kernel directory, and point to tables that are
there. -/
structure Linked (p : Paging) : Prop where
  kernel : p.kernelDirectory ∈ p.directory
  null : 0 ∉ p.table
  present : ∀ directory index,
    (p.directoryAt directory).physTabs index ≠ 0 ↔ p.tableOf directory index ≠ 0
  inside : ∀ directory index, p.tableOf directory index ≠ 0 → index < tableEntries
  live : ∀ directory index, p.tableOf directory index ≠ 0 → p.tableOf directory index ∈ p.table
  shared : ∀ directory other index index', p.tableOf directory index ≠ 0 →
    p.tableOf directory index = p.tableOf other index' →
    index = index' ∧
      (directory = other ∨ p.tableOf p.kernelDirectory index = p.tableOf directory index)

/-- Every table but a pending one is pointed to. -/
def Referenced (p : Paging) (pending : Nat) : Prop :=
  ∀ table ∈ p.table, table = pending ∨ ∃ directory index, p.tableOf directory index = table

/-- A directory that is not there points to no table. -/
theorem directoryAt_of_dead (dead : directory ∉ p.directory) : p.directoryAt directory = {} := by
  have absent : p.directory.lookup directory = none := AList.lookup_eq_none.mpr dead
  simp only [directoryAt, absent]
  rfl

/-- What a directory looks like when a table is entered. -/
theorem directoryAt_setTable (live : directory ∈ p.directory) (index table phys other : Nat) :
    (p.setTable directory index table phys).directoryAt other =
      if other = directory then
        { p.directoryAt directory with
          physTabs := Function.update (p.directoryAt directory).physTabs index phys
          tables := Function.update (p.directoryAt directory).tables index table }
      else p.directoryAt other := by
  obtain ⟨dir, found⟩ := Store.mem_iff_lookup.mp live
  simp only [directoryAt, setTable, Store.lookup_modify]
  split
  · rw [found]
    rfl
  · rfl

/-- The tables after one is entered. -/
theorem tableOf_setTable (live : directory ∈ p.directory) (index table phys other index' : Nat) :
    (p.setTable directory index table phys).tableOf other index' =
      if other = directory ∧ index' = index then table else p.tableOf other index' := by
  rw [tableOf, directoryAt_setTable live]
  by_cases here : other = directory
  · rw [if_pos here, here]
    simp only [Function.update_apply, true_and, tableOf]
  · rw [if_neg here, if_neg fun both => here both.1]

/-- The physical table entries after one is entered. -/
theorem physTabs_setTable (live : directory ∈ p.directory) (index table phys other index' : Nat) :
    ((p.setTable directory index table phys).directoryAt other).physTabs index' =
      if other = directory ∧ index' = index then phys
      else (p.directoryAt other).physTabs index' := by
  rw [directoryAt_setTable live]
  by_cases here : other = directory
  · rw [if_pos here, here]
    simp only [Function.update_apply, true_and]
  · rw [if_neg here, if_neg fun both => here both.1]

/-- Entering a table keeps which directories there are. -/
theorem mem_directory_setTable (p : Paging) (directory index table phys : Nat) {other : Nat} :
    other ∈ (p.setTable directory index table phys).directory ↔ other ∈ p.directory := by
  rw [Store.mem_iff_lookup, Store.mem_iff_lookup]
  simp only [setTable, Store.lookup_modify]
  split
  · rename_i same
    rw [same]
    cases p.directory.lookup directory <;> simp
  · rfl

/-- A table is entered at a free index: the kernel's table of that index, or one nobody points
to. -/
theorem Linked.setTable (linked : p.Linked) (live : directory ∈ p.directory)
    (inside : index < tableEntries) (free : p.tableOf directory index = 0)
    (there : table ∈ p.table) {phys : Nat} (nonzero : phys ≠ 0)
    (source : p.tableOf p.kernelDirectory index = table ∨
      ∀ other index', p.tableOf other index' ≠ table) :
    (p.setTable directory index table phys).Linked := by
  have tables (other index' : Nat) := tableOf_setTable live index table phys other index'
  have nonnull : table ≠ 0 := fun null => linked.null (null ▸ there)
  -- whoever points to the new table already does so at the same index, as the kernel does
  have pointing (other index' : Nat) (same : p.tableOf other index' = table) :
      index = index' ∧ p.tableOf p.kernelDirectory index = table := by
    rcases source with kernel | nobody
    · have both := linked.shared p.kernelDirectory other index index' (kernel ▸ nonnull)
        (kernel.trans same.symm)
      exact ⟨both.1, kernel⟩
    · exact absurd same (nobody other index')
  have kernelKept (index' : Nat) (some_table : p.tableOf p.kernelDirectory index' ≠ 0) :
      (p.setTable directory index table phys).tableOf p.kernelDirectory index' =
        p.tableOf p.kernelDirectory index' := by
    rw [tables, if_neg]
    rintro ⟨rfl, rfl⟩
    exact some_table free
  refine ⟨(mem_directory_setTable ..).mpr linked.kernel, linked.null, fun other index' => ?_,
    fun other index' some_table => ?_, fun other index' some_table => ?_,
    fun other other' index' index'' some_table same => ?_⟩
  · rw [tables, physTabs_setTable live]
    split
    · exact iff_of_true nonzero nonnull
    · exact linked.present other index'
  · rw [tables] at some_table
    split at some_table
    · rename_i both
      exact both.2 ▸ inside
    · exact linked.inside other index' some_table
  · rw [tables] at some_table ⊢
    split
    · exact there
    · rename_i elsewhere
      rw [if_neg elsewhere] at some_table
      exact linked.live other index' some_table
  · rw [tables] at some_table
    rw [tables, tables other'] at same
    by_cases first : other = directory ∧ index' = index
    · rw [if_pos first] at same
      by_cases second : other' = directory ∧ index'' = index
      · exact ⟨first.2.trans second.2.symm, .inl (first.1.trans second.1.symm)⟩
      · rw [if_neg second] at same
        obtain ⟨at_index, kernel⟩ := pointing other' index'' same.symm
        refine ⟨first.2.trans at_index, .inr ?_⟩
        change (p.setTable directory index table phys).tableOf p.kernelDirectory index' = _
        rw [first.2, kernelKept index (kernel ▸ nonnull), kernel, tables, if_pos ⟨first.1, rfl⟩]
    · rw [if_neg first] at same some_table
      rw [tables other, if_neg first]
      by_cases second : other' = directory ∧ index'' = index
      · rw [if_pos second] at same
        obtain ⟨at_index, kernel⟩ := pointing other index' same
        refine ⟨at_index.symm.trans second.2.symm, .inr ?_⟩
        change (p.setTable directory index table phys).tableOf p.kernelDirectory index' = _
        rw [← at_index, kernelKept index (kernel ▸ nonnull), kernel, at_index, same]
      · rw [if_neg second] at same
        obtain ⟨at_index, together⟩ := linked.shared other other' index' index'' some_table same
        refine ⟨at_index, together.imp id fun kernel => ?_⟩
        change (p.setTable directory index table phys).tableOf p.kernelDirectory index' = _
        rw [kernelKept index' (kernel ▸ some_table), kernel]

/-- Entering the pending table, or one that is pointed to, at a free index leaves none
pending. -/
theorem Referenced.setTable (referenced : p.Referenced table) (live : directory ∈ p.directory)
    (free : p.tableOf directory index = 0) (null : 0 ∉ p.table) (phys : Nat) :
    (p.setTable directory index table phys).Referenced 0 := by
  have tables (other index' : Nat) := tableOf_setTable live index table phys other index'
  intro other there
  right
  rcases referenced other there with rfl | ⟨directory', index', here⟩
  · exact ⟨directory, index, by rw [tables, if_pos ⟨rfl, rfl⟩]⟩
  · refine ⟨directory', index', ?_⟩
    rw [tables, if_neg, here]
    rintro ⟨rfl, rfl⟩
    rw [free] at here
    exact null (here ▸ there)

/-! ## Operations on entries -/

/-- The states have the same directories and tables, and the later one has been starved if the
first one was. -/
structure SameTables (p p' : Paging) : Prop where
  directory : p'.directory = p.directory
  kernelDirectory : p'.kernelDirectory = p.kernelDirectory
  table : ∀ table, table ∈ p'.table ↔ table ∈ p.table
  starved : p'.starved = false → p.starved = false

/-- Nothing changed. -/
theorem SameTables.refl (p : Paging) : SameTables p p := ⟨rfl, rfl, fun _ => .rfl, id⟩

/-- Two operations on entries. -/
theorem SameTables.trans {p'' : Paging} (first : SameTables p p') (second : SameTables p' p'') :
    SameTables p p'' where
  directory := second.directory.trans first.directory
  kernelDirectory := second.kernelDirectory.trans first.kernelDirectory
  table table := (second.table table).trans (first.table table)
  starved := first.starved ∘ second.starved

/-- Directories point to the same tables. -/
theorem SameTables.directoryAt (same : SameTables p p') (directory : Nat) :
    p'.directoryAt directory = p.directoryAt directory := by
  unfold Paging.directoryAt
  rw [same.directory]

/-- How directories are linked depends on the directories and tables there are. -/
theorem SameTables.linked (same : SameTables p p') (linked : p.Linked) : p'.Linked where
  kernel := by
    rw [same.directory, same.kernelDirectory]
    exact linked.kernel
  null := by
    rw [same.table]
    exact linked.null
  present directory index := by
    rw [tableOf, same.directoryAt]
    exact linked.present directory index
  inside directory index := by
    rw [tableOf, same.directoryAt]
    exact linked.inside directory index
  live directory index := by
    rw [tableOf, same.directoryAt, same.table]
    exact linked.live directory index
  shared directory other index index' := by
    rw [tableOf, tableOf, tableOf, same.kernelDirectory, same.directoryAt, same.directoryAt,
      same.directoryAt]
    exact linked.shared directory other index index'

/-- Which tables are pointed to depends on the directories and tables there are. -/
theorem SameTables.referenced (same : SameTables p p') {pending : Nat}
    (referenced : p.Referenced pending) : p'.Referenced pending := by
  intro table there
  refine (referenced table ((same.table table).mp there)).imp id ?_
  rintro ⟨directory, index, here⟩
  exact ⟨directory, index, by rw [tableOf, same.directoryAt, ← here]⟩

/-- `alloc_frame` changes an entry. -/
theorem allocFrame_tables (p : Paging) (page : PagePointer) (flags : Nat) :
    SameTables p (p.allocFrame page flags) := by
  unfold allocFrame
  dsimp only
  split
  · exact .refl p
  · refine ⟨rfl, rfl, fun table => ?_, fun fed => ?_⟩
    · exact mem_table_setPage { p with starved := p.starved || p.firstFrame == noFrame } page _
    · change (p.starved || p.firstFrame == noFrame) = false at fed
      rw [Bool.or_eq_false_iff] at fed
      exact fed.1

/-- `free_frame` changes an entry. -/
theorem freeFrame_tables (p : Paging) (page : PagePointer) :
    SameTables p (p.freeFrame page) := by
  unfold freeFrame
  dsimp only
  split <;> exact ⟨rfl, rfl, fun table => mem_table_setPage p page _, id⟩

/-- The loop of `clone_table` changes entries. -/
theorem cloneEntries_tables (src table bound : Nat) (p : Paging) :
    SameTables p (cloneEntries src table bound p) := by
  induction bound generalizing p with
  | zero => exact .refl p
  | succ i ih =>
    rw [cloneEntries]
    split
    · exact ih p
    · exact (allocFrame_tables p (table, i) _).trans (ih _)

/-- The loop of `clone_table` keeps the ownership, if it finds its frames. -/
theorem Frames.cloneEntries (frames : p.Frames) (src : Nat) (live : table ∈ p.table)
    {bound : Nat} (inside : bound ≤ tableEntries)
    (fed : (Paging.cloneEntries src table bound p).starved = false) :
    (Paging.cloneEntries src table bound p).Frames := by
  induction bound generalizing p with
  | zero => exact frames
  | succ i ih =>
    rw [Paging.cloneEntries] at fed ⊢
    split at fed
    · rename_i unmapped
      rw [if_pos unmapped]
      exact ih frames live (by omega) fed
    · rename_i mapped
      rw [if_neg mapped]
      have same := allocFrame_tables p (table, i) (p.pageAt (src, i)).flags
      have earlier := (cloneEntries_tables src table i _).starved fed
      exact ih (frames.allocFrame live (by omega) earlier) ((same.table table).mpr live) (by omega)
        fed

/-- A table is allocated, and pending until a directory points to it. -/
theorem Linked.newTable (linked : p.Linked) (referenced : p.Referenced 0) (blocks : PageBlocks) :
    let res := blocks.table.address p.table
    (p.newTable res).Linked ∧ (p.newTable res).Referenced res ∧ res ∈ (p.newTable res).table ∧
      ∀ directory index, (p.newTable res).tableOf directory index ≠ res := by
  intro res
  have fresh : p.table.lookup res = none := blocks.table.address_fresh p.table
  have grows {table : Nat} (there : table ∈ p.table) : table ∈ (p.newTable res).table :=
    (AList.mem_insert _).mpr (.inr there)
  refine ⟨⟨linked.kernel, ?_, linked.present, linked.inside,
    fun directory index some_table => grows (linked.live directory index some_table),
    linked.shared⟩, fun table there => ?_, (AList.mem_insert _).mpr (.inl rfl),
    fun directory index same => ?_⟩
  · rw [Paging.newTable, AList.mem_insert]
    rintro (null | there)
    · exact blocks.table.address_ne_zero p.table null.symm
    · exact linked.null there
  · rcases (AList.mem_insert _).mp there with rfl | older
    · exact .inl rfl
    · rcases referenced table older with rfl | pointed
      · exact absurd older linked.null
      · exact .inr pointed
  · have pointed : p.tableOf directory index = res := same
    have nonnull : p.tableOf directory index ≠ 0 :=
      pointed ▸ blocks.table.address_ne_zero p.table
    have there := linked.live directory index nonnull
    rw [pointed, ← AList.lookup_isSome, fresh] at there
    cases there

/-- `make_table` at an index without a table keeps the directories linked. -/
theorem Linked.makeTable (linked : p.Linked) (referenced : p.Referenced 0) (blocks : PageBlocks)
    (live : directory ∈ p.directory) (inside : index < tableEntries)
    (free : p.tableOf directory index = 0) (flags : Nat) :
    (p.makeTable blocks index flags directory).Linked ∧
      (p.makeTable blocks index flags directory).Referenced 0 ∧
      (p.makeTable blocks index flags directory).tableOf directory index ≠ 0 := by
  obtain ⟨linked', referenced', there, nobody⟩ := linked.newTable referenced blocks
  have phys : blocks.phys (blocks.table.address p.table) ||| flags ≠ 0 := by
    rw [Ne, Nat.or_eq_zero_iff]
    exact fun both => blocks.phys_ne_zero _ both.1
  refine ⟨linked'.setTable live inside free there phys (.inr nobody),
    referenced'.setTable live free linked'.null _, ?_⟩
  set res := blocks.table.address p.table
  have entered := tableOf_setTable (p := p.newTable res) live index res
    (blocks.phys res ||| flags) directory index
  rw [if_pos ⟨rfl, rfl⟩] at entered
  rw [Paging.makeTable, entered]
  exact blocks.table.address_ne_zero p.table

/-! ## The invariant -/

/-- The invariant of page tables and frames. -/
structure PagingInvariant (p : Paging) : Prop where
  linked : p.Linked
  referenced : p.Referenced 0
  frames : p.starved = false → p.Frames

/-- A table is allocated. -/
theorem PagingInvariant.newTable (invariant : p.PagingInvariant) (blocks : PageBlocks)
    (fed : p.starved = false) : (p.newTable (blocks.table.address p.table)).Frames :=
  (invariant.frames fed).newTable (blocks.table.address_fresh p.table)

/-- `make_table` at an index without a table keeps the invariant. -/
theorem PagingInvariant.makeTable (invariant : p.PagingInvariant) (blocks : PageBlocks)
    (live : directory ∈ p.directory) (inside : index < tableEntries)
    (free : p.tableOf directory index = 0) (flags : Nat) :
    (p.makeTable blocks index flags directory).PagingInvariant :=
  have made := invariant.linked.makeTable invariant.referenced blocks live inside free flags
  ⟨made.1, made.2.1, fun fed => (invariant.newTable blocks fed).same rfl rfl rfl⟩

/-- `alloc_frame` keeps the invariant. -/
theorem PagingInvariant.allocFrame (invariant : p.PagingInvariant) (live : page.1 ∈ p.table)
    (inside : page.2 < tableEntries) (flags : Nat) :
    (p.allocFrame page flags).PagingInvariant :=
  have same := allocFrame_tables p page flags
  ⟨same.linked invariant.linked, same.referenced invariant.referenced,
    fun fed => (invariant.frames (same.starved fed)).allocFrame live inside fed⟩

/-- `make_page` keeps the invariant. -/
theorem PagingInvariant.makePage (invariant : p.PagingInvariant) (blocks : PageBlocks)
    {address : Nat} (inRange : address < uintWidth) (flags : Nat)
    (live : directory ∈ p.directory) (alloc : Bool) :
    (p.makePage blocks address flags directory alloc).1.PagingInvariant := by
  have tab : address / frameSize / tableEntries < tableEntries := by
    rw [frameSize, tableEntries]
    rw [uintWidth] at inRange
    omega
  have entry : address / frameSize % tableEntries < tableEntries :=
    Nat.mod_lt _ (by decide)
  unfold Paging.makePage
  dsimp only
  have mapped : ∀ q : Paging, q.PagingInvariant →
      q.tableOf directory (address / frameSize / tableEntries) ≠ 0 →
      (if alloc then q.allocFrame (q.tableOf directory (address / frameSize / tableEntries),
        address / frameSize % tableEntries) flags else q).PagingInvariant := by
    intro q invariant' some_table
    split
    · exact invariant'.allocFrame (invariant'.linked.live _ _ some_table) entry flags
    · exact invariant'
  by_cases absent : (p.directoryAt directory).physTabs (address / frameSize / tableEntries) = 0
  · rw [if_pos absent]
    have free : p.tableOf directory (address / frameSize / tableEntries) = 0 := by
      by_contra some_table
      exact (invariant.linked.present directory _).mpr some_table absent
    have made := invariant.linked.makeTable invariant.referenced blocks live tab free flags
    exact mapped _ (invariant.makeTable blocks live tab free flags) made.2.2
  · rw [if_neg absent]
    exact mapped p invariant ((invariant.linked.present directory _).mp absent)

/-- `free_page` keeps the invariant. -/
theorem PagingInvariant.freePage (invariant : p.PagingInvariant) (address directory : Nat) :
    (p.freePage address directory).1.PagingInvariant := by
  unfold Paging.freePage
  dsimp only
  split
  · exact invariant
  · have same := freeFrame_tables p ((p.directoryAt directory).tables
      (address / frameSize / tableEntries), address / frameSize % tableEntries)
    exact ⟨same.linked invariant.linked, same.referenced invariant.referenced,
      fun fed => (invariant.frames (same.starved fed)).freeFrame _⟩

/-! ## Clone -/

/-- The states have the same directories but one, of which nothing is said. -/
structure SameOthers (directory : Nat) (p p' : Paging) : Prop where
  kernelDirectory : p'.kernelDirectory = p.kernelDirectory
  mem : ∀ other, other ∈ p'.directory ↔ other ∈ p.directory
  directoryAt : ∀ other, other ≠ directory → p'.directoryAt other = p.directoryAt other

/-- The table and physical entry that one turn of `clone_directory` enters. -/
def clonedEntry (blocks : PageBlocks) (p : Paging) (src i : Nat) : Nat × Nat :=
  if p.tableOf p.kernelDirectory i = p.tableOf src i then
    (p.tableOf src i, (p.directoryAt src).physTabs i)
  else (blocks.table.address p.table, blocks.phys (blocks.table.address p.table) ||| userFlags)

/-- `clone_table` allocates a table and changes its entries. -/
theorem cloneTable_spec (blocks : PageBlocks) (p : Paging) (src : Nat) :
    let res := blocks.table.address p.table
    ∃ q, p.cloneTable blocks src = (q, res, blocks.phys res) ∧
      SameTables (p.newTable res) q ∧
      (q.starved = false → (p.newTable res).Frames → res ∈ (p.newTable res).table → q.Frames) :=
  ⟨_, rfl, cloneEntries_tables src _ tableEntries _,
    fun fed frames there => frames.cloneEntries src there le_rfl fed⟩

/-- One turn of `clone_directory` on the directories: the entry is made if the source has
one. -/
theorem cloneEntry_directory (blocks : PageBlocks) (p : Paging) (src dir i : Nat) :
    (p.cloneEntry blocks src dir i).kernelDirectory = p.kernelDirectory ∧
      (p.cloneEntry blocks src dir i).directory = if p.tableOf src i = 0 then p.directory
        else (p.setTable dir i (p.clonedEntry blocks src i).1
          (p.clonedEntry blocks src i).2).directory := by
  unfold cloneEntry clonedEntry
  split
  · exact ⟨rfl, rfl⟩
  · split
    · exact ⟨rfl, rfl⟩
    · obtain ⟨q, cloned, same, _⟩ := cloneTable_spec blocks p (p.tableOf src i)
      rw [cloned]
      refine ⟨same.kernelDirectory, ?_⟩
      simp only [setTable, same.directory]
      rfl

/-- The directories after one turn of `clone_directory`. -/
theorem cloneEntry_others (blocks : PageBlocks) (src i : Nat) {dir : Nat}
    (live : dir ∈ p.directory) :
    SameOthers dir p (p.cloneEntry blocks src dir i) ∧
      ∀ t, ((p.cloneEntry blocks src dir i).tableOf dir t,
          ((p.cloneEntry blocks src dir i).directoryAt dir).physTabs t) =
        if t = i ∧ p.tableOf src i ≠ 0 then p.clonedEntry blocks src i
        else (p.tableOf dir t, (p.directoryAt dir).physTabs t) := by
  obtain ⟨kernel, directories⟩ := cloneEntry_directory blocks p src dir i
  generalize p.cloneEntry blocks src dir i = p' at kernel directories ⊢
  generalize p.clonedEntry blocks src i = entry at directories ⊢
  have looks (other : Nat) : p'.directoryAt other = if p.tableOf src i = 0
      then p.directoryAt other else (p.setTable dir i entry.1 entry.2).directoryAt other := by
    unfold directoryAt
    rw [directories]
    split <;> rfl
  refine ⟨⟨kernel, fun other => ?_, fun other differ => ?_⟩, fun t => ?_⟩
  · rw [directories]
    split
    · rfl
    · exact mem_directory_setTable p dir i entry.1 entry.2
  · rw [looks]
    split
    · rfl
    · rw [directoryAt_setTable live, if_neg differ]
  · rw [tableOf, looks]
    by_cases none : p.tableOf src i = 0
    · rw [if_pos none, if_neg fun both => both.2 none]
    · rw [if_neg none, physTabs_setTable live]
      change ((p.setTable dir i entry.1 entry.2).tableOf dir t, _) = _
      rw [tableOf_setTable live]
      by_cases here : t = i
      · rw [if_pos ⟨rfl, here⟩, if_pos ⟨rfl, here⟩, if_pos ⟨here, none⟩]
      · rw [if_neg fun both => here both.2, if_neg fun both => here both.2,
          if_neg fun both => here both.1]

/-- Two changes of one directory. -/
theorem SameOthers.trans {p'' : Paging} (first : SameOthers directory p p')
    (second : SameOthers directory p' p'') : SameOthers directory p p'' where
  kernelDirectory := second.kernelDirectory.trans first.kernelDirectory
  mem other := (second.mem other).trans (first.mem other)
  directoryAt other differ :=
    (second.directoryAt other differ).trans (first.directoryAt other differ)

/-- One turn of `clone_directory` keeps the invariant. -/
theorem PagingInvariant.cloneEntry (invariant : p.PagingInvariant) (blocks : PageBlocks)
    (src : Nat) {dir i : Nat} (live : dir ∈ p.directory) (inside : i < tableEntries)
    (free : p.tableOf dir i = 0) : (p.cloneEntry blocks src dir i).PagingInvariant := by
  unfold Paging.cloneEntry
  split
  · exact invariant
  · rename_i some_table
    have there := invariant.linked.live src i some_table
    split
    · rename_i kernel
      have phys := (invariant.linked.present src i).mpr some_table
      have pointed : p.Referenced (p.tableOf src i) := fun table here =>
        .inr ((invariant.referenced table here).resolve_left fun null =>
          invariant.linked.null (null ▸ here))
      exact ⟨invariant.linked.setTable live inside free there phys (.inl kernel),
        pointed.setTable live free invariant.linked.null _,
        fun fed => (invariant.frames fed).same rfl rfl rfl⟩
    · obtain ⟨linked, referenced, allocated, nobody⟩ :=
        invariant.linked.newTable invariant.referenced blocks
      have frames := invariant.newTable blocks
      obtain ⟨q, cloned, same, owned⟩ := cloneTable_spec blocks p (p.tableOf src i)
      rw [cloned]
      have phys : blocks.phys (blocks.table.address p.table) ||| userFlags ≠ 0 := by
        rw [Ne, Nat.or_eq_zero_iff]
        exact fun both => blocks.phys_ne_zero _ both.1
      have live' : dir ∈ q.directory := same.directory ▸ live
      have free' : q.tableOf dir i = 0 := by
        rw [tableOf, same.directoryAt]
        exact free
      have nobody' (other index : Nat) : q.tableOf other index ≠ blocks.table.address p.table := by
        rw [tableOf, same.directoryAt]
        exact nobody other index
      have linked' := same.linked linked
      exact ⟨linked'.setTable live' inside free' ((same.table _).mpr allocated) phys (.inr nobody'),
        (same.referenced referenced).setTable live' free' linked'.null _,
        fun fed => (owned fed (frames (same.starved fed)) allocated).same rfl rfl rfl⟩

/-- The loop of `clone_directory` keeps the invariant, and shares with the kernel directory
what the source shares with it. -/
theorem PagingInvariant.cloneTables (invariant : p.PagingInvariant) (blocks : PageBlocks)
    {src dir bound : Nat} (live : dir ∈ p.directory) (apart : src ≠ dir)
    (user : p.kernelDirectory ≠ dir) (inside : bound ≤ tableEntries)
    (free : ∀ i < bound, p.tableOf dir i = 0) :
    (cloneTables blocks src dir bound p).PagingInvariant ∧
      SameOthers dir p (cloneTables blocks src dir bound p) ∧
      (∀ i, bound ≤ i → ((cloneTables blocks src dir bound p).tableOf dir i,
          ((cloneTables blocks src dir bound p).directoryAt dir).physTabs i) =
        (p.tableOf dir i, (p.directoryAt dir).physTabs i)) ∧
      ∀ i < bound, p.tableOf src i ≠ 0 → p.tableOf p.kernelDirectory i = p.tableOf src i →
        ((cloneTables blocks src dir bound p).tableOf dir i,
          ((cloneTables blocks src dir bound p).directoryAt dir).physTabs i) =
        (p.tableOf src i, (p.directoryAt src).physTabs i) := by
  induction bound generalizing p with
  | zero => exact ⟨invariant, ⟨rfl, fun _ => .rfl, fun _ _ => rfl⟩, fun _ _ => rfl,
      fun i below => absurd below (Nat.not_lt_zero i)⟩
  | succ i ih =>
    obtain ⟨others, entries⟩ := cloneEntry_others blocks src i live
    have invariant' := invariant.cloneEntry blocks src live (by omega) (free i (by omega))
    rw [Paging.cloneTables]
    generalize p.cloneEntry blocks src dir i = q at others entries invariant' ⊢
    have free' : ∀ t < i, q.tableOf dir t = 0 := by
      intro t below
      have entry := congrArg (·.1) (entries t)
      rw [if_neg fun both => (by omega : t ≠ i) both.1] at entry
      exact entry.trans (free t (by omega))
    obtain ⟨done, others', kept, shared⟩ := ih invariant' ((others.mem dir).mpr live)
      (by rwa [others.kernelDirectory]) (by omega) free'
    have source := others.directoryAt src apart
    have kernel := others.directoryAt p.kernelDirectory user
    refine ⟨done, others.trans others', fun t above => ?_, fun t below some_table together => ?_⟩
    · rw [kept t (by omega), entries, if_neg fun both => (by omega : t ≠ i) both.1]
    · by_cases here : t = i
      · subst here
        rw [kept t le_rfl, entries, if_pos ⟨rfl, some_table⟩, clonedEntry, if_pos together]
      · have shared' := shared t (by omega)
        rw [tableOf, tableOf, others.kernelDirectory, source, kernel] at shared'
        exact shared' some_table together

/-- Where the loop of `clone_directory` begins: the copy is an empty directory. -/
def opened (p : Paging) (blocks : PageBlocks) : Paging :=
  let dir := blocks.directory.address p.directory
  { p with directory := p.directory.insert dir { physPos := blocks.phys dir } }

/-- The directory for the copy was not there before. -/
theorem opened_fresh (p : Paging) (blocks : PageBlocks) :
    blocks.directory.address p.directory ∉ p.directory :=
  AList.lookup_eq_none.mp (blocks.directory.address_fresh p.directory)

/-- The empty copy is there besides the directories from before. -/
theorem mem_opened (p : Paging) (blocks : PageBlocks) (other : Nat) :
    other ∈ (p.opened blocks).directory ↔
      other = blocks.directory.address p.directory ∨ other ∈ p.directory :=
  AList.mem_insert _

/-- The other directories are as before. -/
theorem directoryAt_opened (p : Paging) (blocks : PageBlocks) {other : Nat}
    (apart : other ≠ blocks.directory.address p.directory) :
    (p.opened blocks).directoryAt other = p.directoryAt other := by
  rw [opened, directoryAt, Store.lookup_insert_eq, if_neg apart]
  rfl

/-- An empty directory has the same tables as one that is not there: none. -/
theorem tables_opened (p : Paging) (blocks : PageBlocks) (other index : Nat) :
    (p.opened blocks).tableOf other index = p.tableOf other index ∧
      ((p.opened blocks).directoryAt other).physTabs index =
        (p.directoryAt other).physTabs index := by
  by_cases same : other = blocks.directory.address p.directory
  · rw [same, tableOf, tableOf, directoryAt_of_dead (p.opened_fresh blocks), opened, directoryAt,
      Store.lookup_insert_eq, if_pos rfl]
    exact ⟨rfl, rfl⟩
  · rw [tableOf, directoryAt_opened p blocks same]
    exact ⟨rfl, rfl⟩

/-- The empty copy keeps the invariant. -/
theorem PagingInvariant.opened (invariant : p.PagingInvariant) (blocks : PageBlocks) :
    (p.opened blocks).PagingInvariant := by
  have tables := p.tables_opened blocks
  have before := invariant.linked
  have linked : (p.opened blocks).Linked := by
    refine ⟨(p.mem_opened blocks _).mpr (.inr before.kernel), before.null, fun other index => ?_,
      fun other index => ?_, fun other index => ?_, fun other other' index index' => ?_⟩
    · rw [(tables other index).1, (tables other index).2]
      exact before.present other index
    · rw [(tables other index).1]
      exact before.inside other index
    · rw [(tables other index).1]
      exact before.live other index
    · rw [(tables other index).1, (tables other' index').1, (tables _ index).1]
      exact before.shared other other' index index'
  refine ⟨linked, fun table there => (invariant.referenced table there).imp id ?_,
    fun fed => (invariant.frames fed).same rfl rfl rfl⟩
  rintro ⟨other, index, here⟩
  exact ⟨other, index, (tables other index).1.trans here⟩

/-- `clone_directory` keeps the invariant, and shares with the kernel directory what the
source shares with it. -/
theorem PagingInvariant.cloneDirectory (invariant : p.PagingInvariant) (blocks : PageBlocks)
    {src : Nat} (live : src ∈ p.directory) :
    let dir := (p.cloneDirectory blocks src).2
    (p.cloneDirectory blocks src).1.PagingInvariant ∧ dir ∉ p.directory ∧
      (p.cloneDirectory blocks src).1.kernelDirectory = p.kernelDirectory ∧
      (∀ other, other ∈ (p.cloneDirectory blocks src).1.directory ↔
        other = dir ∨ other ∈ p.directory) ∧
      (∀ other, other ≠ dir →
        (p.cloneDirectory blocks src).1.directoryAt other = p.directoryAt other) ∧
      ∀ i < tableEntries, p.tableOf src i ≠ 0 →
        p.tableOf p.kernelDirectory i = p.tableOf src i →
        ((p.cloneDirectory blocks src).1.tableOf dir i,
          ((p.cloneDirectory blocks src).1.directoryAt dir).physTabs i) =
        (p.tableOf src i, (p.directoryAt src).physTabs i) := by
  intro dir
  have fresh : dir ∉ p.directory := p.opened_fresh blocks
  have differ {other : Nat} (there : other ∈ p.directory) : other ≠ dir := by
    rintro rfl
    exact fresh there
  have tables := p.tables_opened blocks
  obtain ⟨done, others, _, shared⟩ := (invariant.opened blocks).cloneTables blocks
    ((p.mem_opened blocks dir).mpr (.inl rfl)) (differ live) (differ invariant.linked.kernel) le_rfl
    fun i _ => by rw [(tables dir i).1, tableOf, directoryAt_of_dead fresh]
  have cloned : p.cloneDirectory blocks src =
      (Paging.cloneTables blocks src dir tableEntries (p.opened blocks), dir) := rfl
  rw [cloned]
  generalize Paging.cloneTables blocks src dir tableEntries (p.opened blocks) = q
    at done others shared
  refine ⟨done, fresh, others.kernelDirectory,
    fun other => (others.mem other).trans (p.mem_opened blocks other),
    fun other apart => (others.directoryAt other apart).trans (directoryAt_opened p blocks apart),
    fun i below some_table together => ?_⟩
  refine (shared i below ?_ ?_).trans ?_
  · rw [(tables src i).1]
    exact some_table
  · change (p.opened blocks).tableOf p.kernelDirectory i = _
    rw [(tables src i).1, (tables _ i).1]
    exact together
  · rw [(tables src i).1, (tables src i).2]

/-! ## Free -/

/-- `free_table` on the directories and tables. -/
theorem freeTable_tables (p : Paging) (table : Nat) :
    (p.freeTable table).directory = p.directory ∧
      (p.freeTable table).kernelDirectory = p.kernelDirectory ∧
      (p.freeTable table).starved = p.starved ∧
      ∀ other, other ∈ (p.freeTable table).table ↔ other ≠ table ∧ other ∈ p.table := by
  have cleared := clearEntries_frame table tableEntries p
  unfold freeTable
  generalize clearEntries table tableEntries p = q at cleared ⊢
  obtain ⟨framemap, rfl⟩ := cleared
  exact ⟨rfl, rfl, rfl, fun other => AList.mem_erase⟩

/-- The entry of the directory is a table of its own. -/
def Own (p : Paging) (dir i table : Nat) : Prop :=
  p.tableOf dir i = table ∧ table ≠ 0 ∧ p.tableOf p.kernelDirectory i ≠ table

/-- The loop of `free_directory` frees the directory's own tables. -/
theorem freeTables_tables (dir bound : Nat) (p : Paging) :
    (freeTables dir bound p).directory = p.directory ∧
      (freeTables dir bound p).kernelDirectory = p.kernelDirectory ∧
      (freeTables dir bound p).starved = p.starved ∧
      (p.Frames → (freeTables dir bound p).Frames) ∧
      ∀ table, table ∈ (freeTables dir bound p).table ↔
        table ∈ p.table ∧ ∀ i < bound, ¬p.Own dir i table := by
  induction bound generalizing p with
  | zero => exact ⟨rfl, rfl, rfl, id, fun table => by simp [freeTables]⟩
  | succ i ih =>
    rw [freeTables]
    obtain ⟨directory, kernel, starved, frames, tables⟩ := ih (p.freeEntry dir i)
    have turn : (p.freeEntry dir i).directory = p.directory ∧
        (p.freeEntry dir i).kernelDirectory = p.kernelDirectory ∧
        (p.freeEntry dir i).starved = p.starved ∧ (p.Frames → (p.freeEntry dir i).Frames) ∧
        ∀ table, table ∈ (p.freeEntry dir i).table ↔ table ∈ p.table ∧ ¬p.Own dir i table := by
      unfold freeEntry
      split
      · rename_i none
        refine ⟨rfl, rfl, rfl, id, fun table => ⟨fun there => ⟨there, fun own => ?_⟩, And.left⟩⟩
        exact own.2.1 (own.1.symm.trans none)
      · rename_i some_table
        split
        · rename_i apart
          obtain ⟨directory, kernel, starved, freed⟩ := freeTable_tables p (p.tableOf dir i)
          refine ⟨directory, kernel, starved, fun frames => frames.freeTable _, fun table => ?_⟩
          rw [freed, and_comm]
          refine and_congr Iff.rfl ⟨fun differ own => differ own.1.symm, fun shared same => ?_⟩
          exact shared ⟨same.symm, same ▸ some_table, same ▸ apart⟩
        · rename_i kernel
          refine ⟨rfl, rfl, rfl, id, fun table => ⟨fun there => ⟨there, fun own => ?_⟩, And.left⟩⟩
          exact own.2.2 ((not_not.mp kernel).trans own.1)
    obtain ⟨directory', kernel', starved', frames', tables'⟩ := turn
    have looks (other : Nat) : (p.freeEntry dir i).directoryAt other = p.directoryAt other := by
      unfold directoryAt
      rw [directory']
    have own (t table : Nat) : (p.freeEntry dir i).Own dir t table ↔ p.Own dir t table := by
      simp only [Own, tableOf, kernel', looks]
    refine ⟨directory.trans directory', kernel.trans kernel', starved.trans starved',
      frames ∘ frames', fun table => ?_⟩
    rw [tables, tables']
    simp only [own, Nat.forall_lt_succ_right]
    tauto

/-- A directory goes whose own tables are gone. -/
theorem PagingInvariant.eraseDirectory (invariant : p.PagingInvariant) {q : Paging} {dir : Nat}
    (user : dir ≠ p.kernelDirectory) (directories : q.directory = p.directory)
    (kernel : q.kernelDirectory = p.kernelDirectory) (starved : q.starved = p.starved)
    (frames : p.Frames → q.Frames)
    (freed : ∀ table, table ∈ q.table ↔
      table ∈ p.table ∧ ∀ i < tableEntries, ¬p.Own dir i table) :
    PagingInvariant { q with directory := q.directory.erase dir } := by
  have linked := invariant.linked
  set left := ({ q with directory := q.directory.erase dir } : Paging)
  have leftKernel : left.kernelDirectory = p.kernelDirectory := kernel
  have looks (other : Nat) :
      left.directoryAt other = if other = dir then {} else p.directoryAt other := by
    simp only [left, directoryAt, directories, Store.lookup_erase_eq]
    split <;> rfl
  have tables (other index : Nat) :
      left.tableOf other index = if other = dir then 0 else p.tableOf other index := by
    rw [tableOf, looks]
    split <;> rfl
  have remains {other index : Nat} (differ : other ≠ dir) (some_table : p.tableOf other index ≠ 0) :
      p.tableOf other index ∈ left.table := by
    refine (freed _).mpr ⟨linked.live other index some_table, fun i _ own => ?_⟩
    obtain ⟨at_index, together⟩ := linked.shared dir other i index (own.1 ▸ some_table) own.1
    rcases together with same | shared
    · exact differ same.symm
    · exact own.2.2 (shared.trans own.1)
  refine ⟨⟨?_, fun there => linked.null ((freed 0).mp there).1, fun other index => ?_,
    fun other index some_table => ?_, fun other index some_table => ?_,
    fun other other' index index' some_table same => ?_⟩, fun table there => ?_,
    fun fed => ((frames (invariant.frames ?_)).same rfl rfl rfl)⟩
  · rw [leftKernel]
    change p.kernelDirectory ∈ q.directory.erase dir
    rw [AList.mem_erase, directories]
    exact ⟨Ne.symm user, linked.kernel⟩
  · rw [tables, looks]
    split
    · exact Iff.rfl
    · exact linked.present other index
  · rw [tables] at some_table
    split at some_table
    · exact absurd rfl some_table
    · exact linked.inside other index some_table
  · rw [tables] at some_table ⊢
    split at some_table
    · exact absurd rfl some_table
    · rename_i differ
      rw [if_neg differ]
      exact remains differ some_table
  · rw [tables] at some_table
    rw [tables, tables] at same
    split at some_table
    · exact absurd rfl some_table
    · rename_i differ
      rw [if_neg differ] at same
      split at same
      · exact absurd same some_table
      · obtain ⟨at_index, together⟩ := linked.shared other other' index index' some_table same
        refine ⟨at_index, together.imp id fun shared => ?_⟩
        rw [leftKernel, tables, tables, if_neg (Ne.symm user), if_neg differ, shared]
  · right
    obtain ⟨before, unfreed⟩ := (freed table).mp there
    obtain ⟨other, index, here⟩ := (invariant.referenced table before).resolve_left
      fun null => linked.null (null ▸ before)
    have nonnull : table ≠ 0 := fun null => linked.null (null ▸ before)
    by_cases same : other = dir
    · subst same
      have below := linked.inside other index (here ▸ nonnull)
      have shared : p.tableOf p.kernelDirectory index = table := by
        by_contra apart
        exact unfreed index below ⟨here, nonnull, apart⟩
      exact ⟨p.kernelDirectory, index, by rw [tables, if_neg (Ne.symm user), shared]⟩
    · exact ⟨other, index, by rw [tables, if_neg same, here]⟩
  · exact starved.symm.trans fed

/-- `free_directory` of a directory other than the kernel's keeps the invariant. -/
theorem PagingInvariant.freeDirectory (invariant : p.PagingInvariant) {dir : Nat}
    (user : dir ≠ p.kernelDirectory) : (p.freeDirectory dir).PagingInvariant := by
  obtain ⟨directories, kernel, starved, frames, freed⟩ := freeTables_tables dir tableEntries p
  exact invariant.eraseDirectory user directories kernel starved frames freed

end Paging

/-! ## Runs -/

/-- A call on the page tables. -/
inductive PagingCall where
  | makePage (address flags directory : Nat) (alloc : Bool)
  | freePage (address directory : Nat)
  | cloneDirectory (src : Nat)
  | freeDirectory (dir : Nat)

/-- The steps: a call is given directories that are there, and `free_directory` not the one of
the kernel. -/
inductive PagingStep : Paging → PagingCall → Paging → Prop
  | makePage {p : Paging} {address directory : Nat} (blocks : PageBlocks)
      (inRange : address < uintWidth) (flags : Nat) (live : directory ∈ p.directory)
      (alloc : Bool) : PagingStep p (.makePage address flags directory alloc)
        (p.makePage blocks address flags directory alloc).1
  | freePage {p : Paging} {address directory : Nat} (inRange : address < uintWidth)
      (live : directory ∈ p.directory) :
      PagingStep p (.freePage address directory) (p.freePage address directory).1
  | cloneDirectory {p : Paging} {src : Nat} (blocks : PageBlocks) (live : src ∈ p.directory) :
      PagingStep p (.cloneDirectory src) (p.cloneDirectory blocks src).1
  | freeDirectory {p : Paging} {dir : Nat} (live : dir ∈ p.directory)
      (user : dir ≠ p.kernelDirectory) :
      PagingStep p (.freeDirectory dir) (p.freeDirectory dir)

/-- An empty frame map for so much memory, and an empty kernel directory. -/
def Paging.empty (memoryEnd kernelDirectory : Nat) : Paging where
  framecount := memoryEnd / frameSize
  kernelDirectory
  directory := AList.insert kernelDirectory { physPos := kernelDirectory } ∅

/-- Runs from an empty frame map of which page 0 of the kernel directory has been given the
first frame. -/
def pagingSystem : TransitionSystem Paging PagingCall where
  initial p := ∃ memoryEnd < uintWidth, ∃ kernelDirectory blocks flags, ∃ address < frameSize,
    p = ((Paging.empty memoryEnd kernelDirectory).makePage blocks address flags
      kernelDirectory true).1
  step := PagingStep

namespace Paging

variable {p : Paging}

/-- The empty kernel directory is linked: there are no tables. -/
theorem empty_linked (memoryEnd kernelDirectory : Nat) :
    (empty memoryEnd kernelDirectory).Linked := by
  have entries (directory index : Nat) :
      (empty memoryEnd kernelDirectory).tableOf directory index = 0 ∧
        ((empty memoryEnd kernelDirectory).directoryAt directory).physTabs index = 0 := by
    simp only [empty, tableOf, directoryAt, Store.lookup_insert_eq]
    split <;> exact ⟨rfl, rfl⟩
  have none (directory index : Nat) := (entries directory index).1
  refine ⟨(AList.mem_insert _).mpr (.inl rfl), AList.notMem_empty 0, fun directory index => ?_,
    fun directory index some_table => absurd (none directory index) some_table,
    fun directory index some_table => absurd (none directory index) some_table,
    fun directory other index index' some_table => absurd (none directory index) some_table⟩
  rw [none, (entries directory index).2]

/-- `first_frame` of an empty frame map is frame 0, if there is any. -/
theorem firstFrame_of_clear (clear : ∀ word, p.framemap word = 0#32) :
    p.firstFrame = noFrame ∨ p.firstFrame = 0 := by
  unfold firstFrame
  simp only [clear]
  cases p.framecount / 32 with
  | zero => exact .inl rfl
  | succ words =>
    right
    have first : (List.range 32).find? (fun j => 0#32 &&& (1#32 <<< j) = 0#32) = some 0 := by
      decide
    rw [first, List.range_succ_eq_map, List.findSome?_cons]
    rfl

/-- The first allocation gives away frame 0, which stays marked and is recorded nowhere. -/
theorem Frames.first (clear : ∀ word, p.framemap word = 0#32)
    (unmapped : ∀ page, (p.pageAt page).frame = 0) (live : page.1 ∈ p.table)
    (small : p.framecount < frameNumbers) {flags : Nat}
    (fed : (p.allocFrame page flags).starved = false) : (p.allocFrame page flags).Frames := by
  unfold Paging.allocFrame at fed ⊢
  dsimp only at fed ⊢
  rw [if_neg (not_not.mpr (unmapped page))] at fed ⊢
  have zero : p.firstFrame = 0 := by
    refine (firstFrame_of_clear clear).resolve_left fun none => ?_
    simp [setFrame, setPage, none] at fed
  rw [zero]
  set tried := ({ p with starved := p.starved || 0 == noFrame } : Paging)
  set content : Page := { flags := flags % pageFlags, frame := 0 % frameNumbers }
  have nothing (other : PagePointer) :
      ((tried.setPage page content).setFrame 0).holds other = none := by
    refine holds_eq_none.mpr ?_
    have entry : ((tried.setPage page content).setFrame 0).pageAt other =
        if other = page then content else p.pageAt other :=
      pageAt_setPage (p := tried) live content other
    rw [entry]
    split
    · rfl
    · exact unmapped other
  have unmarked (frame : Nat) : ¬(tried.setPage page content).marked frame := by
    change ¬(p.framemap (frame / 32)).getLsbD (frame % 32) = true
    rw [clear]
    simp
  refine ⟨⟨fun one other frame here => ?_, fun frame => ?_, fun one frame here => ?_⟩,
    fun one frame here => ?_, fun one frame here => ?_, small⟩
  · exact absurd (nothing one ▸ here) (by simp)
  · rw [setFrame_marked, or_iff_left (unmarked frame)]
    refine (or_iff_left ?_).symm
    rintro ⟨one, here⟩
    exact absurd (nothing one ▸ here) (by simp)
  all_goals exact absurd (nothing one ▸ here) (by simp)

/-- A run starts with the invariant. -/
theorem PagingInvariant.start (initial : pagingSystem.initial p) : p.PagingInvariant := by
  obtain ⟨memoryEnd, inRange, kernelDirectory, blocks, flags, address, inside, rfl⟩ := initial
  have linked := empty_linked memoryEnd kernelDirectory
  have live : kernelDirectory ∈ (empty memoryEnd kernelDirectory).directory := linked.kernel
  have first_table : address / frameSize / tableEntries = 0 := by
    rw [Nat.div_eq_of_lt inside, Nat.zero_div]
  have tables : (empty memoryEnd kernelDirectory).Referenced 0 := fun table there =>
    absurd there (AList.notMem_empty table)
  have free : (empty memoryEnd kernelDirectory).tableOf kernelDirectory 0 = 0 := by
    by_contra some_table
    exact AList.notMem_empty _ (linked.live kernelDirectory 0 some_table)
  have absent : ((empty memoryEnd kernelDirectory).directoryAt kernelDirectory).physTabs 0 = 0 := by
    by_contra present
    exact (linked.present kernelDirectory 0).mp present free
  obtain ⟨made, referenced, some_table⟩ :=
    linked.makeTable tables blocks live (by decide) free flags
  unfold Paging.makePage
  dsimp only
  rw [first_table, if_pos absent, if_pos rfl]
  set page : PagePointer := (((empty memoryEnd kernelDirectory).makeTable blocks 0 flags
    kernelDirectory).tableOf kernelDirectory 0, address / frameSize % tableEntries)
  have same := allocFrame_tables
    ((empty memoryEnd kernelDirectory).makeTable blocks 0 flags kernelDirectory) page flags
  have unmapped (other : PagePointer) :
      (((empty memoryEnd kernelDirectory).makeTable blocks 0 flags
        kernelDirectory).pageAt other).frame = 0 := by
    have entry := pageAt_newTable (p := empty memoryEnd kernelDirectory)
      (blocks.table.address_fresh _) other
    exact congrArg Page.frame (entry.trans (pageAt_of_dead (AList.notMem_empty other.1)))
  refine ⟨same.linked made, same.referenced referenced, fun fed => Frames.first (fun _ => rfl)
    unmapped (made.live kernelDirectory 0 some_table) ?_ fed⟩
  change memoryEnd / frameSize < frameNumbers
  rw [frameSize, frameNumbers]
  rw [uintWidth] at inRange
  omega

/-- Every call keeps the invariant. -/
theorem PagingInvariant.step {p' : Paging} {call : PagingCall} (invariant : p.PagingInvariant)
    (step : PagingStep p call p') : p'.PagingInvariant := by
  cases step with
  | makePage blocks inRange flags live alloc =>
    exact invariant.makePage blocks inRange flags live alloc
  | freePage _ _ => exact invariant.freePage _ _
  | cloneDirectory blocks live => exact (invariant.cloneDirectory blocks live).1
  | freeDirectory _ user => exact invariant.freeDirectory user

/-- Every state reached has the invariant. -/
theorem PagingInvariant.of_reachable (reached : pagingSystem.Reachable p) : p.PagingInvariant :=
  reached.invariant (fun _ initial => .start initial)
    fun _ _ _ invariant _ step => invariant.step step

/-- The page is an entry of a table that some directory points to and records a frame, not
number 0. -/
structure Recorded (p : Paging) (page : PagePointer) (frame : Nat) : Prop where
  pointed : ∃ directory ∈ p.directory, ∃ index < tableEntries, p.tableOf directory index = page.1
  nonnull : page.1 ≠ 0
  entry : page.2 < tableEntries
  records : (p.pageAt page).frame = frame
  mapped : frame ≠ 0

/-- The frames recorded are those held: a table holding a frame is pointed to. -/
theorem PagingInvariant.recorded_iff (invariant : p.PagingInvariant) (fed : p.starved = false)
    (page : PagePointer) (frame : Nat) : p.Recorded page frame ↔ p.holds page = some frame := by
  constructor
  · intro recorded
    exact holds_eq_some.mpr ⟨recorded.mapped, recorded.records⟩
  · intro held
    obtain ⟨mapped, here⟩ := holds_eq_some.mp held
    have linked := invariant.linked
    have there : page.1 ∈ p.table := by
      by_contra dead
      rw [pageAt_of_dead dead] at here
      exact mapped here.symm
    have nonnull : page.1 ≠ 0 := fun null => linked.null (null ▸ there)
    obtain ⟨directory, index, pointed⟩ := (invariant.referenced page.1 there).resolve_left nonnull
    have some_table : p.tableOf directory index ≠ 0 := pointed ▸ nonnull
    have live : directory ∈ p.directory := by
      by_contra dead
      rw [tableOf, directoryAt_of_dead dead] at some_table
      exact some_table rfl
    exact ⟨⟨directory, live, index, linked.inside directory index some_table, pointed⟩, nonnull,
      (invariant.frames fed).inside page frame held, here, mapped⟩

end Paging

/-- Frames are owned: while every allocation has found a free frame, the frames that the
tables in use record are distinct and exist, and the frame map marks them and frame 0 only. -/
theorem frame_ownership {p : Paging} (reached : pagingSystem.Reachable p)
    (fed : p.starved = false) :
    (∀ page other frame, p.Recorded page frame → p.Recorded other frame → page = other) ∧
      (∀ page frame, p.Recorded page frame → frame < p.framecount) ∧
      ∀ frame, p.marked frame ↔ frame = 0 ∨ ∃ page, p.Recorded page frame := by
  have invariant := Paging.PagingInvariant.of_reachable reached
  have frames := invariant.frames fed
  have recorded := invariant.recorded_iff fed
  refine ⟨fun page other frame here there => ?_, fun page frame here => ?_, fun frame => ?_⟩
  · exact frames.owned.distinct page other frame ((recorded page frame).mp here)
      ((recorded other frame).mp there)
  · exact frames.bounded page frame ((recorded page frame).mp here)
  · rw [frames.owned.used_iff]
    exact or_congr Iff.rfl (exists_congr fun page => (recorded page frame).symm)

namespace FirstPages

/-- Blocks above all that are in use. -/
def blocks : PageBlocks where
  table := Allocator.above PageTable
  directory := Allocator.above PageDirectory
  phys address := address + 1
  phys_ne_zero := Nat.succ_ne_zero

/-- 16 MB of memory, of which the first page is mapped. -/
def booted : Paging := ((Paging.empty 0x1000000 1).makePage blocks 0 1 1 true).1

/-- One more page is mapped. -/
def mapped : Paging := (booted.makePage blocks frameSize 1 1 true).1

end FirstPages

open FirstPages in
/-- The ownership after two pages are mapped: frame 1, which is marked, is recorded. -/
theorem frame_ownership_mapped : ∃ page, mapped.Recorded page 1 := by
  have start : pagingSystem.initial booted :=
    ⟨0x1000000, by decide, 1, blocks, 1, 0, by decide, rfl⟩
  have live : 1 ∈ booted.directory := by decide
  have step : PagingStep booted (.makePage frameSize 1 1 true) mapped :=
    .makePage blocks (by decide) 1 live true
  have reached : pagingSystem.Reachable mapped :=
    (TransitionSystem.ReachableUnder.start start).next trivial step
  have fed : mapped.starved = false := by decide
  have marked : mapped.marked 1 := by
    change (mapped.framemap 0).getLsbD 1 = true
    decide
  exact (((frame_ownership reached fed).2.2 1).mp marked).resolve_left (by decide)

end Nupkux
