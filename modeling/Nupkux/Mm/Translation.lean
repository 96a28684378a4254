import Nupkux.Mm.FrameExhaustion
import Nupkux.Lib.Words
import Mathlib.Data.List.Find

/-!
# Memory behind page tables

What the processor reads and writes at a linear address: the byte of the frame that the current
directory gives its page. An address without a present page, or with one whose frame number is
not a frame of memory, has no byte, and an access there does not return. Kernel code may write to
every page that is present.

`make_page` gives a page the lowest free frame, whose old bytes show up in the page.
-/

namespace Nupkux

/-- `PAGE_FLAG_PRESENT`. -/
def pageFlagPresent : Nat := 1

namespace Paging

/-- The entry of the page with a number. -/
abbrev entryOf (p : Paging) (directory number : Nat) : PagePointer :=
  (p.tableOf directory (number / tableEntries), number % tableEntries)

/-- The page with a number. -/
def pageNo (p : Paging) (directory number : Nat) : Page := p.pageAt (p.entryOf directory number)

/-- The physical address behind a linear one, if there is memory. -/
def translate (p : Paging) (directory a : Nat) : Option Nat :=
  let number := a / frameSize
  if (p.directoryAt directory).physTabs (number / tableEntries) = 0 then none
  else
    let page := p.pageNo directory number
    if page.flags &&& pageFlagPresent ≠ 0 ∧ page.frame < p.framecount then
      some (page.frame * frameSize + a % frameSize)
    else none

/-- The frames that `first_frame` looks at and finds free, the lowest first. -/
def freeFrames (p : Paging) : List Nat :=
  (List.range (p.framecount / 32 * 32)).filter fun frame =>
    !(p.framemap (frame / 32)).getLsbD (frame % 32)

variable {p q : Paging} {directory number other a frame flags : Nat} {page : PagePointer}

/-! ## Free frames -/

/-- A free frame. -/
theorem mem_freeFrames : frame ∈ p.freeFrames ↔ frame < p.framecount / 32 * 32 ∧ ¬p.marked frame := by
  rw [freeFrames, List.mem_filter, List.mem_range, marked, Bool.not_eq_true', Bool.not_eq_true]

/-- The two loops of `first_frame` look at all frames in turn. -/
theorem findSome_words (free : Nat → Bool) (words : Nat) :
    ((List.range words).findSome? fun i =>
        ((List.range 32).find? fun j => free (i * 32 + j)).map fun j => i * 32 + j) =
      (List.range (words * 32)).find? free := by
  induction words with
  | zero => rfl
  | succ words ih =>
    have split : (words + 1) * 32 = words * 32 + 32 := by omega
    have last : List.range (words + 1) = List.range words ++ [words] := List.range_succ
    rw [last, List.findSome?_append, ih, split, List.range_add, List.find?_append, List.find?_map]
    simp only [List.findSome?_cons, List.findSome?_nil]
    have inner : (free ∘ fun j => words * 32 + j) = fun j => free (words * 32 + j) := rfl
    rw [inner]
    congr 1
    cases (List.range 32).find? fun j => free (words * 32 + j) with
    | none => rfl
    | some j => rfl

/-- `first_frame` returns the lowest free frame. -/
theorem firstFrame_eq (p : Paging) : p.firstFrame = p.freeFrames.head?.getD noFrame := by
  have turn : (fun i => if p.framemap i = 0xFFFFFFFF#32 then none
      else ((List.range 32).find? fun j => p.framemap i &&& (1#32 <<< j) = 0#32).map
        fun j => i * 32 + j) =
      fun i => ((List.range 32).find? fun j =>
        !(p.framemap ((i * 32 + j) / 32)).getLsbD ((i * 32 + j) % 32)).map fun j => i * 32 + j := by
    funext i
    have same : ((List.range 32).find? fun j => p.framemap i &&& (1#32 <<< j) = 0#32) =
        (List.range 32).find? fun j =>
          !(p.framemap ((i * 32 + j) / 32)).getLsbD ((i * 32 + j) % 32) := by
      refine List.find?_congr fun j member => ?_
      have inside := List.mem_range.mp member
      have quotient : (i * 32 + j) / 32 = i := by omega
      have remainder : (i * 32 + j) % 32 = j := by omega
      rw [Bool.eq_iff_iff, decide_eq_true_eq, and_shiftLeft_eq_zero _ inside, quotient, remainder,
        Bool.not_eq_true']
    rw [← same]
    split
    · rename_i full
      -- a word without a clear bit is skipped
      have none : ((List.range 32).find? fun j => 4294967295#32 &&& 1#32 <<< j = 0#32) = none := by
        decide
      rw [full, none]
      rfl
    · rfl
  rw [freeFrames, List.head?_filter, ← findSome_words, firstFrame, turn]

/-- Which frame is first depends on the frame map. -/
theorem firstFrame_congr (count : q.framecount = p.framecount) (framemap : q.framemap = p.framemap) :
    q.firstFrame = p.firstFrame := by
  unfold firstFrame
  rw [count, framemap]

/-- An allocation marks the frame it gives. -/
theorem marked_allocFrame (unmapped : (p.pageAt page).frame = 0) (flags frame : Nat) :
    (p.allocFrame page flags).marked frame ↔ frame = p.firstFrame ∨ p.marked frame := by
  unfold allocFrame
  dsimp only
  rw [if_neg (not_not.mpr unmapped), setFrame_marked]
  rfl

/-- No frame is added or lost. -/
theorem framecount_allocPage (p : Paging) (page : PagePointer) (flags : Nat) :
    (p.allocFrame page flags).framecount = p.framecount := by
  unfold allocFrame
  dsimp only
  split
  · rfl
  · rfl

/-- An allocation takes the first of the free frames. -/
theorem freeFrames_allocFrame (unmapped : (p.pageAt page).frame = 0) (flags : Nat) :
    (p.allocFrame page flags).freeFrames = p.freeFrames.tail := by
  have kept : (p.allocFrame page flags).freeFrames =
      p.freeFrames.filter fun frame => frame ≠ p.firstFrame := by
    rw [freeFrames, framecount_allocPage, freeFrames, List.filter_filter]
    refine List.filter_congr fun frame _ => ?_
    have marks := marked_allocFrame unmapped flags frame
    unfold marked at marks
    rw [Bool.eq_iff_iff, Bool.not_eq_true', Bool.eq_false_iff, Ne, marks, Bool.and_eq_true,
      decide_eq_true_eq, Bool.not_eq_true', Bool.eq_false_iff, not_or]
  have nodup : p.freeFrames.Nodup := List.nodup_range.filter _
  rw [kept, firstFrame_eq]
  cases list : p.freeFrames with
  | nil => rfl
  | cons first rest =>
    rw [list] at nodup
    have others : ∀ frame ∈ rest, frame ≠ first :=
      fun frame member same => (List.nodup_cons.mp nodup).1 (same ▸ member)
    simp only [List.head?_cons, Option.getD_some, List.tail_cons, ne_eq]
    rw [List.filter_cons_of_neg (by simp)]
    exact List.filter_eq_self.mpr fun frame member => decide_eq_true (others frame member)

/-! ## Pages -/

/-- Without a table there is no page. -/
theorem pageNo_of_absent (linked : p.Linked)
    (absent : p.tableOf directory (number / tableEntries) = 0) : p.pageNo directory number = {} := by
  apply pageAt_of_dead
  change p.tableOf directory (number / tableEntries) ∉ p.table
  rw [absent]
  exact linked.null

/-- What is behind an address depends on its page. -/
theorem translate_eq (linked : p.Linked) (directory a : Nat) :
    p.translate directory a =
      if (p.pageNo directory (a / frameSize)).flags &&& pageFlagPresent ≠ 0 ∧
          (p.pageNo directory (a / frameSize)).frame < p.framecount then
        some ((p.pageNo directory (a / frameSize)).frame * frameSize + a % frameSize)
      else none := by
  unfold translate
  dsimp only
  by_cases absent : (p.directoryAt directory).physTabs (a / frameSize / tableEntries) = 0
  · have none : p.pageNo directory (a / frameSize) = {} := by
      refine pageNo_of_absent linked ?_
      by_contra there
      exact (linked.present _ _).mpr there absent
    rw [if_pos absent, none, if_neg]
    rintro ⟨present, _⟩
    exact present (Nat.zero_and _)
  · rw [if_neg absent]

/-- Two pages of a directory have different entries. -/
theorem entryOf_inj (linked : p.Linked)
    (there : p.tableOf directory (number / tableEntries) ≠ 0)
    (same : p.entryOf directory number = p.entryOf directory other) : number = other := by
  have tables := (linked.shared directory directory _ _ there (congrArg Prod.fst same)).1
  have entries := congrArg Prod.snd same
  dsimp only [entryOf] at entries
  simp only [tableEntries] at *
  omega

/-- `make_page` allocates a frame for the entry of the page, once there is a table. -/
theorem exists_makePage (invariant : p.PagingInvariant) (blocks : PageBlocks)
    (inRange : a < uintWidth) (flags : Nat) (live : directory ∈ p.directory) :
    ∃ q : Paging, q.Linked ∧ q.tableOf directory (a / frameSize / tableEntries) ≠ 0 ∧
      (∀ number, q.pageNo directory number = p.pageNo directory number) ∧
      q.framemap = p.framemap ∧ q.framecount = p.framecount ∧
      (p.makePage blocks a flags directory true).1 =
        q.allocFrame (q.entryOf directory (a / frameSize)) flags := by
  have linked := invariant.linked
  have tab : a / frameSize / tableEntries < tableEntries := by
    simp only [frameSize, tableEntries, uintWidth] at *
    omega
  unfold makePage
  dsimp only
  by_cases absent : (p.directoryAt directory).physTabs (a / frameSize / tableEntries) = 0
  · have free : p.tableOf directory (a / frameSize / tableEntries) = 0 := by
      by_contra there
      exact (linked.present directory _).mpr there absent
    have made := linked.makeTable invariant.referenced blocks live tab free flags
    rw [if_pos absent, if_pos rfl]
    refine ⟨p.makeTable blocks (a / frameSize / tableEntries) flags directory, made.1, made.2.2,
      fun number => ?_, rfl, rfl, rfl⟩
    have fresh := blocks.table.address_fresh p.table
    have pages (page : PagePointer) :
        (p.makeTable blocks (a / frameSize / tableEntries) flags directory).pageAt page =
          p.pageAt page := pageAt_newTable fresh page
    have tables := @tableOf_setTable (p.newTable (blocks.table.address p.table)) directory live
      (a / frameSize / tableEntries) (blocks.table.address p.table)
      (blocks.phys (blocks.table.address p.table) ||| flags) directory (number / tableEntries)
    by_cases here : number / tableEntries = a / frameSize / tableEntries
    · rw [if_pos ⟨rfl, here⟩] at tables
      rw [pageNo_of_absent linked (here ▸ free), pageNo, pages]
      apply pageAt_of_dead
      change (p.makeTable blocks _ flags directory).tableOf directory _ ∉ p.table
      rw [makeTable, tables]
      exact AList.lookup_eq_none.mp fresh
    · rw [if_neg fun both => here both.2] at tables
      rw [pageNo, pages, entryOf, makeTable, tables]
      rfl
  · rw [if_neg absent, if_pos rfl]
    exact ⟨p, linked, (linked.present directory _).mp absent, fun _ => rfl, rfl, rfl, rfl⟩

/-- What `make_page` does to the pages, and to the frames that are free. -/
structure PageMade (directory target flags : Nat) (p p' : Paging) : Prop where
  /-- A page without a frame is given the first free one; other pages are kept. -/
  pages : ∀ number, p'.pageNo directory number =
    if number = target ∧ (p.pageNo directory number).frame = 0 then
      { flags := flags % pageFlags, frame := p.firstFrame % frameNumbers }
    else p.pageNo directory number
  marks : ∀ frame, p'.marked frame ↔
    (p.pageNo directory target).frame = 0 ∧ frame = p.firstFrame ∨ p.marked frame
  free : p'.freeFrames =
    if (p.pageNo directory target).frame = 0 then p.freeFrames.tail else p.freeFrames
  framecount : p'.framecount = p.framecount

/-- `make_page` gives the page a frame, if it has none. -/
theorem makePage_made (invariant : p.PagingInvariant) (blocks : PageBlocks)
    (inRange : a < uintWidth) (flags : Nat) (live : directory ∈ p.directory) :
    PageMade directory (a / frameSize) flags p (p.makePage blocks a flags directory true).1 := by
  obtain ⟨q, linked, there, pages, framemap, count, made⟩ :=
    exists_makePage invariant blocks inRange flags live
  rw [made]
  have first := firstFrame_congr count framemap
  have marks (frame : Nat) : q.marked frame ↔ p.marked frame := by rw [marked, marked, framemap]
  have free : q.freeFrames = p.freeFrames := by rw [freeFrames, freeFrames, count, framemap]
  have here : q.pageAt (q.entryOf directory (a / frameSize)) =
      p.pageNo directory (a / frameSize) := pages _
  by_cases unmapped : (p.pageNo directory (a / frameSize)).frame = 0
  · have empty : (q.pageAt (q.entryOf directory (a / frameSize))).frame = 0 := by
      rw [here]
      exact unmapped
    have table : (q.entryOf directory (a / frameSize)).1 ∈ q.table := linked.live _ _ there
    have entries := pageAt_allocFrame empty table flags
    have tables := allocFrame_tables q (q.entryOf directory (a / frameSize)) flags
    refine ⟨fun number => ?_, fun frame => ?_, ?_, ?_⟩
    · have entry : (q.allocFrame (q.entryOf directory (a / frameSize)) flags).entryOf directory
          number = q.entryOf directory number := by
        rw [entryOf, tableOf, tables.directoryAt]
      rw [pageNo, entry, entries, first]
      by_cases same : number = a / frameSize
      · rw [if_pos (congrArg _ same), if_pos ⟨same, same ▸ unmapped⟩]
      · have differ : q.entryOf directory number ≠ q.entryOf directory (a / frameSize) :=
          fun equal => same (entryOf_inj linked there equal.symm).symm
        rw [if_neg differ, if_neg fun both => same both.1]
        exact pages number
    · rw [marked_allocFrame empty, first, marks]
      simp only [unmapped, true_and]
    · rw [freeFrames_allocFrame empty, if_pos unmapped, free]
    · rw [framecount_allocPage, count]
  · have kept : q.allocFrame (q.entryOf directory (a / frameSize)) flags = q :=
      allocFrame_of_mapped (by rwa [here]) flags
    rw [kept]
    refine ⟨fun number => ?_, fun frame => ?_, ?_, count⟩
    · rw [pages, if_neg]
      rintro ⟨rfl, zero⟩
      exact unmapped zero
    · rw [marks]
      simp only [unmapped, false_and, false_or]
    · rw [if_neg unmapped, free]

/-- `make_page` keeps which directories there are. -/
theorem mem_directory_makePage (p : Paging) (blocks : PageBlocks) (a flags directory : Nat)
    {other : Nat} :
    other ∈ (p.makePage blocks a flags directory true).1.directory ↔ other ∈ p.directory := by
  unfold makePage
  dsimp only
  rw [if_pos rfl, (allocFrame_tables _ _ flags).directory]
  split
  · exact mem_directory_setTable _ directory _ _ _
  · exact Iff.rfl

end Paging

end Nupkux
