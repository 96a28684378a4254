import Nupkux.Mm.Placement

/-!
# The kernel's mappings at boot

The page tables that `setup_paging` needs follow each other from the first one on, and the
frames it hands out are the first ones that are free; so what a loop of `MAP_MEMORY` does is
said by the number of tables, the number of frames and the frame of every page so far. Pages
made one after another from page 0 on get the frames of their own numbers, and the end the
third loop runs into can be computed beforehand.
-/

namespace Nupkux

namespace Placement

open Paging

variable {b : Placement} {first tables count memstart memend flags : Nat}
  {frames : Nat → Option Nat}

/-- The frames that `first_frame` looks at: it reads whole words of the frame map. -/
def usable (b : Placement) : Nat := b.paging.framecount / 32 * 32

/-- So many page tables are placed one after another, `first` being the page of the first one,
and every object lies below `kmalloc_pos`. -/
structure Tabled (first tables : Nat) (b : Placement) : Prop where
  live : b.paging.kernelDirectory ∈ b.paging.directory
  phys : ∀ tab, (b.paging.directoryAt b.paging.kernelDirectory).physTabs tab = 0 ↔ tables ≤ tab
  entry : ∀ tab < tables,
    b.paging.tableOf b.paging.kernelDirectory tab = frameSize * (first + tab)
  there : ∀ table, table ∈ b.paging.table ↔ ∃ tab < tables, table = frameSize * (first + tab)
  aligned : assertAlign b.kmallocPos = frameSize * (first + tables)
  below : b.kmallocPos ≤ frameSize * (first + tables)
  position : tables ≠ 0 → b.kmallocPos = frameSize * (first + tables)
  objects : ∀ object ∈ b.objects, object.1 + object.2 ≤ b.kmallocPos

/-- What the entry of a page says when the page has so far been given a frame, or none. -/
def Holds (entry : Page) : Option Nat → Prop
  | none => entry.frame = 0
  | some frame => entry.frame = frame ∧ entry.flags % 2 = 1

/-- So many frames have been handed out, the first ones, unless that is more than there are;
and these are the pages that were given them. -/
structure Framed (tables : Nat) (frames : Nat → Option Nat) (count : Nat) (b : Placement) :
    Prop where
  small : b.paging.framecount < frameNumbers
  unmapped : ∀ number, tables * tableEntries ≤ number → frames number = none
  fed : b.paging.starved = false ↔ count ≤ b.usable
  marks : count ≤ b.usable → ∀ frame < b.usable, b.paging.marked frame ↔ frame < count
  mapped : count ≤ b.usable → ∀ number < tables * tableEntries,
    Holds (b.page number) (frames number)

/-- A state of the loops. -/
structure Laid (first tables : Nat) (frames : Nat → Option Nat) (count : Nat) (b : Placement) :
    Prop extends b.Tabled first tables, b.Framed tables frames count

/-- How the tables are placed depends on the directories and tables there are. -/
theorem Tabled.same (tabled : b.Tabled first tables) {p : Paging}
    (same : SameTables b.paging p) : ({ b with paging := p } : Placement).Tabled first tables := by
  have directory (directory : Nat) : p.directoryAt directory = b.paging.directoryAt directory :=
    same.directoryAt directory
  constructor
  · show p.kernelDirectory ∈ p.directory
    rw [same.directory, same.kernelDirectory]
    exact tabled.live
  · intro tab
    show (p.directoryAt p.kernelDirectory).physTabs tab = 0 ↔ tables ≤ tab
    rw [directory, same.kernelDirectory]
    exact tabled.phys tab
  · intro tab inside
    show (p.directoryAt p.kernelDirectory).tables tab = frameSize * (first + tab)
    rw [directory, same.kernelDirectory]
    exact tabled.entry tab inside
  · intro table
    exact (same.table table).trans (tabled.there table)
  · exact tabled.aligned
  · exact tabled.below
  · exact tabled.position
  · exact tabled.objects

/-- The entry of a page, when no table has been entered. -/
theorem page_same {p : Paging} (same : SameTables b.paging p) (number : Nat) :
    ({ b with paging := p } : Placement).page number =
      p.pageAt (b.paging.tableOf b.paging.kernelDirectory (number / tableEntries),
        number % tableEntries) := by
  show p.pageAt ((p.directoryAt p.kernelDirectory).tables (number / tableEntries),
    number % tableEntries) = _
  rw [same.directoryAt, same.kernelDirectory]

/-- Two pages with tables have different entries. -/
theorem Tabled.entry_inj (tabled : b.Tabled first tables) {number other : Nat}
    (inside : number < tables * tableEntries) (inside' : other < tables * tableEntries)
    (same : (b.paging.tableOf b.paging.kernelDirectory (number / tableEntries),
        number % tableEntries) =
      (b.paging.tableOf b.paging.kernelDirectory (other / tableEntries),
        other % tableEntries)) : number = other := by
  have tab : number / tableEntries < tables := by
    rw [Nat.div_lt_iff_lt_mul (by decide)]
    exact inside
  have tab' : other / tableEntries < tables := by
    rw [Nat.div_lt_iff_lt_mul (by decide)]
    exact inside'
  rw [tabled.entry _ tab, tabled.entry _ tab', Prod.mk.injEq] at same
  simp only [frameSize, tableEntries] at *
  omega

/-! ## Frames -/

/-- The entry of a page. -/
abbrev pointer (b : Placement) (number : Nat) : PagePointer :=
  (b.paging.tableOf b.paging.kernelDirectory (number / tableEntries), number % tableEntries)

/-- `alloc_frame` does not change how many frames there are. -/
theorem framecount_allocFrame (p : Paging) (page : PagePointer) (flags : Nat) :
    (p.allocFrame page flags).framecount = p.framecount := by
  unfold Paging.allocFrame
  dsimp only
  split <;> rfl

/-- When frames have run out, nothing else is said. -/
theorem Framed.full (framed : b.Framed tables frames count) {frames' : Nat → Option Nat}
    {count' : Nat} (page : PagePointer) (flags : Nat)
    (unmapped : ∀ number, tables * tableEntries ≤ number → frames' number = none)
    (starved : (b.paging.allocFrame page flags).starved = true) (out : b.usable < count') :
    ({ b with paging := b.paging.allocFrame page flags } : Placement).Framed tables frames'
      count' := by
  have same : ({ b with paging := b.paging.allocFrame page flags } : Placement).usable =
      b.usable := by
    unfold usable
    dsimp only
    rw [framecount_allocFrame]
  constructor
  · show (b.paging.allocFrame page flags).framecount < frameNumbers
    rw [framecount_allocFrame]
    exact framed.small
  · exact unmapped
  · show (b.paging.allocFrame page flags).starved = false ↔ _
    rw [same, starved]
    exact iff_of_false Bool.true_eq_false_eq_False (by omega)
  · intro room
    omega
  · intro room
    omega

/-- A page that has a frame keeps it. -/
theorem Laid.keep (laid : b.Laid first tables frames count) {number frame : Nat}
    (inside : number < tables * tableEntries) (given : frames number = some frame)
    (nonzero : frame ≠ 0) (flags : Nat) :
    ({ b with paging := b.paging.allocFrame (b.pointer number) flags } : Placement).Laid first
      tables frames count := by
  by_cases room : count ≤ b.usable
  · have entry := laid.mapped room number inside
    rw [given] at entry
    have taken : (b.paging.pageAt (b.pointer number)).frame ≠ 0 := by
      rw [← entry.1] at nonzero
      exact nonzero
    have same : b.paging.allocFrame (b.pointer number) flags = b.paging := by
      unfold Paging.allocFrame
      dsimp only
      rw [if_pos taken]
    rw [same]
    exact laid
  · have tabled := laid.toTabled.same (allocFrame_tables b.paging (b.pointer number) flags)
    have starved : (b.paging.allocFrame (b.pointer number) flags).starved = true := by
      by_contra fed
      have before := (allocFrame_tables b.paging (b.pointer number) flags).starved
        (Bool.eq_false_iff.mpr fed)
      exact room (laid.fed.mp before)
    have framed := laid.toFramed.full (b.pointer number) flags laid.unmapped starved
      (Nat.lt_of_not_le room)
    exact { tabled, framed with }

/-- `alloc_frame` on an entry without a frame. -/
theorem allocFrame_of_zero {p : Paging} {page : PagePointer} (none : (p.pageAt page).frame = 0)
    (flags : Nat) :
    p.allocFrame page flags =
      ({ p with starved := p.starved || p.firstFrame == noFrame }.setPage page
        { flags := flags % pageFlags, frame := p.firstFrame % frameNumbers }).setFrame
          p.firstFrame := by
  unfold Paging.allocFrame
  dsimp only
  rw [if_neg (not_not.mpr none)]

/-- The frame of an entry. -/
theorem Holds.frame_eq {entry : Page} {given : Option Nat} (holds : Holds entry given) :
    entry.frame = given.getD 0 := by
  cases given with
  | none => exact holds
  | some frame => exact holds.1

/-- The table of a page is there. -/
theorem Tabled.pointer_mem (tabled : b.Tabled first tables) {number : Nat}
    (inside : number < tables * tableEntries) : (b.pointer number).1 ∈ b.paging.table := by
  have tab : number / tableEntries < tables := by
    rw [Nat.div_lt_iff_lt_mul (by decide)]
    exact inside
  exact (tabled.there _).mpr ⟨_, tab, tabled.entry _ tab⟩

/-- While there are frames, `alloc_frame` hands out the next one. -/
theorem allocFrame_next (laid : b.Laid first tables frames count) {number : Nat}
    (inside : number < tables * tableEntries) (free : (frames number).getD 0 = 0)
    (room : count < b.usable) (flags : Nat) :
    (b.paging.allocFrame (b.pointer number) flags).starved = false ∧
      (∀ frame, (b.paging.allocFrame (b.pointer number) flags).marked frame ↔
        frame = count ∨ b.paging.marked frame) ∧
      ∀ other, (b.paging.allocFrame (b.pointer number) flags).pageAt other =
        if other = b.pointer number then { flags := flags % pageFlags, frame := count }
        else b.paging.pageAt other := by
  have enough : count ≤ b.usable := Nat.le_of_lt room
  have zero : (b.paging.pageAt (b.pointer number)).frame = 0 :=
    (laid.mapped enough number inside).frame_eq.trans free
  have next : b.paging.firstFrame = count := by
    rw [firstFrame_of_initial (laid.marks enough)]
    exact if_pos room
  have few : count < frameNumbers := by
    have small := laid.small
    unfold usable at room
    omega
  have known : (count == noFrame) = false := by
    apply beq_false_of_ne
    simp only [frameNumbers, noFrame] at *
    omega
  rw [allocFrame_of_zero zero flags, next, known, Nat.mod_eq_of_lt few]
  refine ⟨?_, fun frame => ?_, fun other => ?_⟩
  · show (b.paging.starved || false) = false
    rw [Bool.or_false]
    exact laid.fed.mpr enough
  · exact setFrame_marked _ count frame
  · exact pageAt_setPage (p := { b.paging with starved := b.paging.starved || false })
      (laid.pointer_mem inside) _ other

/-- A page without a frame, or with frame 0, is given the next one. -/
theorem Laid.give (laid : b.Laid first tables frames count) {number : Nat}
    (inside : number < tables * tableEntries) (free : (frames number).getD 0 = 0)
    (odd : flags % 2 = 1) :
    ({ b with paging := b.paging.allocFrame (b.pointer number) flags } : Placement).Laid first
      tables (Function.update frames number (some count)) (count + 1) := by
  have same := allocFrame_tables b.paging (b.pointer number) flags
  have tabled := laid.toTabled.same same
  have unmapped (other : Nat) (above : tables * tableEntries ≤ other) :
      Function.update frames number (some count) other = none := by
    have differ : other ≠ number := by omega
    rw [Function.update_of_ne differ]
    exact laid.unmapped other above
  have usable_eq : ({ b with paging := b.paging.allocFrame (b.pointer number) flags } :
      Placement).usable = b.usable := by
    unfold usable
    dsimp only
    rw [framecount_allocFrame]
  by_cases more : count < b.usable
  · obtain ⟨fed, marks, entries⟩ := allocFrame_next laid inside free more flags
    have framed : ({ b with paging := b.paging.allocFrame (b.pointer number) flags } :
        Placement).Framed tables (Function.update frames number (some count)) (count + 1) := by
      constructor
      · show (b.paging.allocFrame (b.pointer number) flags).framecount < frameNumbers
        rw [framecount_allocFrame]
        exact laid.small
      · exact unmapped
      · rw [usable_eq]
        exact iff_of_true fed more
      · intro _ frame below
        rw [usable_eq] at below
        have before := laid.marks (Nat.le_of_lt more) frame below
        rw [marks frame, before]
        omega
      · intro _ other inside'
        rw [page_same same, entries]
        by_cases here : other = number
        · rw [here, if_pos rfl, Function.update_self]
          refine ⟨rfl, ?_⟩
          show flags % pageFlags % 2 = 1
          simp only [pageFlags]
          omega
        · have apart : b.pointer other ≠ b.pointer number := fun equal =>
            here (laid.entry_inj inside' inside equal)
          rw [if_neg apart, Function.update_of_ne here]
          exact laid.mapped (Nat.le_of_lt more) other inside'
    exact { tabled, framed with }
  · have starved : (b.paging.allocFrame (b.pointer number) flags).starved = true := by
      by_cases room : count ≤ b.usable
      · have zero : (b.paging.pageAt (b.pointer number)).frame = 0 :=
          (laid.mapped room number inside).frame_eq.trans free
        have none_left : b.paging.firstFrame = noFrame := by
          rw [firstFrame_of_initial (laid.marks room)]
          exact if_neg more
        rw [allocFrame_of_zero zero flags, none_left]
        exact Bool.or_true _
      · by_contra fed
        exact room (laid.fed.mp (same.starved (Bool.eq_false_iff.mpr fed)))
    have out : b.usable < count + 1 := by omega
    have framed := laid.toFramed.full (b.pointer number) flags unmapped starved out
    exact { tabled, framed with }

/-! ## Tables -/

/-- An aligned address is aligned already. -/
theorem assertAlign_mul (number : Nat) : assertAlign (frameSize * number) = frameSize * number :=
  if_neg (not_not.mpr (Nat.mul_mod_right _ _))

/-- The next table is entered after the ones that are there. -/
theorem Laid.makeTable_paging (laid : b.Laid first tables frames count) (flags : Nat) :
    (b.makeTable tables flags).paging =
      (b.paging.newTable (frameSize * (first + tables))).setTable b.paging.kernelDirectory tables
        (frameSize * (first + tables)) (frameSize * (first + tables) ||| flags) := by
  rw [← laid.aligned]
  rfl

/-- The next table is placed after the ones that are there. -/
theorem Laid.makeTable_tabled (laid : b.Laid first tables frames count)
    (room : frameSize * (first + tables + 1) < uintWidth) (odd : flags % 2 = 1) :
    (b.makeTable tables flags).Tabled first (tables + 1) := by
  have after : (b.makeTable tables flags).kmallocPos = frameSize * (first + (tables + 1)) := by
    show uadd (assertAlign b.kmallocPos) pageTableSize = _
    rw [laid.aligned, uadd_of_lt]
    · rfl
    · exact room
  have paging := laid.makeTable_paging flags
  have live : b.paging.kernelDirectory ∈
      (b.paging.newTable (frameSize * (first + tables))).directory := laid.live
  constructor
  · rw [paging]
    exact (mem_directory_setTable ..).mpr live
  · intro tab
    rw [paging]
    show ((setTable _ _ _ _ _).directoryAt b.paging.kernelDirectory).physTabs tab = 0 ↔ _
    rw [physTabs_setTable live]
    by_cases here : tab = tables
    · have nonzero : frameSize * (first + tables) ||| flags ≠ 0 := by
        intro zero
        have none := (Nat.or_eq_zero_iff.mp zero).2
        omega
      rw [if_pos ⟨rfl, here⟩]
      exact iff_of_false nonzero (by omega)
    · rw [if_neg fun both => here both.2]
      have before := laid.phys tab
      exact before.trans (by omega)
  · intro tab inside
    rw [paging]
    show (setTable _ _ _ _ _).tableOf b.paging.kernelDirectory tab = _
    rw [tableOf_setTable live]
    by_cases here : tab = tables
    · rw [if_pos ⟨rfl, here⟩, here]
    · rw [if_neg fun both => here both.2]
      exact laid.entry tab (by omega)
  · intro table
    rw [paging]
    refine (AList.mem_insert _).trans ?_
    rw [laid.there table]
    constructor
    · rintro (rfl | ⟨tab, inside, rfl⟩)
      · exact ⟨tables, Nat.lt_succ_self _, rfl⟩
      · exact ⟨tab, Nat.lt_succ_of_lt inside, rfl⟩
    · rintro ⟨tab, inside, rfl⟩
      by_cases here : tab = tables
      · rw [here]
        exact .inl rfl
      · exact .inr ⟨tab, by omega, rfl⟩
  · rw [after]
    exact assertAlign_mul _
  · exact Nat.le_of_eq after
  · intro _
    exact after
  · intro object member
    have before := laid.below
    have next : frameSize * (first + (tables + 1)) =
        frameSize * (first + tables) + pageTableSize := rfl
    rw [after, next]
    rcases List.mem_cons.mp member with rfl | older
    · show assertAlign b.kmallocPos + pageTableSize ≤ _
      rw [laid.aligned]
    · have low := laid.objects object older
      omega

/-- A new table has no pages. -/
theorem Laid.makeTable_framed (laid : b.Laid first tables frames count) (flags : Nat) :
    (b.makeTable tables flags).Framed (tables + 1) frames count := by
  have paging := laid.makeTable_paging flags
  have live : b.paging.kernelDirectory ∈
      (b.paging.newTable (frameSize * (first + tables))).directory := laid.live
  have fresh : frameSize * (first + tables) ∉ b.paging.table := by
    intro there
    obtain ⟨tab, inside, same⟩ := (laid.there _).mp there
    simp only [frameSize] at same
    omega
  have kept (page : PagePointer) :
      (b.makeTable tables flags).paging.pageAt page = b.paging.pageAt page := by
    rw [paging]
    exact pageAt_newTable (AList.lookup_eq_none.mpr fresh) page
  have pointers (number : Nat) :
      (b.makeTable tables flags).pointer number =
        if number / tableEntries = tables then (frameSize * (first + tables), number % tableEntries)
        else b.pointer number := by
    unfold pointer
    rw [paging]
    show ((setTable _ _ _ _ _).tableOf b.paging.kernelDirectory _, _) = _
    rw [tableOf_setTable live]
    by_cases here : number / tableEntries = tables
    · rw [if_pos ⟨rfl, here⟩, if_pos here]
    · rw [if_neg fun both => here both.2, if_neg here]
      rfl
  have same : (b.makeTable tables flags).usable = b.usable := rfl
  constructor
  · exact laid.small
  · intro number above
    exact laid.unmapped number (Nat.le_trans (Nat.mul_le_mul_right _ (Nat.le_succ _)) above)
  · exact laid.fed
  · exact laid.marks
  · intro room number inside
    show Holds ((b.makeTable tables flags).paging.pageAt
      ((b.makeTable tables flags).pointer number)) _
    rw [kept, pointers]
    by_cases here : number / tableEntries = tables
    · have new : tables * tableEntries ≤ number := by
        rw [← here]
        exact Nat.div_mul_le_self ..
      rw [if_pos here, pageAt_of_dead fresh, laid.unmapped number new]
      rfl
    · have tab : number / tableEntries < tables + 1 := Nat.div_lt_of_lt_mul (by
        rwa [Nat.mul_comm])
      have old : number < tables * tableEntries :=
        (Nat.div_lt_iff_lt_mul (by decide)).mp (by omega)
      rw [if_neg here]
      exact laid.mapped room number old

/-- `make_page` first makes sure that there is a table: it is there, or it is the next one. -/
theorem Laid.makePage_eq (laid : b.Laid first tables frames count) {number : Nat}
    (next : number / tableEntries ≤ tables)
    (room : frameSize * (first + tables + 1) < uintWidth) (odd : flags % 2 = 1) :
    ∃ b' : Placement, b'.Laid first (max tables (number / tableEntries + 1)) frames count ∧
      b.makePage (frameSize * number) flags =
        { b' with paging := b'.paging.allocFrame (b'.pointer number) flags } := by
  have index : frameSize * number / frameSize = number := Nat.mul_div_cancel_left _ (by decide)
  have step : b.makePage (frameSize * number) flags =
      let b' := if (b.paging.directoryAt b.paging.kernelDirectory).physTabs
          (number / tableEntries) = 0 then b.makeTable (number / tableEntries) flags else b
      { b' with paging := b'.paging.allocFrame (b'.pointer number) flags } := by
    unfold Placement.makePage
    rw [index]
  rw [step]
  by_cases there : number / tableEntries < tables
  · have present : (b.paging.directoryAt b.paging.kernelDirectory).physTabs
        (number / tableEntries) ≠ 0 := by
      intro zero
      have above := (laid.phys _).mp zero
      omega
    rw [if_neg present, max_eq_left there]
    exact ⟨b, laid, rfl⟩
  · have new : number / tableEntries = tables := by omega
    have absent : (b.paging.directoryAt b.paging.kernelDirectory).physTabs
        (number / tableEntries) = 0 := (laid.phys _).mpr (by omega)
    rw [if_pos absent, new, max_eq_right (Nat.le_succ _)]
    exact ⟨_, { laid.makeTable_tabled room odd, laid.makeTable_framed flags with }, rfl⟩

/-- The table of a page is among those there are when it has been made. -/
theorem inside_max (tables number : Nat) :
    number < max tables (number / tableEntries + 1) * tableEntries := by
  rw [← Nat.div_lt_iff_lt_mul (by decide)]
  omega

/-- A page with a frame is made: it keeps it. -/
theorem Laid.makePage_keep (laid : b.Laid first tables frames count) {number frame : Nat}
    (next : number / tableEntries ≤ tables)
    (room : frameSize * (first + tables + 1) < uintWidth) (odd : flags % 2 = 1)
    (given : frames number = some frame) (nonzero : frame ≠ 0) :
    (b.makePage (frameSize * number) flags).Laid first (max tables (number / tableEntries + 1))
      frames count := by
  obtain ⟨b', laid', made⟩ := laid.makePage_eq next room odd
  rw [made]
  exact laid'.keep (inside_max tables number) given nonzero flags

/-- A page without a frame, or with frame 0, is made: it is given the next frame. -/
theorem Laid.makePage_give (laid : b.Laid first tables frames count) {number : Nat}
    (next : number / tableEntries ≤ tables)
    (room : frameSize * (first + tables + 1) < uintWidth) (odd : flags % 2 = 1)
    (free : (frames number).getD 0 = 0) :
    (b.makePage (frameSize * number) flags).Laid first (max tables (number / tableEntries + 1))
      (Function.update frames number (some count)) (count + 1) := by
  obtain ⟨b', laid', made⟩ := laid.makePage_eq next room odd
  rw [made]
  exact laid'.give (inside_max tables number) free odd

/-! ## Loops -/

/-- A loop of `MAP_MEMORY` over whole pages: a family of states that begins with the first page
and that each turn takes to the next page ends where the end of the loop is reached. -/
theorem mapMemory_rule (holds : Nat → Placement → Prop) {end_ : Nat → Nat} {from_ last : Nat}
    (step : ∀ number b, from_ ≤ number → number < last → holds number b →
      frameSize * number ≤ end_ b.kmallocPos ∧
        holds (number + 1) (b.makePage (frameSize * number) flags))
    (stop : ∀ b, holds last b → end_ b.kmallocPos < frameSize * last)
    (small : frameSize * last < uintWidth) {turns : Nat} (enough : last - from_ < turns)
    (ordered : from_ ≤ last) (begins : holds from_ b) :
    ∃ b', b.mapMemory end_ flags turns (frameSize * from_) = some b' ∧ holds last b' := by
  induction turns generalizing from_ b with
  | zero => omega
  | succ turns ih =>
    rw [mapMemory]
    by_cases more : from_ < last
    · obtain ⟨before, after⟩ := step from_ b (Nat.le_refl _) more begins
      have page : uadd (frameSize * from_) frameSize = frameSize * (from_ + 1) := by
        apply uadd_of_lt
        have within : frameSize * (from_ + 1) ≤ frameSize * last := Nat.mul_le_mul_left _ more
        exact Nat.lt_of_le_of_lt within small
      rw [if_pos before, page]
      apply ih _ (by omega) more after
      intro number b low high
      exact step number b (by omega) high
    · have same : from_ = last := by omega
      subst same
      have past := stop b begins
      rw [if_neg (by omega)]
      exact ⟨b, rfl, begins⟩

/-- The tables for so many pages from page 0 on. -/
def tablesFor (pages : Nat) : Nat := (pages + (tableEntries - 1)) / tableEntries

/-- The frames of pages that were made one after another from page 0 on, when `shift` frames
had been lost before. -/
def initialFrames (shift pages number : Nat) : Option Nat :=
  if number < pages then some (number + shift) else none

/-- So many pages have been made one after another from page 0 on. -/
abbrev Initial (first shift pages : Nat) (b : Placement) : Prop :=
  b.Laid first (tablesFor pages) (initialFrames shift pages) (pages + shift)

variable {shift pages number : Nat}

/-- The next page is made. -/
theorem Initial.next (initial : b.Initial first shift pages)
    (room : frameSize * (first + tablesFor pages + 1) < uintWidth) (odd : flags % 2 = 1) :
    (b.makePage (frameSize * pages) flags).Initial first shift (pages + 1) := by
  have table : pages / tableEntries ≤ tablesFor pages := by
    simp only [tablesFor, tableEntries]
    omega
  have tables : max (tablesFor pages) (pages / tableEntries + 1) = tablesFor (pages + 1) := by
    simp only [tablesFor, tableEntries]
    omega
  have free : (initialFrames shift pages pages).getD 0 = 0 := by
    rw [initialFrames, if_neg (Nat.lt_irrefl _)]
    rfl
  have frames : Function.update (initialFrames shift pages) pages (some (pages + shift)) =
      initialFrames shift (pages + 1) := by
    funext number
    by_cases here : number = pages
    · rw [here, Function.update_self, initialFrames, if_pos (Nat.lt_succ_self _)]
    · rw [Function.update_of_ne here, initialFrames, initialFrames]
      have same : number < pages ↔ number < pages + 1 := by omega
      rw [if_congr same rfl rfl]
  have made := initial.makePage_give table room odd free
  rw [tables, frames] at made
  have count : pages + 1 + shift = pages + shift + 1 := by omega
  unfold Initial
  rw [count]
  exact made

/-- A page that was made is made again: it keeps its frame, if that is not frame 0. -/
theorem Initial.again (initial : b.Initial first shift pages) (made : number < pages)
    (nonzero : number + shift ≠ 0)
    (room : frameSize * (first + tablesFor pages + 1) < uintWidth) (odd : flags % 2 = 1) :
    (b.makePage (frameSize * number) flags).Initial first shift pages := by
  have table : number / tableEntries < tablesFor pages := by
    simp only [tablesFor, tableEntries]
    omega
  have kept := initial.makePage_keep (Nat.le_of_lt table) room odd (if_pos made) nonzero
  rw [max_eq_left table] at kept
  exact kept

/-- More pages need at least as many tables. -/
theorem tablesFor_mono {pages pages' : Nat} (more : pages ≤ pages') :
    tablesFor pages ≤ tablesFor pages' :=
  Nat.div_le_div_right (Nat.add_le_add_right more _)

/-- A loop that begins no later than the pages that were made goes on making them. -/
theorem Initial.mapMemory (initial : b.Initial first shift pages) {end_ : Nat → Nat}
    {from_ last : Nat} (begins : from_ ≤ pages) (ordered : from_ ≤ last)
    (nonzero : from_ + shift ≠ 0 ∨ from_ = pages)
    (go : ∀ number (b : Placement), from_ ≤ number → number < last →
      b.Initial first shift (max pages number) → frameSize * number ≤ end_ b.kmallocPos)
    (stop : ∀ b : Placement, b.Initial first shift (max pages last) →
      end_ b.kmallocPos < frameSize * last)
    (room : frameSize * (first + tablesFor (max pages last) + 1) < uintWidth)
    (small : frameSize * last < uintWidth) {turns : Nat} (enough : last - from_ < turns)
    (odd : flags % 2 = 1) :
    ∃ b', b.mapMemory end_ flags turns (frameSize * from_) = some b' ∧
      b'.Initial first shift (max pages last) := by
  apply mapMemory_rule (fun number b => b.Initial first shift (max pages number))
  · intro number b low high here
    refine ⟨go number b low high here, ?_⟩
    have few : frameSize * (first + tablesFor (max pages number) + 1) < uintWidth := by
      apply Nat.lt_of_le_of_lt _ room
      apply Nat.mul_le_mul_left
      have mono := tablesFor_mono (show max pages number ≤ max pages last by omega)
      omega
    by_cases made : number < pages
    · have same : max pages (number + 1) = max pages number := by omega
      rw [same]
      exact here.again (by omega) (by omega) few odd
    · have next : max pages number = number := by omega
      have next' : max pages (number + 1) = number + 1 := by omega
      rw [next] at here few
      rw [next']
      exact here.next few odd
  · exact stop
  · exact small
  · exact enough
  · exact ordered
  · show b.Initial first shift (max pages from_)
    rw [max_eq_left begins]
    exact initial

/-- Frame 0 is lost when page 0 is made again: it looks as if it had no frame. -/
theorem Initial.lost (initial : b.Initial first 0 1)
    (room : frameSize * (first + tablesFor 1 + 1) < uintWidth) (odd : flags % 2 = 1) :
    (b.makePage (frameSize * 0) flags).Initial first 1 1 := by
  have frames : Function.update (initialFrames 0 1) 0 (some (1 + 0)) = initialFrames 1 1 := by
    funext number
    by_cases here : number = 0
    · rw [here]
      rfl
    · have above : ¬number < 1 := by omega
      rw [Function.update_of_ne here, initialFrames, initialFrames, if_neg above, if_neg above]
  have table : 0 / tableEntries ≤ tablesFor 1 := Nat.zero_le _
  have made := initial.makePage_give table room odd rfl
  rw [frames] at made
  exact made

/-! ## The layout -/

/-- The page of the first page table: working memory, the pages for messages, the frame map and
the three pages of the kernel directory come before it. -/
def firstTable (memstart memend : Nat) : Nat :=
  (memstart + ipcMemsize + memend / frameSize / 8 + (frameSize - 1)) / frameSize + 3

/-- The page tables when the third loop ends: enough for the pages up to the one after the last
of them. -/
def identityTables (first : Nat) : Nat := (first + 1) / (tableEntries - 1) + 1

/-- The page tables the heap needs: the next one if it goes beyond the pages the others are
for. -/
def heapTables (first : Nat) : Nat :=
  if tableEntries * identityTables first ≤ first + identityTables first + 0x341 then 1 else 0

/-- An address is aligned to a multiple of the size of a page. -/
theorem assertAlign_eq {value : Nat} (small : value + frameSize < uintWidth) :
    assertAlign value = frameSize * ((value + (frameSize - 1)) / frameSize) := by
  obtain ⟨low, high, aligned⟩ := assertAlign_spec small
  simp only [frameSize] at *
  omega

/-- The frame map and the kernel directory are the first objects. -/
theorem start_eq (room : frameSize * (firstTable memstart memend + 1) < uintWidth) :
    start memstart memend =
      { paging := Paging.empty memend (frameSize * (firstTable memstart memend - 3))
        kmallocPos := frameSize * (firstTable memstart memend - 3) + pageDirectorySize
        objects := [(frameSize * (firstTable memstart memend - 3), pageDirectorySize),
          (memstart + ipcMemsize, memend / frameSize / 8)] } ∧
    memstart + ipcMemsize + memend / frameSize / 8 ≤
      frameSize * (firstTable memstart memend - 3) := by
  have begun : start memstart memend =
      { paging := Paging.empty memend
          (assertAlign (uadd (uadd memstart ipcMemsize) (memend / frameSize / 8)))
        kmallocPos := uadd
          (assertAlign (uadd (uadd memstart ipcMemsize) (memend / frameSize / 8)))
          pageDirectorySize
        objects :=
          [(assertAlign (uadd (uadd memstart ipcMemsize) (memend / frameSize / 8)),
            pageDirectorySize), (uadd memstart ipcMemsize, memend / frameSize / 8)] } := by
    simp only [start, kmallocBase, Bool.false_eq_true, if_false, if_true]
  rw [begun]
  unfold firstTable at room ⊢
  generalize memend / frameSize / 8 = words at *
  have sum : memstart + ipcMemsize + words + 4 * frameSize < uintWidth := by
    simp only [frameSize, uintWidth] at *
    omega
  have ipc : uadd memstart ipcMemsize = memstart + ipcMemsize := uadd_of_lt (by omega)
  have frameMap : uadd (memstart + ipcMemsize) words = memstart + ipcMemsize + words :=
    uadd_of_lt (by omega)
  have aligned := assertAlign_eq (show memstart + ipcMemsize + words + frameSize < uintWidth by
    omega)
  rw [ipc, frameMap, aligned, Nat.add_sub_cancel]
  have position : uadd (frameSize * ((memstart + ipcMemsize + words + (frameSize - 1)) / frameSize))
      pageDirectorySize =
      frameSize * ((memstart + ipcMemsize + words + (frameSize - 1)) / frameSize) +
        pageDirectorySize := by
    apply uadd_of_lt
    simp only [frameSize, uintWidth, pageDirectorySize] at *
    omega
  rw [position]
  constructor
  · rfl
  · simp only [frameSize]
    omega

/-- Before the first page is made there are no page tables. -/
theorem empty_initial {kernelDirectory pos : Nat} {objects : List (Nat × Nat)}
    (few : memend / frameSize < frameNumbers) (aligned : assertAlign pos = frameSize * first)
    (below : pos ≤ frameSize * first)
    (inside : ∀ object ∈ objects, object.1 + object.2 ≤ pos) :
    Initial first 0 0
      { paging := Paging.empty memend kernelDirectory, kmallocPos := pos, objects } := by
  have tables : tablesFor 0 = 0 := rfl
  have directory : (Paging.empty memend kernelDirectory).directoryAt kernelDirectory =
      { physPos := kernelDirectory } := by
    simp only [Paging.empty, directoryAt, Store.lookup_insert_eq, if_pos, Option.getD_some]
  unfold Initial
  rw [tables]
  constructor
  · constructor
    · exact (AList.mem_insert _).mpr (.inl rfl)
    · intro tab
      show ((Paging.empty _ _).directoryAt kernelDirectory).physTabs tab = 0 ↔ _
      rw [directory]
      exact iff_of_true rfl (Nat.zero_le tab)
    · intro tab none
      exact absurd none (Nat.not_lt_zero tab)
    · intro table
      constructor
      · intro there
        exact absurd there (AList.notMem_empty table)
      · rintro ⟨tab, none, _⟩
        exact absurd none (Nat.not_lt_zero tab)
    · exact aligned
    · exact below
    · intro some_table
      exact absurd rfl some_table
    · exact inside
  · constructor
    · exact few
    · intro number _
      exact if_neg (Nat.not_lt_zero _)
    · exact iff_of_true rfl (Nat.zero_le _)
    · intro _ frame _
      refine iff_of_false ?_ (Nat.not_lt_zero _)
      show ¬(0#32).getLsbD (frame % 32) = true
      rw [BitVec.getLsbD_zero]
      exact Bool.false_ne_true
    · intro _ number none
      rw [Nat.zero_mul] at none
      exact absurd none (Nat.not_lt_zero _)

/-- `setup_paging` begins without page tables. -/
theorem start_initial (inRange : memend < uintWidth)
    (room : frameSize * (firstTable memstart memend + 1) < uintWidth) :
    (start memstart memend).Initial (firstTable memstart memend) 0 0 := by
  obtain ⟨begun, frameMap⟩ := start_eq room
  have three : 3 ≤ firstTable memstart memend := Nat.le_add_left ..
  have few : memend / frameSize < frameNumbers := by
    simp only [frameSize, frameNumbers, uintWidth] at *
    omega
  rw [begun]
  generalize firstTable memstart memend = first at *
  have last : frameSize * (first - 3) + pageDirectorySize ≤ frameSize * first := by
    simp only [frameSize, pageDirectorySize]
    omega
  have aligned : assertAlign (frameSize * (first - 3) + pageDirectorySize) =
      frameSize * first := by
    rw [assertAlign_eq]
    · simp only [frameSize, pageDirectorySize]
      omega
    · simp only [frameSize, pageDirectorySize, uintWidth] at *
      omega
  generalize pageDirectorySize = directorySize at *
  apply empty_initial few aligned last
  intro object member
  rcases List.mem_cons.mp member with rfl | member
  · exact Nat.le_refl _
  · rw [List.mem_singleton.mp member]
    exact Nat.le_trans frameMap (Nat.le_add_right ..)

/-- The frames that are lost before the second page is made: when working memory begins at page
0, the second loop makes that page once more. -/
def lostFrames (memstart : Nat) : Nat := if memstart = 0 then 1 else 0

/-- The third loop ends where its page tables are enough for its pages. -/
theorem tablesFor_identity (first : Nat) :
    tablesFor (first + identityTables first + 2) = identityTables first := by
  simp only [tablesFor, identityTables, tableEntries]
  omega

/-- Up to there its end is ahead. -/
theorem le_tablesFor (below : pages < first + identityTables first + 2) :
    pages ≤ first + tablesFor pages + 1 := by
  simp only [tablesFor, identityTables, tableEntries] at *
  omega

/-- The position of `kmalloc_pos` after pages were made. -/
theorem Initial.position_eq (initial : b.Initial first shift pages) (some_page : 0 < pages) :
    b.kmallocPos = frameSize * (first + tablesFor pages) := by
  apply initial.position
  simp only [tablesFor, tableEntries]
  omega

/-- The pages of working memory. -/
theorem pages_lt_firstTable (memstart memend : Nat) :
    memstart / frameSize + 1024 + 3 ≤ firstTable memstart memend := by
  simp only [firstTable, frameSize, ipcMemsize]
  omega

/-- A loop that makes no pages behind the end of the third one. -/
theorem Initial.loop (initial : b.Initial first shift pages)
    (fits : frameSize * (first + identityTables first + 0x342) < uintWidth) {end_ : Nat → Nat}
    {from_ last : Nat} (begins : from_ ≤ pages) (ordered : from_ ≤ last)
    (nonzero : from_ + shift ≠ 0 ∨ from_ = pages)
    (within : max pages last ≤ first + identityTables first + 2)
    (go : ∀ number (b : Placement), from_ ≤ number → number < last →
      b.Initial first shift (max pages number) → frameSize * number ≤ end_ b.kmallocPos)
    (stop : ∀ b : Placement, b.Initial first shift (max pages last) →
      end_ b.kmallocPos < frameSize * last)
    {turns : Nat} (enough : last - from_ < turns) (odd : flags % 2 = 1) :
    ∃ b', b.mapMemory end_ flags turns (frameSize * from_) = some b' ∧
      b'.Initial first shift (max pages last) := by
  have tables := tablesFor_mono within
  rw [tablesFor_identity] at tables
  apply initial.mapMemory begins ordered nonzero go stop _ _ enough odd
  · apply Nat.lt_of_le_of_lt _ fits
    apply Nat.mul_le_mul_left
    omega
  · apply Nat.lt_of_le_of_lt _ fits
    apply Nat.mul_le_mul_left
    omega

/-- The pages for messages end at a page boundary. -/
theorem uadd_ipcMemsize (aligned : memstart % frameSize = 0)
    (fits : frameSize * (firstTable memstart memend +
      identityTables (firstTable memstart memend) + 0x342) < uintWidth) :
    uadd memstart ipcMemsize = frameSize * (memstart / frameSize + 1024) := by
  have pages := pages_lt_firstTable memstart memend
  have whole : frameSize * (memstart / frameSize) = memstart :=
    Nat.mul_div_cancel' (Nat.dvd_of_mod_eq_zero aligned)
  have sum : memstart + ipcMemsize = frameSize * (memstart / frameSize + 1024) := by
    rw [Nat.mul_add, whole]
    rfl
  rw [← sum]
  apply uadd_of_lt
  rw [sum]
  apply Nat.lt_of_le_of_lt _ fits
  apply Nat.mul_le_mul_left
  omega

/-- The first loop makes the pages below working memory and its first one. -/
theorem first_loop (aligned : memstart % frameSize = 0) (inRange : memend < uintWidth)
    (fits : frameSize * (firstTable memstart memend +
      identityTables (firstTable memstart memend) + 0x342) < uintWidth) {turns : Nat}
    (enough : frameNumbers < turns) :
    ∃ b, (start memstart memend).mapMemory (fun _ => memstart) kernelFlags turns 0 = some b ∧
      b.Initial (firstTable memstart memend) 0 (memstart / frameSize + 1) := by
  have pages := pages_lt_firstTable memstart memend
  have whole : frameSize * (memstart / frameSize) = memstart :=
    Nat.mul_div_cancel' (Nat.dvd_of_mod_eq_zero aligned)
  have begun : (start memstart memend).Initial (firstTable memstart memend) 0 0 := by
    apply start_initial inRange
    apply Nat.lt_of_le_of_lt _ fits
    apply Nat.mul_le_mul_left
    omega
  have small : memstart / frameSize < frameNumbers := by
    simp only [frameSize, frameNumbers, uintWidth] at *
    omega
  generalize memstart / frameSize = last at *
  generalize firstTable memstart memend = first at *
  rw [← whole] at begun ⊢
  have within : max 0 (last + 1) ≤ first + identityTables first + 2 := by omega
  have loop : ∃ b', (start (frameSize * last) memend).mapMemory (fun _ => frameSize * last)
      kernelFlags turns (frameSize * 0) = some b' ∧ b'.Initial first 0 (max 0 (last + 1)) := by
    apply begun.loop fits (Nat.le_refl 0) (Nat.zero_le _) (.inr rfl) within _ _ (by omega) rfl
    · intro number b _ below _
      exact Nat.mul_le_mul_left _ (Nat.le_of_lt_succ below)
    · intro b _
      exact Nat.mul_lt_mul_of_pos_left (Nat.lt_succ_self last) (by decide)
  rw [Nat.mul_zero, Nat.zero_max] at loop
  exact loop

/-- The second loop makes the pages for messages, and page 0 once more if working memory begins
there. -/
theorem second_loop (aligned : memstart % frameSize = 0)
    (fits : frameSize * (firstTable memstart memend +
      identityTables (firstTable memstart memend) + 0x342) < uintWidth) {turns : Nat}
    (enough : frameNumbers < turns)
    (initial : b.Initial (firstTable memstart memend) 0 (memstart / frameSize + 1)) :
    ∃ b', b.mapMemory (fun _ => uadd memstart ipcMemsize) userFlags turns memstart = some b' ∧
      b'.Initial (firstTable memstart memend) (lostFrames memstart)
        (memstart / frameSize + 1025) := by
  have pages := pages_lt_firstTable memstart memend
  have whole : frameSize * (memstart / frameSize) = memstart :=
    Nat.mul_div_cancel' (Nat.dvd_of_mod_eq_zero aligned)
  have end_ := uadd_ipcMemsize aligned fits
  rw [end_]
  generalize memstart / frameSize = page at *
  generalize firstTable memstart memend = first at *
  have small : page + 1025 ≤ frameNumbers := by
    simp only [frameSize, frameNumbers, uintWidth] at *
    omega
  have go (number : Nat) (b : Placement) (below : number < page + 1025) :
      frameSize * number ≤ frameSize * (page + 1024) :=
    Nat.mul_le_mul_left _ (Nat.le_of_lt_succ below)
  have stop (b : Placement) : frameSize * (page + 1024) < frameSize * (page + 1025) :=
    Nat.mul_lt_mul_of_pos_left (Nat.lt_succ_self _) (by decide)
  have whole_loop : max (page + 1) (page + 1025) = page + 1025 := by omega
  have within : max (page + 1) (page + 1025) ≤ first + identityTables first + 2 := by omega
  by_cases zero : memstart = 0
  · have lost : lostFrames memstart = 1 := if_pos zero
    have zero_page : page = 0 := by
      simp only [frameSize] at whole
      omega
    rw [lost, zero]
    obtain ⟨rest, rfl⟩ : ∃ rest, turns = rest + 1 := ⟨turns - 1, by omega⟩
    have next : uadd 0 frameSize = frameSize * (page + 1) := by
      rw [zero_page]
      rfl
    have again : (b.makePage 0 userFlags).Initial first 1 (page + 1) := by
      rw [zero_page] at initial ⊢
      apply initial.lost _ rfl
      apply Nat.lt_of_le_of_lt _ fits
      apply Nat.mul_le_mul_left
      have one : tablesFor 1 = 1 := rfl
      omega
    have loop : ∃ b', (b.makePage 0 userFlags).mapMemory (fun _ => frameSize * (page + 1024))
        userFlags rest (frameSize * (page + 1)) = some b' ∧
        b'.Initial first 1 (max (page + 1) (page + 1025)) := by
      apply again.loop fits (Nat.le_refl _) (by omega) (.inr rfl) within _ _ (by omega) rfl
      · exact fun number b _ below _ => go number b below
      · exact fun b _ => stop b
    rw [whole_loop] at loop
    rw [mapMemory, if_pos (Nat.zero_le _), next]
    exact loop
  · have none : lostFrames memstart = 0 := if_neg zero
    have positive : page + 0 ≠ 0 := by
      intro first
      rw [Nat.add_zero] at first
      rw [first, Nat.mul_zero] at whole
      exact zero whole.symm
    have loop : ∃ b', b.mapMemory (fun _ => frameSize * (page + 1024)) userFlags turns
        (frameSize * page) = some b' ∧ b'.Initial first 0 (max (page + 1) (page + 1025)) := by
      apply initial.loop fits (Nat.le_succ _) (by omega) (.inl positive) within _ _ (by omega) rfl
      · exact fun number b _ below _ => go number b below
      · exact fun b _ => stop b
    rw [whole_loop, whole] at loop
    rw [none]
    exact loop

/-- The third loop makes the pages of everything it places itself, and one more. -/
theorem third_loop (aligned : memstart % frameSize = 0)
    (fits : frameSize * (firstTable memstart memend +
      identityTables (firstTable memstart memend) + 0x342) < uintWidth) {turns : Nat}
    (enough : frameNumbers < turns)
    (initial : b.Initial (firstTable memstart memend) shift (memstart / frameSize + 1025)) :
    ∃ b', b.mapMemory (fun pos => uadd pos frameSize) kernelFlags turns
        (uadd memstart ipcMemsize) = some b' ∧
      b'.Initial (firstTable memstart memend) shift
        (firstTable memstart memend + identityTables (firstTable memstart memend) + 2) := by
  have pages := pages_lt_firstTable memstart memend
  have whole : frameSize * (memstart / frameSize) = memstart :=
    Nat.mul_div_cancel' (Nat.dvd_of_mod_eq_zero aligned)
  have begin_ := uadd_ipcMemsize aligned fits
  rw [begin_]
  generalize memstart / frameSize = page at *
  generalize firstTable memstart memend = first at *
  have whole_loop : max (page + 1025) (first + identityTables first + 2) =
      first + identityTables first + 2 := by omega
  have next_page {tables : Nat} (few : tables ≤ identityTables first) :
      uadd (frameSize * (first + tables)) frameSize = frameSize * (first + tables + 1) := by
    rw [Nat.mul_succ]
    apply uadd_of_lt
    apply Nat.lt_of_le_of_lt _ fits
    rw [← Nat.mul_succ]
    apply Nat.mul_le_mul_left
    omega
  have loop : ∃ b', b.mapMemory (fun pos => uadd pos frameSize) kernelFlags turns
      (frameSize * (page + 1024)) = some b' ∧
      b'.Initial first shift (max (page + 1025) (first + identityTables first + 2)) := by
    apply initial.loop fits (Nat.le_succ _) (by omega) (.inl (by omega)) (by omega) _ _ _ rfl
    · intro number b _ below here
      have ahead : max (page + 1025) number ≤ first + tablesFor (max (page + 1025) number) + 1 :=
        le_tablesFor (by omega)
      have few := tablesFor_mono (show max (page + 1025) number ≤ first + identityTables first + 2
        by omega)
      rw [tablesFor_identity] at few
      have position := here.position_eq (by omega)
      show frameSize * number ≤ uadd b.kmallocPos frameSize
      rw [position, next_page few]
      apply Nat.mul_le_mul_left
      omega
    · intro b here
      rw [whole_loop] at here
      have position := here.position_eq (by omega)
      rw [tablesFor_identity] at position
      show uadd b.kmallocPos frameSize < _
      rw [position, next_page (Nat.le_refl _)]
      exact Nat.mul_lt_mul_of_pos_left (Nat.lt_succ_self _) (by decide)
    · simp only [frameSize, frameNumbers, uintWidth] at *
      omega
  rw [whole_loop] at loop
  exact loop

end Placement

end Nupkux
