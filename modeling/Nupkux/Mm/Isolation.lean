import Nupkux.Mm.VirtualMemory

/-!
# Isolation of address spaces

The pages that the processor finds in a directory are those of its space and those of the
kernel. A run of calls that name other directories leaves them as they are, so that after a fork
parent and child go their own ways.
-/

namespace Nupkux

namespace PagedMemory

variable {α : Type} {m m' : PagedMemory α} {directory number : Nat}

/-! ## Frames enough -/

/-- A fork takes at most as many frames as the directory has pages. -/
theorem demand_le (pages : Finset Nat) (only : ∀ n, m.own directory n ≠ none → n ∈ pages) :
    m.paging.demand directory tableEntries ≤ pages.card := by
  obtain ⟨cells, within, counted⟩ : ∃ cells : Finset (Nat × Nat), (∀ cell, cell ∈ cells ↔
      (cell.1 < tableEntries ∧ cell.2 < tableEntries) ∧
        m.own directory (tableEntries * cell.1 + cell.2) ≠ none) ∧
      m.paging.demand directory tableEntries = cells.card := by
    refine ⟨(Finset.range tableEntries ×ˢ Finset.range tableEntries).filter fun cell =>
      m.own directory (tableEntries * cell.1 + cell.2) ≠ none, fun cell => ?_, ?_⟩
    · rw [Finset.mem_filter, Finset.mem_product, Finset.mem_range, Finset.mem_range]
    · rw [Finset.card_filter, Finset.sum_product]
      refine Finset.sum_congr rfl fun i _ => ?_
      have entry (j : Nat) (inside : j < tableEntries) :
          (tableEntries * i + j) / tableEntries = i ∧ (tableEntries * i + j) % tableEntries = j := by
        simp only [tableEntries] at *
        omega
      by_cases owned : m.paging.Private directory i
      · rw [if_pos owned]
        refine Finset.sum_congr rfl fun j inside => ?_
        obtain ⟨quotient, remainder⟩ := entry j (Finset.mem_range.mp inside)
        rw [own_of_private (quotient.symm ▸ owned), Paging.pageNo, Paging.entryOf, quotient,
          remainder]
        by_cases unmapped : (m.paging.pageAt (m.paging.tableOf directory i, j)).frame = 0
        · rw [if_pos unmapped, if_neg (not_not.mpr unmapped), if_neg (not_not.mpr rfl)]
        · rw [if_neg unmapped, if_pos unmapped, if_pos (Option.some_ne_none _)]
      · rw [if_neg owned]
        refine (Finset.sum_eq_zero fun j inside => if_neg (not_not.mpr ?_)).symm
        exact own_of_not_private ((entry j (Finset.mem_range.mp inside)).1.symm ▸ owned)
  rw [counted]
  refine Finset.card_le_card_of_injOn (fun cell => tableEntries * cell.1 + cell.2)
    (fun cell there => only _ ((within cell).mp there).2) fun cell first other second same => ?_
  have left := ((within cell).mp first).1
  have right := ((within other).mp second).1
  simp only [tableEntries] at left right same
  exact Prod.ext (by omega) (by omega)

/-- `clone_directory` is a step if there is a free frame for each page of the directory. -/
theorem Sound.forks {src : Nat} (sound : m.Sound) (blocks : PageBlocks)
    (live : src ∈ m.paging.directory) (pages : Finset Nat)
    (only : ∀ n, m.own src n ≠ none → n ∈ pages)
    (enough : pages.card ≤ m.paging.freeFrames.length) :
    let after := (m.cloneDirectory blocks src).1
    (memorySystem α).step m (.paging (.cloneDirectory src)) after ∧
      m.paging.freeFrames.length ≤ after.paging.freeFrames.length + pages.card ∧
      after.paging.kernelDirectory = m.paging.kernelDirectory ∧
      src ∈ after.paging.directory ∧ src ≠ (m.cloneDirectory blocks src).2 := by
  have frames := sound.invariant.frames sound.fed
  have clones := cloneDirectory_clones sound.invariant blocks frames.small live
  have demand := demand_le pages only
  have fed := clones.feeds.enough sound.fed (Nat.le_trans demand enough)
  have left := (clones.feeds.left fed).2
  have clone := (sound.isClone blocks live fed).2.1
  exact ⟨⟨.cloneDirectory blocks live, fed⟩, by omega, clone.kernelDirectory,
    (clone.directories _).mpr (.inr live), fun same => clone.fresh (same ▸ live)⟩

/-- `make_page` is a step if there is a free frame. -/
theorem Sound.maps {address : Nat} (sound : m.Sound) (blocks : PageBlocks)
    (inRange : address < uintWidth) (flags : Nat) (live : directory ∈ m.paging.directory)
    (enough : 0 < m.paging.freeFrames.length) :
    let after := PagedMemory.mk (m.paging.makePage blocks address flags directory true).1 m.content
    (memorySystem α).step m (.paging (.makePage address flags directory true)) after ∧
      m.paging.freeFrames.length ≤ after.paging.freeFrames.length + 1 ∧
      after.paging.kernelDirectory = m.paging.kernelDirectory ∧
      directory ∈ after.paging.directory := by
  intro after
  obtain ⟨q, there, made⟩ := Paging.exists_tableThere sound.invariant.linked
    sound.invariant.referenced blocks inRange flags live true
  have free : q.freeFrames = m.paging.freeFrames := by
    rw [Paging.freeFrames, Paging.freeFrames, there.framecount, there.framemap]
  have found : q.starved = false := there.starved.trans sound.fed
  have small : q.framecount < frameNumbers :=
    there.framecount ▸ (sound.invariant.frames sound.fed).small
  have same := Paging.allocFrame_tables q (q.entryOf directory (address / frameSize)) flags
  have fed : after.paging.starved = false ∧
      m.paging.freeFrames.length ≤ after.paging.freeFrames.length + 1 := by
    change (m.paging.makePage blocks address flags directory true).1.starved = false ∧
      _ ≤ (m.paging.makePage blocks address flags directory true).1.freeFrames.length + 1
    rw [made, if_pos rfl, ← free]
    by_cases unmapped : (q.pageAt (q.entryOf directory (address / frameSize))).frame = 0
    · have feeds := Paging.allocFrame_feeds small unmapped flags
      have fed' := feeds.enough found (free ▸ enough)
      exact ⟨fed', (feeds.left fed').2.ge⟩
    · rw [Paging.allocFrame_of_mapped unmapped]
      exact ⟨found, Nat.le_succ _⟩
  refine ⟨⟨.makePage blocks inRange flags live true, fed.1⟩, fed.2, ?_,
    (Paging.mem_directory_makePage _ blocks _ flags directory).mpr live⟩
  change (m.paging.makePage blocks address flags directory true).1.kernelDirectory = _
  rw [made, if_pos rfl, same.kernelDirectory, there.kernelDirectory]

/-- `free_directory` always is a step. -/
theorem releases {dir : Nat} (fed : m.paging.starved = false) (live : dir ∈ m.paging.directory)
    (user : dir ≠ m.paging.kernelDirectory) :
    (memorySystem α).step m (.paging (.freeDirectory dir)) (m.freeDirectory dir) :=
  ⟨.freeDirectory live user, (m.paging.freeDirectory_leaves dir).starved.trans fed⟩

/-! ## What the processor finds -/

/-- The contents that the processor finds in a page with flags. -/
def visible (page : Nat × α) : Option α :=
  if page.1 &&& pageFlagPresent ≠ 0 then some page.2 else none

/-- The frame behind a page depends on its entry. -/
theorem frameOf_eq (linked : m.paging.Linked) (directory number : Nat) :
    m.paging.frameOf directory number =
      if (m.paging.pageNo directory number).flags &&& pageFlagPresent ≠ 0 ∧
          (m.paging.pageNo directory number).frame < m.paging.framecount then
        some (m.paging.pageNo directory number).frame
      else none := by
  unfold Paging.frameOf
  dsimp only
  by_cases absent : (m.paging.directoryAt directory).physTabs (number / tableEntries) = 0
  · have none : m.paging.pageNo directory number = {} := by
      refine Paging.pageNo_of_absent linked ?_
      by_contra there
      exact (linked.present _ _).mpr there absent
    rw [if_pos absent, none, if_neg]
    rintro ⟨present, _⟩
    exact present (Nat.zero_and _)
  · rw [if_neg absent]

/-- In a table of the kernel a directory finds what the kernel finds there. -/
theorem load_of_shared (linked : m.paging.Linked)
    (shares : m.paging.Shares directory (number / tableEntries)) :
    m.load directory number = m.load m.paging.kernelDirectory number := by
  have page : m.paging.pageNo directory number =
      m.paging.pageNo m.paging.kernelDirectory number := by
    rw [Paging.pageNo, Paging.pageNo, Paging.entryOf, Paging.entryOf, shares.2]
  rw [load, load, frameOf_eq linked, frameOf_eq linked, page]

/-- Elsewhere it finds what it has for itself. -/
theorem Sound.load_of_own (sound : m.Sound)
    (unshared : ¬m.paging.Shares directory (number / tableEntries)) :
    m.load directory number = (m.own directory number).bind visible := by
  have linked := sound.invariant.linked
  rw [load, frameOf_eq linked]
  by_cases none : m.paging.tableOf directory (number / tableEntries) = 0
  · rw [own_of_not_private fun owned => owned.1 none, Paging.pageNo_of_absent linked none, if_neg]
    · rfl
    · rintro ⟨present, _⟩
      exact present (Nat.zero_and _)
  · have owned : m.paging.Private directory (number / tableEntries) :=
      ⟨none, fun together => unshared ⟨none, together⟩⟩
    rw [own_of_private owned]
    by_cases mapped : (m.paging.pageNo directory number).frame ≠ 0
    · have inside : (m.paging.pageNo directory number).frame < m.paging.framecount :=
        (sound.invariant.frames sound.fed).bounded _ _ (Paging.holds_eq_some.mpr ⟨mapped, rfl⟩)
      rw [if_pos mapped, Option.bind_some, visible]
      by_cases present : (m.paging.pageNo directory number).flags &&& pageFlagPresent ≠ 0
      · rw [if_pos ⟨present, inside⟩, if_pos present]
        rfl
      · rw [if_neg fun both => present both.1, if_neg present]
        rfl
    · have apart (i : Nat) : m.paging.tableOf m.paging.kernelDirectory i ≠
          m.paging.tableOf directory (number / tableEntries) := by
        intro together
        obtain ⟨rfl, _⟩ := linked.shared _ directory i _ (together ▸ none) together
        exact owned.2 together
      have blank : m.paging.pageNo directory number = {} :=
        sound.tidy.blank _ apart (not_not.mp mapped)
      rw [if_neg mapped, blank, if_neg]
      · rfl
      · rintro ⟨present, _⟩
        exact present (Nat.zero_and _)

/-! ## Runs -/

/-- A directory is there still and shares the tables that it did. -/
structure KeepsTables (directory : Nat) (m m' : PagedMemory α) : Prop where
  live : directory ∈ m'.paging.directory
  kernelDirectory : m'.paging.kernelDirectory = m.paging.kernelDirectory
  shares : ∀ i, m'.paging.Shares directory i ↔ m.paging.Shares directory i

/-- A call that does not change a directory keeps the tables that it shares. -/
theorem Sound.keepsTables {call : MemoryCall α} (sound : m.Sound) (step : MemoryStep m call m')
    (live : directory ∈ m.paging.directory) (other : ¬call.Changes directory) :
    KeepsTables directory m m' := by
  have linked := sound.invariant.linked
  cases step with
  | @makePage address named blocks inRange flags there alloc =>
    obtain ⟨q, opened, made⟩ := Paging.exists_tableThere linked sound.invariant.referenced blocks
      inRange flags there alloc
    have apart : directory ≠ named := Ne.symm other
    have shares (i : Nat) : q.Shares directory i ↔ m.paging.Shares directory i := by
      by_cases none : m.paging.tableOf directory i = 0
      · refine iff_of_false (fun shares => apart ?_) fun shares => shares.1 none
        exact (opened.fresh directory i none shares.1).1
      · have kept := opened.kept directory i none
        rw [Paging.shares_iff none, Paging.shares_iff (kept ▸ none),
          opened.private_iff linked none]
    have after : KeepsTables directory m ⟨q, m.content⟩ :=
      ⟨(opened.directories directory).mpr live, opened.kernelDirectory, shares⟩
    have same := Paging.allocFrame_tables q (q.entryOf named (address / frameSize)) flags
    constructor
    · dsimp only
      rw [made]
      cases alloc with
      | false => exact after.live
      | true => exact (congrArg (directory ∈ ·) same.directory).mpr after.live
    · dsimp only
      rw [made]
      cases alloc with
      | false => exact after.kernelDirectory
      | true => exact same.kernelDirectory.trans after.kernelDirectory
    · intro i
      dsimp only
      rw [made]
      cases alloc with
      | false => exact shares i
      | true =>
        exact (Paging.shares_congr (same.directoryAt _) (same.directoryAt _)
          same.kernelDirectory i).trans (shares i)
  | @freePage address inRange =>
    unfold Paging.freePage
    dsimp only
    split
    · exact ⟨live, rfl, fun _ => Iff.rfl⟩
    · set page := m.paging.entryOf m.paging.kernelDirectory (address / frameSize)
      have same := Paging.freeFrame_tables m.paging page
      exact ⟨(congrArg (directory ∈ ·) same.directory).mpr live, same.kernelDirectory,
        Paging.shares_congr (same.directoryAt _) (same.directoryAt _) same.kernelDirectory⟩
  | @cloneDirectory src blocks there =>
    have directories := (cloneDirectory_directories sound.invariant blocks there).2
    have differ {old : Nat} (before : old ∈ m.paging.directory) :
        old ≠ (m.cloneDirectory blocks src).2 := fun same => directories.fresh (same ▸ before)
    exact ⟨(directories.mem directory).mpr (.inr live), directories.kernelDirectory,
      Paging.shares_congr (directories.others _ (differ live))
        (directories.others _ (differ linked.kernel)) directories.kernelDirectory⟩
  | @freeDirectory dir there user =>
    have leaves := m.paging.freeDirectory_leaves dir
    have at_other {old : Nat} (apart : old ≠ dir) :
        (m.paging.freeDirectory dir).directoryAt old = m.paging.directoryAt old := by
      rw [Paging.directoryAt, leaves.directory, if_neg apart, Paging.directoryAt]
    have apart : directory ≠ dir := Ne.symm other
    refine ⟨?_, leaves.kernelDirectory, Paging.shares_congr (at_other apart)
      (at_other user.symm) leaves.kernelDirectory⟩
    rw [freeDirectory, ← AList.lookup_isSome, leaves.directory, if_neg apart, AList.lookup_isSome]
    exact live
  | store found change => exact ⟨live, rfl, fun _ => Iff.rfl⟩

/-- A directory has for itself what it had, and shares what it shared. -/
structure Undisturbed (directory : Nat) (m m' : PagedMemory α) : Prop
    extends KeepsTables directory m m' where
  own : m'.own directory = m.own directory

/-- The directory of the kernel has no table of its own. -/
theorem own_kernel (m : PagedMemory α) : m.own m.paging.kernelDirectory = fun _ => none :=
  funext fun _ => own_of_not_private fun owned => owned.2 rfl

/-- A call that does not change a directory does not disturb it. -/
theorem Sound.undisturbed {call : MemoryCall α} (sound : m.Sound) (step : MemoryStep m call m')
    (fed : m'.paging.starved = false) (live : directory ∈ m.paging.directory)
    (other : ¬call.Changes directory) : Undisturbed directory m m' := by
  have kept := sound.keepsTables step live other
  refine ⟨kept, ?_⟩
  by_cases user : directory = m.paging.kernelDirectory
  · have after := own_kernel m'
    rw [kept.kernelDirectory, ← user] at after
    rw [after, user, own_kernel]
  · have before : m.spaces directory = some (m.own directory) := if_pos ⟨live, user⟩
    have after : m'.spaces directory = some (m'.own directory) :=
      if_pos ⟨kept.live, kept.kernelDirectory.symm ▸ user⟩
    have same : m'.spaces directory = some (m.own directory) := by
      rcases sound.simulates step fed with ⟨_, same⟩ | ⟨seen, sees, move⟩
      · rw [same, before]
      · refine move.kept (fun names => other ?_) before
        cases call with
        | paging call =>
          cases call with
          | makePage _ _ named _ =>
            cases sees
            exact names
          | freePage _ _ => cases sees
          | cloneDirectory _ =>
            cases sees
            exact names
          | freeDirectory _ =>
            cases sees
            exact names
        | store _ _ _ =>
          cases sees
          exact names
    exact Option.some.inj (after.symm.trans same)

/-- A copy has for itself what the source has, and shares what it shares. -/
theorem Sound.cloned {src : Nat} (sound : m.Sound) (blocks : PageBlocks)
    (live : src ∈ m.paging.directory)
    (fed : (m.cloneDirectory blocks src).1.paging.starved = false) :
    (m.cloneDirectory blocks src).2 ∈ (m.cloneDirectory blocks src).1.paging.directory ∧
      (m.cloneDirectory blocks src).1.own (m.cloneDirectory blocks src).2 = m.own src ∧
      ∀ i, (m.cloneDirectory blocks src).1.paging.Shares (m.cloneDirectory blocks src).2 i ↔
        m.paging.Shares src i := by
  have linked := sound.invariant.linked
  obtain ⟨linked', clone, kernel⟩ := sound.isClone blocks live fed
  exact ⟨(clone.directories _).mpr (.inl rfl),
    funext (own_clone linked linked' clone kernel), shares_clone linked linked' clone kernel⟩

/-- A run of calls that do not change a directory does not disturb it. -/
theorem Sound.undisturbed_of_path {labels : List (MemoryCall α)} (sound : m.Sound)
    (live : directory ∈ m.paging.directory)
    (path : (memorySystem α).Path (fun _ call => ¬call.Changes directory) m labels m') :
    m'.Sound ∧ Undisturbed directory m m' := by
  refine path.keeps (fun r => r.Sound ∧ Undisturbed directory m r)
    (fun r call next holds other step => ?_) ⟨sound, ⟨live, rfl, fun _ => Iff.rfl⟩, rfl⟩
  obtain ⟨steady, before⟩ := holds
  have next := steady.undisturbed step.1 step.2 before.live other
  exact ⟨steady.step step.1 step.2,
    ⟨next.live, next.kernelDirectory.trans before.kernelDirectory,
      fun i => (next.shares i).trans (before.shares i)⟩, next.own.trans before.own⟩

end PagedMemory

open PagedMemory in
/-- Virtual memory refines separate spaces: every run is one on spaces of pages, in which a
directory begins as a copy of another one and is changed by the calls that name it only, and the
processor finds in a directory the pages of its space and those of the kernel. -/
theorem virtual_memory_refines_spaces {α : Type} {first last : PagedMemory α}
    {labels : List (MemoryCall α)} (start : (memorySystem α).initial first)
    (path : (memorySystem α).Path TransitionSystem.Unrestricted first labels last) :
    Spaces.system.initial first.spaces ∧
      Spaces.system.Path TransitionSystem.Unrestricted first.spaces
        (labels.filterMap MemoryCall.seen) last.spaces ∧
      ∀ directory ∈ last.paging.directory, ∀ number, last.load directory number =
        if last.paging.Shares directory (number / tableEntries) then
          last.load last.paging.kernelDirectory number
        else (last.spaces.contents directory number).bind visible := by
  have sound : last.Sound := sound_of_reachable ⟨first, labels, start, path⟩
  refine ⟨fun directory => ?_, ?_, fun directory live number => ?_⟩
  · exact spaces_start start directory
  · exact path.refines spaces MemoryCall.seen PagedMemory.Sound
      (fun _ _ _ sound _ step => sound.step step.1 step.2)
      (fun _ _ _ sound _ step => sound.simulates step.1 step.2) (.start start)
  · by_cases shares : last.paging.Shares directory (number / tableEntries)
    · rw [if_pos shares, load_of_shared sound.invariant.linked shares]
    · rw [if_neg shares, contents_spaces live, sound.load_of_own shares]

namespace ForkedPage

open FirstPages

/-- 256 KB of memory, of which the first page is mapped; each frame contains its number. -/
def booted : PagedMemory Nat where
  paging := ((Paging.empty 0x40000 1).makePage blocks 0 1 1 true).1
  content := id

/-- The directory of the first process. -/
def process : Nat := (booted.cloneDirectory blocks 1).2

/-- The first process, without a page of its own. -/
def running : PagedMemory Nat := (booted.cloneDirectory blocks 1).1

/-- The process has been given a page. -/
def grown : PagedMemory Nat :=
  ⟨(running.paging.makePage blocks 0x40000000 userFlags process true).1, running.content⟩

/-- A run may start there. -/
theorem initial : (memorySystem Nat).initial booted :=
  ⟨⟨0x40000, by decide, 1, blocks, 1, 0, by decide, rfl⟩, by decide⟩

/-- The kernel makes the first process. -/
theorem runs : (memorySystem Nat).step booted (.paging (.cloneDirectory 1)) running ∧
    62 ≤ running.paging.freeFrames.length ∧ process ∈ running.paging.directory ∧
      process ≠ running.paging.kernelDirectory ∧ running.own process = fun _ => none := by
  have sound := PagedMemory.Sound.start initial
  have live : 1 ∈ booted.paging.directory := by decide
  have nothing : booted.own 1 = fun _ => none := booted.own_kernel
  have free : booted.paging.freeFrames.length = 63 := by decide +kernel
  obtain ⟨step, left, kernel, _, apart⟩ := sound.forks blocks live ∅
    (fun n some => absurd (congrFun nothing n) some) (Nat.zero_le _)
  obtain ⟨there, own, _⟩ := sound.cloned blocks live step.2
  rw [free, Finset.card_empty, Nat.add_zero] at left
  unfold running process
  exact ⟨step, Nat.le_trans (by decide) left, there,
    fun same => apart (same.trans kernel).symm, own.trans nothing⟩

/-- It is given a page. -/
theorem grows : (memorySystem Nat).step running
      (.paging (.makePage 0x40000000 userFlags process true)) grown ∧
    61 ≤ grown.paging.freeFrames.length ∧ process ∈ grown.paging.directory ∧
      process ≠ grown.paging.kernelDirectory ∧
      ∀ n, grown.own process n ≠ none → n ∈ ({0x40000} : Finset Nat) := by
  obtain ⟨ran, free, live, user, nothing⟩ := runs
  have sound := (PagedMemory.Sound.start initial).step ran.1 ran.2
  have inRange : 0x40000000 < uintWidth := by decide
  obtain ⟨step, left, kernel, there⟩ := sound.maps blocks inRange userFlags live (by omega)
  have own := PagedMemory.makePage_own sound.invariant blocks inRange userFlags live true process
  unfold grown
  refine ⟨step, by omega, there, fun same => user (same.trans kernel), fun n some => ?_⟩
  rcases own n with kept | ⟨_, here, _⟩
  · exact absurd (kept.trans (congrFun nothing n)) some
  · exact Finset.mem_singleton.mpr here

/-- It forks. -/
theorem forks : (memorySystem Nat).step grown (.paging (.cloneDirectory process))
      (grown.cloneDirectory blocks process).1 ∧
    process ∈ (grown.cloneDirectory blocks process).1.paging.directory ∧
      process ≠ (grown.cloneDirectory blocks process).1.paging.kernelDirectory ∧
      process ≠ (grown.cloneDirectory blocks process).2 := by
  obtain ⟨ran, _⟩ := runs
  obtain ⟨grew, free, live, user, only⟩ := grows
  have sound := ((PagedMemory.Sound.start initial).step ran.1 ran.2).step grew.1 grew.2
  have enough : ({0x40000} : Finset Nat).card ≤ grown.paging.freeFrames.length := by
    rw [Finset.card_singleton]
    omega
  obtain ⟨step, _, kernel, there, apart⟩ := sound.forks blocks live {0x40000} only enough
  exact ⟨step, there, fun same => user (same.trans kernel), apart⟩

/-- All this is a run. -/
theorem path : (memorySystem Nat).Path TransitionSystem.Unrestricted booted
    [.paging (.cloneDirectory 1), .paging (.makePage 0x40000000 userFlags process true),
      .paging (.cloneDirectory process)] (grown.cloneDirectory blocks process).1 :=
  (((TransitionSystem.Path.nil booted).snoc trivial runs.1).snoc trivial grows.1).snoc trivial
    forks.1

end ForkedPage

open ForkedPage in
/-- The run as one on spaces: a process is made, is given a page and forks. -/
theorem virtual_memory_refines_spaces_forked :
    Spaces.system.Path TransitionSystem.Unrestricted booted.spaces
      [.fork 1, .map process 0x40000, .fork process]
      (grown.cloneDirectory FirstPages.blocks process).1.spaces :=
  (virtual_memory_refines_spaces initial path).2.1

open PagedMemory in
/-- After a fork, parent and child each keep the memory there was at the fork, whatever the other
directories do: what a run that does not change one of them leaves there is what the parent had,
or the kernel's. -/
theorem fork_isolates {α : Type} {m m' : PagedMemory α} {src directory : Nat}
    {labels : List (MemoryCall α)} (reached : (memorySystem α).Reachable m) (blocks : PageBlocks)
    (live : src ∈ m.paging.directory)
    (fed : (m.cloneDirectory blocks src).1.paging.starved = false)
    (which : directory = src ∨ directory = (m.cloneDirectory blocks src).2)
    (path : (memorySystem α).Path (fun _ call => ¬call.Changes directory)
      (m.cloneDirectory blocks src).1 labels m') (number : Nat) :
    m'.load directory number =
      if m.paging.Shares src (number / tableEntries) then
        m'.load m'.paging.kernelDirectory number
      else m.load src number := by
  have sound := sound_of_reachable reached
  have step := MemoryStep.cloneDirectory blocks live
  have sound' := sound.step step fed
  have forked : directory ∈ (m.cloneDirectory blocks src).1.paging.directory ∧
      (m.cloneDirectory blocks src).1.own directory = m.own src ∧
      ∀ i, (m.cloneDirectory blocks src).1.paging.Shares directory i ↔
        m.paging.Shares src i := by
    rcases which with rfl | rfl
    · have kept := sound.undisturbed step fed live id
      exact ⟨kept.live, kept.own, kept.shares⟩
    · exact sound.cloned blocks live fed
  obtain ⟨there, own, shares⟩ := forked
  obtain ⟨sound'', kept⟩ := sound'.undisturbed_of_path there path
  have same := (kept.shares (number / tableEntries)).trans (shares _)
  by_cases shared : m.paging.Shares src (number / tableEntries)
  · rw [if_pos shared, load_of_shared sound''.invariant.linked (same.mpr shared)]
  · rw [if_neg shared, sound''.load_of_own fun shares => shared (same.mp shares),
      sound.load_of_own shared, kept.own, own]

open ForkedPage in
/-- The parent exits after the fork: the child has the page that the parent had. -/
theorem fork_isolates_exit :
    ((grown.cloneDirectory FirstPages.blocks process).1.freeDirectory process).load
        (grown.cloneDirectory FirstPages.blocks process).2 0x40000 =
      if grown.paging.Shares process (0x40000 / tableEntries) then
        ((grown.cloneDirectory FirstPages.blocks process).1.freeDirectory process).load
          ((grown.cloneDirectory FirstPages.blocks process).1.freeDirectory
            process).paging.kernelDirectory 0x40000
      else grown.load process 0x40000 := by
  obtain ⟨step, live, user, apart⟩ := forks
  have reached : (memorySystem Nat).Reachable grown :=
    ((TransitionSystem.ReachableUnder.start initial).next trivial runs.1).next trivial grows.1
  have exits := PagedMemory.releases step.2 live user
  have other : ¬MemoryCall.Changes (grown.cloneDirectory FirstPages.blocks process).2
      (.paging (.freeDirectory process) : MemoryCall Nat) := apart
  exact fork_isolates reached FirstPages.blocks grows.2.2.1 step.2 (.inr rfl)
    ((TransitionSystem.Path.nil _).snoc other exits) 0x40000

end Nupkux
