import Nupkux.Mm.FrameOwnership

/-!
# Running out of frames

What `alloc_frame` should do: record a free frame in the entry of a page and mark it, or leave
everything as it is when there is none. It does the first; for the second it does not look at
what `first_frame` returns.
-/

namespace Nupkux

namespace Paging

variable {p p' : Paging} {page : PagePointer} {flags : Nat}

/-- Some frame that `first_frame` looks at is free. -/
def HasFree (p : Paging) : Prop := ∃ frame < p.framecount / 32 * 32, ¬p.marked frame

/-- No two entries record the same frame. -/
def Unshared (p : Paging) : Prop :=
  ∀ page other frame, p.holds page = some frame → p.holds other = some frame → page = other

/-- What a page should be given by an allocation: a frame that was free, if there is one, and
with nothing else touched. -/
structure Allocates (page : PagePointer) (p p' : Paging) : Prop where
  inMap : ∀ word, p.framecount / 32 ≤ word → p'.framemap word = p.framemap word
  recorded : p'.pageAt page = p.pageAt page ∨
    (p'.pageAt page).frame < p.framecount ∧ ¬p.marked (p'.pageAt page).frame
  exhausted : ¬p.HasFree → p'.pageAt page = p.pageAt page ∧ p'.framemap = p.framemap
  unshared : p.Unshared → (∀ page frame, p.holds page = some frame → p.marked frame) →
    p'.Unshared

/-- `first_frame` returns a free frame when there is one. -/
theorem HasFree.firstFrame_spec (free : p.HasFree) :
    p.firstFrame < p.framecount / 32 * 32 ∧ ¬p.marked p.firstFrame := by
  refine p.firstFrame_cases.resolve_left fun full => ?_
  obtain ⟨frame, inside, unmarked⟩ := free
  exact unmarked (full.2 frame inside)

/-- `first_frame` returns no frame when there is none. -/
theorem firstFrame_of_full (full : ¬p.HasFree) : p.firstFrame = noFrame :=
  (p.firstFrame_cases.resolve_right fun found => full ⟨_, found⟩).1

/-- An entry with a frame is left as it is. -/
theorem allocFrame_of_mapped (mapped : (p.pageAt page).frame ≠ 0) (flags : Nat) :
    p.allocFrame page flags = p := by
  unfold allocFrame
  dsimp only
  rw [if_pos mapped]

/-- An entry without a frame records the frame that `first_frame` returns, cut to its field. -/
theorem pageAt_allocFrame (unmapped : (p.pageAt page).frame = 0) (live : page.1 ∈ p.table)
    (flags : Nat) (other : PagePointer) :
    (p.allocFrame page flags).pageAt other =
      if other = page then { flags := flags % pageFlags, frame := p.firstFrame % frameNumbers }
      else p.pageAt other := by
  unfold allocFrame
  dsimp only
  rw [if_neg (not_not.mpr unmapped)]
  exact pageAt_setPage (p := { p with starved := p.starved || p.firstFrame == noFrame }) live _ other

/-- The word of the frame map that is written. -/
theorem framemap_allocFrame (unmapped : (p.pageAt page).frame = 0) (flags : Nat) {word : Nat}
    (other : word ≠ p.firstFrame / 32) :
    (p.allocFrame page flags).framemap word = p.framemap word := by
  unfold allocFrame
  dsimp only
  rw [if_neg (not_not.mpr unmapped)]
  exact Function.update_of_ne other _ _

/-- With a free frame, `alloc_frame` does what it should. -/
theorem Allocates.of_free (free : p.HasFree) (small : p.framecount < frameNumbers)
    (unmapped : (p.pageAt page).frame = 0) (live : page.1 ∈ p.table) (flags : Nat) :
    Allocates page p (p.allocFrame page flags) := by
  obtain ⟨inside, unmarked⟩ := free.firstFrame_spec
  have frame : p.firstFrame % frameNumbers = p.firstFrame := Nat.mod_eq_of_lt (by omega)
  have entry := pageAt_allocFrame unmapped live flags
  rw [frame] at entry
  constructor
  · intro word outside
    apply framemap_allocFrame unmapped
    omega
  · right
    rw [entry page, if_pos rfl]
    exact ⟨Nat.lt_of_lt_of_le inside (Nat.div_mul_le_self ..), unmarked⟩
  · intro full
    exact absurd free full
  · intro unshared marked one other number first second
    have before {one : PagePointer} (here : (p.allocFrame page flags).holds one = some number)
        (differ : one ≠ page) : p.holds one = some number := by
      have same := entry one
      rw [if_neg differ] at same
      rw [← holds_congr same]
      exact here
    have here {one : PagePointer} (here : (p.allocFrame page flags).holds one = some number)
        (same : one = page) : p.firstFrame = number := by
      have records := (holds_eq_some.mp here).2
      rw [entry, if_pos same] at records
      exact records
    by_cases left : one = page
    · by_cases right : other = page
      · rw [left, right]
      · exact absurd (here first left ▸ marked other number (before second right)) unmarked
    · by_cases right : other = page
      · exact absurd (here second right ▸ marked one number (before first left)) unmarked
      · exact unshared one other number (before first left) (before second right)

/-- `alloc_frame` does what it should exactly if the entry has a frame already or a frame is
free. -/
theorem allocFrame_allocates (small : p.framecount < frameNumbers) (live : page.1 ∈ p.table)
    (flags : Nat) :
    Allocates page p (p.allocFrame page flags) ↔ (p.pageAt page).frame ≠ 0 ∨ p.HasFree := by
  constructor
  · intro allocates
    by_contra neither
    obtain ⟨mapped, full⟩ := not_or.mp neither
    have unmapped : (p.pageAt page).frame = 0 := not_not.mp mapped
    have entry := pageAt_allocFrame unmapped live flags page
    rw [if_pos rfl, firstFrame_of_full full, (allocates.exhausted full).1] at entry
    have frame : 0 = noFrame % frameNumbers := by
      rw [← unmapped, entry]
    exact absurd frame (by decide)
  · intro one
    by_cases mapped : (p.pageAt page).frame = 0
    · exact .of_free (one.resolve_left fun frame => frame mapped) small mapped live flags
    · rw [allocFrame_of_mapped mapped flags]
      exact ⟨fun _ _ => rfl, .inl rfl, fun _ => ⟨rfl, rfl⟩, fun unshared _ => unshared⟩

end Paging

namespace FullMemory

/-- 128 KB of memory, all of it in use, and a page table without entries at address 1. -/
def full : Paging where
  framecount := 32
  framemap := fun word => if word = 0 then 0xFFFFFFFF#32 else 0
  kernelDirectory := 0
  table := AList.insert 1 (fun _ => {}) ∅

/-- With a free frame, the entry is given it. -/
def almostFull : Paging := { full with framemap := fun _ => 0x7FFFFFFF#32 }

end FullMemory

namespace Paging

open FullMemory

/-- The last free frame is given to an entry. -/
theorem allocFrame_allocates_last :
    Allocates (1, 0) almostFull (almostFull.allocFrame (1, 0) 1) :=
  (allocFrame_allocates (by decide) (by decide) 1).mpr
    (.inr ⟨31, by decide, by
      show ¬(0x7FFFFFFF#32).getLsbD 31 = true
      decide⟩)

/-- Without a free frame two pages are both given frame 0xFFFFF, and a word far behind the frame
map is written. -/
theorem allocFrame_full :
    ¬Allocates (1, 0) full (full.allocFrame (1, 0) 1) ∧
      ((full.allocFrame (1, 0) 1).pageAt (1, 0)).frame = 0xFFFFF ∧
      (full.allocFrame (1, 0) 1).framemap 0x7FFFFFF = 0x80000000#32 ∧
      (((full.allocFrame (1, 0) 1).allocFrame (1, 1) 1).pageAt (1, 0)).frame =
        (((full.allocFrame (1, 0) 1).allocFrame (1, 1) 1).pageAt (1, 1)).frame := by
  have full_map : ¬full.HasFree := by
    rintro ⟨frame, inside, free⟩
    have ones : ∀ frame < 32, full.marked frame := by
      unfold marked
      decide
    exact free (ones frame inside)
  refine ⟨fun allocates => ?_, by decide +kernel, by decide +kernel, by decide +kernel⟩
  have same := (allocates.exhausted full_map).1
  exact absurd same (by decide +kernel)

end Paging

end Nupkux
