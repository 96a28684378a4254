import Nupkux.Mm.Translation

/-!
# The memory of the running task

A machine is the page tables, the directory that is in use and a byte at every physical address.
Accesses to linear addresses go through the directory; one that reaches no memory does not
return, which is `none` here. `memcpy` and `memset` are given by what they have done after so
many turns.
-/

namespace Nupkux

/-- What was read: the first address and the number of bytes. -/
abbrev Reads := List (Nat × Nat)

/-- The page tables with the current directory, and physical memory. -/
structure Machine where
  paging : Paging
  directory : Nat
  physical : Bytes

namespace Machine

/-- The page with a number. -/
def page (m : Machine) (number : Nat) : Page := m.paging.pageNo m.directory number

/-- The physical address behind a linear one. -/
def translate (m : Machine) (a : Nat) : Option Nat := m.paging.translate m.directory a

/-- The byte at an address. -/
def byte (m : Machine) (a : Nat) : Option (BitVec 8) := (m.translate a).map m.physical

/-- A byte is stored. -/
def store (m : Machine) (a : Nat) (v : BitVec 8) : Option Machine :=
  (m.translate a).map fun q => { m with physical := Function.update m.physical q v }

/-- The number that so many bytes at an address hold, the lowest byte first. -/
def value (m : Machine) (a : Nat) : Nat → Option Nat
  | 0 => some 0
  | count + 1 => do
    let low ← m.value a count
    let high ← m.byte (uadd a count)
    some (low + 256 ^ count * high.toNat)

/-- `memcpy`. -/
def memcpy (target source : Nat) : Nat → Machine → Option Machine
  | 0, m => some m
  | count + 1, m => do
    let m ← memcpy target source count m
    let v ← m.byte (uadd source count)
    m.store (uadd target count) v

/-- `memset`. -/
def memset (target : Nat) (v : BitVec 8) : Nat → Machine → Option Machine
  | 0, m => some m
  | count + 1, m => do
    let m ← memset target v count m
    m.store (uadd target count) v

/-- `make_page(a, PAGE_FLAG_PRESENT | PAGE_FLAG_WRITE | PAGE_FLAG_USERMODE, directory, 1)`. -/
def makePage (blocks : PageBlocks) (m : Machine) (a : Nat) : Machine :=
  { m with paging := (m.paging.makePage blocks a userFlags m.directory true).1 }

/-- There is memory behind so many bytes. -/
def Mapped (m : Machine) (a count : Nat) : Prop := ∀ i < count, (m.translate (uadd a i)).isSome

/-- The page tables are well formed, no two pages of the directory have the same frame of memory,
and their frames are not free. A page that has a frame is present, as all calls of `make_page`
ask for. -/
structure Sound (m : Machine) : Prop where
  invariant : m.paging.PagingInvariant
  live : m.directory ∈ m.paging.directory
  distinct : ∀ n n', (m.page n).frame ≠ 0 → (m.page n).frame < m.paging.framecount →
    (m.page n).frame = (m.page n').frame → n = n'
  marked : ∀ n, (m.page n).frame ≠ 0 → (m.page n).frame < m.paging.framecount →
    m.paging.marked (m.page n).frame
  reserved : m.paging.marked 0
  small : m.paging.framecount < frameNumbers
  present : ∀ n, (m.page n).frame ≠ 0 → (m.page n).flags &&& pageFlagPresent ≠ 0

/-- The machines have the same page tables and directory. -/
structure SamePages (m m' : Machine) : Prop where
  paging : m'.paging = m.paging
  directory : m'.directory = m.directory

/-- What `make_page` calls leave: pages that have a frame, and all bytes. -/
structure Grown (m m' : Machine) : Prop where
  directory : m'.directory = m.directory
  physical : m'.physical = m.physical
  framecount : m'.paging.framecount = m.paging.framecount
  held : ∀ n, (m.page n).frame ≠ 0 → m'.page n = m.page n
  sound : m'.Sound

/-- Nothing but the memory behind so many bytes from an address on has changed. -/
structure StoresOnly (m m' : Machine) (t count : Nat) : Prop where
  same : SamePages m m'
  kept : ∀ q, (∀ i < count, m.translate (uadd t i) ≠ some q) → m'.physical q = m.physical q

variable {m m' m'' : Machine} {a b q t s n count number : Nat} {v : BitVec 8}

/-! ## Translation -/

/-- A machine whose allocations have all been served is sound. -/
theorem Sound.of_fed (invariant : m.paging.PagingInvariant) (fed : m.paging.starved = false)
    (live : m.directory ∈ m.paging.directory)
    (present : ∀ n, (m.page n).frame ≠ 0 → (m.page n).flags &&& pageFlagPresent ≠ 0) :
    m.Sound := by
  have frames := invariant.frames fed
  have held (n : Nat) (nonzero : (m.page n).frame ≠ 0) :
      m.paging.holds (m.paging.entryOf m.directory n) = some (m.page n).frame :=
    Paging.holds_eq_some.mpr ⟨nonzero, rfl⟩
  refine ⟨invariant, live, fun n n' nonzero _ same => ?_, fun n nonzero _ => ?_, ?_, frames.small,
    present⟩
  · have entries := frames.owned.distinct _ _ _ (held n nonzero)
      (same ▸ held n' (same ▸ nonzero))
    refine Paging.entryOf_inj invariant.linked (fun absent => nonzero ?_) entries
    rw [page, Paging.pageNo_of_absent invariant.linked absent]
  · exact (frames.owned.used_iff _).mpr (.inr ⟨_, held n nonzero⟩)
  · exact (frames.owned.used_iff 0).mpr (.inl rfl)

/-- What is behind an address. -/
theorem Sound.translate_eq_some (sound : m.Sound) :
    m.translate a = some q ↔
      (m.page (a / frameSize)).flags &&& pageFlagPresent ≠ 0 ∧
        (m.page (a / frameSize)).frame < m.paging.framecount ∧
          q = (m.page (a / frameSize)).frame * frameSize + a % frameSize := by
  rw [translate, Paging.translate_eq sound.invariant.linked]
  split
  · rename_i both
    rw [Option.some.injEq, eq_comm]
    exact ⟨fun same => ⟨both.1, both.2, same⟩, fun all => all.2.2⟩
  · rename_i neither
    exact iff_of_false (by simp) fun all => neither ⟨all.1, all.2.1⟩

/-- There is memory behind an address of a page with a frame of memory. -/
theorem Sound.translate_of_frame (sound : m.Sound)
    (nonzero : (m.page (a / frameSize)).frame ≠ 0)
    (inside : (m.page (a / frameSize)).frame < m.paging.framecount) :
    m.translate a = some ((m.page (a / frameSize)).frame * frameSize + a % frameSize) :=
  sound.translate_eq_some.mpr ⟨sound.present _ nonzero, inside, rfl⟩

/-- Nothing else is behind the frame of a page. -/
theorem Sound.translate_inj (sound : m.Sound) (nonzero : (m.page (a / frameSize)).frame ≠ 0)
    (first : m.translate a = some q) (second : m.translate b = some q) : a = b := by
  obtain ⟨_, inside, place⟩ := sound.translate_eq_some.mp first
  obtain ⟨_, _, place'⟩ := sound.translate_eq_some.mp second
  simp only [frameSize] at *
  have frames : (m.page (a / 4096)).frame = (m.page (b / 4096)).frame := by omega
  have pages := sound.distinct _ _ nonzero inside frames
  omega

/-- Translation depends on the page tables. -/
theorem SamePages.translate (same : SamePages m m') (a : Nat) : m'.translate a = m.translate a := by
  rw [Machine.translate, same.paging, same.directory]
  rfl

/-- Pages depend on the page tables. -/
theorem SamePages.page (same : SamePages m m') (n : Nat) : m'.page n = m.page n := by
  rw [Machine.page, same.paging, same.directory]
  rfl

/-- Nothing changed. -/
theorem SamePages.refl (m : Machine) : SamePages m m := ⟨rfl, rfl⟩

/-- Two changes of memory. -/
theorem SamePages.trans (first : SamePages m m') (second : SamePages m' m'') : SamePages m m'' :=
  ⟨second.paging.trans first.paging, second.directory.trans first.directory⟩

/-- Soundness depends on the page tables. -/
theorem SamePages.sound (same : SamePages m m') (sound : m.Sound) : m'.Sound := by
  have pages := same.page
  refine ⟨?_, ?_, ?_, ?_, ?_, ?_, ?_⟩
  · rw [same.paging]
    exact sound.invariant
  · rw [same.paging, same.directory]
    exact sound.live
  · simp only [pages, same.paging]
    exact sound.distinct
  · simp only [pages, same.paging]
    exact sound.marked
  · rw [same.paging]
    exact sound.reserved
  · rw [same.paging]
    exact sound.small
  · simp only [pages]
    exact sound.present

/-! ## Reading and writing -/

/-- A byte where the translation and the physical byte are the same. -/
theorem byte_congr (translates : m'.translate a = m.translate a)
    (kept : ∀ q, m.translate a = some q → m'.physical q = m.physical q) : m'.byte a = m.byte a := by
  unfold byte
  rw [translates]
  cases found : m.translate a with
  | none => rfl
  | some q => exact congrArg some (kept q found)

/-- There is a byte where there is memory. -/
@[simp] theorem byte_isSome : (m.byte a).isSome = (m.translate a).isSome := by
  unfold byte
  cases m.translate a <;> rfl

/-- A number can be read where there is memory. -/
theorem value_isSome : (m.value a count).isSome ↔ m.Mapped a count := by
  induction count with
  | zero => exact iff_of_true rfl fun _ less => absurd less (Nat.not_lt_zero _)
  | succ count ih =>
    rw [Mapped, Nat.forall_lt_succ_right, ← Mapped, ← ih, value, ← byte_isSome]
    cases m.value a count with
    | none => exact iff_of_false (by simp) fun both => absurd both.1 (by simp)
    | some low =>
      cases m.byte (uadd a count) with
      | none => exact iff_of_false (by simp) fun both => absurd both.2 (by simp)
      | some high => exact iff_of_true rfl ⟨rfl, rfl⟩

/-- A number depends on its bytes. -/
theorem value_congr (same : ∀ i < count, m'.byte (uadd a i) = m.byte (uadd a i)) :
    m'.value a count = m.value a count := by
  induction count with
  | zero => rfl
  | succ count ih =>
    rw [value, value, ih fun i less => same i (Nat.lt_succ_of_lt less),
      same count (Nat.lt_succ_self count)]

/-- The number that given bytes from an address on hold, the lowest byte first. -/
def valueOf (byte : Nat → Option (BitVec 8)) (a : Nat) : Nat → Option Nat
  | 0 => some 0
  | count + 1 => do
    let low ← valueOf byte a count
    let high ← byte (uadd a count)
    some (low + 256 ^ count * high.toNat)

/-- A number in memory is that of its bytes. -/
theorem value_eq_valueOf {byte : Nat → Option (BitVec 8)}
    (same : ∀ i < count, m.byte (uadd a i) = byte (uadd a i)) :
    m.value a count = valueOf byte a count := by
  induction count with
  | zero => rfl
  | succ count ih =>
    rw [value, valueOf, ih fun i less => same i (Nat.lt_succ_of_lt less),
      same count (Nat.lt_succ_self count)]

/-- How large a number can be. -/
theorem value_lt {value : Nat} (reads : m.value a count = some value) : value < 256 ^ count := by
  induction count generalizing value with
  | zero =>
    cases reads
    decide
  | succ count ih =>
    rw [Machine.value] at reads
    obtain ⟨low, lowRead, reads⟩ := Option.bind_eq_some_iff.mp reads
    obtain ⟨high, _, reads⟩ := Option.bind_eq_some_iff.mp reads
    cases reads
    have below := ih lowRead
    have digit : high.toNat ≤ 255 := Nat.le_of_lt_succ high.isLt
    calc low + 256 ^ count * high.toNat
        < 256 ^ count + 256 ^ count * 255 :=
          Nat.add_lt_add_of_lt_of_le below (Nat.mul_le_mul_left _ digit)
      _ = 256 ^ (count + 1) := by
          rw [Nat.pow_succ]
          omega

/-- What a store does. -/
theorem store_eq_some : m.store a v = some m' ↔
    ∃ q, m.translate a = some q ∧ m' = { m with physical := Function.update m.physical q v } := by
  rw [store, Option.map_eq_some_iff]
  simp only [eq_comm]

/-- Nothing is stored yet. -/
theorem StoresOnly.nothing (m : Machine) (t : Nat) : StoresOnly m m t 0 :=
  ⟨.refl m, fun _ _ => rfl⟩

/-- One more byte is stored. -/
theorem StoresOnly.snoc (first : StoresOnly m m' t count)
    (stored : m'.store (uadd t count) v = some m'') : StoresOnly m m'' t (count + 1) := by
  obtain ⟨place, found, rfl⟩ := store_eq_some.mp stored
  rw [first.same.translate] at found
  refine ⟨⟨first.same.paging, first.same.directory⟩, fun q outside => ?_⟩
  have other : q ≠ place := by
    rintro rfl
    exact outside count (Nat.lt_succ_self count) found
  exact (Function.update_of_ne other ..).trans
    (first.kept q fun i less => outside i (Nat.lt_succ_of_lt less))

/-- `memcpy` stores behind its target only. -/
theorem memcpy_frame (copied : memcpy t s count m = some m') : StoresOnly m m' t count := by
  induction count generalizing m' with
  | zero =>
    cases copied
    exact .nothing m t
  | succ count ih =>
    rw [memcpy] at copied
    obtain ⟨between, first, rest⟩ := Option.bind_eq_some_iff.mp copied
    obtain ⟨v, _, stored⟩ := Option.bind_eq_some_iff.mp rest
    exact (ih first).snoc stored

/-- `memcpy` returns if and only if there is memory behind all of its addresses. -/
theorem memcpy_isSome : (memcpy t s count m).isSome ↔ m.Mapped t count ∧ m.Mapped s count := by
  induction count with
  | zero =>
    exact iff_of_true rfl ⟨fun _ less => absurd less (Nat.not_lt_zero _),
      fun _ less => absurd less (Nat.not_lt_zero _)⟩
  | succ count ih =>
    rw [Mapped, Mapped, Nat.forall_lt_succ_right, Nat.forall_lt_succ_right, and_and_and_comm,
      ← Mapped, ← Mapped, ← ih, memcpy]
    cases copied : memcpy t s count m with
    | none => exact iff_of_false (by simp) fun both => absurd both.1 (by simp)
    | some between =>
      have same := (memcpy_frame copied).same
      rw [← same.translate, ← same.translate (uadd s count), ← @byte_isSome between (uadd s count)]
      change ((between.byte (uadd s count)).bind fun v => between.store (uadd t count) v).isSome ↔ _
      unfold store
      cases between.byte (uadd s count) with
      | none => exact iff_of_false (by simp) fun both => absurd both.2.2 (by simp)
      | some v => simp

/-- The bytes that `memcpy` has copied, when no byte of the target is behind another one or
behind the source. -/
theorem memcpy_stored (copied : memcpy t s count m = some m')
    (single : ∀ i < count, ∀ j < count,
      m.translate (uadd t i) = m.translate (uadd t j) → i = j)
    (apart : ∀ i < count, ∀ j < count, m.translate (uadd t i) ≠ m.translate (uadd s j))
    (inside : n < count) : m'.byte (uadd t n) = m.byte (uadd s n) := by
  induction count generalizing m' with
  | zero => cases inside
  | succ count ih =>
    have last := Nat.lt_succ_self count
    rw [memcpy] at copied
    obtain ⟨between, first, rest⟩ := Option.bind_eq_some_iff.mp copied
    obtain ⟨v, reads, stored⟩ := Option.bind_eq_some_iff.mp rest
    obtain ⟨place, found, rfl⟩ := store_eq_some.mp stored
    obtain ⟨same, kept⟩ := memcpy_frame first
    rw [same.translate] at found
    have source : between.byte (uadd s count) = m.byte (uadd s count) := by
      refine byte_congr (same.translate _) fun q behind => kept q fun i less => ?_
      rw [← behind]
      exact apart i (Nat.lt_succ_of_lt less) count last
    rw [source] at reads
    by_cases here : n = count
    · rw [here, reads, byte]
      change Option.map _ (between.translate (uadd t count)) = some v
      rw [same.translate, found]
      exact congrArg some (Function.update_self ..)
    · have earlier : n < count := by omega
      rw [← ih first
        (fun i less j less' => single i (Nat.lt_succ_of_lt less) j (Nat.lt_succ_of_lt less'))
        (fun i less j less' => apart i (Nat.lt_succ_of_lt less) j (Nat.lt_succ_of_lt less'))
        earlier]
      refine byte_congr rfl fun q behind => Function.update_of_ne ?_ ..
      rintro rfl
      rw [same.translate] at behind
      exact here (single n (Nat.lt_succ_of_lt earlier) count last (behind.trans found.symm))

/-- The byte at an address after so many bytes have been copied, the first one first: where the
target begins inside of the source, its first bytes are copied again and again. -/
def byteAfterCopy (m : Machine) (t s count a : Nat) : Option (BitVec 8) :=
  if usub a t < count then m.byte (uadd s (usub a t % usub t s)) else m.byte a

/-- The byte that is copied next is one of those of before. -/
theorem byteAfterCopy_source (target : t < uintWidth) (start : s < uintWidth)
    (fits : count < uintWidth) :
    m.byteAfterCopy t s count (uadd s count) = m.byte (uadd s (count % usub t s)) := by
  have range : usub t s < uintWidth := Nat.mod_lt _ (by decide)
  have behind (passed : usub t s ≤ count) : usub (uadd s count) t = count - usub t s := by
    simp only [usub, uadd, uintWidth] at *
    omega
  have ahead (more : count < usub t s) : usub (uadd s count) t = uintWidth + count - usub t s := by
    simp only [usub, uadd, uintWidth] at *
    omega
  unfold byteAfterCopy
  generalize usub t s = period at *
  by_cases passed : period ≤ count
  · rw [behind passed, Nat.mod_eq_sub_mod passed]
    by_cases null : period = 0
    · rw [if_neg (by omega), null, Nat.sub_zero, Nat.mod_zero]
    · rw [if_pos (by omega)]
  · rw [ahead (by omega), if_neg (by omega), Nat.mod_eq_of_lt (by omega)]

/-- `memcpy` leaves what the bytes before tell, in pages that have frames. -/
theorem memcpy_byte (sound : m.Sound) (target : t < uintWidth) (start : s < uintWidth)
    (copied : memcpy t s count m = some m') (fits : count ≤ uintWidth)
    (source : ∀ j < count, (m.page (uadd s j / frameSize)).frame ≠ 0)
    (inRange : a < uintWidth) (held : (m.page (a / frameSize)).frame ≠ 0) :
    m'.byte a = m.byteAfterCopy t s count a := by
  induction count generalizing m' a with
  | zero =>
    cases copied
    exact (if_neg (Nat.not_lt_zero _)).symm
  | succ count ih =>
    rw [memcpy] at copied
    obtain ⟨between, first, rest⟩ := Option.bind_eq_some_iff.mp copied
    obtain ⟨v, reads, stored⟩ := Option.bind_eq_some_iff.mp rest
    obtain ⟨place, found, rfl⟩ := store_eq_some.mp stored
    obtain ⟨same, _⟩ := memcpy_frame first
    have before {b : Nat} := @ih between b first (Nat.le_of_succ_le fits) fun j less =>
      source j (Nat.lt_succ_of_lt less)
    rw [before (uadd_lt ..) (source count (Nat.lt_succ_self _)),
      byteAfterCopy_source target start fits] at reads
    rw [same.translate] at found
    by_cases here : usub a t = count
    · have there : uadd t count = a := by
        simp only [usub, uadd, uintWidth] at *
        omega
      rw [byteAfterCopy, if_pos (by omega), here, reads, byte]
      change Option.map _ (between.translate a) = some v
      rw [same.translate, ← there, found]
      exact congrArg some (Function.update_self ..)
    · have other : m.byteAfterCopy t s (count + 1) a = m.byteAfterCopy t s count a := by
        unfold byteAfterCopy
        by_cases inside : usub a t < count
        · rw [if_pos inside, if_pos (by omega)]
        · rw [if_neg inside, if_neg (by omega)]
      rw [other, ← before inRange held]
      refine byte_congr rfl fun q behind => Function.update_of_ne ?_ ..
      rintro rfl
      rw [same.translate] at behind
      have equal := sound.translate_inj held behind found
      apply here
      rw [equal]
      simp only [usub, uadd, uintWidth] at *
      omega

/-- `memset` stores behind its target only. -/
theorem memset_frame (filled : memset t v count m = some m') : StoresOnly m m' t count := by
  induction count generalizing m' with
  | zero =>
    cases filled
    exact .nothing m t
  | succ count ih =>
    rw [memset] at filled
    obtain ⟨between, first, stored⟩ := Option.bind_eq_some_iff.mp filled
    exact (ih first).snoc stored

/-- `memset` returns if and only if there is memory behind its target. -/
theorem memset_isSome : (memset t v count m).isSome ↔ m.Mapped t count := by
  induction count with
  | zero => exact iff_of_true rfl fun _ less => absurd less (Nat.not_lt_zero _)
  | succ count ih =>
    rw [Mapped, Nat.forall_lt_succ_right, ← Mapped, ← ih, memset]
    cases filled : memset t v count m with
    | none => exact iff_of_false (by simp) fun both => absurd both.1 (by simp)
    | some between =>
      rw [← (memset_frame filled).same.translate]
      change (between.store (uadd t count) v).isSome ↔ _
      unfold store
      simp

/-! ## Making pages -/

/-- The number that `alloc_frame` records in a page. -/
def nextFrame (m : Machine) : Nat := m.paging.firstFrame % frameNumbers

/-- The number is not 0, and if it is one of a frame of memory, then of a free one. -/
theorem Sound.nextFrame (sound : m.Sound) :
    m.nextFrame ≠ 0 ∧ (m.nextFrame < m.paging.framecount →
      m.nextFrame = m.paging.firstFrame ∧ ¬m.paging.marked m.nextFrame) := by
  have small := sound.small
  unfold Machine.nextFrame
  rcases m.paging.firstFrame_spec with none | ⟨inside, free⟩
  · rw [none]
    have number : noFrame % frameNumbers = 0xFFFFF := by decide
    rw [number]
    exact ⟨by decide, fun inside => absurd inside (by
      simp only [frameNumbers] at small
      omega)⟩
  · have number : m.paging.firstFrame % frameNumbers = m.paging.firstFrame :=
      Nat.mod_eq_of_lt (by omega)
    rw [number]
    refine ⟨fun zero => ?_, fun _ => ⟨rfl, free⟩⟩
    rw [zero] at free
    exact free sound.reserved

section MakePage

variable (sound : m.Sound) (blocks : PageBlocks) (inRange : a < uintWidth)

include sound inRange

/-- The pages after `make_page`. -/
theorem Sound.makePage_page (n : Nat) : (m.makePage blocks a).page n =
    if n = a / frameSize ∧ (m.page n).frame = 0 then
      { flags := userFlags % pageFlags, frame := m.nextFrame }
    else m.page n :=
  (Paging.makePage_made sound.invariant blocks inRange userFlags sound.live).pages n

/-- A page that has a frame is kept. -/
theorem Sound.makePage_held (held : (m.page n).frame ≠ 0) :
    (m.makePage blocks a).page n = m.page n := by
  rw [sound.makePage_page blocks inRange, if_neg fun both => held both.2]

omit inRange in
/-- Then nothing else changes. -/
theorem Sound.makePage_of_held (held : (m.page (a / frameSize)).frame ≠ 0) :
    m.makePage blocks a = m := by
  have linked := sound.invariant.linked
  have table : m.paging.tableOf m.directory (a / frameSize / tableEntries) ≠ 0 := by
    intro null
    have missing : m.paging.table.lookup 0 = none := AList.lookup_eq_none.mpr linked.null
    refine held ?_
    rw [page, Paging.pageNo, Paging.entryOf, null, Paging.pageAt, missing]
    rfl
  have present := (linked.present _ _).mpr table
  have same : (m.paging.makePage blocks a userFlags m.directory true).1 = m.paging := by
    rw [Paging.makePage, if_neg present]
    exact if_pos held
  rw [makePage, same]

/-- Frames of memory that are free before `make_page`. -/
theorem Sound.makePage_free : (m.makePage blocks a).paging.freeFrames =
    if (m.page (a / frameSize)).frame = 0 then m.paging.freeFrames.tail
    else m.paging.freeFrames :=
  (Paging.makePage_made sound.invariant blocks inRange userFlags sound.live).free

/-- Memory does not grow. -/
theorem Sound.makePage_framecount :
    (m.makePage blocks a).paging.framecount = m.paging.framecount :=
  (Paging.makePage_made sound.invariant blocks inRange userFlags sound.live).framecount

/-- `make_page` keeps a machine sound. -/
theorem Sound.makePage : (m.makePage blocks a).Sound := by
  have made := Paging.makePage_made sound.invariant blocks inRange userFlags sound.live
  have pages := sound.makePage_page blocks inRange
  have count := sound.makePage_framecount blocks inRange
  have next := sound.nextFrame
  have marks (frame : Nat) : (m.makePage blocks a).paging.marked frame ↔
      (m.page (a / frameSize)).frame = 0 ∧ frame = m.paging.firstFrame ∨
        m.paging.marked frame := made.marks frame
  -- a page that the call has given a frame of memory got a free one
  have fresh (n n' : Nat) (given : n = a / frameSize ∧ (m.page n).frame = 0)
      (inside : m.nextFrame < m.paging.framecount) (other : n' ≠ n)
      (same : ((m.makePage blocks a).page n').frame = m.nextFrame) : False := by
    have elsewhere : ¬(n' = a / frameSize ∧ (m.page n').frame = 0) :=
      fun both => other (both.1.trans given.1.symm)
    rw [pages, if_neg elsewhere] at same
    have free := (next.2 inside).2
    rw [← same] at free inside next
    exact free (sound.marked n' next.1 inside)
  refine ⟨sound.invariant.makePage blocks inRange userFlags sound.live true, ?_,
    fun n n' nonzero inside same => ?_, fun n nonzero inside => ?_, ?_, ?_, fun n nonzero => ?_⟩
  · exact (Paging.mem_directory_makePage ..).mpr sound.live
  · rw [count] at inside
    by_contra differ
    by_cases first : n = a / frameSize ∧ (m.page n).frame = 0
    · have here := pages n
      rw [if_pos first] at here
      rw [here] at inside same
      exact fresh n n' first inside (Ne.symm differ) same.symm
    · by_cases second : n' = a / frameSize ∧ (m.page n').frame = 0
      · have here := pages n'
        rw [if_pos second] at here
        rw [same, here] at inside
        rw [here] at same
        exact fresh n' n second inside differ same
      · rw [pages n, if_neg first] at nonzero inside same
        rw [pages n', if_neg second] at same
        exact differ (sound.distinct n n' nonzero inside same)
  · rw [count] at inside
    rw [marks]
    have here := pages n
    by_cases given : n = a / frameSize ∧ (m.page n).frame = 0
    · rw [if_pos given] at here
      rw [here] at inside ⊢
      exact .inl ⟨given.1 ▸ given.2, (next.2 inside).1⟩
    · rw [if_neg given] at here
      rw [here] at nonzero inside ⊢
      exact .inr (sound.marked n nonzero inside)
  · exact (marks 0).mpr (.inr sound.reserved)
  · rw [count]
    exact sound.small
  · have here := pages n
    by_cases given : n = a / frameSize ∧ (m.page n).frame = 0
    · rw [here, if_pos given]
      change userFlags % pageFlags &&& pageFlagPresent ≠ 0
      decide
    · rw [if_neg given] at here
      rw [here] at nonzero ⊢
      exact sound.present n nonzero

end MakePage

/-- Nothing changed. -/
theorem Grown.refl (sound : m.Sound) : Grown m m := ⟨rfl, rfl, rfl, fun _ _ => rfl, sound⟩

/-- Two growths. -/
theorem Grown.trans (first : Grown m m') (second : Grown m' m'') : Grown m m'' where
  directory := second.directory.trans first.directory
  physical := second.physical.trans first.physical
  framecount := second.framecount.trans first.framecount
  held n held := by
    have same := first.held n held
    rw [second.held n (same ▸ held), same]
  sound := second.sound

/-- `make_page` lets the page tables grow. -/
theorem Sound.grows (sound : m.Sound) (blocks : PageBlocks) (inRange : a < uintWidth) :
    Grown m (m.makePage blocks a) where
  directory := rfl
  physical := rfl
  framecount := sound.makePage_framecount blocks inRange
  held _ held := sound.makePage_held blocks inRange held
  sound := sound.makePage blocks inRange

end Machine

end Nupkux
