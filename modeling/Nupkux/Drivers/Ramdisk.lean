import Mathlib.Data.List.Induction
import Nupkux.Types

/-!
# The RAM disk

`ramdisk_request` copies sectors between the disk and a buffer. Both are blocks of bytes here, with
a record of the spans of each that a request touches. The range of a request is cut at the end of
the disk, and a sum that wraps is not seen to go past it.
-/

namespace Nupkux.Ramdisk

/-- `RAMDISK_SECTOR_SIZE`. -/
def ramdiskSectorSize : Nat := 512

/-- `RAMDISK_SECTOR_COUNT`. -/
def ramdiskSectorCount : Nat := 2880

/-- `REQUEST_READ`. -/
def requestRead : Int := 0x2EAD

/-- `REQUEST_WRITE`. -/
def requestWrite : Int := 0x217E

/-- The bytes from a pointer on. -/
abbrev Bytes := Nat → UInt8

/-- So many bytes from an offset on. -/
structure Span where
  /-- The first byte. -/
  start : Nat
  /-- How many there are. -/
  size : Nat
  deriving DecidableEq

/-- The span is inside a block of a size. -/
def Span.Within (span : Span) (size : Nat) : Prop := ∀ j < span.size, span.start + j < size

/-- What a request leaves of the disk and the buffer, and what it touches of them. -/
structure Transfer where
  /-- `node->u.devfs_i->pdata`. -/
  disk : Bytes
  /-- `buffer`. -/
  buffer : Bytes
  /-- The spans of the disk that are read or written. -/
  diskTouched : List Span
  /-- The spans of the buffer that are read or written. -/
  bufferTouched : List Span

/-- `memcpy(target + start, src + origin, count)`, between two blocks. -/
def memcpy (target : Bytes) (start : Nat) (src : Bytes) (origin count : Nat) : Bytes := fun j =>
  if start ≤ j ∧ j < start + count then src (origin + (j - start)) else target j

/-- The `switch` of `ramdisk_request`. -/
def transfer (disk buffer : Bytes) (cmd : Int) (off size : Nat) : Transfer :=
  if cmd = requestRead then
    ⟨disk, memcpy buffer 0 disk off size, [⟨off, size⟩], [⟨0, size⟩]⟩
  else if cmd = requestWrite then
    ⟨memcpy disk off buffer 0 size, buffer, [⟨off, size⟩], [⟨0, size⟩]⟩
  else ⟨disk, buffer, [], []⟩

/-- `count` once the range is cut at the end of the disk. -/
def clampedCount (sector count : Nat) : Nat :=
  if uadd sector count > ramdiskSectorCount then usub ramdiskSectorCount sector else count

/-- `ramdisk_request` between the lock and the unlock of the device, with its result. -/
def ramdiskRequest (disk buffer : Bytes) (cmd : Int) (sector count : Nat) : Transfer × Int :=
  if sector > ramdiskSectorCount then (⟨disk, buffer, [], []⟩, 0)
  else
    let size := umul (clampedCount sector count) ramdiskSectorSize
    let off := umul sector ramdiskSectorSize
    (transfer disk buffer cmd off size, toInt (clampedCount sector count))

/-- `setup_ramdisk`: the disk of `calloc`. -/
def setupRamdisk : Bytes := fun _ => 0

/-- How many sectors of a request are on the disk. -/
def available (sector count : Nat) : Nat :=
  if sector > ramdiskSectorCount then 0 else min count (ramdiskSectorCount - sector)

/-- A request transfers the sectors it has on the disk and touches nothing else. -/
structure StaysOnDisk (disk buffer : Bytes) (cmd : Int) (sector count : Nat) : Prop where
  result : (ramdiskRequest disk buffer cmd sector count).2 = available sector count
  ofDisk : ∀ span ∈ (ramdiskRequest disk buffer cmd sector count).1.diskTouched,
    span.Within (ramdiskSectorCount * ramdiskSectorSize)
  ofBuffer : ∀ span ∈ (ramdiskRequest disk buffer cmd sector count).1.bufferTouched,
    span.Within (ramdiskSectorSize * available sector count)

/-- The end of the range is a ULONG, or its start is refused. -/
def EndsInRange (sector count : Nat) : Prop :=
  sector > ramdiskSectorCount ∨ sector + count < uintWidth

/-- The arguments of a request. -/
structure Request where
  cmd : Int
  sector : Nat
  count : Nat
  buffer : Bytes

/-- A request writes to a sector. -/
def Request.Writes (request : Request) (s : Nat) : Prop :=
  request.cmd = requestWrite ∧ request.sector ≤ s ∧ s < request.sector + request.count

instance (request : Request) (s : Nat) : Decidable (request.Writes s) :=
  inferInstanceAs (Decidable (_ ∧ _ ∧ _))

/-- The disk after the requests of a list, the first one first. -/
def diskAfter (requests : List Request) : Bytes :=
  requests.foldl (fun disk request =>
    (ramdiskRequest disk request.buffer request.cmd request.sector request.count).1.disk)
    setupRamdisk

/-- A byte of a sector as it was written last, or zero. -/
def lastWritten (requests : List Request) (s i : Nat) : UInt8 :=
  match requests.reverse.find? (fun request => decide (request.Writes s)) with
  | some request => request.buffer (ramdiskSectorSize * (s - request.sector) + i)
  | none => 0

variable {disk buffer : Bytes} {cmd : Int} {sector count off size s i : Nat}

/-- The range that is left of one that ends in range. -/
theorem clampedCount_eq (onDisk : sector ≤ ramdiskSectorCount) (ends : sector + count < uintWidth) :
    clampedCount sector count = available sector count := by
  have small : ramdiskSectorCount < uintWidth := by decide
  rw [clampedCount, available, uadd_of_lt ends, usub_of_le onDisk small,
    if_neg (Nat.not_lt.mpr onDisk)]
  split <;> omega

/-- A range that wraps is left as it is. -/
theorem clampedCount_of_wraps (onDisk : sector ≤ ramdiskSectorCount) (small : count < uintWidth)
    (wraps : uintWidth ≤ sector + count) : clampedCount sector count = count := by
  rw [clampedCount, uadd, if_neg]
  simp only [ramdiskSectorCount, uintWidth] at *
  omega

/-- A product with the size of a sector that is a UINT. -/
theorem umul_sectorSize (onDisk : s ≤ ramdiskSectorCount) :
    umul s ramdiskSectorSize = ramdiskSectorSize * s := by
  rw [umul_of_lt, Nat.mul_comm]
  simp only [ramdiskSectorCount, ramdiskSectorSize, uintWidth] at *
  omega

/-- What is available ends on the disk. -/
theorem available_le (onDisk : sector ≤ ramdiskSectorCount) (count : Nat) :
    sector + available sector count ≤ ramdiskSectorCount := by
  rw [available, if_neg (Nat.not_lt.mpr onDisk)]
  omega

/-- A request past the end of the disk does nothing. -/
theorem ramdiskRequest_past (past : sector > ramdiskSectorCount) :
    ramdiskRequest disk buffer cmd sector count = (⟨disk, buffer, [], []⟩, 0) := if_pos past

/-- A request whose range ends in range transfers what is available of it. -/
theorem ramdiskRequest_eq (onDisk : sector ≤ ramdiskSectorCount)
    (ends : sector + count < uintWidth) :
    ramdiskRequest disk buffer cmd sector count =
      (transfer disk buffer cmd (ramdiskSectorSize * sector)
        (ramdiskSectorSize * available sector count), (available sector count : Int)) := by
  have fits := available_le onDisk count
  have result : toInt (available sector count) = available sector count := by
    simp only [toInt, ramdiskSectorCount] at *
    omega
  simp only [ramdiskRequest, if_neg (Nat.not_lt.mpr onDisk), clampedCount_eq onDisk ends,
    umul_sectorSize onDisk, umul_sectorSize (Nat.le_trans (Nat.le_add_left _ _) fits), result]

/-- The bytes that are copied. -/
theorem memcpy_of_mem {target src : Bytes} {start origin j : Nat} (low : start ≤ j)
    (high : j < start + count) :
    memcpy target start src origin count j = src (origin + (j - start)) := if_pos ⟨low, high⟩

/-- The bytes around them. -/
theorem memcpy_of_not_mem {target src : Bytes} {start origin j : Nat}
    (outside : ¬(start ≤ j ∧ j < start + count)) :
    memcpy target start src origin count j = target j := if_neg outside

/-- A write copies to the disk. -/
theorem disk_transfer_write :
    (transfer disk buffer requestWrite off size).disk = memcpy disk off buffer 0 size := rfl

/-- Another command leaves the disk alone. -/
theorem disk_transfer (other : cmd ≠ requestWrite) :
    (transfer disk buffer cmd off size).disk = disk := by
  unfold transfer
  rw [if_neg other]
  split <;> rfl

/-- What a transfer touches. -/
theorem touched_transfer {span : Span}
    (member : span ∈ (transfer disk buffer cmd off size).diskTouched) : span = ⟨off, size⟩ := by
  unfold transfer at member
  split at member
  · exact List.mem_singleton.mp member
  · split at member
    · exact List.mem_singleton.mp member
    · cases member

/-- The buffer is touched from its start on. -/
theorem bufferTouched_transfer {span : Span}
    (member : span ∈ (transfer disk buffer cmd off size).bufferTouched) : span = ⟨0, size⟩ := by
  unfold transfer at member
  split at member
  · exact List.mem_singleton.mp member
  · split at member
    · exact List.mem_singleton.mp member
    · cases member

/-- A request that ends in range stays on the disk. -/
theorem staysOnDisk_of_ends (ends : EndsInRange sector count) :
    StaysOnDisk disk buffer cmd sector count := by
  by_cases past : sector > ramdiskSectorCount
  · have nothing : available sector count = 0 := if_pos past
    constructor
    · rw [ramdiskRequest_past past, nothing]
      rfl
    · intro span member
      rw [ramdiskRequest_past past] at member
      cases member
    · intro span member
      rw [ramdiskRequest_past past] at member
      cases member
  · have onDisk := Nat.not_lt.mp past
    have whole : ramdiskRequest disk buffer cmd sector count = _ :=
      ramdiskRequest_eq onDisk (ends.resolve_left past)
    have fits := available_le onDisk count
    constructor
    · rw [whole]
    · intro span member j below
      rw [whole] at member
      rw [touched_transfer member] at below ⊢
      simp only [ramdiskSectorSize] at below ⊢
      omega
    · intro span member j below
      rw [whole] at member
      rw [bufferTouched_transfer member] at below ⊢
      simpa using below

/-- A request whose range wraps answers with a number that is negative. -/
theorem not_staysOnDisk_of_wraps (onDisk : sector ≤ ramdiskSectorCount)
    (small : count < uintWidth) (wraps : uintWidth ≤ sector + count) :
    ¬StaysOnDisk disk buffer cmd sector count := by
  intro stays
  have result := stays.result
  rw [ramdiskRequest, if_neg (Nat.not_lt.mpr onDisk)] at result
  have answer : toInt count = available sector count := by
    rw [← result, clampedCount_of_wraps onDisk small wraps]
  simp only [toInt, ramdiskSectorCount, uintWidth] at *
  omega

/-- A byte of a sector of the disk after a request. -/
theorem disk_ramdiskRequest (ends : EndsInRange sector count) (inside : s < ramdiskSectorCount)
    (offset : i < ramdiskSectorSize) :
    (ramdiskRequest disk buffer cmd sector count).1.disk (ramdiskSectorSize * s + i) =
      if cmd = requestWrite ∧ sector ≤ s ∧ s < sector + count then
        buffer (ramdiskSectorSize * (s - sector) + i)
      else disk (ramdiskSectorSize * s + i) := by
  by_cases past : sector > ramdiskSectorCount
  · rw [ramdiskRequest_past past, if_neg (by omega)]
  · have onDisk := Nat.not_lt.mp past
    rw [ramdiskRequest_eq onDisk (ends.resolve_left past)]
    by_cases write : cmd = requestWrite
    · subst write
      rw [disk_transfer_write]
      have range : available sector count = min count (ramdiskSectorCount - sector) := if_neg past
      by_cases within : sector ≤ s ∧ s < sector + count
      · have position : 0 + (ramdiskSectorSize * s + i - ramdiskSectorSize * sector) =
            ramdiskSectorSize * (s - sector) + i := by
          simp only [ramdiskSectorSize]
          omega
        have below : s < sector + available sector count := by omega
        rw [if_pos ⟨rfl, within⟩, memcpy_of_mem, position]
        · simp only [ramdiskSectorSize]
          omega
        · simp only [ramdiskSectorSize] at *
          omega
      · rw [if_neg fun both => within both.2, memcpy_of_not_mem]
        simp only [ramdiskSectorSize] at *
        omega
    · rw [disk_transfer write, if_neg fun both => write both.1]

/-- A byte of a sector of the buffer after a read. -/
theorem buffer_ramdiskRequest (onDisk : sector ≤ ramdiskSectorCount)
    (ends : sector + count < uintWidth) (from_ : sector ≤ s)
    (below : s < sector + available sector count) (offset : i < ramdiskSectorSize) :
    (ramdiskRequest disk buffer requestRead sector count).1.buffer
        (ramdiskSectorSize * (s - sector) + i) = disk (ramdiskSectorSize * s + i) := by
  have position : ramdiskSectorSize * sector + (ramdiskSectorSize * (s - sector) + i - 0) =
      ramdiskSectorSize * s + i := by
    simp only [ramdiskSectorSize]
    omega
  have copied : (transfer disk buffer requestRead (ramdiskSectorSize * sector)
      (ramdiskSectorSize * available sector count)).buffer =
      memcpy buffer 0 disk (ramdiskSectorSize * sector)
        (ramdiskSectorSize * available sector count) := rfl
  rw [ramdiskRequest_eq onDisk ends, copied, memcpy_of_mem (Nat.zero_le _), position]
  simp only [ramdiskSectorSize] at *
  omega

/-- One more request. -/
theorem diskAfter_concat (requests : List Request) (request : Request) :
    diskAfter (requests ++ [request]) =
      (ramdiskRequest (diskAfter requests) request.buffer request.cmd request.sector
        request.count).1.disk := by
  rw [diskAfter, List.foldl_append]
  rfl

/-- One more request writes last. -/
theorem lastWritten_concat (requests : List Request) (request : Request) (s i : Nat) :
    lastWritten (requests ++ [request]) s i =
      if request.Writes s then request.buffer (ramdiskSectorSize * (s - request.sector) + i)
      else lastWritten requests s i := by
  rw [lastWritten, List.reverse_append, List.reverse_singleton, List.singleton_append]
  by_cases writes : request.Writes s
  · have found : decide (request.Writes s) = true := decide_eq_true writes
    simp only [List.find?_cons, found, if_pos writes]
  · have other : decide (request.Writes s) = false := decide_eq_false writes
    simp only [List.find?_cons, other, if_neg writes, lastWritten]

/-- After requests that end in range, every byte of the disk is as it was written last. -/
theorem diskAfter_eq {requests : List Request}
    (ends : ∀ request ∈ requests, EndsInRange request.sector request.count)
    (inside : s < ramdiskSectorCount) (offset : i < ramdiskSectorSize) :
    diskAfter requests (ramdiskSectorSize * s + i) = lastWritten requests s i := by
  induction requests using List.reverseRecOn with
  | nil => rfl
  | append_singleton requests request ih =>
    have before := ih fun r member => ends r (List.mem_append_left _ member)
    have last := ends request (List.mem_append_right _ (List.mem_singleton_self _))
    rw [diskAfter_concat, lastWritten_concat, disk_ramdiskRequest last inside offset, before]
    rfl

/-- A request stays on the disk if and only if it is refused or its range ends in range. Reading
such a range back after requests of that kind gives what was written last. -/
theorem ramdiskRequest_iff (disk buffer : Bytes) (cmd : Int) {sector count : Nat}
    (requests : List Request) (small : count < uintWidth) :
    (StaysOnDisk disk buffer cmd sector count ↔ EndsInRange sector count) ∧
      ((∀ request ∈ requests, EndsInRange request.sector request.count) →
        EndsInRange sector count →
        ∀ s, sector ≤ s → s < sector + available sector count → ∀ i < ramdiskSectorSize,
          (ramdiskRequest (diskAfter requests) buffer requestRead sector count).1.buffer
            (ramdiskSectorSize * (s - sector) + i) = lastWritten requests s i) := by
  constructor
  · constructor
    · intro stays
      by_contra wraps
      have onDisk := Nat.not_lt.mp fun past => wraps (.inl past)
      have pastEnd := Nat.not_lt.mp fun below => wraps (.inr below)
      exact not_staysOnDisk_of_wraps onDisk small pastEnd stays
    · exact staysOnDisk_of_ends
  · intro ends last s from_ below i offset
    by_cases past : sector > ramdiskSectorCount
    · rw [available, if_pos past] at below
      omega
    · have onDisk := Nat.not_lt.mp past
      have fits := available_le onDisk count
      rw [buffer_ramdiskRequest onDisk (last.resolve_left past) from_ below offset,
        diskAfter_eq ends (Nat.lt_of_lt_of_le below fits) offset]

/-- A write of five sectors from the last one on, and what is read of it from the one before. -/
theorem ramdiskRequest_last :
    StaysOnDisk setupRamdisk setupRamdisk requestWrite 2879 5 ∧
    (ramdiskRequest (diskAfter [⟨requestWrite, 2879, 5, fun _ => 7⟩]) setupRamdisk requestRead 2878
      4).1.buffer (ramdiskSectorSize * (2879 - 2878) + 1) = 7 := by
  have wholly : ∀ request ∈ [(⟨requestWrite, 2879, 5, fun _ => 7⟩ : Request)],
      EndsInRange request.sector request.count := by
    intro request member
    rw [List.mem_singleton.mp member]
    exact .inr (by decide)
  constructor
  · exact (ramdiskRequest_iff _ _ _ [] (by decide)).1.mpr (.inr (by decide))
  · rw [(ramdiskRequest_iff setupRamdisk _ requestRead _ (by decide)).2 wholly (.inr (by decide))
      _ (by decide) (by decide) _ (by decide)]
    rfl

/-- A range from the second sector on whose end wraps to the start of the disk. -/
theorem ramdiskRequest_not :
    ¬StaysOnDisk setupRamdisk setupRamdisk requestRead 1 0xFFFFFFFF :=
  not_staysOnDisk_of_wraps (by decide) (by decide) (by decide)

end Nupkux.Ramdisk
