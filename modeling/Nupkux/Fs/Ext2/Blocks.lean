import Mathlib.Tactic.Ring
import Nupkux.Fs.Ext2.Super

/-!
# Where ext2 blocks are read from

`ext2_read_block` counts blocks from the one after the first KiB, at the byte 1024 of the
device. The sectors it asks for are those of the block only if a block has 1024 bytes, and so
are the zeros it stores for block 0 and the buffer on the stack of `read_ext2_sb`.
-/

namespace Nupkux

variable {dev : BlockDevice} {py : Ext2Sb} {access : BlockAccess} {stack buf : Bytes}
  {heap : Int → BitVec 8} {r : SuperRead} {call : BlockRead} {b i k : Nat}

/-- `ext2_read_block` asks for the sectors of the `size` bytes of a block and fills as much of
its buffer with them. -/
structure ReadsBlock (dev : BlockDevice) (access : BlockAccess) (size b : Nat) : Prop where
  asks : ext2BlockRequest dev access b = some ⟨b * size / 512, size / 512⟩
  fills : ∀ buffer i, (ext2ReadBlock dev access b buffer).2 i =
    if i < size then dev.content (b * size + i) else buffer i

/-- `ext2_read_block` fills its buffer with a block of zeros for block 0. -/
def ZeroesBlock (dev : BlockDevice) (access : BlockAccess) (size : Nat) : Prop :=
  ∀ buffer i, (ext2ReadBlock dev access 0 buffer).2 i = if i < size then 0 else buffer i

/-- Block 0 is 1024 zeros. -/
theorem zeroesBlock_iff {size : Nat} : ZeroesBlock dev access size ↔ size = 1024 := by
  have filled (buffer : Bytes) (i : Nat) :
      (ext2ReadBlock dev access 0 buffer).2 i = if i < 1024 then 0 else buffer i := by
    simp only [ext2ReadBlock_zero, Bytes.fill, Nat.zero_le, true_and, Nat.zero_add]
  constructor
  · intro zeroes
    -- a buffer of ones shows where the zeros end
    have last (i : Nat) : i < 1024 ↔ i < size := by
      have value := zeroes (fun _ => 1) i
      rw [filled] at value
      by_cases first : i < 1024
      · by_cases second : i < size
        · exact iff_of_true first second
        · rw [if_pos first, if_neg second] at value
          cases value
      · by_cases second : i < size
        · rw [if_neg first, if_pos second] at value
          cases value
        · exact iff_of_false first second
    have low := last 1023
    have high := last 1024
    omega
  · intro same buffer i
    rw [filled, same]

/-- The sector and the number of sectors that are asked for, for a block of `2 * n` sectors
that the device has. -/
theorem ext2BlockRequest_of_sectors {n : Nat} (sectors : dev.bsize = 512) (block : b ≠ 0)
    (size : access.blocksize = 1024 * n) (skip : access.skipBytes = 1024)
    (within : b * (2 * n) < uintWidth) (small : 2 * n < uintWidth) (some_sectors : 0 < n) :
    ext2BlockRequest dev access b = some ⟨(b - 1) * (2 * n) + 2, 2 * n⟩ := by
  have quotient : 1024 * n / 512 = 2 * n := by omega
  have before : (b - 1) * (2 * n) + 2 * n = b * (2 * n) := by
    rw [← Nat.succ_mul, Nat.succ_eq_add_one, Nat.sub_add_cancel (Nat.pos_of_ne_zero block)]
  have product : umul (b - 1) (2 * n) = (b - 1) * (2 * n) := umul_of_lt (by omega)
  have sum : uadd ((b - 1) * (2 * n)) 2 = (b - 1) * (2 * n) + 2 := uadd_of_lt (by omega)
  have count : umul 1 (2 * n) = 2 * n := by rw [umul_of_lt (by omega), Nat.one_mul]
  simp only [ext2BlockRequest, if_neg block, fsReadRequest, sectors, size, skip, quotient,
    product, count]
  exact congrArg _ (congrArg (SectorRequest.mk · _) sum)

/-- The byte a block of 1 KiB starts at. -/
def blockByte (b : Nat) : Nat := b * 1024

/-- The sectors that are asked for, for a block of 1 KiB. -/
theorem ext2BlockRequest_kib (sectors : dev.bsize = 512) (block : b ≠ 0)
    (size : access.blocksize = 1024) (skip : access.skipBytes = 1024)
    (within : 2 * b + 2 ≤ dev.bcount) :
    ext2BlockRequest dev access b = some ⟨2 * b, 2⟩ := by
  have small := dev.bcount_lt
  rw [ext2BlockRequest_of_sectors (n := 1) sectors block size skip (by omega) (by decide)
    (by decide)]
  exact congrArg (fun first => some (SectorRequest.mk first 2)) (by omega)

/-- A block of 1 KiB that the driver copies. -/
theorem ext2ReadBlock_kib (sectors : dev.bsize = 512) (block : b ≠ 0)
    (size : access.blocksize = 1024) (skip : access.skipBytes = 1024)
    (within : 2 * b + 2 ≤ dev.bcount) (full : dev.answer ⟨2 * b, 2⟩ = 2) (buffer : Bytes) :
    ext2ReadBlock dev access b buffer =
      (2, fun i => if i < 1024 then dev.content (blockByte b + i) else buffer i) := by
  have address : 2 * b * 512 = blockByte b := by
    unfold blockByte
    omega
  simp only [ext2ReadBlock, ext2BlockRequest_kib sectors block size skip within,
    requestFs_of_full full, sectors, address, Nat.reduceMul, Nat.cast_ofNat]

/-- The blocks of a device are read right if they have 1024 bytes. -/
theorem readsBlock_of_kib (sectors : dev.bsize = 512) (serves : dev.Serves) (block : b ≠ 0)
    (size : access.blocksize = 1024) (skip : access.skipBytes = 1024)
    (within : (b + 1) * 1024 ≤ dev.bcount * 512) : ReadsBlock dev access 1024 b := by
  have inside : 2 * b + 2 ≤ dev.bcount := by omega
  have first : 2 * b = b * 1024 / 512 := by omega
  constructor
  · rw [ext2BlockRequest_kib sectors block size skip inside, first]
  · intro buffer i
    rw [ext2ReadBlock_kib sectors block size skip inside (serves ⟨2 * b, 2⟩ inside)]
    rfl

/-- A block that is larger is not asked for where it lies. -/
theorem asks_of_large (sectors : dev.bsize = 512) (block : b ≠ 0)
    (size : access.blocksize = 1024 * 2 ^ k) (skip : access.skipBytes = 1024)
    (within : (b + 1) * (1024 * 2 ^ k) ≤ dev.bcount * 512)
    (asks : ext2BlockRequest dev access b =
      some ⟨b * (1024 * 2 ^ k) / 512, 1024 * 2 ^ k / 512⟩) : k = 0 := by
  have small := dev.bcount_lt
  have positive : 0 < 2 ^ k := Nat.two_pow_pos k
  have total : (b + 1) * (1024 * 2 ^ k) = 512 * (b * (2 * 2 ^ k)) + 512 * (2 * 2 ^ k) := by ring
  have bytes : b * (1024 * 2 ^ k) = 512 * (b * (2 * 2 ^ k)) := by ring
  have before : (b - 1) * (2 * 2 ^ k) + 2 * 2 ^ k = b * (2 * 2 ^ k) := by
    rw [← Nat.succ_mul, Nat.succ_eq_add_one, Nat.sub_add_cancel (Nat.pos_of_ne_zero block)]
  rw [ext2BlockRequest_of_sectors sectors block size skip (by omega) (by omega) positive] at asks
  have first : (b - 1) * (2 * 2 ^ k) + 2 = b * (1024 * 2 ^ k) / 512 :=
    congrArg SectorRequest.sector (Option.some.inj asks)
  have single : 2 ^ k = 1 := by omega
  exact (Nat.pow_eq_one.mp single).resolve_left (by decide)

/-- The buffers of a group have 1024 bytes or a block of them. -/
theorem readGroup_room (call : BlockRead)
    (member : call ∈ (readGroup dev access py heap i buf).2.2) :
    call.room = 1024 ∨ call.room = access.blocksize := by
  revert call
  dsimp only [readGroup]
  split
  · simp
  · split
    · simp
    · split <;> simp

/-- So do those of all groups. -/
theorem readGroups_room {heap : Nat → Int → BitVec 8} {left : Nat}
    (member : call ∈ (readGroups dev access py heap left i buf).2) :
    call.room = 1024 ∨ call.room = access.blocksize := by
  induction left generalizing i buf with
  | zero => cases member
  | succ left ih =>
    have one : call ∈ (readGroup dev access py (heap i) i buf).2.2 →
        call.room = 1024 ∨ call.room = access.blocksize := readGroup_room call
    rw [readGroups] at member
    rcases same : readGroup dev access py (heap i) i buf with ⟨group, rest, calls⟩
    rw [same] at member one
    cases group with
    | none => exact one member
    | some group =>
      rcases List.mem_append.mp member with here | later
      · exact one here
      · exact ih later

/-- The calls of `read_ext2_sb` give it a buffer of 1024 bytes or of a block, and the first one
gives the one on the stack. -/
theorem readExt2Sb_room {heap : Nat → Int → BitVec 8} {rest : Bytes}
    (record : readSuperRecord dev stack = some (py, rest))
    (ran : readExt2Sb dev stack heap = some r) :
    ⟨1, 1024⟩ ∈ r.calls ∧
      ∀ call ∈ r.calls, call.room = 1024 ∨ call.room = (recordedAccess py).blocksize := by
  have calls : ∃ left, r.calls = [⟨1, 1024⟩] ++
      (readGroups dev (recordedAccess py) py heap left 0 rest).2 := by
    simp only [readExt2Sb, record, Option.bind_eq_bind, Option.bind_eq_some_iff] at ran
    obtain ⟨inodes, -, quotient, -, ran⟩ := ran
    refine ⟨groupsOf quotient, ?_⟩
    split at ran
    · rw [← Option.some.inj ran]
    · obtain ⟨root, -, ran⟩ := Option.bind_eq_some_iff.mp ran
      rw [← Option.some.inj ran]
  obtain ⟨left, calls⟩ := calls
  rw [calls]
  refine ⟨List.mem_append_left _ List.mem_cons_self, fun call member => ?_⟩
  rcases List.mem_append.mp member with first | later
  · rw [List.mem_singleton.mp first]
    exact Or.inl rfl
  · exact readGroups_room later

/-- The buffers have room for a block if it has 1024 bytes. -/
theorem rooms_iff {heap : Nat → Int → BitVec 8} {rest : Bytes}
    (record : readSuperRecord dev stack = some (py, rest))
    (recorded : (recordedAccess py).blocksize = 1024 * 2 ^ k)
    (ran : readExt2Sb dev stack heap = some r) :
    (∀ call ∈ r.calls, 1024 * 2 ^ k ≤ call.room) ↔ k = 0 := by
  obtain ⟨first, rooms⟩ := readExt2Sb_room record ran
  constructor
  · intro roomy
    have positive : 0 < 2 ^ k := Nat.two_pow_pos k
    have room : 1024 * 2 ^ k ≤ 1024 := roomy _ first
    have single : 2 ^ k = 1 := by omega
    exact (Nat.pow_eq_one.mp single).resolve_left (by decide)
  · rintro rfl call member
    rw [recorded] at rooms
    rcases rooms call member with room | room
    · exact Nat.le_of_eq room.symm
    · exact Nat.le_of_eq room.symm

/-- `ext2_read_block` addresses the blocks of the file systems with blocks of 1 KiB: every
block of the device, block 0, and the buffers of `read_ext2_sb`. -/
theorem ext2ReadBlock_addresses_iff {heap : Nat → Int → BitVec 8} {rest : Bytes}
    (sectors : dev.bsize = 512) (serves : dev.Serves)
    (record : readSuperRecord dev stack = some (py, rest))
    (recorded : (recordedAccess py).blocksize = 1024 * 2 ^ k)
    (ran : readExt2Sb dev stack heap = some r) :
    (∀ b, 1 ≤ b → (b + 1) * (1024 * 2 ^ k) ≤ dev.bcount * 512 →
      (ReadsBlock dev (recordedAccess py) (1024 * 2 ^ k) b ↔ k = 0)) ∧
    (ZeroesBlock dev (recordedAccess py) (1024 * 2 ^ k) ↔ k = 0) ∧
    ((∀ call ∈ r.calls, 1024 * 2 ^ k ≤ call.room) ↔ k = 0) := by
  refine ⟨fun b positive within => ?_, ?_, rooms_iff record recorded ran⟩
  · have block : b ≠ 0 := Nat.ne_of_gt positive
    constructor
    · intro reads
      exact asks_of_large sectors block recorded rfl within reads.asks
    · rintro rfl
      exact readsBlock_of_kib sectors serves block recorded rfl within
  · rw [zeroesBlock_iff]
    constructor
    · intro same
      have single : 2 ^ k = 1 := by omega
      exact (Nat.pow_eq_one.mp single).resolve_left (by decide)
    · rintro rfl
      rfl

/-- A disk with blocks of 1 KiB is addressed right. -/
theorem ext2ReadBlock_addresses_iff_small :
    ∃ r, smallRead 0 128 = some r ∧
      ReadsBlock (smallDisk 0 128) (recordedAccess (smallRecord 0 128)) 1024 5 ∧
      ∀ call ∈ r.calls, 1024 ≤ call.room := by
  have ran : (smallRead 0 128).isSome := by decide
  obtain ⟨r, ran⟩ := Option.isSome_iff_exists.mp ran
  have record : readSuperRecord (smallDisk 0 128) (fun _ => 0) =
      some (smallRecord 0 128, smallBuffer 0 128) := rfl
  have parts := ext2ReadBlock_addresses_iff (k := 0) rfl (ramdisk_serves _ sectors_small) record
    rfl ran
  exact ⟨r, ran, (parts.1 5 (by decide) (by decide)).mpr rfl, parts.2.2.mpr rfl⟩

/-- With blocks of 2 KiB the sectors 2 to 5 are read for block 1, which lies in 4 to 7, only half
of a block is zeroed, and the buffer on the stack is too small. -/
theorem ext2ReadBlock_addresses_not :
    readSuperRecord (smallDisk 1 128) (fun _ => 0) =
      some (smallRecord 1 128, smallBuffer 1 128) ∧
    (recordedAccess (smallRecord 1 128)).blocksize = 2048 ∧
    ext2BlockRequest (smallDisk 1 128) (recordedAccess (smallRecord 1 128)) 1 = some ⟨2, 4⟩ ∧
    ¬ReadsBlock (smallDisk 1 128) (recordedAccess (smallRecord 1 128)) 2048 1 ∧
    ¬ZeroesBlock (smallDisk 1 128) (recordedAccess (smallRecord 1 128)) 2048 ∧
    ∃ r, smallRead 1 128 = some r ∧ ∃ call ∈ r.calls, call.room < 2048 := by
  have ran : (smallRead 1 128).isSome := by decide
  obtain ⟨r, ran⟩ := Option.isSome_iff_exists.mp ran
  have asked : ext2BlockRequest (smallDisk 1 128) (recordedAccess (smallRecord 1 128)) 1 ≠
      some ⟨4, 4⟩ := by decide
  have record : readSuperRecord (smallDisk 1 128) (fun _ => 0) =
      some (smallRecord 1 128, smallBuffer 1 128) := rfl
  refine ⟨record, rfl, rfl, fun reads => asked reads.asks, ?_, r, ran, ⟨1, 1024⟩, ?_, by decide⟩
  · intro zeroes
    have same := zeroesBlock_iff.mp zeroes
    omega
  · exact (readExt2Sb_room record ran).1

end Nupkux
