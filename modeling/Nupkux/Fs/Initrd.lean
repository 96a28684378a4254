import Nupkux.Fs.ReadWrite
import Nupkux.Lib.Words

/-!
# Reading files of an initrd

A file of an initrd is a range of the image, and its inode holds where the range starts and how
long it is. `initrd_read` cuts the size of a read at the end of the file, with a sum of two UINTs
that may wrap. `memcpy` runs over addresses of 32 bits.
-/

namespace Nupkux

/-- The memory, and the ranges `memcpy` has read, by first address and length. -/
structure TracedMemory where
  bytes : Bytes
  reads : List (Nat × Nat) := []

/-- The loop of `memcpy`: `while (count--)`. -/
def memcpyLoop (target source : Nat) : Nat → Bytes → Bytes
  | 0, m => m
  | count + 1, m =>
    memcpyLoop (uadd target 1) (uadd source 1) count (Function.update m target (m source))

/-- `memcpy`. -/
def TracedMemory.memcpy (m : TracedMemory) (target source count : Nat) : TracedMemory where
  bytes := memcpyLoop target source count m.bytes
  reads := m.reads ++ [(source, count)]

/-- `inode.offset` of the `initrd_inode` at an address. -/
def inodeStart (m : Bytes) (inode : Nat) : Nat := m.word (inode + 4)

/-- `inode.size` of the `initrd_inode` at an address. -/
def inodeLength (m : Bytes) (inode : Nat) : Nat := m.word (inode + 24)

/-- `initrd_read` of the vnode with an inode, in the image at a location. -/
def initrdRead (location inode : Nat) : FileOperation TracedMemory := fun offset size buffer m =>
  let start := inodeStart m.bytes inode
  let length := inodeLength m.bytes inode
  if length < offset then (m, 0)
  else
    let size := if length < uadd offset size then usub length offset else size
    (m.memcpy buffer (uadd (uadd start offset) location) size, toInt size)

/-- `initrd_write`. -/
def initrdWrite : FileOperation TracedMemory := fun _ _ _ m => (m, -EINVAL)

/-- `initrd_f_ops`, for the vnode of an inode. -/
def initrdFOps (location inode : Nat) : FileOperations TracedMemory where
  read := some (initrdRead location inode)
  write := some initrdWrite

/-- So many bytes from an address on. -/
def bytesAt (m : Bytes) (a count : Nat) : List (BitVec 8) := (List.range count).map fun i => m (a + i)

/-- The data of an inode: `length` bytes from `base` on, below the end of the address space. -/
structure IsFile (m : Bytes) (location inode base length : Nat) : Prop where
  start : base = location + inodeStart m inode
  size : length = inodeLength m inode
  inside : base + length ≤ uintWidth

/-- The bytes a read should transfer: `min(size, L - offset)`, and none behind the end. -/
def clampedCount (length offset size : Nat) : Nat := min size (length - offset)

/-- A read transfers the bytes of the file. -/
structure ReadsInitrd (base length offset size buffer : Nat) (m m' : TracedMemory) (ret : Int) :
    Prop where
  /-- The answer. -/
  returns : ret = clampedCount length offset size
  /-- The bytes at the offset are copied. -/
  copies : m'.bytes =
    memcpyLoop buffer (base + offset) (clampedCount length offset size) m.bytes
  /-- Only data of the file is read. -/
  inside : ∃ reads, m'.reads = m.reads ++ reads ∧ ∀ read ∈ reads, ∀ i < read.2,
    base ≤ uadd read.1 i ∧ uadd read.1 i < base + length

/-- A read that is cut at the end of the file, with an answer that is an `int`. -/
def Clamped (length offset size : Nat) : Prop :=
  (length < offset ∨ offset + size < uintWidth) ∧ clampedCount length offset size < 2147483648

variable {m m' : Bytes} {location inode base length offset size buffer count target source : Nat}

/-- Where no address wraps, the loop of `memcpy` copies. -/
theorem memcpyLoop_eq_copy (targets : target + count ≤ uintWidth)
    (sources : source + count ≤ uintWidth) :
    memcpyLoop target source count m = Bytes.copy target source count m := by
  induction count generalizing target source m with
  | zero => rfl
  | succ count ih =>
    rw [memcpyLoop, Bytes.copy]
    cases count with
    | zero => rfl
    | succ count =>
      rw [uadd_of_lt (by omega), uadd_of_lt (by omega), ih (by omega) (by omega)]

/-- Bytes that were read are in the buffer, when it is apart from the data. -/
theorem ReadsInitrd.stored {m m' : TracedMemory} {ret : Int}
    (reads : ReadsInitrd base length offset size buffer m m' ret) (inside : base + length ≤ uintWidth)
    (small : buffer + clampedCount length offset size ≤ uintWidth)
    (apart : base + length ≤ buffer ∨ buffer + clampedCount length offset size ≤ base) :
    bytesAt m'.bytes buffer (clampedCount length offset size) =
        bytesAt m.bytes (base + offset) (clampedCount length offset size) ∧
      ∀ a, a < buffer ∨ buffer + clampedCount length offset size ≤ a → m'.bytes a = m.bytes a := by
  have copies := reads.copies
  unfold clampedCount at *
  by_cases none : min size (length - offset) = 0
  · rw [none] at copies ⊢
    exact ⟨rfl, fun a _ => congrFun copies a⟩
  · rw [memcpyLoop_eq_copy small (by omega)] at copies
    refine ⟨List.map_congr_left fun i member => ?_, fun a outside => ?_⟩
    · rw [copies, Bytes.copy_of_inside (List.mem_range.mp member) (by omega)]
    · rw [copies, Bytes.copy_of_outside outside]

/-- A read of a file transfers its bytes if and only if it is clamped. -/
theorem initrdRead_iff {m : TracedMemory} (file : IsFile m.bytes location inode base length)
    (range : offset < uintWidth) (fits : size < uintWidth) :
    ReadsInitrd base length offset size buffer m (initrdRead location inode offset size buffer m).1
        (initrdRead location inode offset size buffer m).2 ↔
      Clamped length offset size := by
  have inside := file.inside
  have counted : clampedCount length offset size = min size (length - offset) := rfl
  have lengthRange : length < uintWidth := by
    rw [file.size]
    exact Bytes.word_lt _ _
  unfold initrdRead Clamped
  dsimp only
  rw [← file.size]
  by_cases behind : length < offset
  · rw [if_pos behind]
    have none : clampedCount length offset size = 0 := by omega
    refine iff_of_true ⟨?_, ?_, [], (List.append_nil _).symm, ?_⟩ ⟨.inl behind, by omega⟩
    · rw [none]
      rfl
    · rw [none]
      rfl
    · intro read member
      exact absurd member (List.not_mem_nil)
  · rw [if_neg behind]
    dsimp only [TracedMemory.memcpy]
    have place : uadd (uadd (inodeStart m.bytes inode) offset) location =
        (base + offset) % uintWidth := by
      have start := file.start
      simp only [uadd, uintWidth]
      omega
    rw [place]
    by_cases wraps : offset + size < uintWidth
    · -- no sum wraps: the two tests amount to `clampedCount`
      have taken : (if length < uadd offset size then usub length offset else size) =
          clampedCount length offset size := by
        rw [uadd_of_lt wraps, usub_of_le (by omega) lengthRange, counted]
        split
        · omega
        · omega
      rw [taken]
      constructor
      · intro reads
        have returns := reads.returns
        refine ⟨.inr wraps, ?_⟩
        unfold toInt at returns
        omega
      · intro clamped
        have answer := clamped.2
        refine ⟨by unfold toInt; omega, ?_, [_], rfl, fun read member i below => ?_⟩
        · by_cases none : clampedCount length offset size = 0
          · rw [none]
            rfl
          · rw [Nat.mod_eq_of_lt (by omega)]
        · rw [List.mem_singleton.mp member] at below ⊢
          simp only [uadd, uintWidth] at *
          omega
    · -- the sum wraps below the length: the size is not cut
      have whole : (if length < uadd offset size then usub length offset else size) = size := by
        apply if_neg
        simp only [uadd, uintWidth] at *
        omega
      rw [whole]
      refine iff_of_false (fun reads => ?_) fun clamped => ?_
      · obtain ⟨list, same, inFile⟩ := reads.inside
        have only : list = [((base + offset) % uintWidth, size)] := (List.append_cancel_left same).symm
        have last := inFile _ (only ▸ List.mem_singleton_self _) (length - offset) (by
          simp only [uintWidth] at *
          omega)
        simp only [uadd, uintWidth] at *
        omega
      · exact absurd clamped.1 (by omega)

/-! ## Reading through a descriptor -/

/-- Calls of `sys_read` with these buffers and sizes, and what they read, one after another. -/
def readAll (fOp : Nat → FileOperations TracedMemory) (fd : Int) :
    List (Nat × Nat) → FileWorld TracedMemory → List (BitVec 8)
  | [], _ => []
  | (buffer, size) :: calls, w =>
    let (w, ret) := w.sysRead fOp fd buffer size
    bytesAt w.outside.bytes buffer ret.toNat ++ readAll fOp fd calls w

/-- A descriptor is open on a file of an initrd, at an offset. -/
structure OpenOn (fOp : Nat → FileOperations TracedMemory) (fd : Int)
    (location inode base length offset : Nat) (w : FileWorld TracedMemory) : Prop where
  range : 0 ≤ fd ∧ fd < nrOpen
  nonnull : w.kernel.current.files fd.toNat ≠ 0
  /-- `sys_open` gives no object the flags 0. -/
  live : ∃ file, w.kernel.file.lookup (w.kernel.current.files fd.toNat) = some file ∧
    file.flags ≠ 0 ∧ file.offset = offset ∧ w.kernel.isDir file.node = false ∧
    w.kernel.isChr file.node = false ∧ fOp file.node = initrdFOps location inode
  data : IsFile w.outside.bytes location inode base length

/-- A buffer of so many bytes is apart from the data and from the inode. -/
def Apart (inode base length buffer count : Nat) : Prop :=
  buffer + count ≤ uintWidth ∧ (base + length ≤ buffer ∨ buffer + count ≤ base) ∧
    (inode + 28 ≤ buffer ∨ buffer + count ≤ inode)

/-- Reads from an offset on that are clamped, one after another, into buffers of their own. -/
def ClampedAll (inode base length : Nat) : Nat → List (Nat × Nat) → Prop
  | _, [] => True
  | offset, (buffer, size) :: calls =>
    Clamped length offset size ∧ Apart inode base length buffer (clampedCount length offset size) ∧
      ClampedAll inode base length (offset + clampedCount length offset size) calls

variable {fOp : Nat → FileOperations TracedMemory} {fd : Int} {w : FileWorld TracedMemory}

/-- Two ranges side by side. -/
theorem bytesAt_append (m : Bytes) (a n k : Nat) :
    bytesAt m a (n + k) = bytesAt m a n ++ bytesAt m (a + n) k := by
  unfold bytesAt
  rw [List.range_add, List.map_append, List.map_map]
  congr 1
  refine List.map_congr_left fun i _ => ?_
  exact congrArg m (Nat.add_assoc a n i).symm

/-- A range depends on its bytes. -/
theorem bytesAt_congr {a n : Nat} (same : Bytes.Same a (a + n) m m') :
    bytesAt m' a n = bytesAt m a n := by
  refine List.map_congr_left fun i member => ?_
  have below := List.mem_range.mp member
  exact same (a + i) (by omega) (by omega)

/-- A clamped read of the descriptor stores the next bytes of the file, and the descriptor is open
behind them. -/
theorem OpenOn.sysRead (opened : OpenOn fOp fd location inode base length offset w)
    (before : offset ≤ length) (clamped : Clamped length offset size)
    (apart : Apart inode base length buffer (clampedCount length offset size)) :
    (w.sysRead fOp fd buffer size).2 = clampedCount length offset size ∧
      bytesAt (w.sysRead fOp fd buffer size).1.outside.bytes buffer
          (clampedCount length offset size) =
        bytesAt w.outside.bytes (base + offset) (clampedCount length offset size) ∧
      Bytes.Same base (base + length) w.outside.bytes
        (w.sysRead fOp fd buffer size).1.outside.bytes ∧
      OpenOn fOp fd location inode base length (offset + clampedCount length offset size)
        (w.sysRead fOp fd buffer size).1 := by
  obtain ⟨file, live, flags, position, notDir, notChr, operations⟩ := opened.live
  have data := opened.data
  have inside := data.inside
  have counted : clampedCount length offset size = min size (length - offset) := rfl
  have small : offset + size < uintWidth := clamped.1.resolve_left (by omega)
  have reads : ReadsInitrd base length offset size buffer w.outside _ _ :=
    (initrdRead_iff data (by omega) (by omega)).mpr clamped
  have stored := reads.stored inside apart.1 apart.2.1
  have answer : readFs fOp w.kernel (transferOf file fmodeRead buffer size) w.outside =
      ((initrdRead location inode offset size buffer w.outside).1,
        (clampedCount length offset size : Int)) := by
    unfold readFs transferFs transferOf
    rw [notDir, operations, if_neg Bool.false_ne_true, position]
    dsimp only [initrdFOps]
    rw [reads.returns]
    have limit := clamped.2
    have fits : toInt (clampedCount length offset size) = clampedCount length offset size := by
      unfold toInt
      omega
    rw [fits]
  have limit := clamped.2
  have sum : uadd offset (toUint (clampedCount length offset size)) =
      offset + clampedCount length offset size := by
    simp only [uadd, toUint, uintWidth] at *
    omega
  rw [FileWorld.sysRead_of_live opened.range opened.nonnull live, if_neg flags, answer]
  rw [FileWorld.finish_of_other _ notChr]
  refine ⟨FileWorld.toInt_toUint (by omega) (by omega), stored.1, fun a low high => stored.2 a (by
    have clear := apart.2.1
    omega), opened.range, opened.nonnull, ?_, ?_⟩
  · refine ⟨{ file with offset := offset + clampedCount length offset size }, ?_, flags, rfl,
      notDir, notChr, operations⟩
    change (w.kernel.file.modify _ _).lookup (w.kernel.current.files fd.toNat) = _
    rw [Store.lookup_modify_self, live, Option.map_some, position, sum]
  · have record (i : Nat) (field : i + 4 ≤ 28) :
        (initrdRead location inode offset size buffer w.outside).1.bytes.word (inode + i) =
          w.outside.bytes.word (inode + i) := by
      have clear := apart.2.2
      have kept : Bytes.Same inode (inode + 28) w.outside.bytes
          (initrdRead location inode offset size buffer w.outside).1.bytes :=
        fun a low high => stored.2 a (by omega)
      exact Bytes.word_congr kept (by omega) (by omega)
    exact ⟨data.start.trans (congrArg (location + ·) (record 4 (by decide)).symm),
      data.size.trans (record 24 (by decide)).symm, inside⟩

/-- What clamped reads read, from an offset on. -/
theorem readAll_prefix (calls : List (Nat × Nat))
    (opened : OpenOn fOp fd location inode base length offset w) (before : offset ≤ length)
    (clamped : ClampedAll inode base length offset calls) :
    readAll fOp fd calls w <+: bytesAt w.outside.bytes (base + offset) (length - offset) := by
  induction calls generalizing w offset with
  | nil => exact List.nil_prefix
  | cons call calls ih =>
    obtain ⟨buffer, size⟩ := call
    obtain ⟨first, apart, rest⟩ := clamped
    obtain ⟨returns, stored, same, next⟩ := opened.sysRead before first apart
    have counted : clampedCount length offset size = min size (length - offset) := rfl
    rw [readAll]
    dsimp only
    rw [returns, Int.toNat_natCast, stored]
    have later := ih next (by omega) rest
    generalize clampedCount length offset size = n at *
    have parts : length - offset = n + (length - (offset + n)) := by omega
    rw [parts, bytesAt_append, List.prefix_append_right_inj]
    have tail : bytesAt (w.sysRead fOp fd buffer size).1.outside.bytes (base + (offset + n))
        (length - (offset + n)) =
          bytesAt w.outside.bytes (base + offset + n) (length - (offset + n)) := by
      rw [Nat.add_assoc base]
      exact bytesAt_congr (same.mono (by omega) (by omega))
    rwa [tail] at later

/-- A read of a file of an initrd transfers its bytes if and only if it is clamped; and clamped
reads of a descriptor from the start of the file read a prefix of it. -/
theorem initrd_reads_iff (location inode base length : Nat) :
    (∀ (m : TracedMemory) (offset size buffer : Nat),
      IsFile m.bytes location inode base length → offset < uintWidth → size < uintWidth →
        (ReadsInitrd base length offset size buffer m
            (initrdRead location inode offset size buffer m).1
            (initrdRead location inode offset size buffer m).2 ↔
          Clamped length offset size)) ∧
    ∀ (fOp : Nat → FileOperations TracedMemory) (fd : Int) (w : FileWorld TracedMemory)
        (calls : List (Nat × Nat)),
      OpenOn fOp fd location inode base length 0 w → ClampedAll inode base length 0 calls →
        readAll fOp fd calls w <+: bytesAt w.outside.bytes base length :=
  ⟨fun _ _ _ _ file range fits => initrdRead_iff file range fits,
    fun _ _ _ calls opened clamped => readAll_prefix calls opened (Nat.zero_le _) clamped⟩

/-- An image at 1000 whose inode at 100 is a file of three bytes. -/
def threeByteImage : TracedMemory where
  bytes := (Bytes.store (fun a => BitVec.ofNat 8 a) 104 0).store 124 3

/-- The file of three bytes. -/
theorem threeByteImage_file : IsFile threeByteImage.bytes 1000 100 1000 3 :=
  ⟨by decide, by decide, by decide⟩

/-- A read of five bytes at offset 1, and three reads of two bytes each. -/
theorem initrd_reads_iff_three :
    ReadsInitrd 1000 3 1 5 2000 threeByteImage (initrdRead 1000 100 1 5 2000 threeByteImage).1
        (initrdRead 1000 100 1 5 2000 threeByteImage).2 ∧
      readAll (fun _ => initrdFOps 1000 100) 0 [(2000, 2), (2000, 2), (2000, 2)]
          { kernel := (openedWorld 1 0).kernel, outside := threeByteImage } <+:
        bytesAt threeByteImage.bytes 1000 3 := by
  have clear (count : Nat) (few : count ≤ 2) : Apart 100 1000 3 2000 count :=
    ⟨by simp only [uintWidth]; omega, .inl (by omega), .inl (by omega)⟩
  have small (offset size : Nat) (few : offset ≤ 3 ∧ size ≤ 5) : Clamped 3 offset size :=
    ⟨.inr (by simp only [uintWidth]; omega), by simp only [clampedCount]; omega⟩
  refine ⟨((initrd_reads_iff 1000 100 1000 3).1 threeByteImage 1 5 2000 threeByteImage_file
    (by decide) (by decide)).mpr (small 1 5 (by decide)), ?_⟩
  refine (initrd_reads_iff 1000 100 1000 3).2 _ 0 _ _ ⟨by decide, by decide, ⟨openedFile 0,
    by decide, by decide, rfl, by decide, by decide, rfl⟩, threeByteImage_file⟩ ?_
  exact ⟨small 0 2 (by decide), clear _ (by decide), small 2 2 (by decide), clear _ (by decide),
    small 3 2 (by decide), clear _ (by decide), trivial⟩

/-- A read of 2 ^ 32 - 1 bytes at offset 2: the sum wraps to 1, and nearly all of memory is
copied. -/
theorem initrd_reads_not :
    (initrdRead 1000 100 2 4294967295 2000 threeByteImage).1.reads = [(1002, 4294967295)] ∧
      (initrdRead 1000 100 2 4294967295 2000 threeByteImage).2 = -1 ∧
      ¬ReadsInitrd 1000 3 2 4294967295 2000 threeByteImage
        (initrdRead 1000 100 2 4294967295 2000 threeByteImage).1
        (initrdRead 1000 100 2 4294967295 2000 threeByteImage).2 := by
  have answer : (initrdRead 1000 100 2 4294967295 2000 threeByteImage).2 = -1 := by decide
  refine ⟨by decide, answer, fun reads => ?_⟩
  have returns := reads.returns
  rw [answer] at returns
  omega

end Nupkux
