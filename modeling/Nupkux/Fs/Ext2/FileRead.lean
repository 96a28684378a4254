import Nupkux.Fs.Ext2.Blocks
import Nupkux.Fs.Ext2.Inode

/-!
# What ext2_read stores

The bytes of a file are those of its direct, indirect and empty blocks. `ext2_read` stores the
rest of the first block whatever is asked for, so a read that ends inside its first block stores
too much, and of the last block what is left after the last block boundary, which is nothing for
a read that ends on one. Blocks that are not direct are read as zeros.
-/

namespace Nupkux

variable {dev : BlockDevice} {file : Ext2File} {heap : Int → BitVec 8} {m buf : Bytes}
  {offset size buffer block left j n : Nat}

/-- An entry of an indirect block. -/
def indirectEntry (dev : BlockDevice) (b i : Nat) : Nat :=
  if b = 0 then 0 else dev.content.word (blockByte b + 4 * i)

/-- The block map of an inode: 12 direct blocks, and then blocks through one, two and three
indirect blocks of 256 entries. Block 0 is a hole. -/
def mappedBlock (dev : BlockDevice) (inode : Ext2Inode) (j : Nat) : Nat :=
  if j < 12 then inode.block.getD j 0
  else if j < 268 then indirectEntry dev (inode.block.getD 12 0) (j - 12)
  else if j < 65804 then
    indirectEntry dev (indirectEntry dev (inode.block.getD 13 0) ((j - 268) / 256))
      ((j - 268) % 256)
  else
    indirectEntry dev (indirectEntry dev
      (indirectEntry dev (inode.block.getD 14 0) ((j - 65804) / 65536))
      ((j - 65804) / 256 % 256)) ((j - 65804) % 256)

/-- A byte of a block, which is 0 in a hole. -/
def blockContent (dev : BlockDevice) (b i : Nat) : BitVec 8 :=
  if b = 0 then 0 else dev.content (blockByte b + i)

/-- A byte of a file. -/
def fileByte (dev : BlockDevice) (inode : Ext2Inode) (i : Nat) : BitVec 8 :=
  blockContent dev (mappedBlock dev inode (i / 1024)) (i % 1024)

/-- A byte of a file as `file_ext2_block` maps its blocks. -/
def directByte (dev : BlockDevice) (inode : Ext2Inode) (i : Nat) : BitVec 8 :=
  blockContent dev (fileExt2Block inode (i / 1024)) (i % 1024)

/-- A file on a file system with blocks of 1 KiB whose direct blocks can be read. -/
structure KibFile (dev : BlockDevice) (file : Ext2File) : Prop where
  sectors : dev.bsize = 512
  size_lt : file.size < uintWidth
  blocksize : file.sb.blocksize = 1024
  skip : file.sb.skipBytes = 1024
  readable : ∀ j, j * 1024 < file.size → fileExt2Block file.inode j ≠ 0 →
    2 * fileExt2Block file.inode j + 2 ≤ dev.bcount ∧
      dev.answer ⟨2 * fileExt2Block file.inode j, 2⟩ = 2

/-- How many bytes a read should give. -/
def readCount (file : Ext2File) (offset size : Nat) : Nat := min size (file.size - offset)

/-- `ext2_read` returns the number of bytes there are to read, stores so many in the buffer and
nothing beyond, and they are the bytes of the file from the offset on. -/
def ReadsFile (dev : BlockDevice) (file : Ext2File) (heap : Int → BitVec 8)
    (offset size : Nat) : Prop :=
  ∀ buffer m, ext2Read dev file heap offset size buffer m =
    ((readCount file offset size : Int),
      m.blit buffer (fun i => fileByte dev file.inode (offset + i)) (readCount file offset size))

/-- How many bytes `ext2_read` stores. -/
def storedCount (offset n : Nat) : Nat :=
  if offset / 1024 = (offset + n - 1) / 1024 then 1024 - offset % 1024
  else (offset + n - 1) / 1024 * 1024 - offset + (offset + n) % 1024

/-- The direct blocks and the map agree on the direct part of a file. -/
theorem directByte_of_direct (dev : BlockDevice) (inode : Ext2Inode) {i : Nat}
    (direct : i / 1024 < 12) : directByte dev inode i = fileByte dev inode i := by
  rw [directByte, fileByte, fileExt2Block, mappedBlock, if_pos direct,
    if_pos (show i / 1024 < ext2NdirBlocks from direct)]

/-- The others are read as holes. -/
theorem directByte_of_indirect (dev : BlockDevice) (inode : Ext2Inode) {i : Nat}
    (indirect : ¬i / 1024 < 12) : directByte dev inode i = 0 := by
  rw [directByte, fileExt2Block, if_neg (show ¬i / 1024 < ext2NdirBlocks from indirect)]
  rfl

/-- A block of a file that is read. -/
theorem readFileBlock_eq (kib : KibFile dev file) (inside : j * 1024 < file.size)
    (buf : Bytes) : ∃ read, readFileBlock dev file j buf = (2, read) ∧
      ∀ i < 1024, read i = directByte dev file.inode (j * 1024 + i) := by
  have quotient {i : Nat} (small : i < 1024) : (j * 1024 + i) / 1024 = j := by omega
  have rest {i : Nat} (small : i < 1024) : (j * 1024 + i) % 1024 = i := by omega
  unfold readFileBlock
  by_cases hole : fileExt2Block file.inode j = 0
  · rw [hole]
    refine ⟨buf.fill 0 0 1024, ext2ReadBlock_zero, fun i small => ?_⟩
    have filled : 0 ≤ i ∧ i < 0 + 1024 := by omega
    rw [directByte, quotient small, hole, blockContent, if_pos rfl, Bytes.fill, if_pos filled]
  · obtain ⟨within, full⟩ := kib.readable j inside hole
    refine ⟨_, ext2ReadBlock_kib kib.sectors hole kib.blocksize kib.skip within full buf,
      fun i small => ?_⟩
    rw [if_pos small, directByte, quotient small, rest small, blockContent, if_neg hole]

/-- The loop stores whole blocks one after the other. -/
theorem readWhole_eq (kib : KibFile dev file) (inside : (block + left) * 1024 ≤ file.size) :
    ∃ last, readWhole dev file left block buffer buf m =
      (some (buffer + left * 1024, last),
        m.blit buffer (fun i => directByte dev file.inode (block * 1024 + i)) (left * 1024)) := by
  induction left generalizing block buffer buf m with
  | zero =>
    refine ⟨buf, ?_⟩
    rw [readWhole, Nat.zero_mul, Bytes.blit_zero, Nat.add_zero]
  | succ left ih =>
    obtain ⟨read, here, bytes⟩ := readFileBlock_eq (j := block) kib (by omega) buf
    have shifted : block + 1 + left = block + (left + 1) := by omega
    have next : (block + 1 + left) * 1024 ≤ file.size := by rwa [shifted]
    obtain ⟨last, rest⟩ : ∃ last,
        readWhole dev file left (block + 1) (buffer + 1024) read (m.blit buffer read 1024) =
          (some (buffer + 1024 + left * 1024, last), (m.blit buffer read 1024).blit (buffer + 1024)
            (fun i => directByte dev file.inode ((block + 1) * 1024 + i)) (left * 1024)) :=
      ih next
    refine ⟨last, ?_⟩
    have first : m.blit buffer read 1024 =
        m.blit buffer (fun i => directByte dev file.inode (block * 1024 + i)) 1024 :=
      Bytes.blit_congr bytes
    rw [readWhole, here, kib.blocksize]
    simp only
    rw [if_neg (by decide), rest, first, Bytes.blit_blit]
    · rw [show buffer + 1024 + left * 1024 = buffer + (left + 1) * 1024 by omega,
        show 1024 + left * 1024 = (left + 1) * 1024 by omega]
    · intro i _
      rw [show (block + 1) * 1024 + i = block * 1024 + (1024 + i) by omega]

/-- What a read of some bytes returns and stores. -/
theorem ext2Read_eq (kib : KibFile dev file) (inside : offset ≤ file.size)
    (whole : offset + size < uintWidth) (positive : 0 < readCount file offset size) :
    ext2Read dev file heap offset size buffer m =
      (toInt (readCount file offset size),
        m.blit buffer (fun i => directByte dev file.inode (offset + i))
          (storedCount offset (readCount file offset size))) := by
  have width := kib.size_lt
  have counted : readCount file offset size = min size (file.size - offset) := rfl
  have clamped : (if uadd offset size > file.size then usub file.size offset else size) =
      readCount file offset size := by
    rw [uadd_of_lt whole, usub_of_le inside width]
    split <;> omega
  generalize readCount file offset size = n at *
  have small : offset + n < uintWidth := by omega
  have ending : usub (uadd offset n) 1 = offset + n - 1 := by
    rw [uadd_of_lt small, usub_of_le (by omega) small]
  obtain ⟨read, here, bytes⟩ := readFileBlock_eq (j := offset / 1024) kib (by omega) (fresh heap)
  have first : m.blit buffer (fun i => read (offset % 1024 + i)) (1024 - offset % 1024) =
      m.blit buffer (fun i => directByte dev file.inode (offset + i)) (1024 - offset % 1024) := by
    apply Bytes.blit_congr
    intro i below
    rw [bytes _ (by omega), show offset / 1024 * 1024 + (offset % 1024 + i) = offset + i by omega]
  rw [ext2Read, if_neg (Nat.not_lt.mpr inside), clamped]
  simp only [readSpan, ending, kib.blocksize, here]
  rw [if_neg (by decide), first]
  by_cases single : offset / 1024 = (offset + n - 1) / 1024
  · rw [storedCount, if_pos single, ← single, Nat.sub_eq_zero_of_le (Nat.le_succ _), readWhole]
    simp only [ne_eq, not_true_eq_false, if_false]
  · have later : offset / 1024 < (offset + n - 1) / 1024 := by omega
    generalize bE_eq : (offset + n - 1) / 1024 = bE at *
    have rest : offset / 1024 + 1 + (bE - (offset / 1024 + 1)) = bE := by omega
    have blocks : (offset / 1024 + 1 + (bE - (offset / 1024 + 1))) * 1024 ≤ file.size := by
      rw [rest]
      omega
    have place : 1024 - offset % 1024 + (bE - (offset / 1024 + 1)) * 1024 =
        bE * 1024 - offset := by omega
    obtain ⟨buf, loop⟩ : ∃ buf, readWhole dev file (bE - (offset / 1024 + 1))
        (offset / 1024 + 1) (buffer + (1024 - offset % 1024)) read
        (m.blit buffer (fun i => directByte dev file.inode (offset + i)) (1024 - offset % 1024)) =
          (some (buffer + (bE * 1024 - offset), buf),
            m.blit buffer (fun i => directByte dev file.inode (offset + i))
              (bE * 1024 - offset)) := by
      obtain ⟨buf, loop⟩ := readWhole_eq kib blocks
      refine ⟨buf, loop.trans ?_⟩
      rw [Bytes.blit_blit, Nat.add_assoc, place]
      intro i _
      rw [show (offset / 1024 + 1) * 1024 + i = offset + (1024 - offset % 1024 + i) by omega]
    obtain ⟨last, final, tail⟩ := readFileBlock_eq (j := bE) kib (by omega) buf
    rw [loop]
    simp only [final]
    rw [if_pos single, if_neg (by decide), uadd_of_lt small, Bytes.blit_blit, storedCount, bE_eq,
      if_neg single]
    intro i below
    rw [tail i (Nat.lt_trans below (Nat.mod_lt _ (by decide))),
      show offset + (bE * 1024 - offset + i) = bE * 1024 + i by omega]

/-- As many bytes are stored as were to be read if the end of the read is a block boundary
exactly when the read stays in its first block. -/
theorem storedCount_eq_iff (positive : 0 < n) : storedCount offset n = n ↔
    ((offset + n) % 1024 = 0 ↔ offset / 1024 = (offset + n - 1) / 1024) := by
  unfold storedCount
  split
  · rename_i single
    rw [iff_true_right single]
    omega
  · rename_i several
    rw [iff_false_right several]
    omega

/-- The copies end in an error or return the size. -/
theorem readSpan_status : (readSpan dev file heap offset size buffer m).1 = - EIO ∨
    (readSpan dev file heap offset size buffer m).1 = toInt size := by
  simp only [readSpan]
  split
  · exact Or.inl rfl
  · split
    · exact Or.inl rfl
    · split
      · split
        · exact Or.inl rfl
        · exact Or.inr rfl
      · exact Or.inr rfl

/-- The loop stores behind `buffer`. -/
theorem readWhole_of_before {a : Nat} (before : a < buffer) :
    (readWhole dev file left block buffer buf m).2 a = m a ∧
      ∀ last, (readWhole dev file left block buffer buf m).1 = some last → buffer ≤ last.1 := by
  induction left generalizing block buffer buf m with
  | zero =>
    refine ⟨rfl, fun last same => ?_⟩
    rw [← Option.some.inj same]
  | succ left ih =>
    simp only [readWhole]
    split
    · refine ⟨rfl, fun last same => ?_⟩
      cases same
    · have next : a < buffer + file.sb.blocksize := Nat.lt_add_right _ before
      generalize readFileBlock dev file block buf = read
      have both : (readWhole dev file left (block + 1) (buffer + file.sb.blocksize) read.2
            (m.blit buffer read.2 file.sb.blocksize)).2 a =
          m.blit buffer read.2 file.sb.blocksize a ∧ _ := ih next
      obtain ⟨kept, later⟩ := both
      refine ⟨kept.trans (Bytes.blit_of_outside (Or.inl before)), fun last same => ?_⟩
      exact Nat.le_trans (Nat.le_add_right _ _) (later last same)

/-- The copies end in an error or store the first byte of the read at the start of the
buffer. -/
theorem readSpan_first (kib : KibFile dev file) :
    (readSpan dev file heap offset size buffer m).1 = - EIO ∨
      (readSpan dev file heap offset size buffer m).2 buffer =
        (readFileBlock dev file (offset / 1024) (fresh heap)).2 (offset % 1024) := by
  simp only [readSpan]
  rw [kib.blocksize]
  split
  · exact Or.inl rfl
  · generalize (readFileBlock dev file (offset / 1024) (fresh heap)).2 = read
    have rest : 0 < 1024 - offset % 1024 := by omega
    have first : m.blit buffer (fun i => read (offset % 1024 + i)) (1024 - offset % 1024) buffer =
        read (offset % 1024) := by
      rw [Bytes.blit, if_pos (by omega), Nat.sub_self, Nat.add_zero]
    have before : buffer < buffer + (1024 - offset % 1024) := by omega
    generalize m.blit buffer (fun i => read (offset % 1024 + i)) (1024 - offset % 1024) = stored
      at *
    generalize buffer + (1024 - offset % 1024) = next at *
    generalize usub (uadd offset size) 1 / 1024 = bE
    have both : (readWhole dev file (bE - (offset / 1024 + 1)) (offset / 1024 + 1) next read
        stored).2 buffer = stored buffer ∧ _ := readWhole_of_before before
    obtain ⟨kept, later⟩ := both
    split
    · exact Or.inl rfl
    · rename_i last buf whole same
      rw [same] at kept later
      have behind : buffer < last := Nat.lt_of_lt_of_le before (later _ rfl)
      split
      · split
        · exact Or.inl rfl
        · exact Or.inr ((Bytes.blit_of_outside (Or.inl behind)).trans (kept.trans first))
      · exact Or.inr (kept.trans first)

/-- A read that does not start behind the end makes its copies. -/
theorem ext2Read_of_inside (inside : offset ≤ file.size) :
    ext2Read dev file heap offset size buffer m =
      readSpan dev file heap offset
        (if uadd offset size > file.size then usub file.size offset else size) buffer m := by
  rw [ext2Read, if_neg (Nat.not_lt.mpr inside)]

/-- A read of no byte that does not start behind the end stores something. -/
theorem not_readsFile_of_zero (kib : KibFile dev file) (inside : offset ≤ file.size)
    (none_left : readCount file offset size = 0) : ¬ReadsFile dev file heap offset size := by
  intro reads
  -- a memory with another byte at the start of the buffer shows the store
  generalize byte : (readFileBlock dev file (offset / 1024) (fresh heap)).2 (offset % 1024) = v
  have read := reads 0 fun _ => v + 1
  rw [none_left, Bytes.blit_zero, ext2Read_of_inside inside] at read
  generalize (if uadd offset size > file.size then usub file.size offset else size) = cut at read
  have outcome : (readSpan dev file heap offset cut 0 fun _ => v + 1).1 = - EIO ∨
      (readSpan dev file heap offset cut 0 fun _ => v + 1).2 0 = _ := readSpan_first kib
  rcases outcome with failed | stored
  · rw [read] at failed
    cases failed
  · rw [read, byte] at stored
    exact Bytes.add_one_ne v stored

/-- A read whose end wraps returns the wrong number. -/
theorem not_readsFile_of_wrap (small : file.size < uintWidth) (offset_lt : offset < uintWidth)
    (size_lt : size < uintWidth) (inside : offset ≤ file.size)
    (wraps : ¬offset + size < uintWidth) : ¬ReadsFile dev file heap offset size := by
  intro reads
  have read := congrArg Prod.fst (reads 0 fun _ => 0)
  have kept : ¬uadd offset size > file.size := by
    unfold uadd uintWidth at *
    omega
  rw [ext2Read_of_inside inside, if_neg kept] at read
  simp only [readCount] at read
  have outcome : (readSpan dev file heap offset size 0 fun _ => 0).1 = - EIO ∨
      (readSpan dev file heap offset size 0 fun _ => 0).1 = toInt size := readSpan_status
  rcases outcome with failed | returned
  · rw [failed, EIO] at read
    omega
  · rw [returned, toInt] at read
    unfold uintWidth at *
    omega

/-- The bytes of a span are those of the file if what lies beyond the direct blocks is 0. -/
theorem directBytes_iff : (∀ i < n, directByte dev file.inode (offset + i) =
      fileByte dev file.inode (offset + i)) ↔
    ∀ i < n, 12 ≤ (offset + i) / 1024 → fileByte dev file.inode (offset + i) = 0 := by
  refine forall_congr' fun i => forall_congr' fun _ => ?_
  by_cases direct : (offset + i) / 1024 < 12
  · rw [directByte_of_direct dev file.inode direct]
    exact iff_of_true rfl fun beyond => absurd direct (Nat.not_lt.mpr beyond)
  · rw [directByte_of_indirect dev file.inode direct, forall_prop_of_true (by omega)]
    exact eq_comm

/-- `ext2_read` is right behind the end of a file. Before it the end of the read must not wrap,
there must be something to read, and the count must fit an `int`. The read must stay in its
first block and end with it, or go on and not end with a block. What it reads beyond the
direct blocks must be 0. -/
theorem readsFile_iff (kib : KibFile dev file) (offset_lt : offset < uintWidth)
    (size_lt : size < uintWidth) : ReadsFile dev file heap offset size ↔
      file.size < offset ∨
        offset + size < uintWidth ∧ 0 < readCount file offset size ∧
        readCount file offset size < 2147483648 ∧
        ((offset + readCount file offset size) % 1024 = 0 ↔
          offset / 1024 = (offset + readCount file offset size - 1) / 1024) ∧
        ∀ i < readCount file offset size, 12 ≤ (offset + i) / 1024 →
          fileByte dev file.inode (offset + i) = 0 := by
  by_cases beyond : file.size < offset
  · refine iff_of_true (fun buffer m => ?_) (Or.inl beyond)
    have nothing : readCount file offset size = 0 := by
      unfold readCount
      omega
    rw [ext2Read, if_pos beyond, nothing, Bytes.blit_zero]
    rfl
  · have inside : offset ≤ file.size := Nat.le_of_not_lt beyond
    rw [or_iff_right beyond]
    by_cases whole : offset + size < uintWidth
    · rw [and_iff_right whole]
      by_cases positive : 0 < readCount file offset size
      · rw [and_iff_right positive, ← storedCount_eq_iff positive, ← directBytes_iff]
        have bound : readCount file offset size < uintWidth := by
          have width := kib.size_lt
          unfold readCount
          omega
        have number : toInt (readCount file offset size) = readCount file offset size ↔
            readCount file offset size < 2147483648 := by
          unfold toInt
          unfold uintWidth at bound
          omega
        rw [← number, ← Bytes.blit_eq_iff 0]
        constructor
        · intro reads
          refine ⟨?_, fun m => ?_⟩
          · have read := congrArg Prod.fst (reads 0 fun _ => 0)
            rwa [ext2Read_eq kib inside whole positive] at read
          · have read := congrArg Prod.snd (reads 0 m)
            rwa [ext2Read_eq kib inside whole positive] at read
        · rintro ⟨returned, stored⟩ buffer m
          obtain ⟨count, bytes⟩ := (Bytes.blit_eq_iff 0).mp stored
          rw [ext2Read_eq kib inside whole positive, returned, count, Bytes.blit_congr bytes]
      · refine iff_of_false (not_readsFile_of_zero kib inside (Nat.eq_zero_of_not_pos positive)) ?_
        exact fun right => positive right.1
    · refine iff_of_false (not_readsFile_of_wrap kib.size_lt offset_lt size_lt inside whole) ?_
      exact fun right => whole right.1

/-- A disk of 32 KiB with some bytes in its block 5. -/
def fileDisk : BlockDevice :=
  ramdisk (image [(5120, 72), (5121, 101), (5122, 108), (5123, 108), (5124, 111)]) 64 sectors_small

/-- A file of a given size in the block 5. -/
def blockFile (size : Nat) : Ext2File where
  sb := firstAccess
  size
  inode :=
    { mode := 0x81A4, uid := 0, size, atime := 0, ctime := 0, mtime := 0, gid := 0, nlinks := 1,
      block := 5 :: List.replicate 14 0 }

/-- The block of the file can be read. -/
theorem blockFile_kib {size : Nat} (small : size ≤ 1024) : KibFile fileDisk (blockFile size) where
  sectors := rfl
  size_lt := Nat.lt_of_le_of_lt small (by decide)
  blocksize := rfl
  skip := rfl
  readable j inside _ := by
    have below : j * 1024 < size := inside
    have first : j = 0 := by omega
    subst first
    show 2 * 5 + 2 ≤ 64 ∧ fileDisk.answer ⟨2 * 5, 2⟩ = 2
    decide

/-- A file of one whole block is read. -/
theorem readsFile_iff_block : ReadsFile fileDisk (blockFile 1024) (fun _ => 0) 0 1024 := by
  apply (readsFile_iff (blockFile_kib (Nat.le_refl 1024)) (by decide) (by decide)).mpr
  refine Or.inr ⟨by decide, by decide, by decide, by decide, fun i small indirect => ?_⟩
  have below : i < 1024 := small
  omega

/-- A read of a file of 5 bytes stores 1024. -/
theorem readsFile_not : KibFile fileDisk (blockFile 5) ∧
    (ext2Read fileDisk (blockFile 5) (fun _ => 0) 0 5 0 fun _ => 1).1 = 5 ∧
    (ext2Read fileDisk (blockFile 5) (fun _ => 0) 0 5 0 fun _ => 1).2 1023 = 0 ∧
    ¬ReadsFile fileDisk (blockFile 5) (fun _ => 0) 0 5 := by
  have beyond : (ext2Read fileDisk (blockFile 5) (fun _ => 0) 0 5 0 fun _ => 1).2 1023 = 0 := by
    decide
  refine ⟨blockFile_kib (by decide), by decide, beyond, fun reads => ?_⟩
  rw [reads] at beyond
  cases beyond

end Nupkux
