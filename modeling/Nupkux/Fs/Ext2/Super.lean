import Nupkux.Types
import Nupkux.Lib.Words

/-!
# The super block and the inodes of ext2

The block reads of `fs/vfs/buffer.c` and the functions of `fs/ext2/super.c`. A record on the
disk is read from the bytes of a buffer at the offsets the C structure gives its fields. A
buffer holds what its memory held before: the stack, or the heap around and in a fresh block.

A division of a field of the super block that can be 0 is `divide` or `remainder`, where `none`
is the processor's divide error. A function that can return 0 returns `none` for it.
-/

namespace Nupkux

/-- A read request to a device: its first sector and the number of sectors. -/
structure SectorRequest where
  sector : Nat
  count : Nat
  deriving DecidableEq, Repr

/-- A block device. The floppy and the RAM disk have sectors of 512 bytes. The driver answers a
read request with the number of sectors it copied, at most as many as were asked for, or with
an error, which is not positive. -/
structure BlockDevice where
  /-- `u.devfs_i->bsize`, the size of a sector. -/
  bsize : Nat
  /-- `u.devfs_i->bcount`, the number of sectors. -/
  bcount : Nat
  content : Bytes
  answer : SectorRequest → Int
  bsize_ge : 512 ≤ bsize
  bcount_lt : bcount < uintWidth
  answer_le : ∀ request, answer request ≤ request.count

/-- `request_fs(dev, REQUEST_READ, …)`. -/
def requestFs (dev : BlockDevice) (request : SectorRequest) (buffer : Bytes) : Int × Bytes :=
  (dev.answer request, fun i =>
    if i < (dev.answer request).toNat * dev.bsize then
      dev.content (request.sector * dev.bsize + i)
    else buffer i)

/-- The fields of `struct _super_block` that `fs_read_block` uses. -/
structure BlockAccess where
  blocksize : Nat
  skipBytes : Nat
  deriving DecidableEq, Repr

/-- What `fs_read_block` asks the device for; `request_fs` then reads it. -/
def fsReadRequest (dev : BlockDevice) (sb : BlockAccess) (block count : Nat) : SectorRequest :=
  let startSector := sb.skipBytes / dev.bsize
  let secBlock := sb.blocksize / dev.bsize
  { sector := uadd (umul block secBlock) startSector, count := umul count secBlock }

/-- What `ext2_read_block` asks the device for, if it does. -/
def ext2BlockRequest (dev : BlockDevice) (sb : BlockAccess) (block : Nat) :
    Option SectorRequest :=
  if block = 0 then none else some (fsReadRequest dev sb (block - 1) 1)

/-- `ext2_read_block`. -/
def ext2ReadBlock (dev : BlockDevice) (sb : BlockAccess) (block : Nat) (buffer : Bytes) :
    Int × Bytes :=
  match ext2BlockRequest dev sb block with
  | none => (2, buffer.fill 0 0 1024)
  | some request => requestFs dev request buffer

/-- `EXT2_MAGIC`. -/
def ext2Magic : Nat := 0xEF53

/-- `EXT2_ROOT_INO`. -/
def ext2RootIno : Nat := 2

/-- The fields of `ext2_sb` that are used. -/
structure Ext2Sb where
  inodesCount : Nat
  blocksCount : Nat
  firstDataBlock : Nat
  logBlockSize : Nat
  blocksPerGroup : Nat
  inodesPerGroup : Nat
  magic : Nat
  inoSize : Nat
  deriving DecidableEq, Repr

/-- The `ext2_sb` at an address. -/
def Ext2Sb.read (m : Bytes) (a : Nat) : Ext2Sb where
  inodesCount := m.word a
  blocksCount := m.word (a + 4)
  firstDataBlock := m.word (a + 20)
  logBlockSize := m.word (a + 24)
  blocksPerGroup := m.word (a + 32)
  inodesPerGroup := m.word (a + 40)
  magic := m.half (a + 56)
  inoSize := m.half (a + 88)

/-- `sizeof(ext2_group_dt)`. -/
def groupDtSize : Nat := 32

/-- `ext2_group_dt`. -/
structure Ext2GroupDt where
  blockBitmap : Nat
  inodeBitmap : Nat
  inodeTable : Nat
  freeBlocksCount : Nat
  freeInodesCount : Nat
  usedDirsCount : Nat
  pad : Nat
  unused : Nat × Nat × Nat
  deriving DecidableEq, Repr

/-- The `ext2_group_dt` at an address. -/
def Ext2GroupDt.read (m : Bytes) (a : Nat) : Ext2GroupDt where
  blockBitmap := m.word a
  inodeBitmap := m.word (a + 4)
  inodeTable := m.word (a + 8)
  freeBlocksCount := m.half (a + 12)
  freeInodesCount := m.half (a + 14)
  usedDirsCount := m.half (a + 16)
  pad := m.half (a + 18)
  unused := (m.word (a + 20), m.word (a + 24), m.word (a + 28))

/-- The fields of `ext2_inode` that are used, with `block` for the array `i_block`. -/
structure Ext2Inode where
  mode : Nat
  uid : Nat
  size : Nat
  atime : Nat
  ctime : Nat
  mtime : Nat
  gid : Nat
  nlinks : Nat
  block : List Nat
  deriving DecidableEq, Repr

/-- `EXT2_N_BLOCKS`. -/
def ext2NBlocks : Nat := 15

/-- The `ext2_inode` at an address. -/
def Ext2Inode.read (m : Bytes) (a : Nat) : Ext2Inode where
  mode := m.half a
  uid := m.half (a + 2)
  size := m.word (a + 4)
  atime := m.word (a + 8)
  ctime := m.word (a + 12)
  mtime := m.word (a + 16)
  gid := m.half (a + 24)
  nlinks := m.half (a + 26)
  block := (List.range ext2NBlocks).map fun i => m.word (a + 40 + 4 * i)

/-- `ext2_group`. A bitmap is read by `char`, also beside the block that holds it. -/
structure Ext2Group where
  inodeBitmap : Int → BitVec 8
  blockBitmap : Int → BitVec 8
  phys : Ext2GroupDt

/-- The bytes of a heap block in which the first ones have been filled. -/
def inHeap (heap : Int → BitVec 8) (buffer : Bytes) (i : Int) : BitVec 8 :=
  if i < 0 then heap i else buffer i.toNat

/-- The bytes of a fresh heap block. -/
def fresh (heap : Int → BitVec 8) : Bytes := fun i => heap i

/-- The fields of a vnode that `ext2_read_inode` uses; `inode` is `u.ext2_i`. -/
structure Ext2Node where
  ino : Nat
  nlinks : Nat := 0
  uid : Nat := 0
  gid : Nat := 0
  mode : Nat := 0
  flags : Nat := 0
  size : Nat := 0
  atime : Nat := 0
  mtime : Nat := 0
  ctime : Nat := 0
  inode : Option Ext2Inode := none
  deriving DecidableEq, Repr

/-- A super block that `read_ext2_sb` has filled, with its `ext2_discr`. -/
structure Ext2Super extends BlockAccess where
  blocksizeBits : Nat
  pysb : Ext2Sb
  groups : List Ext2Group
  inodesPerBlock : Nat

/-- `group_count`: `groups` holds so many groups. -/
def Ext2Super.groupCount (sb : Ext2Super) : Nat := sb.groups.length

/-- `a / b`. -/
def divide (a b : Nat) : Option Nat := if b = 0 then none else some (a / b)

/-- `a % b`. -/
def remainder (a b : Nat) : Option Nat := if b = 0 then none else some (a % b)

/-- `ext2_inode_used`. The `char` is extended to an `int`, and a shift count is cut to 5 bits. -/
def ext2InodeUsed (inodeBitmap : Int → BitVec 8) (groupOff : Int) : Bool :=
  ((inodeBitmap (groupOff.tdiv 8)).signExtend 32).getLsbD ((groupOff.tmod 8) % 32).toNat

/-- The flags of a vnode for the type of an inode, the `switch` of `ext2_read_inode`. -/
def ext2Flags (mode : Nat) : Option Nat :=
  match mode &&& 0xF000 with
  | 0x1000 => some 5  -- FS_PIPE
  | 0x2000 => some 3  -- FS_CHARDEVICE
  | 0x4000 => some 2  -- FS_DIRECTORY
  | 0x6000 => some 4  -- FS_BLOCKDEVICE
  | 0x8000 => some 1  -- FS_FILE
  | 0xA000 => some 6  -- FS_SYMLINK
  | _ => none

/-- The fields of a vnode are filled from an inode. -/
def Ext2Node.load (node : Ext2Node) (inode : Ext2Inode) : Ext2Node :=
  let node := { node with
    atime := inode.atime
    ctime := inode.ctime
    mtime := inode.mtime
    mode := inode.mode &&& 0x1FF }
  match ext2Flags inode.mode with
  | none => node
  | some flags =>
    { node with
      flags
      uid := inode.uid
      gid := inode.gid
      nlinks := inode.nlinks % ucharWidth
      size := inode.size
      inode := some inode }

/-- `ext2_read_inode`. -/
def ext2ReadInode (dev : BlockDevice) (sb : Ext2Super) (heap : Int → BitVec 8)
    (node : Ext2Node) : Option Ext2Node :=
  if node.ino = 0 ∨ node.ino > sb.pysb.inodesCount then some node
  else do
    let group ← divide (node.ino - 1) sb.pysb.inodesPerGroup
    match sb.groups[group]? with
    | none => some node  -- group >= group_count
    | some g => do
      let goff ← remainder (node.ino - 1) sb.pysb.inodesPerGroup
      if !ext2InodeUsed g.inodeBitmap (toInt goff) then some node
      else do
        let block ← divide goff sb.inodesPerBlock
        let slot ← remainder goff sb.inodesPerBlock
        let read := ext2ReadBlock dev sb.toBlockAccess (uadd g.phys.inodeTable block) (fresh heap)
        if read.1 ≤ 0 then some node
        else some (node.load (Ext2Inode.read read.2 (slot * sb.pysb.inoSize)))

/-- A call of `ext2_read_block` and how many bytes its buffer has. -/
structure BlockRead where
  block : Nat
  room : Nat
  deriving DecidableEq, Repr

/-- The block `read_ext2_sb` reads the descriptor of a group from. -/
def groupBlock (py : Ext2Sb) (i : Nat) : Nat :=
  uadd (uadd py.firstDataBlock (umul py.blocksPerGroup i)) 1

/-- One pass of the loop of `read_ext2_sb`: the group, if its blocks could be read, with what
is in `buf` then and the calls that were made. -/
def readGroup (dev : BlockDevice) (sb : BlockAccess) (py : Ext2Sb) (heap : Int → BitVec 8)
    (i : Nat) (buf : Bytes) : Option Ext2Group × Bytes × List BlockRead :=
  let read := ext2ReadBlock dev sb (groupBlock py i) buf
  let calls := [⟨groupBlock py i, 1024⟩]
  if read.1 ≤ 0 then (none, read.2, calls)
  else
    let phys := Ext2GroupDt.read read.2 0
    let inodes := ext2ReadBlock dev sb phys.inodeBitmap (fresh heap)
    let calls := calls ++ [⟨phys.inodeBitmap, sb.blocksize⟩]
    if inodes.1 ≤ 0 then (none, read.2, calls)
    else
      let blocks := ext2ReadBlock dev sb phys.blockBitmap (fresh heap)
      let calls := calls ++ [⟨phys.blockBitmap, sb.blocksize⟩]
      if blocks.1 ≤ 0 then (none, read.2, calls)
      else
        let group : Ext2Group :=
          { inodeBitmap := inHeap heap inodes.2, blockBitmap := inHeap heap blocks.2, phys }
        (some group, read.2, calls)

/-- The loop of `read_ext2_sb` over so many groups from the `i`-th. The heap around the blocks
of a group is that of its number. -/
def readGroups (dev : BlockDevice) (sb : BlockAccess) (py : Ext2Sb)
    (heap : Nat → Int → BitVec 8) : Nat → Nat → Bytes → Option (List Ext2Group) × List BlockRead
  | 0, _, _ => (some [], [])
  | left + 1, i, buf =>
    match readGroup dev sb py (heap i) i buf with
    | (none, _, calls) => (none, calls)
    | (some group, buf, calls) =>
      let rest := readGroups dev sb py heap left (i + 1) buf
      (rest.1.map (group :: ·), calls ++ rest.2)

/-- `group_count`, as `read_ext2_sb` computes it from the quotient. -/
def groupsOf (quotient : Nat) : Nat := uadd quotient 1

/-- `0x400 << s_log_block_size`, stored in a ULONG. -/
def blocksizeOf (logBlockSize : Nat) : Nat := 0x400 * 2 ^ (logBlockSize % 32) % uintWidth

/-- How blocks are read before the super block is known. -/
def firstAccess : BlockAccess := { blocksize := 0x400, skipBytes := 0x400 }

/-- How `read_ext2_sb` lets blocks be read from a super block on. -/
def recordedAccess (py : Ext2Sb) : BlockAccess :=
  { firstAccess with blocksize := blocksizeOf py.logBlockSize }

/-- The first part of `read_ext2_sb`: the super block on the disk, if it can be read and has
the right magic, and what is in `buf` then. -/
def readSuperRecord (dev : BlockDevice) (stack : Bytes) : Option (Ext2Sb × Bytes) :=
  let read := ext2ReadBlock dev firstAccess 1 stack
  if read.1 ≤ 0 then none
  else
    let py := Ext2Sb.read read.2 0
    if py.magic ≠ ext2Magic then none else some (py, read.2)

/-- What `read_ext2_sb` returns, the root it has read, and its calls of `ext2_read_block`. -/
structure SuperRead where
  sb : Option (Ext2Super × Ext2Node)
  calls : List BlockRead

/-- `read_ext2_sb`. -/
def readExt2Sb (dev : BlockDevice) (stack : Bytes) (heap : Nat → Int → BitVec 8) :
    Option SuperRead :=
  let calls := [⟨1, 1024⟩]
  match readSuperRecord dev stack with
  | none => some { sb := none, calls }
  | some (py, buf) => do
    let access := recordedAccess py
    let inodesPerBlock ← divide access.blocksize py.inoSize
    let quotient ← divide py.blocksCount py.blocksPerGroup
    let loop := readGroups dev access py heap (groupsOf quotient) 0 buf
    match loop.1 with
    | none => some { sb := none, calls := calls ++ loop.2 }
    | some groups =>
      let sb : Ext2Super :=
        { access with
          blocksizeBits := (py.logBlockSize + 10) % ucharWidth
          pysb := py
          groups
          inodesPerBlock }
      let root ← ext2ReadInode dev sb (heap (groupsOf quotient)) { ino := ext2RootIno }
      some { sb := some (sb, root), calls := calls ++ loop.2 }

/-- The driver copies every sector it is asked for that the device has. -/
def BlockDevice.Serves (dev : BlockDevice) : Prop :=
  ∀ request : SectorRequest,
    request.sector + request.count ≤ dev.bcount → dev.answer request = request.count

variable {dev : BlockDevice} {access : BlockAccess} {py : Ext2Sb} {request : SectorRequest}
  {heap : Int → BitVec 8} {buffer : Bytes} {a b i : Nat}

/-- A division is carried out for a divisor that is not 0. -/
theorem divide_eq_some (nonzero : b ≠ 0) : divide a b = some (a / b) := if_neg nonzero

/-- So is a remainder. -/
theorem remainder_eq_some (nonzero : b ≠ 0) : remainder a b = some (a % b) := if_neg nonzero

/-- The divide error is the one of the divisor 0. -/
@[simp] theorem divide_isSome : (divide a b).isSome ↔ b ≠ 0 := by
  unfold divide
  split <;> simp [*]

/-- So is that of a remainder. -/
@[simp] theorem remainder_isSome : (remainder a b).isSome ↔ b ≠ 0 := by
  unfold remainder
  split <;> simp [*]

/-- Block 0 is not read from the device. -/
@[simp] theorem ext2ReadBlock_zero :
    ext2ReadBlock dev access 0 buffer = (2, buffer.fill 0 0 1024) := rfl

/-- Another block is. -/
theorem ext2ReadBlock_of_ne (nonzero : b ≠ 0) :
    ext2ReadBlock dev access b buffer =
      requestFs dev (fsReadRequest dev access (b - 1) 1) buffer := by
  simp only [ext2ReadBlock, ext2BlockRequest, if_neg nonzero]

/-- The buffer after a read that the driver answers in full. -/
theorem requestFs_of_full (full : dev.answer request = request.count) :
    requestFs dev request buffer = ((request.count : Int), fun i =>
      if i < request.count * dev.bsize then dev.content (request.sector * dev.bsize + i)
      else buffer i) := by
  simp only [requestFs, full, Int.toNat_natCast]

/-- What `ramdisk_request` answers on a disk of so many sectors. -/
def ramdiskAnswer (bcount : Nat) (request : SectorRequest) : Nat :=
  if request.sector > bcount then 0
  else if uadd request.sector request.count > bcount then bcount - request.sector
  else request.count

/-- A RAM disk answers with what it has of a request. -/
theorem ramdiskAnswer_le (bcount : Nat) (request : SectorRequest) :
    ramdiskAnswer bcount request ≤ request.count := by
  have sum : uadd request.sector request.count ≤ request.sector + request.count :=
    Nat.mod_le _ _
  unfold ramdiskAnswer
  split
  · exact Nat.zero_le _
  · split <;> omega

/-- The RAM disk of `drivers/ramdisk.c`, of so many sectors. -/
def ramdisk (content : Bytes) (bcount : Nat) (small : bcount < uintWidth) : BlockDevice where
  bsize := 512
  bcount
  content
  answer request := ramdiskAnswer bcount request
  bsize_ge := Nat.le_refl 512
  bcount_lt := small
  answer_le request := Int.ofNat_le.mpr (ramdiskAnswer_le bcount request)

/-- A RAM disk copies every sector it has. -/
theorem ramdisk_serves (content : Bytes) {bcount : Nat} (small : bcount < uintWidth) :
    (ramdisk content bcount small).Serves := by
  intro request inside
  have within : request.sector + request.count ≤ bcount := inside
  have sum : uadd request.sector request.count = request.sector + request.count :=
    uadd_of_lt (Nat.lt_of_le_of_lt within small)
  show ((ramdiskAnswer bcount request : Nat) : Int) = request.count
  rw [ramdiskAnswer, if_neg (by omega), sum, if_neg (by omega)]

/-- A disk with some bytes that are not 0. -/
def image (bytes : List (Nat × BitVec 8)) : Bytes := fun a => (bytes.lookup a).getD 0

/-- A disk of 64 sectors. -/
theorem sectors_small : 64 < uintWidth := by decide

/-- A disk of 32 KiB with a super block of a given `s_log_block_size` and `s_ino_size`. -/
def smallDisk (logBlockSize inoSize : BitVec 8) : BlockDevice :=
  ramdisk (image [(1024, 16), (1028, 8), (1044, 1), (1048, logBlockSize), (1057, 32), (1064, 16),
    (1080, 0x53), (1081, 0xEF), (1112, inoSize)]) 64 sectors_small

/-- The super block of a small disk. -/
def smallRecord (logBlockSize inoSize : Nat) : Ext2Sb where
  inodesCount := 16
  blocksCount := 8
  firstDataBlock := 1
  logBlockSize
  blocksPerGroup := 8192
  inodesPerGroup := 16
  magic := ext2Magic
  inoSize

/-- What `buf` holds after the super block of a small disk has been read. -/
def smallBuffer (logBlockSize inoSize : BitVec 8) : Bytes :=
  (ext2ReadBlock (smallDisk logBlockSize inoSize) firstAccess 1 fun _ => 0).2

/-- `read_ext2_sb` on a small disk. -/
def smallRead (logBlockSize inoSize : BitVec 8) : Option SuperRead :=
  readExt2Sb (smallDisk logBlockSize inoSize) (fun _ => 0) fun _ _ => 0

end Nupkux
