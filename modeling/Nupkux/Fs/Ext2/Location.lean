import Nupkux.Fs.Ext2.Blocks
import Nupkux.Fs.Ext2.Divisors

/-!
# Where ext2 inodes are read from

The standard layout has one table of descriptors, after the super block, and copies of all of
it in the other groups. `read_ext2_sb` takes the first descriptor of the copy in each group, so
every group gets the descriptor of the first one. From there on the arithmetic of
`ext2_read_inode` finds the record of an inode.
-/

namespace Nupkux

variable {dev : BlockDevice} {py : Ext2Sb} {stack buf : Bytes} {heap : Nat → Int → BitVec 8}
  {block : Int → BitVec 8} {sb : Ext2Super} {node : Ext2Node} {b i ino : Nat}

/-- The number of groups the blocks of a file system divide into, after the boot block. -/
def layoutGroups (py : Ext2Sb) : Nat := (py.blocksCount - 1 + (py.blocksPerGroup - 1)) /
  py.blocksPerGroup

/-- The descriptor of a group in the table after the super block. -/
def descriptor (dev : BlockDevice) (i : Nat) : Ext2GroupDt :=
  Ext2GroupDt.read dev.content (blockByte 2 + groupDtSize * i)

/-- A file system with blocks of 1 KiB in the standard layout, in which every group has a copy
of the descriptor table. -/
structure StandardLayout (dev : BlockDevice) (py : Ext2Sb) : Prop where
  sectors : dev.bsize = 512
  kib : (recordedAccess py).blocksize = 1024
  first : py.firstDataBlock = 1
  blocks : 0 < py.blocksPerGroup
  inodes : 0 < py.inodesPerGroup ∧ py.inodesPerGroup ≤ 8192
  inoSize : 128 ≤ py.inoSize ∧ py.inoSize ∣ 1024
  device : py.blocksCount * 1024 ≤ dev.bcount * 512
  count : py.inodesCount ≤ py.inodesPerGroup * layoutGroups py
  inside : ∀ i < layoutGroups py, py.blocksPerGroup * i + 2 < py.blocksCount
  copies : ∀ i < layoutGroups py, ∀ a < groupDtSize * layoutGroups py,
    dev.content (blockByte (py.blocksPerGroup * i + 2) + a) = dev.content (blockByte 2 + a)
  bitmaps : ∀ i < layoutGroups py,
    (0 < (descriptor dev i).inodeBitmap ∧ (descriptor dev i).inodeBitmap < py.blocksCount) ∧
    0 < (descriptor dev i).blockBitmap ∧ (descriptor dev i).blockBitmap < py.blocksCount
  tables : ∀ i < layoutGroups py, 0 < (descriptor dev i).inodeTable ∧
    blockByte (descriptor dev i).inodeTable + py.inodesPerGroup * py.inoSize ≤
      blockByte py.blocksCount

/-- An inode number whose bit is set in the bitmap of its group. -/
def InodeInUse (dev : BlockDevice) (py : Ext2Sb) (ino : Nat) : Prop :=
  0 < ino ∧ ino ≤ py.inodesCount ∧
    (dev.content (blockByte (descriptor dev (groupOf py ino)).inodeBitmap +
      groupOffset py ino / 8)).getLsbD (groupOffset py ino % 8)

instance (dev : BlockDevice) (py : Ext2Sb) (ino : Nat) : Decidable (InodeInUse dev py ino) :=
  inferInstanceAs (Decidable (_ ∧ _ ∧ _))

/-- The record of an inode in the inode table of its group. -/
def inodeRecord (dev : BlockDevice) (py : Ext2Sb) (ino : Nat) : Ext2Inode :=
  Ext2Inode.read dev.content
    (blockByte (descriptor dev (groupOf py ino)).inodeTable + groupOffset py ino * py.inoSize)

/-- A vnode with the mode, the owner, the size, the times and the block map of an inode. -/
structure Loaded (node : Ext2Node) (inode : Ext2Inode) : Prop where
  mode : node.mode = inode.mode &&& 0x1FF
  owner : node.uid = inode.uid ∧ node.gid = inode.gid
  size : node.size = inode.size
  times : node.atime = inode.atime ∧ node.mtime = inode.mtime ∧ node.ctime = inode.ctime
  map : node.inode.map (·.block) = some inode.block

/-- `read_ext2_sb` returns the descriptor of every group, and `ext2_read_inode` then loads every
inode that is in use from its record. -/
def LocatesInodes (dev : BlockDevice) (py : Ext2Sb) (stack : Bytes)
    (heap : Nat → Int → BitVec 8) : Prop :=
  ∃ r sb root, readExt2Sb dev stack heap = some r ∧ r.sb = some (sb, root) ∧
    (∀ i < layoutGroups py, ∃ group, sb.groups[i]? = some group ∧
      group.phys = descriptor dev i) ∧
    ∀ ino, InodeInUse dev py ino → ∀ block, ∃ node,
      ext2ReadInode dev sb block { ino } = some node ∧ Loaded node (inodeRecord dev py ino)

/-- The fields of an inode whose type is known are loaded. -/
theorem loaded_iff {inode : Ext2Inode} (empty : node.inode = none) :
    Loaded (node.load inode) inode ↔ ext2Flags inode.mode ≠ none := by
  unfold Ext2Node.load
  cases known : ext2Flags inode.mode with
  | none =>
    refine iff_of_false (fun loaded => ?_) fun other => other rfl
    have map := loaded.map
    rw [show (Option.map _ node.inode) = none by rw [empty]; rfl] at map
    cases map
  | some flags => exact iff_of_true ⟨rfl, ⟨rfl, rfl⟩, rfl, ⟨rfl, rfl, rfl⟩, rfl⟩ nofun

/-- The bit of a bitmap that is tested. -/
theorem ext2InodeUsed_of_small {bitmap : Int → BitVec 8} {goff : Nat} (small : goff < 8192) :
    ext2InodeUsed bitmap (toInt goff) = (bitmap ((goff / 8 : Nat) : Int)).getLsbD (goff % 8) := by
  have kept : toInt goff = goff := by
    unfold toInt
    omega
  have byte : (goff : Int).tdiv 8 = ((goff / 8 : Nat) : Int) := rfl
  have bit : ((goff : Int).tmod 8 % 32).toNat = goff % 8 := by
    rw [show (goff : Int).tmod 8 = ((goff % 8 : Nat) : Int) from rfl]
    omega
  have narrow : goff % 8 < 8 := Nat.mod_lt _ (by decide)
  rw [kept, ext2InodeUsed, byte, bit, BitVec.getLsbD_signExtend, if_pos narrow,
    decide_eq_true (show goff % 8 < 32 by omega), Bool.true_and]

/-- An inode is its 100 bytes, wherever they are. -/
theorem inode_shift {m m' : Bytes} {a c : Nat} (same : ∀ i < 128, m' (c + i) = m (a + i)) :
    Ext2Inode.read m' c = Ext2Inode.read m a := by
  have word (k : Nat) (small : k + 4 ≤ 128) : m'.word (c + k) = m.word (a + k) :=
    Bytes.word_shift same small
  have half (k : Nat) (small : k + 2 ≤ 128) : m'.half (c + k) = m.half (a + k) :=
    Bytes.half_shift same small
  have blocks : (List.range ext2NBlocks).map (fun i => m'.word (c + 40 + 4 * i)) =
      (List.range ext2NBlocks).map fun i => m.word (a + 40 + 4 * i) := by
    apply List.map_congr_left
    intro i member
    have small : i < 15 := List.mem_range.mp member
    have entry := word (40 + 4 * i) (by omega)
    rwa [← Nat.add_assoc, ← Nat.add_assoc] at entry
  simp only [Ext2Inode.read, word 4 (by decide), word 8 (by decide), word 12 (by decide),
    word 16 (by decide), half 2 (by decide), half 24 (by decide), half 26 (by decide), blocks]
  rw [show m'.half c = m.half a from half 0 (by decide)]

/-- Slots of a block hold the records of the inodes of a group one after the other. -/
theorem slot_address (table goff : Nat) {size : Nat} (divides : size ∣ 1024) :
    blockByte (table + goff / (1024 / size)) + goff % (1024 / size) * size =
      blockByte table + goff * size := by
  have whole : 1024 / size * size = 1024 := Nat.div_mul_cancel divides
  have split : 1024 / size * (goff / (1024 / size)) + goff % (1024 / size) = goff :=
    Nat.div_add_mod goff (1024 / size)
  unfold blockByte
  calc
    (table + goff / (1024 / size)) * 1024 + goff % (1024 / size) * size
      = table * 1024 + goff / (1024 / size) * (1024 / size * size) +
          goff % (1024 / size) * size := by rw [whole, Nat.add_mul]
    _ = table * 1024 +
          (1024 / size * (goff / (1024 / size)) + goff % (1024 / size)) * size := by ring
    _ = table * 1024 + goff * size := by rw [split]

section Layout

variable (layout : StandardLayout dev py) (serves : dev.Serves)
include layout serves

/-- A block of the file system is read. -/
theorem StandardLayout.readBlock (positive : 0 < b) (small : b < py.blocksCount)
    (buffer : Bytes) : ext2ReadBlock dev (recordedAccess py) b buffer =
      (2, fun i => if i < 1024 then dev.content (blockByte b + i) else buffer i) := by
  have device := layout.device
  have within : 2 * b + 2 ≤ dev.bcount := by omega
  exact ext2ReadBlock_kib layout.sectors (Nat.ne_of_gt positive) layout.kib rfl within
    (serves ⟨2 * b, 2⟩ within) buffer

omit serves in
/-- The block a group's copy of the table starts at. -/
theorem StandardLayout.groupBlock_eq (small : i < layoutGroups py) :
    groupBlock py i = py.blocksPerGroup * i + 2 := by
  have device := layout.device
  have sectors := dev.bcount_lt
  have inside := layout.inside i small
  have product : umul py.blocksPerGroup i = py.blocksPerGroup * i :=
    umul_of_lt (by omega)
  have sum : uadd 1 (py.blocksPerGroup * i) = 1 + py.blocksPerGroup * i :=
    uadd_of_lt (by omega)
  rw [groupBlock, layout.first, product, sum, uadd_of_lt (by omega)]
  omega

/-- What is read of a group: the first descriptor, and the bitmaps that it names. -/
theorem StandardLayout.groupAt_eq (heap : Int → BitVec 8) (small : i < layoutGroups py) :
    ∃ group, groupAt dev py heap i = some group ∧ group.phys = descriptor dev 0 ∧
      ∀ j < 1024, group.inodeBitmap (j : Nat) =
        dev.content (blockByte (descriptor dev 0).inodeBitmap + j) := by
  have some_group : 0 < layoutGroups py := Nat.lt_of_le_of_lt (Nat.zero_le i) small
  obtain ⟨⟨inodes, inodes'⟩, blocks, blocks'⟩ := layout.bitmaps 0 some_group
  have phys : Ext2GroupDt.read (fun j => if j < 1024 then
        dev.content (blockByte (groupBlock py i) + j) else 0) 0 = descriptor dev 0 := by
    apply groupDt_shift
    intro a inside
    have near : a < 1024 := Nat.lt_trans inside (by decide)
    rw [Nat.zero_add, if_pos near, layout.groupBlock_eq small]
    exact layout.copies i small a (Nat.lt_of_lt_of_le inside (Nat.le_mul_of_pos_right _ some_group))
  have here : 0 < groupBlock py i ∧ groupBlock py i < py.blocksCount := by
    rw [layout.groupBlock_eq small]
    exact ⟨Nat.succ_pos _, layout.inside i small⟩
  simp only [groupAt, readGroup, layout.readBlock serves here.1 here.2, phys,
    layout.readBlock serves inodes inodes', layout.readBlock serves blocks blocks']
  refine ⟨_, rfl, rfl, fun j near => ?_⟩
  simp only [inHeap, Int.toNat_natCast]
  rw [if_neg (by omega), if_pos near]

omit serves in
/-- The code counts at least the groups of the layout. -/
theorem StandardLayout.groups_le : layoutGroups py ≤ groupCount py := by
  have device := layout.device
  have sectors := dev.bcount_lt
  have few : py.blocksCount / py.blocksPerGroup ≤ py.blocksCount := Nat.div_le_self _ _
  have sum : uadd (py.blocksCount / py.blocksPerGroup) 1 =
      py.blocksCount / py.blocksPerGroup + 1 := by
    apply uadd_of_lt
    unfold uintWidth at *
    omega
  rw [groupCount, groupsOf, sum, ← Nat.add_div_right _ layout.blocks]
  exact Nat.div_le_div_right (by omega)

omit serves in
/-- An inode number of the file system is in one of its groups. -/
theorem StandardLayout.groupOf_lt (first : 0 < ino) (last : ino ≤ py.inodesCount) :
    groupOf py ino < layoutGroups py := by
  have count := layout.count
  rw [groupOf, Nat.div_lt_iff_lt_mul layout.inodes.1, Nat.mul_comm]
  omega

/-- When all descriptors are equal, the record of an inode that is in use is read. -/
theorem StandardLayout.readInode_eq (mounted : Mounted dev py heap sb)
    (same : ∀ i < layoutGroups py, descriptor dev i = descriptor dev 0) (used : InodeInUse dev py ino) :
    ext2ReadInode dev sb block { ino } =
      some (Ext2Node.load { ino } (inodeRecord dev py ino)) := by
  obtain ⟨first, last, bit⟩ := used
  have small := layout.groupOf_lt first last
  obtain ⟨group, found, phys, bitmap⟩ :=
    layout.groupAt_eq serves (heap (groupOf py ino)) small
  have listed : sb.groups[(ino - 1) / py.inodesPerGroup]? = some group :=
    (mounted.groups _ (Nat.lt_of_lt_of_le small layout.groups_le)).trans found
  have goff : groupOffset py ino < py.inodesPerGroup := Nat.mod_lt _ layout.inodes.1
  have bits := layout.inodes.2
  have marked : ext2InodeUsed group.inodeBitmap (toInt (groupOffset py ino)) = true := by
    rw [ext2InodeUsed_of_small (by omega), bitmap _ (by omega), ← same _ small]
    exact bit
  -- the block and the slot of the record
  have positive : 0 < py.inoSize := Nat.lt_of_lt_of_le (by decide) layout.inoSize.1
  have slots : sb.inodesPerBlock = 1024 / py.inoSize := by rw [mounted.slots, layout.kib]
  have whole : 1024 / py.inoSize * py.inoSize = 1024 := Nat.div_mul_cancel layout.inoSize.2
  have some_slot : 0 < 1024 / py.inoSize :=
    Nat.div_pos (Nat.le_of_dvd (by decide) layout.inoSize.2) positive
  obtain ⟨table, inside⟩ := layout.tables _ small
  have device := layout.device
  have sectors := dev.bcount_lt
  have place := slot_address (descriptor dev (groupOf py ino)).inodeTable
    (groupOffset py ino) layout.inoSize.2
  have record : groupOffset py ino * py.inoSize < py.inodesPerGroup * py.inoSize :=
    Nat.mul_lt_mul_of_pos_right goff positive
  have near : (descriptor dev (groupOf py ino)).inodeTable +
      groupOffset py ino / (1024 / py.inoSize) < py.blocksCount := by
    unfold blockByte at place inside
    omega
  have sum : uadd group.phys.inodeTable (groupOffset py ino / sb.inodesPerBlock) =
      (descriptor dev (groupOf py ino)).inodeTable +
        groupOffset py ino / (1024 / py.inoSize) := by
    rw [phys, ← same _ small, slots]
    apply uadd_of_lt
    unfold uintWidth at sectors ⊢
    omega
  have read : ext2ReadBlock dev sb.toBlockAccess (uadd group.phys.inodeTable
      (groupOffset py ino / sb.inodesPerBlock)) (fresh block) = (2, fun i => if i < 1024 then
        dev.content (blockByte ((descriptor dev (groupOf py ino)).inodeTable +
          groupOffset py ino / (1024 / py.inoSize)) + i) else fresh block i) := by
    rw [sum, mounted.access]
    exact layout.readBlock serves (Nat.add_pos_left table _) near (fresh block)
  have slot : groupOffset py ino % (1024 / py.inoSize) * py.inoSize + 128 ≤ 1024 := by
    have last : (groupOffset py ino % (1024 / py.inoSize) + 1) * py.inoSize ≤ 1024 :=
      Nat.le_trans (Nat.mul_le_mul_right _ (Nat.mod_lt _ some_slot)) (Nat.le_of_eq whole)
    have size := layout.inoSize.1
    rw [Nat.add_one_mul] at last
    omega
  have bytes : Ext2Inode.read (fun i => if i < 1024 then dev.content (blockByte
        ((descriptor dev (groupOf py ino)).inodeTable +
          groupOffset py ino / (1024 / py.inoSize)) + i) else fresh block i)
        (groupOffset py ino % (1024 / py.inoSize) * py.inoSize) = inodeRecord dev py ino := by
    apply inode_shift
    intro k below
    rw [if_pos (by omega), ← Nat.add_assoc, place]
  have answered : 0 < (ext2ReadBlock dev sb.toBlockAccess (uadd group.phys.inodeTable
      (groupOffset py ino / sb.inodesPerBlock)) (fresh block)).1 := by
    rw [read]
    show (0 : Int) < 2
    decide
  have inodes : sb.pysb.inodesPerGroup ≠ 0 := by
    rw [mounted.record]
    exact Nat.ne_of_gt layout.inodes.1
  have numbered : ¬(ino = 0 ∨ ino > sb.pysb.inodesCount) := by
    rw [mounted.record]
    omega
  rw [← mounted.record] at answered marked listed
  have some_slots : sb.inodesPerBlock ≠ 0 := by omega
  rw [ext2ReadInode_of_used { ino } numbered inodes some_slots listed marked answered]
  simp only [mounted.record]
  rw [read, slots, bytes]

/-- The groups of the layout can be read, so those that only the code counts decide. -/
theorem StandardLayout.groupsReadable_iff : GroupsReadable dev py heap ↔
    ∀ i, layoutGroups py ≤ i → i < groupCount py → (groupAt dev py (heap i) i).isSome := by
  constructor
  · intro readable i _ small
    exact readable i small
  · intro beyond i small
    by_cases inside : i < layoutGroups py
    · obtain ⟨group, found, -⟩ := layout.groupAt_eq serves (heap i) inside
      rw [found]
      rfl
    · exact beyond i (Nat.le_of_not_lt inside) small

/-- Inodes are located right if all descriptors are equal, the type of every inode in use is
known, and a group that the code counts beyond those of the layout can be read. -/
theorem locatesInodes_iff (record : readSuperRecord dev stack = some (py, buf)) :
    LocatesInodes dev py stack heap ↔
      (∀ i, layoutGroups py ≤ i → i < groupCount py → (groupAt dev py (heap i) i).isSome) ∧
      (∀ i < layoutGroups py, descriptor dev i = descriptor dev 0) ∧
      ∀ ino, InodeInUse dev py ino → ext2Flags (inodeRecord dev py ino).mode ≠ none := by
  rw [← layout.groupsReadable_iff serves]
  have inoSize : 0 < py.inoSize := Nat.lt_of_lt_of_le (by decide) layout.inoSize.1
  have sizes : py.inoSize ≠ 0 ∧ py.blocksPerGroup ≠ 0 :=
    ⟨Nat.ne_of_gt inoSize, Nat.ne_of_gt layout.blocks⟩
  constructor
  · rintro ⟨r, sb, root, ran, returned, descriptors, loads⟩
    obtain ⟨mounted, readable, -⟩ := readExt2Sb_mounted record ran returned
    have same : ∀ i < layoutGroups py, descriptor dev i = descriptor dev 0 := by
      intro i small
      obtain ⟨group, listed, phys⟩ := descriptors i small
      obtain ⟨read, found, first, -⟩ := layout.groupAt_eq serves (heap i) small
      have both : some group = some read := listed.symm.trans
        ((mounted.groups i (Nat.lt_of_lt_of_le small layout.groups_le)).trans found)
      rw [← phys, ← first, Option.some.inj both]
    refine ⟨readable, same, fun ino used => ?_⟩
    obtain ⟨node, loaded, fields⟩ := loads ino used fun _ => 0
    rw [layout.readInode_eq serves mounted same used] at loaded
    rw [← Option.some.inj loaded] at fields
    exact (loaded_iff rfl).mp fields
  · rintro ⟨readable, same, known⟩
    obtain ⟨sb, calls, mounted, ran⟩ := readExt2Sb_mounts record sizes readable
    have fits : py.inoSize ≤ (recordedAccess py).blocksize := by
      rw [layout.kib]
      exact Nat.le_of_dvd (by decide) layout.inoSize.2
    have located : InodesLocated dev py heap :=
      fun _ => ⟨Nat.ne_of_gt layout.inodes.1, fun _ => fits⟩
    obtain ⟨root, reads⟩ := Option.isSome_iff_exists.mp
      ((ext2ReadInode_isSome_all mounted sizes.1).mpr located (heap (groupCount py))
        { ino := ext2RootIno })
    rw [reads] at ran
    refine ⟨_, sb, root, ran, rfl, fun i small => ?_, fun ino used block => ?_⟩
    · obtain ⟨group, found, first, -⟩ := layout.groupAt_eq serves (heap i) small
      exact ⟨group, (mounted.groups i (Nat.lt_of_lt_of_le small layout.groups_le)).trans found,
        first.trans (same i small).symm⟩
    · exact ⟨_, layout.readInode_eq serves mounted same used, (loaded_iff rfl).mpr (known ino used)⟩

end Layout

/-- A disk with groups of 8 blocks and 8 inodes, of which the inodes 2 and 9 are in use. -/
def groupsDisk (blocksCount inodesCount : BitVec 8) : BlockDevice :=
  ramdisk (image [(1024, inodesCount), (1028, blocksCount), (1044, 1), (1056, 8), (1064, 8),
    (1080, 0x53), (1081, 0xEF), (1112, 128),
    (2048, 3), (2052, 4), (2056, 5), (2080, 11), (2084, 12), (2088, 13),
    (10240, 3), (10244, 4), (10248, 5), (10272, 11), (10276, 12), (10280, 13),
    (4096, 2), (5248, 0xED), (5249, 0x41), (12288, 1), (13312, 0xA4), (13313, 0x81),
    (13316, 5)]) 64 sectors_small

/-- The super block of a disk with groups. -/
def groupsRecord (blocksCount inodesCount : Nat) : Ext2Sb where
  inodesCount
  blocksCount
  firstDataBlock := 1
  logBlockSize := 0
  blocksPerGroup := 8
  inodesPerGroup := 8
  magic := ext2Magic
  inoSize := 128

/-- What `buf` holds after the super block of a disk with groups has been read. -/
def groupsBuffer (blocksCount inodesCount : BitVec 8) : Bytes :=
  (ext2ReadBlock (groupsDisk blocksCount inodesCount) firstAccess 1 fun _ => 0).2

/-- One group is in the standard layout. -/
theorem groupsDisk_layout_one : StandardLayout (groupsDisk 7 8) (groupsRecord 7 8) where
  sectors := rfl
  kib := rfl
  first := rfl
  blocks := by decide
  inodes := by decide
  inoSize := by decide
  device := by decide
  count := by decide
  inside := by decide
  copies := by decide
  bitmaps := by decide
  tables := by decide

/-- So are two. -/
theorem groupsDisk_layout_two : StandardLayout (groupsDisk 15 16) (groupsRecord 15 16) where
  sectors := rfl
  kib := rfl
  first := rfl
  blocks := by decide
  inodes := by decide
  inoSize := by decide
  device := by decide
  count := by decide
  inside := by decide
  copies := by decide
  bitmaps := by decide
  tables := by decide

/-- The inodes of a file system with one group are located. -/
theorem locatesInodes_iff_one :
    readSuperRecord (groupsDisk 7 8) (fun _ => 0) = some (groupsRecord 7 8, groupsBuffer 7 8) ∧
    LocatesInodes (groupsDisk 7 8) (groupsRecord 7 8) (fun _ => 0) fun _ _ => 0 := by
  have record : readSuperRecord (groupsDisk 7 8) (fun _ => 0) =
      some (groupsRecord 7 8, groupsBuffer 7 8) := rfl
  refine ⟨record, (locatesInodes_iff groupsDisk_layout_one (ramdisk_serves _ sectors_small)
    record).mpr ⟨fun i first last => ?_, by decide, fun ino used => ?_⟩⟩
  · have few : groupCount (groupsRecord 7 8) = 1 := rfl
    have one : layoutGroups (groupsRecord 7 8) = 1 := rfl
    omega
  · have known : ∀ ino < 9, InodeInUse (groupsDisk 7 8) (groupsRecord 7 8) ino →
        ext2Flags (inodeRecord (groupsDisk 7 8) (groupsRecord 7 8) ino).mode ≠ none := by decide
    have small : ino ≤ 8 := used.2.1
    exact known ino (Nat.lt_succ_of_le small) used

/-- With two groups, the second one gets the descriptor of the first. -/
theorem locatesInodes_not :
    readSuperRecord (groupsDisk 15 16) (fun _ => 0) =
      some (groupsRecord 15 16, groupsBuffer 15 16) ∧
    StandardLayout (groupsDisk 15 16) (groupsRecord 15 16) ∧
    ¬LocatesInodes (groupsDisk 15 16) (groupsRecord 15 16) (fun _ => 0) fun _ _ => 0 := by
  refine ⟨rfl, groupsDisk_layout_two, ?_⟩
  rintro ⟨r, sb, root, ran, returned, descriptors, -⟩
  obtain ⟨group, listed, phys⟩ := descriptors 1 (by decide)
  have read : ((readExt2Sb (groupsDisk 15 16) (fun _ => 0) fun _ _ => 0).bind (·.sb)).bind
      (fun mounted => mounted.1.groups[1]?.map (·.phys.inodeTable)) = some 5 := by decide
  rw [ran, Option.bind_some, returned, Option.bind_some, listed] at read
  have table : group.phys.inodeTable = 5 := Option.some.inj read
  rw [phys] at table
  have other : (descriptor (groupsDisk 15 16) 1).inodeTable ≠ 5 := by decide
  exact other table

end Nupkux
