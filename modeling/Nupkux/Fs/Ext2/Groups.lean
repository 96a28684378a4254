import Nupkux.Fs.Ext2.Super

/-!
# The groups of a mounted ext2 file system

What `read_ext2_sb` keeps of a file system: the super block of the disk and one group for each
descriptor it has read. What is in its buffer between two groups does not matter.
-/

namespace Nupkux

variable {dev : BlockDevice} {py : Ext2Sb} {access : BlockAccess} {stack buf buffer : Bytes}
  {r : SuperRead} {sb : Ext2Super} {root : Ext2Node} {b i left : Nat}

/-- `group_count` of a file system. -/
def groupCount (py : Ext2Sb) : Nat := groupsOf (py.blocksCount / py.blocksPerGroup)

/-- The group of an inode number. -/
def groupOf (py : Ext2Sb) (ino : Nat) : Nat := (ino - 1) / py.inodesPerGroup

/-- The index of an inode number in its group. -/
def groupOffset (py : Ext2Sb) (ino : Nat) : Nat := (ino - 1) % py.inodesPerGroup

/-- The group `read_ext2_sb` reads at an index, if its blocks can be read. -/
def groupAt (dev : BlockDevice) (py : Ext2Sb) (heap : Int → BitVec 8) (i : Nat) :
    Option Ext2Group :=
  (readGroup dev (recordedAccess py) py heap i fun _ => 0).1

/-- A super block that `read_ext2_sb` returns. -/
structure Mounted (dev : BlockDevice) (py : Ext2Sb) (heap : Nat → Int → BitVec 8)
    (sb : Ext2Super) : Prop where
  access : sb.toBlockAccess = recordedAccess py
  record : sb.pysb = py
  slots : sb.inodesPerBlock = (recordedAccess py).blocksize / py.inoSize
  count : sb.groups.length = groupCount py
  groups : ∀ i < groupCount py, sb.groups[i]? = groupAt dev py (heap i) i

/-- What a read returns does not depend on the buffer. -/
theorem ext2ReadBlock_status (first second : Bytes) :
    (ext2ReadBlock dev access b first).1 = (ext2ReadBlock dev access b second).1 := by
  unfold ext2ReadBlock
  cases ext2BlockRequest dev access b <;> rfl

/-- Neither do the first 512 bytes of a block that was read. -/
theorem ext2ReadBlock_first (first second : Bytes)
    (read : 0 < (ext2ReadBlock dev access b first).1) (inside : i < 512) :
    (ext2ReadBlock dev access b first).2 i = (ext2ReadBlock dev access b second).2 i := by
  by_cases block : b = 0
  · subst block
    simp only [ext2ReadBlock_zero, Bytes.fill]
    rw [if_pos (by omega), if_pos (by omega)]
  · rw [ext2ReadBlock_of_ne block] at read ⊢
    rw [ext2ReadBlock_of_ne block]
    have answered : 0 < dev.answer (fsReadRequest dev access (b - 1) 1) := read
    have sector : 1 * 512 ≤ (dev.answer (fsReadRequest dev access (b - 1) 1)).toNat * dev.bsize :=
      Nat.mul_le_mul (by omega) dev.bsize_ge
    simp only [requestFs]
    rw [if_pos (by omega), if_pos (by omega)]

/-- A descriptor is its 32 bytes, wherever they are. -/
theorem groupDt_shift {m m' : Bytes} {a c : Nat}
    (same : ∀ i < groupDtSize, m' (c + i) = m (a + i)) :
    Ext2GroupDt.read m' c = Ext2GroupDt.read m a := by
  have word (k : Nat) (small : k + 4 ≤ groupDtSize) : m'.word (c + k) = m.word (a + k) :=
    Bytes.word_shift same small
  have half (k : Nat) (small : k + 2 ≤ groupDtSize) : m'.half (c + k) = m.half (a + k) :=
    Bytes.half_shift same small
  simp only [Ext2GroupDt.read, word 4 (by decide), word 8 (by decide), word 20 (by decide),
    word 24 (by decide), word 28 (by decide), half 12 (by decide), half 14 (by decide),
    half 16 (by decide), half 18 (by decide)]
  rw [show m'.word c = m.word a from word 0 (by decide)]

/-- The group that is read does not depend on the buffer. -/
theorem readGroup_fst (heap : Int → BitVec 8) (i : Nat) (buf : Bytes) :
    (readGroup dev (recordedAccess py) py heap i buf).1 = groupAt dev py heap i := by
  have status : (ext2ReadBlock dev (recordedAccess py) (groupBlock py i) buf).1 =
      (ext2ReadBlock dev (recordedAccess py) (groupBlock py i) fun _ => 0).1 :=
    ext2ReadBlock_status _ _
  unfold groupAt
  by_cases failed : (ext2ReadBlock dev (recordedAccess py) (groupBlock py i) buf).1 ≤ 0
  · have failed' := status ▸ failed
    simp only [readGroup, if_pos failed, if_pos failed']
  · have failed' := status ▸ failed
    have phys : Ext2GroupDt.read
          (ext2ReadBlock dev (recordedAccess py) (groupBlock py i) buf).2 0 =
        Ext2GroupDt.read
          (ext2ReadBlock dev (recordedAccess py) (groupBlock py i) fun _ => 0).2 0 := by
      apply groupDt_shift
      intro a inside
      have small : 0 + a < 512 := by
        rw [Nat.zero_add]
        exact Nat.lt_trans inside (by decide)
      exact ext2ReadBlock_first _ _ (by omega) small
    simp only [readGroup, if_neg failed, if_neg failed', phys]
    split
    · rfl
    · split <;> rfl

/-- The loop reads so many groups, each at its index. -/
theorem readGroups_eq_some {heap : Nat → Int → BitVec 8} {groups : List Ext2Group} :
    (readGroups dev (recordedAccess py) py heap left i buf).1 = some groups ↔
      groups.length = left ∧ ∀ j < left, groups[j]? = groupAt dev py (heap (i + j)) (i + j) := by
  induction left generalizing i buf groups with
  | zero =>
    rw [readGroups, Option.some_inj, List.length_eq_zero_iff]
    exact ⟨fun same => ⟨same.symm, fun j small => absurd small (Nat.not_lt_zero j)⟩,
      fun same => same.1.symm⟩
  | succ left ih =>
    have one : (readGroup dev (recordedAccess py) py (heap i) i buf).1 =
        groupAt dev py (heap i) i := readGroup_fst (heap i) i buf
    rw [readGroups]
    rcases same : readGroup dev (recordedAccess py) py (heap i) i buf with ⟨group, rest, calls⟩
    rw [same] at one
    cases group with
    | none =>
      constructor
      · intro read
        cases read
      · rintro ⟨length, all⟩
        have first := all 0 (Nat.succ_pos left)
        rw [Nat.add_zero, ← one, List.getElem?_eq_none_iff] at first
        omega
    | some group =>
      show Option.map _ _ = _ ↔ _
      rw [Option.map_eq_some_iff]
      constructor
      · rintro ⟨later, read, rfl⟩
        obtain ⟨length, all⟩ := ih.mp read
        refine ⟨by rw [List.length_cons, length], fun j small => ?_⟩
        cases j with
        | zero => exact one
        | succ j =>
          have next := all j (Nat.lt_of_succ_lt_succ small)
          rwa [show i + 1 + j = i + (j + 1) by omega] at next
      · rintro ⟨length, all⟩
        cases groups with
        | nil => cases length
        | cons head later =>
          have first : some head = some group := (all 0 (Nat.succ_pos left)).trans one.symm
          refine ⟨later, ih.mpr ⟨Nat.succ.inj length, fun j small => ?_⟩, ?_⟩
          · have next := all (j + 1) (Nat.succ_lt_succ small)
            rwa [show i + (j + 1) = i + 1 + j by omega] at next
          · rw [Option.some.inj first]

/-- All groups are read if the blocks of each can be. -/
theorem readGroups_isSome {heap : Nat → Int → BitVec 8}
    (readable : ∀ j < left, (groupAt dev py (heap (i + j)) (i + j)).isSome) :
    (readGroups dev (recordedAccess py) py heap left i buf).1.isSome := by
  induction left generalizing i buf with
  | zero => rfl
  | succ left ih =>
    have one : (readGroup dev (recordedAccess py) py (heap i) i buf).1 =
        groupAt dev py (heap i) i := readGroup_fst (heap i) i buf
    have first := readable 0 (Nat.succ_pos left)
    rw [Nat.add_zero, ← one] at first
    rw [readGroups]
    rcases same : readGroup dev (recordedAccess py) py (heap i) i buf with ⟨group, rest, calls⟩
    rw [same] at first
    cases group with
    | none => cases first
    | some group =>
      show (Option.map _ _).isSome
      rw [Option.isSome_map]
      apply ih
      intro j small
      have next := readable (j + 1) (Nat.succ_lt_succ small)
      rwa [show i + (j + 1) = i + 1 + j by omega] at next

/-- The blocks of every group can be read. -/
def GroupsReadable (dev : BlockDevice) (py : Ext2Sb) (heap : Nat → Int → BitVec 8) : Prop :=
  ∀ i < groupCount py, (groupAt dev py (heap i) i).isSome

/-- The loop over all groups succeeds if their blocks can be read. -/
theorem readGroups_isSome_iff {heap : Nat → Int → BitVec 8} (buf : Bytes) :
    (readGroups dev (recordedAccess py) py heap (groupCount py) 0 buf).1.isSome ↔
      GroupsReadable dev py heap := by
  constructor
  · intro read i small
    obtain ⟨groups, read⟩ := Option.isSome_iff_exists.mp read
    obtain ⟨length, all⟩ := readGroups_eq_some.mp read
    have here := all i small
    rw [Nat.zero_add] at here
    rw [← here, List.getElem?_eq_getElem (length ▸ small)]
    rfl
  · intro readable
    apply readGroups_isSome
    intro j small
    rw [Nat.zero_add]
    exact readable j small

/-- The record of an inode that is in use is loaded. -/
theorem ext2ReadInode_of_used {heap : Int → BitVec 8} {group : Ext2Group} (node : Ext2Node)
    (inside : ¬(node.ino = 0 ∨ node.ino > sb.pysb.inodesCount))
    (groups : sb.pysb.inodesPerGroup ≠ 0) (slots : sb.inodesPerBlock ≠ 0)
    (found : sb.groups[groupOf sb.pysb node.ino]? = some group)
    (used : ext2InodeUsed group.inodeBitmap (toInt (groupOffset sb.pysb node.ino)) = true)
    (read : 0 < (ext2ReadBlock dev sb.toBlockAccess (uadd group.phys.inodeTable
      (groupOffset sb.pysb node.ino / sb.inodesPerBlock)) (fresh heap)).1) :
    ext2ReadInode dev sb heap node = some (node.load (Ext2Inode.read
      (ext2ReadBlock dev sb.toBlockAccess (uadd group.phys.inodeTable
        (groupOffset sb.pysb node.ino / sb.inodesPerBlock)) (fresh heap)).2
      (groupOffset sb.pysb node.ino % sb.inodesPerBlock * sb.pysb.inoSize))) := by
  rw [ext2ReadInode, if_neg inside, divide_eq_some groups, remainder_eq_some groups,
    Option.bind_eq_bind, Option.bind_some]
  rw [groupOf] at found
  rw [groupOffset] at used read ⊢
  rw [found]
  generalize (node.ino - 1) % sb.pysb.inodesPerGroup = goff at *
  dsimp only
  rw [Option.bind_some]
  generalize toInt goff = groupOff at *
  simp only [used, divide_eq_some slots, remainder_eq_some slots, Option.bind_some]
  rw [Bool.not_true, if_neg Bool.false_ne_true, if_neg (by omega)]

section Mount

variable {heap : Nat → Int → BitVec 8} (record : readSuperRecord dev stack = some (py, buf))
include record

/-- The divisions of `read_ext2_sb` are carried out if the two divisors are not 0. -/
theorem readExt2Sb_ne_zero (ran : readExt2Sb dev stack heap = some r) :
    py.inoSize ≠ 0 ∧ py.blocksPerGroup ≠ 0 := by
  simp only [readExt2Sb, record, Option.bind_eq_bind, Option.bind_eq_some_iff] at ran
  obtain ⟨inodes, first, quotient, second, -⟩ := ran
  exact ⟨divide_isSome.mp (Option.isSome_of_eq_some first),
    divide_isSome.mp (Option.isSome_of_eq_some second)⟩

/-- `read_ext2_sb` returns 0 if the blocks of a group cannot be read. -/
theorem readExt2Sb_refuses (sizes : py.inoSize ≠ 0 ∧ py.blocksPerGroup ≠ 0)
    (unread : ¬GroupsReadable dev py heap) :
    ∃ r, readExt2Sb dev stack heap = some r ∧ r.sb = none := by
  rw [← readGroups_isSome_iff buf, Option.not_isSome_iff_eq_none] at unread
  simp only [readExt2Sb, record, divide_eq_some sizes.1, divide_eq_some sizes.2,
    Option.bind_eq_bind, Option.bind_some]
  rw [show groupsOf (py.blocksCount / py.blocksPerGroup) = groupCount py from rfl, unread]
  exact ⟨_, rfl, rfl⟩

/-- Otherwise it fills a super block and reads the root. -/
theorem readExt2Sb_mounts (sizes : py.inoSize ≠ 0 ∧ py.blocksPerGroup ≠ 0)
    (readable : GroupsReadable dev py heap) :
    ∃ sb calls, Mounted dev py heap sb ∧ readExt2Sb dev stack heap =
      (ext2ReadInode dev sb (heap (groupCount py)) { ino := ext2RootIno }).map fun root =>
        { sb := some (sb, root), calls } := by
  obtain ⟨groups, read⟩ :=
    Option.isSome_iff_exists.mp ((readGroups_isSome_iff buf).mpr readable)
  obtain ⟨length, all⟩ := readGroups_eq_some.mp read
  have same : groupsOf (py.blocksCount / py.blocksPerGroup) = groupCount py := rfl
  let sb : Ext2Super :=
    { recordedAccess py with
      blocksizeBits := (py.logBlockSize + 10) % ucharWidth
      pysb := py
      groups
      inodesPerBlock := (recordedAccess py).blocksize / py.inoSize }
  have mounted : Mounted dev py heap sb :=
    { access := rfl
      record := rfl
      slots := rfl
      count := length
      groups i small := by
        have here := all i small
        rwa [Nat.zero_add] at here }
  refine ⟨sb, [⟨1, 1024⟩] ++ (readGroups dev (recordedAccess py) py heap (groupCount py) 0 buf).2,
    mounted, ?_⟩
  simp only [readExt2Sb, record, divide_eq_some sizes.1, divide_eq_some sizes.2,
    Option.bind_eq_bind, Option.bind_some, same, read]
  exact Option.map_eq_bind.symm

/-- A super block that `read_ext2_sb` returns holds what it has read. -/
theorem readExt2Sb_mounted (ran : readExt2Sb dev stack heap = some r)
    (returned : r.sb = some (sb, root)) :
    Mounted dev py heap sb ∧ GroupsReadable dev py heap ∧
      ext2ReadInode dev sb (heap (groupCount py)) { ino := ext2RootIno } = some root := by
  have sizes := readExt2Sb_ne_zero record ran
  by_cases readable : GroupsReadable dev py heap
  · obtain ⟨sb', calls, mounted, same⟩ := readExt2Sb_mounts record sizes readable
    rw [ran] at same
    obtain ⟨root', reads, filled⟩ := Option.map_eq_some_iff.mp same.symm
    rw [← filled] at returned
    obtain ⟨rfl, rfl⟩ := Prod.mk.inj (Option.some.inj returned)
    exact ⟨mounted, readable, reads⟩
  · obtain ⟨r', same, refused⟩ := readExt2Sb_refuses record sizes readable
    rw [ran] at same
    rw [Option.some.inj same, refused] at returned
    cases returned

end Mount

end Nupkux
