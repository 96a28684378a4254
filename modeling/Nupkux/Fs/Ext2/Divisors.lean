import Nupkux.Fs.Ext2.Groups

/-!
# The divisors of an ext2 super block

`read_ext2_sb` and `ext2_read_inode` divide by fields of the super block on the disk, and by the
number of inodes in a block that is computed from two of them. None of them is checked. The
divide error stays away for the super blocks described here.
-/

namespace Nupkux

variable {dev : BlockDevice} {py : Ext2Sb} {stack buf : Bytes} {heap : Nat → Int → BitVec 8}
  {block : Int → BitVec 8} {sb : Ext2Super} {node : Ext2Node}

/-- Neither the mount nor the read of an inode divides by 0. -/
structure NoDivideError (dev : BlockDevice) (stack : Bytes) (heap : Nat → Int → BitVec 8) :
    Prop where
  mounts : (readExt2Sb dev stack heap).isSome
  reads : ∀ r sb root, readExt2Sb dev stack heap = some r → r.sb = some (sb, root) →
    ∀ block node, (ext2ReadInode dev sb block node).isSome

/-- Some inode of the groups is marked as used. -/
def SomeInodeUsed (dev : BlockDevice) (py : Ext2Sb) (heap : Nat → Int → BitVec 8) : Prop :=
  ∃ ino group, 0 < ino ∧ ino ≤ py.inodesCount ∧ groupOf py ino < groupCount py ∧
    groupAt dev py (heap (groupOf py ino)) (groupOf py ino) = some group ∧
    ext2InodeUsed group.inodeBitmap (toInt (groupOffset py ino))

/-- The divisions of `ext2_read_inode`. -/
theorem ext2ReadInode_isSome_iff : (ext2ReadInode dev sb block node).isSome ↔
    (node.ino = 0 ∨ node.ino > sb.pysb.inodesCount) ∨
      sb.pysb.inodesPerGroup ≠ 0 ∧
        ∀ group, sb.groups[groupOf sb.pysb node.ino]? = some group →
          ext2InodeUsed group.inodeBitmap (toInt (groupOffset sb.pysb node.ino)) →
          sb.inodesPerBlock ≠ 0 := by
  unfold ext2ReadInode
  by_cases outside : node.ino = 0 ∨ node.ino > sb.pysb.inodesCount
  · rw [if_pos outside]
    exact iff_of_true rfl (Or.inl outside)
  · rw [if_neg outside, or_iff_right outside]
    by_cases groups : sb.pysb.inodesPerGroup = 0
    · simp [divide, groups]
    · rw [divide_eq_some groups, remainder_eq_some groups, and_iff_right groups, groupOf,
        groupOffset, Option.bind_eq_bind, Option.bind_some]
      generalize (node.ino - 1) / sb.pysb.inodesPerGroup = index
      generalize (node.ino - 1) % sb.pysb.inodesPerGroup = goff
      cases found : sb.groups[index]? with
      | none => simp
      | some group =>
        dsimp only
        rw [Option.bind_some]
        generalize toInt goff = groupOff
        by_cases used : ext2InodeUsed group.inodeBitmap groupOff
        · by_cases slots : sb.inodesPerBlock = 0
          · simp [used, slots, divide]
          · simp only [used, divide_eq_some slots, remainder_eq_some slots, Option.bind_some]
            refine iff_of_true ?_ fun _ _ _ => slots
            rw [Bool.not_true, if_neg Bool.false_ne_true]
            split <;> rfl
        · simp [used]

/-- The inodes of a file system can be located: there are inodes in a group, and in a block if
one of them is used. -/
def InodesLocated (dev : BlockDevice) (py : Ext2Sb) (heap : Nat → Int → BitVec 8) : Prop :=
  py.inodesCount ≠ 0 → py.inodesPerGroup ≠ 0 ∧
    (SomeInodeUsed dev py heap → py.inoSize ≤ (recordedAccess py).blocksize)

/-- The inodes of a block are not none if one fits. -/
theorem slots_ne_zero_iff (mounted : Mounted dev py heap sb) (positive : py.inoSize ≠ 0) :
    sb.inodesPerBlock ≠ 0 ↔ py.inoSize ≤ (recordedAccess py).blocksize := by
  rw [mounted.slots, Nat.ne_zero_iff_zero_lt, Nat.div_pos_iff]
  exact and_iff_right (Nat.pos_of_ne_zero positive)

/-- Every inode of a mounted file system is read without a divide error if the inodes can be
located. -/
theorem ext2ReadInode_isSome_all (mounted : Mounted dev py heap sb) (positive : py.inoSize ≠ 0) :
    (∀ block node, (ext2ReadInode dev sb block node).isSome) ↔ InodesLocated dev py heap := by
  constructor
  · intro reads inodes
    have read (ino : Nat) (first : 0 < ino) (last : ino ≤ py.inodesCount) :=
      ext2ReadInode_isSome_iff.mp (reads (fun _ => 0) { ino })
    simp only [mounted.record] at read
    refine ⟨?_, ?_⟩
    · rcases read 1 Nat.one_pos (Nat.pos_of_ne_zero inodes) with outside | located
      · omega
      · exact located.1
    · rintro ⟨ino, group, first, last, small, found, used⟩
      rw [← slots_ne_zero_iff mounted positive]
      rcases read ino first last with outside | located
      · omega
      · exact located.2 group ((mounted.groups _ small).trans found) used
  · intro located block node
    rw [ext2ReadInode_isSome_iff, mounted.record]
    by_cases outside : node.ino = 0 ∨ node.ino > py.inodesCount
    · exact Or.inl outside
    · have inodes : py.inodesCount ≠ 0 := by omega
      obtain ⟨groups, slots⟩ := located inodes
      refine Or.inr ⟨groups, fun group found used => ?_⟩
      rw [slots_ne_zero_iff mounted positive]
      have small : groupOf py node.ino < groupCount py := by
        rw [← mounted.count]
        exact (List.getElem?_eq_some_iff.mp found).1
      exact slots ⟨node.ino, group, by omega, by omega, small,
        (mounted.groups _ small).symm.trans found, used⟩

end Nupkux
