import Nupkux.Fs.Open
import Nupkux.Fs.Ext2.Super

/-!
# Reading ext2 files

The functions of `fs/ext2/inode.c` that read a file. The block size is not 0 and fits an `int`.
What is stored behind `buffer` depends on three copies, for the first, the whole and the last
block, between which the block buffer is kept.
-/

namespace Nupkux

/-- `EIO`. -/
def EIO : Int := 5

/-- `EXT2_NDIR_BLOCKS`. -/
def ext2NdirBlocks : Nat := 12

/-- The fields of a vnode that `ext2_read` uses; `inode` is `u.ext2_i`. -/
structure Ext2File where
  sb : BlockAccess
  size : Nat
  inode : Ext2Inode
  deriving DecidableEq, Repr

/-- `file_ext2_block`. -/
def fileExt2Block (inode : Ext2Inode) (block : Nat) : Nat :=
  if block < ext2NdirBlocks then inode.block.getD block 0 else 0

/-- A block of a file is read into the block buffer. -/
def readFileBlock (dev : BlockDevice) (file : Ext2File) (block : Nat) (buf : Bytes) :
    Int × Bytes :=
  ext2ReadBlock dev file.sb (fileExt2Block file.inode block) buf

/-- The loop of `ext2_read` over so many whole blocks from `block`: if all could be read, where
`buffer` points then and what is in `buf`; and the memory. -/
def readWhole (dev : BlockDevice) (file : Ext2File) :
    Nat → Nat → Nat → Bytes → Bytes → Option (Nat × Bytes) × Bytes
  | 0, _, buffer, buf, m => (some (buffer, buf), m)
  | left + 1, block, buffer, buf, m =>
    let read := readFileBlock dev file block buf
    if read.1 ≤ 0 then (none, m)
    else
      readWhole dev file left (block + 1) (buffer + file.sb.blocksize) read.2
        (m.blit buffer read.2 file.sb.blocksize)

/-- The three copies of `ext2_read`, once the size has been cut. -/
def readSpan (dev : BlockDevice) (file : Ext2File) (heap : Int → BitVec 8)
    (offset size buffer : Nat) (m : Bytes) : Int × Bytes :=
  let blocksize := file.sb.blocksize
  let bS := offset / blocksize
  let boff := offset % blocksize
  let bE := usub (uadd offset size) 1 / blocksize
  let bsize := blocksize - boff
  let read := readFileBlock dev file bS (fresh heap)
  if read.1 ≤ 0 then (- EIO, m)
  else
    let m := m.blit buffer (fun i => read.2 (boff + i)) bsize
    match readWhole dev file (bE - (bS + 1)) (bS + 1) (buffer + bsize) read.2 m with
    | (none, m) => (- EIO, m)
    | (some (buffer, buf), m) =>
      if bS ≠ bE then
        let read := readFileBlock dev file bE buf
        if read.1 ≤ 0 then (- EIO, m)
        else (toInt size, m.blit buffer read.2 (uadd offset size % blocksize))
      else (toInt size, m)

/-- `ext2_read`. -/
def ext2Read (dev : BlockDevice) (file : Ext2File) (heap : Int → BitVec 8)
    (offset size buffer : Nat) (m : Bytes) : Int × Bytes :=
  if offset > file.size then (0, m)
  else
    let size := if uadd offset size > file.size then usub file.size offset else size
    readSpan dev file heap offset size buffer m

end Nupkux
