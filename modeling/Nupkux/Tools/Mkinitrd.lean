import Nupkux.Fs.Initrd
import Nupkux.Strings
import Nupkux.Fs.Namei

/-!
# The tool that packs an initrd

`mkinitrd` writes a directory of the host with everything in it as one image: a header, a table of
inodes, and the data of each inode in the order in which the inodes are numbered, the entries of a
directory before what they name. `realloc` makes the image longer, and what it leaves behind the
old end is unknown, so the buffer is a memory from the beginning and only its length grows. The
tool is compiled for 32 bits.

A directory of the host is given by what `readdir` lists of it, and a file by what `stat` and
`fread` give. Messages, and a directory or a file that cannot be opened, are left out.
-/

namespace Nupkux

/-- `FS_FILE`. -/
def fsFile : Nat := 1

/-- `HARDLINKS`. -/
def hardlinks : Nat := 2

/-- `INITRD_MAGIC`. -/
def initrdMagic : Nat := 0x54494E49

/-- `INITRD_FILENAME_LEN`. -/
def initrdFilenameLen : Nat := 64

/-- `sizeof(initrd_header)`. -/
def initrdHeaderSize : Nat := 12

/-- `sizeof(initrd_inode)`. -/
def initrdInodeSize : Nat := 28

/-- `sizeof(initrd_folder_entry)`. -/
def initrdEntrySize : Nat := 68

/-- The fields of `struct stat` that are stored. -/
structure Stat where
  mode : BitVec 32
  gid : BitVec 32
  uid : BitVec 32

/-- What `readdir` lists of a directory, but for `.` and `..`, one entry after another. What is not
a directory has the bytes that it is read as. -/
inductive Listing where
  /-- No entry is left. -/
  | nil
  /-- An entry of another type than `DT_DIR`. -/
  | file (name : CString) (stat : Stat) (data : List (BitVec 8)) (rest : Listing)
  /-- A directory. -/
  | directory (name : CString) (stat : Stat) (entries rest : Listing)

/-- `struct _initrd_inode`. -/
structure InitrdInode where
  inode : Nat
  offset : Nat
  mode : Nat
  gid : Nat
  uid : Nat
  flags : Nat
  size : Nat

/-- `filebuf`, `filelen`, `tmp_inode` and `header.entries`. -/
structure Mkinitrd where
  filebuf : Bytes
  filelen : Nat := 0
  tmpInode : Nat := 0
  entries : Nat := 0

/-- The loop of `count_of_inodes`, with its `res`. -/
def Listing.countOfInodes (recursive : Bool) : Listing → Nat → Nat
  | .nil, res => res
  | .file _ _ _ rest, res => rest.countOfInodes recursive (uadd res 1)
  | .directory _ _ entries rest, res =>
    if recursive then
      let tmp := entries.countOfInodes true 0
      if tmp = uintWidth - 1 then uintWidth - 1
      else rest.countOfInodes recursive (uadd (uadd res tmp) 1)
    else rest.countOfInodes recursive (uadd res 1)

/-- Where the record of an inode is in an image. -/
def inodePlace (ino : Nat) : Nat := initrdHeaderSize + initrdInodeSize * ino

/-- A character of a string, or the NUL behind it. -/
def textByte (s : CString) (i : Nat) : BitVec 8 := (s.getD i 0).toBitVec

/-- A record is stored. The three bytes behind `flags` are padding. -/
def InitrdInode.store (inode : InitrdInode) (m : Bytes) (a : Nat) : Bytes :=
  let m : Bytes := Bytes.store m a inode.inode
  let m : Bytes := m.store (a + 4) inode.offset
  let m : Bytes := m.store (a + 8) inode.mode
  let m : Bytes := m.store (a + 12) inode.gid
  let m : Bytes := m.store (a + 16) inode.uid
  let m : Bytes := Function.update m (a + 20) (BitVec.ofNat 8 inode.flags)
  m.store (a + 24) inode.size

namespace Mkinitrd

variable (w : Mkinitrd)

/-- `expand_initrd`. -/
def expandInitrd (diff : Nat) : Mkinitrd := { w with filelen := uadd w.filelen diff }

/-- `createinode`, of a file with so many bytes. -/
def createinode (stat : Stat) (size flags : Nat) : Mkinitrd × InitrdInode :=
  ({ w with tmpInode := uadd w.tmpInode 1 },
    { inode := w.tmpInode, mode := stat.mode.toNat, gid := stat.gid.toNat, uid := stat.uid.toNat,
      flags, size := size % uintWidth, offset := w.filelen })

/-- `inodes[inode.inode] = inode`. -/
def putInode (inode : InitrdInode) : Mkinitrd :=
  { w with filebuf := inode.store w.filebuf (inodePlace inode.inode) }

/-- `entries[i].inode = ino`, for the entry at an address. -/
def putNumber (entry ino : Nat) : Mkinitrd := { w with filebuf := w.filebuf.store entry ino }

/-- `strcpy(entries[i].filename, name)`. -/
def putName (entry : Nat) (name : CString) : Mkinitrd :=
  { w with filebuf := w.filebuf.blit (entry + 4) (textByte name) (name.length + 1) }

/-- `memset(entries[i].filename, 0, INITRD_FILENAME_LEN)`. -/
def clearName (entry : Nat) : Mkinitrd :=
  { w with filebuf := w.filebuf.fill (entry + 4) 0 initrdFilenameLen }

/-- `header.entries++`. -/
def countEntry : Mkinitrd := { w with entries := uadd w.entries 1 }

/-- One of the first two entries of a directory. -/
def hardlink (entry ino : Nat) (name : CString) : Mkinitrd :=
  ((w.putNumber entry ino).putName entry name).countEntry

/-- `savefile` of what is not a directory. -/
def savefile (stat : Stat) (data : List (BitVec 8)) : Mkinitrd × Nat :=
  let created := w.createinode stat data.length fsFile
  let inode := created.2
  let w := created.1.countEntry
  let place := w.filelen
  let w := w.expandInitrd inode.size
  let w := { w with filebuf := w.filebuf.blit place (fun i => data.getD i 0) inode.size }
  (w.putInode inode, inode.inode)

/-- `savedir` before its loop over the entries. The parent of the root is -1. -/
def beginDirectory (count : Nat) (stat : Stat) (parent : Nat) : Mkinitrd × InitrdInode :=
  -- the size that `stat` tells is overwritten
  let created := w.countEntry.createinode stat 0 fsDirectory
  let inode := { created.2 with size := umul initrdEntrySize (uadd count hardlinks) }
  let w := created.1
  let place := w.filelen
  let w := w.expandInitrd inode.size
  let w := w.hardlink place inode.inode dot
  let parent := if parent = uintWidth - 1 then inode.inode else parent
  (w.hardlink (place + initrdEntrySize) parent dotdot, inode)

/-- `savedir`, given its loop, which has the number of the directory and the address of its
entries. -/
def savedir (loop : Nat → Nat → Mkinitrd → Mkinitrd) (count : Nat) (stat : Stat) (parent : Nat) :
    Mkinitrd × Nat :=
  let begun := w.beginDirectory count stat parent
  let inode := begun.2
  let w := loop inode.inode inode.offset begun.1
  (w.putInode inode, inode.inode)

end Mkinitrd

/-- The loop of `savedir` from an entry on, in a directory with its entries at an address. -/
def Listing.save : Listing → Nat → Nat → Nat → Mkinitrd → Mkinitrd
  | .nil, _, _, _, w => w
  | .file name stat data rest, dir, place, i, w =>
    let entry := place + initrdEntrySize * i
    let saved := ((w.clearName entry).putName entry name).savefile stat data
    rest.save dir place (i + 1) (saved.1.putNumber entry saved.2)
  | .directory name stat entries rest, dir, place, i, w =>
    let entry := place + initrdEntrySize * i
    let saved := ((w.clearName entry).putName entry name).savedir
      (fun dir place w => entries.save dir place hardlinks w) (entries.countOfInodes false 0) stat dir
    rest.save dir place (i + 1) (saved.1.putNumber entry saved.2)

/-- `main`: the image of a directory and its length, or nothing when there are too many inodes.
`garbage` is what `realloc` finds in memory. -/
def mkinitrd (garbage : Bytes) (stat : Stat) (root : Listing) : Option (Bytes × Nat) :=
  let inodecount := uadd (root.countOfInodes true 0) 1
  if inodecount = 0 then none
  else
    let table := umul inodecount initrdInodeSize
    let w : Mkinitrd := { filebuf := garbage }
    let w := w.expandInitrd (uadd initrdHeaderSize table)
    let w := { w with filebuf := w.filebuf.fill initrdHeaderSize 0 table }
    let saved := w.savedir (fun dir place w => root.save dir place hardlinks w)
      (root.countOfInodes false 0) stat (uintWidth - 1)
    let w := saved.1
    some (((w.filebuf.store 0 initrdMagic).store 4 inodecount).store 8 w.entries, w.filelen)

end Nupkux
