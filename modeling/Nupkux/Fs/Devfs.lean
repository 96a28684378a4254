import Nupkux.Lib.Transition
import Nupkux.Lib.PackedArray
import Nupkux.Fs.Namei

/-!
# The device file system

`devfs` keeps its handles in a singly linked list from `cache`, the entries of a directory in a
packed array behind `pdata`, and the number of the next inode in `next_inode`. The blocks that
`calloc` and `realloc` return lie in memory, so the size of a directory does not wrap. Of a
vnode only the fields that `devfs_handle2vnode` fills are kept, and `iget` of a vnode is the
creation of the vnode of the root; elsewhere it stands for its inode number.
-/

namespace Nupkux

/-- `DEVFS_FILENAME_LEN`. -/
def devfsFilenameLen : Nat := 16

/-- `sizeof(devfs_d_entry)`. -/
def devfsEntrySize : Nat := 24

/-- `devfs_d_entry`. -/
structure DevfsEntry where
  inode : Nat := 0
  filename : CString := []
  deriving DecidableEq, Repr, Inhabited

/-- `struct _devfs_handle`, with `pdata` as it is used in a directory. A function table is a
number. -/
structure DevfsHandle where
  ino : Nat := 0
  nlinks : Nat := 0
  uid : Nat := 0
  gid : Nat := 0
  mode : Nat := 0
  flags : Nat := 0
  size : Nat := 0
  pdata : Nat → DevfsEntry := fun _ => {}
  fOp : Nat := 0
  cacheNext : Nat := 0
  parent : Nat := 0
  node : Nat := 0

/-- The fields of a vnode that `devfs_handle2vnode` fills; `handle` is `u.devfs_i`. -/
structure DevfsNode where
  flags : Nat := 0
  uid : Nat := 0
  gid : Nat := 0
  mode : Nat := 0
  nlinks : Nat := 0
  size : Nat := 0
  handle : Nat := 0
  deriving DecidableEq, Repr, Inhabited

/-- The variables of `devfs` and its objects. -/
structure Devfs where
  handle : Store DevfsHandle := ∅
  node : Store DevfsNode := ∅
  cache : Nat := 0
  /-- `next_inode`. -/
  nextInode : Nat := 1
  /-- `devfs_sb`. -/
  sb : Nat := 0
  /-- `devfs_root`. -/
  root : Nat := 0

/-- The file operations of a directory, `devfs_dir_fop`. -/
def devfsDirFop : Nat := 1

/-- `IS_DIR(handle)`. -/
def DevfsHandle.isDir (h : DevfsHandle) : Bool := h.flags &&& 7 == fsDirectory

/-- The number of entries of a directory. -/
def DevfsHandle.entries (h : DevfsHandle) : Nat := h.size / devfsEntrySize

namespace Devfs

/-- `handle->cache_next`. -/
def cacheNext (d : Devfs) (handle : Nat) : Nat :=
  ((d.handle.lookup handle).map (·.cacheNext)).getD 0

/-- `handle->ino`. -/
def inoOf (d : Devfs) (handle : Nat) : Nat := ((d.handle.lookup handle).map (·.ino)).getD 0

/-- Enough steps to walk any list of distinct live handles. -/
def walkSteps (d : Devfs) : Nat := d.handle.keys.length + 1

/-- `devfs_iget`. -/
def devfsIget (d : Devfs) (ino : Nat) : Nat :=
  (LinkedList.seek d.cacheNext (fun handle => d.inoOf handle == ino) d.walkSteps 0 d.cache).2

/-- `devfs_add_to_cache`. -/
def addToCache (d : Devfs) (handle : Nat) : Devfs :=
  { d with
    handle := d.handle.modify handle fun h => { h with cacheNext := d.cache }
    cache := handle }

/-- `devfs_del_from_cache`. -/
def delFromCache (d : Devfs) (handle : Nat) : Devfs :=
  if handle = 0 then d
  else
    let prev := (LinkedList.seek d.cacheNext (· == handle) d.walkSteps 0 d.cache).1
    let d :=
      if prev = 0 then { d with cache := d.cacheNext handle }
      else { d with handle := d.handle.modify prev fun p =>
        { p with cacheNext := d.cacheNext handle } }
    { d with handle := d.handle.erase handle }

/-- The loop of `devfs_free_cache`. -/
def freeCache : Nat → Devfs → Devfs
  | 0, d => d
  | steps + 1, d =>
    if d.cache = 0 then d
    else freeCache steps
      { d with handle := d.handle.erase d.cache, cache := d.cacheNext d.cache }

/-- `devfs_handle2vnode`. -/
def handle2vnode (d : Devfs) (node handle : Nat) : Devfs :=
  match d.handle.lookup handle with
  | none => d
  | some h =>
    if node = 0 then d
    else
      { d with
        node := d.node.insert node
          { flags := h.flags, uid := h.uid, gid := h.gid, mode := h.mode, nlinks := h.nlinks,
            size := h.size, handle }
        handle := d.handle.insert handle { h with node } }

/-- The last lines of `devfs_add_d_entry` and `devfs_del_d_entry`. -/
def resized (d : Devfs) (dir : Nat) (h : DevfsHandle) : Devfs :=
  let d := { d with handle := d.handle.insert dir h }
  if h.node ≠ 0 then d.handle2vnode h.node dir else d

/-- `devfs_add_d_entry`, for a name of `DEVFS_FILENAME_LEN` bytes at most: `strncpy` does not return
for a longer one. -/
def addDEntry (d : Devfs) (dir : Nat) (name : CString) (inode : Nat) : Devfs :=
  match d.handle.lookup dir with
  | none => d
  | some h =>
    let entry : DevfsEntry := { inode, filename := name.take devfsFilenameLen }
    d.resized dir { h with
      size := (h.entries + 1) * devfsEntrySize
      pdata := Function.update h.pdata h.entries entry }

/-- `devfs_del_d_entry`. -/
def delDEntry (d : Devfs) (dir ino : Nat) : Devfs :=
  match d.handle.lookup dir with
  | none => d
  | some h =>
    let count := h.entries
    let index := PackedArray.search h.pdata (fun entry => entry.inode == ino) 2 (count - 2)
    if count ≤ index then d
    else
      d.resized dir { h with
        size := h.size - devfsEntrySize
        pdata := PackedArray.shiftDown h.pdata index (count - 1 - index) }

/-- `devfs_register_device`. -/
def registerDevice (calloc : Allocator DevfsHandle) (d : Devfs) (dir : Nat) (name : CString)
    (mode uid gid type fOp : Nat) : Devfs × Nat :=
  let dir := if dir = 0 then d.root else dir
  match d.handle.lookup dir with
  | none => (d, 0)
  | some parent =>
    if !parent.isDir then (d, 0)
    else
      let handle := calloc.address d.handle
      let h : DevfsHandle :=
        { ino := d.nextInode, nlinks := 1, uid, gid, mode, flags := type, size := 1, fOp,
          parent := dir }
      let d := { d with
        handle := d.handle.insert handle h
        nextInode := (d.nextInode + 1) % uintWidth }
      ((d.addDEntry dir name h.ino).addToCache handle, handle)

/-- `devfs_unregister_device`. -/
def unregisterDevice (d : Devfs) (device : Nat) : Devfs :=
  match d.handle.lookup device with
  | none => d
  | some h => (d.delDEntry h.parent h.ino).delFromCache device

/-- `devfs_empty_dir`. -/
def emptyDir (calloc : Allocator DevfsHandle) (d : Devfs) (ino parent : Nat) : Devfs × Nat :=
  let handle := calloc.address d.handle
  let entries (i : Nat) : DevfsEntry :=
    if i = 0 then ⟨ino, dot⟩ else if i = 1 then ⟨parent, dotdot⟩ else {}
  let h : DevfsHandle :=
    { ino, nlinks := 1, mode := 755, flags := fsDirectory, size := devfsEntrySize * 2,
      pdata := entries, fOp := devfsDirFop, parent := d.devfsIget parent }
  ({ d with handle := d.handle.insert handle h }.addToCache handle, handle)

/-- `read_devfs_sb`; the answer is the super block, or null. -/
def readDevfsSb (calloc : Allocator DevfsHandle) (iget : Allocator DevfsNode) (d : Devfs)
    (sb : Nat) : Devfs × Nat :=
  if d.sb ≠ 0 then (d, 0)
  else
    let (d, root) := emptyDir calloc { d with sb, cache := 0 } 0 0
    let node := iget.address d.node
    -- `devfs_read_inode`, which `iget(sb, 0)` calls
    ({ d with root }.handle2vnode node (d.devfsIget 0), sb)

/-- `devfs_put_super`. -/
def putSuper (d : Devfs) : Devfs :=
  { freeCache d.walkSteps d with root := 0, nextInode := 0, sb := 0 }

/-- `sys_umount` of the file system: `devfs_put_super`, then `free_sb_inodes`. -/
def unmount (d : Devfs) : Devfs := { d.putSuper with node := ∅ }

/-- `devfs_lookup` up to its `iget`: the inode number of the entry. -/
def devfsLookup (d : Devfs) (dir : Nat) (name : CString) : Option Nat := do
  let node ← d.node.lookup dir
  let h ← d.handle.lookup node.handle
  let i ← PackedArray.searchLast h.pdata (fun entry => nameiMatch name entry.filename)
    (node.size / devfsEntrySize)
  return (h.pdata i).inode

/-- The vnode of the root. -/
def rootNode (d : Devfs) : Nat := ((d.handle.lookup d.root).map (·.node)).getD 0

/-- The entries of the root. -/
def listing (d : Devfs) : List DevfsEntry :=
  match d.handle.lookup d.root with
  | none => []
  | some h => PackedArray.contents h.pdata h.entries

end Devfs

end Nupkux
