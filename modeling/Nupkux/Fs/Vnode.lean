import Nupkux.Types
import Nupkux.Lib.Store
import Nupkux.Lib.LinkedList

/-!
# Vnodes and the vnode cache

The vnodes of a super block form a singly linked list from `sb->cache` through `cache_next`.
`iget` finds or reads a vnode and takes a reference, `iput` gives one back and frees the
vnode with its last one. A file system enters through the function tables it registers:
`read_inode` fills the attributes of a vnode, and the `lookup` of a directory names the inode
of an entry, which all three file systems then fetch with `iget`.

The counter `count` is a UCHAR, at the width 256.
-/

namespace Nupkux

/-- `FS_DIRECTORY`. -/
def fsDirectory : Nat := 2

/-- The fields of a vnode that `read_inode` fills. `lookup` is `i_op->lookup`, if there is
one: the inode number of the entry whose name starts the given path. -/
structure Attributes where
  uid : Nat := 0
  gid : Nat := 0
  mode : Nat := 0
  flags : Nat := 0
  size : Nat := 0
  lookup : Option (CString → Option Nat) := none
  deriving Inhabited

/-- `struct _vnode`. Pointers are addresses, 0 the null pointer. -/
structure Vnode where
  ino : Nat
  count : Nat
  attributes : Attributes := {}
  dev : Nat := 0
  sb : Nat
  mount : Nat := 0
  cover : Nat := 0
  cacheNext : Nat := 0
  deriving Inhabited

/-- `IS_DIR(node)`. -/
def Vnode.isDir (node : Vnode) : Bool := node.attributes.flags &&& 7 == fsDirectory

/-- `struct _super_operations`: `read_inode`, if it is there, fills a vnode by its inode
number. `put_inode` and `put_super` release what a file system keeps beside these objects. -/
structure SuperOperations where
  readInode : Option (Nat → Attributes → Attributes)

/-- `struct _super_block`. -/
structure SuperBlock where
  dev : Nat := 0
  sOp : Option SuperOperations := none
  root : Nat := 0
  mi : Nat := 0
  cache : Nat := 0

/-- `struct _vfsmount`. -/
structure Vfsmount where
  sb : Nat := 0
  next : Nat := 0

/-- The objects of the virtual file system and its two global pointers. -/
structure Vfs where
  vnode : Store Vnode := ∅
  superBlock : Store SuperBlock := ∅
  vfsmount : Store Vfsmount := ∅
  /-- `vfs_mounts`. -/
  vfsMounts : Nat := 0
  /-- `root_vnode`. -/
  rootVnode : Nat := 0

namespace Vfs

/-- `node->cache_next`. -/
def cacheNext (v : Vfs) (node : Nat) : Nat := ((v.vnode.lookup node).map (·.cacheNext)).getD 0

/-- Enough steps to walk any list of distinct live vnodes. -/
def walkSteps (v : Vfs) : Nat := v.vnode.keys.length + 1

/-- `node->count++`. -/
def hold (width : Nat) (v : Vfs) (node : Nat) : Vfs :=
  { v with vnode := v.vnode.modify node fun n => { n with count := (n.count + 1) % width } }

/-- The cached vnode of an inode number: the loop of `iget`. -/
def findCached (v : Vfs) (block : SuperBlock) (ino : Nat) : Nat :=
  (LinkedList.seek v.cacheNext
    (fun node => (v.vnode.lookup node).any (·.ino == ino)) v.walkSteps 0 block.cache).2

/-- `create_empty_inode`. -/
def createEmptyInode (calloc : Allocator Vnode) (v : Vfs) (sb : Nat) (block : SuperBlock)
    (readInode : Nat → Attributes → Attributes) (ino : Nat) : Vfs × Nat :=
  let res := calloc.address v.vnode
  let node : Vnode :=
    { ino, count := 1, attributes := readInode ino {}, dev := block.dev, sb,
      cacheNext := block.cache }
  ({ v with
      vnode := v.vnode.insert res node
      superBlock := v.superBlock.insert sb { block with cache := res } }, res)

/-- `iget(sb, ino)`. -/
def iget (width : Nat) (calloc : Allocator Vnode) (v : Vfs) (sb ino : Nat) : Vfs × Nat :=
  match v.superBlock.lookup sb with
  | none => (v, 0)
  | some block =>
    let node := v.findCached block ino
    if node ≠ 0 then (v.hold width node, node)
    else
      match block.sOp.bind (·.readInode) with
      | none => (v, 0)
      | some readInode => v.createEmptyInode calloc sb block readInode ino

/-- `free_inode(node)`: unlink the vnode from the cache of its super block and free it. -/
def freeInode (v : Vfs) (node : Nat) (n : Vnode) (block : SuperBlock) : Vfs :=
  let prev := (LinkedList.seek v.cacheNext (· == node) v.walkSteps 0 block.cache).1
  if prev = 0 then
    { v with
      superBlock := v.superBlock.insert n.sb { block with cache := n.cacheNext }
      vnode := v.vnode.erase node }
  else
    { v with
      vnode := (v.vnode.modify prev fun p => { p with cacheNext := n.cacheNext }).erase node }

/-- `iput(node)`. -/
def iput (v : Vfs) (node : Nat) : Vfs :=
  match v.vnode.lookup node with
  | none => v
  | some n =>
    match v.superBlock.lookup n.sb with
    | none => v
    | some block =>
      if block.sOp.isNone then v
      else if n.count = 0 then v
      else
        let n' := { n with count := n.count - 1 }
        let v' := { v with vnode := v.vnode.insert node n' }
        if n'.count = 0 then v'.freeInode node n' block else v'

end Vfs

end Nupkux
