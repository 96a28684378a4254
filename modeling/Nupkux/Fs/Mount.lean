import Nupkux.Fs.Namei

/-!
# Mounting

`sys_mount` gives the vnode that its target resolves to a super block of its own, `sys_umount`
is to take it back. What a file system keeps beside these objects, and the names and flags in
`struct _vfsmount` and `struct _super_block`, are left out.
-/

namespace Nupkux

/-- `MNT_FLAG_REQDEV`. -/
def mntFlagReqdev : Nat := 1

/-- `struct _filesystem_t`. `read_super` looks at its data and fills the super block with its
operations and the root vnode it gets by an inode number, unless it refuses. -/
structure FilesystemType where
  name : CString
  flags : Nat
  readSuper : Nat → Option (SuperOperations × Nat)

/-- The blocks `calloc` hands out during one mount. -/
structure MountBlocks where
  vnode : Allocator Vnode
  vfsmount : Allocator Vfsmount
  superBlock : Allocator SuperBlock

namespace Vfs

/-- `vfs_get_fs`. -/
def vfsGetFs (filesystems : List FilesystemType) (name : CString) : Option FilesystemType :=
  filesystems.find? fun fs => fs.name = name

/-- `type->read_super(sb, data, 0)`: the vnodes and `sb`, or null. -/
def readSuper (width : Nat) (calloc : Allocator Vnode) (v : Vfs) (type : FilesystemType)
    (sb data : Nat) : Vfs × Nat :=
  match type.readSuper data with
  | none => (v, 0)
  | some (sOp, ino) =>
    let v := { v with superBlock := v.superBlock.modify sb fun block => { block with sOp } }
    let found := v.iget width calloc sb ino
    ({ found.1 with
        superBlock := found.1.superBlock.modify sb fun block => { block with root := found.2 } },
      sb)

/-- `d_mount` of a mount that is in no list. -/
def dMount (v : Vfs) (mnt : Nat) : Vfs :=
  { v with
    vfsmount := v.vfsmount.modify mnt fun m => { m with next := v.vfsMounts }
    vfsMounts := mnt }

/-- `sb->root`. -/
def rootOf (v : Vfs) (sb : Nat) : Nat := ((v.superBlock.lookup sb).map (·.root)).getD 0

/-- `mountpoint->mount = sb->root` and `sb->root->cover = mountpoint`. -/
def linkMount (v : Vfs) (mountpoint root : Nat) : Vfs :=
  { v with
    vnode := (v.vnode.modify mountpoint fun n => { n with mount := root }).modify root
      fun n => { n with cover := mountpoint } }

/-- `sys_mount` once it has the mount point and the device. The test `!sb` of the source is
never true, also when `read_super` has failed. -/
def mountAt (width : Nat) (blocks : MountBlocks) (v : Vfs) (type : FilesystemType)
    (mountpoint dev data : Nat) : Vfs :=
  let mnt := blocks.vfsmount.address v.vfsmount
  let sb := blocks.superBlock.address v.superBlock
  let v := { v with
    vfsmount := v.vfsmount.insert mnt {}
    superBlock := v.superBlock.insert sb { dev, mi := mnt } }
  let filled := v.readSuper width blocks.vnode type sb data
  let v := { filled.1 with
    vfsmount := filled.1.vfsmount.modify mnt fun m => { m with sb := filled.2 } }
  let v := v.dMount mnt
  v.linkMount mountpoint (v.rootOf sb)

/-- `sys_mount`. -/
def sysMount (width : Nat) (blocks : MountBlocks) (fuel : Nat)
    (filesystems : List FilesystemType) (v : Vfs) (task : Task)
    (source target filesystemtype : CString) (data : Nat) : Option (Vfs × Int) :=
  if !task.isRoot then some (v, -EPERM)
  else
    match vfsGetFs filesystems filesystemtype with
    | none => some (v, -EINVAL)
    | some type => do
      let (v, mountpoint, status) ← v.namei width blocks.vnode fuel task target 0
      if mountpoint = 0 then some (v, status)
      else if type.flags &&& mntFlagReqdev ≠ 0 then do
        let (v, dev, status) ← v.namei width blocks.vnode fuel task source status
        if dev = 0 then some (v.iput mountpoint, status)
        else some (v.mountAt width blocks type mountpoint dev data, 0)
      else some (v.mountAt width blocks type mountpoint 0 data, 0)

/-- `rootfs_sb_ops`: every vnode is a directory without operations. -/
def rootfsOperations : SuperOperations :=
  ⟨some fun _ a => { a with flags := fsDirectory, mode := 0o777 }⟩

/-- `rootfs_type`. -/
def rootfsType : FilesystemType where
  name := [114, 111, 111, 116, 102, 115]
  flags := 0
  readSuper _ := some (rootfsOperations, 0)

/-- `setup_vfs`: the root vnode is also the root and the working directory of the task. -/
def setupVfs (width : Nat) (blocks : MountBlocks) : Vfs :=
  let mnt := blocks.vfsmount.address ∅
  let sb := blocks.superBlock.address ∅
  let v : Vfs := { vfsmount := AList.insert mnt {} ∅, superBlock := AList.insert sb { mi := mnt } ∅ }
  let filled := v.readSuper width blocks.vnode rootfsType sb 0
  let v := { filled.1 with
    vfsmount := filled.1.vfsmount.modify mnt fun m => { m with sb := filled.2 }
    rootVnode := filled.1.rootOf sb }
  let v := v.dMount mnt
  (v.hold width v.rootVnode).hold width v.rootVnode

/-- The loop of `free_sb_inodes`, with a number of steps that suffices. -/
def freeSbInodes : Nat → Vfs → Nat → Vfs
  | 0, v, _ => v
  | steps + 1, v, node =>
    if node = 0 then v
    else freeSbInodes steps { v with vnode := v.vnode.erase node } (v.cacheNext node)

/-- `mnt->next`. -/
def nextMount (v : Vfs) (mnt : Nat) : Nat := ((v.vfsmount.lookup mnt).map (·.next)).getD 0

/-- `d_umount` of the mount of a super block. -/
def dUmount (v : Vfs) (mi : Nat) : Vfs :=
  let found := LinkedList.seek v.nextMount (· == mi) (v.vfsmount.keys.length + 1) 0 v.vfsMounts
  let next := v.nextMount found.2
  let v := if found.1 = 0 then { v with vfsMounts := next }
    else { v with vfsmount := v.vfsmount.modify found.1 fun m => { m with next } }
  { v with vfsmount := v.vfsmount.erase found.2 }

/-- `sys_umount` once it has the root vnode of what is mounted. -/
def umountFrom (v : Vfs) (newnode : Nat) : Vfs :=
  let sb := ((v.vnode.lookup newnode).map (·.sb)).getD 0
  let block := (v.superBlock.lookup sb).getD {}
  let v := v.iput block.dev
  let v := freeSbInodes v.walkSteps v (((v.superBlock.lookup sb).map (·.cache)).getD 0)
  let v := v.dUmount block.mi
  { v with superBlock := v.superBlock.erase sb }

/-- `sys_umount`. -/
def sysUmount (width : Nat) (calloc : Allocator Vnode) (fuel : Nat) (v : Vfs) (task : Task)
    (target : CString) : Option (Vfs × Int) :=
  if !task.isRoot then some (v, -EPERM)
  else if target = [] then some (v, -EFAULT)
  else do
    let (v, node, status) ← v.namei width calloc fuel task target 0
    if node = 0 then some (v, status)
    else if v.mountOf node = 0 then some (v.iput node, -EINVAL)
    else some ((v.iput node).umountFrom (v.mountOf node), 0)

end Vfs

end Nupkux
