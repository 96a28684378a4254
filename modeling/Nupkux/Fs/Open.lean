import Nupkux.Kernel.Task

/-!
# Descriptors and the directories of a task

`sys_open`, `sys_close`, `sys_dup`, `sys_dup2`, `sys_chdir` and `sys_chroot`. Path resolution
is a parameter here: what it does to the vnodes and which vnode it returns, null with an
error code when it fails. `open_fs` and `close_fs` reach the drivers, which touch none of the
objects below. `access_ok` accepts every pointer.
-/

namespace Nupkux

/-- Error numbers of `errno.h`. -/
def EPERM : Int := 1
/-- No such file or directory. -/
def ENOENT : Int := 2
/-- No such process. -/
def ESRCH : Int := 3
/-- Bad file descriptor. -/
def EBADF : Int := 9
/-- No child processes. -/
def ECHILD : Int := 10
/-- Permission denied. -/
def EACCES : Int := 13
/-- Bad address. -/
def EFAULT : Int := 14
/-- Device or resource busy. -/
def EBUSY : Int := 16
/-- Not a directory. -/
def ENOTDIR : Int := 20
/-- Invalid argument. -/
def EINVAL : Int := 22
/-- Too many open files. -/
def EMFILE : Int := 24
/-- Too many links. -/
def EMLINK : Int := 31
/-- Any other error. -/
def EGENERIC : Int := 99

/-- `O_WRONLY`. -/
def oWronly : Nat := 1
/-- `O_RDWR`. -/
def oRdwr : Nat := 2
/-- `O_APPEND`. -/
def oAppend : Nat := 0o2000
/-- `FMODE_READ`. -/
def fmodeRead : Nat := 1
/-- `FMODE_WRITE`. -/
def fmodeWrite : Nat := 2

/-- The bit of a descriptor in `close_on_exec`. -/
def fdBit (fd : Nat) : BitVec 32 := 1#32 <<< fd

/-- What a path resolves to: the vnodes afterwards, the vnode found, null if there is none,
and the error code. -/
abbrev PathResolver := Vfs → Task → CString → Vfs × Nat × Int

namespace Kernel

/-- `IS_DIR(node)` of a vnode that is there. -/
def isDir (k : Kernel) (node : Nat) : Bool := (k.vfs.vnode.lookup node).any (·.isDir)

/-- `node->size`. -/
def nodeSize (k : Kernel) (node : Nat) : Nat :=
  ((k.vfs.vnode.lookup node).map (·.attributes.size)).getD 0

/-- Change the descriptor table of the current task; its `close_on_exec` bit is cleared. -/
def setFile (k : Kernel) (fd f : Nat) : Kernel :=
  k.setTask k.currentTask fun t =>
    { t with
      closeOnExec := t.closeOnExec &&& ~~~fdBit fd
      files := Function.update t.files fd f }

/-- The lowest free descriptor of the current task. -/
def freeDescriptor (k : Kernel) : Option Nat :=
  (List.range nrOpen).find? fun fd => k.current.files fd = 0

/-- The mode bits `sys_open` derives from its flags. -/
def openFlags (flag : Nat) : Nat :=
  (if flag &&& 3 = 0 ∨ flag &&& oRdwr ≠ 0 then fmodeRead else 0) |||
    (if flag &&& oWronly ≠ 0 ∨ flag &&& oRdwr ≠ 0 then fmodeWrite else 0)

/-- `sys_open`. -/
def sysOpen (namei : PathResolver) (blocks : Blocks) (k : Kernel) (filename : CString)
    (flag : Nat) : Kernel × Int :=
  match k.freeDescriptor with
  | none => (k, -EMFILE)
  | some fd =>
    let f := blocks.file.address k.file
    let (vfs, node, status) := namei k.vfs k.current filename
    let k := { k with vfs }
    if node = 0 then (k, status)
    else
      let offset := if flag &&& oAppend ≠ 0 then k.nodeSize node else 0
      let file : File := { fd, flags := openFlags flag, node, offset, count := 1 }
      ({ k with file := k.file.insert f file }.setFile fd f, fd)

/-- `close_fs(f->node); iput(f->node); free(f)`. -/
def closeFile (k : Kernel) (f : Nat) (file : File) : Kernel :=
  { k with
    vfs := k.vfs.iput file.node
    file := k.file.erase f
    closings := k.closings ++ [f] }

/-- The part of `sys_close` that gives back the reference of a descriptor: the last one
closes the file. -/
def putFile (k : Kernel) (f : Nat) : Kernel :=
  match k.file.lookup f with
  | none => k
  | some file =>
    if file.count = 0 then k
    else if file.count - 1 = 0 then k.closeFile f file
    else { k with file := k.file.insert f { file with count := file.count - 1 } }

/-- `sys_close`. -/
def sysClose (k : Kernel) (fd : Int) : Kernel × Int :=
  if fd < 0 ∨ nrOpen ≤ fd then (k, -EBADF)
  else
    let f := k.current.files fd.toNat
    if f = 0 then (k, -EBADF)
    else ((k.setFile fd.toNat 0).putFile f, 0)

/-- `sys_dup2`. -/
def sysDup2 (k : Kernel) (fd fd2 : Int) : Kernel × Int :=
  if fd < 0 ∨ nrOpen ≤ fd ∨ fd2 < 0 ∨ nrOpen ≤ fd2 then (k, -EBADF)
  else if k.current.files fd.toNat = 0 then (k, -EBADF)
  else
    let k := (k.sysClose fd2).1
    let f := k.current.files fd.toNat
    let k := k.setFile fd2.toNat f
    ({ k with file := k.file.modify f fun f => { f with count := (f.count + 1) % uintWidth } },
      fd2)

/-- `sys_dup`. -/
def sysDup (k : Kernel) (fd : Int) : Kernel × Int :=
  match k.freeDescriptor with
  | none => (k, -EMFILE)
  | some fd2 => k.sysDup2 fd fd2

/-- The common body of `sys_chdir` and `sys_chroot`: resolve a path, and if it names a
directory, record it in the current task. -/
def changeDirectory (namei : PathResolver) (k : Kernel) (name : CString)
    (record : Task → Nat → Task) : Kernel × Int :=
  let (vfs, node, status) := namei k.vfs k.current name
  let k := { k with vfs }
  if node = 0 then (k, status)
  else if k.isDir node then (k.setTask k.currentTask fun t => record t node, 0)
  else (k, -ENOTDIR)

/-- `sys_chdir`. -/
def sysChdir (namei : PathResolver) (k : Kernel) (name : CString) : Kernel × Int :=
  k.changeDirectory namei name fun t node => { t with pwd := node }

/-- `sys_chroot`. -/
def sysChroot (namei : PathResolver) (k : Kernel) (name : CString) : Kernel × Int :=
  if !k.current.isRoot then (k, -EPERM)
  else k.changeDirectory namei name fun t node => { t with root := node }

end Kernel

end Nupkux
