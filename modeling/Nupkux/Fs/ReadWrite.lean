import Nupkux.Kernel.ProcessTable

/-!
# Reading and writing through descriptors

`sys_read` and `sys_write` hand a transfer to the file system and add its answer to the offset of
the open-file object, unless the file is a character device. The answer is an `int`, negative for
an error, and it passes through the `size_t` that held the size of the transfer. The operations
of the file systems are a parameter here: what they do to memory and devices, and what they
answer.
-/

namespace Nupkux

/-- Is a directory. -/
def EISDIR : Int := 21

/-- `FS_CHARDEVICE`. -/
def fsChardevice : Nat := 3

/-- `IS_CHR(node)`. -/
def Vnode.isChr (node : Vnode) : Bool := node.attributes.flags &&& 7 == fsChardevice

/-- `IS_CHR(node)` of a vnode that is there. -/
def Kernel.isChr (k : Kernel) (node : Nat) : Bool := (k.vfs.vnode.lookup node).any (·.isChr)

/-- `f->offset` of an open-file object. -/
def Kernel.offsetOf (k : Kernel) (f : Nat) : Nat := ((k.file.lookup f).map (·.offset)).getD 0

/-- A `read` or `write` of a file system: an offset, a size and a buffer change the memory and
the devices, and there is an answer. -/
abbrev FileOperation (σ : Type) := Nat → Nat → Nat → σ → σ × Int

/-- The `read` and `write` of `struct _file_operations`, if they are there. -/
structure FileOperations (σ : Type) where
  read : Option (FileOperation σ) := none
  write : Option (FileOperation σ) := none

/-- A call of `read_fs` or `write_fs`. -/
structure Transfer where
  mode : Nat
  node : Nat
  offset : Nat
  size : Nat
  buffer : Nat

/-- The kernel with the memory and the devices, and the calls that reached a file system, the
first one first. -/
structure FileWorld (σ : Type) where
  kernel : Kernel
  outside : σ
  transfers : List Transfer := []

/-- The transfer that a call on an open-file object makes. -/
def transferOf (file : File) (mode buffer size : Nat) : Transfer :=
  { mode, node := file.node, offset := file.offset, size, buffer }

section Transfers

variable {σ : Type}

/-- The common body of `read_fs` and `write_fs`, whose answer is an `int`. -/
def transferFs (operation : Option (FileOperation σ)) (isDir : Bool) (t : Transfer)
    (outside : σ) : σ × Int :=
  if isDir then (outside, -EISDIR)
  else match operation with
    | some operation =>
      let (outside, answer) := operation t.offset t.size t.buffer outside
      (outside, toInt answer)
    | none => (outside, -EINVAL)

/-- `read_fs`. -/
def readFs (fOp : Nat → FileOperations σ) (k : Kernel) (t : Transfer) (outside : σ) : σ × Int :=
  transferFs (fOp t.node).read (k.isDir t.node) t outside

/-- `write_fs`. -/
def writeFs (fOp : Nat → FileOperations σ) (k : Kernel) (t : Transfer) (outside : σ) : σ × Int :=
  transferFs (fOp t.node).write (k.isDir t.node) t outside

namespace FileWorld

/-- What `sys_read` and `sys_write` do with the answer of the file system:
`if (!IS_CHR(f->node)) f->offset += size; return size`. -/
def finish (w : FileWorld σ) (f : Nat) (t : Transfer) (answered : σ × Int) : FileWorld σ × Int :=
  let size := toUint answered.2
  let kernel := if w.kernel.isChr t.node then w.kernel
    else { w.kernel with
      file := w.kernel.file.modify f fun file =>
        { file with offset := uadd file.offset size } }
  ({ kernel, outside := answered.1, transfers := w.transfers ++ [t] }, toInt size)

/-- `sys_read`. The operator `!` binds tighter than `&`: the first operand of `& FMODE_READ` is 1
for flags that are 0, and 0 for all others. -/
def sysRead (fOp : Nat → FileOperations σ) (w : FileWorld σ) (fd : Int) (buffer size : Nat) :
    FileWorld σ × Int :=
  if fd < 0 ∨ nrOpen ≤ fd then (w, -EBADF)
  else
    let f := w.kernel.current.files fd.toNat
    if f = 0 then (w, -EBADF)
    else match w.kernel.file.lookup f with
    | none => (w, -EBADF)
    | some file =>
      if (if file.flags = 0 then 1 else 0) &&& fmodeRead ≠ 0 then (w, -EBADF)
      else
        let t := transferOf file fmodeRead buffer size
        w.finish f t (readFs fOp w.kernel t w.outside)

/-- `sys_write`. -/
def sysWrite (fOp : Nat → FileOperations σ) (w : FileWorld σ) (fd : Int) (buffer size : Nat) :
    FileWorld σ × Int :=
  if fd < 0 ∨ nrOpen ≤ fd then (w, -EBADF)
  else
    let f := w.kernel.current.files fd.toNat
    if f = 0 then (w, -EBADF)
    else match w.kernel.file.lookup f with
    | none => (w, -EBADF)
    | some file =>
      if ¬file.flags &&& fmodeWrite ≠ 0 then (w, -EBADF)
      else
        let t := transferOf file fmodeWrite buffer size
        w.finish f t (writeFs fOp w.kernel t w.outside)

/-- A call on an open-file object respects the mode it was opened with and its offset, given what
the file system answers. -/
structure Respects (file : File) (f mode : Nat) (answer : Int) (w w' : FileWorld σ) (ret : Int) :
    Prop where
  /-- Not opened for this direction: nothing happens. -/
  refused : file.flags &&& mode = 0 → w' = w ∧ ret = -EBADF
  /-- Otherwise the answer is returned. -/
  returns : file.flags &&& mode ≠ 0 → ret = answer
  /-- The bytes that were transferred move the offset, -/
  moved : file.flags &&& mode ≠ 0 → w.kernel.isChr file.node = false → 0 ≤ answer →
    (w'.kernel.offsetOf f : Int) = file.offset + answer
  /-- and an error does not. -/
  kept : file.flags &&& mode ≠ 0 → w.kernel.isChr file.node = false → answer < 0 →
    w'.kernel.offsetOf f = file.offset

/-- The offset of an object can move by an answer. -/
def CanMove (w : FileWorld σ) (file : File) (answer : Int) : Prop :=
  w.kernel.isChr file.node ∨ 0 ≤ answer ∧ file.offset + answer < uintWidth

variable {fOp : Nat → FileOperations σ} {w : FileWorld σ} {fd : Int} {file : File}
  {buffer size f mode : Nat} {t : Transfer} {outside : σ}

/-- An answer of a file system is an `int`. -/
theorem transferFs_range (operation : Option (FileOperation σ)) (isDir : Bool) (t : Transfer)
    (outside : σ) :
    -2147483648 ≤ (transferFs operation isDir t outside).2 ∧
      (transferFs operation isDir t outside).2 < 2147483648 := by
  have directory : -2147483648 ≤ -EISDIR ∧ -EISDIR < 2147483648 := by decide
  have missing : -2147483648 ≤ -EINVAL ∧ -EINVAL < 2147483648 := by decide
  unfold transferFs
  split
  · exact directory
  · cases operation with
    | some operation =>
      dsimp only [toInt]
      omega
    | none => exact missing

/-- An `int` that passes through a `size_t` comes out as it was. -/
theorem toInt_toUint {n : Int} (low : -2147483648 ≤ n) (high : n < 2147483648) :
    toInt (toUint n) = n := by
  unfold toInt toUint
  omega

/-- What is done with an answer for a file that is not a character device. -/
theorem finish_of_other (answered : σ × Int) (other : w.kernel.isChr t.node = false) :
    w.finish f t answered =
      ({ kernel := { w.kernel with
          file := w.kernel.file.modify f fun file =>
            { file with offset := uadd file.offset (toUint answered.2) } }
         outside := answered.1
         transfers := w.transfers ++ [t] }, toInt (toUint answered.2)) := by
  simp only [finish, other, Bool.false_eq_true, if_false]

/-- The offset after an answer. -/
theorem finish_offset (live : w.kernel.file.lookup f = some file) (answered : σ × Int)
    (other : w.kernel.isChr t.node = false) :
    (w.finish f t answered).1.kernel.offsetOf f = uadd file.offset (toUint answered.2) := by
  rw [finish_of_other answered other, Kernel.offsetOf, Store.lookup_modify_self, live]
  rfl

/-- What is done with an answer respects the offset if and only if the offset can move by it. -/
theorem finish_respects_iff (live : w.kernel.file.lookup f = some file)
    (node : t.node = file.node) (offset : file.offset < uintWidth)
    (opened : file.flags &&& mode ≠ 0) (answered : σ × Int)
    (low : -2147483648 ≤ answered.2) (high : answered.2 < 2147483648) :
    Respects file f mode answered.2 w (w.finish f t answered).1 (w.finish f t answered).2 ↔
      w.CanMove file answered.2 := by
  have moves (other : w.kernel.isChr file.node = false) :=
    finish_offset live answered (node ▸ other)
  have added (n : Int) : toUint n = (n % 4294967296).toNat := rfl
  simp only [added, uadd, uintWidth] at moves offset
  unfold CanMove uintWidth
  constructor
  · intro respects
    by_cases chr : w.kernel.isChr file.node = true
    · exact .inl chr
    · have other : w.kernel.isChr file.node = false := Bool.eq_false_iff.mpr chr
      refine .inr ?_
      by_cases error : answered.2 < 0
      · have kept := respects.kept opened other error
        rw [moves other] at kept
        omega
      · have moved := respects.moved opened other (by omega)
        rw [moves other] at moved
        omega
  · intro can
    have moved (other : w.kernel.isChr file.node = false) :
        0 ≤ answered.2 ∧ file.offset + answered.2 < 4294967296 :=
      can.resolve_left (Bool.eq_false_iff.mp other)
    refine ⟨fun unopened => absurd unopened opened, fun _ => toInt_toUint low high,
      fun _ other _ => ?_, fun _ other error => ?_⟩
    · have bound := moved other
      rw [moves other]
      omega
    · have bound := moved other
      omega

/-- The test of `sys_read`. -/
theorem readTest_iff (flags : Nat) :
    (if flags = 0 then 1 else 0) &&& fmodeRead ≠ 0 ↔ flags = 0 := by
  by_cases none : flags = 0
  · rw [if_pos none]
    exact iff_of_true (by decide) none
  · rw [if_neg none]
    exact iff_of_false (by decide) none

/-- `sys_read` on an open-file object. -/
theorem sysRead_of_live (range : 0 ≤ fd ∧ fd < nrOpen)
    (nonnull : w.kernel.current.files fd.toNat ≠ 0)
    (live : w.kernel.file.lookup (w.kernel.current.files fd.toNat) = some file) :
    w.sysRead fOp fd buffer size =
      if file.flags = 0 then (w, -EBADF)
      else w.finish (w.kernel.current.files fd.toNat) (transferOf file fmodeRead buffer size)
        (readFs fOp w.kernel (transferOf file fmodeRead buffer size) w.outside) := by
  unfold sysRead
  rw [if_neg (by omega), if_neg nonnull]
  simp only [live, readTest_iff]

/-- `sys_write` on an open-file object. -/
theorem sysWrite_of_live (range : 0 ≤ fd ∧ fd < nrOpen)
    (nonnull : w.kernel.current.files fd.toNat ≠ 0)
    (live : w.kernel.file.lookup (w.kernel.current.files fd.toNat) = some file) :
    w.sysWrite fOp fd buffer size =
      if file.flags &&& fmodeWrite = 0 then (w, -EBADF)
      else w.finish (w.kernel.current.files fd.toNat) (transferOf file fmodeWrite buffer size)
        (writeFs fOp w.kernel (transferOf file fmodeWrite buffer size) w.outside) := by
  unfold sysWrite
  rw [if_neg (by omega), if_neg nonnull]
  simp only [live, not_not]

/-- What `read_fs` answers to a call. -/
def readAnswer (fOp : Nat → FileOperations σ) (w : FileWorld σ) (file : File)
    (buffer size : Nat) : Int :=
  (readFs fOp w.kernel (transferOf file fmodeRead buffer size) w.outside).2

/-- What `write_fs` answers to a call. -/
def writeAnswer (fOp : Nat → FileOperations σ) (w : FileWorld σ) (file : File)
    (buffer size : Nat) : Int :=
  (writeFs fOp w.kernel (transferOf file fmodeWrite buffer size) w.outside).2

/-- On every open-file object, `sys_read` respects mode and offset if and only if an object that
is not opened for reading has no mode at all, and one that is can move by the answer; `sys_write`
does if and only if an object opened for writing can. -/
theorem transfers_respect_iff (range : 0 ≤ fd ∧ fd < nrOpen)
    (named : w.kernel.current.files fd.toNat = f) (nonnull : f ≠ 0)
    (live : w.kernel.file.lookup f = some file) (offset : file.offset < uintWidth) :
    (Respects file f fmodeRead (w.readAnswer fOp file buffer size) w
        (w.sysRead fOp fd buffer size).1 (w.sysRead fOp fd buffer size).2 ↔
      (file.flags &&& fmodeRead = 0 → file.flags = 0) ∧
        (file.flags &&& fmodeRead ≠ 0 → w.CanMove file (w.readAnswer fOp file buffer size))) ∧
    (Respects file f fmodeWrite (w.writeAnswer fOp file buffer size) w
        (w.sysWrite fOp fd buffer size).1 (w.sysWrite fOp fd buffer size).2 ↔
      (file.flags &&& fmodeWrite ≠ 0 →
        w.CanMove file (w.writeAnswer fOp file buffer size))) := by
  subst named
  have refuse (mode : Nat) (unopened : file.flags &&& mode = 0) (answer : Int) :
      Respects file (w.kernel.current.files fd.toNat) mode answer w w (-EBADF) :=
    ⟨fun _ => ⟨rfl, rfl⟩, fun opened => absurd unopened opened,
      fun opened => absurd unopened opened, fun opened => absurd unopened opened⟩
  rw [sysRead_of_live range nonnull live, sysWrite_of_live range nonnull live]
  refine ⟨?_, ?_⟩
  · by_cases opened : file.flags &&& fmodeRead = 0
    · by_cases none : file.flags = 0
      · rw [if_pos none]
        exact iff_of_true (refuse _ opened _) ⟨fun _ => none, fun other => absurd opened other⟩
      · rw [if_neg none]
        refine iff_of_false (fun respects => ?_) fun both => none (both.1 opened)
        -- the file system was reached
        have same := congrArg (fun w => w.transfers.length) (respects.refused opened).1
        have longer : (w.transfers ++ [transferOf file fmodeRead buffer size]).length =
          w.transfers.length := same
        rw [List.length_append, List.length_singleton] at longer
        omega
    · have some : file.flags ≠ 0 := by
        intro none
        rw [none] at opened
        exact opened (Nat.zero_and _)
      rw [if_neg some]
      have answers := transferFs_range (fOp file.node).read (w.kernel.isDir file.node)
        (transferOf file fmodeRead buffer size) w.outside
      refine (finish_respects_iff live rfl offset opened _ answers.1 answers.2).trans ?_
      exact ⟨fun can => ⟨fun unopened => absurd unopened opened, fun _ => can⟩,
        fun both => both.2 opened⟩
  · by_cases opened : file.flags &&& fmodeWrite = 0
    · rw [if_pos opened]
      exact iff_of_true (refuse _ opened _) fun other => absurd opened other
    · rw [if_neg opened]
      have answers := transferFs_range (fOp file.node).write (w.kernel.isDir file.node)
        (transferOf file fmodeWrite buffer size) w.outside
      refine (finish_respects_iff live rfl offset opened _ answers.1 answers.2).trans ?_
      exact ⟨fun can _ => can, fun can => can opened⟩

end FileWorld

end Transfers

/-- `sys_open` gives every object a mode, so the test of `sys_read` refuses none of them. -/
theorem openFlags_ne_zero (flag : Nat) : Kernel.openFlags flag ≠ 0 := by
  have split := Nat.and_or_distrib_left flag 1 2
  unfold Kernel.openFlags
  by_cases writes : flag &&& oWronly ≠ 0 ∨ flag &&& oRdwr ≠ 0
  · rw [if_pos writes]
    split <;> decide
  · rw [not_or, not_not, not_not] at writes
    have neither : flag &&& 3 = 0 := by
      change flag &&& 3 = (flag &&& 1) ||| (flag &&& 2) at split
      rw [split]
      change (flag &&& oWronly) ||| (flag &&& oRdwr) = 0
      rw [writes.1, writes.2]
      rfl
    rw [if_pos (.inl neither)]
    split <;> decide

/-- Task 0 after boot, where a vnode of a kind is opened at descriptor 0. Every transfer of its
file system is complete. -/
def openedWorld (kind flag : Nat) : FileWorld Unit where
  kernel :=
    let node : Vnode := { ino := 1, count := 1, sb := 0, attributes := { flags := kind } }
    ((Kernel.setupTasking Blocks.above
      { tasks := fun _ => {}, vfs := { vnode := AList.insert 1 node ∅ } }).sysOpen
      (fun vfs _ _ => (vfs, 1, 0)) Blocks.above [] flag).1
  outside := ()

/-- The object behind descriptor 0 there. -/
def openedFile (flag : Nat) : File := { flags := Kernel.openFlags flag, node := 1, count := 1 }

/-- A file system that transfers every byte. -/
def completeOps (_ : Nat) : FileOperations Unit where
  read := some fun _ size _ outside => (outside, size)
  write := some fun _ size _ outside => (outside, size)

namespace FileWorld

/-- A file opened for reading and writing. -/
theorem transfers_respect_iff_file :
    Respects (openedFile oRdwr) 1 fmodeRead 10 (openedWorld 1 oRdwr)
        ((openedWorld 1 oRdwr).sysRead completeOps 0 0 10).1
        ((openedWorld 1 oRdwr).sysRead completeOps 0 0 10).2 ∧
      Respects (openedFile oRdwr) 1 fmodeWrite 10 (openedWorld 1 oRdwr)
        ((openedWorld 1 oRdwr).sysWrite completeOps 0 0 10).1
        ((openedWorld 1 oRdwr).sysWrite completeOps 0 0 10).2 := by
  have range : (0 : Int) ≤ 0 ∧ (0 : Int) < nrOpen := by decide
  have live : (openedWorld 1 oRdwr).kernel.file.lookup 1 = some (openedFile oRdwr) := by decide
  have both := @transfers_respect_iff Unit completeOps (openedWorld 1 oRdwr) 0 (openedFile oRdwr)
    0 10 1 range rfl (by decide) live (by decide)
  have readTen : (openedWorld 1 oRdwr).readAnswer completeOps (openedFile oRdwr) 0 10 = 10 := by
    decide
  have writeTen : (openedWorld 1 oRdwr).writeAnswer completeOps (openedFile oRdwr) 0 10 = 10 := by
    decide
  rw [readTen, writeTen] at both
  exact ⟨both.1.mpr ⟨by decide, fun _ => .inr (by decide)⟩,
    both.2.mpr fun _ => .inr (by decide)⟩

/-- A file opened for writing only is read, and reading a directory moves the offset to
2 ^ 32 - 21. -/
theorem transfers_respect_not :
    (((openedWorld 1 oWronly).sysRead completeOps 0 0 10).2 = 10 ∧
      ∀ answer, ¬Respects (openedFile oWronly) 1 fmodeRead answer (openedWorld 1 oWronly)
        ((openedWorld 1 oWronly).sysRead completeOps 0 0 10).1
        ((openedWorld 1 oWronly).sysRead completeOps 0 0 10).2) ∧
    ((openedWorld fsDirectory 0).sysRead completeOps 0 0 10).2 = -EISDIR ∧
      ((openedWorld fsDirectory 0).sysRead completeOps 0 0 10).1.kernel.offsetOf 1 =
        4294967275 := by
  refine ⟨⟨by decide, fun answer respects => ?_⟩, by decide, by decide⟩
  have refused := (respects.refused (by decide)).2
  exact absurd refused (by decide)

end FileWorld

end Nupkux
