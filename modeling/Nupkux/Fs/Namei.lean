import Nupkux.Fs.Open
import Nupkux.Strings

/-!
# Path resolution

`namei` walks a path from the root or the working directory of the task, follows mounts
downwards with `resolve_mount` and, for `..`, upwards through `cover`. A walk along `mount` or
`cover` pointers takes fuel, and `none` is a walk that has not ended: `resolve_mount` passes
`steps--` on, so its limit never counts down. `none` also stands for a null `root_vnode` that
`namei` would start from. A filename is the path from the name on.
-/

namespace Nupkux

/-- `MOUNT_MAX`. -/
def mountMax : Nat := 16

/-- `X_OK`. -/
def xOk : Nat := 1

/-- The character that separates names. -/
def slash : UInt8 := 47

/-- `"."`. -/
def dot : CString := [46]

/-- `".."`. -/
def dotdot : CString := [46, 46]

/-- `is_end_chr` of the first character of a string. -/
def isEnd : CString → Bool
  | [] => true
  | c :: _ => c == 0 || c == slash

/-- `namei_match`: the strings have the same name before a slash or the end. -/
def nameiMatch : CString → CString → Bool
  | c :: s, d :: t =>
    if isEnd (c :: s) || isEnd (d :: t) then isEnd (c :: s) == isEnd (d :: t)
    else if c ≠ d then false
    else nameiMatch s t
  | s, t => isEnd s == isEnd t

/-- The name a path starts with. -/
def component : CString → CString
  | [] => []
  | c :: s => if c == 0 || c == slash then [] else c :: component s

/-- A path that goes on with a name starts with its first character. -/
theorem component_cons {c : UInt8} {s : CString} (more : isEnd (c :: s) = false) :
    component (c :: s) = c :: component s := by
  have inside : (c == 0 || c == slash) = false := more
  rw [component, inside]
  rfl

/-- The name is empty when the path does not go on. -/
theorem component_eq_nil {s : CString} : component s = [] ↔ isEnd s = true := by
  cases s with
  | nil => simp [component, isEnd]
  | cons c s =>
    cases ends : isEnd (c :: s) with
    | true =>
      have last : (c == 0 || c == slash) = true := ends
      simp [component, last]
    | false => simp [component_cons ends]

/-- `namei_match` compares the names two paths start with. -/
theorem nameiMatch_iff (s t : CString) : nameiMatch s t = true ↔ component s = component t := by
  have ended (s t : CString) (one : isEnd s = true ∨ isEnd t = true) :
      (isEnd s == isEnd t) = true ↔ component s = component t := by
    rcases one with first | second
    · rw [component_eq_nil.mpr first, first, beq_iff_eq, eq_comm, ← component_eq_nil, eq_comm]
    · rw [component_eq_nil.mpr second, second, beq_iff_eq, ← component_eq_nil]
  induction s generalizing t with
  | nil =>
    cases t with
    | nil => exact ended [] [] (.inl rfl)
    | cons d t => exact ended [] (d :: t) (.inl rfl)
  | cons c s ih =>
    cases t with
    | nil => exact ended (c :: s) [] (.inr rfl)
    | cons d t =>
      rw [nameiMatch]
      by_cases one : isEnd (c :: s) = true ∨ isEnd (d :: t) = true
      · rw [if_pos (by simpa using one)]
        exact ended (c :: s) (d :: t) one
      · rw [if_neg (by simpa using one)]
        obtain ⟨more, more'⟩ := not_or.mp one
        rw [component_cons (Bool.not_eq_true _ ▸ more), component_cons (Bool.not_eq_true _ ▸ more'),
          List.cons.injEq]
        by_cases same : c = d
        · rw [if_neg (not_not.mpr same)]
          simp [same, ih]
        · rw [if_pos same]
          simp [same]

/-- A name without a slash is the name it starts with. -/
theorem component_of_name {s : CString} (whole : NoNul s) (plain : slash ∉ s) :
    component s = s := by
  induction s with
  | nil => rfl
  | cons c s ih =>
    have more : isEnd (c :: s) = false := by
      have other : c ≠ slash := by
        rintro rfl
        exact plain List.mem_cons_self
      simp [isEnd, whole.head_ne, other]
    rw [component_cons more, ih whole.tail fun member => plain (List.mem_cons_of_mem c member)]

/-- `node_permission`. -/
def nodePermission (task : Task) (a : Attributes) (mask : Nat) : Nat :=
  let mode :=
    if task.isRoot then 0o777
    else if task.uid = a.uid ∨ task.euid = a.uid then a.mode >>> 6
    else if task.gid = a.gid ∨ task.egid = a.gid then a.mode >>> 3
    else a.mode
  mode &&& mask &&& 7

namespace Vfs

/-- `node->mount`. -/
def mountOf (v : Vfs) (node : Nat) : Nat := ((v.vnode.lookup node).map (·.mount)).getD 0

/-- `node->cover`. -/
def coverOf (v : Vfs) (node : Nat) : Nat := ((v.vnode.lookup node).map (·.cover)).getD 0

/-- `node->i_op->lookup`: all file systems fetch the inode that the name stands for. -/
def lookupInode (width : Nat) (calloc : Allocator Vnode) (v : Vfs) (sb : Nat) :
    Option Nat → Vfs × Nat
  | none => (v, 0)
  | some ino => v.iget width calloc sb ino

/-- `resolve_mount`: the vnodes, the vnode resolved and the status. -/
def resolveMount (width : Nat) : Nat → Vfs → Nat → Int → Nat → Option (Vfs × Nat × Int)
  | 0, _, _, _, _ => none
  | fuel + 1, v, node, status, steps =>
    if v.mountOf node ≠ 0 then
      if steps = 0 then some (v.iput node, 0, -EMLINK)
      else
        let newnode := v.mountOf node
        resolveMount width fuel ((v.iput node).hold width newnode) newnode status steps
    else some (v, node, status)

/-- The end of `getdentry`: the entry of a directory, with mounts resolved. -/
def lookupEntry (width : Nat) (calloc : Allocator Vnode) (fuel : Nat) (v : Vfs) (task : Task)
    (node : Nat) (filename : CString) : Option (Vfs × Nat × Int) :=
  let a := ((v.vnode.lookup node).map (·.attributes)).getD {}
  if a.flags &&& 7 ≠ fsDirectory then some (v.iput node, 0, -ENOTDIR)
  else if nodePermission task a xOk = 0 then some (v.iput node, 0, -EACCES)
  else
    match a.lookup with
    | none => some (v.iput node, 0, -EGENERIC)
    | some lookup =>
      let sb := ((v.vnode.lookup node).map (·.sb)).getD 0
      let found := v.lookupInode width calloc sb (lookup filename)
      if found.2 = 0 then some (found.1.iput node, 0, -ENOENT)
      else resolveMount width fuel (found.1.iput node) found.2 0 mountMax

/-- `getdentry`, `frommount` for a mount point that is left upwards. -/
def getdentry (width : Nat) (calloc : Allocator Vnode) (task : Task) (filename : CString) :
    Nat → Vfs → Nat → Int → Bool → Option (Vfs × Nat × Int)
  | 0, _, _, _, _ => none
  | fuel + 1, v, node, status, frommount =>
    (if frommount then some (v.hold width node, node, status)
      else resolveMount width fuel (v.hold width node) node status mountMax).bind
    fun (v, node, status) =>
      if node = 0 then some (v, 0, status)
      else if nameiMatch filename dot then some (v, node, status)
      else if nameiMatch filename dotdot then
        if v.coverOf node ≠ 0 then
          getdentry width calloc task filename fuel (v.iput node) (v.coverOf node) status true
        else
          (resolveMount width fuel (v.hold width task.root) task.root status mountMax).bind
          fun (v, newnode, status) =>
            if node = newnode then some (v.iput newnode, node, status)
            else lookupEntry width calloc fuel (v.iput newnode) task node filename
      else lookupEntry width calloc fuel v task node filename

/-- The loop of `igetdir`, at a point of the path: `filename` is the name the point is in or
after, and the last argument is the path from there on. The result has the last name too. -/
def walk (width : Nat) (calloc : Allocator Vnode) (fuel : Nat) (task : Task) (v : Vfs)
    (node : Nat) (status : Int) (filename : CString) :
    CString → Option (Vfs × Nat × CString × Int)
  | [] => some (v, node, filename, status)
  | c :: rest =>
    if c = slash then do
      let name := if filename.head? = some slash then dot else filename
      let (v, node, status) ← getdentry width calloc task name fuel v node status false
      if node = 0 then some (v, 0, [], status)
      else walk width calloc fuel task v node status rest rest
    else walk width calloc fuel task v node status filename rest

/-- `igetdir`: the vnodes, the directory, the last name and the status. -/
def igetdir (width : Nat) (calloc : Allocator Vnode) (fuel : Nat) (task : Task) (v : Vfs)
    (node : Nat) (filename : CString) (status : Int) : Option (Vfs × Nat × CString × Int) :=
  if filename = [] then do
    let (v, node, status) ← resolveMount width fuel (v.hold width node) node status mountMax
    some (v, node, [], status)
  else walk width calloc fuel task v node status filename filename

/-- Where `namei` starts: the root of the task for a path that begins with a slash, else its
working directory, and `root_vnode` where the task has none. -/
def startOf (v : Vfs) (task : Task) (c : UInt8) : Nat :=
  let node := if c = slash then task.root else task.pwd
  if node = 0 then v.rootVnode else node

/-- `namei`, with `status` as it was before the call. -/
def namei (width : Nat) (calloc : Allocator Vnode) (fuel : Nat) (v : Vfs) (task : Task)
    (filename : CString) (status : Int) : Option (Vfs × Nat × Int) :=
  match filename with
  | [] => some (v, 0, -ENOENT)
  | c :: rest =>
    if v.startOf task c = 0 then none
    else
      (igetdir width calloc fuel task v (v.startOf task c) (if c = slash then rest else c :: rest)
        status).bind
      fun (v, node, basename, status) =>
        if node = 0 then some (v, 0, status)
        else if basename = [] then some (v, node, 0)
        else getdentry width calloc task basename fuel v node 0 false

end Vfs

end Nupkux
