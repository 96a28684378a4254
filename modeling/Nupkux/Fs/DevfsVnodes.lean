import Nupkux.Fs.DevfsRegistry
import Nupkux.Fs.VnodeCache

/-!
# The vnodes of devices

A cached vnode of `devfs` and the handle of its device point at each other, and either may go
first: `iput` frees the vnode and clears `handle->node`, while `devfs_unregister_device` frees the
handle and does not look at the vnode. A vnode has two parts at one address: what `iget` and `iput`
keep of it is in `Vfs`, what `devfs_handle2vnode` fills in `Devfs`. The caches of other file systems
are left out.
-/

namespace Nupkux

/-- The entries of a directory. -/
def DevfsHandle.listing (h : DevfsHandle) : List DevfsEntry :=
  PackedArray.contents h.pdata h.entries

namespace Devfs

/-- `device->parent`. -/
def parentOf (d : Devfs) (device : Nat) : Nat :=
  ((d.handle.lookup device).map (·.parent)).getD 0

/-- The entries that `devfs_lookup` goes through: as many as the size of the vnode says, in the
directory it points at. -/
def shown (d : Devfs) (node : Nat) : List DevfsEntry :=
  match d.node.lookup node with
  | none => []
  | some n =>
    match d.handle.lookup n.handle with
    | none => []
    | some h => PackedArray.contents h.pdata (n.size / devfsEntrySize)

/-- `devfs_put_inode`. -/
def putInode (d : Devfs) (node count : Nat) : Devfs :=
  match d.node.lookup node with
  | none => d
  | some n =>
    if count = 1 then { d with handle := d.handle.modify n.handle fun h => { h with node := 0 } }
    else d

/-- The handle is a device in a directory. -/
def IsRegistered (d : Devfs) (device : Nat) : Prop :=
  ∃ h p, d.handle.lookup device = some h ∧ d.handle.lookup h.parent = some p ∧ p.isDir

instance (d : Devfs) (device : Nat) : Decidable (d.IsRegistered device) :=
  decidable_of_iff (((d.handle.lookup device).bind fun h => d.handle.lookup h.parent).any
    (·.isDir) = true) <| by
    simp only [IsRegistered, Option.any_eq_true, Option.bind_eq_some_iff]
    constructor
    · rintro ⟨p, ⟨h, live, inside⟩, isDir⟩
      exact ⟨h, p, live, inside, isDir⟩
    · rintro ⟨h, p, live, inside, isDir⟩
      exact ⟨p, ⟨h, live, inside⟩, isDir⟩

/-- Other directory entries than one behind `.` and `..` in the directory of the device do not name
its number. -/
def NamedOnce (d : Devfs) (device : Nat) : Prop :=
  ∃ k ≥ 2, ∀ dir p, dir ≠ device → d.handle.lookup dir = some p → p.isDir →
    ∀ i < p.entries, (p.pdata i).inode = d.inoOf device → dir = d.parentOf device ∧ i = k

end Devfs

/-- `devfs_s_ops`, for the part of a vnode that `devfs_read_inode` does not fill. -/
def devfsOperations : SuperOperations := ⟨some fun _ attributes => attributes⟩

/-- The file system and the cache of its super block. -/
structure DevfsRun where
  devfs : Devfs := {}
  vfs : Vfs := {}

namespace DevfsRun

/-- `iget` for the super block of the file system. -/
def iget (calloc : Allocator Vnode) (run : DevfsRun) (ino : Nat) : DevfsRun × Nat :=
  let (vfs, node) := run.vfs.iget ucharWidth calloc run.devfs.sb ino
  if (run.vfs.vnode.lookup node).isSome then (⟨run.devfs, vfs⟩, node)
  else
    -- `devfs_read_inode` of a vnode that is not cached yet
    (⟨run.devfs.handle2vnode node (run.devfs.devfsIget ino), vfs⟩, node)

/-- `iput`. -/
def iput (run : DevfsRun) (node : Nat) : DevfsRun :=
  match run.vfs.vnode.lookup node with
  | none => run
  | some n =>
    let devfs := run.devfs.putInode node n.count
    let vfs := run.vfs.iput node
    if (vfs.vnode.lookup node).isSome then ⟨devfs, vfs⟩
    else ⟨{ devfs with node := devfs.node.erase node }, vfs⟩

/-- `read_devfs_sb` of a new super block. -/
def mount (handles : Allocator DevfsHandle) (calloc : Allocator Vnode) (run : DevfsRun) (sb : Nat) :
    DevfsRun :=
  if run.devfs.sb ≠ 0 then run
  else
    let (devfs, root) := Devfs.emptyDir handles { run.devfs with sb, cache := 0 } 0 0
    let block : SuperBlock := { sOp := some devfsOperations }
    let vfs := { run.vfs with superBlock := run.vfs.superBlock.insert sb block }
    (iget calloc ⟨{ devfs with root }, vfs⟩ 0).1

/-- `devfs_unregister_device`. -/
def unregister (run : DevfsRun) (device : Nat) : DevfsRun :=
  { run with devfs := run.devfs.unregisterDevice device }

/-- `sys_umount` of the file system, which frees its vnodes and its super block. -/
def unmount (run : DevfsRun) : DevfsRun where
  devfs := run.devfs.unmount
  vfs := { run.vfs with vnode := ∅, superBlock := run.vfs.superBlock.erase run.devfs.sb }

/-- The vnode is in the cache of the super block. -/
def InCache (run : DevfsRun) (node : Nat) : Prop :=
  ∃ block nodes, run.vfs.superBlock.lookup run.devfs.sb = some block ∧
    LinkedList.Chain run.vfs.cacheNext block.cache nodes ∧ node ∈ nodes

/-- No vnode in the cache belongs to the device. -/
def Unseen (run : DevfsRun) (device : Nat) : Prop :=
  ∀ node n, run.InCache node → run.devfs.node.lookup node = some n → n.handle ≠ device

/-- What the removal of a device leaves. -/
structure UnregistersCleanly (run : DevfsRun) (device : Nat) : Prop where
  /-- No vnode in the cache points to a handle that is freed. -/
  pointing : ∀ node n, (run.unregister device).InCache node →
    (run.unregister device).devfs.node.lookup node = some n →
      ∃ h, (run.unregister device).devfs.handle.lookup n.handle = some h
  /-- No directory entry names the number of the device. -/
  unnamed : ∀ dir p, (run.unregister device).devfs.handle.lookup dir = some p → p.isDir →
    ∀ entry ∈ p.listing, entry.inode ≠ run.devfs.inoOf device
  /-- A vnode of its directory has the new size and shows the entries that are left. -/
  showing : ∀ node n, (run.unregister device).InCache node → run.devfs.node.lookup node = some n →
    n.handle = run.devfs.parentOf device →
      (∃ n' p', (run.unregister device).devfs.node.lookup node = some n' ∧
        n'.handle = run.devfs.parentOf device ∧
        (run.unregister device).devfs.handle.lookup n'.handle = some p' ∧ n'.size = p'.size) ∧
      (run.unregister device).devfs.shown node =
        (run.devfs.shown node).filter fun entry => !(entry.inode == run.devfs.inoOf device)

end DevfsRun

/-- What is called. -/
inductive DevfsCall where
  | mount (sb : Nat)
  | register (dir : Nat) (name : CString)
  | iget (ino : Nat)
  | iput (node : Nat)
  | unregister (device : Nat)
  | unmount
  deriving DecidableEq, Repr

/-- The steps. A device is registered under a name that `devfs_add_d_entry` returns for. Inode numbers
are looked up that a handle has; vnodes are released in any order. -/
inductive DevfsCallStep : DevfsRun → DevfsCall → DevfsRun → Prop
  | mount {run : DevfsRun} {sb : Nat} (handles : Allocator DevfsHandle) (calloc : Allocator Vnode)
      (block : sb ≠ 0) : DevfsCallStep run (.mount sb) (run.mount handles calloc sb)
  | register {run : DevfsRun} {dir : Nat} (handles : Allocator DevfsHandle) (name : CString)
      (short : name.length ≤ devfsFilenameLen) (mode uid gid type fOp : Nat) :
      DevfsCallStep run (.register dir name)
        { run with devfs := (run.devfs.registerDevice handles dir name mode uid gid type fOp).1 }
  | iget {run : DevfsRun} {ino : Nat} (calloc : Allocator Vnode)
      (named : run.devfs.devfsIget ino ≠ 0) : DevfsCallStep run (.iget ino) (run.iget calloc ino).1
  | iput {run : DevfsRun} (node : Nat) : DevfsCallStep run (.iput node) (run.iput node)
  | unregister {run : DevfsRun} {device : Nat} (registered : run.devfs.IsRegistered device) :
      DevfsCallStep run (.unregister device) (run.unregister device)
  | unmount {run : DevfsRun} (mounted : run.devfs.sb ≠ 0) : DevfsCallStep run .unmount run.unmount

/-- Runs from the variables as they are compiled. -/
def devfsCalls : TransitionSystem DevfsRun DevfsCall where
  initial run := run = {}
  step := DevfsCallStep

/-- A device is not removed while a vnode of it is cached. -/
def DevfsRun.RemovesUnseen (run : DevfsRun) : DevfsCall → Prop
  | .unregister device => run.Unseen device
  | _ => True

/-! ## The handles and the vnodes -/

namespace Devfs

open LinkedList

variable {d d' : Devfs} {h p p' : DevfsHandle} {n : DevfsNode}
  {device dir handle node ino : Nat} {number number' : Nat → Option Nat}

/-- A vnode and its handle point at each other, and the vnode has the number and the size of the
handle. -/
structure Paired (d : Devfs) (number : Nat → Option Nat) : Prop where
  /-- There is nothing at the null pointer. -/
  null : d.handle.lookup 0 = none ∧ d.node.lookup 0 = none
  vnode : ∀ node n, d.node.lookup node = some n → ∃ h, d.handle.lookup n.handle = some h ∧
    h.node = node ∧ n.size = h.size ∧ number node = some h.ino
  handle : ∀ handle h, d.handle.lookup handle = some h → h.node ≠ 0 →
    ∃ n, d.node.lookup h.node = some n ∧ n.handle = handle

/-- The handles, their cache and their vnodes, of which each has a number. -/
structure Linked (d : Devfs) (number : Nat → Option Nat) : Prop where
  paired : d.Paired number
  /-- The live handles are cached. -/
  cached : ∃ handles, Chain d.cacheNext d.cache handles ∧
    ∀ handle, handle ∈ handles ↔ ∃ h, d.handle.lookup handle = some h
  /-- No directory is in itself. -/
  parent : ∀ handle h, d.handle.lookup handle = some h → h.parent ≠ handle

/-- A directory is written, and its vnode with it. -/
structure Resizes (d d' : Devfs) (dir : Nat) (p : DevfsHandle) : Prop where
  handle : ∀ other, d'.handle.lookup other =
    if other = dir then some p else d.handle.lookup other
  shows : p.node ≠ 0 → ∃ n, d'.node.lookup p.node = some n ∧ n.handle = dir ∧ n.size = p.size
  others : ∀ node, (p.node ≠ 0 → node ≠ p.node) → d'.node.lookup node = d.node.lookup node
  frame : d'.cache = d.cache ∧ d'.sb = d.sb ∧ d'.root = d.root

/-- Resizing a directory writes it and its vnode. -/
theorem resizes_resized (d : Devfs) (dir : Nat) (p : DevfsHandle) :
    d.Resizes (d.resized dir p) dir p := by
  obtain ⟨cache, _, sb, root⟩ := resized_frame d dir p
  refine ⟨resized_handle d dir p, resized_node, fun node apart => ?_, cache, sb, root⟩
  unfold resized
  dsimp only
  split
  · rename_i connected
    rw [handle2vnode_of_live (AList.lookup_insert ..) connected]
    dsimp only
    rw [Store.lookup_insert_eq, if_neg (apart connected)]
  · rfl

/-- A handle with other entries. -/
def SameBut (p p' : DevfsHandle) : Prop := ∃ size pdata, p' = { p with size, pdata }

/-- Resizing a directory changes no link. -/
theorem Resizes.cacheNext (resizes : d.Resizes d' dir p') (live : d.handle.lookup dir = some p)
    (same : SameBut p p') : d'.cacheNext = d.cacheNext := by
  obtain ⟨size, pdata, rfl⟩ := same
  funext other
  unfold Devfs.cacheNext
  rw [resizes.handle]
  split
  · rename_i top
    rw [top, live]
    rfl
  · rfl

/-- Resizing a directory keeps the pairs. -/
theorem Paired.resizes (paired : d.Paired number) (live : d.handle.lookup dir = some p)
    (resizes : d.Resizes d' dir p') (same : SameBut p p') : d'.Paired number := by
  obtain ⟨size, pdata, rfl⟩ := same
  have nonnull : dir ≠ 0 := by
    rintro rfl
    cases paired.null.1.symm.trans live
  have away : d'.node.lookup 0 = none :=
    (resizes.others 0 fun connected => connected.symm).trans paired.null.2
  refine ⟨⟨?_, away⟩, fun node n found => ?_, fun handle h there connected => ?_⟩
  · rw [resizes.handle, if_neg nonnull.symm]
    exact paired.null.1
  · by_cases own : p.node ≠ 0 ∧ node = p.node
    · obtain ⟨connected, rfl⟩ := own
      obtain ⟨n', found', back, length⟩ := resizes.shows connected
      obtain rfl := Option.some.inj (found'.symm.trans found)
      obtain ⟨n₀, before, back₀⟩ := paired.handle dir p live connected
      obtain ⟨h, live', _, _, numbered⟩ := paired.vnode p.node n₀ before
      obtain rfl := Option.some.inj (live'.symm.trans (back₀ ▸ live))
      refine ⟨{ h with size, pdata }, ?_, rfl, length, numbered⟩
      rw [resizes.handle, if_pos back]
    · rw [resizes.others node fun connected here => own ⟨connected, here⟩] at found
      obtain ⟨h, live', here, length, numbered⟩ := paired.vnode node n found
      have other : n.handle ≠ dir := by
        rintro top
        obtain rfl := Option.some.inj (live'.symm.trans (top ▸ live))
        refine own ⟨fun zero => ?_, here.symm⟩
        rw [← here, zero, paired.null.2] at found
        cases found
      refine ⟨h, ?_, here, length, numbered⟩
      rw [resizes.handle, if_neg other]
      exact live'
  · rw [resizes.handle] at there
    split at there
    · rename_i top
      obtain rfl := Option.some.inj there
      obtain ⟨n, found, back, _⟩ := resizes.shows connected
      exact ⟨n, found, back.trans top.symm⟩
    · rename_i other
      obtain ⟨n, found, back⟩ := paired.handle handle h there connected
      refine ⟨n, ?_, back⟩
      rw [resizes.others h.node fun connected' here => ?_]
      · exact found
      · obtain ⟨n', found', back'⟩ := paired.handle dir p live connected'
        have one : p.node = h.node := here.symm
        rw [one] at found'
        obtain rfl := Option.some.inj (found.symm.trans found')
        exact other (back.symm.trans back')

/-- Resizing a directory. -/
theorem Linked.resizes (linked : d.Linked number) (live : d.handle.lookup dir = some p)
    (resizes : d.Resizes d' dir p') (same : SameBut p p') : d'.Linked number := by
  refine ⟨linked.paired.resizes live resizes same, ?_, fun handle h there => ?_⟩
  · obtain ⟨handles, chain, members⟩ := linked.cached
    refine ⟨handles, ?_, fun handle => (members handle).trans ?_⟩
    · rw [resizes.cacheNext live same, resizes.frame.1]
      exact chain
    · rw [resizes.handle]
      split
      · rename_i top
        rw [top, live]
        simp
      · rfl
  · obtain ⟨size, pdata, rfl⟩ := same
    rw [resizes.handle] at there
    split at there
    · rename_i top
      obtain rfl := Option.some.inj there
      exact top ▸ linked.parent dir p live
    · exact linked.parent handle h there

/-- A state after a handle is allocated and cached. -/
structure Allocates (d d' : Devfs) (device : Nat) (h : DevfsHandle) : Prop where
  handle : ∀ other, d'.handle.lookup other =
    if other = device then some { h with cacheNext := d.cache } else d.handle.lookup other
  cache : d'.cache = device
  node : d'.node = d.node

/-- Allocating a handle. -/
theorem Linked.allocates (linked : d.Linked number) (fresh : d.handle.lookup device = none)
    (nonnull : device ≠ 0) (allocates : d.Allocates d' device h) (unseen : h.node = 0)
    (other : h.parent ≠ device) : d'.Linked number := by
  obtain ⟨handles, chain, members⟩ := linked.cached
  have apart {handle : Nat} {h : DevfsHandle} (live : d.handle.lookup handle = some h) :
      handle ≠ device := by
    rintro rfl
    cases fresh.symm.trans live
  refine ⟨⟨⟨?_, ?_⟩, fun node n found => ?_, fun handle h' there connected => ?_⟩,
    ⟨device :: handles, ?_, fun handle => ?_⟩, fun handle h' there => ?_⟩
  · rw [allocates.handle, if_neg nonnull.symm]
    exact linked.paired.null.1
  · rw [allocates.node]
    exact linked.paired.null.2
  · rw [allocates.node] at found
    obtain ⟨h', live, rest⟩ := linked.paired.vnode node n found
    refine ⟨h', ?_, rest⟩
    rw [allocates.handle, if_neg (apart live)]
    exact live
  · rw [allocates.node]
    rw [allocates.handle] at there
    split at there
    · obtain rfl := Option.some.inj there
      exact absurd unseen connected
    · exact linked.paired.handle handle h' there connected
  · have links : d'.cacheNext = Function.update d.cacheNext device d.cache := by
      funext other
      rw [Function.update_apply]
      unfold cacheNext
      rw [allocates.handle]
      split <;> rfl
    rw [links, allocates.cache]
    refine chain.push nonnull fun member => ?_
    obtain ⟨h', live⟩ := (members device).mp member
    exact apart live rfl
  · rw [allocates.handle, List.mem_cons, members]
    by_cases same : handle = device
    · simp [same]
    · simp [same]
  · rw [allocates.handle] at there
    split at there
    · rename_i same
      obtain rfl := Option.some.inj there
      exact same ▸ other
    · exact linked.parent handle h' there

/-- What a registration does: nothing, or it allocates a handle and resizes its directory. -/
theorem registerDevice_cases (handles : Allocator DevfsHandle) (d : Devfs) (dir : Nat)
    (name : CString) (mode uid gid type fOp : Nat) :
    (d.registerDevice handles dir name mode uid gid type fOp).1 = d ∨
    ∃ target p p' h e, d.handle.lookup target = some p ∧ SameBut p p' ∧ h.node = 0 ∧
      h.parent = target ∧ d.Allocates e (handles.address d.handle) h ∧ e.sb = d.sb ∧
      e.Resizes (d.registerDevice handles dir name mode uid gid type fOp).1 target p' := by
  have fresh := handles.address_fresh d.handle
  generalize device_eq : handles.address d.handle = device at fresh
  unfold registerDevice
  generalize (if dir = 0 then d.root else dir) = target
  dsimp only
  cases live : d.handle.lookup target with
  | none => exact .inl rfl
  | some p =>
    cases isDir : p.isDir with
    | false =>
      left
      simp [isDir]
    | true =>
      have apart : target ≠ device := by
        rintro rfl
        cases fresh.symm.trans live
      let h : DevfsHandle :=
        { ino := d.nextInode, nlinks := 1, uid, gid, mode, flags := type, size := 1, fOp,
          parent := target }
      let e : Devfs := { d with
        handle := d.handle.insert device { h with cacheNext := d.cache }
        cache := device
        nextInode := (d.nextInode + 1) % uintWidth }
      let d₁ : Devfs := { d with
        handle := d.handle.insert device h
        nextInode := (d.nextInode + 1) % uintWidth }
      have there : d₁.handle.lookup target = some p := (AList.lookup_insert_ne apart).trans live
      let p' : DevfsHandle := { p with
        size := (p.entries + 1) * devfsEntrySize
        pdata := Function.update p.pdata p.entries ⟨d.nextInode, name.take devfsFilenameLen⟩ }
      have grown : d₁.addDEntry target name d.nextInode = d₁.resized target p' := by
        unfold addDEntry
        rw [there]
      obtain ⟨handle, shows, others, cache, sb, root⟩ := resizes_resized d₁ target p'
      refine .inr ⟨target, p, p', h, e, live, ⟨_, _, rfl⟩, rfl, rfl, ?_, rfl, ?_⟩
      · exact ⟨fun other => Store.lookup_insert_eq d.handle device other _, rfl, rfl⟩
      · rw [device_eq]
        simp only [isDir, Bool.not_true, Bool.false_eq_true, if_false]
        show e.Resizes ((d₁.addDEntry target name d.nextInode).addToCache device) target p'
        rw [grown]
        refine ⟨fun other => ?_, shows, others, rfl, sb, root⟩
        unfold addToCache
        dsimp only
        rw [Store.lookup_modify, handle, handle, if_neg apart.symm, cache]
        show (if other = device then Option.map _ (AList.lookup device (d.handle.insert device h))
          else if other = target then some p' else AList.lookup other (d.handle.insert device h)) =
            if other = target then some p' else
              AList.lookup other (d.handle.insert device { h with cacheNext := d.cache })
        rw [Store.lookup_insert_eq, Store.lookup_insert_eq, Store.lookup_insert_eq, if_pos rfl]
        by_cases new : other = device
        · rw [if_pos new, if_pos new, if_neg fun top => apart (top.symm.trans new)]
          rfl
        · rw [if_neg new, if_neg new, if_neg new]

/-- A registration. -/
theorem Linked.registerDevice (linked : d.Linked number) (handles : Allocator DevfsHandle)
    (dir : Nat) (name : CString) (mode uid gid type fOp : Nat) :
    (d.registerDevice handles dir name mode uid gid type fOp).1.Linked number := by
  rcases registerDevice_cases handles d dir name mode uid gid type fOp with same |
    ⟨target, p, p', h, e, live, same, unseen, parent, allocates, _, resizes⟩
  · rwa [same]
  · have fresh := handles.address_fresh d.handle
    have apart : target ≠ handles.address d.handle := by
      intro new
      rw [new, fresh] at live
      cases live
    have allocated := linked.allocates fresh (handles.address_ne_zero d.handle) allocates unseen
      (parent ▸ apart)
    refine allocated.resizes ?_ resizes same
    rw [allocates.handle, if_neg apart]
    exact live

/-- A state after a handle is freed, in which links are changed. -/
structure Relinks (d d' : Devfs) (gone : Nat) : Prop where
  node : d'.node = d.node
  freed : d'.handle.lookup gone = none
  kept : ∀ other ≠ gone, ∃ link, d'.handle.lookup other =
    (d.handle.lookup other).map fun h => { h with cacheNext := link }

/-- Freeing a handle without a vnode keeps the pairs. -/
theorem Paired.relinks (paired : d.Paired number) (nonnull : device ≠ 0)
    (relinks : d.Relinks d' device)
    (unseen : ∀ node n, d.node.lookup node = some n → n.handle ≠ device) : d'.Paired number := by
  refine ⟨⟨?_, ?_⟩, fun node n found => ?_, fun handle h there connected => ?_⟩
  · obtain ⟨link, same⟩ := relinks.kept 0 nonnull.symm
    rw [same, paired.null.1]
    rfl
  · rw [relinks.node]
    exact paired.null.2
  · rw [relinks.node] at found
    obtain ⟨h, live, rest⟩ := paired.vnode node n found
    obtain ⟨link, same⟩ := relinks.kept n.handle (unseen node n found)
    refine ⟨{ h with cacheNext := link }, ?_, rest⟩
    rw [same, live]
    rfl
  · have other : handle ≠ device := by
      rintro rfl
      cases relinks.freed.symm.trans there
    obtain ⟨link, same⟩ := relinks.kept handle other
    rw [same] at there
    obtain ⟨h', live, rfl⟩ := Option.map_eq_some_iff.mp there
    rw [relinks.node]
    exact paired.handle handle h' live connected

/-- Removing a handle from the cache frees it. -/
theorem Linked.delFromCache_relinks (linked : d.Linked number)
    (live : d.handle.lookup device = some h) : d.Relinks (d.delFromCache device) device ∧
      (∃ handles, Chain (d.delFromCache device).cacheNext (d.delFromCache device).cache handles ∧
        ∀ handle, handle ∈ handles ↔ ∃ h, (d.delFromCache device).handle.lookup handle = some h) ∧
      (d.delFromCache device).sb = d.sb := by
  obtain ⟨handles, chain, members⟩ := linked.cached
  obtain ⟨before, after, rfl⟩ := List.append_of_mem ((members device).mpr ⟨h, live⟩)
  have nonnull : device ≠ 0 := chain.ne_zero (by simp)
  have distinct := chain.nodup
  obtain ⟨chain', kept, gone, node, sb, _⟩ := delFromCache_spec chain fun other member =>
    (members other).mp member
  have freed : (d.delFromCache device).handle.lookup device = none := by
    unfold delFromCache
    rw [if_neg nonnull]
    exact AList.lookup_erase ..
  have relinks : d.Relinks (d.delFromCache device) device := by
    refine ⟨node, freed, fun other differ => ?_⟩
    cases there : d.handle.lookup other with
    | none => exact ⟨0, gone other there⟩
    | some h' =>
      obtain ⟨link, here⟩ := kept other h' differ there
      exact ⟨link, here⟩
  refine ⟨relinks, ⟨before ++ after, chain', fun handle => ?_⟩, sb⟩
  by_cases same : handle = device
  · subst same
    rw [freed]
    rw [List.nodup_middle, List.nodup_cons] at distinct
    simp [distinct.1]
  · obtain ⟨link, here⟩ := relinks.kept handle same
    rw [here]
    have member : handle ∈ before ++ after ↔ handle ∈ before ++ device :: after := by
      simp [same]
    rw [member, members]
    simp [Option.map_eq_some_iff]

/-! ## Removal -/

/-- A directory without the first entry behind `.` and `..` that has a number. -/
def without (p : DevfsHandle) (ino : Nat) : DevfsHandle :=
  let index := PackedArray.search p.pdata (fun entry => entry.inode == ino) 2 (p.entries - 2)
  if p.entries ≤ index then p else shrunk p index

/-- A removal changes the entries only. -/
theorem sameBut_without (p : DevfsHandle) (ino : Nat) : SameBut p (without p ino) := by
  unfold without
  dsimp only
  split <;> exact ⟨_, _, rfl⟩

/-- A directory with one entry less. -/
theorem entries_shrunk (p : DevfsHandle) (index : Nat) :
    (shrunk p index).entries = p.entries - 1 := by
  show (p.size - devfsEntrySize) / devfsEntrySize = p.size / devfsEntrySize - 1
  rw [devfsEntrySize]
  omega

/-- The entries that are left. -/
theorem listing_without (p : DevfsHandle) (ino : Nat) : (without p ino).listing =
    PackedArray.removed p.pdata (fun entry => entry.inode == ino) 2 p.entries := by
  unfold without PackedArray.removed
  dsimp only
  split
  · rename_i past
    rw [List.eraseIdx_of_length_le]
    · rfl
    · rw [PackedArray.length_contents]
      exact past
  · rename_i inside
    rw [← PackedArray.contents_shiftDown (Nat.lt_of_not_le inside), DevfsHandle.listing,
      entries_shrunk]
    rfl

/-- `devfs_del_d_entry`. -/
theorem Paired.delDEntry (paired : d.Paired number) (live : d.handle.lookup dir = some p)
    (ino : Nat) : d.Resizes (d.delDEntry dir ino) dir (without p ino) := by
  unfold Devfs.delDEntry without
  rw [live]
  dsimp only
  split
  · refine ⟨fun other => ?_, fun connected => ?_, fun _ _ => rfl, rfl, rfl, rfl⟩
    · split
      · rename_i top
        rw [top, live]
      · rfl
    · obtain ⟨n, found, back⟩ := paired.handle dir p live connected
      obtain ⟨h, there, _, length, _⟩ := paired.vnode p.node n found
      obtain rfl := Option.some.inj (there.symm.trans (back ▸ live))
      exact ⟨n, found, back, length⟩
  · exact resizes_resized d dir _

/-- `devfs_unregister_device` shrinks the directory and then frees the handle. -/
theorem Linked.unregisterDevice_eq (linked : d.Linked number)
    (live : d.handle.lookup device = some h) (inside : d.handle.lookup h.parent = some p) :
    ∃ e, d.Resizes e h.parent (without p h.ino) ∧ e.Linked number ∧
      e.handle.lookup device = some h ∧ d.unregisterDevice device = e.delFromCache device := by
  have resizes := linked.paired.delDEntry inside h.ino
  refine ⟨_, resizes, linked.resizes inside resizes (sameBut_without p h.ino), ?_, ?_⟩
  · rw [resizes.handle, if_neg (linked.parent device h live).symm]
    exact live
  · unfold unregisterDevice
    rw [live]

/-- A handle without a vnode is one that no vnode points to. -/
theorem Paired.node_eq_zero (paired : d.Paired number) (live : d.handle.lookup device = some h) :
    h.node = 0 ↔ ∀ node n, d.node.lookup node = some n → n.handle ≠ device := by
  constructor
  · rintro zero node n found rfl
    obtain ⟨h', live', here, _⟩ := paired.vnode node n found
    obtain rfl := Option.some.inj (live.symm.trans live')
    rw [← here, zero, paired.null.2] at found
    cases found
  · intro unseen
    by_contra connected
    obtain ⟨n, found, back⟩ := paired.handle device h live connected
    exact unseen h.node n found back

/-- The removal of a device without a vnode. -/
theorem Linked.unregisterDevice (linked : d.Linked number)
    (live : d.handle.lookup device = some h) (inside : d.handle.lookup h.parent = some p)
    (unseen : h.node = 0) : (d.unregisterDevice device).Linked number ∧
      (d.unregisterDevice device).sb = d.sb := by
  obtain ⟨e, resizes, shrunk, there, removed⟩ := linked.unregisterDevice_eq live inside
  obtain ⟨relinks, cached, sb⟩ := shrunk.delFromCache_relinks there
  have nonnull : device ≠ 0 := by
    rintro rfl
    cases linked.paired.null.1.symm.trans live
  rw [removed]
  refine ⟨⟨?_, cached, fun handle h' live' => ?_⟩, sb.trans resizes.frame.2.1⟩
  · exact shrunk.paired.relinks nonnull relinks ((shrunk.paired.node_eq_zero there).mp unseen)
  · have other : handle ≠ device := by
      rintro rfl
      cases relinks.freed.symm.trans live'
    obtain ⟨link, same⟩ := relinks.kept handle other
    rw [same] at live'
    obtain ⟨h'', live'', rfl⟩ := Option.map_eq_some_iff.mp live'
    exact shrunk.parent handle h'' live''

/-! ## Vnodes that come and go -/

/-- What `devfs_iget` finds has the number. -/
theorem Linked.devfsIget_live (linked : d.Linked number) (found : d.devfsIget ino ≠ 0) :
    ∃ h, d.handle.lookup (d.devfsIget ino) = some h ∧ h.ino = ino := by
  obtain ⟨handles, chain, members⟩ := linked.cached
  obtain ⟨member, qualifies⟩ := seek_mem chain found
  obtain ⟨h, live⟩ := (members _).mp member
  refine ⟨h, live, ?_⟩
  have same := beq_iff_eq.mp qualifies
  rwa [inoOf_of_live live] at same

/-- `devfs_iget` finds a number that a live handle has. -/
theorem Linked.devfsIget_ne_zero (linked : d.Linked number)
    (live : d.handle.lookup handle = some h) : d.devfsIget h.ino ≠ 0 := by
  obtain ⟨handles, chain, members⟩ := linked.cached
  have walk := walk_of_live chain fun other member => (members other).mp member
  have stops : (d.inoOf handle == h.ino) = true := by
    rw [inoOf_of_live live]
    exact beq_self_eq_true h.ino
  exact seek_ne_zero chain ((members handle).mpr ⟨h, live⟩) stops walk

/-- A change of the handles that keeps what the cache and the directories are. -/
theorem Linked.of_handles (linked : d.Linked number) (paired : d'.Paired number')
    (cache : d'.cache = d.cache)
    (same : ∀ handle, (d'.handle.lookup handle).map (fun h => (h.cacheNext, h.parent)) =
      (d.handle.lookup handle).map fun h => (h.cacheNext, h.parent)) : d'.Linked number' := by
  have live (handle : Nat) : (∃ h, d'.handle.lookup handle = some h) ↔
      ∃ h, d.handle.lookup handle = some h := by
    have here := congrArg Option.isSome (same handle)
    rw [Option.isSome_map, Option.isSome_map] at here
    rw [← Option.isSome_iff_exists, ← Option.isSome_iff_exists, here]
  obtain ⟨handles, chain, members⟩ := linked.cached
  refine ⟨paired, ⟨handles, ?_, fun handle => (members handle).trans (live handle).symm⟩,
    fun handle h there => ?_⟩
  · have links : d'.cacheNext = d.cacheNext := by
      funext handle
      have here := congrArg (Option.map (·.1)) (same handle)
      rw [Option.map_map, Option.map_map] at here
      exact congrArg (·.getD 0) here
    rw [links, cache]
    exact chain
  · have here := same handle
    rw [there] at here
    obtain ⟨h₀, live₀, key⟩ := Option.map_eq_some_iff.mp here.symm
    have parent : h₀.parent = h.parent := congrArg (·.2) key
    exact parent ▸ linked.parent handle h₀ live₀

/-- A vnode is read in. -/
theorem Linked.handle2vnode (linked : d.Linked number) (fresh : d.node.lookup node = none)
    (nonnull : node ≠ 0) (live : d.handle.lookup handle = some h) (unseen : h.node = 0)
    (numbered : number' node = some h.ino) (others : ∀ other ≠ node, number' other = number other) :
    (d.handle2vnode node handle).Linked number' ∧ (d.handle2vnode node handle).sb = d.sb := by
  have filled := handle2vnode_of_live live nonnull
  have apart : handle ≠ 0 := by
    rintro rfl
    cases linked.paired.null.1.symm.trans live
  have unpointed := (linked.paired.node_eq_zero live).mp unseen
  rw [filled]
  refine ⟨linked.of_handles ⟨⟨?_, ?_⟩, fun other n found => ?_, fun other h' there connected => ?_⟩
    rfl fun other => ?_, rfl⟩
  · dsimp only
    rw [Store.lookup_insert_eq, if_neg apart.symm]
    exact linked.paired.null.1
  · dsimp only
    rw [Store.lookup_insert_eq, if_neg nonnull.symm]
    exact linked.paired.null.2
  · dsimp only at found ⊢
    rw [Store.lookup_insert_eq] at found
    split at found
    · rename_i same
      obtain rfl := Option.some.inj found
      refine ⟨{ h with node }, AList.lookup_insert .., same.symm, rfl, ?_⟩
      rw [same]
      exact numbered
    · rename_i differ
      obtain ⟨h', live', here, length, numbered'⟩ := linked.paired.vnode other n found
      refine ⟨h', ?_, here, length, (others other differ).trans numbered'⟩
      rw [Store.lookup_insert_eq, if_neg (unpointed other n found)]
      exact live'
  · dsimp only at there ⊢
    rw [Store.lookup_insert_eq] at there
    split at there
    · rename_i same
      obtain rfl := Option.some.inj there
      exact ⟨_, AList.lookup_insert .., same.symm⟩
    · obtain ⟨n, found, back⟩ := linked.paired.handle other h' there connected
      refine ⟨n, ?_, back⟩
      rw [Store.lookup_insert_eq, if_neg]
      · exact found
      · intro same
        rw [same, fresh] at found
        cases found
  · dsimp only
    rw [Store.lookup_insert_eq]
    split
    · rename_i same
      rw [same, live]
      rfl
    · rfl

/-- A vnode is freed. -/
theorem Linked.erase (linked : d.Linked number) (found : d.node.lookup node = some n)
    (others : ∀ other ≠ node, number' other = number other) :
    Linked { d.putInode node 1 with node := (d.putInode node 1).node.erase node } number' ∧
      (d.putInode node 1).sb = d.sb := by
  have released : d.putInode node 1 =
      { d with handle := d.handle.modify n.handle fun h => { h with node := 0 } } := by
    unfold putInode
    rw [found]
    rfl
  obtain ⟨h, live, here, _, _⟩ := linked.paired.vnode node n found
  rw [released]
  refine ⟨linked.of_handles ⟨⟨?_, ?_⟩, fun other n' found' => ?_,
    fun other h' there connected => ?_⟩ rfl fun other => ?_, rfl⟩
  · dsimp only
    rw [Store.lookup_modify, linked.paired.null.1]
    split
    · rename_i null
      rw [← null, linked.paired.null.1]
      rfl
    · rfl
  · dsimp only
    rw [Store.lookup_erase_eq, linked.paired.null.2, ite_self]
  · dsimp only at found' ⊢
    rw [Store.lookup_erase_eq] at found'
    split at found'
    · cases found'
    · rename_i differ
      obtain ⟨h', live', here', length, numbered⟩ := linked.paired.vnode other n' found'
      refine ⟨h', ?_, here', length, (others other differ).trans numbered⟩
      rw [Store.lookup_modify, if_neg]
      · exact live'
      · intro same
        rw [same, live] at live'
        obtain rfl := Option.some.inj live'
        exact differ (here'.symm.trans here)
  · dsimp only at there ⊢
    rw [Store.lookup_modify] at there
    split at there
    · obtain ⟨h'', _, rfl⟩ := Option.map_eq_some_iff.mp there
      exact absurd rfl connected
    · rename_i differ
      obtain ⟨n', found', back⟩ := linked.paired.handle other h' there connected
      refine ⟨n', ?_, back⟩
      rw [Store.lookup_erase_eq, if_neg]
      · exact found'
      · intro same
        rw [same, found] at found'
        obtain rfl := Option.some.inj found'
        exact differ back.symm
  · dsimp only
    rw [Store.lookup_modify]
    split
    · rename_i same
      rw [same, Option.map_map]
      rfl
    · rfl

end Devfs

end Nupkux
