import Nupkux.Fs.Mount
import Nupkux.Fs.VnodeCache

/-!
# Unmounting never succeeds

Whatever vnode `namei` returns has had its mounts resolved, so that nothing is mounted on it.
`sys_umount` looks for its mount with `namei`, and rejects a vnode nothing is mounted on.
-/

namespace Nupkux

namespace Vfs

variable {v v' : Vfs} {node : Nat}

/-! ## What path resolution leaves alone -/

/-- The list of mounts is the same. -/
def SameMounts (v v' : Vfs) : Prop := v'.vfsmount = v.vfsmount ∧ v'.vfsMounts = v.vfsMounts

/-- Nothing changed. -/
theorem SameMounts.refl (v : Vfs) : SameMounts v v := ⟨rfl, rfl⟩

/-- Two steps that keep the list of mounts. -/
theorem SameMounts.trans {v'' : Vfs} (first : SameMounts v v') (second : SameMounts v' v'') :
    SameMounts v v'' :=
  ⟨second.1.trans first.1, second.2.trans first.2⟩

/-- A reference taken keeps the list of mounts. -/
theorem hold_mounts (width : Nat) (v : Vfs) (node : Nat) : SameMounts v (v.hold width node) :=
  ⟨rfl, rfl⟩

/-- `free_inode` keeps the list of mounts. -/
theorem freeInode_mounts (v : Vfs) (node : Nat) (n : Vnode) (block : SuperBlock) :
    SameMounts v (v.freeInode node n block) := by
  unfold freeInode
  dsimp only
  split <;> exact ⟨rfl, rfl⟩

/-- `iput` keeps the list of mounts. -/
theorem iput_mounts (v : Vfs) (node : Nat) : SameMounts v (v.iput node) := by
  unfold iput
  split
  · exact .refl v
  · rename_i n live
    split
    · exact .refl v
    · rename_i block found
      split
      · exact .refl v
      · split
        · exact .refl v
        · dsimp only
          split
          · exact (freeInode_mounts _ node _ block)
          · exact ⟨rfl, rfl⟩

/-- `iget` keeps the list of mounts. -/
theorem iget_mounts (width : Nat) (calloc : Allocator Vnode) (v : Vfs) (sb ino : Nat) :
    SameMounts v (v.iget width calloc sb ino).1 := by
  unfold iget
  split
  · exact .refl v
  · dsimp only
    split
    · exact hold_mounts width v _
    · split
      · exact .refl v
      · exact ⟨rfl, rfl⟩

/-- The lookup of a file system keeps the list of mounts. -/
theorem lookupInode_mounts (width : Nat) (calloc : Allocator Vnode) (v : Vfs) (sb : Nat)
    (entry : Option Nat) : SameMounts v (v.lookupInode width calloc sb entry).1 := by
  cases entry with
  | none => exact .refl v
  | some ino => exact iget_mounts width calloc v sb ino

/-- What is mounted on a vnode is part of its content. -/
theorem mountOf_content (v : Vfs) (node : Nat) :
    v.mountOf node = (((v.vnode.lookup node).map Vnode.content).map (·.mount)).getD 0 := by
  rw [Option.map_map]
  rfl

/-- Nothing is mounted on a vnode after `iput` on which nothing was mounted before. -/
theorem mountOf_iput (bare : v.mountOf node = 0) (other : Nat) :
    (v.iput other).mountOf node = 0 := by
  unfold iput
  split
  · exact bare
  · rename_i n live
    -- the counter of the vnode is not part of what is mounted
    have lowered (count : Nat) :
        Vfs.mountOf { v with vnode := v.vnode.insert other { n with count } } node = 0 := by
      rw [mountOf, Store.lookup_insert_eq]
      split
      · rename_i same
        rw [mountOf, same, live] at bare
        exact bare
      · exact bare
    split
    · exact bare
    · split
      · exact bare
      · split
        · exact bare
        · dsimp only
          split
          · rw [mountOf_content, freeInode_lookup]
            split
            · rfl
            · rw [← mountOf_content]
              exact lowered _
          · exact lowered _

/-! ## Resolved vnodes -/

/-- A result of path resolution: a vnode on which nothing is mounted, or an error. -/
structure Resolved (v : Vfs) (result : Vfs × Nat × Int) : Prop where
  mounts : SameMounts v result.1
  bare : result.2.1 ≠ 0 → result.1.mountOf result.2.1 = 0
  failed : result.2.1 = 0 → result.2.2 ≠ 0

/-- An error is a result. -/
theorem Resolved.error {error : Int} (mounts : SameMounts v v') (nonzero : error ≠ 0) :
    Resolved v (v', 0, error) :=
  ⟨mounts, fun found => absurd rfl found, fun _ => nonzero⟩

/-- A result from a later state is a result. -/
theorem Resolved.after {result : Vfs × Nat × Int} (mounts : SameMounts v v')
    (resolved : Resolved v' result) : Resolved v result :=
  ⟨mounts.trans resolved.mounts, resolved.bare, resolved.failed⟩

variable {width fuel : Nat} {calloc : Allocator Vnode} {task : Task} {filename : CString}
  {status : Int} {result : Vfs × Nat × Int}

/-- `resolve_mount` finds a vnode on which nothing is mounted, since its limit is not used up. -/
theorem resolveMount_bare {steps : Nat} (limit : steps ≠ 0)
    (done : v.resolveMount width fuel node status steps = some result) :
    SameMounts v result.1 ∧ result.1.mountOf result.2.1 = 0 ∧ (node ≠ 0 → result.2.1 ≠ 0) := by
  induction fuel generalizing v node with
  | zero => cases done
  | succ fuel ih =>
    rw [resolveMount] at done
    by_cases mounted : v.mountOf node ≠ 0
    · rw [if_pos mounted, if_neg limit] at done
      obtain ⟨mounts, bare, found⟩ := ih done
      exact ⟨((iput_mounts v node).trans (hold_mounts width _ _)).trans mounts, bare,
        fun _ => found mounted⟩
    · rw [if_neg mounted] at done
      cases done
      exact ⟨.refl v, not_not.mp mounted, id⟩

/-- `resolve_mount` of a vnode is a result. -/
theorem resolveMount_resolved {steps : Nat} (limit : steps ≠ 0) (nonnull : node ≠ 0)
    (done : v.resolveMount width fuel node status steps = some result) : Resolved v result := by
  obtain ⟨mounts, bare, found⟩ := resolveMount_bare limit done
  exact ⟨mounts, fun _ => bare, fun null => absurd null (found nonnull)⟩

/-- The end of `getdentry` resolves the entry it finds. -/
theorem lookupEntry_resolved
    (done : v.lookupEntry width calloc fuel task node filename = some result) :
    Resolved v result := by
  unfold lookupEntry at done
  dsimp only at done
  have failed {error : Int} (nonzero : error ≠ 0)
      (returned : some (v.iput node, 0, error) = some result) : Resolved v result := by
    cases returned
    exact .error (iput_mounts v node) nonzero
  split at done
  · exact failed (by decide) done
  · split at done
    · exact failed (by decide) done
    · split at done
      · exact failed (by decide) done
      · rename_i lookup _
        have fetched := lookupInode_mounts width calloc v
          (((v.vnode.lookup node).map (·.sb)).getD 0) (lookup filename)
        have mounts := fetched.trans (iput_mounts _ node)
        split at done
        · cases done
          exact .error mounts (by decide)
        · rename_i found
          exact (resolveMount_resolved (by decide) found done).after mounts

/-- `getdentry` resolves what it finds; a mount point that is left upwards, by the name `..`,
is not it. -/
theorem getdentry_resolved {frommount : Bool} (nonnull : node ≠ 0)
    (upwards : frommount = true → nameiMatch filename dot = false)
    (done : v.getdentry width calloc task filename fuel node status frommount = some result) :
    Resolved v result := by
  induction fuel generalizing v node status frommount with
  | zero => cases done
  | succ fuel ih =>
    rw [getdentry] at done
    obtain ⟨⟨v₁, node₁, status₁⟩, start, done⟩ := Option.bind_eq_some_iff.mp done
    have first : SameMounts v v₁ ∧ node₁ ≠ 0 ∧ (frommount = false → v₁.mountOf node₁ = 0) := by
      cases frommount with
      | true =>
        cases start
        exact ⟨hold_mounts width v node, nonnull, fun down => by cases down⟩
      | false =>
        obtain ⟨mounts, bare, found⟩ := resolveMount_bare (by decide) start
        exact ⟨(hold_mounts width v node).trans mounts, found nonnull, fun _ => bare⟩
    obtain ⟨mounts, nonnull₁, bare⟩ := first
    dsimp only at done
    rw [if_neg nonnull₁] at done
    by_cases here : nameiMatch filename dot = true
    · rw [if_pos here] at done
      cases done
      have down : frommount = false := by
        cases frommount with
        | true => exact absurd (upwards rfl) (by simp [here])
        | false => rfl
      exact ⟨mounts, fun _ => bare down, fun null => absurd null nonnull₁⟩
    · rw [if_neg here] at done
      by_cases up : nameiMatch filename dotdot = true
      · rw [if_pos up] at done
        by_cases covers : v₁.coverOf node₁ ≠ 0
        · rw [if_pos covers] at done
          exact (ih covers (fun _ => Bool.not_eq_true _ ▸ here) done).after
            (mounts.trans (iput_mounts v₁ node₁))
        · rw [if_neg covers] at done
          obtain ⟨⟨v₂, root, status₂⟩, top, done⟩ := Option.bind_eq_some_iff.mp done
          obtain ⟨mounts', bare', _⟩ := resolveMount_bare (by decide) top
          have mounts₂ := mounts.trans ((hold_mounts width v₁ task.root).trans mounts')
          dsimp only at done
          split at done
          · rename_i same
            cases done
            refine ⟨mounts₂.trans (iput_mounts v₂ root), fun _ => ?_, fun null => ?_⟩
            · rw [same]
              exact mountOf_iput bare' root
            · exact absurd null nonnull₁
          · exact (lookupEntry_resolved done).after (mounts₂.trans (iput_mounts v₂ root))
      · rw [if_neg up] at done
        exact (lookupEntry_resolved done).after mounts

/-- A part of path resolution that may end with a last name to be looked up: a vnode, on which
nothing is mounted if there is no such name, or an error. -/
structure Walked (v : Vfs) (found : Vfs × Nat × CString × Int) : Prop where
  mounts : SameMounts v found.1
  bare : found.2.1 ≠ 0 → found.2.2.1 = [] → found.1.mountOf found.2.1 = 0
  failed : found.2.1 = 0 → found.2.2.2 ≠ 0

/-- The loop of `igetdir` resolves every directory it enters. -/
theorem walk_walked {path : CString} {found : Vfs × Nat × CString × Int} (nonnull : node ≠ 0)
    (bare : filename = [] → v.mountOf node = 0)
    (done : v.walk width calloc fuel task node status filename path = some found) :
    Walked v found := by
  induction path generalizing v node status filename with
  | nil =>
    cases done
    exact ⟨.refl v, fun _ => bare, fun null => absurd null nonnull⟩
  | cons c rest ih =>
    rw [walk] at done
    by_cases separator : c = slash
    · rw [if_pos separator] at done
      obtain ⟨⟨v₁, node₁, status₁⟩, entered, done⟩ := Option.bind_eq_some_iff.mp done
      have resolved := getdentry_resolved nonnull (fun up => by cases up) entered
      dsimp only at done
      split at done
      · rename_i null
        cases done
        exact ⟨resolved.mounts, fun found => absurd rfl found, fun _ => resolved.failed null⟩
      · rename_i found
        have later := ih found (fun _ => resolved.bare found) done
        exact ⟨resolved.mounts.trans later.mounts, later.bare, later.failed⟩
    · rw [if_neg separator] at done
      exact ih nonnull bare done

/-- `igetdir` resolves the directory it finds, or leaves a last name. -/
theorem igetdir_walked {found : Vfs × Nat × CString × Int} (nonnull : node ≠ 0)
    (done : v.igetdir width calloc fuel task node filename status = some found) :
    Walked v found := by
  unfold igetdir at done
  split at done
  · obtain ⟨⟨v₁, node₁, status₁⟩, top, done⟩ := Option.bind_eq_some_iff.mp done
    have resolved := resolveMount_resolved (by decide) nonnull top
    cases done
    exact ⟨(hold_mounts width v node).trans resolved.mounts, fun found _ => resolved.bare found,
      resolved.failed⟩
  · rename_i some_name
    exact walk_walked nonnull (fun none => absurd none some_name) done

/-- `namei` resolves what it finds. -/
theorem namei_resolved
    (done : v.namei width calloc fuel task filename status = some result) :
    Resolved v result := by
  unfold namei at done
  split at done
  · cases done
    exact .error (.refl v) (by decide)
  · split at done
    · cases done
    · rename_i nonnull
      obtain ⟨⟨v₁, node₁, basename, status₁⟩, walked, done⟩ := Option.bind_eq_some_iff.mp done
      have start := igetdir_walked nonnull walked
      dsimp only at done
      split at done
      · rename_i null
        cases done
        exact ⟨start.mounts, fun found => absurd rfl found, fun _ => start.failed null⟩
      · rename_i found
        split at done
        · rename_i no_name
          cases done
          exact ⟨start.mounts, fun _ => start.bare found no_name, fun null => absurd null found⟩
        · exact (getdentry_resolved found (fun up => by cases up) done).after start.mounts

/-! ## Mounting and unmounting -/

/-- What is mounted becomes the head of the list of mounts. -/
theorem mountAt_mounts (width : Nat) (blocks : MountBlocks) (v : Vfs) (type : FilesystemType)
    (mountpoint dev data : Nat) :
    (v.mountAt width blocks type mountpoint dev data).vfsMounts =
      blocks.vfsmount.address v.vfsmount := rfl

/-- A mount puts a new mount at the head of the list. -/
theorem sysMount_mounts {blocks : MountBlocks} {filesystems : List FilesystemType}
    {source target filesystemtype : CString} {data : Nat}
    (mounted : sysMount width blocks fuel filesystems v task source target filesystemtype data =
      some (v', 0)) : v'.vfsMounts ∉ v.vfsmount := by
  have fresh (v₁ : Vfs) (mounts : SameMounts v v₁) :
      blocks.vfsmount.address v₁.vfsmount ∉ v.vfsmount := by
    rw [mounts.1]
    exact AList.lookup_eq_none.mp (blocks.vfsmount.address_fresh v.vfsmount)
  unfold sysMount at mounted
  split at mounted
  · simp [EPERM] at mounted
  · split at mounted
    · simp [EINVAL] at mounted
    · rename_i type _
      obtain ⟨⟨v₁, mountpoint, status₁⟩, found, mounted⟩ := Option.bind_eq_some_iff.mp mounted
      have target := namei_resolved found
      dsimp only at mounted
      split at mounted
      · rename_i null
        rw [Option.some.injEq, Prod.mk.injEq] at mounted
        exact absurd mounted.2 (target.failed null)
      · split at mounted
        · obtain ⟨⟨v₂, dev, status₂⟩, found', mounted⟩ := Option.bind_eq_some_iff.mp mounted
          have source := namei_resolved found'
          dsimp only at mounted
          split at mounted
          · rename_i null
            rw [Option.some.injEq, Prod.mk.injEq] at mounted
            exact absurd mounted.2 (source.failed null)
          · cases mounted
            rw [mountAt_mounts]
            exact fresh v₂ (target.mounts.trans source.mounts)
        · cases mounted
          rw [mountAt_mounts]
          exact fresh v₁ target.mounts

/-- An unmount that ends keeps the list of mounts and returns an error. -/
theorem sysUmount_fails {target : CString} {returned : Int}
    (done : sysUmount width calloc fuel v task target = some (v', returned)) :
    returned ≠ 0 ∧ SameMounts v v' := by
  unfold sysUmount at done
  split at done
  · cases done
    exact ⟨by decide, .refl v⟩
  · split at done
    · cases done
      exact ⟨by decide, .refl v⟩
    · obtain ⟨⟨v₁, node₁, status₁⟩, found, done⟩ := Option.bind_eq_some_iff.mp done
      have resolved := namei_resolved found
      dsimp only at done
      split at done
      · rename_i null
        cases done
        exact ⟨resolved.failed null, resolved.mounts⟩
      · rename_i nonnull
        rw [if_pos (resolved.bare nonnull)] at done
        cases done
        exact ⟨by decide, resolved.mounts.trans (iput_mounts v₁ node₁)⟩

end Vfs

/-- Unmounting undoes no mount: after a mount of any file system at any target, `sys_umount` of
the target never returns 0, and the new mount stays the first one. -/
theorem umount_never_undoes {width fuel fuel' : Nat} {blocks : MountBlocks}
    {calloc : Allocator Vnode} {filesystems : List FilesystemType} {v mounted unmounted : Vfs}
    {task : Task} {source target filesystemtype : CString} {data : Nat} {returned : Int}
    (mount : v.sysMount width blocks fuel filesystems task source target filesystemtype data =
      some (mounted, 0))
    (umount : mounted.sysUmount width calloc fuel' task target = some (unmounted, returned)) :
    returned ≠ 0 ∧ unmounted.vfsMounts ∉ v.vfsmount := by
  obtain ⟨failed, mounts⟩ := Vfs.sysUmount_fails umount
  refine ⟨failed, ?_⟩
  rw [mounts.2]
  exact Vfs.sysMount_mounts mount

/-! At boot, a file system is mounted on the root directory. -/

namespace MountedRoot

/-- Blocks above all that are in use. -/
def blocks : MountBlocks where
  vnode := Allocator.above Vnode
  vfsmount := Allocator.above Vfsmount
  superBlock := Allocator.above SuperBlock

/-- The state after `setup_vfs`. -/
def boot : Vfs := Vfs.setupVfs ucharWidth blocks

/-- The task of the superuser, in the root directory. -/
def superuser : Task := { root := boot.rootVnode, pwd := boot.rootVnode }

/-- A file system of one directory. -/
def directoryType : FilesystemType := { Vfs.rootfsType with name := [100] }

/-- `mount("", "/", "d", 0, data)`. -/
def mount : Option (Vfs × Int) :=
  boot.sysMount ucharWidth blocks 3 [directoryType, Vfs.rootfsType] superuser [] [slash] [100] 0

/-- The state it leaves. -/
def mounted : Vfs := (mount.map Prod.fst).getD boot

/-- It returns 0. -/
theorem mount_returns : mount = some (mounted, 0) := rfl

/-- `umount("/")`. -/
def umount : Option (Vfs × Int) := mounted.sysUmount ucharWidth blocks.vnode 3 superuser [slash]

/-- It returns. -/
theorem umount_returns : ∃ unmounted, umount = some (unmounted, -EINVAL) := by
  have returned : umount.map Prod.snd = some (-EINVAL) := by decide
  obtain ⟨⟨unmounted, _⟩, done, rfl⟩ := Option.map_eq_some_iff.mp returned
  exact ⟨unmounted, done⟩

end MountedRoot

open MountedRoot in
/-- The mount on the root directory is not undone. -/
theorem umount_never_undoes_root : ∃ unmounted, umount = some (unmounted, -EINVAL) ∧
    unmounted.vfsMounts ∉ boot.vfsmount := by
  obtain ⟨unmounted, done⟩ := umount_returns
  exact ⟨unmounted, done, (umount_never_undoes mount_returns done).2⟩

open MountedRoot in
/-- Not every mount can be undone: `sys_umount` of the root directory does not return 0 after a
mount on it. -/
theorem umount_never_undoes_boot :
    ¬ ∀ (v mounted : Vfs) (task : Task) (filesystems : List FilesystemType)
      (source target filesystemtype : CString) (data fuel : Nat),
      v.sysMount ucharWidth blocks fuel filesystems task source target filesystemtype data =
        some (mounted, 0) →
      ∃ fuel' unmounted, mounted.sysUmount ucharWidth blocks.vnode fuel' task target =
        some (unmounted, 0) := by
  intro undone
  obtain ⟨fuel, unmounted, done⟩ := undone boot mounted superuser [directoryType, Vfs.rootfsType] []
    [slash] [100] 0 3 mount_returns
  exact (Vfs.sysUmount_fails done).1 rfl

end Nupkux
