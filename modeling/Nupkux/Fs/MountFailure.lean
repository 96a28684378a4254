import Nupkux.Fs.NameiBalance

/-!
# Mounts that cannot be made

`sys_mount` gives up when the caller is not root, the type is unknown or a path cannot be
resolved, and then leaves what path resolution leaves. The test for a file system that refuses
looks at `sb`, which it has just allocated, and not at what `read_super` returned: the mount is
made, of a super block without a root. Counts are exact integers here.
-/

namespace Nupkux

namespace Vfs

variable {v v' : Vfs} {width fuel node steps : Nat} {extra : List Nat} {calloc : Allocator Vnode}
  {task : Task} {filename : CString} {status returned : Int} {result : Vfs × Nat × Int}
  {blocks : MountBlocks} {filesystems : List FilesystemType}
  {source target filesystemtype : CString} {data : Nat}

/-- The mount cannot be made: the caller is not root, the type is unknown, a path cannot be
resolved, or the file system refuses. -/
inductive CannotMount (v : Vfs) (calloc : Allocator Vnode) (fuel : Nat)
    (filesystems : List FilesystemType) (task : Task) (source target filesystemtype : CString)
    (data : Nat) : Prop
  /-- Not root. -/
  | notRoot : task.isRoot = false → CannotMount v calloc fuel filesystems task source target
      filesystemtype data
  /-- Unknown type. -/
  | unknown : vfsGetFs filesystems filesystemtype = none → CannotMount v calloc fuel filesystems
      task source target filesystemtype data
  /-- Unresolvable target. -/
  | target {v₁ : Vfs} {status : Int} :
      v.namei exactWidth calloc fuel task target 0 = some (v₁, 0, status) →
      CannotMount v calloc fuel filesystems task source target filesystemtype data
  /-- Unresolvable source. -/
  | source {v₁ v₂ : Vfs} {mountpoint : Nat} {status status' : Int} {type : FilesystemType} :
      vfsGetFs filesystems filesystemtype = some type → type.flags &&& mntFlagReqdev ≠ 0 →
      v.namei exactWidth calloc fuel task target 0 = some (v₁, mountpoint, status) →
      v₁.namei exactWidth calloc fuel task source status = some (v₂, 0, status') →
      CannotMount v calloc fuel filesystems task source target filesystemtype data
  /-- `read_super` returns 0. -/
  | refused {type : FilesystemType} : vfsGetFs filesystems filesystemtype = some type →
      type.readSuper data = none →
      CannotMount v calloc fuel filesystems task source target filesystemtype data

/-- A call fails and changes nothing: it returns an error, and the mounts, the references and
the super blocks are as before. -/
structure FailsCleanly (v v' : Vfs) (returned : Int) : Prop where
  negative : returned < 0
  mounts : SameMounts v v'
  mounted : ∀ node, v'.mountOf node = v.mountOf node
  covered : ∀ node, v'.coverOf node = v.coverOf node
  references : ∀ node, v'.references node = v.references node
  superBlocks : ∀ sb, (v'.superBlock.lookup sb).isSome = (v.superBlock.lookup sb).isSome

/-- The ways in which `sys_mount` fails and has changed nothing. -/
inductive CleanFailure (v : Vfs) (filesystems : List FilesystemType) (task : Task)
    (source target filesystemtype : CString) : Prop
  /-- Not root. -/
  | notRoot : task.isRoot = false →
      CleanFailure v filesystems task source target filesystemtype
  /-- Unknown type. -/
  | unknown : vfsGetFs filesystems filesystemtype = none →
      CleanFailure v filesystems task source target filesystemtype
  /-- The target leads nowhere from its first name on. -/
  | target : v.LeadsNowhere task target →
      CleanFailure v filesystems task source target filesystemtype
  /-- The source leads nowhere from its first name on, and no directory is left for the target. -/
  | source {type : FilesystemType} : vfsGetFs filesystems filesystemtype = some type →
      type.flags &&& mntFlagReqdev ≠ 0 → v.Direct task target → v.LeadsNowhere task source →
      CleanFailure v filesystems task source target filesystemtype

/-! ## Errors -/

/-- `resolve_mount` sets no positive status. -/
theorem resolveMount_nonpos (before : status ≤ 0)
    (done : v.resolveMount width fuel node status steps = some result) : result.2.2 ≤ 0 := by
  induction fuel generalizing v node with
  | zero => cases done
  | succ fuel ih =>
    rw [resolveMount] at done
    split at done
    · split at done
      · cases done
        exact (by decide : -EMLINK ≤ 0)
      · exact ih done
    · cases done
      exact before

/-- The end of `getdentry` sets no positive status. -/
theorem lookupEntry_nonpos
    (done : v.lookupEntry width calloc fuel task node filename = some result) :
    result.2.2 ≤ 0 := by
  unfold lookupEntry at done
  dsimp only at done
  split at done
  · cases done
    exact (by decide : -ENOTDIR ≤ 0)
  · split at done
    · cases done
      exact (by decide : -EACCES ≤ 0)
    · split at done
      · cases done
        exact (by decide : -EGENERIC ≤ 0)
      · split at done
        · cases done
          exact (by decide : -ENOENT ≤ 0)
        · exact resolveMount_nonpos (Int.le_refl 0) done

/-- `getdentry` sets no positive status. -/
theorem getdentry_nonpos {frommount : Bool} (before : status ≤ 0)
    (done : v.getdentry width calloc task filename fuel node status frommount = some result) :
    result.2.2 ≤ 0 := by
  induction fuel generalizing v node status frommount with
  | zero => cases done
  | succ fuel ih =>
    rw [getdentry] at done
    obtain ⟨⟨v₁, node₁, status₁⟩, start, done⟩ := Option.bind_eq_some_iff.mp done
    have first : status₁ ≤ 0 := by
      split at start
      · cases start
        exact before
      · exact resolveMount_nonpos before start
    dsimp only at done
    split at done
    · cases done
      exact first
    · split at done
      · cases done
        exact first
      · split at done
        · split at done
          · exact ih first done
          · obtain ⟨⟨v₂, root, status₂⟩, top, done⟩ := Option.bind_eq_some_iff.mp done
            have second := resolveMount_nonpos first top
            dsimp only at done
            split at done
            · cases done
              exact second
            · exact lookupEntry_nonpos done
        · exact lookupEntry_nonpos done

/-- The loop of `igetdir` sets no positive status. -/
theorem walk_nonpos {path : CString} {found : Vfs × Nat × CString × Int} (before : status ≤ 0)
    (done : v.walk width calloc fuel task node status filename path = some found) :
    found.2.2.2 ≤ 0 := by
  induction path generalizing v node status filename with
  | nil =>
    cases done
    exact before
  | cons c rest ih =>
    rw [walk] at done
    split at done
    · obtain ⟨⟨v₁, node₁, status₁⟩, entered, done⟩ := Option.bind_eq_some_iff.mp done
      have next := getdentry_nonpos before entered
      dsimp only at done
      split at done
      · cases done
        exact next
      · exact ih next done
    · exact ih before done

/-- `igetdir` sets no positive status. -/
theorem igetdir_nonpos {found : Vfs × Nat × CString × Int} (before : status ≤ 0)
    (done : v.igetdir width calloc fuel task node filename status = some found) :
    found.2.2.2 ≤ 0 := by
  unfold igetdir at done
  split at done
  · obtain ⟨⟨v₁, top, status₁⟩, resolved, done⟩ := Option.bind_eq_some_iff.mp done
    cases done
    exact resolveMount_nonpos before resolved
  · exact walk_nonpos before done

/-- `namei` sets no positive status. -/
theorem namei_nonpos (before : status ≤ 0)
    (done : v.namei width calloc fuel task filename status = some result) : result.2.2 ≤ 0 := by
  unfold namei at done
  split at done
  · cases done
    exact (by decide : -ENOENT ≤ 0)
  · split at done
    · cases done
    · obtain ⟨⟨v₁, node₁, basename, status₁⟩, walked, done⟩ := Option.bind_eq_some_iff.mp done
      have first := igetdir_nonpos before walked
      dsimp only at done
      split at done
      · cases done
        exact first
      · split at done
        · cases done
          exact Int.le_refl 0
        · exact getdentry_nonpos (Int.le_refl 0) done

/-- A path that cannot be resolved has a negative status. -/
theorem namei_negative (before : status ≤ 0)
    (done : v.namei width calloc fuel task filename status = some (v', 0, returned)) :
    returned < 0 := by
  have nonpos := namei_nonpos before done
  have nonzero := (namei_resolved done).failed rfl
  dsimp only at nonpos nonzero
  omega

/-! ## What is left -/

namespace Took

/-- A pointer is as before when the last of the references is given back, also on a vnode that is
freed by that. -/
theorem released_pointer (took : Took v v' (node :: extra)) (well : v.WellMounted)
    (get : Vnode → Nat) (content : ∀ n : Vnode, get n.content = get n)
    (counter : ∀ (n : Vnode) count, get { n with count } = get n)
    (kept : ∀ other, ((v'.vnode.lookup other).map get).getD 0 =
      ((v.vnode.lookup other).map get).getD 0) (other : Nat) :
    (((v'.iput node).vnode.lookup other).map get).getD 0 =
      ((v.vnode.lookup other).map get).getD 0 := by
  obtain ⟨n', there'⟩ := took.taken node List.mem_cons_self
  have references := took.references node
  rw [List.count_cons_self, Vfs.references, there', Option.map_some, Option.getD_some] at references
  have seen (o : Option Vnode) : (o.map get).getD 0 = ((o.map Vnode.content).map get).getD 0 := by
    cases o with
    | none => rfl
    | some n => exact (content n).symm
  rw [seen, iput_lookup took.cached there' (by omega)]
  by_cases here : other = node
  · rw [if_pos here, here, ← kept, there']
    split
    · -- the vnode is freed, so it was not there before
      rename_i last
      have unused : v.references node = 0 := by omega
      have before : v.vnode.lookup node = none := by
        cases found : v.vnode.lookup node with
        | none => rfl
        | some n =>
          have positive := well.counted node n found
          rw [Vfs.references, found, Option.map_some, Option.getD_some] at unused
          omega
      have same := kept node
      rw [there', before] at same
      exact same.symm
    · rw [Option.map_some, Option.map_some, counter, content]
  · rw [if_neg here, ← seen, kept]

/-- What is left when one of the references is given back. -/
theorem released (took : Took v v' (node :: extra)) (well : v.WellMounted) :
    (∀ other, (v'.iput node).mountOf other = v.mountOf other) ∧
      (∀ other, (v'.iput node).coverOf other = v.coverOf other) ∧
      ∀ other, (v'.iput node).references other = v.references other + extra.count other := by
  refine ⟨took.released_pointer well (·.mount) (fun _ => rfl) (fun _ _ => rfl) took.mountOf,
    took.released_pointer well (·.cover) (fun _ => rfl) (fun _ _ => rfl) took.coverOf,
    fun other => ?_⟩
  have held : 0 < v'.references node := by
    rw [took.references, List.count_cons_self]
    omega
  have gives := iput_references took.cached held other
  rw [took.references] at gives
  by_cases here : other = node
  · rw [here, List.count_cons_self, if_pos rfl] at gives
    rw [here]
    omega
  · rw [if_neg here, List.count_cons_of_ne (Ne.symm here)] at gives
    exact gives

end Took

/-- The super blocks are there as before. -/
theorem SameSetup.superBlocks (same : SameSetup v v') (sb : Nat) :
    (v'.superBlock.lookup sb).isSome = (v.superBlock.lookup sb).isSome := by
  have here := congrArg Option.isSome (same.operations sb)
  rwa [Option.isSome_map, Option.isSome_map] at here

/-- Paths start at the same vnodes. -/
theorem SameSetup.startOf (same : SameSetup v v') (task : Task) (c : UInt8) :
    v'.startOf task c = v.startOf task c := by
  rw [Vfs.startOf, Vfs.startOf, same.rootVnode]

/-- A path leads nowhere as it did. -/
theorem Took.leadsNowhere (took : Took v v' extra) (well : v.WellMounted)
    (start : ∀ c, v.Live (v.startOf task c)) :
    v'.LeadsNowhere task filename ↔ v.LeadsNowhere task filename := by
  unfold LeadsNowhere
  rw [took.toSameSetup.startOf, took.leads well (start _)]

/-- Where no reference has been taken, an error is a clean failure. -/
theorem Took.failsCleanly (took : Took v v' []) (mounts : SameMounts v v')
    (negative : returned < 0) : FailsCleanly v v' returned :=
  ⟨negative, mounts, took.mountOf, took.coverOf,
    fun node => by rw [took.references, List.count_nil, Nat.add_zero], took.toSameSetup.superBlocks⟩

/-- A clean failure has taken no reference. -/
theorem FailsCleanly.eq_nil (clean : FailsCleanly v v' returned)
    (references : ∀ node, v'.references node = v.references node + extra.count node) :
    extra = [] := by
  refine List.eq_nil_iff_forall_not_mem.mpr fun node member => ?_
  have same := (references node).symm.trans (clean.references node)
  have positive := List.count_pos_iff.mpr member
  omega

/-- The clean failures of a mount by root of a known type. -/
theorem cleanFailure_iff {type : FilesystemType} (is_root : task.isRoot ≠ false)
    (known : vfsGetFs filesystems filesystemtype = some type) :
    v.CleanFailure filesystems task source target filesystemtype ↔
      v.LeadsNowhere task target ∨ type.flags &&& mntFlagReqdev ≠ 0 ∧ v.Direct task target ∧
        v.LeadsNowhere task source := by
  constructor
  · rintro (not_root | unknown | leads | ⟨known', device, direct, leads⟩)
    · exact absurd not_root is_root
    · exact absurd (known.symm.trans unknown) (Option.some_ne_none type)
    · exact .inl leads
    · obtain rfl := Option.some.inj (known.symm.trans known')
      exact .inr ⟨device, direct, leads⟩
  · rintro (leads | ⟨device, direct, leads⟩)
    · exact .target leads
    · exact .source known device direct leads

/-- A failure to resolve the source: what is left is what both paths have left. -/
theorem source_failsCleanly_iff {v₁ v₂ : Vfs} {mountpoint : Nat} {left₁ left₂ : List Nat}
    (well : v.WellMounted) (first : Took v v₁ (mountpoint :: left₁)) (second : Took v₁ v₂ left₂)
    (mounts : SameMounts v v₂) (negative : returned < 0) :
    FailsCleanly v (v₂.iput mountpoint) returned ↔ left₁ = [] ∧ left₂ = [] := by
  have both := (first.trans second).perm (List.perm_middle)
  obtain ⟨mounted, covered, references⟩ := both.released well
  constructor
  · intro clean
    have none := clean.eq_nil references
    rw [List.append_eq_nil_iff] at none
    exact ⟨none.2, none.1⟩
  · rintro ⟨rfl, rfl⟩
    refine ⟨negative, mounts.trans (iput_mounts v₂ mountpoint), mounted, covered, fun node => ?_,
      (both.toSameSetup.trans (iput_setup v₂ mountpoint)).superBlocks⟩
    rw [references, List.append_nil, List.count_nil, Nat.add_zero]

end Vfs

/-- A mount that fails changes nothing exactly when the caller is not root, the type is unknown,
or a path leads nowhere from its first name on and path resolution has left no directory behind.
A file system that refuses does not make it fail. -/
theorem sysMount_failsCleanly_iff {v v' : Vfs} {blocks : MountBlocks} {fuel : Nat}
    {filesystems : List FilesystemType} {task : Task} {source target filesystemtype : CString}
    {data : Nat} {returned : Int} (well : v.WellMounted) (root : v.Live task.root)
    (start : ∀ c, v.Live (v.startOf task c))
    (done : v.sysMount exactWidth blocks fuel filesystems task source target filesystemtype data =
      some (v', returned)) :
    v.FailsCleanly v' returned ↔
      v.CleanFailure filesystems task source target filesystemtype := by
  unfold Vfs.sysMount at done
  by_cases not_root : task.isRoot = false
  · rw [if_pos (by rw [not_root]; rfl)] at done
    cases done
    exact iff_of_true ((Vfs.Took.refl well.cached).failsCleanly (.refl v) (by decide))
      (.notRoot not_root)
  · rw [if_neg (by simpa using not_root)] at done
    cases known : Vfs.vfsGetFs filesystems filesystemtype with
    | none =>
      rw [known] at done
      cases done
      exact iff_of_true ((Vfs.Took.refl well.cached).failsCleanly (.refl v) (by decide))
        (.unknown known)
    | some type =>
      rw [known] at done
      rw [Vfs.cleanFailure_iff not_root known]
      obtain ⟨⟨v₁, mountpoint, status⟩, found, done⟩ := Option.bind_eq_some_iff.mp done
      obtain ⟨left₁, leaves, direct, nowhere⟩ := Vfs.namei_leaves well root start found
      have mounts := (Vfs.namei_resolved found).mounts
      dsimp only at done nowhere
      by_cases null : mountpoint = 0
      · rw [if_pos null] at done
        cases done
        rw [null] at leaves found
        have took : v.Took v' left₁ := leaves
        constructor
        · intro clean
          exact .inl (nowhere.mp ⟨null, clean.eq_nil took.references⟩)
        · intro ways
          have none : left₁ = [] := by
            rcases ways with leads | ⟨_, direct', _⟩
            · exact (nowhere.mpr leads).2
            · exact direct.mpr direct'
          rw [none] at took
          exact took.failsCleanly mounts (Vfs.namei_negative (Int.le_refl 0) found)
      · rw [if_neg null] at done
        have took : v.Took v₁ (mountpoint :: left₁) := by
          rw [Vfs.Leaves, if_neg null] at leaves
          exact leaves
        have nonneg {w : Vfs} (returns : some (w, (0 : Int)) = some (v', returned)) :
            ¬v.FailsCleanly v' returned := by
          cases returns
          exact fun clean => absurd clean.negative (Int.lt_irrefl 0)
        rw [or_iff_right fun leads => null (nowhere.mpr leads).1]
        by_cases device : type.flags &&& mntFlagReqdev ≠ 0
        · rw [if_pos device] at done
          rw [and_iff_right device]
          obtain ⟨⟨v₂, dev, status₂⟩, found₂, done⟩ := Option.bind_eq_some_iff.mp done
          have start₁ (c : UInt8) : v₁.Live (v₁.startOf task c) := by
            rw [took.toSameSetup.startOf]
            exact took.live (start c)
          obtain ⟨left₂, leaves₂, _, nowhere₂⟩ :=
            Vfs.namei_leaves (took.wellMounted well) (took.live root) start₁ found₂
          rw [took.leadsNowhere well start] at nowhere₂
          have mounts₂ := mounts.trans (Vfs.namei_resolved found₂).mounts
          dsimp only at done nowhere₂
          rw [← direct, ← nowhere₂]
          by_cases null₂ : dev = 0
          · rw [if_pos null₂] at done
            cases done
            rw [null₂] at leaves₂ found₂
            have second : v₁.Took v₂ left₂ := leaves₂
            have negative := Vfs.namei_negative (Vfs.namei_nonpos (Int.le_refl 0) found) found₂
            rw [Vfs.source_failsCleanly_iff well took second mounts₂ negative, and_iff_right null₂]
          · rw [if_neg null₂] at done
            exact iff_of_false (nonneg done) fun both => null₂ both.2.1
        · rw [if_neg device] at done
          exact iff_of_false (nonneg done) fun both => device both.1

/-! Mounts on the root directory. -/

namespace MountTower

/-- Blocks above all that are in use. -/
def mountBlocks : MountBlocks where
  vnode := Allocator.above Vnode
  vfsmount := Allocator.above Vfsmount
  superBlock := Allocator.above SuperBlock

/-- A file system that refuses all data, as devfs does when it is already mounted. -/
def refusing : FilesystemType where
  name := [100, 101, 118, 102, 115]
  flags := 0
  readSuper _ := none

/-- `mount("", target, "devfs", 0, 0)`. -/
def mountRefusing (target : CString) : Option (Vfs × Int) :=
  (tower 1).sysMount exactWidth mountBlocks 2 [refusing] superuser [] target refusing.name 0

/-- A file system on a device. -/
def onDevice : FilesystemType where
  name := [101, 120, 116, 50]
  flags := mntFlagReqdev
  readSuper _ := none

/-- `"/x"`. -/
def missing : CString := [47, 120]

/-- The root directory has no entry of this name, not even a function to look it up. -/
theorem missing_leadsNowhere : (tower 1).LeadsNowhere superuser missing := by
  refine .inr ⟨by decide, ?_⟩
  rintro ⟨steps, top, _, leads⟩
  have other : nameiMatch (Vfs.nameAt (Vfs.relativePath missing)) dotdot = false := by decide
  cases leads with
  | dot same => exact absurd same (by decide)
  | cover up => exact absurd up (by rw [other]; exact Bool.false_ne_true)
  | root up => exact absurd up (by rw [other]; exact Bool.false_ne_true)
  | entry _ found =>
    obtain ⟨n, lookup, _, there, _, _, looks, _⟩ := found
    obtain ⟨_, rfl⟩ := tower_live there
    cases looks

end MountTower

open MountTower in
/-- A mount of a device that cannot be found fails and changes nothing, although the target is
found, which is given back. -/
theorem sysMount_failsCleanly_device : ∃ v' returned,
    (tower 1).sysMount exactWidth mountBlocks 2 [refusing, onDevice] superuser missing [slash]
      onDevice.name 0 = some (v', returned) ∧ (tower 1).FailsCleanly v' returned := by
  obtain ⟨⟨v', returned⟩, done⟩ : ∃ result, (tower 1).sysMount exactWidth mountBlocks 2
      [refusing, onDevice] superuser missing [slash] onDevice.name 0 = some result :=
    Option.isSome_iff_exists.mp (by decide)
  have known : Vfs.vfsGetFs [refusing, onDevice] onDevice.name = some onDevice := rfl
  exact ⟨v', returned, done, (sysMount_failsCleanly_iff (tower_wellMounted 1) tower_root tower_start
    done).mpr (.source known (by decide) (.inl (by decide)) missing_leadsNowhere)⟩

open MountTower in
/-- Not every mount that cannot be made fails: `sys_mount` returns 0 when the file system
refuses. -/
theorem sysMount_failsCleanly_not :
    ¬ ∀ (v v' : Vfs) (blocks : MountBlocks) (fuel : Nat) (filesystems : List FilesystemType)
      (task : Task) (source target filesystemtype : CString) (data : Nat) (returned : Int),
      v.WellMounted → v.Live task.root → (∀ c, v.Live (v.startOf task c)) →
      v.CannotMount blocks.vnode fuel filesystems task source target filesystemtype data →
      v.sysMount exactWidth blocks fuel filesystems task source target filesystemtype data =
        some (v', returned) →
      v.FailsCleanly v' returned := by
  intro clean
  have returns : (mountRefusing [slash]).map Prod.snd = some 0 := by decide
  obtain ⟨⟨v', returned⟩, done, zero⟩ := Option.map_eq_some_iff.mp returns
  have fails := clean (tower 1) v' mountBlocks 2 [refusing] superuser [] [slash] refusing.name 0
    returned (tower_wellMounted 1) tower_root tower_start (.refused rfl rfl) done
  have negative := fails.negative
  dsimp only at zero
  omega

end Nupkux
