import Nupkux.Fs.Confinement
import Nupkux.Kernel.VnodeBalance

/-!
# Tasks that stay in their roots

`namei` is the path resolution of the calls on descriptors and directories here. A task that is
not the superuser cannot change its root, and whatever it and the other tasks do, its working
directory and its open files stay below that root: a vnode that a task holds is not freed while
others close theirs, so it keeps its place. References that `sys_chdir` or `namei` leave behind
only add to those that are held.
-/

namespace Nupkux

/-- `namei` with fuel for every path. -/
def Vfs.resolver (calloc : Allocator Vnode) (fuel : Nat) : PathResolver := fun v task filename =>
  (v.namei exactWidth calloc fuel task filename 0).getD (v, 0, 0)

namespace Vfs

variable {v v' v'' : Vfs} {base : Vfs} {h : Hierarchy base.inode} {node : Nat}
  {extra extra' : List Nat} {start place : Place}

/-- There are vnodes with the references of a function. -/
theorem exists_references (counts : Nat → Nat) (nodes : List Nat) :
    ∃ boot : Vfs, ∀ node, boot.references node = if node ∈ nodes then counts node else 0 := by
  induction nodes with
  | nil => exact ⟨{}, fun _ => rfl⟩
  | cons first rest ih =>
    obtain ⟨boot, same⟩ := ih
    refine ⟨{ vnode := boot.vnode.insert first { ino := 0, sb := 0, count := counts first } },
      fun node => ?_⟩
    have before : ((boot.vnode.lookup node).map (·.count)).getD 0 = _ := same node
    rw [references, Store.lookup_insert_eq]
    by_cases here : node = first
    · rw [if_pos here, if_pos (here ▸ List.mem_cons_self), here]
      rfl
    · rw [if_neg here, before]
      exact if_congr (by simp [here]) rfl rfl

/-- Vnodes keep their places while they are there. -/
def Steady (v v' : Vfs) : Prop := ∀ node place, v.At node place → v'.Live node → v'.At node place

/-- When every vnode was there before, the vnodes keep their places. -/
theorem Steady.of_earlier (earlier : ∀ node place, v'.At node place → v.At node place) :
    Steady v v' := by
  intro node place here ⟨n, live⟩
  rw [here.unique (earlier node _ ⟨n, live, rfl⟩)]
  exact ⟨n, live, rfl⟩

/-- The mounts on a vnode that is still there end at the same place. -/
theorem Steady.top (steady : Steady v v') (tree : base.MountTree h) (took' : Took base v' extra')
    (live : v'.Live node) {steps top : Nat} (follow : Follow base.mountOf steps node top)
    (here : v.At top place) : v'.At top place := by
  refine steady top place here ?_
  cases follow with
  | last _ => exact live
  | step mounted follow =>
    obtain ⟨n, there⟩ := tree.live_mount mounted
    exact took'.live (tree.live_top there follow)

/-- What is inside stays inside, when the vnode is still there. -/
theorem Inside.carried (tree : base.MountTree h) (took : Took base v extra)
    (took' : Took base v' extra') (steady : Steady v v') (live : v'.Live node)
    (inside : v.Inside start node) : v'.Inside start node := by
  obtain ⟨steps, top, place, follow, here, below⟩ := inside
  have mounts : v.mountOf = base.mountOf := funext took.mountOf
  have mounts' : v'.mountOf = base.mountOf := funext took'.mountOf
  rw [mounts] at follow
  refine ⟨steps, top, place, mounts'.symm ▸ follow, steady.top tree took' live follow here, ?_⟩
  exact (took'.below_iff tree).mpr ((took.below_iff tree).mp below)

end Vfs

namespace Kernel

variable {k k' k'' : Kernel} {base : Vfs} {h : Hierarchy base.inode} {start : Vfs.Place}

/-! ## Accounts -/

/-- References have been taken since the beginning, and what tasks and files hold is among them:
besides there are those of a balanced beginning, which has at least as many. -/
structure Accounted (base : Vfs) (k : Kernel) : Prop where
  took : ∃ extra, Vfs.Took base k.vfs extra
  held : ∃ boot, Balanced boot k ∧ ∀ node, base.references node ≤ boot.references node

/-- Fewer tasks alive, with the directories they had, hold less. -/
theorem tasksWith_le (directory : Task → Nat) (alive : ∀ i, k'.Alive i → k.Alive i)
    (same : ∀ i, directory (k'.tasks i) = directory (k.tasks i)) (node : Nat) :
    k'.tasksWith directory node ≤ k.tasksWith directory node := by
  refine Finset.card_le_card fun i member => ?_
  obtain ⟨inside, lives, here⟩ := Finset.mem_filter.mp member
  exact Finset.mem_filter.mpr ⟨inside, alive i lives, (same i).symm.trans here⟩

namespace Accounted

/-- The caches are in order. -/
theorem cached (accounted : k.Accounted base) : k.vfs.Cached := by
  obtain ⟨_, took⟩ := accounted.took
  exact took.cached

/-- A state in which so much is held is accounted. -/
theorem of_le {extra : List Nat} (took : Vfs.Took base k.vfs extra)
    (enough : ∀ node, node ≠ 0 → base.references node + k.filesOn node +
      (k.tasksWith (·.pwd) node + k.tasksWith (·.root) node) ≤ k.vfs.references node) :
    k.Accounted base := by
  obtain ⟨boot, counts⟩ := Vfs.exists_references (fun node => k.vfs.references node -
    (k.filesOn node + (k.tasksWith (·.pwd) node + k.tasksWith (·.root) node)))
    k.vfs.vnode.keys
  have absent (node : Nat) (gone : node ∉ k.vfs.vnode.keys) : k.vfs.references node = 0 := by
    have none : k.vfs.vnode.lookup node = none := by
      rw [AList.lookup_eq_none]
      exact gone
    rw [Vfs.references, none]
    rfl
  have null : base.references 0 = 0 := by
    cases found : base.vnode.lookup 0 with
    | none =>
      rw [Vfs.references, found]
      rfl
    | some n =>
      obtain ⟨n', there, _⟩ := took.keeps found
      exact absurd rfl (took.cached.ne_zero there)
  refine ⟨⟨extra, took⟩, boot, fun node nonnull => ?_, fun node => ?_⟩
  · have some_room := enough node nonnull
    rw [counts]
    split
    · omega
    · rename_i gone
      rw [absent node gone] at some_room ⊢
      omega
  · rw [counts]
    by_cases nonnull : node = 0
    · rw [nonnull, null]
      exact Nat.zero_le _
    · have some_room := enough node nonnull
      split
      · omega
      · rename_i gone
        rw [absent node gone] at some_room
        omega

/-- What is held in an accounted state. -/
theorem le (accounted : k.Accounted base) {node : Nat} (nonnull : node ≠ 0) :
    base.references node + k.filesOn node +
      (k.tasksWith (·.pwd) node + k.tasksWith (·.root) node) ≤ k.vfs.references node := by
  obtain ⟨boot, balanced, more⟩ := accounted.held
  rw [balanced node nonnull]
  have := more node
  omega

/-- States with the same directories, files and vnodes are accounted alike. -/
theorem same (accounted : k.Accounted base) (same : SameDirectories k k')
    (files : ∀ node, k'.filesOn node = k.filesOn node) (vfs : k'.vfs = k.vfs) :
    k'.Accounted base := by
  obtain ⟨⟨extra, took⟩, boot, balanced, more⟩ := accounted
  exact ⟨⟨extra, vfs.symm ▸ took⟩, boot,
    (same.balanced files fun node => by rw [vfs]).mpr balanced, more⟩

/-- The vnode of an open file has a reference that was taken for it. -/
theorem taken_of_file (accounted : k.Accounted base) {extra : List Nat}
    (took : Vfs.Took base k.vfs extra) {f : Nat} {file : File}
    (live : k.file.lookup f = some file) (nonnull : file.node ≠ 0) : file.node ∈ extra := by
  have counted : 0 < k.filesOn file.node := Store.count_pos live (by simp)
  have enough := accounted.le nonnull
  rw [took.references] at enough
  exact List.count_pos_iff.mp (by omega)

/-- Giving back a reference to a file. -/
theorem putFile (accounted : k.Accounted base) (well : base.WellMounted) {f : Nat} {file : File}
    (live : k.file.lookup f = some file) :
    (k.putFile f).Accounted base ∧
      ∀ node place, (k.putFile f).vfs.At node place → k.vfs.At node place := by
  obtain ⟨⟨extra, took⟩, boot, balanced, more⟩ := id accounted
  have kept := (balanced.putFile took.cached live).1
  have vfs : (k.putFile f).vfs = k.vfs ∨ (k.putFile f).vfs = k.vfs.iput file.node := by
    unfold Kernel.putFile
    rw [live]
    dsimp only
    split
    · exact .inl rfl
    · split
      · exact .inr rfl
      · exact .inl rfl
  rcases vfs with same | put
  · refine ⟨⟨⟨extra, same.symm ▸ took⟩, boot, kept, more⟩, ?_⟩
    rw [same]
    exact fun _ _ here => here
  · refine ⟨⟨?_, boot, kept, more⟩, ?_⟩
    · rw [put]
      by_cases null : file.node = 0
      · rw [null, Vfs.iput_of_absent took.cached.null]
        exact ⟨extra, took⟩
      · have member := accounted.taken_of_file took live null
        exact ⟨_, (took.perm (List.perm_cons_erase member)).release well⟩
    · rw [put]
      exact fun _ _ => Vfs.iput_at took.cached

end Accounted

/-! ## Calls that resolve no path -/

/-- A task with the credentials and directories of another one, and no other open files. -/
structure TaskFrom (t t' : Task) : Prop where
  uid : t'.uid = t.uid
  euid : t'.euid = t.euid
  root : t'.root = t.root
  pwd : t'.pwd = t.pwd
  files : ∀ fd < nrOpen, t'.files fd ≠ 0 → ∃ fd' < nrOpen, t.files fd' = t'.files fd

/-- After a call that resolves no path all references are accounted for, vnodes and files are ones
from before, and every task has what one had before. -/
structure Kept (base : Vfs) (k k' : Kernel) : Prop where
  accounted : k'.Accounted base
  earlier : ∀ node place, k'.vfs.At node place → k.vfs.At node place
  nodes : ∀ f file', k'.file.lookup f = some file' →
    ∃ file, k.file.lookup f = some file ∧ file.node = file'.node
  tasks : ∀ i < nrTasks, k'.Alive i → ∃ j < nrTasks, k.Alive j ∧ TaskFrom (k.tasks j) (k'.tasks i)

/-- A task has what it has. -/
theorem TaskFrom.refl (t : Task) : TaskFrom t t :=
  ⟨rfl, rfl, rfl, rfl, fun fd inside _ => ⟨fd, inside, rfl⟩⟩

/-- A task with what one has that has what another has. -/
theorem TaskFrom.trans {t t' t'' : Task} (first : TaskFrom t t') (second : TaskFrom t' t'') :
    TaskFrom t t'' := by
  refine ⟨second.uid.trans first.uid, second.euid.trans first.euid, second.root.trans first.root,
    second.pwd.trans first.pwd, fun fd inside nonnull => ?_⟩
  obtain ⟨fd', inside', same⟩ := second.files fd inside nonnull
  obtain ⟨fd'', inside'', same'⟩ := first.files fd' inside' (same ▸ nonnull)
  exact ⟨fd'', inside'', same'.trans same⟩

namespace Kept

/-- Nothing happened. -/
theorem refl (accounted : k.Accounted base) : Kept base k k :=
  ⟨accounted, fun _ _ here => here, fun _ file live => ⟨file, live, rfl⟩,
    fun i inside alive => ⟨i, inside, alive, .refl _⟩⟩

/-- One call after another. -/
theorem trans (first : Kept base k k') (second : Kept base k' k'') : Kept base k k'' := by
  refine ⟨second.accounted, fun node place here => first.earlier _ _ (second.earlier _ _ here),
    fun f file'' live => ?_, fun i inside alive => ?_⟩
  · obtain ⟨file', live', same⟩ := second.nodes f file'' live
    obtain ⟨file, live'', same'⟩ := first.nodes f file' live'
    exact ⟨file, live'', same'.trans same⟩
  · obtain ⟨j, inside', alive', has⟩ := second.tasks i inside alive
    obtain ⟨l, inside'', alive'', has'⟩ := first.tasks j inside' alive'
    exact ⟨l, inside'', alive'', has'.trans has⟩

/-- Only tasks have changed. -/
theorem of_tasks (accounted : k'.Accounted base) (vfs : k'.vfs = k.vfs) (file : k'.file = k.file)
    (tasks : ∀ i < nrTasks, k'.Alive i →
      ∃ j < nrTasks, k.Alive j ∧ TaskFrom (k.tasks j) (k'.tasks i)) : Kept base k k' := by
  refine ⟨accounted, ?_, ?_, tasks⟩
  · rw [vfs]
    exact fun _ _ here => here
  · rw [file]
    exact fun _ file live => ⟨file, live, rfl⟩

/-- Only tasks have changed, in what they are not asked about. -/
theorem of_holdings (accounted : k.Accounted base) (same : SameHoldings k k')
    (alive : ∀ i, k'.Alive i ↔ k.Alive i)
    (uid : ∀ i, (k'.tasks i).uid = (k.tasks i).uid)
    (euid : ∀ i, (k'.tasks i).euid = (k.tasks i).euid) : Kept base k k' := by
  refine of_tasks (accounted.same ⟨alive, same.pwd, same.root⟩
    (fun node => by rw [filesOn, filesOn, same.file]) same.vfs) same.vfs same.file fun i inside lives =>
      ⟨i, inside, (alive i).mp lives, uid i, euid i, same.root i, same.pwd i, fun fd inside _ => ?_⟩
  exact ⟨fd, inside, by rw [same.files]⟩

/-- A descriptor of the current task is set to null or to a file that the task has open. -/
theorem setFile (accounted : k.Accounted base) {fd f : Nat}
    (owns : f ≠ 0 → ∃ fd' < nrOpen, k.current.files fd' = f) : Kept base k (k.setFile fd f) := by
  have same := setFile_directories k fd f
  refine of_tasks (accounted.same same (fun _ => rfl) rfl) rfl rfl fun i inside alive =>
    ⟨i, inside, (same.alive i).mp alive, ?_, ?_, same.root i, same.pwd i, fun x inside nonnull => ?_⟩
  · rw [Kernel.setFile, setTask_tasks]
    split
    · rename_i here
      rw [here]
    · rfl
  · rw [Kernel.setFile, setTask_tasks]
    split
    · rename_i here
      rw [here]
    · rfl
  · rw [setFile_files] at nonnull ⊢
    split at nonnull
    · rename_i here
      rw [if_pos here, here.1]
      exact owns nonnull
    · rename_i here
      rw [if_neg here]
      exact ⟨x, inside, rfl⟩

/-- Giving back a reference to a file. -/
theorem putFile (accounted : k.Accounted base) (well : base.WellMounted) {f : Nat} {file : File}
    (live : k.file.lookup f = some file) : Kept base k (k.putFile f) := by
  obtain ⟨accounted', earlier⟩ := accounted.putFile well live
  have tasks := (putFile_frame k f).1
  have same := SameDirectories.of_tasks tasks
  refine ⟨accounted', earlier, fun g file' live' => ?_, fun i inside alive =>
    ⟨i, inside, (same.alive i).mp alive, by rw [tasks]; exact .refl _⟩⟩
  unfold Kernel.putFile at live'
  rw [live] at live'
  dsimp only at live'
  split at live'
  · exact ⟨file', live', rfl⟩
  · split at live'
    · have left : (AList.erase f k.file).lookup g = some file' := live'
      rw [Store.lookup_erase_eq] at left
      split at left
      · cases left
      · exact ⟨file', left, rfl⟩
    · rw [Store.lookup_insert_eq] at live'
      split at live'
      · rename_i here
        cases live'
        exact ⟨file, here ▸ live, rfl⟩
      · exact ⟨file', live', rfl⟩

/-- `sys_close`. -/
theorem sysClose (accounted : k.Accounted base) (well : base.WellMounted) (counted : k.Counted)
    (inside : k.currentTask < nrTasks) (inUse : k.current.InUse) (fd : Int) :
    Kept base k (k.sysClose fd).1 := by
  unfold Kernel.sysClose
  split
  · exact .refl accounted
  · rename_i inRange
    dsimp only
    split
    · exact .refl accounted
    · rename_i nonnull
      obtain ⟨file, live⟩ : ∃ file, k.file.lookup (k.current.files fd.toNat) = some file :=
        counted.lookup_slot inside inUse (by omega) nonnull
      have cleared : Kept base k (k.setFile fd.toNat 0) :=
        .setFile accounted fun other => absurd rfl other
      exact cleared.trans (.putFile cleared.accounted well live)

/-- `sys_dup2`. -/
theorem sysDup2 (accounted : k.Accounted base) (well : base.WellMounted) (counted : k.Counted)
    (inside : k.currentTask < nrTasks) (inUse : k.current.InUse) (fd fd2 : Int) :
    Kept base k (k.sysDup2 fd fd2).1 := by
  unfold Kernel.sysDup2
  split
  · exact .refl accounted
  · rename_i inRange
    split
    · exact .refl accounted
    · dsimp only
      have closes := sysClose accounted well counted inside inUse fd2
      generalize (k.sysClose fd2).1 = closed at *
      have sets : Kept base closed (closed.setFile fd2.toNat (closed.current.files fd.toNat)) :=
        .setFile closes.accounted fun _ => ⟨fd.toNat, by omega, rfl⟩
      refine (closes.trans sets).trans ?_
      generalize closed.current.files fd.toNat = f at *
      have same (g : Nat) : ((closed.setFile fd2.toNat f).file.modify f fun f =>
          { f with count := (f.count + 1) % uintWidth }).lookup g =
          if g = f then ((closed.setFile fd2.toNat f).file.lookup f).map fun f =>
            { f with count := (f.count + 1) % uintWidth }
          else (closed.setFile fd2.toNat f).file.lookup g := Store.lookup_modify _ _ _ _
      refine ⟨sets.accounted.same (.of_tasks rfl) (fun node => Store.count_congr fun g => ?_) rfl,
        fun _ _ here => here, fun g file' live => ?_,
        fun i inside' alive => ⟨i, inside', alive, .refl _⟩⟩
      · rw [same]
        split
        · rename_i here
          rw [here, Option.map_map]
          rfl
        · rfl
      · have live : _ = some file' := (same g).symm.trans live
        split at live
        · rename_i here
          obtain ⟨file, there, rfl⟩ := Option.map_eq_some_iff.mp live
          exact ⟨file, here ▸ there, rfl⟩
        · exact ⟨file', live, rfl⟩

/-- The loop of `sys_exit` over the descriptors. -/
theorem closeAll (accounted : k.Accounted base) (well : base.WellMounted) (counted : k.Counted)
    (inside : k.currentTask < nrTasks) (inUse : k.current.InUse) (bound : Nat) :
    Kept base k (Kernel.closeAll bound k) := by
  induction bound generalizing k with
  | zero => exact .refl accounted
  | succ fd ih =>
    have closes := sysClose accounted well counted inside inUse fd
    obtain ⟨counted', _⟩ := counted.sysClose inside inUse fd
    obtain ⟨slot, current, _⟩ := sysClose_slot k fd k.currentTask
    have pid : ((k.sysClose fd).1.tasks k.currentTask).pid = k.current.pid :=
      congrArg (·.1) slot
    exact closes.trans (ih closes.accounted counted' (by rwa [current])
      (by rwa [Kernel.current, current, Task.InUse, pid]))

/-- `sys_fork`: the child has what the parent has. -/
theorem sysFork (accounted : k.Accounted base) (inside : k.currentTask < nrTasks)
    (alive : k.Alive k.currentTask) (blocks : Blocks) :
    Kept base k (k.sysFork exactWidth blocks).1 := by
  cases found : k.freeSlot with
  | none =>
    simp only [Kernel.sysFork, found]
    exact .refl accounted
  | some child =>
    obtain ⟨⟨extra, took⟩, boot, balanced, more⟩ := accounted
    have vfs : (k.sysFork exactWidth blocks).1.vfs =
        holdNode exactWidth (holdNode exactWidth k.vfs k.current.pwd) k.current.root := by
      simp only [Kernel.sysFork, found]
      rfl
    have file : (k.sysFork exactWidth blocks).1.file = holdFiles k.current.files nrOpen k.file := by
      simp only [Kernel.sysFork, found]
      rfl
    have held : (k.current.pwd ≠ 0 → 0 < k.vfs.references k.current.pwd) ∧
        (k.current.root ≠ 0 → 0 < k.vfs.references k.current.root) := balanced.held inside alive
    have holds {v : Vfs} {extra : List Nat} (took : Vfs.Took base v extra) (node : Nat)
        (live : node ≠ 0 → v.Live node) :
        ∃ extra', Vfs.Took base (holdNode exactWidth v node) extra' := by
      unfold holdNode
      split
      · exact ⟨extra, took⟩
      · rename_i nonnull
        exact ⟨_, took.hold (live nonnull)⟩
    have lives {node : Nat} (referenced : 0 < k.vfs.references node) : k.vfs.Live node := by
      obtain ⟨n, live, _⟩ := Vfs.live_of_references referenced
      exact ⟨n, live⟩
    have at_hold {v : Vfs} {node other : Nat} {place : Vfs.Place}
        (here : (holdNode exactWidth v node).At other place) : v.At other place := by
      unfold holdNode at here
      split at here
      · exact here
      · exact (Vfs.hold_at v exactWidth node).mp here
    obtain ⟨extra₁, took₁⟩ := holds took k.current.pwd fun nonnull => lives (held.1 nonnull)
    obtain ⟨extra₂, took₂⟩ := holds took₁ k.current.root fun nonnull => by
      obtain ⟨n, live⟩ := lives (held.2 nonnull)
      unfold holdNode
      split
      · exact ⟨n, live⟩
      · obtain ⟨m, there, _⟩ := (Vfs.hold_at k.vfs exactWidth k.current.pwd).mpr ⟨n, live, rfl⟩
        exact ⟨m, there⟩
    refine ⟨⟨⟨extra₂, vfs.symm ▸ took₂⟩, boot, (balanced.sysFork took.cached inside alive blocks).1,
      more⟩, ?_, fun f file' live => ?_, fun i inside' alive' => ?_⟩
    · rw [vfs]
      exact fun _ _ here => at_hold (at_hold here)
    · have same := holdFiles_node k.current.files nrOpen k.file f
      rw [file] at live
      rw [live] at same
      obtain ⟨file₀, live₀, node⟩ := Option.map_eq_some_iff.mp same.symm
      exact ⟨file₀, live₀, node⟩
    · have apart : k.currentTask ≠ child := by
        rintro rfl
        exact (freeSlot_some found).2 alive.1
      have tasks : ∃ t : Task, TaskFrom (if i = child then k.current else k.tasks i) t ∧
          (k.sysFork exactWidth blocks).1.tasks i = t := by
        refine ⟨_, ?_, rfl⟩
        simp only [Kernel.sysFork, found, setTask_tasks, Function.update_apply]
        by_cases parent : i = k.currentTask
        · rw [if_pos parent, if_neg (parent ▸ apart), if_neg apart, parent]
          exact ⟨rfl, rfl, rfl, rfl, fun fd inside _ => ⟨fd, inside, rfl⟩⟩
        · rw [if_neg parent]
          split
          · exact ⟨rfl, rfl, rfl, rfl, fun fd inside _ => ⟨fd, inside, rfl⟩⟩
          · exact .refl _
      obtain ⟨t, has, same⟩ := tasks
      rw [same]
      split at has
      · exact ⟨k.currentTask, inside, alive, has⟩
      · rename_i other
        have before := ((sysFork_alive exactWidth blocks found alive.1 i).mp alive').resolve_left
          other
        exact ⟨i, inside', before, has⟩

/-- The end of `sys_exit` keeps the credentials of all tasks. -/
theorem terminate_credentials (k : Kernel) (status : Int) (i : Nat) :
    ((k.terminate status).tasks i).uid = (k.tasks i).uid ∧
      ((k.terminate status).tasks i).euid = (k.tasks i).euid := by
  set gone := k.setTask k.currentTask
    (fun t => { t with state := .zombie, exitCode := status }) with gone_def
  obtain ⟨signals, killed⟩ := sysKill_signals gone gone.current.parent SIGCHLD
  have before : (gone.tasks i).uid = (k.tasks i).uid ∧ (gone.tasks i).euid = (k.tasks i).euid := by
    rw [gone_def, setTask_tasks]
    split
    · rename_i here
      rw [here]
      exact ⟨rfl, rfl⟩
    · exact ⟨rfl, rfl⟩
  rw [terminate, ← gone_def, killed, switchTask_eq_dispatch, dispatch_tasks]
  exact before

/-- `sys_exit`: the descriptors of the task are closed, and it is not alive any more. -/
theorem sysExit (accounted : k.Accounted base) (well : base.WellMounted)
    (invariant : k.FileInvariant) (status : Int) : Kept base k (k.sysExit status) := by
  obtain ⟨inside, inUse, _⟩ := invariant.current
  have orphaned := orphanChildren_holdings k
  have inUse' : k.orphanChildren.current.InUse := by
    rw [Task.InUse, Kernel.current, orphaned.pid]
    exact inUse
  have orphans : Kept base k k.orphanChildren := by
    refine of_holdings accounted orphaned (alive_of_slot (orphanChildren_slot k)) (fun i => ?_)
      fun i => ?_ <;>
    · simp only [orphanChildren]
      split <;> rfl
  have closes := orphans.trans (closeAll orphans.accounted well (invariant.counted.same orphaned)
    inside inUse' nrOpen)
  have ended := sysExit_holdings k status
  have credentials (i : Nat) : ((k.sysExit status).tasks i).uid =
      ((Kernel.closeAll nrOpen k.orphanChildren).tasks i).uid ∧ ((k.sysExit status).tasks i).euid =
      ((Kernel.closeAll nrOpen k.orphanChildren).tasks i).euid := by
    unfold Kernel.sysExit
    generalize Kernel.closeAll nrOpen k.orphanChildren = left
    dsimp only
    split
    · exact ⟨rfl, rfl⟩
    · exact terminate_credentials _ status i
  have alive (i : Nat) (lives : (k.sysExit status).Alive i) :
      (Kernel.closeAll nrOpen k.orphanChildren).Alive i := by
    rw [alive_of_slot fun i => (closed_slot k i).1]
    by_cases halts : k.current.pid = 0
    · exact (alive_of_slot (sysExit_kernelTask status halts).1 i).mp lives
    · exact ((sysExit_alive invariant.toTableInvariant status halts i).mp lives).1
  generalize Kernel.closeAll nrOpen k.orphanChildren = left at *
  obtain ⟨extra, took⟩ := closes.accounted.took
  refine closes.trans (of_tasks (.of_le (ended.vfs.symm ▸ took) fun node nonnull => ?_) ended.vfs
    ended.file fun i inside lives => ⟨i, inside, alive i lives, (credentials i).1,
      (credentials i).2, ended.root i, ended.pwd i, fun fd inside _ => ⟨fd, inside, by rw [ended.files]⟩⟩)
  have enough := closes.accounted.le nonnull
  have pwd := tasksWith_le (·.pwd) alive ended.pwd node
  have root := tasksWith_le (·.root) alive ended.root node
  have files : (k.sysExit status).filesOn node = left.filesOn node := by
    rw [filesOn, filesOn, ended.file]
  rw [ended.vfs, files]
  omega

end Kept

/-! ## What unprivileged tasks hold -/

/-- The vnode is the working directory of the task, or one of its open files. -/
def Holds (k : Kernel) (i node : Nat) : Prop :=
  (k.tasks i).pwd = node ∨ ∃ fd < nrOpen, ∃ file, (k.tasks i).files fd ≠ 0 ∧
    k.file.lookup ((k.tasks i).files fd) = some file ∧ file.node = node

/-- The root of the task is at a place, mounts resolved, and all that the task holds is below. -/
structure Confined (k : Kernel) (start : Vfs.Place) (i : Nat) : Prop where
  root : ∃ steps top, Follow k.vfs.mountOf steps (k.tasks i).root top ∧ k.vfs.At top start
  holds : ∀ node, k.Holds i node → k.vfs.Inside start node

/-- `..` does not lead out of the root of the task. -/
def SealedRoot (base : Vfs) (h : Hierarchy base.inode) (t : Task) : Prop :=
  ∀ steps top, Follow base.mountOf steps t.root top → base.Sealed h top

/-- The kernel is in order, its tasks have directories, and unprivileged tasks are confined to
roots that `..` does not lead out of. -/
structure Secure (base : Vfs) (h : Hierarchy base.inode) (k : Kernel) : Prop
    extends FileInvariant k where
  accounted : k.Accounted base
  directories : ∀ i < nrTasks, k.Alive i → (k.tasks i).pwd ≠ 0 ∧ (k.tasks i).root ≠ 0
  jailed : ∀ i < nrTasks, k.Alive i → (k.tasks i).isRoot = false →
    SealedRoot base h (k.tasks i) ∧ ∃ start, k.Confined start i

/-- An unprivileged task is confined to the root of an unprivileged task of the origin. -/
def ConfinedFrom (origin k : Kernel) (i : Nat) : Prop :=
  ∃ j start, j < nrTasks ∧ origin.Alive j ∧ (origin.tasks j).isRoot = false ∧
    (k.tasks i).root = (origin.tasks j).root ∧ origin.Confined start j ∧ k.Confined start i

/-- A directory that a task has is there. -/
theorem Accounted.live_directory (accounted : k.Accounted base) {i : Nat} (inside : i < nrTasks)
    (alive : k.Alive i) : ((k.tasks i).pwd ≠ 0 → k.vfs.Live (k.tasks i).pwd) ∧
      ((k.tasks i).root ≠ 0 → k.vfs.Live (k.tasks i).root) := by
  have counted (directory : Task → Nat) : 0 < k.tasksWith directory (directory (k.tasks i)) :=
    Finset.card_pos.mpr ⟨i, by simp [mem_below, inside, alive]⟩
  constructor
  · intro nonnull
    have enough := accounted.le nonnull
    have := counted (·.pwd)
    have held : 0 < k.vfs.references (k.tasks i).pwd := by omega
    obtain ⟨n, live, _⟩ := Vfs.live_of_references held
    exact ⟨n, live⟩
  · intro nonnull
    have enough := accounted.le nonnull
    have := counted (·.root)
    have held : 0 < k.vfs.references (k.tasks i).root := by omega
    obtain ⟨n, live, _⟩ := Vfs.live_of_references held
    exact ⟨n, live⟩

/-- What a task holds is there. -/
theorem Accounted.live_of_holds (accounted : k.Accounted base) {i node : Nat} (inside : i < nrTasks)
    (alive : k.Alive i) (holds : k.Holds i node) (nonnull : node ≠ 0) : k.vfs.Live node := by
  rcases holds with rfl | ⟨fd, _, file, _, live, rfl⟩
  · exact (accounted.live_directory inside alive).1 nonnull
  · have enough := accounted.le nonnull
    have counted : 0 < k.filesOn file.node := Store.count_pos live (by simp)
    have held : 0 < k.vfs.references file.node := by omega
    obtain ⟨n, there, _⟩ := Vfs.live_of_references held
    exact ⟨n, there⟩

/-- A step after which each task has the credentials of one from before, and, if it is not the
superuser, its root and nothing but what that one held or what is inside. -/
theorem Secure.carried {origin : Kernel} (secure : Secure base h k) (tree : base.MountTree h)
    (invariant : k'.FileInvariant) (accounted : k'.Accounted base)
    (steady : Vfs.Steady k.vfs k'.vfs)
    (tasks : ∀ i < nrTasks, k'.Alive i →
      ((k'.tasks i).pwd ≠ 0 ∧ (k'.tasks i).root ≠ 0) ∧
      ((k'.tasks i).isRoot = false → ∃ j < nrTasks, k.Alive j ∧ (k.tasks j).isRoot = false ∧
        (k'.tasks i).root = (k.tasks j).root ∧ ∀ node, k'.Holds i node →
          k.Holds j node ∨ ∀ start, k.Confined start j → k'.vfs.Inside start node)) :
    Secure base h k' ∧ ((∀ j < nrTasks, k.Alive j → (k.tasks j).isRoot = false →
      ConfinedFrom origin k j) → ∀ i < nrTasks, k'.Alive i → (k'.tasks i).isRoot = false →
        ConfinedFrom origin k' i) := by
  obtain ⟨extra, took⟩ := secure.accounted.took
  obtain ⟨extra', took'⟩ := accounted.took
  have mounts : k.vfs.mountOf = base.mountOf := funext took.mountOf
  have mounts' : k'.vfs.mountOf = base.mountOf := funext took'.mountOf
  have confined (i : Nat) (inside : i < nrTasks) (alive : k'.Alive i) (j : Nat)
      (root : (k'.tasks i).root = (k.tasks j).root)
      (has : ∀ node, k'.Holds i node →
        k.Holds j node ∨ ∀ start, k.Confined start j → k'.vfs.Inside start node)
      (start : Vfs.Place) (before : k.Confined start j) : k'.Confined start i := by
    have nonnull := (tasks i inside alive).1.2
    have live := (accounted.live_directory inside alive).2 nonnull
    obtain ⟨steps, top, follow, here⟩ := before.root
    rw [mounts, ← root] at follow
    refine ⟨⟨steps, top, mounts'.symm ▸ follow, steady.top tree took' live follow here⟩,
      fun node holds => ?_⟩
    rcases has node holds with held | found
    · have was := before.holds node held
      obtain ⟨n, there⟩ := was.live
      exact was.carried tree took took' steady
        (accounted.live_of_holds inside alive holds (took.cached.ne_zero there))
    · exact found start before
  constructor
  · refine ⟨invariant, accounted, fun i inside alive => (tasks i inside alive).1,
      fun i inside alive unprivileged => ?_⟩
    obtain ⟨j, inside', alive', unprivileged', root, has⟩ := (tasks i inside alive).2 unprivileged
    obtain ⟨closed, start, before⟩ := secure.jailed j inside' alive' unprivileged'
    refine ⟨fun steps top follow => closed steps top (root ▸ follow), start, ?_⟩
    exact confined i inside alive j root has start before
  · intro earlier i inside alive unprivileged
    obtain ⟨j, inside', alive', unprivileged', root, has⟩ := (tasks i inside alive).2 unprivileged
    obtain ⟨l, start, inside'', alive'', unprivileged'', root', first, before⟩ :=
      earlier j inside' alive' unprivileged'
    exact ⟨l, start, inside'', alive'', unprivileged'', root.trans root', first,
      confined i inside alive j root has start before⟩

/-- A call that resolves no path keeps what is secure. -/
theorem Secure.kept {origin : Kernel} (secure : Secure base h k) (tree : base.MountTree h)
    (invariant : k'.FileInvariant) (kept : Kept base k k') :
    Secure base h k' ∧ ((∀ j < nrTasks, k.Alive j → (k.tasks j).isRoot = false →
      ConfinedFrom origin k j) → ∀ i < nrTasks, k'.Alive i → (k'.tasks i).isRoot = false →
        ConfinedFrom origin k' i) := by
  refine secure.carried tree invariant kept.accounted (.of_earlier kept.earlier)
    fun i inside alive => ?_
  obtain ⟨j, inside', alive', has⟩ := kept.tasks i inside alive
  have credentials : (k'.tasks i).isRoot = (k.tasks j).isRoot := by
    rw [Task.isRoot, Task.isRoot, has.uid, has.euid]
  obtain ⟨pwd, root⟩ := secure.directories j inside' alive'
  refine ⟨⟨has.pwd ▸ pwd, has.root ▸ root⟩, fun unprivileged => ⟨j, inside', alive',
    credentials ▸ unprivileged, has.root, fun node holds => .inl ?_⟩⟩
  rcases holds with here | ⟨fd, open_, file', nonnull, live, here⟩
  · exact .inl (has.pwd.symm.trans here)
  · obtain ⟨fd', open', same⟩ := has.files fd open_ nonnull
    obtain ⟨file, live', node⟩ := kept.nodes _ file' live
    exact .inr ⟨fd', open', file, same ▸ nonnull, same ▸ live', node.trans here⟩

/-! ## Calls that resolve a path -/

variable {calloc : Allocator Vnode} {fuel bound : Nat}

/-- What path resolution does for the current task. -/
structure Resolved (base : Vfs) (k : Kernel) (result : Vfs × Nat × Int) : Prop where
  took : ∃ extra, Vfs.Took k.vfs result.1 extra ∧ (result.2.1 ≠ 0 → result.2.1 ∈ extra)
  inside : k.current.isRoot = false → result.2.1 ≠ 0 →
    ∀ start, k.Confined start k.currentTask → result.1.Inside start result.2.1

/-- Path resolution returns, and finds what is inside for an unprivileged task. -/
theorem Secure.resolved (secure : Secure base h k) (tree : base.MountTree h)
    (ends : base.MountsEnd bound) (enough : 2 * bound + 1 < fuel) (filename : CString) :
    Resolved base k (Vfs.resolver calloc fuel k.vfs k.current filename) := by
  obtain ⟨inside, inUse, running⟩ := secure.current
  have alive : k.Alive k.currentTask := ⟨inUse, by
    rw [Kernel.current] at running
    simp [running]⟩
  obtain ⟨extra, took⟩ := secure.accounted.took
  obtain ⟨pwd, root⟩ := secure.directories _ inside alive
  have livePwd := (secure.accounted.live_directory inside alive).1 pwd
  have rooted := (secure.accounted.live_directory inside alive).2 root
  have well := took.wellMounted tree.wellMounted
  have begins (c : UInt8) : k.vfs.Live (k.vfs.startOf k.current c) := by
    unfold Vfs.startOf
    dsimp only
    split
    · rw [if_neg (by exact root)]
      exact rooted
    · rw [if_neg (by exact pwd)]
      exact livePwd
  have returns : ∃ result, k.vfs.namei exactWidth calloc fuel k.current filename 0 = some result :=
    Vfs.namei_returns well (ends.kept took) begins rooted enough
  obtain ⟨result, done⟩ := returns
  have same : Vfs.resolver calloc fuel k.vfs k.current filename = result := by
    rw [Vfs.resolver, done]
    rfl
  obtain ⟨left, leaves, _⟩ := Vfs.namei_leaves well rooted begins done
  rw [same]
  refine ⟨⟨_, leaves, fun found => ?_⟩, fun unprivileged found start confined => ?_⟩
  · rw [if_neg found]
    exact List.mem_cons_self
  · have mounts : k.vfs.mountOf = base.mountOf := funext took.mountOf
    obtain ⟨steps, top, follow, here⟩ := confined.root
    obtain ⟨closed, _⟩ := secure.jailed _ inside alive unprivileged
    have jail : k.vfs.Jail (took.hierarchy h) start k.current := by
      refine ⟨rooted, steps, top, follow, here, took.sealed (closed steps top ?_)⟩
      rw [← mounts]
      exact follow
    have below := Vfs.namei_below (took.mountTree tree) jail (confined.holds _ (.inl rfl)) done found
    rw [Vfs.Leaves, if_neg found] at leaves
    have took' : Vfs.Took k.vfs result.1 (result.2.1 :: left) := leaves
    refine below.inside (took'.mountTree (took.mountTree tree)) (took'.at_of here) ?_
    rw [took'.mountOf]
    exact follow.ends

/-- With the vnodes that path resolution leaves, the vnode found is accounted for besides. -/
theorem Resolved.enough {result : Vfs × Nat × Int} (resolved : Resolved base k result)
    (accounted : k.Accounted base) {node : Nat} (nonnull : node ≠ 0) :
    base.references node + k.filesOn node +
        (k.tasksWith (·.pwd) node + k.tasksWith (·.root) node) +
        (if result.2.1 = node then 1 else 0) ≤ result.1.references node := by
  obtain ⟨extra, took, taken⟩ := resolved.took
  have before := accounted.le nonnull
  rw [took.references]
  split
  · rename_i here
    have positive := List.count_pos_iff.mpr (taken (here ▸ nonnull))
    rw [here] at positive
    omega
  · omega

/-- The vnodes keep their places while a path is resolved. -/
theorem Resolved.steady {result : Vfs × Nat × Int} (resolved : Resolved base k result) :
    Vfs.Steady k.vfs result.1 := by
  obtain ⟨_, took, _⟩ := resolved.took
  exact fun _ _ here _ => took.at_of here

/-- References have been taken since the beginning. -/
theorem Resolved.taken {result : Vfs × Nat × Int} (resolved : Resolved base k result)
    (accounted : k.Accounted base) : ∃ extra, Vfs.Took base result.1 extra := by
  obtain ⟨_, took⟩ := accounted.took
  obtain ⟨_, took', _⟩ := resolved.took
  exact ⟨_, took.trans took'⟩

/-- `sys_open` keeps what is secure. -/
theorem Secure.sysOpen {origin : Kernel} (secure : Secure base h k) (tree : base.MountTree h)
    {namei : PathResolver} {blocks : Blocks} {filename : CString} {flag : Nat}
    (resolved : Resolved base k (namei k.vfs k.current filename))
    (invariant : (k.sysOpen namei blocks filename flag).1.FileInvariant) :
    Secure base h (k.sysOpen namei blocks filename flag).1 ∧ ((∀ j < nrTasks, k.Alive j →
      (k.tasks j).isRoot = false → ConfinedFrom origin k j) → ∀ i < nrTasks,
        (k.sysOpen namei blocks filename flag).1.Alive i →
        ((k.sysOpen namei blocks filename flag).1.tasks i).isRoot = false →
          ConfinedFrom origin (k.sysOpen namei blocks filename flag).1 i) := by
  obtain ⟨extra, took⟩ := resolved.taken secure.accounted
  rcases sysOpen_cases namei blocks k filename flag with ⟨same, _⟩ | ⟨_, _, same⟩ |
    ⟨found, fd, f, file, free, _, fresh, onNode, _, same⟩
  · rw [same] at invariant ⊢
    exact secure.kept tree invariant (.refl secure.accounted)
  · rw [same] at invariant ⊢
    refine secure.carried tree invariant (.of_le took fun node nonnull => ?_) resolved.steady
      fun i inside alive => ⟨secure.directories i inside alive, fun unprivileged =>
        ⟨i, inside, alive, unprivileged, rfl, fun _ holds => .inl holds⟩⟩
    exact (Nat.le_add_right _ _).trans (resolved.enough secure.accounted nonnull)
  · rw [same] at invariant ⊢
    have opened : SameDirectories k { k with
        vfs := (namei k.vfs k.current filename).1
        file := k.file.insert f file } := .of_tasks rfl
    have directories := opened.trans (setFile_directories _ fd f)
    refine secure.carried tree invariant (.of_le took fun node nonnull => ?_) resolved.steady
      fun i inside alive => ?_
    · rw [directories.tasksWith_pwd, directories.tasksWith_root]
      have files : Store.count (AList.insert f file k.file) (·.node == node) =
          k.filesOn node + if (file.node == node) = true then 1 else 0 :=
        Store.count_insert fresh file
      have enough := resolved.enough secure.accounted nonnull
      rw [← onNode] at enough
      simp only [beq_iff_eq] at files
      simp only [filesOn, setFile, setTask] at files enough ⊢
      omega
    · have alive' := (directories.alive i).mp alive
      rw [directories.pwd, directories.root]
      refine ⟨secure.directories i inside alive', fun unprivileged => ⟨i, inside, alive', ?_, rfl,
        fun node holds => ?_⟩⟩
      · rw [← unprivileged, setFile, setTask_tasks]
        split
        · rename_i here
          rw [here]
          rfl
        · rfl
      · rcases holds with here | ⟨x, open_, file', nonnull, live, here⟩
        · rw [directories.pwd] at here
          exact .inl (.inl here)
        · rw [setFile_files] at nonnull live
          have live : (AList.insert f file k.file).lookup _ = some file' := live
          rw [Store.lookup_insert_eq] at live
          by_cases new : i = k.currentTask ∧ x = fd
          · rw [if_pos new, if_pos rfl] at live
            cases live
            refine .inr fun start confined => ?_
            rw [← here, onNode]
            rw [new.1] at confined unprivileged
            refine resolved.inside ?_ found start confined
            rw [← unprivileged, setFile, setTask_tasks, if_pos rfl]
            rfl
          · have old : ¬(i = Kernel.currentTask { k with
                vfs := (namei k.vfs k.current filename).1
                file := k.file.insert f file } ∧ x = fd) := new
            rw [if_neg old] at nonnull live
            obtain ⟨there, exists_⟩ := secure.counted.lookup_slot inside alive'.1 open_ nonnull
            have other : (k.tasks i).files x ≠ f := by
              intro same
              rw [same, fresh] at exists_
              cases exists_
            rw [if_neg other] at live
            exact .inl (.inr ⟨x, open_, file', nonnull, live, here⟩)

/-- A directory recorded by the current task is accounted for. -/
theorem Resolved.recorded {result : Vfs × Nat × Int} (resolved : Resolved base k result)
    (accounted : k.Accounted base) (inside : k.currentTask < nrTasks)
    (alive : k.Alive k.currentTask) (record : Task → Nat → Task) (changed kept : Task → Nat)
    (slot : ∀ t node, (record t node).slot = t.slot)
    (recorded : ∀ t node, changed (record t node) = node)
    (frame : ∀ t node, kept (record t node) = kept t)
    (holders : ∀ (k : Kernel) node, k.tasksWith changed node + k.tasksWith kept node =
      k.tasksWith (·.pwd) node + k.tasksWith (·.root) node) :
    Accounted base (Kernel.setTask { k with vfs := result.1 } k.currentTask
      fun t => record t result.2.1) := by
  obtain ⟨extra, took⟩ := resolved.taken accounted
  set k' := Kernel.setTask { k with vfs := result.1 } k.currentTask
    fun t => record t result.2.1 with recorded_def
  have tasks (i : Nat) : k'.tasks i = if i = k.currentTask then record (k.tasks i) result.2.1
      else k.tasks i := by
    rw [recorded_def, setTask_tasks]
    split
    · rename_i here
      rw [here]
    · rfl
  have slots (i : Nat) : (k'.tasks i).slot = (k.tasks i).slot := by
    rw [tasks]
    split
    · exact slot _ _
    · rfl
  refine .of_le took fun node nonnull => ?_
  have taken : k'.directoryOf changed =
      Function.update (k.directoryOf changed) k.currentTask result.2.1 := by
    funext i
    rw [directoryOf, tasks]
    by_cases here : i = k.currentTask
    · rw [here, Function.update_self, if_pos ((alive_of_slot slots _).mpr alive), if_pos rfl,
        recorded]
    · rw [Function.update_of_ne here, if_neg here, directoryOf]
      simp only [alive_of_slot slots]
  have unchanged : k'.tasksWith kept node = k.tasksWith kept node := by
    refine congrArg Finset.card (Finset.filter_congr fun i _ => ?_)
    rw [alive_of_slot slots, tasks]
    split
    · rw [frame]
    · rfl
  have replaced := tasksWith_update inside nonnull taken
  have enough := resolved.enough accounted nonnull
  have sum := holders k node
  have sum' := holders k' node
  have files : k'.filesOn node = k.filesOn node := rfl
  have vfs : k'.vfs = result.1 := rfl
  rw [files, vfs]
  omega

/-- A call that records the directory it resolves keeps what is secure, if the task that it is
recorded in is confined to it afterwards. -/
theorem Secure.changeDirectory {origin : Kernel} (secure : Secure base h k)
    (tree : base.MountTree h) {namei : PathResolver} {name : CString}
    {record : Task → Nat → Task} (resolved : Resolved base k (namei k.vfs k.current name))
    (invariant : (k.changeDirectory namei name record).1.FileInvariant)
    (slot : ∀ t node, (record t node).slot = t.slot)
    (accounted : Accounted base (Kernel.setTask { k with vfs := (namei k.vfs k.current name).1 }
      k.currentTask fun t => record t (namei k.vfs k.current name).2.1))
    (records : (namei k.vfs k.current name).2.1 ≠ 0 →
      let t := record k.current (namei k.vfs k.current name).2.1
      (t.pwd ≠ 0 ∧ t.root ≠ 0) ∧ (t.isRoot = false → k.current.isRoot = false ∧
        t.root = k.current.root ∧ t.files = k.current.files ∧ (t.pwd = k.current.pwd ∨
          t.pwd = (namei k.vfs k.current name).2.1))) :
    Secure base h (k.changeDirectory namei name record).1 ∧ ((∀ j < nrTasks, k.Alive j →
      (k.tasks j).isRoot = false → ConfinedFrom origin k j) → ∀ i < nrTasks,
        (k.changeDirectory namei name record).1.Alive i →
        ((k.changeDirectory namei name record).1.tasks i).isRoot = false →
          ConfinedFrom origin (k.changeDirectory namei name record).1 i) := by
  obtain ⟨extra, took⟩ := resolved.taken secure.accounted
  rcases changeDirectory_cases namei k name record with ⟨same, _⟩ | ⟨found, _, same⟩
  · rw [same] at invariant ⊢
    refine secure.carried tree invariant (.of_le took fun node nonnull => ?_) resolved.steady
      fun i inside alive => ⟨secure.directories i inside alive, fun unprivileged =>
        ⟨i, inside, alive, unprivileged, rfl, fun _ holds => .inl holds⟩⟩
    exact (Nat.le_add_right _ _).trans (resolved.enough secure.accounted nonnull)
  · rw [same] at invariant ⊢
    obtain ⟨directories, confined⟩ := records found
    generalize namei k.vfs k.current name = result at *
    set k' := Kernel.setTask { k with vfs := result.1 } k.currentTask
      fun t => record t result.2.1 with recorded_def
    have tasks (i : Nat) : k'.tasks i = if i = k.currentTask then record k.current result.2.1
        else k.tasks i := by
      rw [recorded_def, setTask_tasks]
      rfl
    have slots (i : Nat) : (k'.tasks i).slot = (k.tasks i).slot := by
      rw [tasks]
      split
      · rename_i here
        rw [here]
        exact slot _ _
      · rfl
    have file : k'.file = k.file := rfl
    refine secure.carried tree invariant accounted resolved.steady fun i inside alive => ?_
    have alive' := (alive_of_slot slots i).mp alive
    by_cases here : i = k.currentTask
    · have task := tasks i
      rw [if_pos here] at task
      rw [task]
      refine ⟨directories, fun unprivileged => ?_⟩
      obtain ⟨unprivileged', root, files, pwd⟩ := confined unprivileged
      refine ⟨k.currentTask, here ▸ inside, here ▸ alive', unprivileged', root,
        fun node holds => ?_⟩
      rw [Holds, task, file, files] at holds
      rcases holds with at_pwd | opened
      · rcases pwd with old | new
        · exact .inl (.inl (old.symm.trans at_pwd))
        · rw [← at_pwd, new]
          exact .inr (resolved.inside unprivileged' found)
      · exact .inl (.inr opened)
    · have task := tasks i
      rw [if_neg here] at task
      rw [task]
      refine ⟨secure.directories i inside alive', fun unprivileged => ⟨i, inside, alive',
        unprivileged, rfl, fun node holds => .inl ?_⟩⟩
      rwa [Holds, task, file] at holds

/-! ## Runs -/

/-- Every step keeps what is secure, and the tasks confined that come from confined ones. -/
theorem Secure.step {origin : Kernel} (secure : Secure base h k) (tree : base.MountTree h)
    (ends : base.MountsEnd bound) (enough : 2 * bound + 1 < fuel) {call : FileCall}
    (step : FileStep (Vfs.resolver calloc fuel) exactWidth k call k') :
    Secure base h k' ∧ ((∀ j < nrTasks, k.Alive j → (k.tasks j).isRoot = false →
      ConfinedFrom origin k j) → ∀ i < nrTasks, k'.Alive i → (k'.tasks i).isRoot = false →
        ConfinedFrom origin k' i) := by
  have invariant := (secure.toFileInvariant.step step).1
  obtain ⟨inside, inUse, running⟩ := secure.current
  have alive : k.Alive k.currentTask := ⟨inUse, by
    rw [Kernel.current] at running
    simp [running]⟩
  have accounted := secure.accounted
  have well := tree.wellMounted
  obtain ⟨pwd, root⟩ := secure.directories _ inside alive
  have resolved (name : CString) :
      Resolved base k (Vfs.resolver calloc fuel k.vfs k.current name) :=
    secure.resolved tree ends enough name
  cases step with
  | @dispatch next inside' inUse' awake =>
    refine secure.kept tree invariant (.of_holdings accounted (dispatch_holdings k next)
      (dispatch_alive ⟨inUse', awake⟩) (fun i => ?_) fun i => ?_)
    · rw [dispatch_tasks]
    · rw [dispatch_tasks]
  | sysOpen blocks filename flag => exact secure.sysOpen tree (resolved filename) invariant
  | sysClose fd =>
    exact secure.kept tree invariant (.sysClose accounted well secure.counted inside inUse fd)
  | sysDup fd =>
    refine secure.kept tree invariant ?_
    unfold Kernel.sysDup
    split
    · exact .refl accounted
    · exact .sysDup2 accounted well secure.counted inside inUse fd _
  | sysDup2 _ =>
    exact secure.kept tree invariant (.sysDup2 accounted well secure.counted inside inUse _ _)
  | sysChdir name =>
    refine secure.changeDirectory tree (resolved name) invariant (fun _ _ => rfl) ?_ fun found =>
      ⟨⟨found, root⟩, fun unprivileged => ⟨unprivileged, rfl, rfl, .inr rfl⟩⟩
    exact (resolved name).recorded accounted inside alive (fun t node => { t with pwd := node })
      (·.pwd) (·.root) (fun _ _ => rfl) (fun _ _ => rfl) (fun _ _ => rfl) fun _ _ => rfl
  | sysChroot name =>
    unfold Kernel.sysChroot at invariant ⊢
    split at invariant
    · rename_i denied
      rw [if_pos denied]
      exact secure.kept tree invariant (.refl accounted)
    · rename_i allowed
      have superuser : k.current.isRoot = true := by simpa using allowed
      rw [if_neg allowed]
      refine secure.changeDirectory tree (resolved name) invariant (fun _ _ => rfl) ?_
        fun found => ⟨⟨pwd, found⟩, fun unprivileged => ?_⟩
      · exact (resolved name).recorded accounted inside alive
          (fun t node => { t with root := node }) (·.root) (·.pwd) (fun _ _ => rfl)
          (fun _ _ => rfl) (fun _ _ => rfl) fun _ _ => Nat.add_comm _ _
      · have same : k.current.isRoot = false := unprivileged
        rw [superuser] at same
        cases same
  | sysFork blocks => exact secure.kept tree invariant (.sysFork accounted inside alive blocks)
  | sysExit status =>
    exact secure.kept tree invariant (.sysExit accounted well secure.toFileInvariant status)
  | sysWaitpid returns =>
    refine secure.kept tree invariant ?_
    rcases sysWaitpid_cases returns with ⟨rfl, _⟩ | ⟨_, _, zombie, rfl⟩
    · exact .refl accounted
    · have same := reap_directories zombie
      refine .of_tasks (accounted.same same (fun _ => rfl) rfl) rfl rfl fun j inside lives =>
        ⟨j, inside, (same.alive j).mp lives, ?_⟩
      rw [setTask_tasks]
      split
      · rename_i here
        rw [here]
        exact ⟨rfl, rfl, rfl, rfl, fun fd inside _ => ⟨fd, inside, rfl⟩⟩
      · exact .refl _

end Kernel

/-- Over every run of calls of all tasks, among them `chroot` by superusers, `fork` and `exit`, an
unprivileged task is confined to the root of an unprivileged task of the beginning: what it has as
working directory or open stays below that root, and `chroot` by others does not change it. -/
theorem unprivileged_confined {base : Vfs} {h : Hierarchy base.inode} (tree : base.MountTree h) :
    ∃ bound, ∀ (calloc : Allocator Vnode) (fuel : Nat) (k k' : Kernel) (calls : List FileCall),
      bound < fuel → k.Secure base h →
      (fileSystem (Vfs.resolver calloc fuel) exactWidth).Path TransitionSystem.Unrestricted
        k calls k' →
      ∀ i < nrTasks, k'.Alive i → (k'.tasks i).isRoot = false → Kernel.ConfinedFrom k k' i := by
  obtain ⟨bound, ends⟩ := tree.bounded
  refine ⟨2 * bound + 1, fun calloc fuel k k' calls enough secure path => ?_⟩
  have run := path.keeps (fun l => l.Secure base h ∧ ∀ i < nrTasks, l.Alive i →
      (l.tasks i).isRoot = false → Kernel.ConfinedFrom k l i)
    (fun l call l' invariant _ step => by
      obtain ⟨secure, confined⟩ := invariant
      obtain ⟨secure', carries⟩ := secure.step tree ends enough step
      exact ⟨secure', carries confined⟩)
    ⟨secure, fun i inside alive unprivileged => by
      obtain ⟨_, start, confined⟩ := secure.jailed i inside alive unprivileged
      exact ⟨i, start, inside, alive, unprivileged, rfl, confined, confined⟩⟩
  exact run.2

/-! A task without privileges in the one directory of a file system. -/

namespace Cell

/-- The directory is held twice. -/
def shared : Vfs := cell.hold exactWidth 2

/-- The first task alone. -/
def boot : Kernel := Kernel.setupTasking Blocks.above { tasks := fun _ => {} }

/-- Its privileges are given up, and the directory is its root. -/
def prison : Kernel :=
  { boot with
    vfs := shared
    tasks := fun i => { boot.tasks i with uid := 1, euid := 1, pwd := 2, root := 2 } }

/-- Both directories are read, one of them for two. -/
theorem shared_took : Vfs.Took disk shared [2, 2, 1] :=
  cell_took.hold (cell_took.taken 2 List.mem_cons_self)

/-- Only the first task is there. -/
theorem prison_alive {i : Nat} (alive : prison.Alive i) : i = 0 := by
  by_contra other
  have free := alive.1
  simp [prison, boot, Kernel.setupTasking, other, Task.InUse] at free

/-- The task holds nothing but the directory. -/
theorem prison_holds {node : Nat} (holds : prison.Holds 0 node) : node = 2 := by
  rcases holds with here | ⟨_, _, _, nonnull, _⟩
  · exact here.symm
  · exact absurd rfl nonnull

/-- The kernel is secure. -/
theorem prison_secure : prison.Secure disk hierarchy := by
  have table : boot.FileInvariant := Kernel.setupTasking_files Blocks.above rfl
  have slots (i : Nat) : (prison.tasks i).slot = (boot.tasks i).slot := rfl
  have counted : prison.Counted :=
    ⟨rfl, fun f nonnull => table.counted.count f nonnull⟩
  have invariant : prison.FileInvariant :=
    table.kept (table.toTableInvariant.congr slots rfl rfl) counted slots fun _ _ _ => rfl
  have held (directory : Task → Nat) (here : directory (prison.tasks 0) = 2) (node : Nat) :
      prison.tasksWith directory node ≤ if node = 2 then 1 else 0 := by
    split
    · refine (Finset.card_le_card fun i member => ?_).trans (Finset.card_singleton 0).le
      obtain ⟨_, alive, _⟩ := Finset.mem_filter.mp member
      rw [prison_alive alive]
      exact Finset.mem_singleton_self 0
    · rename_i other
      refine (Finset.card_eq_zero.mpr (Finset.filter_eq_empty_iff.mpr fun i _ => ?_)).le
      rintro ⟨alive, same⟩
      rw [prison_alive alive, here] at same
      exact other same.symm
  obtain ⟨n, live⟩ := shared_took.taken 2 List.mem_cons_self
  have bare (node : Nat) : shared.mountOf node = 0 := shared_took.mountOf node
  have here : shared.At 2 (1, 1) := (Vfs.hold_at cell exactWidth 2).mpr
    (Vfs.iget_at rooted_took.cached exactWidth (Allocator.above Vnode) 1 1 (by decide))
  refine ⟨invariant, .of_le shared_took fun node _ => ?_, fun i _ _ => ⟨?_, ?_⟩,
    fun i _ alive _ => ⟨fun _ _ _ _ node _ there => ?_, (1, 1), ?_, fun node holds => ?_⟩⟩
  · have pwd := held (·.pwd) rfl node
    have root := held (·.root) rfl node
    have none : disk.references node = 0 := rfl
    have files : prison.filesOn node = 0 := rfl
    have counts : shared.references node = _ := shared_took.references node
    change _ ≤ shared.references node
    rw [counts, none, files]
    by_cases both : node = 2
    · rw [if_pos both] at pwd root
      rw [both] at pwd root ⊢
      have two : [2, 2, 1].count 2 = 2 := rfl
      omega
    · rw [if_neg both] at pwd root
      omega
  · exact Nat.succ_ne_zero 1
  · exact Nat.succ_ne_zero 1
  · have none : disk.vnode.lookup node = none := rfl
    rw [none] at there
    cases there
  · exact ⟨0, 2, .last (bare 2), here⟩
  · rw [prison_alive alive] at holds
    rw [prison_holds holds]
    exact ⟨0, 2, (1, 1), .last (bare 2), here, .start⟩

end Cell

open Cell in
/-- The task changes to the directory above. -/
theorem unprivileged_confined_chdir : ∃ bound, ∀ fuel, bound < fuel → ∀ i < nrTasks,
    (prison.sysChdir (Vfs.resolver (Allocator.above Vnode) fuel) dotdot).1.Alive i →
    ((prison.sysChdir (Vfs.resolver (Allocator.above Vnode) fuel) dotdot).1.tasks i).isRoot =
      false →
    Kernel.ConfinedFrom prison
      (prison.sysChdir (Vfs.resolver (Allocator.above Vnode) fuel) dotdot).1 i := by
  obtain ⟨bound, confined⟩ := unprivileged_confined disk_tree
  exact ⟨bound, fun fuel enough => confined (Allocator.above Vnode) fuel prison _
    [.sysChdir dotdot] enough prison_secure ((TransitionSystem.Path.nil prison).snoc trivial
      (.sysChdir dotdot))⟩

end Nupkux
