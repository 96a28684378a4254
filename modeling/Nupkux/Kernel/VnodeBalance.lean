import Nupkux.Kernel.FileCounts
import Nupkux.Fs.VnodeCache

/-!
# Vnode references held by tasks

A reference to a vnode is held by an open-file object or as the working directory or root of a
task that has not exited. Open, close, fork and the failing calls keep the references equal to
the holders. `sys_chdir` and `sys_chroot` do not give back the directory they replace, nor the
vnode they reject as no directory, and `sys_exit` gives back neither directory of its task, so
the balance is lost exactly there.
-/

namespace Nupkux

/-- The indices below a bound. -/
@[irreducible] def below (bound : Nat) : Finset Nat := Finset.range bound

/-- An index below a bound. -/
theorem mem_below {bound i : Nat} : i ∈ below bound ↔ i < bound := by
  rw [below, Finset.mem_range]

namespace Kernel

/-- The task of the slot is in use and has not exited. -/
def Alive (k : Kernel) (i : Nat) : Prop := (k.tasks i).InUse ∧ (k.tasks i).state ≠ .zombie

instance (k : Kernel) (i : Nat) : Decidable (k.Alive i) :=
  inferInstanceAs (Decidable ((k.tasks i).InUse ∧ (k.tasks i).state ≠ .zombie))

/-- The number of tasks that have not exited and whose given directory a vnode is. -/
def tasksWith (k : Kernel) (directory : Task → Nat) (node : Nat) : Nat :=
  ((below nrTasks).filter fun i => k.Alive i ∧ directory (k.tasks i) = node).card

/-- The number of open-file objects on a vnode. -/
def filesOn (k : Kernel) (node : Nat) : Nat := k.file.count (·.node == node)

/-- The references on each vnode are those of the boot and one of each open-file object,
working directory and root. -/
def Balanced (boot : Vfs) (k : Kernel) : Prop :=
  ∀ node, node ≠ 0 → k.vfs.references node = boot.references node + k.filesOn node +
    (k.tasksWith (·.pwd) node + k.tasksWith (·.root) node)

/-- The directory that a task holds; a task that has exited holds none. -/
def directoryOf (k : Kernel) (directory : Task → Nat) (i : Nat) : Nat :=
  if k.Alive i then directory (k.tasks i) else 0

variable {k k' k'' : Kernel} {boot : Vfs} {node : Nat} {directory : Task → Nat}

/-- The tasks with a directory, counted over the table. -/
theorem tasksWith_eq_held (k : Kernel) (directory : Task → Nat) (nonnull : node ≠ 0) :
    k.tasksWith directory node =
      References.held (below nrTasks) (k.directoryOf directory) node := by
  refine congrArg Finset.card (Finset.filter_congr fun i _ => ?_)
  unfold directoryOf
  split
  · rename_i alive
    simp [alive]
  · rename_i dead
    simp [dead, Ne.symm nonnull]

/-- A slot whose directory changes gives up one vnode for another. -/
theorem tasksWith_update {i next : Nat} (inside : i < nrTasks) (nonnull : node ≠ 0)
    (changed : k'.directoryOf directory = Function.update (k.directoryOf directory) i next) :
    k'.tasksWith directory node + (if k.directoryOf directory i = node then 1 else 0) =
      k.tasksWith directory node + if next = node then 1 else 0 := by
  rw [tasksWith_eq_held _ _ nonnull, tasksWith_eq_held _ _ nonnull, changed]
  exact References.held_update (mem_below.mpr inside) next

/-- The states have the same tasks alive, in the same directories. -/
structure SameDirectories (k k' : Kernel) : Prop where
  alive : ∀ i, k'.Alive i ↔ k.Alive i
  pwd : ∀ i, (k'.tasks i).pwd = (k.tasks i).pwd
  root : ∀ i, (k'.tasks i).root = (k.tasks i).root

/-- Two steps that keep the directories. -/
theorem SameDirectories.trans (first : SameDirectories k k') (second : SameDirectories k' k'') :
    SameDirectories k k'' where
  alive i := (second.alive i).trans (first.alive i)
  pwd i := (second.pwd i).trans (first.pwd i)
  root i := (second.root i).trans (first.root i)

/-- Slots that agree keep the tasks alive. -/
theorem alive_of_slot (slots : ∀ i, (k'.tasks i).slot = (k.tasks i).slot) (i : Nat) :
    k'.Alive i ↔ k.Alive i := by
  have slot := slots i
  simp only [Task.slot, Prod.mk.injEq] at slot
  rw [Alive, Alive, Task.InUse, Task.InUse, slot.1, slot.2.1]

/-- The same tasks are in a working directory. -/
theorem SameDirectories.tasksWith_pwd (same : SameDirectories k k') (node : Nat) :
    k'.tasksWith (·.pwd) node = k.tasksWith (·.pwd) node :=
  congrArg Finset.card (Finset.filter_congr fun i _ => by simp only [same.alive, same.pwd])

/-- The same tasks have a root. -/
theorem SameDirectories.tasksWith_root (same : SameDirectories k k') (node : Nat) :
    k'.tasksWith (·.root) node = k.tasksWith (·.root) node :=
  congrArg Finset.card (Finset.filter_congr fun i _ => by simp only [same.alive, same.root])

/-- States with the same directories, files and references are balanced alike. -/
theorem SameDirectories.balanced (same : SameDirectories k k')
    (files : ∀ node, k'.filesOn node = k.filesOn node)
    (references : ∀ node, k'.vfs.references node = k.vfs.references node) :
    Balanced boot k' ↔ Balanced boot k := by
  simp only [Balanced, same.tasksWith_pwd, same.tasksWith_root, files, references]

/-- The working directory and root of a task that has not exited are live vnodes. -/
theorem Balanced.held (balanced : Balanced boot k) {i : Nat} (inside : i < nrTasks)
    (alive : k.Alive i) :
    ((k.tasks i).pwd ≠ 0 → 0 < k.vfs.references (k.tasks i).pwd) ∧
      ((k.tasks i).root ≠ 0 → 0 < k.vfs.references (k.tasks i).root) := by
  have counted (directory : Task → Nat) : 0 < k.tasksWith directory (directory (k.tasks i)) :=
    Finset.card_pos.mpr ⟨i, by simp [mem_below, inside, alive]⟩
  constructor
  · intro nonnull
    have := counted (·.pwd)
    rw [balanced _ nonnull]
    omega
  · intro nonnull
    have := counted (·.root)
    rw [balanced _ nonnull]
    omega

/-! ## Descriptors -/

/-- Changing a descriptor keeps the directories. -/
theorem setFile_directories (k : Kernel) (fd f : Nat) : SameDirectories k (k.setFile fd f) := by
  refine ⟨alive_of_slot fun i => setFile_slot k fd f i, fun i => ?_, fun i => ?_⟩ <;>
    · rw [setFile, setTask_tasks]
      split
      · rename_i same
        rw [same]
      · rfl

/-- States with the same tasks have the same directories. -/
theorem SameDirectories.of_tasks (same : k'.tasks = k.tasks) : SameDirectories k k' := by
  refine ⟨fun i => ?_, fun i => ?_, fun i => ?_⟩
  · rw [Alive, Alive, same]
  · rw [same]
  · rw [same]

/-- Giving back a reference to a counted file keeps the balance: the vnode of the file is put
when the file is freed. -/
theorem Balanced.putFile (balanced : Balanced boot k) (cached : k.vfs.Cached) {f : Nat}
    {file : File} (live : k.file.lookup f = some file) :
    Balanced boot (k.putFile f) ∧ (k.putFile f).vfs.Cached := by
  have same := SameDirectories.of_tasks (putFile_frame k f).1
  unfold Kernel.putFile at same ⊢
  rw [live] at same ⊢
  dsimp only at same ⊢
  split at same
  · rename_i zero
    rw [if_pos zero]
    exact ⟨balanced, cached⟩
  · rename_i positive
    rw [if_neg positive]
    split at same
    · rename_i last
      rw [if_pos last]
      refine ⟨fun node nonnull => ?_, cached.iput _⟩
      rw [same.tasksWith_pwd, same.tasksWith_root]
      have files : (k.closeFile f file).filesOn node +
          (if (file.node == node) = true then 1 else 0) = k.filesOn node :=
        Store.count_erase live
      have before := balanced node nonnull
      by_cases null : file.node = 0
      · have kept : (k.closeFile f file).vfs = k.vfs := by
          simp only [closeFile, null]
          exact Vfs.iput_of_absent cached.null
        rw [null, if_neg (by simpa using Ne.symm nonnull)] at files
        rw [kept]
        omega
      · have held : 0 < k.vfs.references file.node := by
          have counted : 0 < k.filesOn file.node := Store.count_pos live (by simp)
          rw [balanced _ null]
          omega
        have put : (k.closeFile f file).vfs.references node +
            (if node = file.node then 1 else 0) = k.vfs.references node :=
          Vfs.iput_references cached held node
        simp only [beq_iff_eq, eq_comm (a := file.node)] at files
        omega
    · rename_i shared
      rw [if_neg shared]
      refine ⟨(same.balanced (fun node => Store.count_congr fun g => ?_) fun _ => rfl).mpr
        balanced, cached⟩
      rw [Store.lookup_insert_eq]
      split
      · rename_i here
        rw [here, live]
        rfl
      · rfl

/-- `sys_close` keeps the balance. -/
theorem Balanced.sysClose (balanced : Balanced boot k) (cached : k.vfs.Cached)
    (counted : k.Counted) (inside : k.currentTask < nrTasks) (inUse : k.current.InUse)
    (fd : Int) : Balanced boot (k.sysClose fd).1 ∧ (k.sysClose fd).1.vfs.Cached := by
  unfold Kernel.sysClose
  split
  · exact ⟨balanced, cached⟩
  · rename_i inRange
    dsimp only
    split
    · exact ⟨balanced, cached⟩
    · rename_i nonnull
      obtain ⟨file, live⟩ : ∃ file, k.file.lookup (k.current.files fd.toNat) = some file :=
        counted.lookup_slot inside inUse (by omega) nonnull
      have cleared : Balanced boot (k.setFile fd.toNat 0) :=
        ((setFile_directories k fd.toNat 0).balanced (fun _ => rfl) fun _ => rfl).mpr balanced
      exact cleared.putFile cached live

/-- Closing a descriptor keeps the directories. -/
theorem sysClose_directories (k : Kernel) (fd : Int) : SameDirectories k (k.sysClose fd).1 := by
  unfold Kernel.sysClose
  split
  · exact .of_tasks rfl
  · dsimp only
    split
    · exact .of_tasks rfl
    · exact (setFile_directories k fd.toNat 0).trans (.of_tasks (putFile_frame _ _).1)

/-- `sys_dup2` keeps the balance. -/
theorem Balanced.sysDup2 (balanced : Balanced boot k) (cached : k.vfs.Cached)
    (counted : k.Counted) (inside : k.currentTask < nrTasks) (inUse : k.current.InUse)
    (fd fd2 : Int) : Balanced boot (k.sysDup2 fd fd2).1 ∧ (k.sysDup2 fd fd2).1.vfs.Cached := by
  unfold Kernel.sysDup2
  split
  · exact ⟨balanced, cached⟩
  · split
    · exact ⟨balanced, cached⟩
    · dsimp only
      obtain ⟨balanced', cached'⟩ := balanced.sysClose cached counted inside inUse fd2
      generalize (k.sysClose fd2).1 = closed at *
      refine ⟨?_, cached'⟩
      have same := setFile_directories closed fd2.toNat (closed.current.files fd.toNat)
      have filled : Balanced boot (closed.setFile fd2.toNat (closed.current.files fd.toNat)) :=
        (same.balanced (fun _ => rfl) fun _ => rfl).mpr balanced'
      refine ((SameDirectories.of_tasks ?_).balanced (fun node => Store.count_congr fun f => ?_)
        fun _ => ?_).mpr filled
      · rfl
      swap
      · rfl
      rw [Store.lookup_modify]
      split
      · rename_i here
        rw [here, Option.map_map]
        rfl
      · rfl

/-! ## Path resolution

What is assumed of `namei`: it keeps the vnode caches, and adds exactly one reference to the
vnode it returns and none otherwise. -/

/-- `namei` adds one reference to the vnode it returns. -/
structure NameiExact (namei : PathResolver) : Prop where
  cached : ∀ v task name, v.Cached → (namei v task name).1.Cached
  references : ∀ v task name node, v.Cached → node ≠ 0 →
    (namei v task name).1.references node =
      v.references node + if (namei v task name).2.1 = node then 1 else 0

/-- `sys_open` keeps the balance. -/
theorem Balanced.sysOpen {namei : PathResolver} (exact : NameiExact namei)
    (balanced : Balanced boot k) (cached : k.vfs.Cached) (blocks : Blocks)
    (filename : CString) (flag : Nat) :
    Balanced boot (k.sysOpen namei blocks filename flag).1 ∧
      (k.sysOpen namei blocks filename flag).1.vfs.Cached := by
  have cached' := exact.cached k.vfs k.current filename cached
  have references (node : Nat) (nonnull : node ≠ 0) :=
    exact.references k.vfs k.current filename node cached nonnull
  rcases sysOpen_cases namei blocks k filename flag with ⟨same, _⟩ | ⟨_, missing, same⟩ |
    ⟨resolved, fd, f, file, found, nonzero, fresh, onNode, _, same⟩
  · rw [same]
    exact ⟨balanced, cached⟩
  · rw [same]
    refine ⟨fun node nonnull => ?_, cached'⟩
    have unchanged := references node nonnull
    rw [missing, if_neg (Ne.symm nonnull), Nat.add_zero] at unchanged
    exact unchanged.trans (balanced node nonnull)
  · rw [same]
    refine ⟨fun node nonnull => ?_, cached'⟩
    have resolved : SameDirectories k { k with
        vfs := (namei k.vfs k.current filename).1
        file := k.file.insert f file } := .of_tasks rfl
    have directories := resolved.trans (setFile_directories _ fd f)
    rw [directories.tasksWith_pwd, directories.tasksWith_root]
    have files : Store.count (AList.insert f file k.file) (·.node == node) =
        k.filesOn node + if (file.node == node) = true then 1 else 0 :=
      Store.count_insert fresh file
    have before := balanced node nonnull
    have after := references node nonnull
    rw [← onNode] at after
    simp only [beq_iff_eq] at files
    simp only [filesOn, setFile, setTask] at files before ⊢
    omega

/-- `sys_chdir` and `sys_chroot` keep the balance exactly when no vnode is found, or the vnode
is a directory and replaces none. -/
theorem Balanced.changeDirectory {namei : PathResolver} (exact : NameiExact namei)
    (balanced : Balanced boot k) (cached : k.vfs.Cached) (inside : k.currentTask < nrTasks)
    (alive : k.Alive k.currentTask) (name : CString) (record : Task → Nat → Task)
    (changed kept : Task → Nat) (slot : ∀ t node, (record t node).slot = t.slot)
    (recorded : ∀ t node, changed (record t node) = node)
    (frame : ∀ t node, kept (record t node) = kept t)
    (holders : ∀ (k : Kernel) node, k.tasksWith changed node + k.tasksWith kept node =
      k.tasksWith (·.pwd) node + k.tasksWith (·.root) node) :
    (k.changeDirectory namei name record).1.vfs.Cached ∧
      (Balanced boot (k.changeDirectory namei name record).1 ↔
        (namei k.vfs k.current name).2.1 = 0 ∨
          Kernel.isDir { k with vfs := (namei k.vfs k.current name).1 }
              (namei k.vfs k.current name).2.1 = true ∧ changed k.current = 0) := by
  have cached' := exact.cached k.vfs k.current name cached
  have references (node : Nat) (nonnull : node ≠ 0) :=
    exact.references k.vfs k.current name node cached nonnull
  set node := (namei k.vfs k.current name).2.1 with node_def
  rcases changeDirectory_cases namei k name record with ⟨same, rejected⟩ | ⟨resolved, isDir, same⟩
  · rw [same]
    refine ⟨cached', ?_⟩
    have failed (null : node = 0) :
        Balanced boot { k with vfs := (namei k.vfs k.current name).1 } := by
      intro other nonnull
      have unchanged := references other nonnull
      rw [null, if_neg (Ne.symm nonnull), Nat.add_zero] at unchanged
      exact unchanged.trans (balanced other nonnull)
    have holders' (other : Nat) :
        Kernel.tasksWith { k with vfs := (namei k.vfs k.current name).1 } (·.pwd) other +
          Kernel.tasksWith { k with vfs := (namei k.vfs k.current name).1 } (·.root) other =
        k.tasksWith (·.pwd) other + k.tasksWith (·.root) other := rfl
    constructor
    · intro balanced'
      by_contra leaks
      have nonnull : node ≠ 0 := fun null => leaks (.inl null)
      have after := balanced' node nonnull
      have before := balanced node nonnull
      have taken := references node nonnull
      rw [if_pos rfl] at taken
      rw [holders'] at after
      simp only [filesOn] at before after
      omega
    · rintro (null | ⟨isDir, _⟩)
      · exact failed null
      · rcases rejected with null | notDir
        · exact failed null
        · rw [isDir] at notDir
          cases notDir
  · rw [same]
    refine ⟨cached', ?_⟩
    set k' := Kernel.setTask { k with vfs := (namei k.vfs k.current name).1 } k.currentTask
      fun t => record t node with recorded_def
    have tasks (i : Nat) : k'.tasks i = if i = k.currentTask then record (k.tasks i) node
        else k.tasks i := by
      rw [recorded_def, setTask_tasks]
      split
      · rename_i here
        rw [here]
      · rfl
    have slots (i : Nat) : (k'.tasks i).slot = (k.tasks i).slot := by
      rw [tasks]
      split
      · exact slot _ _
      · rfl
    have taken : k'.directoryOf changed =
        Function.update (k.directoryOf changed) k.currentTask node := by
      funext i
      rw [directoryOf, tasks]
      by_cases here : i = k.currentTask
      · rw [here, Function.update_self, if_pos ((alive_of_slot slots _).mpr alive), if_pos rfl,
          recorded]
      · rw [Function.update_of_ne here, if_neg here, directoryOf]
        simp only [alive_of_slot slots]
    have unchanged (other : Nat) : k'.tasksWith kept other = k.tasksWith kept other := by
      refine congrArg Finset.card (Finset.filter_congr fun i _ => ?_)
      rw [alive_of_slot slots, tasks]
      split
      · rw [frame]
      · rfl
    have old : k.directoryOf changed k.currentTask = changed k.current := if_pos alive
    have equation (other : Nat) (nonnull : other ≠ 0) :
        k'.vfs.references other = boot.references other + k'.filesOn other +
            (k'.tasksWith (·.pwd) other + k'.tasksWith (·.root) other) +
          if changed k.current = other then 1 else 0 := by
      have before := balanced other nonnull
      have after : k'.vfs.references other = _ := references other nonnull
      have replaced := tasksWith_update inside nonnull taken
      have kept := unchanged other
      have sum := holders k other
      have sum' := holders k' other
      have files : k'.filesOn other = k.filesOn other := rfl
      rw [old] at replaced
      omega
    constructor
    · intro balanced'
      by_contra leaks
      have nonnull : changed k.current ≠ 0 := fun null => leaks (.inr ⟨isDir, null⟩)
      have after := balanced' _ nonnull
      have leaked := equation _ nonnull
      rw [if_pos rfl] at leaked
      omega
    · rintro (null | ⟨_, null⟩)
      · exact absurd null resolved
      · intro other nonnull
        rw [equation other nonnull, null, if_neg (Ne.symm nonnull), Nat.add_zero]

/-! ## Fork -/

/-- `if (node) node->count++` of null or a live vnode. -/
theorem holdNode_references {v : Vfs} {held : Nat} (live : held ≠ 0 → 0 < v.references held)
    (nonnull : node ≠ 0) : (holdNode exactWidth v held).references node =
      v.references node + if held = node then 1 else 0 := by
  unfold holdNode
  split
  · rename_i null
    rw [null, if_neg (Ne.symm nonnull), Nat.add_zero]
  · rename_i some_node
    obtain ⟨n, found, _⟩ := Vfs.live_of_references (live some_node)
    rw [Vfs.hold_references found]
    simp only [eq_comm]

/-- `if (node) node->count++` keeps the caches. -/
theorem holdNode_cached {v : Vfs} (cached : v.Cached) (width node : Nat) :
    (holdNode width v node).Cached := by
  unfold holdNode
  split
  · exact cached
  · exact cached.hold width node

/-- The loop of `sys_fork` changes counts only. -/
theorem holdFiles_node (files : Nat → Nat) (bound : Nat) (store : Store File) (f : Nat) :
    ((holdFiles files bound store).lookup f).map (·.node) = (store.lookup f).map (·.node) := by
  induction bound generalizing store with
  | zero => rfl
  | succ fd ih =>
    rw [holdFiles, ih]
    split
    · rfl
    · rw [Store.lookup_modify]
      split
      · rename_i here
        rw [here, Option.map_map]
        rfl
      · rfl

/-- The tasks alive after a fork. -/
theorem sysFork_alive {child : Nat} (width : Nat) (blocks : Blocks) (found : k.freeSlot = some child)
    (inUse : k.current.InUse) (i : Nat) :
    (k.sysFork width blocks).1.Alive i ↔ i = child ∨ k.Alive i := by
  have slot := sysFork_slot width blocks found inUse i
  have apart : k.currentTask ≠ child := by
    rintro rfl
    exact (freeSlot_some found).2 inUse
  rw [Alive, Task.InUse]
  by_cases parent : i = k.currentTask
  · rw [if_pos parent] at slot
    simp only [Task.slot, Prod.mk.injEq] at slot
    rw [slot.1, slot.2.1, parent]
    simp only [apart, false_or]
    rfl
  · rw [if_neg parent] at slot
    by_cases here : i = child
    · rw [if_pos here] at slot
      simp only [Task.slot, Prod.mk.injEq] at slot
      rw [slot.1, slot.2.1, noTask]
      simp only [here, true_or, iff_true]
      exact ⟨by omega, by decide⟩
    · rw [if_neg here] at slot
      simp only [Task.slot, Prod.mk.injEq] at slot
      rw [slot.1, slot.2.1]
      simp only [here, false_or]
      rfl

/-- A fork gives the directories of the parent to the child as well. -/
theorem sysFork_directory {child : Nat} (width : Nat) (blocks : Blocks) (found : k.freeSlot = some child)
    (inUse : k.current.InUse)
    (forked : ∀ t i d, directory (forkedTask t i d) = directory t)
    (moved : ∀ (t : Task) stack, directory { t with kernelStack := stack } = directory t) :
    (k.sysFork width blocks).1.directoryOf directory =
      Function.update (k.directoryOf directory) child (directory k.current) := by
  have apart : k.currentTask ≠ child := by
    rintro rfl
    exact (freeSlot_some found).2 inUse
  have kept (i : Nat) : directory ((k.sysFork width blocks).1.tasks i) =
      if i = child then directory k.current else directory (k.tasks i) := by
    simp only [sysFork, found, setTask_tasks, Function.update_apply]
    by_cases parent : i = k.currentTask
    · rw [if_pos parent, moved, if_neg apart, if_neg (parent ▸ apart), parent]
    · rw [if_neg parent]
      split
      · exact forked _ _ _
      · rfl
  funext i
  rw [directoryOf, kept]
  by_cases here : i = child
  · rw [here, Function.update_self, if_pos ((sysFork_alive width blocks found inUse child).mpr (.inl rfl)),
      if_pos rfl]
  · rw [Function.update_of_ne here, if_neg here, directoryOf]
    simp only [sysFork_alive width blocks found inUse, here, false_or]

/-- `sys_fork` keeps the balance. -/
theorem Balanced.sysFork (balanced : Balanced boot k) (cached : k.vfs.Cached)
    (inside : k.currentTask < nrTasks) (alive : k.Alive k.currentTask) (blocks : Blocks) :
    Balanced boot (k.sysFork exactWidth blocks).1 ∧
      (k.sysFork exactWidth blocks).1.vfs.Cached := by
  cases found : k.freeSlot with
  | none =>
    simp only [Kernel.sysFork, found]
    exact ⟨balanced, cached⟩
  | some child =>
    obtain ⟨inside', free⟩ := freeSlot_some found
    obtain ⟨livePwd, liveRoot⟩ : (k.current.pwd ≠ 0 → 0 < k.vfs.references k.current.pwd) ∧
        (k.current.root ≠ 0 → 0 < k.vfs.references k.current.root) := balanced.held inside alive
    have vfs : (k.sysFork exactWidth blocks).1.vfs =
        holdNode exactWidth (holdNode exactWidth k.vfs k.current.pwd) k.current.root := by
      simp only [Kernel.sysFork, found]
      rfl
    have file : (k.sysFork exactWidth blocks).1.file = holdFiles k.current.files nrOpen k.file := by
      simp only [Kernel.sysFork, found]
      rfl
    refine ⟨fun node nonnull => ?_, by
      rw [vfs]
      exact holdNode_cached (holdNode_cached cached _ _) _ _⟩
    have empty (directory : Task → Nat) : k.directoryOf directory child = 0 :=
      if_neg fun alive => free alive.1
    have taken (directory : Task → Nat)
        (forked : ∀ t i d, directory (forkedTask t i d) = directory t)
        (moved : ∀ (t : Task) stack, directory { t with kernelStack := stack } = directory t) :
        (k.sysFork exactWidth blocks).1.tasksWith directory node =
          k.tasksWith directory node + if directory k.current = node then 1 else 0 := by
      have update := tasksWith_update inside' nonnull
        (sysFork_directory exactWidth blocks found alive.1 forked moved)
      rwa [empty, if_neg (Ne.symm nonnull), Nat.add_zero] at update
    have pwd : _ = _ + if k.current.pwd = node then 1 else 0 :=
      taken (·.pwd) (fun _ _ _ => rfl) fun _ _ => rfl
    have root : _ = _ + if k.current.root = node then 1 else 0 :=
      taken (·.root) (fun _ _ _ => rfl) fun _ _ => rfl
    have files : (k.sysFork exactWidth blocks).1.filesOn node = k.filesOn node := by
      refine Store.count_congr fun f => ?_
      have same := congrArg (Option.map (· == node)) (holdFiles_node k.current.files nrOpen k.file f)
      rw [file]
      simpa only [Option.map_map, Function.comp_def] using same
    have first (other : Nat) (nonnull : other ≠ 0) :=
      holdNode_references livePwd nonnull
    have liveRoot' (some_root : k.current.root ≠ 0) :
        0 < (holdNode exactWidth k.vfs k.current.pwd).references k.current.root := by
      have kept := first _ some_root
      have := liveRoot some_root
      omega
    have second := holdNode_references liveRoot' nonnull
    have before := balanced node nonnull
    have held := first node nonnull
    rw [vfs, files]
    omega

/-! ## Exit -/

/-- Closing the descriptors below a bound keeps the balance. -/
theorem Balanced.closeAll (balanced : Balanced boot k) (cached : k.vfs.Cached)
    (counted : k.Counted) (inside : k.currentTask < nrTasks) (inUse : k.current.InUse)
    (bound : Nat) :
    Balanced boot (Kernel.closeAll bound k) ∧ (Kernel.closeAll bound k).vfs.Cached ∧
      SameDirectories k (Kernel.closeAll bound k) := by
  induction bound generalizing k with
  | zero => exact ⟨balanced, cached, .of_tasks rfl⟩
  | succ fd ih =>
    obtain ⟨balanced', cached'⟩ := balanced.sysClose cached counted inside inUse fd
    obtain ⟨counted', _⟩ := counted.sysClose inside inUse fd
    obtain ⟨slot, current, _⟩ := sysClose_slot k fd k.currentTask
    have pid : ((k.sysClose fd).1.tasks k.currentTask).pid = k.current.pid :=
      congrArg (·.1) slot
    obtain ⟨balanced'', cached'', same⟩ := ih balanced' cached' counted' (by rwa [current])
      (by rwa [Kernel.current, current, Task.InUse, pid])
    exact ⟨balanced'', cached'', (sysClose_directories k fd).trans same⟩

/-- A dispatch of a task that has not exited keeps the tasks alive. -/
theorem dispatch_alive {next : Nat} (alive : k.Alive next) (i : Nat) :
    (k.dispatch next).Alive i ↔ k.Alive i := by
  simp only [Alive, dispatch_tasks, Task.InUse]
  by_cases here : i = next
  · subst here
    simp only [if_true, ne_eq, reduceCtorEq, not_false_eq_true, and_true]
    exact ⟨fun _ => alive, fun alive => alive.1⟩
  · simp only [if_neg here, ne_eq, stateAtSchedule_zombie]

/-- After `sys_exit` of a task other than the kernel task all others are alive as before. -/
theorem sysExit_alive (table : k.TableInvariant) (status : Int) (user : k.current.pid ≠ 0)
    (i : Nat) : (k.sysExit status).Alive i ↔ k.Alive i ∧ i ≠ k.currentTask := by
  obtain ⟨left, ends, current, freed, slots⟩ := sysExit_slot k status user
  have switchable := table.left user current freed slots
  rw [ends, switchTask_eq_dispatch, dispatch_alive switchable.next.2]
  have slot := slots i
  by_cases here : i = k.currentTask
  · rw [if_pos here] at slot
    simp only [Task.slot, Prod.mk.injEq] at slot
    constructor
    · exact fun alive => absurd slot.2.1 alive.2
    · exact fun other => absurd here other.2
  · rw [if_neg here] at slot
    simp only [Task.slot, Prod.mk.injEq] at slot
    simp only [Alive, Task.InUse, slot.1, slot.2.1, here, ne_eq, not_false_eq_true, and_true]

/-- `sys_exit` keeps the balance exactly when the task has neither directory, or halts the
processor. -/
theorem Balanced.sysExit (balanced : Balanced boot k) (cached : k.vfs.Cached)
    (invariant : k.FileInvariant) (status : Int) :
    (k.sysExit status).vfs.Cached ∧ (Balanced boot (k.sysExit status) ↔
      k.current.pid = 0 ∨ k.current.pwd = 0 ∧ k.current.root = 0) := by
  obtain ⟨inside, inUse, running⟩ := invariant.current
  have orphaned := orphanChildren_holdings k
  have inUse' : k.orphanChildren.current.InUse := by
    rw [Task.InUse, Kernel.current, orphaned.pid]
    exact inUse
  have orphans : SameDirectories k k.orphanChildren :=
    ⟨alive_of_slot (orphanChildren_slot k), orphaned.pwd, orphaned.root⟩
  have balanced' : Balanced boot k.orphanChildren :=
    (orphans.balanced (fun _ => rfl) fun _ => rfl).mpr balanced
  obtain ⟨closed, closedCached, same⟩ := balanced'.closeAll cached
    (invariant.counted.same orphaned) inside inUse' nrOpen
  have ended := sysExit_holdings k status
  have directories := orphans.trans same
  generalize Kernel.closeAll nrOpen k.orphanChildren = left at *
  have files (node : Nat) : (k.sysExit status).filesOn node = left.filesOn node := by
    rw [filesOn, ended.file]
    rfl
  refine ⟨by rwa [ended.vfs], ?_⟩
  by_cases halts : k.current.pid = 0
  · have slots := (sysExit_kernelTask status halts).1
    have unchanged : SameDirectories left (k.sysExit status) :=
      ⟨fun i => (alive_of_slot slots i).trans (directories.alive i).symm, ended.pwd, ended.root⟩
    have kept : Balanced boot (k.sysExit status) :=
      (unchanged.balanced files fun node => by rw [ended.vfs]).mpr closed
    exact ⟨fun _ => .inl halts, fun _ => kept⟩
  · have alive := sysExit_alive invariant.toTableInvariant status halts
    have current : k.Alive k.currentTask := ⟨inUse, by
      rw [Kernel.current] at running
      simp [running]⟩
    have dropped (directory : Task → Nat)
        (kept : ∀ i, directory ((k.sysExit status).tasks i) = directory (k.tasks i)) :
        (k.sysExit status).directoryOf directory =
          Function.update (k.directoryOf directory) k.currentTask 0 := by
      funext i
      rw [directoryOf, kept]
      by_cases here : i = k.currentTask
      · rw [here, Function.update_self, if_neg fun still => ((alive _).mp still).2 rfl]
      · rw [Function.update_of_ne here, directoryOf]
        simp only [alive, ne_eq, here, not_false_eq_true, and_true]
    have equation (node : Nat) (nonnull : node ≠ 0) :
        (k.sysExit status).vfs.references node = boot.references node +
            (k.sysExit status).filesOn node + ((k.sysExit status).tasksWith (·.pwd) node +
              (k.sysExit status).tasksWith (·.root) node) +
          ((if k.current.pwd = node then 1 else 0) + if k.current.root = node then 1 else 0) := by
      have given (directory : Task → Nat)
          (kept : ∀ i, directory ((k.sysExit status).tasks i) = directory (k.tasks i)) :
          (k.sysExit status).tasksWith directory node +
              (if directory k.current = node then 1 else 0) = k.tasksWith directory node := by
        have update := tasksWith_update inside nonnull (dropped directory kept)
        rwa [directoryOf, if_pos current, if_neg (Ne.symm nonnull), Nat.add_zero] at update
      have pwd : _ + (if k.current.pwd = node then 1 else 0) = _ :=
        given (·.pwd) fun i => (ended.pwd i).trans (directories.pwd i)
      have root : _ + (if k.current.root = node then 1 else 0) = _ :=
        given (·.root) fun i => (ended.root i).trans (directories.root i)
      have before := closed node nonnull
      rw [directories.tasksWith_pwd, directories.tasksWith_root] at before
      rw [ended.vfs, files]
      omega
    constructor
    · intro balanced''
      right
      constructor
      · by_contra nonnull
        have leaked := equation _ nonnull
        rw [balanced'' _ nonnull, if_pos rfl] at leaked
        omega
      · by_contra nonnull
        have leaked := equation _ nonnull
        rw [balanced'' _ nonnull, if_pos (rfl : k.current.root = k.current.root)] at leaked
        omega
    · rintro (zero | ⟨noPwd, noRoot⟩)
      · exact absurd zero halts
      · intro node nonnull
        have leaked := equation node nonnull
        rw [noPwd, noRoot, if_neg (Ne.symm nonnull)] at leaked
        omega

/-! ## Runs -/

/-- The vnode a path names, if any, is a directory and replaces none. -/
def Takes (namei : PathResolver) (k : Kernel) (name : CString) (old : Nat) : Prop :=
  (namei k.vfs k.current name).2.1 = 0 ∨
    Kernel.isDir { k with vfs := (namei k.vfs k.current name).1 }
      (namei k.vfs k.current name).2.1 = true ∧ old = 0

/-- The calls that keep the balance: a directory is not set twice nor to a vnode that is none,
and a task that exits has neither directory. -/
def KeepsBalance (namei : PathResolver) (k : Kernel) : FileCall → Prop
  | .sysChdir name => Takes namei k name k.current.pwd
  | .sysChroot name => k.current.isRoot = false ∨ Takes namei k name k.current.root
  | .sysExit _ => k.current.pid = 0 ∨ k.current.pwd = 0 ∧ k.current.root = 0
  | _ => True

/-- The invariant of the runs that keep the balance. -/
structure BalanceInvariant (boot : Vfs) (k : Kernel) : Prop extends FileInvariant k where
  cached : k.vfs.Cached
  balanced : Balanced boot k

/-- `setup_tasking` establishes the invariant. -/
theorem setupTasking_balance (blocks : Blocks) {boot : Kernel} (none : boot.file = ∅)
    (cached : boot.vfs.Cached) :
    BalanceInvariant boot.vfs (setupTasking blocks boot) := by
  refine ⟨setupTasking_files blocks none, cached, fun node nonnull => ?_⟩
  have files : (setupTasking blocks boot).filesOn node = 0 := by
    have empty : (setupTasking blocks boot).file = ∅ := none
    rw [filesOn, empty]
    rfl
  have unset (directory : Task → Nat)
      (zero : directory ((setupTasking blocks boot).tasks 0) = 0) :
      (setupTasking blocks boot).tasksWith directory node = 0 := by
    refine Finset.card_eq_zero.mpr (Finset.filter_eq_empty_iff.mpr fun i member => ?_)
    rintro ⟨alive, here⟩
    by_cases first : i = 0
    · rw [first, zero] at here
      exact nonnull here.symm
    · have inside := mem_below.mp member
      have free := alive.1
      simp [setupTasking, first, inside, Task.InUse] at free
  rw [files, unset _ rfl, unset _ rfl]
  rfl

/-- Reaping a task that has exited keeps the directories. -/
theorem reap_directories {i : Nat} (zombie : (k.tasks i).state = .zombie) :
    SameDirectories k (k.setTask i fun t => { t with pid := noTask }) := by
  have tasks (j : Nat) := setTask_tasks k i j fun t => { t with pid := noTask }
  refine ⟨fun j => ?_, fun j => ?_, fun j => ?_⟩
  · rw [Alive, tasks]
    split
    · rename_i here
      constructor
      · exact fun alive => absurd rfl alive.1
      · exact fun alive => absurd (here ▸ zombie) alive.2
    · rfl
  · rw [tasks]
    split
    · rename_i here
      rw [here]
    · rfl
  · rw [tasks]
    split
    · rename_i here
      rw [here]
    · rfl

/-- A step keeps the rest of the invariant, and the balance exactly when it is one of the calls
that do. -/
theorem BalanceInvariant.step {namei : PathResolver} (exact : NameiExact namei)
    {call : FileCall} (invariant : BalanceInvariant boot k)
    (step : FileStep namei exactWidth k call k') :
    k'.vfs.Cached ∧ (Balanced boot k' ↔ KeepsBalance namei k call) := by
  obtain ⟨inside, inUse, running⟩ := invariant.current
  have counted := invariant.counted
  have balanced := invariant.balanced
  have cached := invariant.cached
  have alive : k.Alive k.currentTask := ⟨inUse, by
    rw [Kernel.current] at running
    simp [running]⟩
  have kept {l : Kernel} (both : Balanced boot l ∧ l.vfs.Cached) :
      l.vfs.Cached ∧ (Balanced boot l ↔ True) := ⟨both.2, iff_true_intro both.1⟩
  cases step with
  | @dispatch next inside' inUse' awake =>
    have same : SameDirectories k (k.dispatch next) :=
      ⟨dispatch_alive ⟨inUse', awake⟩, (dispatch_holdings k next).pwd,
        (dispatch_holdings k next).root⟩
    exact kept ⟨(same.balanced (fun _ => rfl) fun _ => rfl).mpr balanced, cached⟩
  | sysOpen blocks filename flag =>
    exact kept (balanced.sysOpen exact cached blocks filename flag)
  | sysClose fd => exact kept (balanced.sysClose cached counted inside inUse fd)
  | sysDup fd =>
    unfold Kernel.sysDup
    split
    · exact kept ⟨balanced, cached⟩
    · exact kept (balanced.sysDup2 cached counted inside inUse fd _)
  | sysDup2 _ => exact kept (balanced.sysDup2 cached counted inside inUse _ _)
  | sysChdir name =>
    exact balanced.changeDirectory exact cached inside alive name
      (fun t node => { t with pwd := node }) (·.pwd) (·.root)
      (fun _ _ => rfl) (fun _ _ => rfl) (fun _ _ => rfl) fun _ _ => rfl
  | sysChroot name =>
    unfold Kernel.sysChroot
    split
    · rename_i denied
      have notRoot : k.current.isRoot = false := by simpa using denied
      exact ⟨cached, iff_of_true balanced (.inl notRoot)⟩
    · rename_i allowed
      have isRoot : k.current.isRoot = true := by simpa using allowed
      obtain ⟨cached', exactly⟩ := balanced.changeDirectory exact cached inside alive name
        (fun t node => { t with root := node }) (·.root) (·.pwd)
        (fun _ _ => rfl) (fun _ _ => rfl) (fun _ _ => rfl) fun _ _ => Nat.add_comm _ _
      refine ⟨cached', exactly.trans ⟨.inr, fun condition => ?_⟩⟩
      rcases condition with denied | takes
      · rw [isRoot] at denied
        cases denied
      · exact takes
  | sysFork blocks => exact kept (balanced.sysFork cached inside alive blocks)
  | sysExit status => exact balanced.sysExit cached invariant.toFileInvariant status
  | sysWaitpid returns =>
    rcases sysWaitpid_cases returns with ⟨rfl, _⟩ | ⟨_, _, zombie, rfl⟩
    · exact kept ⟨balanced, cached⟩
    · exact kept ⟨((reap_directories zombie).balanced (fun _ => rfl) fun _ => rfl).mpr balanced,
        cached⟩

/-- Paths of calls that keep the balance keep the invariant. -/
theorem balanceInvariant_of_path {namei : PathResolver} (exact : NameiExact namei)
    {calls : List FileCall} (invariant : BalanceInvariant boot k)
    (path : (fileSystem namei exactWidth).Path (KeepsBalance namei) k calls k') :
    BalanceInvariant boot k' := by
  refine path.keeps (BalanceInvariant boot) (fun l call l' invariant keeps step => ?_) invariant
  obtain ⟨cached, exactly⟩ := invariant.step exact step
  exact ⟨(invariant.toFileInvariant.step step).1, cached, exactly.mpr keeps⟩

end Kernel

/-- The references on vnodes: in every run of calls that keep the balance each vnode has the
references of the boot and one for each open-file object on it, each task that has not exited
in it and each task that has not exited rooted at it; and any other call breaks this. -/
theorem vnode_references_balance {namei : PathResolver} (exact : Kernel.NameiExact namei)
    {blocks : Blocks} {boot k : Kernel} {calls : List FileCall} (none : boot.file = ∅)
    (cached : boot.vfs.Cached)
    (path : (fileSystem namei exactWidth).Path (Kernel.KeepsBalance namei)
      (Kernel.setupTasking blocks boot) calls k) :
    Kernel.Balanced boot.vfs k ∧ ∀ call k', FileStep namei exactWidth k call k' →
      (Kernel.Balanced boot.vfs k' ↔ Kernel.KeepsBalance namei k call) := by
  have invariant := Kernel.balanceInvariant_of_path exact
    (Kernel.setupTasking_balance blocks none cached) path
  exact ⟨invariant.balanced, fun call k' step => (invariant.step exact step).2⟩

/-! A second `chdir` to the root directory keeps the reference of the first. -/

namespace LeakedDirectory

/-- Path resolution of `/`: the root vnode with one more reference. -/
def resolveRoot : PathResolver := fun v _ _ =>
  if (v.vnode.lookup v.rootVnode).isSome then (v.hold exactWidth v.rootVnode, v.rootVnode, 0)
  else (v, 0, -ENOENT)

/-- It adds exactly the reference it returns. -/
theorem resolveRoot_exact : Kernel.NameiExact resolveRoot := by
  refine ⟨fun v task name cached => ?_, fun v task name node cached nonnull => ?_⟩
  · unfold resolveRoot
    split
    · exact cached.hold _ _
    · exact cached
  · unfold resolveRoot
    split
    · rename_i some_root
      obtain ⟨n, live⟩ := Option.isSome_iff_exists.mp some_root
      rw [Vfs.hold_references live]
      simp only [eq_comm]
    · rw [if_neg (Ne.symm nonnull), Nat.add_zero]

/-- A booted kernel with the root directory as its only vnode. -/
def boot : Kernel where
  tasks _ := {}
  vfs := {
    vnode := AList.insert 1 { ino := 0, count := 1, sb := 7, attributes := { flags := 2 } } ∅
    superBlock := AList.insert 7 { sOp := some ⟨none⟩, root := 1, cache := 1 } ∅
    rootVnode := 1 }

/-- Its vnode cache is well formed. -/
theorem boot_cached : boot.vfs.Cached := by
  have only {node : Nat} {n : Vnode} (live : boot.vfs.vnode.lookup node = some n) :
      node = 1 ∧ n.sb = 7 := by
    simp only [boot, Store.lookup_insert_eq] at live
    split at live
    · rename_i here
      exact ⟨here, by rw [← Option.some.inj live]⟩
    · simp at live
  refine ⟨fun node n live => ?_, fun sb block found => ?_, fun node other n m live live' _ _ => ?_⟩
  · rw [(only live).2]
    exact ⟨_, AList.lookup_insert _, rfl⟩
  · simp only [boot, Store.lookup_insert_eq] at found
    split at found
    · rename_i here
      subst here
      refine ⟨[1], ?_, fun node => ?_⟩
      · rw [← Option.some.inj found]
        exact ⟨rfl, by decide, rfl⟩
      · rw [List.mem_singleton]
        constructor
        · rintro rfl
          exact ⟨_, AList.lookup_insert _, rfl⟩
        · rintro ⟨n, live, _⟩
          exact (only live).1
    · simp at found
  · rw [(only live).1, (only live').1]

/-- The kernel once task 0 runs. -/
def start : Kernel := Kernel.setupTasking Blocks.above boot

/-- The kernel after the first `chdir`. -/
def entered : Kernel := (start.sysChdir resolveRoot [47]).1

/-- The first `chdir` replaces no directory. -/
theorem start_keeps : Kernel.KeepsBalance resolveRoot start (.sysChdir [47]) :=
  .inr ⟨by decide, rfl⟩

/-- The second one does. -/
theorem entered_leaks : ¬Kernel.KeepsBalance resolveRoot entered (.sysChdir [47]) := by
  rintro (null | ⟨_, null⟩)
  · exact absurd null (by decide)
  · exact absurd null (by decide)

end LeakedDirectory

open LeakedDirectory in
/-- The references after one `chdir` to the root directory. -/
theorem vnode_references_balance_chdir : Kernel.Balanced boot.vfs entered :=
  (vnode_references_balance resolveRoot_exact rfl boot_cached
    ((TransitionSystem.Path.nil start).snoc start_keeps (.sysChdir [47]))).1

open LeakedDirectory in
/-- Not all runs keep the balance: after two `chdir` to the root directory it has a reference
that nothing holds. -/
theorem vnode_references_balance_leak :
    ¬ ∀ (namei : PathResolver) (blocks : Blocks) (boot k : Kernel) (calls : List FileCall),
      Kernel.NameiExact namei → boot.file = ∅ → boot.vfs.Cached →
      (fileSystem namei exactWidth).Path TransitionSystem.Unrestricted
        (Kernel.setupTasking blocks boot) calls k → Kernel.Balanced boot.vfs k := by
  intro balanced
  have first : (fileSystem resolveRoot exactWidth).Path (Kernel.KeepsBalance resolveRoot)
      start [.sysChdir [47]] entered := (TransitionSystem.Path.nil start).snoc start_keeps
    (.sysChdir [47])
  have invariant := Kernel.balanceInvariant_of_path resolveRoot_exact
    (Kernel.setupTasking_balance Blocks.above rfl boot_cached) first
  have again : FileStep resolveRoot exactWidth entered (.sysChdir [47])
      (entered.sysChdir resolveRoot [47]).1 := .sysChdir [47]
  have leaked := balanced resolveRoot Blocks.above boot _ _ resolveRoot_exact rfl boot_cached
    ((first.weaken fun _ _ _ => trivial).snoc trivial again)
  exact entered_leaks ((invariant.step resolveRoot_exact again).2.mp leaked)

end Nupkux
