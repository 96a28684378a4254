import Nupkux.Kernel.ProcessTable
import Nupkux.Lib.References

/-!
# Open-file objects are counted exactly

A descriptor slot of a task in use holds one reference to an open-file object. Open, close,
dup and fork each change one slot or copy one row of the table of slots; `FileInvariant` says
that every object is counted as often as slots refer to it, and that an object without a slot
is gone.
-/

namespace Nupkux

/-! ## Runs -/

/-- One completed call of the current task, or the dispatch of another one. -/
inductive FileCall where
  | dispatch (next : Nat)
  | sysOpen (filename : CString) (flag : Nat)
  | sysClose (fd : Int)
  | sysDup (fd : Int)
  | sysDup2 (fd fd2 : Int)
  | sysChdir (name : CString)
  | sysChroot (name : CString)
  | sysFork
  | sysExit (status : Int)
  | sysWaitpid (pid : Int)

/-- The steps: any task that has not exited may run next, and `sys_dup2` is called with two
different descriptors. -/
inductive FileStep (namei : PathResolver) (width : Nat) : Kernel → FileCall → Kernel → Prop
  | dispatch {k : Kernel} {next : Nat} (inside : next < nrTasks) (inUse : (k.tasks next).InUse)
      (awake : (k.tasks next).state ≠ .zombie) :
      FileStep namei width k (.dispatch next) (k.dispatch next)
  | sysOpen {k : Kernel} (blocks : Blocks) (filename : CString) (flag : Nat) :
      FileStep namei width k (.sysOpen filename flag) (k.sysOpen namei blocks filename flag).1
  | sysClose {k : Kernel} (fd : Int) :
      FileStep namei width k (.sysClose fd) (k.sysClose fd).1
  | sysDup {k : Kernel} (fd : Int) : FileStep namei width k (.sysDup fd) (k.sysDup fd).1
  | sysDup2 {k : Kernel} {fd fd2 : Int} (differ : fd ≠ fd2) :
      FileStep namei width k (.sysDup2 fd fd2) (k.sysDup2 fd fd2).1
  | sysChdir {k : Kernel} (name : CString) :
      FileStep namei width k (.sysChdir name) (k.sysChdir namei name).1
  | sysChroot {k : Kernel} (name : CString) :
      FileStep namei width k (.sysChroot name) (k.sysChroot namei name).1
  | sysFork {k : Kernel} (blocks : Blocks) :
      FileStep namei width k .sysFork (k.sysFork width blocks).1
  | sysExit {k : Kernel} (status : Int) :
      FileStep namei width k (.sysExit status) (k.sysExit status)
  | sysWaitpid {k k' : Kernel} {pid ret : Int} {statloc : Bool} {status : Option Int}
      (returns : k.sysWaitpid pid statloc = some (k', ret, status)) :
      FileStep namei width k (.sysWaitpid pid) k'

/-- Runs from `setup_tasking`, when no file is open. -/
def fileSystem (namei : PathResolver) (width : Nat) : TransitionSystem Kernel FileCall where
  initial k := ∃ blocks boot, boot.file = ∅ ∧ k = Kernel.setupTasking blocks boot
  step := FileStep namei width

/-! ## Slots -/

/-- The (row, column) pairs of a table. -/
@[irreducible] def cells (rows columns : Nat) : Finset (Nat × Nat) :=
  Finset.range rows ×ˢ Finset.range columns

/-- A pair is in the table when both of its indices are in range. -/
theorem mem_cells {rows columns : Nat} {p : Nat × Nat} :
    p ∈ cells rows columns ↔ p.1 < rows ∧ p.2 < columns := by
  rw [cells, Finset.mem_product, Finset.mem_range, Finset.mem_range]

/-- The number of pairs of a table. -/
theorem card_cells (rows columns : Nat) : (cells rows columns).card = rows * columns := by
  rw [cells, Finset.card_product, Finset.card_range, Finset.card_range]

/-- Copying a row of a table over an empty one. -/
theorem held_copyRow {rows columns f copy : Nat} (table table' : Nat × Nat → Nat)
    (source : Nat) (member : copy < rows) (empty : ∀ column < columns, table (copy, column) ≠ f)
    (copied : ∀ column < columns, table' (copy, column) = table (source, column))
    (others : ∀ row < rows, row ≠ copy → ∀ column < columns,
      table' (row, column) = table (row, column)) :
    References.held (cells rows columns) table' f = References.held (cells rows columns) table f +
      References.held (Finset.range columns) (fun column => table (source, column)) f := by
  rw [cells]
  simp only [← Finset.mem_range] at member empty copied others
  exact References.held_copyRow member empty copied others

namespace Kernel

/-- How many (task, descriptor) pairs of tasks in use refer to an open-file object. -/
def slotsOf (k : Kernel) (f : Nat) : Nat :=
  ((cells nrTasks nrOpen).filter fun p => (k.tasks p.1).InUse ∧ (k.tasks p.1).files p.2 = f).card

/-- The table of descriptor slots; the slots of a free task are null. -/
def slot (k : Kernel) (p : Nat × Nat) : Nat :=
  if (k.tasks p.1).InUse then (k.tasks p.1).files p.2 else 0

variable {k k' k'' : Kernel} {f : Nat}

/-- The slots that refer to an object, counted over the table. -/
theorem slotsOf_eq_held (k : Kernel) (nonnull : f ≠ 0) :
    k.slotsOf f = References.held (cells nrTasks nrOpen) k.slot f := by
  refine congrArg Finset.card (Finset.filter_congr fun p _ => ?_)
  unfold slot
  split
  · rename_i inUse
    simp [inUse]
  · rename_i free
    simp [free, Ne.symm nonnull]

/-- No object has more slots than the table. -/
theorem slotsOf_le (k : Kernel) (f : Nat) : k.slotsOf f ≤ 2048 :=
  (Finset.card_filter_le _ _).trans (card_cells nrTasks nrOpen).le

/-- Some slot refers to an object that has one. -/
theorem slotsOf_pos {i fd : Nat} (inside : i < nrTasks) (inUse : (k.tasks i).InUse)
    (open_ : fd < nrOpen) : 0 < k.slotsOf ((k.tasks i).files fd) :=
  Finset.card_pos.mpr ⟨(i, fd), by simp [mem_cells, inside, inUse, open_]⟩

/-! ## What the steps leave alone -/

/-- The states agree in the files and vnodes and in what tasks hold of them. -/
structure SameHoldings (k k' : Kernel) : Prop where
  pid : ∀ i, (k'.tasks i).pid = (k.tasks i).pid
  files : ∀ i, (k'.tasks i).files = (k.tasks i).files
  pwd : ∀ i, (k'.tasks i).pwd = (k.tasks i).pwd
  root : ∀ i, (k'.tasks i).root = (k.tasks i).root
  file : k'.file = k.file
  vfs : k'.vfs = k.vfs
  closings : k'.closings = k.closings

/-- Two steps that leave the holdings alone. -/
theorem SameHoldings.trans (first : SameHoldings k k') (second : SameHoldings k' k'') :
    SameHoldings k k'' where
  pid i := (second.pid i).trans (first.pid i)
  files i := (second.files i).trans (first.files i)
  pwd i := (second.pwd i).trans (first.pwd i)
  root i := (second.root i).trans (first.root i)
  file := second.file.trans first.file
  vfs := second.vfs.trans first.vfs
  closings := second.closings.trans first.closings

/-- A dispatch leaves the holdings alone. -/
theorem dispatch_holdings (k : Kernel) (next : Nat) : SameHoldings k (k.dispatch next) where
  pid i := by rw [dispatch_tasks]
  files i := by rw [dispatch_tasks]
  pwd i := by rw [dispatch_tasks]
  root i := by rw [dispatch_tasks]
  file := rfl
  vfs := rfl
  closings := rfl

/-- Signals leave the holdings alone. -/
theorem SignalsOnly.holdings (only : SignalsOnly k k') : SameHoldings k k' := by
  obtain ⟨signals, rfl⟩ := only
  exact ⟨fun _ => rfl, fun _ => rfl, fun _ => rfl, fun _ => rfl, rfl, rfl, rfl⟩

/-- Orphaning the children leaves the holdings alone. -/
theorem orphanChildren_holdings (k : Kernel) : SameHoldings k k.orphanChildren := by
  refine ⟨fun i => ?_, fun i => ?_, fun i => ?_, fun i => ?_, rfl, rfl, rfl⟩ <;>
    · simp only [orphanChildren]
      split <;> rfl

/-- A change of one task that keeps what it holds. -/
theorem setTask_holdings (k : Kernel) (i : Nat) (change : Task → Task)
    (pid : (change (k.tasks i)).pid = (k.tasks i).pid)
    (files : (change (k.tasks i)).files = (k.tasks i).files)
    (pwd : (change (k.tasks i)).pwd = (k.tasks i).pwd)
    (root : (change (k.tasks i)).root = (k.tasks i).root) :
    SameHoldings k (k.setTask i change) := by
  refine ⟨fun j => ?_, fun j => ?_, fun j => ?_, fun j => ?_, rfl, rfl, rfl⟩ <;>
    · rw [setTask_tasks]
      split
      · rename_i same
        rw [same]
        assumption
      · rfl

/-- The end of `sys_exit` leaves the holdings alone. -/
theorem terminate_holdings (k : Kernel) (status : Int) :
    SameHoldings k (k.terminate status) := by
  set gone := k.setTask k.currentTask
    (fun t => { t with state := .zombie, exitCode := status }) with gone_def
  have zombie : SameHoldings k gone := setTask_holdings _ _ _ rfl rfl rfl rfl
  have killed := (sysKill_signals gone gone.current.parent SIGCHLD).holdings
  have freed : SameHoldings (gone.sysKill gone.current.parent SIGCHLD).1
      { (gone.sysKill gone.current.parent SIGCHLD).1 with
        directory := AList.erase (gone.sysKill gone.current.parent SIGCHLD).1.current.directory
          (gone.sysKill gone.current.parent SIGCHLD).1.directory
        kernelStack := AList.erase
          (gone.sysKill gone.current.parent SIGCHLD).1.current.kernelStack
          (gone.sysKill gone.current.parent SIGCHLD).1.kernelStack } :=
    ⟨fun _ => rfl, fun _ => rfl, fun _ => rfl, fun _ => rfl, rfl, rfl, rfl⟩
  exact ((zombie.trans killed).trans freed).trans (dispatch_holdings _ _)

/-- The slots depend on what tasks hold. -/
theorem SameHoldings.slotsOf (same : SameHoldings k k') (f : Nat) :
    k'.slotsOf f = k.slotsOf f := by
  refine congrArg Finset.card (Finset.filter_congr fun p _ => ?_)
  rw [Task.InUse, Task.InUse, same.pid, same.files]

/-! ## The counts -/

/-- A number of references as the count of an object, which is gone when there are none. -/
def positive (references : Nat) : Option Nat := if references = 0 then none else some references

/-- Every open-file object is counted as often as slots refer to it, and exists exactly when
one does. -/
structure Counted (k : Kernel) : Prop where
  null : k.file.lookup 0 = none
  count : ∀ f, f ≠ 0 → (k.file.lookup f).map (·.count) = positive (k.slotsOf f)

/-- The count of an object that exists. -/
theorem Counted.of_lookup (counted : k.Counted) {file : File}
    (live : k.file.lookup f = some file) : f ≠ 0 ∧ file.count = k.slotsOf f ∧ 0 < file.count := by
  have nonnull : f ≠ 0 := by
    rintro rfl
    rw [counted.null] at live
    cases live
  have count := counted.count f nonnull
  rw [live, Option.map_some, positive] at count
  split at count
  · cases count
  · have same := Option.some.inj count
    exact ⟨nonnull, same, by omega⟩

/-- An object exists exactly when a slot refers to it. -/
theorem Counted.mem_iff (counted : k.Counted) : f ∈ k.file ↔ f ≠ 0 ∧ 0 < k.slotsOf f := by
  rw [Store.mem_iff_lookup]
  constructor
  · rintro ⟨file, live⟩
    obtain ⟨nonnull, same, positive⟩ := counted.of_lookup live
    exact ⟨nonnull, by omega⟩
  · rintro ⟨nonnull, some_slot⟩
    have count := counted.count f nonnull
    rw [positive, if_neg (by omega)] at count
    obtain ⟨file, live, _⟩ := Option.map_eq_some_iff.mp count
    exact ⟨file, live⟩

/-- The object a slot of a task in use refers to. -/
theorem Counted.lookup_slot (counted : k.Counted) {i fd : Nat} (inside : i < nrTasks)
    (inUse : (k.tasks i).InUse) (open_ : fd < nrOpen) (nonnull : (k.tasks i).files fd ≠ 0) :
    ∃ file, k.file.lookup ((k.tasks i).files fd) = some file :=
  Store.mem_iff_lookup.mp (counted.mem_iff.mpr ⟨nonnull, slotsOf_pos inside inUse open_⟩)

/-- The counts depend on what tasks hold. -/
theorem Counted.same (counted : k.Counted) (same : SameHoldings k k') : k'.Counted := by
  refine ⟨by rw [same.file, counted.null], fun f nonnull => ?_⟩
  rw [same.file, same.slotsOf, counted.count f nonnull]

/-- A descriptor that changes gives up one reference and takes another. -/
theorem slotsOf_setFile {fd g : Nat} (inside : k.currentTask < nrTasks)
    (inUse : k.current.InUse) (open_ : fd < nrOpen) (nonnull : f ≠ 0) :
    (k.setFile fd g).slotsOf f + (if k.current.files fd = f then 1 else 0) =
      k.slotsOf f + if g = f then 1 else 0 := by
  have table : (k.setFile fd g).slot = Function.update k.slot (k.currentTask, fd) g := by
    funext p
    obtain ⟨i, fd'⟩ := p
    simp only [slot, setFile, setTask_tasks, Function.update_apply, Prod.mk.injEq]
    by_cases same : i = k.currentTask
    · subst same
      rw [Kernel.current, Task.InUse] at inUse
      simp [Task.InUse, inUse, Function.update_apply]
    · simp [same]
  have member : (k.currentTask, fd) ∈ cells nrTasks nrOpen := mem_cells.mpr ⟨inside, open_⟩
  have now : k.slot (k.currentTask, fd) = k.current.files fd := by
    rw [Kernel.current] at inUse
    simp [slot, inUse, Kernel.current]
  rw [slotsOf_eq_held _ nonnull, slotsOf_eq_held _ nonnull, table, ← now]
  exact References.held_update member g

/-- The objects that are closed between two states, each once and none of them again, while
no object is opened. -/
structure Closes (k k' : Kernel) (closed : List Nat) : Prop where
  closings : k'.closings = k.closings ++ closed
  nodup : closed.Nodup
  mem : ∀ f, f ∈ closed ↔ f ∈ k.file ∧ f ∉ k'.file
  shrinks : ∀ f, f ∈ k'.file → f ∈ k.file

/-- A step that closes nothing. -/
theorem Closes.none (closings : k'.closings = k.closings)
    (same : ∀ f, f ∈ k'.file ↔ f ∈ k.file) : Closes k k' [] where
  closings := by rw [closings, List.append_nil]
  nodup := List.nodup_nil
  mem f := by simp [same]
  shrinks f := (same f).mp

/-- Two steps close what each of them closes. -/
theorem Closes.append {closed closed' : List Nat} (first : Closes k k' closed)
    (second : Closes k' k'' closed') : Closes k k'' (closed ++ closed') where
  closings := by rw [second.closings, first.closings, List.append_assoc]
  nodup := by
    refine List.nodup_append.mpr ⟨first.nodup, second.nodup, fun f member g member' => ?_⟩
    rintro rfl
    exact ((first.mem f).mp member).2 ((second.mem f).mp member').1
  mem f := by
    rw [List.mem_append, first.mem, second.mem]
    have shrinks := first.shrinks f
    have shrinks' := second.shrinks f
    tauto
  shrinks f member := first.shrinks f (second.shrinks f member)

/-- Giving back the reference of a slot that was cleared: the object is closed if no other
slot refers to it. -/
theorem putFile_counted {file : File} (live : k.file.lookup f = some file) (nonnull : f ≠ 0)
    (null : k.file.lookup 0 = none) (count : file.count = k.slotsOf f + 1)
    (others : ∀ g, g ≠ 0 → g ≠ f → (k.file.lookup g).map (·.count) = positive (k.slotsOf g)) :
    (k.putFile f).Counted ∧ ∃ closed, Closes k (k.putFile f) closed := by
  have slots (g : Nat) : (k.putFile f).slotsOf g = k.slotsOf g := by
    rw [slotsOf, slotsOf, (putFile_frame k f).1]
  have member : f ∈ k.file := Store.mem_iff_lookup.mpr ⟨file, live⟩
  by_cases last : k.slotsOf f = 0
  · have put : k.putFile f = k.closeFile f file := by
      simp [putFile, live, count, last]
    refine ⟨⟨?_, fun g nonnull' => ?_⟩, [f], ?_⟩
    · rw [put, closeFile, Store.lookup_erase_eq, null, ite_self]
    · rw [slots, put, closeFile, Store.lookup_erase_eq]
      split
      · rename_i same
        rw [same, last]
        rfl
      · rename_i differ
        exact others g nonnull' differ
    · rw [put]
      refine ⟨rfl, List.nodup_singleton f, fun g => ?_, fun g => ?_⟩
      · simp only [closeFile, AList.mem_erase, List.mem_singleton]
        constructor
        · rintro rfl
          exact ⟨member, fun other => other.1 rfl⟩
        · rintro ⟨before, after⟩
          by_contra differ
          exact after ⟨differ, before⟩
      · simp only [closeFile, AList.mem_erase]
        exact And.right
  · have put : k.putFile f =
        { k with file := k.file.insert f { file with count := k.slotsOf f } } := by
      simp [putFile, live, count, last]
    refine ⟨⟨?_, fun g nonnull' => ?_⟩, [], ?_⟩
    · rw [put, Store.lookup_insert_eq, if_neg (Ne.symm nonnull), null]
    · rw [slots, put, Store.lookup_insert_eq]
      split
      · rename_i same
        rw [same, Option.map_some, positive, if_neg last]
      · rename_i differ
        exact others g nonnull' differ
    · rw [put]
      refine .none rfl fun g => ?_
      simp only [AList.mem_insert]
      constructor
      · rintro (rfl | before)
        · exact member
        · exact before
      · exact .inr

/-- `sys_close` keeps the counts, and closes the object whose last slot it clears. -/
theorem Counted.sysClose (counted : k.Counted) (inside : k.currentTask < nrTasks)
    (inUse : k.current.InUse) (fd : Int) :
    (k.sysClose fd).1.Counted ∧ ∃ closed, Closes k (k.sysClose fd).1 closed := by
  unfold Kernel.sysClose
  split
  · exact ⟨counted, [], .none rfl fun _ => .rfl⟩
  · rename_i inRange
    dsimp only
    split
    · exact ⟨counted, [], .none rfl fun _ => .rfl⟩
    · rename_i nonnull
      have open_ : fd.toNat < nrOpen := by omega
      obtain ⟨file, live⟩ : ∃ file, k.file.lookup (k.current.files fd.toNat) = some file :=
        counted.lookup_slot inside inUse open_ nonnull
      obtain ⟨_, count, _⟩ := counted.of_lookup live
      have cleared := slotsOf_setFile (g := 0) inside inUse open_ nonnull
      rw [if_pos rfl, if_neg (Ne.symm nonnull), Nat.add_zero] at cleared
      have others : ∀ g, g ≠ 0 → g ≠ k.current.files fd.toNat →
          (k.file.lookup g).map (·.count) = positive ((k.setFile fd.toNat 0).slotsOf g) := by
        intro g nonnull' differ
        have kept := slotsOf_setFile (g := 0) inside inUse open_ nonnull'
        rw [if_neg (Ne.symm differ), if_neg (Ne.symm nonnull'), Nat.add_zero, Nat.add_zero] at kept
        rw [kept, counted.count g nonnull']
      have clear : Closes k (k.setFile fd.toNat 0) [] := .none rfl fun _ => .rfl
      obtain ⟨counted', closed, closes⟩ := putFile_counted (k := k.setFile fd.toNat 0) live
        nonnull counted.null (count.trans cleared.symm) others
      exact ⟨counted', _, clear.append closes⟩

/-- A descriptor of the current task is changed and no slot of the table is. -/
theorem setFile_slot (k : Kernel) (fd f i : Nat) :
    ((k.setFile fd f).tasks i).slot = (k.tasks i).slot := by
  rw [setFile, setTask_tasks]
  split
  · rename_i same
    rw [same]
    rfl
  · rfl

/-- What `setFile` leaves in the descriptors. -/
theorem setFile_files (k : Kernel) (fd f i x : Nat) :
    ((k.setFile fd f).tasks i).files x =
      if i = k.currentTask ∧ x = fd then f else (k.tasks i).files x := by
  rw [setFile, setTask_tasks]
  by_cases same : i = k.currentTask
  · simp [same, Function.update_apply]
  · simp [same]

/-- `sys_close` clears the descriptor and no other. -/
theorem sysClose_files (k : Kernel) {fd : Int} (inRange : ¬(fd < 0 ∨ nrOpen ≤ fd)) (i x : Nat) :
    ((k.sysClose fd).1.tasks i).files x =
      if i = k.currentTask ∧ x = fd.toNat then 0 else (k.tasks i).files x := by
  rw [sysClose, if_neg inRange]
  dsimp only
  split
  · rename_i null
    split
    · rename_i here
      rw [here.1, here.2]
      exact null
    · rfl
  · rw [(putFile_frame _ _).1, setFile_files]

/-- A free descriptor is one of the current task that is null. -/
theorem freeDescriptor_some {fd : Nat} (found : k.freeDescriptor = some fd) :
    fd < nrOpen ∧ k.current.files fd = 0 := by
  have free := List.find?_some found
  exact ⟨List.mem_range.mp (List.mem_of_find?_eq_some found), by simpa using free⟩

/-- A null descriptor takes a reference to an object. -/
theorem slotsOf_fill {fd g : Nat} (inside : k.currentTask < nrTasks) (inUse : k.current.InUse)
    (open_ : fd < nrOpen) (null : k.current.files fd = 0) (nonnull : f ≠ 0) :
    (k.setFile fd g).slotsOf f = k.slotsOf f + if g = f then 1 else 0 := by
  have filled := slotsOf_setFile (g := g) inside inUse open_ nonnull
  rwa [null, if_neg (Ne.symm nonnull), Nat.add_zero] at filled

/-- `sys_open` finds no descriptor, no vnode, or adds an open-file object for the vnode it
finds at the lowest free descriptor. -/
theorem sysOpen_cases (namei : PathResolver) (blocks : Blocks) (k : Kernel)
    (filename : CString) (flag : Nat) :
    (k.sysOpen namei blocks filename flag).1 = k ∧ k.freeDescriptor = none ∨
    k.freeDescriptor ≠ none ∧ (namei k.vfs k.current filename).2.1 = 0 ∧
      (k.sysOpen namei blocks filename flag).1 =
        { k with vfs := (namei k.vfs k.current filename).1 } ∨
    (namei k.vfs k.current filename).2.1 ≠ 0 ∧ ∃ fd f file, k.freeDescriptor = some fd ∧
      f ≠ 0 ∧ k.file.lookup f = none ∧ file.node = (namei k.vfs k.current filename).2.1 ∧
      file.count = 1 ∧ (k.sysOpen namei blocks filename flag).1 =
        { k with
          vfs := (namei k.vfs k.current filename).1
          file := k.file.insert f file }.setFile fd f := by
  unfold sysOpen
  split
  · rename_i found
    exact .inl ⟨rfl, found⟩
  · rename_i fd found
    dsimp only
    split
    · rename_i missing
      exact .inr (.inl ⟨by simp [found], missing, rfl⟩)
    · rename_i resolved
      exact .inr (.inr ⟨resolved, fd, _, _, found, blocks.file.address_ne_zero k.file,
        blocks.file.address_fresh k.file, rfl, rfl, rfl⟩)

/-- `sys_open` keeps the counts, and closes nothing. -/
theorem Counted.sysOpen (counted : k.Counted) (inside : k.currentTask < nrTasks)
    (inUse : k.current.InUse) (namei : PathResolver) (blocks : Blocks) (filename : CString)
    (flag : Nat) :
    (k.sysOpen namei blocks filename flag).1.Counted ∧
      (k.sysOpen namei blocks filename flag).1.closings = k.closings ∧
      ∀ f ∈ k.file, f ∈ (k.sysOpen namei blocks filename flag).1.file := by
  rcases sysOpen_cases namei blocks k filename flag with ⟨same, _⟩ | ⟨_, _, same⟩ |
    ⟨_, fd, f, file, found, nonzero, fresh, _, one, same⟩
  · rw [same]
    exact ⟨counted, rfl, fun _ => id⟩
  · rw [same]
    exact ⟨⟨counted.null, counted.count⟩, rfl, fun _ => id⟩
  · rw [same]
    obtain ⟨open_, null⟩ := freeDescriptor_some found
    have unused : k.slotsOf f = 0 := by
      have gone : f ∉ k.file := AList.lookup_eq_none.mp fresh
      rw [counted.mem_iff] at gone
      by_contra used
      exact gone ⟨nonzero, by omega⟩
    refine ⟨⟨?_, fun g nonnull => ?_⟩, rfl, fun g member => ?_⟩
    · simp only [setFile, setTask]
      rw [Store.lookup_insert_eq, if_neg (Ne.symm nonzero), counted.null]
    · have filled : (Kernel.setFile { k with
          vfs := (namei k.vfs k.current filename).1
          file := k.file.insert f file } fd f).slotsOf g =
          k.slotsOf g + if f = g then 1 else 0 :=
        slotsOf_fill inside inUse open_ null nonnull
      refine Eq.trans ?_ (congrArg positive filled).symm
      simp only [setFile, setTask]
      rw [Store.lookup_insert_eq]
      by_cases here : g = f
      · rw [if_pos here, if_pos here.symm, Option.map_some, one, here, unused]
        rfl
      · rw [if_neg here, if_neg (Ne.symm here)]
        exact counted.count g nonnull
    · simp only [setFile, setTask]
      rw [AList.mem_insert]
      exact .inr member

/-- `sys_dup2` of two different descriptors keeps the counts. -/
theorem Counted.sysDup2 (counted : k.Counted) (inside : k.currentTask < nrTasks)
    (inUse : k.current.InUse) {fd fd2 : Int} (differ : fd ≠ fd2) :
    (k.sysDup2 fd fd2).1.Counted ∧ ∃ closed, Closes k (k.sysDup2 fd fd2).1 closed := by
  unfold Kernel.sysDup2
  split
  · exact ⟨counted, [], .none rfl fun _ => .rfl⟩
  · rename_i inRange
    split
    · exact ⟨counted, [], .none rfl fun _ => .rfl⟩
    · rename_i source
      dsimp only
      obtain ⟨counted', closed, closes⟩ := counted.sysClose inside inUse fd2
      obtain ⟨slot, current, _⟩ := sysClose_slot k fd2 k.currentTask
      have inRange' : ¬(fd2 < 0 ∨ nrOpen ≤ fd2) := by omega
      have files (x : Nat) := sysClose_files k inRange' k.currentTask x
      set k' := (k.sysClose fd2).1
      have inside' : k'.currentTask < nrTasks := by rwa [current]
      have inUse' : k'.current.InUse := by
        have pid : (k'.tasks k.currentTask).pid = k.current.pid := congrArg (·.1) slot
        rwa [Kernel.current, current, Task.InUse, pid]
      have cleared : k'.current.files fd2.toNat = 0 := by
        rw [Kernel.current, current, files, if_pos ⟨rfl, rfl⟩]
      have kept : k'.current.files fd.toNat = k.current.files fd.toNat := by
        rw [Kernel.current, current, files, if_neg (by omega)]
        rfl
      have nonnull : k'.current.files fd.toNat ≠ 0 := by rwa [kept]
      obtain ⟨file, live⟩ : ∃ file, k'.file.lookup (k'.current.files fd.toNat) = some file :=
        counted'.lookup_slot inside' inUse' (by omega) nonnull
      obtain ⟨_, count, _⟩ := counted'.of_lookup live
      have bound := k'.slotsOf_le (k'.current.files fd.toNat)
      set f := k'.current.files fd.toNat
      refine ⟨⟨?_, fun g nonnull' => ?_⟩, closed ++ [], closes.append (.none rfl fun g => ?_)⟩
      · simp only [setFile, setTask]
        rw [Store.lookup_modify_ne (Ne.symm nonnull), counted'.null]
      · have filled := slotsOf_fill (g := f) inside' inUse' (by omega : fd2.toNat < nrOpen)
          cleared nonnull'
        refine Eq.trans ?_ (congrArg positive filled).symm
        simp only [setFile, setTask]
        by_cases same : g = f
        · rw [same, Store.lookup_modify_self, live, if_pos rfl]
          have small : (file.count + 1) % uintWidth = k'.slotsOf f + 1 := by
            rw [count, uintWidth]
            omega
          simp only [Option.map_some, small, positive]
          rfl
        · rw [Store.lookup_modify_ne same, if_neg (Ne.symm same)]
          exact counted'.count g nonnull'
      · simp only [setFile, setTask]
        rw [Store.modify_of_lookup live, AList.mem_insert]
        constructor
        · rintro (rfl | member)
          · exact Store.mem_iff_lookup.mpr ⟨file, live⟩
          · exact member
        · exact .inr

/-- `sys_dup` keeps the counts: a free descriptor is not the one it copies. -/
theorem Counted.sysDup (counted : k.Counted) (inside : k.currentTask < nrTasks)
    (inUse : k.current.InUse) (fd : Int) :
    (k.sysDup fd).1.Counted ∧ ∃ closed, Closes k (k.sysDup fd).1 closed := by
  unfold Kernel.sysDup
  split
  · exact ⟨counted, [], .none rfl fun _ => .rfl⟩
  · rename_i fd2 found
    obtain ⟨_, null⟩ := freeDescriptor_some found
    by_cases same : fd = fd2
    · have nothing : k.sysDup2 fd fd2 = (k, -EBADF) := by
        rw [Kernel.sysDup2, same, Int.toNat_natCast, null]
        simp
      rw [nothing]
      exact ⟨counted, [], .none rfl fun _ => .rfl⟩
    · exact counted.sysDup2 inside inUse same

/-! ## Fork -/

/-- One descriptor more in a row. -/
theorem held_range_succ (files : Nat → Nat) (fd f : Nat) :
    References.held (Finset.range (fd + 1)) files f =
      References.held (Finset.range fd) files f + if files fd = f then 1 else 0 := by
  rw [Finset.range_add_one, References.held_insert Finset.notMem_range_self]

/-- The loop of `sys_fork` opens and closes nothing. -/
theorem holdFiles_mem (files : Nat → Nat) (bound : Nat) (store : Store File) :
    f ∈ holdFiles files bound store ↔ f ∈ store := by
  induction bound generalizing store with
  | zero => rfl
  | succ fd ih =>
    rw [holdFiles, ih]
    split
    · rfl
    · rw [Store.mem_iff_lookup, Store.mem_iff_lookup, Store.lookup_modify]
      split
      · rename_i same
        rw [same]
        simp
      · rfl

/-- The loop of `sys_fork` adds to each object the references of the row, if the sum is
representable. -/
theorem holdFiles_count {files : Nat → Nat} {bound : Nat} {store : Store File} {n : Nat}
    (nonnull : f ≠ 0) (live : (store.lookup f).map (·.count) = some n)
    (small : n + References.held (Finset.range bound) files f < uintWidth) :
    ((holdFiles files bound store).lookup f).map (·.count) =
      some (n + References.held (Finset.range bound) files f) := by
  induction bound generalizing store n with
  | zero => exact live
  | succ fd ih =>
    rw [held_range_succ] at small ⊢
    rw [holdFiles]
    by_cases here : files fd = f
    · rw [if_pos here] at small ⊢
      rw [if_neg (here ▸ nonnull), here, ← Nat.add_assoc, Nat.add_right_comm]
      refine ih ?_ (by omega)
      rw [Store.lookup_modify_self, Option.map_map]
      obtain ⟨file, found, count⟩ := Option.map_eq_some_iff.mp live
      rw [found, Option.map_some, Function.comp_apply, count, Nat.mod_eq_of_lt (by omega)]
    · rw [if_neg here] at small ⊢
      refine ih ?_ (by omega)
      split
      · exact live
      · rw [Store.lookup_modify_ne (Ne.symm here)]
        exact live

/-- The table of a forked kernel has the row of the parent in the slot of the child. -/
theorem sysFork_files {child : Nat} (width : Nat) (blocks : Blocks) (found : k.freeSlot = some child)
    (inUse : k.current.InUse) (i fd : Nat) :
    (k.sysFork width blocks).1.slot (i, fd) =
      if i = child then k.slot (k.currentTask, fd) else k.slot (i, fd) := by
  have apart : k.currentTask ≠ child := by
    rintro rfl
    exact (freeSlot_some found).2 inUse
  have pid : ((k.sysFork width blocks).1.tasks i).pid =
      if i = child then (child : Int) else (k.tasks i).pid := by
    refine (congrArg (·.1) (sysFork_slot width blocks found inUse i)).trans ?_
    by_cases parent : i = k.currentTask
    · rw [if_pos parent, if_neg (parent ▸ apart), parent]
      rfl
    · rw [if_neg parent]
      split <;> rfl
  have files : ((k.sysFork width blocks).1.tasks i).files =
      if i = child then k.current.files else (k.tasks i).files := by
    simp only [sysFork, found, setTask_tasks, Function.update_apply]
    by_cases parent : i = k.currentTask
    · subst parent
      simp [apart]
    · by_cases here : i = child
      · rw [if_neg parent, if_pos here, if_pos here]
        rfl
      · rw [if_neg parent, if_neg here, if_neg here]
  have inUse' : ((k.sysFork width blocks).1.tasks i).InUse ↔ i = child ∨ (k.tasks i).InUse := by
    rw [Task.InUse, pid]
    split
    · rename_i here
      have notNone : (child : Int) ≠ noTask := by
        rw [noTask]
        omega
      simp [here, notNone]
    · rename_i other
      simp [other, Task.InUse]
  rw [Kernel.current] at inUse
  simp only [slot, inUse', files]
  by_cases here : i = child
  · simp [here, inUse, Kernel.current]
  · simp [here]

/-- A fork gives each object the references of the forked row once more. -/
theorem slotsOf_sysFork {child : Nat} (width : Nat) (blocks : Blocks) (found : k.freeSlot = some child)
    (inUse : k.current.InUse) (nonnull : f ≠ 0) :
    (k.sysFork width blocks).1.slotsOf f =
      k.slotsOf f + References.held (Finset.range nrOpen) k.current.files f := by
  obtain ⟨inside, free⟩ := freeSlot_some found
  have files (i fd : Nat) := sysFork_files width blocks found inUse i fd
  have copied := held_copyRow k.slot (k.sysFork width blocks).1.slot k.currentTask inside
    (fun fd (_ : fd < nrOpen) => by simpa [slot, free] using Ne.symm nonnull)
    (fun fd _ => by rw [files, if_pos rfl]) (fun i _ other fd _ => by rw [files, if_neg other])
  rw [slotsOf_eq_held _ nonnull, slotsOf_eq_held _ nonnull, copied]
  have row : (fun fd => k.slot (k.currentTask, fd)) = k.current.files := by
    funext fd
    rw [Kernel.current] at inUse
    simp [slot, inUse, Kernel.current]
  rw [row]

/-- `sys_fork` keeps the counts, and closes nothing. -/
theorem Counted.sysFork (counted : k.Counted) (inside : k.currentTask < nrTasks)
    (inUse : k.current.InUse) (width : Nat) (blocks : Blocks) :
    (k.sysFork width blocks).1.Counted ∧ ∃ closed, Closes k (k.sysFork width blocks).1 closed := by
  cases found : k.freeSlot with
  | none =>
    simp only [Kernel.sysFork, found]
    exact ⟨counted, [], .none rfl fun _ => .rfl⟩
  | some child =>
    have file : (k.sysFork width blocks).1.file = holdFiles k.current.files nrOpen k.file := by
      simp only [Kernel.sysFork, found]
      rfl
    have closings : (k.sysFork width blocks).1.closings = k.closings := by
      simp only [Kernel.sysFork, found]
      rfl
    have absent {g : Nat} (gone : g ∉ k.file) :
        (holdFiles k.current.files nrOpen k.file).lookup g = none :=
      AList.lookup_eq_none.mpr fun member => gone ((holdFiles_mem _ _ _).mp member)
    refine ⟨⟨?_, fun g nonnull => ?_⟩, [], .none closings fun g => ?_⟩
    · rw [file]
      exact absent (AList.lookup_eq_none.mp counted.null)
    · have slots := slotsOf_sysFork width blocks found inUse nonnull
      rw [file, slots]
      have bound := (k.sysFork width blocks).1.slotsOf_le g
      by_cases used : k.slotsOf g = 0
      · have empty : References.held (Finset.range nrOpen) k.current.files g = 0 := by
          by_contra some_slot
          obtain ⟨fd, member, here⟩ := References.held_pos.mp (Nat.pos_of_ne_zero some_slot)
          have held := slotsOf_pos inside inUse (Finset.mem_range.mp member)
          rw [Kernel.current] at here
          rw [here, used] at held
          exact Nat.lt_irrefl 0 held
        rw [used, empty, absent fun member => (by
          have := (counted.mem_iff.mp member).2
          omega)]
        rfl
      · have live := counted.count g nonnull
        rw [positive, if_neg used] at live
        rw [holdFiles_count nonnull live (by rw [uintWidth]; omega), positive, if_neg (by omega)]
    · rw [file]
      exact holdFiles_mem _ _ _

/-! ## Exit -/

/-- Closing the descriptors below a bound keeps the counts, and closes the objects whose last
slots it clears. -/
theorem Counted.closeAll (counted : k.Counted) (inside : k.currentTask < nrTasks)
    (inUse : k.current.InUse) (bound : Nat) :
    (Kernel.closeAll bound k).Counted ∧ ∃ closed, Closes k (Kernel.closeAll bound k) closed := by
  induction bound generalizing k with
  | zero => exact ⟨counted, [], .none rfl fun _ => .rfl⟩
  | succ fd ih =>
    obtain ⟨counted', closed, closes⟩ := counted.sysClose inside inUse fd
    obtain ⟨slot, current, _⟩ := sysClose_slot k fd k.currentTask
    have pid : ((k.sysClose fd).1.tasks k.currentTask).pid = k.current.pid :=
      congrArg (·.1) slot
    obtain ⟨counted'', closed', closes'⟩ := ih counted' (by rwa [current])
      (by rwa [Kernel.current, current, Task.InUse, pid])
    exact ⟨counted'', _, closes.append closes'⟩

/-- Closing the descriptors below a bound clears them and no others. -/
theorem closeAll_files {bound : Nat} (inRange : bound ≤ nrOpen) (i x : Nat) :
    ((closeAll bound k).tasks i).files x =
      if i = k.currentTask ∧ x < bound then 0 else (k.tasks i).files x := by
  induction bound generalizing k with
  | zero => simp [closeAll]
  | succ fd ih =>
    rw [closeAll, ih (by omega), (sysClose_slot k fd i).2.1,
      sysClose_files k (by omega), Int.toNat_natCast]
    by_cases here : i = k.currentTask
    · by_cases at_fd : x = fd
      · simp [here, at_fd]
      · have below : x < fd ↔ x < fd + 1 := by omega
        simp [here, at_fd, below]
    · simp [here]

/-- After its loops `sys_exit` leaves the holdings alone. -/
theorem sysExit_holdings (k : Kernel) (status : Int) :
    SameHoldings (closeAll nrOpen k.orphanChildren) (k.sysExit status) := by
  unfold sysExit
  generalize closeAll nrOpen k.orphanChildren = left
  dsimp only
  split
  · exact ⟨fun _ => rfl, fun _ => rfl, fun _ => rfl, fun _ => rfl, rfl, rfl, rfl⟩
  · exact terminate_holdings left status

/-- The descriptors after `sys_exit`. -/
theorem sysExit_files (status : Int) (i x : Nat) :
    ((k.sysExit status).tasks i).files x =
      if i = k.currentTask ∧ x < nrOpen then 0 else (k.tasks i).files x := by
  rw [(sysExit_holdings k status).files, closeAll_files le_rfl,
    (orphanChildren_holdings k).files]
  rfl

/-- `sys_exit` keeps the counts, and closes the objects of which the current task holds the
last slots. -/
theorem Counted.sysExit (counted : k.Counted) (inside : k.currentTask < nrTasks)
    (inUse : k.current.InUse) (status : Int) :
    (k.sysExit status).Counted ∧ ∃ closed, Closes k (k.sysExit status) closed := by
  have orphaned := orphanChildren_holdings k
  have before : Closes k k.orphanChildren [] := .none rfl fun _ => .rfl
  have inUse' : k.orphanChildren.current.InUse := by
    rw [Task.InUse, Kernel.current, orphaned.pid]
    exact inUse
  obtain ⟨counted', closed, closes⟩ :=
    (counted.same orphaned).closeAll (k := k.orphanChildren) inside inUse' nrOpen
  have ended := sysExit_holdings k status
  have after : Closes (Kernel.closeAll nrOpen k.orphanChildren) (k.sysExit status) [] :=
    .none ended.closings fun f => by rw [ended.file]
  exact ⟨counted'.same ended, _, (before.append closes).append after⟩

/-! ## The invariant -/

/-- The invariant of the open-file objects. -/
structure FileInvariant (k : Kernel) : Prop extends TableInvariant k where
  /-- Every object is counted exactly. -/
  counted : k.Counted
  /-- A task that has exited has no open descriptor. -/
  exited : ∀ i < nrTasks, (k.tasks i).InUse → (k.tasks i).state = .zombie →
    ∀ fd < nrOpen, (k.tasks i).files fd = 0

/-- `setup_tasking` establishes the invariant. -/
theorem setupTasking_files (blocks : Blocks) {boot : Kernel} (none : boot.file = ∅) :
    (setupTasking blocks boot).FileInvariant := by
  have table := setupTasking_invariant blocks boot
  have files : (setupTasking blocks boot).file = ∅ := none
  refine ⟨table, ⟨by rw [files]; rfl, fun f nonnull => ?_⟩, fun i inside inUse zombie => ?_⟩
  · have empty : (setupTasking blocks boot).slotsOf f = 0 := by
      rw [slotsOf_eq_held _ nonnull]
      by_contra some_slot
      obtain ⟨⟨i, fd⟩, member, here⟩ := References.held_pos.mp (Nat.pos_of_ne_zero some_slot)
      obtain ⟨inside, _⟩ := mem_cells.mp member
      by_cases first : i = 0
      · subst first
        simp [slot, setupTasking, Task.InUse, noTask] at here
        exact nonnull here.symm
      · simp only at inside
        simp [slot, setupTasking, first, inside, Task.InUse] at here
        exact nonnull here.symm
    rw [files, empty]
    rfl
  · by_cases first : i = 0
    · exact absurd (first ▸ zombie) table.kernelTask.2
    · simp [setupTasking, first, inside, Task.InUse] at inUse

/-- The states of the same slots, files and holders satisfy the same invariant. -/
theorem FileInvariant.kept (invariant : k.FileInvariant) (table : k'.TableInvariant)
    (counted : k'.Counted)
    (slots : ∀ i, (k'.tasks i).slot = (k.tasks i).slot)
    (files : ∀ i fd, i ≠ k.currentTask → (k'.tasks i).files fd = (k.tasks i).files fd) :
    k'.FileInvariant := by
  refine ⟨table, counted, fun i inside inUse zombie fd open_ => ?_⟩
  have slot := slots i
  simp only [Task.slot, Prod.mk.injEq] at slot
  rw [Task.InUse, slot.1] at inUse
  rw [slot.2.1] at zombie
  have other : i ≠ k.currentTask := by
    rintro rfl
    have running := invariant.current.2.2
    rw [Kernel.current, zombie] at running
    cases running
  rw [files i fd other]
  exact invariant.exited i inside inUse zombie fd open_

/-- A call that only resolves a path and records a directory keeps the invariant, and closes
nothing. -/
theorem changeDirectory_cases (namei : PathResolver) (k : Kernel) (name : CString)
    (record : Task → Nat → Task) :
    (k.changeDirectory namei name record).1 = { k with vfs := (namei k.vfs k.current name).1 } ∧
      ((namei k.vfs k.current name).2.1 = 0 ∨
        Kernel.isDir { k with vfs := (namei k.vfs k.current name).1 }
          (namei k.vfs k.current name).2.1 = false) ∨
    (namei k.vfs k.current name).2.1 ≠ 0 ∧
      Kernel.isDir { k with vfs := (namei k.vfs k.current name).1 }
          (namei k.vfs k.current name).2.1 = true ∧
      (k.changeDirectory namei name record).1 =
        Kernel.setTask { k with vfs := (namei k.vfs k.current name).1 } k.currentTask
          fun t => record t (namei k.vfs k.current name).2.1 := by
  unfold changeDirectory
  dsimp only
  split
  · rename_i missing
    exact .inl ⟨rfl, .inl missing⟩
  · rename_i resolved
    split
    · rename_i directory
      exact .inr ⟨resolved, directory, rfl⟩
    · rename_i file
      exact .inl ⟨rfl, .inr (by simpa using file)⟩

/-- A call that records a directory in the current task keeps the invariant, and closes
nothing. -/
theorem FileInvariant.changeDirectory (invariant : k.FileInvariant) (namei : PathResolver)
    (name : CString) (record : Task → Nat → Task)
    (slot : ∀ t node, (record t node).slot = t.slot)
    (files : ∀ t node, (record t node).files = t.files) :
    (k.changeDirectory namei name record).1.FileInvariant ∧
      ∃ closed, Closes k (k.changeDirectory namei name record).1 closed := by
  have counts {k' : Kernel} (tasks : ∀ i, (k'.tasks i).slot = (k.tasks i).slot)
      (files : ∀ i, (k'.tasks i).files = (k.tasks i).files) (file : k'.file = k.file)
      (current : k'.currentTask = k.currentTask) (stack : k'.kernelStack = k.kernelStack) :
      k'.FileInvariant := by
    refine invariant.kept (invariant.toTableInvariant.congr tasks current stack)
      ⟨by rw [file, invariant.counted.null], fun f nonnull => ?_⟩ tasks
      fun i fd _ => by rw [files]
    have slots : k'.slotsOf f = k.slotsOf f := by
      refine congrArg Finset.card (Finset.filter_congr fun p _ => ?_)
      have pid : (k'.tasks p.1).pid = (k.tasks p.1).pid := congrArg (·.1) (tasks p.1)
      rw [Task.InUse, Task.InUse, pid, files]
    rw [file, slots, invariant.counted.count f nonnull]
  rcases changeDirectory_cases namei k name record with ⟨same, _⟩ | ⟨_, _, same⟩
  · rw [same]
    exact ⟨counts (fun _ => rfl) (fun _ => rfl) rfl rfl rfl, [], .none rfl fun _ => .rfl⟩
  · rw [same]
    refine ⟨counts (fun i => ?_) (fun i => ?_) rfl rfl rfl, [], .none rfl fun _ => .rfl⟩
    · rw [setTask_tasks]
      split
      · rename_i here
        rw [slot, here]
      · rfl
    · rw [setTask_tasks]
      split
      · rename_i here
        rw [files, here]
      · rfl

/-- `sys_dup2` changes descriptors of the current task only. -/
theorem sysDup2_frame (k : Kernel) (fd fd2 : Int) :
    (∀ i, ((k.sysDup2 fd fd2).1.tasks i).slot = (k.tasks i).slot) ∧
      (k.sysDup2 fd fd2).1.currentTask = k.currentTask ∧
      (k.sysDup2 fd fd2).1.kernelStack = k.kernelStack ∧
      ∀ i x, i ≠ k.currentTask →
        ((k.sysDup2 fd fd2).1.tasks i).files x = (k.tasks i).files x := by
  unfold sysDup2
  split
  · exact ⟨fun _ => rfl, rfl, rfl, fun _ _ _ => rfl⟩
  · rename_i inRange
    split
    · exact ⟨fun _ => rfl, rfl, rfl, fun _ _ _ => rfl⟩
    · dsimp only
      obtain ⟨_, current, stack⟩ := sysClose_slot k fd2 0
      refine ⟨fun i => ?_, current, stack, fun i x other => ?_⟩
      · rw [setFile_slot]
        exact (sysClose_slot k fd2 i).1
      · rw [setFile_files, if_neg (fun here => other (here.1.trans current)),
          sysClose_files k (by omega), if_neg fun here => other here.1]

/-- `sys_dup2` keeps the invariant when it keeps the counts. -/
theorem FileInvariant.sysDup2 (invariant : k.FileInvariant) (fd fd2 : Int)
    (counted : (k.sysDup2 fd fd2).1.Counted) : (k.sysDup2 fd fd2).1.FileInvariant := by
  obtain ⟨slots, current, stack, files⟩ := sysDup2_frame k fd fd2
  exact invariant.kept (invariant.toTableInvariant.congr slots current stack) counted slots
    files

/-- `sys_fork` keeps the invariant. -/
theorem FileInvariant.sysFork (invariant : k.FileInvariant) (width : Nat) (blocks : Blocks) :
    (k.sysFork width blocks).1.FileInvariant := by
  obtain ⟨inside, inUse, running⟩ := invariant.current
  refine ⟨invariant.toTableInvariant.fork width blocks,
    (invariant.counted.sysFork inside inUse width blocks).1, fun i inside' inUse' zombie fd
      open_ => ?_⟩
  cases found : k.freeSlot with
  | none =>
    simp only [Kernel.sysFork, found] at inUse' zombie ⊢
    exact invariant.exited i inside' inUse' zombie fd open_
  | some child =>
    have slot := sysFork_slot width blocks found inUse i
    have files := sysFork_files width blocks found inUse i fd
    by_cases parent : i = k.currentTask
    · rw [if_pos parent] at slot
      have state : ((k.sysFork width blocks).1.tasks i).state = k.current.state :=
        congrArg (·.2.1) slot
      rw [zombie, running] at state
      cases state
    · rw [if_neg parent] at slot
      by_cases here : i = child
      · rw [if_pos here] at slot
        have state : ((k.sysFork width blocks).1.tasks i).state = .waiting :=
          congrArg (·.2.1) slot
        rw [zombie] at state
        cases state
      · rw [if_neg here] at slot files
        simp only [Task.slot, Prod.mk.injEq] at slot
        have inUse'' : (k.tasks i).InUse := by rwa [Task.InUse, ← slot.1]
        rw [Kernel.slot, Kernel.slot, if_pos inUse', if_pos inUse''] at files
        rw [files]
        exact invariant.exited i inside' inUse'' (slot.2.1 ▸ zombie) fd open_

/-- `sys_exit` of the kernel task halts the processor and changes no slot. -/
theorem sysExit_kernelTask (status : Int) (kernelTask : k.current.pid = 0) :
    (∀ i, ((k.sysExit status).tasks i).slot = (k.tasks i).slot) ∧
      (k.sysExit status).currentTask = k.currentTask ∧
      (k.sysExit status).kernelStack = k.kernelStack := by
  obtain ⟨_, current, stack⟩ := closed_slot k 0
  have slots (i : Nat) := (closed_slot k i).1
  unfold Kernel.sysExit
  generalize closeAll nrOpen k.orphanChildren = left at *
  have pid : left.current.pid = 0 := by
    rw [Kernel.current, current]
    exact (congrArg (·.1) (slots k.currentTask)).trans kernelTask
  rw [if_pos pid]
  exact ⟨slots, current, stack⟩

/-- `sys_exit` keeps the invariant. -/
theorem FileInvariant.sysExit (invariant : k.FileInvariant) (status : Int) :
    (k.sysExit status).FileInvariant := by
  obtain ⟨inside, inUse, running⟩ := invariant.current
  have counted := (invariant.counted.sysExit inside inUse status).1
  by_cases user : k.current.pid = 0
  · obtain ⟨slots, current, stack⟩ := sysExit_kernelTask status user
    exact invariant.kept (invariant.toTableInvariant.congr slots current stack) counted slots
      fun i fd other => by rw [sysExit_files, if_neg fun here => other here.1]
  · have step : TaskStep 0 k (.exit status) (k.sysExit status) := .exit status user
    refine ⟨invariant.toTableInvariant.step step, counted, fun i inside' inUse' zombie fd
      open_ => ?_⟩
    rw [sysExit_files]
    split
    · rfl
    · rename_i notHere
      have other : i ≠ k.currentTask := fun here => notHere ⟨here, open_⟩
      obtain ⟨left, ends, _, _, slots⟩ := sysExit_slot k status user
      have slot := slots i
      rw [if_neg other] at slot
      simp only [Task.slot, Prod.mk.injEq] at slot
      rw [ends, switchTask_eq_dispatch, dispatch_tasks] at inUse' zombie
      refine invariant.exited i inside' (by rwa [Task.InUse, ← slot.1]) ?_ fd open_
      dsimp only at zombie
      split at zombie
      · cases zombie
      · rw [← slot.2.1]
        exact stateAtSchedule_zombie.mp zombie

/-- Reaping a task that has exited keeps the counts: it has no descriptors. -/
theorem FileInvariant.reap (invariant : k.FileInvariant) {i : Nat} (nonzero : i ≠ 0)
    (inside : i < nrTasks) (zombie : (k.tasks i).state = .zombie) :
    (k.setTask i fun t => { t with pid := noTask }).FileInvariant := by
  have tasks (j : Nat) := setTask_tasks k i j fun t => { t with pid := noTask }
  refine ⟨invariant.toTableInvariant.reap nonzero zombie, ⟨invariant.counted.null,
    fun f nonnull => ?_⟩, fun j inside' inUse zombie' fd open_ => ?_⟩
  · have slots : (k.setTask i fun t => { t with pid := noTask }).slotsOf f = k.slotsOf f := by
      refine congrArg Finset.card (Finset.filter_congr fun p member => ?_)
      rw [tasks]
      split
      · rename_i here
        have unused : ¬((k.tasks i).InUse ∧ (k.tasks i).files p.2 = f) := fun used =>
          nonnull (used.2.symm.trans (invariant.exited i inside used.1 zombie p.2
            (mem_cells.mp member).2))
        rw [here]
        simpa [Task.InUse] using unused
      · rfl
    rw [slots]
    exact invariant.counted.count f nonnull
  · rw [tasks] at inUse zombie' ⊢
    split at inUse
    · exact absurd rfl inUse
    · rename_i other
      rw [if_neg other] at zombie' ⊢
      exact invariant.exited j inside' inUse zombie' fd open_

/-- The objects that are closed between two states, each once. -/
def ClosesOnce (k k' : Kernel) : Prop :=
  ∃ closed, k'.closings = k.closings ++ closed ∧ closed.Nodup ∧
    ∀ f, f ∈ closed ↔ f ∈ k.file ∧ f ∉ k'.file

/-- What a step closes while no object is opened is closed once. -/
theorem Closes.once {closed : List Nat} (closes : Closes k k' closed) : ClosesOnce k k' :=
  ⟨closed, closes.closings, closes.nodup, closes.mem⟩

/-- Every step keeps the invariant, and closes no object twice. -/
theorem FileInvariant.step {namei : PathResolver} {width : Nat} {call : FileCall}
    (invariant : k.FileInvariant) (step : FileStep namei width k call k') :
    k'.FileInvariant ∧ ClosesOnce k k' := by
  obtain ⟨inside, inUse, running⟩ := invariant.current
  have counted := invariant.counted
  have awake : k.current.state ≠ .zombie := by simp [running]
  cases step with
  | @dispatch next inside' inUse' awake' =>
    have same := dispatch_holdings k next
    refine ⟨⟨invariant.toSwitchable.dispatch inside' inUse' awake', counted.same same,
      fun i inside inUse zombie => ?_⟩, (Closes.none rfl fun _ => .rfl : Closes _ _ []).once⟩
    rw [same.files]
    rw [dispatch_tasks] at inUse zombie
    refine invariant.exited i inside inUse ?_
    dsimp only at zombie
    split at zombie
    · cases zombie
    · exact stateAtSchedule_zombie.mp zombie
  | sysOpen blocks filename flag =>
    obtain ⟨counted', closings, kept⟩ := counted.sysOpen inside inUse namei blocks filename flag
    refine ⟨?_, [], by rw [closings, List.append_nil], List.nodup_nil, fun f => ?_⟩
    · rcases sysOpen_cases namei blocks k filename flag with ⟨same, _⟩ | ⟨_, _, same⟩ |
        ⟨_, fd, f, file, _, _, _, _, _, same⟩
      · rw [same]
        exact invariant
      · rw [same] at counted' ⊢
        exact invariant.kept (invariant.toTableInvariant.congr (fun _ => rfl) rfl rfl) counted'
          (fun _ => rfl) fun _ _ _ => rfl
      · rw [same] at counted' ⊢
        have slots (i : Nat) := setFile_slot { k with
          vfs := (namei k.vfs k.current filename).1, file := k.file.insert f file } fd f i
        refine invariant.kept (invariant.toTableInvariant.congr slots rfl rfl) counted' slots
          fun i x other => ?_
        rw [setFile_files, if_neg fun here => other here.1]
    · simp only [List.not_mem_nil, false_iff, not_and, not_not]
      exact kept f
  | sysClose fd =>
    obtain ⟨counted', closed, closes⟩ := counted.sysClose inside inUse fd
    obtain ⟨_, current, stack⟩ := sysClose_slot k fd 0
    have slots (i : Nat) := (sysClose_slot k fd i).1
    refine ⟨invariant.kept (invariant.toTableInvariant.congr slots current stack) counted' slots
      fun i x other => ?_, closes.once⟩
    by_cases inRange : fd < 0 ∨ nrOpen ≤ fd
    · rw [Kernel.sysClose, if_pos inRange]
    · rw [sysClose_files k inRange, if_neg fun here => other here.1]
  | sysDup fd =>
    obtain ⟨counted', closed, closes⟩ := counted.sysDup inside inUse fd
    refine ⟨?_, closes.once⟩
    unfold Kernel.sysDup at counted' ⊢
    split at counted'
    · exact invariant
    · exact invariant.sysDup2 _ _ counted'
  | sysDup2 differ =>
    obtain ⟨counted', closed, closes⟩ := counted.sysDup2 inside inUse differ
    exact ⟨invariant.sysDup2 _ _ counted', closes.once⟩
  | sysChdir name =>
    obtain ⟨invariant', closed, closes⟩ := invariant.changeDirectory namei name
      (fun t node => { t with pwd := node }) (fun _ _ => rfl) fun _ _ => rfl
    exact ⟨invariant', closes.once⟩
  | sysChroot name =>
    unfold Kernel.sysChroot
    split
    · exact ⟨invariant, (Closes.none rfl fun _ => .rfl : Closes _ _ []).once⟩
    · obtain ⟨invariant', closed, closes⟩ := invariant.changeDirectory namei name
        (fun t node => { t with root := node }) (fun _ _ => rfl) fun _ _ => rfl
      exact ⟨invariant', closes.once⟩
  | sysFork blocks =>
    obtain ⟨_, closed, closes⟩ := counted.sysFork inside inUse width blocks
    exact ⟨invariant.sysFork width blocks, closes.once⟩
  | sysExit status =>
    obtain ⟨_, closed, closes⟩ := counted.sysExit inside inUse status
    exact ⟨invariant.sysExit status, closes.once⟩
  | sysWaitpid returns =>
    rcases sysWaitpid_cases returns with ⟨rfl, _⟩ | ⟨positive, bound, zombie, rfl⟩
    · exact ⟨invariant, (Closes.none rfl fun _ => .rfl : Closes _ _ []).once⟩
    · exact ⟨invariant.reap (by omega) (by omega) zombie,
        (Closes.none rfl fun _ => .rfl : Closes _ _ []).once⟩

end Kernel

/-- Every reachable state satisfies the invariant. -/
theorem fileInvariant_of_reachable {namei : PathResolver} {width : Nat} {k : Kernel}
    (reached : (fileSystem namei width).Reachable k) : k.FileInvariant := by
  refine reached.invariant ?_ fun k call k' invariant _ step => (invariant.step step).1
  rintro _ ⟨blocks, boot, none, rfl⟩
  exact Kernel.setupTasking_files blocks none

/-- Open-file objects in every reachable state: an object that a descriptor of a task in use
refers to exists and its count is the number of (task, descriptor) pairs that refer to it; an
object exists only as long as there is such a pair; and a step closes, each once, exactly the
objects whose last pair it clears, which are the ones it frees. -/
theorem open_files_counted {namei : PathResolver} {width : Nat} {k : Kernel}
    (reached : (fileSystem namei width).Reachable k) :
    (∀ i < nrTasks, (k.tasks i).InUse → ∀ fd < nrOpen, (k.tasks i).files fd ≠ 0 →
      ∃ file, k.file.lookup ((k.tasks i).files fd) = some file ∧
        file.count = k.slotsOf ((k.tasks i).files fd)) ∧
    (∀ f ∈ k.file, 0 < k.slotsOf f) ∧
    ∀ call k', FileStep namei width k call k' → ∃ closed,
      k'.closings = k.closings ++ closed ∧ closed.Nodup ∧
      (∀ f, f ∈ closed ↔ f ≠ 0 ∧ 0 < k.slotsOf f ∧ k'.slotsOf f = 0) ∧
      ∀ f, f ∈ closed ↔ f ∈ k.file ∧ f ∉ k'.file := by
  have invariant := fileInvariant_of_reachable reached
  refine ⟨fun i inside inUse fd open_ nonnull => ?_,
    fun f member => (invariant.counted.mem_iff.mp member).2, fun call k' step => ?_⟩
  · obtain ⟨file, live⟩ := invariant.counted.lookup_slot inside inUse open_ nonnull
    exact ⟨file, live, (invariant.counted.of_lookup live).2.1⟩
  · obtain ⟨invariant', closed, closings, nodup, freed⟩ := invariant.step step
    refine ⟨closed, closings, nodup, fun f => ?_, freed⟩
    rw [freed, invariant.counted.mem_iff, invariant'.counted.mem_iff]
    constructor
    · rintro ⟨⟨nonnull, before⟩, after⟩
      exact ⟨nonnull, before, by
        by_contra used
        exact after ⟨nonnull, by omega⟩⟩
    · rintro ⟨nonnull, before, after⟩
      exact ⟨⟨nonnull, before⟩, fun used => by omega⟩

/-- The count of a file that task 0 opens and duplicates. -/
theorem open_files_counted_dup :
    let namei : PathResolver := fun vfs _ _ => (vfs, 1, 0)
    let start := Kernel.setupTasking Blocks.above { tasks := fun _ => {} }
    let k := ((start.sysOpen namei Blocks.above [] 0).1.sysDup 0).1
    ∃ file, k.file.lookup ((k.tasks 0).files 0) = some file ∧
      file.count = k.slotsOf ((k.tasks 0).files 0) := by
  intro namei start k
  have started : (fileSystem namei ucharWidth).Reachable start := .start ⟨_, _, rfl, rfl⟩
  have opened := started.next trivial (.sysOpen Blocks.above [] 0)
  have duplicated := opened.next trivial (.sysDup 0)
  exact (open_files_counted duplicated).1 0 (by decide) (by decide) 0 (by decide) (by decide)

end Nupkux
