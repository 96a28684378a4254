import Nupkux.Kernel.FileCounts

/-!
# Duplicating a descriptor

`sys_dup2` closes its second descriptor before it copies the first one. When both are the same
descriptor, the copy is of a slot that was just cleared.
-/

namespace Nupkux

namespace Kernel

/-- The descriptors that `sys_dup2` accepts: both in range, and the first one open. -/
def CanDup (k : Kernel) (fd fd2 : Int) : Prop :=
  (0 ≤ fd ∧ fd < nrOpen) ∧ (0 ≤ fd2 ∧ fd2 < nrOpen) ∧ k.current.files fd.toNat ≠ 0

/-- The count of an open-file object, 0 for one that is gone. -/
def fileCount (k : Kernel) (f : Nat) : Nat := ((k.file.lookup f).map (·.count)).getD 0

/-- What a `sys_dup2` should do. -/
structure Duplicates (k : Kernel) (fd fd2 : Int) (k' : Kernel) (ret : Int) : Prop where
  /-- Descriptors that are not accepted. -/
  refused : ¬k.CanDup fd fd2 → k' = k ∧ ret = -EBADF
  /-- The answer for others. -/
  returns : k.CanDup fd fd2 → ret = fd2
  /-- The first descriptor names the object it named, -/
  source : k.CanDup fd fd2 → k'.current.files fd.toNat = k.current.files fd.toNat
  /-- and so does the second. -/
  copy : k.CanDup fd fd2 → k'.current.files fd2.toNat = k.current.files fd.toNat
  /-- The other slots of the table are kept. -/
  others : ∀ i x, ¬(i = k.currentTask ∧ x = fd2.toNat) →
    (k'.tasks i).files x = (k.tasks i).files x
  /-- Counts change as the numbers of slots do. -/
  counts : ∀ f, f ≠ 0 → k'.fileCount f + k.slotsOf f = k.fileCount f + k'.slotsOf f

variable {k : Kernel} {fd fd2 : Int} {f : Nat}

/-- The count of an object is the number of its slots. -/
theorem Counted.fileCount (counted : k.Counted) (nonnull : f ≠ 0) :
    k.fileCount f = k.slotsOf f := by
  rw [Kernel.fileCount, counted.count f nonnull, positive]
  split
  · rename_i none
    rw [none]
    rfl
  · rfl

/-- Descriptors that are not accepted leave everything as it is. -/
theorem sysDup2_refused (refused : ¬k.CanDup fd fd2) : k.sysDup2 fd fd2 = (k, -EBADF) := by
  unfold sysDup2
  by_cases range : fd < 0 ∨ nrOpen ≤ fd ∨ fd2 < 0 ∨ nrOpen ≤ fd2
  · rw [if_pos range]
  · rw [if_neg range]
    apply if_pos
    by_contra nonnull
    exact refused ⟨by omega, by omega, nonnull⟩

/-- The descriptors after a `sys_dup2` that is accepted: the second one is given what the first one
names once the second is closed. -/
theorem sysDup2_files (accepted : k.CanDup fd fd2) (i x : Nat) :
    (k.sysDup2 fd fd2).2 = fd2 ∧ (k.sysDup2 fd fd2).1.currentTask = k.currentTask ∧
      ((k.sysDup2 fd fd2).1.tasks i).files x =
        if i = k.currentTask ∧ x = fd2.toNat then
          (if fd = fd2 then 0 else k.current.files fd.toNat)
        else (k.tasks i).files x := by
  obtain ⟨range, range2, nonnull⟩ := accepted
  have current := (sysClose_slot k fd2 0).2.1
  have inRange2 : ¬(fd2 < 0 ∨ nrOpen ≤ fd2) := by omega
  have closed := sysClose_files k inRange2
  unfold sysDup2
  rw [if_neg (by omega), if_neg nonnull]
  refine ⟨rfl, current, ?_⟩
  have given : (k.sysClose fd2).1.current.files fd.toNat =
      if fd = fd2 then 0 else k.current.files fd.toNat := by
    rw [Kernel.current, current, closed]
    by_cases same : fd = fd2
    · rw [if_pos ⟨rfl, congrArg Int.toNat same⟩, if_pos same]
    · rw [if_neg (fun here => same (by omega)), if_neg same]
      rfl
  dsimp only
  rw [setFile_files, current, given, closed]
  split
  · rfl
  · rfl

/-- In a state whose objects are counted as their slots, `sys_dup2` does what it should if and only
if it refuses the descriptors or they are two different ones. -/
theorem sysDup2_duplicates_iff (counted : k.Counted) (inside : k.currentTask < nrTasks)
    (inUse : k.current.InUse) :
    Duplicates k fd fd2 (k.sysDup2 fd fd2).1 (k.sysDup2 fd fd2).2 ↔
      ¬k.CanDup fd fd2 ∨ fd ≠ fd2 := by
  constructor
  · intro duplicates
    by_contra neither
    obtain ⟨refused, same⟩ := not_or.mp neither
    have accepted : k.CanDup fd fd2 := not_not.mp refused
    obtain ⟨_, current, files⟩ := sysDup2_files accepted k.currentTask fd2.toNat
    have copied := duplicates.copy accepted
    rw [Kernel.current, current, files, if_pos ⟨rfl, rfl⟩, if_pos (not_not.mp same)] at copied
    exact accepted.2.2 copied.symm
  · intro either
    by_cases accepted : k.CanDup fd fd2
    · have differ : fd ≠ fd2 := either.resolve_left (not_not.mpr accepted)
      have files (i x : Nat) := sysDup2_files accepted i x
      have current := (files 0 0).2.1
      have counted' := (counted.sysDup2 inside inUse differ).1
      have apart : fd.toNat ≠ fd2.toNat := by
        have range := accepted.1
        have range2 := accepted.2.1
        omega
      refine ⟨fun refused => absurd accepted refused, fun _ => (files 0 0).1, fun _ => ?_,
        fun _ => ?_, fun i x other => ?_, fun f nonnull => ?_⟩
      · rw [Kernel.current, current, (files _ _).2.2, if_neg fun here => apart here.2]
        rfl
      · rw [Kernel.current, current, (files _ _).2.2, if_pos ⟨rfl, rfl⟩, if_neg differ]
      · rw [(files i x).2.2, if_neg other]
      · rw [counted.fileCount nonnull, counted'.fileCount nonnull, Nat.add_comm]
    · rw [sysDup2_refused accepted]
      exact ⟨fun _ => ⟨rfl, rfl⟩, fun yes => absurd yes accepted, fun _ => rfl,
        fun yes => absurd yes accepted, fun _ _ _ => rfl, fun _ _ => rfl⟩

/-- Task 0 after boot with one open file, the descriptor 0. -/
def oneOpen : Kernel :=
  ((setupTasking Blocks.above { tasks := fun _ => {} }).sysOpen (fun vfs _ _ => (vfs, 1, 0))
    Blocks.above [] 0).1

/-- Descriptor 0 is duplicated to 5. -/
theorem sysDup2_duplicates_iff_five :
    Duplicates oneOpen 0 5 (oneOpen.sysDup2 0 5).1 (oneOpen.sysDup2 0 5).2 := by
  have started : (fileSystem (fun vfs _ _ => (vfs, 1, 0)) ucharWidth).Reachable
      (setupTasking Blocks.above { tasks := fun _ => {} }) := .start ⟨_, _, rfl, rfl⟩
  have opened := started.next trivial (.sysOpen Blocks.above [] 0)
  have invariant := fileInvariant_of_reachable opened
  exact (sysDup2_duplicates_iff invariant.counted (by decide) (by decide)).mpr (.inr (by decide))

/-- Descriptor 0 duplicated to itself: it is closed, and its object is gone. -/
theorem sysDup2_duplicates_not :
    (oneOpen.sysDup2 0 0).2 = 0 ∧ oneOpen.current.files 0 ≠ 0 ∧
      (oneOpen.sysDup2 0 0).1.current.files 0 = 0 ∧
      (oneOpen.sysDup2 0 0).1.fileCount (oneOpen.current.files 0) = 0 ∧
      ¬Duplicates oneOpen 0 0 (oneOpen.sysDup2 0 0).1 (oneOpen.sysDup2 0 0).2 := by
  have accepted : oneOpen.CanDup 0 0 := ⟨by decide, by decide, by decide⟩
  have cleared : (oneOpen.sysDup2 0 0).1.current.files 0 = 0 := by decide
  refine ⟨by decide, by decide, cleared, by decide, fun duplicates => ?_⟩
  have copied := duplicates.copy accepted
  exact accepted.2.2 (copied.symm.trans cleared)

end Kernel

end Nupkux
