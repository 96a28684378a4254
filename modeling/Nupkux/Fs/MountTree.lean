import Nupkux.Fs.Extends
import Nupkux.Lib.Follow

/-!
# File systems mounted on each other

Each file system is a tree: the name `..` in a directory leads to its parent, and other names
to children. Mounts join these trees: the root of a file system covers a vnode of another one,
and no file system is mounted above itself. The tree below a directory is what entries and
mounts lead down to. A place is an inode, by super block and number, whether or not it has a
vnode in the cache.
-/

namespace Nupkux

/-- What file systems promise of `lookup` in their directories: `..` is the parent, which is the
directory itself for the root directory, and other names lead to entries, which are not the root
directory, and if they are directories, then their parent is the one they are found in. Of other
inodes nothing is promised, and a file may be found in several directories. -/
structure Hierarchy (inode : Nat → Nat → Attributes) where
  parent : Nat → Nat → Nat
  root : Nat → Nat
  parent_eq : ∀ sb ino, parent sb ino = ino ↔ ino = root sb
  up : ∀ sb ino lookup name, (inode sb ino).flags &&& 7 = fsDirectory →
    (inode sb ino).lookup = some lookup → nameiMatch name dotdot → lookup name = some (parent sb ino)
  down : ∀ sb ino lookup name entry, (inode sb ino).flags &&& 7 = fsDirectory →
    (inode sb ino).lookup = some lookup → ¬nameiMatch name dot → ¬nameiMatch name dotdot →
    lookup name = some entry →
    entry ≠ root sb ∧ ((inode sb entry).flags &&& 7 = fsDirectory → parent sb entry = ino)

namespace Vfs

variable {v v' : Vfs}

/-- An acyclic mount configuration: vnodes with a reference each, filled by `read_inode`, whose
`mount` and `cover` pointers belong together. -/
structure MountTree (v : Vfs) (h : Hierarchy v.inode) : Prop where
  cached : v.Cached
  counted : ∀ node n, v.vnode.lookup node = some n → 0 < n.count
  filled : ∀ node n, v.vnode.lookup node = some n → n.attributes = v.inode n.sb n.ino
  covers : ∀ node, v.mountOf node ≠ 0 → v.coverOf (v.mountOf node) = node
  mounts : ∀ node, v.coverOf node ≠ 0 → v.mountOf (v.coverOf node) = node
  covered : ∀ node n, v.vnode.lookup node = some n → v.coverOf node ≠ 0 → n.ino = h.root n.sb
  acyclic : ∃ depth : Nat → Nat, ∀ node n m, v.vnode.lookup node = some n →
    v.vnode.lookup (v.coverOf node) = some m → depth m.sb < depth n.sb

/-- An inode, by super block and number. -/
abbrev Place := Nat × Nat

/-- The vnode is there, and is of this inode. -/
def At (v : Vfs) (node : Nat) (place : Place) : Prop :=
  ∃ n, v.vnode.lookup node = some n ∧ (n.sb, n.ino) = place

/-- Following mounts from one place arrives at another. -/
inductive Arrives (v : Vfs) : Place → Place → Prop
  /-- The mounts on a vnode are followed to the last one. -/
  | mounted {place place' : Place} {node top steps : Nat} : v.At node place →
      Follow v.mountOf steps node top → v.At top place' → Arrives v place place'
  /-- An inode without a vnode has no mount. -/
  | bare {place : Place} : (∀ node, ¬v.At node place) → Arrives v place place

/-- The tree below a place: directory entries lead down, then mounts. -/
inductive Below (v : Vfs) (start : Place) : Place → Prop
  /-- The place itself. -/
  | start : Below v start start
  /-- An entry of a directory below. -/
  | entry {place arrived : Place} {lookup : CString → Option Nat} {name : CString} {ino : Nat} :
      Below v start place → (v.inode place.1 place.2).flags &&& 7 = fsDirectory →
      (v.inode place.1 place.2).lookup = some lookup → ¬nameiMatch name dot →
      ¬nameiMatch name dotdot → lookup name = some ino → v.Arrives (place.1, ino) arrived →
      Below v start arrived

/-! ## Vnodes and places -/

/-- A place has one vnode. -/
theorem Cached.at_unique (cached : v.Cached) {node other : Nat} {place : Place}
    (here : v.At node place) (there : v.At other place) : node = other := by
  obtain ⟨n, live, rfl⟩ := here
  obtain ⟨m, live', same⟩ := there
  rw [Prod.mk.injEq] at same
  exact cached.inode node other n m live live' same.1.symm same.2.symm

/-- A vnode is of one place. -/
theorem At.unique {node : Nat} {place place' : Place} (here : v.At node place)
    (here' : v.At node place') : place = place' := by
  obtain ⟨n, live, rfl⟩ := here
  obtain ⟨m, live', rfl⟩ := here'
  rw [Option.some.inj (live.symm.trans live')]

/-- A vnode with a mount is there. -/
theorem live_of_mountOf {node : Nat} (mounted : v.mountOf node ≠ 0) :
    ∃ n, v.vnode.lookup node = some n := by
  cases found : v.vnode.lookup node with
  | none => simp [mountOf, found] at mounted
  | some n => exact ⟨n, rfl⟩

/-- A vnode with a cover is there. -/
theorem live_of_coverOf {node : Nat} (covers : v.coverOf node ≠ 0) :
    ∃ n, v.vnode.lookup node = some n := by
  cases found : v.vnode.lookup node with
  | none => simp [coverOf, found] at covers
  | some n => exact ⟨n, rfl⟩

namespace MountTree

variable {h : Hierarchy v.inode}

/-- What is mounted is there. -/
theorem live_mount (tree : v.MountTree h) {node : Nat} (mounted : v.mountOf node ≠ 0) :
    ∃ n, v.vnode.lookup (v.mountOf node) = some n := by
  obtain ⟨n, live⟩ := live_of_mountOf mounted
  refine live_of_coverOf ?_
  rw [tree.covers node mounted]
  exact tree.cached.ne_zero live

/-- What is covered is there. -/
theorem live_cover (tree : v.MountTree h) {node : Nat} (covers : v.coverOf node ≠ 0) :
    ∃ n, v.vnode.lookup (v.coverOf node) = some n := by
  obtain ⟨n, live⟩ := live_of_coverOf covers
  refine live_of_mountOf ?_
  rw [tree.mounts node covers]
  exact tree.cached.ne_zero live

/-- Following mounts from a vnode ends at a vnode. -/
theorem live_top (tree : v.MountTree h) {steps node top : Nat} {n : Vnode}
    (live : v.vnode.lookup node = some n) (follow : Follow v.mountOf steps node top) :
    ∃ m, v.vnode.lookup top = some m := by
  induction follow generalizing n with
  | last _ => exact ⟨n, live⟩
  | step mounted _ ih =>
    obtain ⟨m, there⟩ := tree.live_mount mounted
    exact ih there

/-- How deep a vnode's file system is mounted. -/
def depthOf (v : Vfs) (depth : Nat → Nat) (node : Nat) : Nat :=
  ((v.vnode.lookup node).map fun n => depth n.sb).getD 0

/-- A cover is less deep. -/
theorem depthOf_cover (tree : v.MountTree h) {depth : Nat → Nat}
    (deeper : ∀ node n m, v.vnode.lookup node = some n →
      v.vnode.lookup (v.coverOf node) = some m → depth m.sb < depth n.sb)
    (node : Nat) (covers : v.coverOf node ≠ 0) :
    depthOf v depth (v.coverOf node) < depthOf v depth node := by
  obtain ⟨n, live⟩ := live_of_coverOf covers
  obtain ⟨m, live'⟩ := tree.live_cover covers
  have lower := deeper node n m live live'
  rw [depthOf, depthOf, live, live']
  exact lower

/-- Mounts and covers end, within a bound. -/
theorem bounded (tree : v.MountTree h) : ∃ bound,
    (∀ node, ∃ steps top, steps ≤ bound ∧ Follow v.mountOf steps node top) ∧
      ∀ node, ∃ steps bottom, steps ≤ bound ∧ Follow v.coverOf steps node bottom := by
  obtain ⟨depth, deeper⟩ := tree.acyclic
  obtain ⟨bound, below⟩ := Store.exists_bound v.vnode fun n => depth n.sb
  have lower := tree.depthOf_cover deeper
  have inside (node : Nat) : depthOf v depth node ≤ bound := by
    unfold depthOf
    cases found : v.vnode.lookup node with
    | none => exact Nat.zero_le _
    | some n => exact below node n found
  refine ⟨bound, fun node => ?_, fun node => ?_⟩
  · obtain ⟨steps, top, few, follow⟩ := Follow.exists_of_rank
      (fun node => bound - depthOf v depth node) (fun node mounted => by
        have higher := lower (v.mountOf node)
        rw [tree.covers node mounted] at higher
        obtain ⟨n, live⟩ := live_of_mountOf mounted
        have above := higher (tree.cached.ne_zero live)
        have top := inside (v.mountOf node)
        omega) node
    exact ⟨steps, top, few.trans (Nat.sub_le _ _), follow⟩
  · obtain ⟨steps, bottom, few, follow⟩ := Follow.exists_of_rank (depthOf v depth) lower node
    exact ⟨steps, bottom, few.trans (inside node), follow⟩

end MountTree

/-! ## The tree below a place -/

/-- Mounts lead from a place to one other. -/
theorem Arrives.unique (cached : v.Cached) {place place' place'' : Place}
    (first : v.Arrives place place') (second : v.Arrives place place'') : place' = place'' := by
  cases first with
  | mounted here follow there =>
    cases second with
    | mounted here' follow' there' =>
      obtain rfl := cached.at_unique here here'
      obtain rfl := follow.unique follow'
      exact there.unique there'
    | bare none => exact absurd here (none _)
  | bare none =>
    cases second with
    | mounted here' _ _ => exact absurd here' (none _)
    | bare _ => rfl

end Vfs

end Nupkux
