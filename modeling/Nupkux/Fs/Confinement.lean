import Nupkux.Fs.NameiBalance

/-!
# Path resolution stays below the root

Whatever the path, the vnode that `namei` returns is at a place below the root of the task, when
the working directory is: names lead down to entries and the mounts on them, and `..` leads back
up the same way, until it comes to the root. `getdentry` follows a cover before it compares with
the root, so the root itself must not be mounted on a directory that has a parent.
-/

namespace Nupkux

namespace Vfs

variable {v v' v'' : Vfs} {h : Hierarchy v.inode} {node : Nat} {extra : List Nat} {place start : Place}

/-- The mounts on the vnode end at a place below another. -/
def Inside (v : Vfs) (start : Place) (node : Nat) : Prop :=
  ∃ steps top place, Follow v.mountOf steps node top ∧ v.At top place ∧ Below v start place

/-- `..` does not lead out of the root: nothing is under the mounts on it but the root directory
of a file system. -/
def Sealed (v : Vfs) (h : Hierarchy v.inode) (root : Nat) : Prop :=
  ∀ steps node n, v.vnode.lookup node = some n → v.coverOf node = 0 →
    Follow v.mountOf steps node root → node = root ∨ n.ino = h.root n.sb

/-- The vnode found is at a place below. -/
def FoundBelow (v : Vfs) (start : Place) (result : Vfs × Nat × Int) : Prop :=
  result.2.1 ≠ 0 → ∃ place, result.1.At result.2.1 place ∧ Below v start place

/-! ## Places below -/

/-- Nothing is mounted at a place that mounts lead to. -/
theorem Arrives.resolved (cached : v.Cached) {place' : Place} (arrives : v.Arrives place place')
    (here : v.At node place') : v.mountOf node = 0 := by
  cases arrives with
  | mounted _ follow there =>
    obtain rfl := cached.at_unique there here
    exact follow.ends
  | bare none => exact absurd here (none node)

/-- Nothing is mounted at a place below. -/
theorem Below.resolved (cached : v.Cached) (bare : ∀ top, v.At top start → v.mountOf top = 0)
    (below : Below v start place) (here : v.At node place) : v.mountOf node = 0 := by
  cases below with
  | start => exact bare node here
  | entry _ _ _ _ _ _ arrives => exact arrives.resolved cached here

/-- Mounts lead from a place below to itself. -/
theorem Below.arrives_eq (cached : v.Cached) (bare : ∀ top, v.At top start → v.mountOf top = 0)
    {place' : Place} (below : Below v start place) (arrives : v.Arrives place place') :
    place' = place := by
  cases arrives with
  | mounted here follow there =>
    obtain rfl := follow.eq_of_null (below.resolved cached bare here)
    exact there.unique here
  | bare _ => rfl

namespace MountTree

/-- A mount tree is a mount configuration. -/
theorem wellMounted (tree : v.MountTree h) : v.WellMounted :=
  ⟨tree.cached, tree.counted, fun _ => tree.live_mount, fun _ => tree.live_cover⟩

/-- Only one vnode under the mounts on another is not covered. -/
theorem eq_bottom (tree : v.MountTree h) {steps steps' other top : Nat} {n m : Vnode}
    (live : v.vnode.lookup node = some n) (live' : v.vnode.lookup other = some m)
    (bare : v.coverOf node = 0) (bare' : v.coverOf other = 0)
    (follow : Follow v.mountOf steps node top) (follow' : Follow v.mountOf steps' other top) :
    node = other := by
  obtain ⟨_, _, covers⟩ := tree.bounded
  obtain ⟨count, bottom, _, back⟩ := covers top
  obtain ⟨_, first⟩ := follow.through tree.covers (tree.cached.ne_zero live) back
  obtain ⟨_, second⟩ := follow'.through tree.covers (tree.cached.ne_zero live') back
  rw [← first.eq_of_null bare, ← second.eq_of_null bare']

/-- The parent of a directory in a place below is below too, unless the place is the start. -/
theorem parent_below (tree : v.MountTree h) {steps top : Nat} {n : Vnode} {place' : Place}
    (bare : ∀ top, v.At top start → v.mountOf top = 0) (live : v.vnode.lookup node = some n)
    (directory : (v.inode n.sb n.ino).flags &&& 7 = fsDirectory)
    (uncovered : v.coverOf node = 0) (follow : Follow v.mountOf steps node top)
    (here : v.At top place) (below : Below v start place) (further : place ≠ start)
    (arrives : v.Arrives (n.sb, h.parent n.sb n.ino) place') : Below v start place' := by
  cases below with
  | start => exact absurd rfl further
  | @entry above _ lookup name ino below within looks not_dot not_dotdot finds entered =>
    obtain ⟨sb, above⟩ := above
    obtain ⟨not_root, parent⟩ := h.down sb above lookup name ino within looks not_dot not_dotdot
      finds
    cases entered with
    | bare none => exact absurd here (none top)
    | @mounted _ other _ _ there follow' arrived =>
      obtain rfl := tree.cached.at_unique arrived here
      obtain ⟨m, live', same⟩ := there
      obtain ⟨rfl, rfl⟩ := Prod.mk.inj same
      -- the entry is no root, so it covers nothing, and it is the directory itself
      have uncovered' : v.coverOf other = 0 :=
        not_not.mp fun covers => not_root (tree.covered other m live' covers)
      obtain rfl := tree.eq_bottom live live' uncovered uncovered' follow follow'
      obtain rfl := Option.some.inj (live.symm.trans live')
      rw [parent directory] at arrives
      rw [below.arrives_eq tree.cached bare arrives]
      exact below

end MountTree

/-! ## Vnodes keep their places -/

/-- The place of a vnode, by what is in the store. -/
theorem at_iff : v.At node place ↔
    ((v.vnode.lookup node).map Vnode.content).map (fun n => (n.sb, n.ino)) = some place := by
  rw [Option.map_map]
  exact Option.map_eq_some_iff.symm

/-- Taking a reference moves no vnode. -/
theorem hold_at (v : Vfs) (width held : Nat) : (v.hold width held).At node place ↔ v.At node place := by
  rw [at_iff, at_iff, Vfs.hold, Store.lookup_modify]
  split
  · rename_i here
    rw [here]
    cases v.vnode.lookup held <;> rfl
  · rfl

/-- The vnodes after a reference was given back were there before. -/
theorem iput_at (cached : v.Cached) {given : Nat} (there : (v.iput given).At node place) :
    v.At node place := by
  rw [at_iff] at there ⊢
  by_cases here : node = given
  · rw [here] at there ⊢
    cases live : v.vnode.lookup given with
    | none =>
      rw [iput_of_absent live, live] at there
      cases there
    | some n =>
      by_cases zero : n.count = 0
      · rwa [iput_of_zero live zero, live] at there
      · rw [iput_lookup cached live zero, if_pos rfl] at there
        split at there
        · cases there
        · exact there
  · rwa [iput_content_ne cached here] at there

/-- The vnodes after `resolve_mount` were there before. -/
theorem resolveMount_at {width fuel steps at_first : Nat} {status : Int} {result : Vfs × Nat × Int}
    (cached : v.Cached)
    (done : v.resolveMount width fuel at_first status steps = some result)
    (there : result.1.At node place) : v.At node place := by
  induction fuel generalizing v at_first with
  | zero => cases done
  | succ fuel ih =>
    rw [resolveMount] at done
    split at done
    · split at done
      · cases done
        exact iput_at cached there
      · exact iput_at cached ((hold_at _ _ _).mp (ih ((cached.iput _).hold _ _) done))
    · cases done
      exact there

/-- `iget` returns the vnode of the inode. -/
theorem iget_at (cached : v.Cached) (width : Nat) (calloc : Allocator Vnode) (sb ino : Nat)
    (found : (v.iget width calloc sb ino).2 ≠ 0) :
    (v.iget width calloc sb ino).1.At (v.iget width calloc sb ino).2 (sb, ino) := by
  by_cases live : ∃ node n, v.vnode.lookup node = some n ∧ n.sb = sb ∧ n.ino = ino
  · obtain ⟨node, n, there, rfl, rfl⟩ := live
    rw [iget_of_live cached there calloc]
    exact (hold_at _ _ _).mpr ⟨n, there, rfl⟩
  · have absent (node : Nat) (n : Vnode) (there : v.vnode.lookup node = some n)
        (sbs : n.sb = sb) : n.ino ≠ ino := fun inos => live ⟨node, n, there, sbs, inos⟩
    unfold iget at found ⊢
    split at found
    · exact absurd rfl found
    · rename_i block holds
      rw [findCached_of_absent cached holds absent] at found ⊢
      simp only [ne_eq, not_true_eq_false, if_false] at found ⊢
      split at found
      · exact absurd rfl found
      · exact ⟨_, (Store.lookup_insert_eq _ _ _ _).trans (if_pos rfl), rfl⟩

namespace Took

/-- Vnodes from before are at their places. -/
theorem at_of (took : Took v v' extra) (here : v.At node place) : v'.At node place := by
  obtain ⟨n, live, rfl⟩ := here
  obtain ⟨n', live', sb, ino, _⟩ := took.keeps live
  exact ⟨n', live', by rw [sb, ino]⟩

/-- Following mounts from a vnode, also one that was read, arrives where it did before. -/
theorem arrives (took : Took v v' extra) (tree : v.MountTree h) {steps top : Nat}
    (here : v'.At node place) (follow : Follow v.mountOf steps node top) :
    ∃ place', v'.At top place' ∧ v.Arrives place place' := by
  cases before : v.vnode.lookup node with
  | some n =>
    have there : v.At node place := (took.at_of ⟨n, before, rfl⟩).unique here ▸ ⟨n, before, rfl⟩
    obtain ⟨m, live⟩ := tree.live_top before follow
    exact ⟨_, took.at_of ⟨m, live, rfl⟩, .mounted there follow ⟨m, live, rfl⟩⟩
  | none =>
    have null : v.mountOf node = 0 := by rw [Vfs.mountOf, before]; rfl
    obtain rfl := follow.eq_of_null null
    refine ⟨place, here, .bare fun other there => ?_⟩
    obtain rfl := took.cached.at_unique (took.at_of there) here
    obtain ⟨n, live, _⟩ := there
    rw [before] at live
    cases live

/-- Mounts lead where they did. -/
theorem arrives_iff (took : Took v v' extra) (tree : v.MountTree h) {place' : Place} :
    v'.Arrives place place' ↔ v.Arrives place place' := by
  have mounts : v'.mountOf = v.mountOf := funext took.mountOf
  constructor
  · rintro (⟨here, follow, there⟩ | none)
    · rw [mounts] at follow
      obtain ⟨arrived, there', arrives⟩ := took.arrives tree here follow
      rwa [there'.unique there] at arrives
    · exact .bare fun node here => none node (took.at_of here)
  · rintro (⟨here, follow, there⟩ | none)
    · exact .mounted (took.at_of here) (mounts.symm ▸ follow) (took.at_of there)
    · by_cases read : ∃ node, v'.At node place
      · obtain ⟨node, here⟩ := read
        have null : v'.mountOf node = 0 := by
          rw [mounts, Vfs.mountOf]
          cases before : v.vnode.lookup node with
          | none => rfl
          | some n =>
            have there : v.At node (n.sb, n.ino) := ⟨n, before, rfl⟩
            rw [(took.at_of there).unique here] at there
            exact absurd there (none node)
        exact .mounted here (.last null) here
      · exact .bare fun node here => read ⟨node, here⟩

/-- The tree below a place is the same. -/
theorem below_iff (took : Took v v' extra) (tree : v.MountTree h) :
    Below v' start place ↔ Below v start place := by
  constructor
  · intro below
    induction below with
    | start => exact .start
    | entry _ directory looks not_dot not_dotdot finds arrives ih =>
      rw [took.inode] at directory looks
      exact .entry ih directory looks not_dot not_dotdot finds ((took.arrives_iff tree).mp arrives)
  · intro below
    induction below with
    | start => exact .start
    | entry _ directory looks not_dot not_dotdot finds arrives ih =>
      rw [← took.inode] at directory looks
      exact .entry ih directory looks not_dot not_dotdot finds ((took.arrives_iff tree).mpr arrives)

/-- The file systems promise what they did. -/
def hierarchy (took : Took v v' extra) (h : Hierarchy v.inode) : Hierarchy v'.inode where
  parent := h.parent
  root := h.root
  parent_eq := h.parent_eq
  up := by
    rw [took.inode]
    exact h.up
  down := by
    rw [took.inode]
    exact h.down

/-- Taking references keeps a mount tree. -/
theorem mountTree (took : Took v v' extra) (tree : v.MountTree h) :
    v'.MountTree (took.hierarchy h) := by
  have well := took.wellMounted tree.wellMounted
  obtain ⟨depth, deeper⟩ := tree.acyclic
  refine ⟨took.cached, well.counted, fun node n' there => ?_, fun node mounted => ?_,
    fun node covers => ?_, fun node n' there covers => ?_, depth, fun node n' m' there above => ?_⟩
  · rw [took.inode]
    cases before : v.vnode.lookup node with
    | none => exact (took.fresh node n' there before).2.2.1
    | some n =>
      obtain ⟨m, there', sb, ino, attributes, _⟩ := took.keeps before
      obtain rfl := Option.some.inj (there'.symm.trans there)
      rw [sb, ino, attributes]
      exact tree.filled node n before
  · rw [took.mountOf] at mounted ⊢
    rw [took.coverOf]
    exact tree.covers node mounted
  · rw [took.coverOf] at covers ⊢
    rw [took.mountOf]
    exact tree.mounts node covers
  · rw [took.coverOf] at covers
    obtain ⟨n, before⟩ := live_of_coverOf covers
    obtain ⟨m, there', sb, ino, _⟩ := took.keeps before
    obtain rfl := Option.some.inj (there'.symm.trans there)
    rw [sb, ino]
    exact tree.covered node n before covers
  · rw [took.coverOf] at above
    have covers : v.coverOf node ≠ 0 := took.cached.ne_zero above
    obtain ⟨n, before⟩ := live_of_coverOf covers
    obtain ⟨m, before'⟩ := tree.live_cover covers
    obtain ⟨n₁, there₁, sb, _⟩ := took.keeps before
    obtain ⟨m₁, there₂, sb', _⟩ := took.keeps before'
    obtain rfl := Option.some.inj (there₁.symm.trans there)
    obtain rfl := Option.some.inj (there₂.symm.trans above)
    rw [sb, sb']
    exact deeper node n m before before'

/-- What is inside stays inside. -/
theorem inside (took : Took v v' extra) (tree : v.MountTree h) (inside : v.Inside start node) :
    v'.Inside start node := by
  obtain ⟨steps, top, place, follow, here, below⟩ := inside
  refine ⟨steps, top, place, ?_, took.at_of here, (took.below_iff tree).mpr below⟩
  rw [show v'.mountOf = v.mountOf from funext took.mountOf]
  exact follow

/-- What is sealed stays sealed. -/
theorem sealed (took : Took v v' extra) {root : Nat} (closed : v.Sealed h root) :
    v'.Sealed (took.hierarchy h) root := by
  intro steps node n' there uncovered follow
  rw [show v'.mountOf = v.mountOf from funext took.mountOf] at follow
  rw [took.coverOf] at uncovered
  cases before : v.vnode.lookup node with
  | none =>
    have null : v.mountOf node = 0 := by rw [Vfs.mountOf, before]; rfl
    exact .inl (follow.eq_of_null null).symm
  | some n =>
    obtain ⟨m, there', sb, ino, _⟩ := took.keeps before
    obtain rfl := Option.some.inj (there'.symm.trans there)
    rw [sb, ino]
    exact closed steps node n before uncovered follow

end Took

/-! ## Names -/

variable {fuel : Nat} {calloc : Allocator Vnode} {task : Task} {filename : CString}
  {status : Int} {result : Vfs × Nat × Int}

/-- The end of `getdentry` finds an entry, and arrives where the mounts on it lead. -/
theorem lookupEntry_arrives (tree : v.MountTree h) (took : Took v v' [node]) {n : Vnode}
    (live : v.vnode.lookup node = some n)
    (done : v'.lookupEntry exactWidth calloc fuel task node filename = some result)
    (nonnull : result.2.1 ≠ 0) : n.attributes.flags &&& 7 = fsDirectory ∧
      ∃ lookup ino place', n.attributes.lookup = some lookup ∧ lookup filename = some ino ∧
        v.Arrives (n.sb, ino) place' ∧ result.1.At result.2.1 place' := by
  obtain ⟨n', there', sb, _, attributes, _⟩ := took.keeps live
  have fails {error : Int} {w : Vfs} {goal : Prop} (returned : some (w, 0, error) = some result) :
      goal := by
    cases returned
    exact absurd rfl nonnull
  unfold lookupEntry at done
  rw [there', Option.map_some, Option.getD_some, attributes, Option.map_some, Option.getD_some,
    sb] at done
  dsimp only at done
  split at done
  · exact fails done
  · rename_i directory
    split at done
    · exact fails done
    · split at done
      · exact fails done
      · rename_i lookup looks
        cases finds : lookup filename with
        | none =>
          rw [finds, lookupInode, if_pos rfl] at done
          exact fails done
        | some ino =>
          rw [finds, lookupInode] at done
          have gets := took.iget calloc n.sb ino
          have here := iget_at took.cached exactWidth calloc n.sb ino
          dsimp only at gets
          split at done
          · exact fails done
          · rename_i present
            rw [if_neg present] at gets
            -- the directory is given up for its entry, which stays at its place
            have moved := (gets.perm (List.Perm.swap node _ [])).iput tree.wellMounted
              (.inl ⟨n, live⟩)
            obtain ⟨m, there⟩ := moved.taken _ List.mem_cons_self
            have entered := (iput_at gets.cached ⟨m, there, rfl⟩).unique (here present)
            obtain ⟨_, top, follow, found, taken⟩ :=
              resolveMount_takes tree.wellMounted moved (by decide) done
            obtain ⟨place', there', arrives⟩ := moved.arrives tree ⟨m, there, entered⟩ follow
            obtain ⟨l, last⟩ := taken.taken _ List.mem_cons_self
            have arrived := (resolveMount_at moved.cached done ⟨l, last, rfl⟩).unique there'
            have top_eq : result.2.1 = top := congrArg Prod.fst found
            rw [top_eq]
            exact ⟨not_not.mp directory, lookup, ino, place', looks, finds, arrives, l, last,
              arrived⟩

/-- An entry of a directory inside is below; `..` is where the directory is not the root. -/
theorem lookupEntry_below (tree : v.MountTree h) {root : Nat} (here : v.At root start)
    (bare : v.mountOf root = 0) (closed : v.Sealed h root) (took : Took v v' [node])
    (inside : v.Inside start node) (live : v.Live node) (not_dot : ¬nameiMatch filename dot)
    (up : nameiMatch filename dotdot → v.coverOf node = 0 ∧ node ≠ root)
    (down : ¬nameiMatch filename dotdot → v.mountOf node = 0)
    (done : v'.lookupEntry exactWidth calloc fuel task node filename = some result) :
    v.FoundBelow start result := by
  intro nonnull
  have unmounted (other : Nat) (there : v.At other start) : v.mountOf other = 0 := by
    rw [tree.cached.at_unique there here]
    exact bare
  obtain ⟨steps, top, place, follow, there, below⟩ := inside
  obtain ⟨n, live⟩ := live
  obtain ⟨directory, lookup, ino, place', looks, finds, arrives, found⟩ :=
    lookupEntry_arrives tree took live done nonnull
  have filled := tree.filled node n live
  rw [filled] at directory looks
  refine ⟨place', found, ?_⟩
  by_cases upwards : nameiMatch filename dotdot
  · obtain ⟨uncovered, not_root⟩ := up upwards
    have parent := Option.some.inj (finds.symm.trans
      (h.up n.sb n.ino lookup filename directory looks upwards))
    by_cases first : place = start
    · -- under the root is the root directory of a file system, its own parent
      obtain rfl := tree.cached.at_unique (first ▸ there) here
      have at_root := (closed steps node n live uncovered follow).resolve_left not_root
      rw [parent, (h.parent_eq n.sb n.ino).mpr at_root] at arrives
      have back : v.Arrives (n.sb, n.ino) start := .mounted ⟨n, live, rfl⟩ follow here
      rw [arrives.unique tree.cached back]
      exact .start
    · rw [parent] at arrives
      exact tree.parent_below unmounted live directory uncovered follow there below first arrives
  · obtain rfl := follow.eq_of_null (down upwards)
    obtain rfl := there.unique ⟨n, live, rfl⟩
    exact .entry below directory looks not_dot upwards finds arrives

/-- `getdentry` finds what is below, from a vnode inside. -/
theorem getdentry_below {frommount : Bool} (tree : v.MountTree h) (rooted : v.Live task.root)
    {steps root : Nat} (resolves : Follow v.mountOf steps task.root root)
    (here : v.At root start) (closed : v.Sealed h root) (took : Took v v' [])
    (live : v.Live node) (inside : v.Inside start node)
    (upwards : frommount = true → ¬nameiMatch filename dot ∧ nameiMatch filename dotdot)
    (done : v'.getdentry exactWidth calloc task filename fuel node status frommount =
      some result) : v.FoundBelow start result := by
  have well := tree.wellMounted
  induction fuel generalizing v' node status frommount with
  | zero => cases done
  | succ fuel ih =>
    rw [getdentry] at done
    obtain ⟨⟨v₁, top, status₁⟩, first, done⟩ := Option.bind_eq_some_iff.mp done
    -- the mounts on a vnode inside end inside
    have entered : Took v v₁ [top] ∧ v.Live top ∧ v.Inside start top ∧
        (frommount = false → v.mountOf top = 0) := by
      have held := took.hold (took.live live)
      cases frommount with
      | true =>
        cases first
        exact ⟨held, live, inside, fun other => absurd other.symm Bool.false_ne_true⟩
      | false =>
        obtain ⟨count, top', follow, found, moved⟩ := resolveMount_takes well held (by decide) first
        obtain ⟨rfl, _⟩ := Prod.mk.inj found
        obtain ⟨_, last, place, follow', there, below⟩ := inside
        obtain rfl := follow.unique follow'
        exact ⟨moved, well.live_top live follow, ⟨0, _, place, .last follow.ends, there, below⟩,
          fun _ => follow.ends⟩
    obtain ⟨taken, live₁, inside₁, unmounted⟩ := entered
    dsimp only at done
    rw [if_neg (taken.ne_zero List.mem_cons_self)] at done
    by_cases same : nameiMatch filename dot = true
    · rw [if_pos same] at done
      cases done
      intro _
      have plain : frommount = false := by
        cases frommount with
        | true => exact absurd same (upwards rfl).1
        | false => rfl
      obtain ⟨_, last, place, follow, there, below⟩ := inside₁
      obtain rfl := follow.eq_of_null (unmounted plain)
      exact ⟨place, taken.at_of there, below⟩
    · rw [if_neg same] at done
      have not_up (plain : ¬nameiMatch filename dotdot = true) : v.mountOf top = 0 := by
        refine unmounted ?_
        cases frommount with
        | true => exact absurd (upwards rfl).2 plain
        | false => rfl
      by_cases up : nameiMatch filename dotdot = true
      · rw [if_pos up, taken.coverOf] at done
        by_cases covers : v.coverOf top ≠ 0
        · rw [if_pos covers] at done
          refine ih (taken.iput well (.inl live₁)) (well.covers top covers) ?_
            (fun _ => ⟨same, up⟩) done
          have mounts := tree.mounts top covers
          obtain ⟨count, last, place, follow, there, below⟩ := inside₁
          refine ⟨count + 1, last, place, .step ?_ (mounts.symm ▸ follow), there, below⟩
          rw [mounts]
          obtain ⟨n, there⟩ := live₁
          exact tree.cached.ne_zero there
        · rw [if_neg covers] at done
          obtain ⟨⟨v₂, newnode, status₂⟩, resolved, done⟩ := Option.bind_eq_some_iff.mp done
          obtain ⟨count, root', follow, found, moved⟩ :=
            resolveMount_takes well (taken.hold (taken.live rooted)) (by decide) resolved
          obtain ⟨rfl, _⟩ := Prod.mk.inj found
          obtain rfl := follow.unique resolves
          dsimp only at done
          have given := moved.iput well (.inl (well.live_top rooted follow))
          by_cases at_root : top = newnode
          · rw [if_pos at_root] at done
            cases done
            exact fun _ => ⟨start, given.at_of (at_root ▸ here), .start⟩
          · rw [if_neg at_root] at done
            exact lookupEntry_below tree here follow.ends closed given inside₁ live₁ same
              (fun _ => ⟨not_not.mp covers, at_root⟩) not_up done
      · rw [if_neg up] at done
        exact lookupEntry_below tree here resolves.ends closed taken inside₁ live₁ same
          (fun upwards => absurd upwards up) not_up done

/-! ## Paths -/

/-- The vnode is at a place below, or is none. -/
def EndsBelow (v : Vfs) (start : Place) (node : Nat) : Prop :=
  ∃ place, v.At node place ∧ Below v start place

/-- What ends below is inside. -/
theorem EndsBelow.inside (tree : v.MountTree h) {root : Nat} (here : v.At root start)
    (bare : v.mountOf root = 0) (ends : v.EndsBelow start node) : v.Inside start node := by
  obtain ⟨place, there, below⟩ := ends
  refine ⟨0, node, place, .last (below.resolved tree.cached (fun other at_start => ?_) there), there,
    below⟩
  rw [tree.cached.at_unique at_start here]
  exact bare

/-- A vnode inside is there. -/
theorem Inside.live (inside : v.Inside start node) : v.Live node := by
  obtain ⟨_, _, _, follow, ⟨n, live, _⟩, _⟩ := inside
  cases follow with
  | last _ => exact ⟨n, live⟩
  | step mounted _ => exact live_of_mountOf mounted

/-- The loop of `igetdir` stays inside, and below once a directory is entered. -/
theorem walk_inside {path basename : CString} {last : Nat} {status' : Int} (tree : v.MountTree h)
    (rooted : v.Live task.root) {steps root : Nat} (resolves : Follow v.mountOf steps task.root root)
    (here : v.At root start) (closed : v.Sealed h root) (inside : v.Inside start node)
    (done : v.walk exactWidth calloc fuel task node status filename path =
      some (v', last, basename, status')) (nonnull : last ≠ 0) :
    ∃ extra, Took v v' extra ∧ v'.Inside start last ∧
      (slash ∈ path → v'.EndsBelow start last) := by
  induction path generalizing v node status filename with
  | nil =>
    cases done
    exact ⟨[], .refl tree.cached, inside, fun member => absurd member List.not_mem_nil⟩
  | cons c rest ih =>
    rw [walk] at done
    by_cases separator : c = slash
    · rw [if_pos separator] at done
      obtain ⟨⟨v₁, node₁, status₁⟩, entered, done⟩ := Option.bind_eq_some_iff.mp done
      have below := getdentry_below tree rooted resolves here closed (.refl tree.cached) inside.live
        inside (fun other => absurd other Bool.false_ne_true) entered
      obtain ⟨leaves, _⟩ := getdentry_takes tree.wellMounted (.refl tree.cached) inside.live rooted
        entered
      dsimp only at done
      split at done
      · cases done
        exact absurd rfl nonnull
      · rename_i further
        obtain ⟨place, there, below⟩ := below further
        rw [Leaves, if_neg further] at leaves
        have takes : Took v v₁ [node₁] := leaves
        have mounts : v₁.mountOf = v.mountOf := funext takes.mountOf
        have ends : v₁.EndsBelow start node₁ := ⟨place, there, (takes.below_iff tree).mpr below⟩
        have bare : v₁.mountOf root = 0 := by
          rw [mounts]
          exact resolves.ends
        have tree₁ := takes.mountTree tree
        have inside₁ := ends.inside tree₁ (takes.at_of here) bare
        obtain ⟨extra, taken, stays, later⟩ := ih tree₁ (takes.live rooted) (mounts.symm ▸ resolves)
          (takes.at_of here) (takes.sealed closed) inside₁ done
        refine ⟨_, takes.trans taken, stays, fun _ => ?_⟩
        by_cases more : slash ∈ rest
        · exact later more
        · rw [walk_plain more] at done
          cases done
          exact ends
    · rw [if_neg separator] at done
      obtain ⟨extra, taken, stays, later⟩ := ih tree rooted resolves here closed inside done
      exact ⟨extra, taken, stays, fun member =>
        later ((List.mem_cons.mp member).resolve_left (Ne.symm separator))⟩

/-- The root of the task is resolved to a place that `..` does not lead out of. -/
structure Jail (v : Vfs) (h : Hierarchy v.inode) (start : Place) (task : Task) : Prop where
  rooted : v.Live task.root
  resolves : ∃ steps root, Follow v.mountOf steps task.root root ∧ v.At root start ∧
    v.Sealed h root

/-- The root of a jail is inside. -/
theorem Jail.root_inside (jail : v.Jail h start task) : v.Inside start task.root := by
  obtain ⟨steps, root, follow, here, _⟩ := jail.resolves
  exact ⟨steps, root, start, follow, here, .start⟩

/-- References that are taken leave a jail as it is. -/
theorem Jail.kept (jail : v.Jail h start task) (took : Took v v' extra) :
    v'.Jail (took.hierarchy h) start task := by
  obtain ⟨steps, root, follow, here, closed⟩ := jail.resolves
  refine ⟨took.live jail.rooted, steps, root, ?_, took.at_of here, took.sealed closed⟩
  rw [show v'.mountOf = v.mountOf from funext took.mountOf]
  exact follow

/-- `namei` starts inside. -/
theorem Jail.start_inside (jail : v.Jail h start task) (tree : v.MountTree h)
    (inside : v.Inside start task.pwd) (c : UInt8) : v.Inside start (v.startOf task c) := by
  have nonnull {node : Nat} (inside : v.Inside start node) : node ≠ 0 := by
    obtain ⟨n, live⟩ := inside.live
    exact tree.cached.ne_zero live
  unfold startOf
  dsimp only
  split
  · rw [if_neg (nonnull jail.root_inside)]
    exact jail.root_inside
  · rw [if_neg (nonnull inside)]
    exact inside

/-- What `namei` returns is below, and references are all it changes. -/
theorem namei_below (tree : v.MountTree h) (jail : v.Jail h start task)
    (inside : v.Inside start task.pwd)
    (done : v.namei exactWidth calloc fuel task filename status = some result)
    (nonnull : result.2.1 ≠ 0) : result.1.EndsBelow start result.2.1 := by
  obtain ⟨steps, root, resolves, here, closed⟩ := jail.resolves
  cases filename with
  | nil =>
    cases done
    exact absurd rfl nonnull
  | cons c rest =>
    rw [namei] at done
    have begins := jail.start_inside tree inside c
    generalize (if c = slash then rest else c :: rest) = path at done
    generalize v.startOf task c = node at done begins
    split at done
    · cases done
    · obtain ⟨⟨v₁, last, basename, status₁⟩, walked, done⟩ := Option.bind_eq_some_iff.mp done
      dsimp only at done
      split at done
      · cases done
        exact absurd rfl nonnull
      · rename_i further
        rw [igetdir] at walked
        by_cases empty : path = []
        · rw [if_pos empty] at walked
          obtain ⟨⟨v₂, top, status₂⟩, resolved, walked⟩ := Option.bind_eq_some_iff.mp walked
          cases walked
          rw [if_pos rfl] at done
          cases done
          obtain ⟨count, top', follow, found, taken⟩ := resolveMount_takes tree.wellMounted
            ((Took.refl tree.cached).hold begins.live) (by decide) resolved
          obtain ⟨rfl, _⟩ := Prod.mk.inj found
          obtain ⟨_, _, place, follow', there, below⟩ := begins
          obtain rfl := follow.unique follow'
          exact ⟨place, taken.at_of there, (taken.below_iff tree).mpr below⟩
        · rw [if_neg empty] at walked
          obtain ⟨extra, taken, stays, later⟩ :=
            walk_inside tree jail.rooted resolves here closed begins walked further
          split at done
          · rename_i ended
            cases done
            by_cases some_slash : slash ∈ path
            · exact later some_slash
            · rw [walk_plain some_slash] at walked
              cases walked
              exact absurd ended empty
          · have bare : v₁.mountOf = v.mountOf := funext taken.mountOf
            have below := getdentry_below (taken.mountTree tree) (taken.live jail.rooted)
              (bare.symm ▸ resolves) (taken.at_of here) (taken.sealed closed) (.refl taken.cached)
              stays.live stays (fun other => absurd other Bool.false_ne_true) done nonnull
            obtain ⟨leaves, _⟩ := getdentry_takes (taken.wellMounted tree.wellMounted)
              (.refl taken.cached) stays.live (taken.live jail.rooted) done
            rw [Leaves, if_neg nonnull] at leaves
            obtain ⟨place, there, down⟩ := below
            exact ⟨place, there, (leaves.below_iff (taken.mountTree tree)).mpr down⟩

/-! ## Every path ends -/

/-- The mounts on every vnode end, and the covers under it, in so many steps. -/
def MountsEnd (v : Vfs) (bound : Nat) : Prop :=
  (∀ node, ∃ steps top, steps ≤ bound ∧ Follow v.mountOf steps node top) ∧
    ∀ node, ∃ steps bottom, steps ≤ bound ∧ Follow v.coverOf steps node bottom

variable {bound : Nat}

/-- References that are taken leave the mounts as they are. -/
theorem MountsEnd.kept (ends : v.MountsEnd bound) (took : Took v v' extra) : v'.MountsEnd bound := by
  rw [MountsEnd, show v'.mountOf = v.mountOf from funext took.mountOf,
    show v'.coverOf = v.coverOf from funext took.coverOf]
  exact ends

/-- `resolve_mount` returns after following the mounts. -/
theorem resolveMount_ends (well : v.WellMounted) (took : Took v v' (node :: extra)) {steps : Nat}
    (limit : steps ≠ 0) {count top : Nat} (follow : Follow v.mountOf count node top)
    (enough : count < fuel) :
    ∃ result, v'.resolveMount exactWidth fuel node status steps = some result := by
  induction follow generalizing v' fuel with
  | last null =>
    obtain ⟨fuel, rfl⟩ := Nat.exists_eq_add_one_of_ne_zero (Nat.ne_of_gt enough)
    rw [resolveMount, took.mountOf, if_neg (not_not.mpr null)]
    exact ⟨_, rfl⟩
  | @step _ node _ mounted _ ih =>
    obtain ⟨fuel, rfl⟩ := Nat.exists_eq_add_one_of_ne_zero (Nat.ne_zero_of_lt enough)
    rw [resolveMount, took.mountOf, if_pos mounted, if_neg limit]
    have left := took.iput well (.inl (live_of_mountOf mounted))
    exact ih (left.hold (left.live (well.mounts node mounted))) (Nat.lt_of_succ_lt_succ enough)

/-- The end of `getdentry` returns. -/
theorem lookupEntry_ends (well : v.WellMounted) (ends : v.MountsEnd bound)
    (took : Took v v' [node]) (live : v.Live node) (enough : bound < fuel) :
    ∃ result, v'.lookupEntry exactWidth calloc fuel task node filename = some result := by
  unfold lookupEntry
  dsimp only
  split
  · exact ⟨_, rfl⟩
  · split
    · exact ⟨_, rfl⟩
    · split
      · exact ⟨_, rfl⟩
      · rename_i lookup _
        generalize ((v'.vnode.lookup node).map (·.sb)).getD 0 = sb
        cases lookup filename with
        | none => exact ⟨_, if_pos rfl⟩
        | some ino =>
          rw [lookupInode]
          have gets := took.iget calloc sb ino
          dsimp only at gets
          split
          · exact ⟨_, rfl⟩
          · rename_i present
            rw [if_neg present] at gets
            have moved := (gets.perm (List.Perm.swap node _ [])).iput well (.inl live)
            obtain ⟨count, top, few, follow⟩ := ends.1 (v'.iget exactWidth calloc sb ino).2
            exact resolveMount_ends well moved (by decide) follow (by omega)

/-- `getdentry` returns, after following the mounts on a vnode and the covers under it. -/
theorem getdentry_ends {frommount : Bool} (well : v.WellMounted) (ends : v.MountsEnd bound)
    (took : Took v v' []) (live : v.Live node) (rooted : v.Live task.root)
    (enough : ∀ top, (if frommount then top = node else ∃ steps, Follow v.mountOf steps node top) →
      ∃ steps bottom, Follow v.coverOf steps top bottom ∧ bound + steps + 1 < fuel) :
    ∃ result, v'.getdentry exactWidth calloc task filename fuel node status frommount =
      some result := by
  induction fuel generalizing v' node status frommount with
  | zero =>
    obtain ⟨steps, top, _, follow⟩ := ends.1 node
    obtain ⟨_, _, _, few⟩ := enough (if frommount then node else top) (by
      cases frommount with
      | true => rfl
      | false => exact ⟨steps, follow⟩)
    cases few
  | succ fuel ih =>
    rw [getdentry]
    have held := took.hold (took.live live)
    have first : ∃ v₁ top status₁, (if frommount then some (v'.hold exactWidth node, node, status)
        else resolveMount exactWidth fuel (v'.hold exactWidth node) node status mountMax) =
          some (v₁, top, status₁) ∧ Took v v₁ [top] ∧ v.Live top ∧
        ∃ steps bottom, Follow v.coverOf steps top bottom ∧ bound + steps < fuel := by
      cases frommount with
      | true =>
        obtain ⟨steps, bottom, follow, few⟩ := enough node rfl
        exact ⟨_, _, _, rfl, held, live, steps, bottom, follow, by omega⟩
      | false =>
        obtain ⟨count, top, small, follow⟩ := ends.1 node
        obtain ⟨steps, bottom, back, few⟩ := enough top ⟨count, follow⟩
        have resolves : ∃ result, resolveMount exactWidth fuel (v'.hold exactWidth node) node status
            mountMax = some result := resolveMount_ends well held (by decide) follow (by omega)
        obtain ⟨⟨v₁, top', status₁⟩, resolved⟩ := resolves
        obtain ⟨_, _, follow', found, moved⟩ := resolveMount_takes well held (by decide) resolved
        obtain ⟨rfl, rfl⟩ := Prod.mk.inj found
        obtain rfl := follow.unique follow'
        exact ⟨v₁, _, _, resolved, moved, well.live_top live follow, steps, bottom, back, by omega⟩
    obtain ⟨v₁, top, status₁, started, taken, live₁, steps, bottom, back, few⟩ := first
    rw [started, Option.bind_some]
    dsimp only
    rw [if_neg (taken.ne_zero List.mem_cons_self)]
    split
    · exact ⟨_, rfl⟩
    · split
      · rw [taken.coverOf]
        split
        · rename_i covers
          refine ih (taken.iput well (.inl live₁)) (well.covers top covers) fun next here => ?_
          rw [if_pos rfl] at here
          rw [here]
          cases back with
          | last null => exact absurd null covers
          | step _ back => exact ⟨_, _, back, by omega⟩
        · obtain ⟨count, root, small, follow⟩ := ends.1 task.root
          have holds := taken.hold (taken.live rooted)
          have resolves : ∃ result, resolveMount exactWidth fuel (v₁.hold exactWidth task.root)
              task.root status₁ mountMax = some result :=
            resolveMount_ends well holds (by decide) follow (by omega)
          obtain ⟨⟨v₂, newnode, status₂⟩, resolved⟩ := resolves
          obtain ⟨_, _, follow', found, moved⟩ := resolveMount_takes well holds (by decide) resolved
          obtain ⟨rfl, rfl⟩ := Prod.mk.inj found
          have given := moved.iput well (.inl (well.live_top rooted follow'))
          rw [resolved, Option.bind_some]
          dsimp only
          split
          · exact ⟨_, rfl⟩
          · exact lookupEntry_ends well ends given live₁ (by omega)
      · exact lookupEntry_ends well ends taken live₁ (by omega)

/-- `getdentry` returns with fuel for the mounts and the covers. -/
theorem getdentry_returns (well : v.WellMounted) (ends : v.MountsEnd bound) (live : v.Live node)
    (rooted : v.Live task.root) (enough : 2 * bound + 1 < fuel) :
    ∃ result, v.getdentry exactWidth calloc task filename fuel node status false = some result := by
  refine getdentry_ends well ends (.refl well.cached) live rooted fun top _ => ?_
  obtain ⟨steps, bottom, few, follow⟩ := ends.2 top
  exact ⟨steps, bottom, follow, by omega⟩

/-- The loop of `igetdir` returns. -/
theorem walk_returns {path : CString} (well : v.WellMounted) (ends : v.MountsEnd bound)
    (live : v.Live node) (rooted : v.Live task.root) (enough : 2 * bound + 1 < fuel) :
    ∃ result, v.walk exactWidth calloc fuel task node status filename path = some result := by
  induction path generalizing v node status filename with
  | nil => exact ⟨_, rfl⟩
  | cons c rest ih =>
    rw [walk]
    by_cases separator : c = slash
    · rw [if_pos separator]
      have enters : ∃ result, v.getdentry exactWidth calloc task (nameAt filename) fuel node status
          false = some result := getdentry_returns well ends live rooted enough
      obtain ⟨⟨v₁, node₁, status₁⟩, entered⟩ := enters
      obtain ⟨leaves, _⟩ := getdentry_takes well (.refl well.cached) live rooted entered
      change ∃ result, (v.getdentry exactWidth calloc task (nameAt filename) fuel node status
        false).bind _ = some result
      rw [entered, Option.bind_some]
      dsimp only
      split
      · exact ⟨_, rfl⟩
      · rename_i further
        rw [Leaves, if_neg further] at leaves
        have takes : Took v v₁ [node₁] := leaves
        exact ih (takes.wellMounted well) (ends.kept takes) (takes.taken _ List.mem_cons_self)
          (takes.live rooted)
    · rw [if_neg separator]
      exact ih well ends live rooted

/-- `namei` returns. -/
theorem namei_returns (well : v.WellMounted) (ends : v.MountsEnd bound)
    (begins : ∀ c, v.Live (v.startOf task c)) (rooted : v.Live task.root)
    (enough : 2 * bound + 1 < fuel) :
    ∃ result, v.namei exactWidth calloc fuel task filename status = some result := by
  cases filename with
  | nil => exact ⟨_, rfl⟩
  | cons c rest =>
    rw [namei]
    have live := begins c
    generalize (if c = slash then rest else c :: rest) = path
    generalize v.startOf task c = node at live ⊢
    obtain ⟨n, there⟩ := live
    rw [if_neg (well.cached.ne_zero there), igetdir]
    have held := (Took.refl well.cached).hold ⟨n, there⟩
    by_cases empty : path = []
    · rw [if_pos empty]
      obtain ⟨count, top, few, follow⟩ := ends.1 node
      have resolves : ∃ result, resolveMount exactWidth fuel (v.hold exactWidth node) node status
          mountMax = some result := resolveMount_ends well held (by decide) follow (by omega)
      obtain ⟨⟨v₁, top', status₁⟩, resolved⟩ := resolves
      rw [resolved]
      change ∃ result, (if top' = 0 then some (v₁, 0, status₁) else if ([] : CString) = [] then
        some (v₁, top', 0) else _) = some result
      split
      · exact ⟨_, rfl⟩
      · exact ⟨_, if_pos rfl⟩
    · rw [if_neg empty]
      have walks : ∃ result, v.walk exactWidth calloc fuel task node status path path =
          some result := walk_returns well ends ⟨n, there⟩ rooted enough
      obtain ⟨⟨v₁, last, basename, status₁⟩, walked⟩ := walks
      rw [walked, Option.bind_some]
      dsimp only
      split
      · exact ⟨_, rfl⟩
      · rename_i further
        split
        · exact ⟨_, rfl⟩
        · rename_i named
          by_cases some_slash : slash ∈ path
          · obtain ⟨left, leaves, _⟩ := walk_leaves well ⟨n, there⟩ rooted some_slash walked
            rw [Leaves, if_neg further] at leaves
            have takes : Took v v₁ (last :: left) := leaves
            exact getdentry_returns (takes.wellMounted well) (ends.kept takes)
              (takes.taken _ List.mem_cons_self) (takes.live rooted) enough
          · rw [walk_plain some_slash] at walked
            cases walked
            exact getdentry_returns well ends ⟨n, there⟩ rooted enough

end Vfs

/-- In an acyclic mount configuration every path is resolved, for every task with a root and a
directory to start from; and whatever the path, a vnode that `namei` returns is at a place below
the root of the task, if `..` does not lead out of that and the working directory is below. -/
theorem namei_confined {v : Vfs} {h : Hierarchy v.inode} (tree : v.MountTree h) :
    ∃ bound, ∀ (task : Task) (calloc : Allocator Vnode) (fuel : Nat) (filename : CString)
      (status : Int), v.Live task.root → (∀ c, v.Live (v.startOf task c)) → bound < fuel →
      ∃ result, v.namei exactWidth calloc fuel task filename status = some result ∧
        ∀ start, v.Jail h start task → v.Inside start task.pwd → result.2.1 ≠ 0 →
          result.1.EndsBelow start result.2.1 := by
  obtain ⟨bound, ends⟩ := tree.bounded
  refine ⟨2 * bound + 1, fun task calloc fuel filename status rooted begins enough => ?_⟩
  obtain ⟨result, done⟩ := Vfs.namei_returns tree.wellMounted ends begins rooted enough
  exact ⟨result, done, fun _ jail inside => Vfs.namei_below tree jail inside done⟩

/-! A file system with one directory in its root, and a task whose root that directory is. -/

namespace Cell

/-- The entries of the two directories. -/
def entries (ino : Nat) (name : CString) : Option Nat :=
  if nameiMatch name dot then some ino
  else if nameiMatch name dotdot then some 0
  else if ino = 0 ∧ nameiMatch name [97] then some 1
  else none

/-- `read_inode`. -/
def readInode (ino : Nat) (_ : Attributes) : Attributes :=
  { flags := fsDirectory, mode := 0o777, lookup := some (entries ino) }

/-- The file system, before anything is read. -/
def disk : Vfs where
  superBlock := AList.insert 1 { sOp := some ⟨some readInode⟩ } ∅
  rootVnode := 1

/-- Its root is read. -/
def rooted : Vfs := (disk.iget exactWidth (Allocator.above Vnode) 1 0).1

/-- The directory is read too. -/
def cell : Vfs := (rooted.iget exactWidth (Allocator.above Vnode) 1 1).1

/-- A task in the directory. -/
def prisoner : Task := { root := 2, pwd := 2 }

/-- What the file system promises. -/
def hierarchy : Hierarchy disk.inode where
  parent _ _ := 0
  root _ := 0
  parent_eq _ _ := eq_comm
  up sb ino lookup name _ looks up := by
    have other : ¬nameiMatch name dot := by
      rw [nameiMatch_iff] at up ⊢
      rw [up]
      decide
    unfold Vfs.inode disk at looks
    rw [Store.lookup_insert_eq] at looks
    by_cases first : sb = 1
    · rw [if_pos first] at looks
      cases looks
      rw [entries, if_neg other, if_pos up]
    · rw [if_neg first] at looks
      cases looks
  down sb ino lookup name entry _ looks not_dot not_dotdot finds := by
    unfold Vfs.inode disk at looks
    rw [Store.lookup_insert_eq] at looks
    by_cases first : sb = 1
    · rw [if_pos first] at looks
      cases looks
      rw [entries, if_neg not_dot, if_neg not_dotdot] at finds
      split at finds
      · rename_i here
        cases finds
        exact ⟨Nat.one_ne_zero, fun _ => here.1.symm⟩
      · cases finds
    · rw [if_neg first] at looks
      cases looks

/-- Nothing is read or mounted yet. -/
theorem disk_tree : disk.MountTree hierarchy := by
  have none (node : Nat) : disk.vnode.lookup node = none := rfl
  have cached : disk.Cached := by
    refine Vfs.cached_of_empty none fun sb block found => ?_
    change (AList.insert 1 _ ∅ : Store SuperBlock).lookup sb = some block at found
    rw [Store.lookup_insert_eq] at found
    split at found
    · cases found
      rfl
    · cases found
  have gone {goal : Prop} {node : Nat} {n : Vnode} (there : disk.vnode.lookup node = some n) :
      goal := by
    rw [none] at there
    cases there
  exact ⟨cached, fun _ _ there => gone there, fun _ _ there => gone there,
    fun _ mounted => absurd rfl mounted, fun _ covers => absurd rfl covers,
    fun _ _ there => gone there, fun _ => 0, fun _ _ _ there => gone there⟩

/-- The root is read. -/
theorem rooted_took : Vfs.Took disk rooted [1] :=
  (Vfs.Took.refl disk_tree.cached).iget (Allocator.above Vnode) 1 0

/-- Both directories are read. -/
theorem cell_took : Vfs.Took disk cell [2, 1] := rooted_took.iget (Allocator.above Vnode) 1 1

/-- The task is in a jail. -/
theorem cell_jail : cell.Jail (cell_took.hierarchy hierarchy) (1, 1) prisoner := by
  obtain ⟨n, live⟩ := cell_took.taken 2 List.mem_cons_self
  have bare (node : Nat) : cell.mountOf node = 0 := cell_took.mountOf node
  refine ⟨⟨n, live⟩, 0, 2, .last (bare 2), ?_, fun steps node _ _ _ follow => ?_⟩
  · exact Vfs.iget_at rooted_took.cached exactWidth (Allocator.above Vnode) 1 1 (by decide)
  · exact .inl (follow.eq_of_null (bare node)).symm

end Cell

open Cell in
/-- A path that goes up twice is resolved in the directory. -/
theorem namei_confined_dotdot : ∃ bound, ∀ fuel, bound < fuel → ∃ result,
    cell.namei exactWidth (Allocator.above Vnode) fuel prisoner [46, 46, 47, 46, 46] 0 =
        some result ∧ (result.2.1 ≠ 0 → result.1.EndsBelow (1, 1) result.2.1) := by
  have tree := cell_took.mountTree disk_tree
  obtain ⟨bound, confined⟩ := namei_confined tree
  have begins (c : UInt8) := (cell_jail.start_inside tree cell_jail.root_inside c).live
  refine ⟨bound, fun fuel enough => ?_⟩
  obtain ⟨result, done, below⟩ := confined prisoner (Allocator.above Vnode) fuel _ 0
    cell_jail.rooted begins enough
  exact ⟨result, done, below (1, 1) cell_jail cell_jail.root_inside⟩

end Nupkux
