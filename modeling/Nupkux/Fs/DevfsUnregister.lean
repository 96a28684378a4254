import Nupkux.Fs.DevfsVnodes
import Nupkux.Fs.Taken

/-!
# Removal of devices that are looked up

Mounts, registrations, lookups, releases and removals in any order keep the handles and the vnodes
in pairs, as long as no device is removed while a vnode of it is cached. Such a removal leaves the
vnode with a pointer to the freed handle.
-/

namespace Nupkux

open LinkedList

/-- Freeing the cache frees its handles. -/
theorem Devfs.freeCache_erases {handles : List Nat} {steps handle : Nat} (d : Devfs)
    (chain : Chain d.cacheNext d.cache handles) (enough : handles.length ≤ steps)
    (member : handle ∈ handles) : (freeCache steps d).handle.lookup handle = none := by
  induction handles generalizing d steps with
  | nil => cases member
  | cons first rest ih =>
    have distinct := chain.nodup
    obtain ⟨cache, nonnull, tail⟩ := chain
    cases steps with
    | zero => simp at enough
    | succ steps =>
      unfold freeCache
      rw [if_neg (cache ▸ nonnull), cache]
      rcases List.mem_cons.mp member with rfl | later
      · exact freeCache_none steps _ (AList.lookup_erase ..)
      · refine ih _ (tail.congr fun other there => ?_) (Nat.le_of_succ_le_succ enough) later
        unfold Devfs.cacheNext
        dsimp only
        rw [Store.lookup_erase_eq, if_neg]
        rintro rfl
        exact (List.nodup_cons.mp distinct).1 there

namespace Devfs

variable {d : Devfs} {number : Nat → Option Nat}

/-- Without a cache there are no handles. -/
theorem Linked.handle_eq_none (linked : d.Linked number) (empty : d.cache = 0) (handle : Nat) :
    d.handle.lookup handle = none := by
  obtain ⟨handles, chain, members⟩ := linked.cached
  rw [empty] at chain
  have none : handles = [] := chain.unique (show Chain d.cacheNext 0 [] from rfl)
  subst none
  exact Option.eq_none_iff_forall_ne_some.mpr fun h live =>
    absurd ((members handle).mpr ⟨h, live⟩) List.not_mem_nil

/-- Without handles there are no vnodes. -/
theorem Linked.node_eq_none (linked : d.Linked number) (empty : d.cache = 0) (node : Nat) :
    d.node.lookup node = none := by
  refine Option.eq_none_iff_forall_ne_some.mpr fun n found => ?_
  obtain ⟨h, live, _⟩ := linked.paired.vnode node n found
  cases (linked.handle_eq_none empty n.handle).symm.trans live

/-- Nothing is there. -/
theorem linked_empty {d : Devfs} (cache : d.cache = 0) (handle : ∀ i, d.handle.lookup i = none)
    (node : ∀ i, d.node.lookup i = none) (number : Nat → Option Nat) : d.Linked number := by
  refine ⟨⟨⟨handle 0, node 0⟩, fun i n found => ?_, fun i h live => ?_⟩,
    ⟨[], cache, fun i => ?_⟩, fun i h live => ?_⟩
  · cases (node i).symm.trans found
  · cases (handle i).symm.trans live
  · simp [handle i]
  · cases (handle i).symm.trans live

/-- A directory that is resized keeps the vnodes. -/
theorem Resizes.node_live {d' : Devfs} {dir node : Nat} {p : DevfsHandle} {n : DevfsNode}
    (resizes : d.Resizes d' dir p) (found : d.node.lookup node = some n) :
    ∃ n', d'.node.lookup node = some n' := by
  by_cases own : p.node ≠ 0 ∧ node = p.node
  · obtain ⟨n', there, _⟩ := resizes.shows own.1
    exact ⟨n', own.2 ▸ there⟩
  · refine ⟨n, ?_⟩
    rw [resizes.others node fun connected same => own ⟨connected, same⟩]
    exact found

end Devfs

namespace DevfsRun

variable {run : DevfsRun} {node ino device : Nat} {h p : DevfsHandle}

/-- The inode number of a cached vnode. -/
def number (run : DevfsRun) (node : Nat) : Option Nat := (run.vfs.vnode.lookup node).map (·.ino)

/-- The handles and the vnodes are in pairs, and the caches in order. -/
structure Linked (run : DevfsRun) : Prop where
  devfs : run.devfs.Linked run.number
  cached : run.vfs.Cached
  /-- A vnode has both its parts. -/
  whole : ∀ node v, run.vfs.vnode.lookup node = some v →
    v.sb = run.devfs.sb ∧ ∃ n, run.devfs.node.lookup node = some n
  /-- The super block has its operations. -/
  block : run.devfs.sb ≠ 0 →
    (run.vfs.superBlock.lookup run.devfs.sb).map (·.sOp) = some (some devfsOperations)
  unmounted : run.devfs.sb = 0 → run.devfs.cache = 0

/-- The vnodes in the cache are those with a handle. -/
theorem Linked.inCache_iff (linked : run.Linked) :
    run.InCache node ↔ ∃ n, run.devfs.node.lookup node = some n := by
  constructor
  · intro inside
    obtain ⟨v, live, _⟩ := linked.cached.mem_iff.mp inside
    exact (linked.whole node v live).2
  · rintro ⟨n, found⟩
    obtain ⟨h, _, _, _, numbered⟩ := linked.devfs.paired.vnode node n found
    obtain ⟨v, live, _⟩ := Option.map_eq_some_iff.mp numbered
    exact linked.cached.mem_iff.mpr ⟨v, live, (linked.whole node v live).1⟩

/-- The numbers, the owners and the operations of the vnodes are all that matters of them. -/
theorem Linked.of_parts {vfs : Vfs} (linked : run.Linked) (cached : vfs.Cached)
    (same : ∀ node, (vfs.vnode.lookup node).map (fun v => (v.ino, v.sb)) =
      (run.vfs.vnode.lookup node).map fun v => (v.ino, v.sb))
    (operations : ∀ sb, (vfs.superBlock.lookup sb).map (·.sOp) =
      (run.vfs.superBlock.lookup sb).map (·.sOp)) : Linked ⟨run.devfs, vfs⟩ := by
  have numbers : number ⟨run.devfs, vfs⟩ = run.number := by
    funext node
    have here := congrArg (Option.map (·.1)) (same node)
    rw [Option.map_map, Option.map_map] at here
    exact here
  refine ⟨numbers ▸ linked.devfs, cached, fun node v live => ?_,
    fun mounted => (operations _).trans (linked.block mounted), linked.unmounted⟩
  have here := same node
  rw [live] at here
  obtain ⟨v', live', key⟩ := Option.map_eq_some_iff.mp here.symm
  obtain ⟨owner, both⟩ := linked.whole node v' live'
  exact ⟨(congrArg (·.2) key).symm.trans owner, both⟩

/-- A lookup of a number that is in use keeps the pairs. -/
theorem Linked.iget (linked : run.Linked) (named : run.devfs.devfsIget ino ≠ 0)
    (calloc : Allocator Vnode) : (run.iget calloc ino).1.Linked := by
  have mounted : run.devfs.sb ≠ 0 := by
    intro zero
    obtain ⟨h, live, _⟩ := linked.devfs.devfsIget_live named
    cases (linked.devfs.handle_eq_none (linked.unmounted zero) _).symm.trans live
  by_cases there : ∃ node v, run.vfs.vnode.lookup node = some v ∧ v.ino = ino
  · obtain ⟨node, v, live, rfl⟩ := there
    have owner := (linked.whole node v live).1
    have found : run.vfs.iget ucharWidth calloc run.devfs.sb v.ino =
        (run.vfs.hold ucharWidth node, node) := owner ▸ Vfs.iget_of_live linked.cached live calloc
    have result : (run.iget calloc v.ino).1 = ⟨run.devfs, run.vfs.hold ucharWidth node⟩ := by
      unfold DevfsRun.iget
      rw [found]
      dsimp only
      rw [live]
      rfl
    rw [result]
    refine linked.of_parts (linked.cached.hold ucharWidth node) (fun other => ?_) fun _ => rfl
    rw [Vfs.hold, Store.lookup_modify]
    split
    · rename_i same
      rw [same, Option.map_map]
      rfl
    · rfl
  · have absent (node : Nat) (v : Vnode) (live : run.vfs.vnode.lookup node = some v)
        (_ : v.sb = run.devfs.sb) : v.ino ≠ ino := fun same => there ⟨node, v, live, same⟩
    obtain ⟨block, found, sOp⟩ := Option.map_eq_some_iff.mp (linked.block mounted)
    have operations : block.sOp.isSome := by rw [sOp, Option.isSome_some]
    have fresh := calloc.address_fresh run.vfs.vnode
    have nonnull := calloc.address_ne_zero run.vfs.vnode
    have created : run.vfs.iget ucharWidth calloc run.devfs.sb ino = _ :=
      Vfs.iget_of_absent linked.cached found sOp rfl absent calloc
    have kept := linked.cached.createEmptyInode found operations absent calloc
      fun _ attributes => attributes
    obtain ⟨h, live, numbered⟩ := linked.devfs.devfsIget_live named
    have unseen : h.node = 0 := by
      by_contra connected
      obtain ⟨n, shown, back⟩ := linked.devfs.paired.handle _ h live connected
      obtain ⟨h', live', _, _, same⟩ := linked.devfs.paired.vnode h.node n shown
      obtain rfl := Option.some.inj (live'.symm.trans (back ▸ live))
      obtain ⟨v, cached, ino_eq⟩ := Option.map_eq_some_iff.mp same
      exact there ⟨_, v, cached, ino_eq.trans numbered⟩
    let res := calloc.address run.vfs.vnode
    let vfs :=
      (run.vfs.createEmptyInode calloc run.devfs.sb block (fun _ attributes => attributes) ino).1
    let read : Vnode :=
      { ino, count := 1, dev := block.dev, sb := run.devfs.sb, cacheNext := block.cache }
    have vnodes (other : Nat) : vfs.vnode.lookup other =
        if other = res then some read else run.vfs.vnode.lookup other := Store.lookup_insert_eq ..
    have result : (run.iget calloc ino).1 =
        ⟨run.devfs.handle2vnode res (run.devfs.devfsIget ino), vfs⟩ := by
      unfold DevfsRun.iget
      rw [created]
      have missing : ¬(run.vfs.vnode.lookup res).isSome = true := by
        rw [fresh]
        exact Bool.false_ne_true
      exact congrArg Prod.fst (if_neg missing)
    have bare : run.devfs.node.lookup res = none := by
      refine Option.eq_none_iff_forall_ne_some.mpr fun n shown => ?_
      obtain ⟨_, _, _, _, same⟩ := linked.devfs.paired.vnode res n shown
      rw [number, fresh] at same
      cases same
    have filled := Devfs.handle2vnode_of_live live nonnull
    rw [result]
    have own : number ⟨run.devfs, vfs⟩ res = some h.ino := by
      rw [number, vnodes, if_pos rfl, numbered]
      rfl
    have others (other : Nat) (differ : other ≠ res) :
        number ⟨run.devfs, vfs⟩ other = run.number other := by
      rw [number, number, vnodes, if_neg differ]
    obtain ⟨pairs, sb⟩ := linked.devfs.handle2vnode bare nonnull live unseen own others
    refine ⟨pairs, kept, fun other v live' => ?_, fun _ => ?_, fun zero => ?_⟩
    · dsimp only at live' ⊢
      rw [sb, filled]
      dsimp only
      rw [Store.lookup_insert_eq]
      rw [vnodes] at live'
      split at live'
      · rename_i new
        obtain rfl := Option.some.inj live'
        rw [if_pos new]
        exact ⟨rfl, _, rfl⟩
      · rename_i old
        rw [if_neg old]
        exact linked.whole other v live'
    · dsimp only
      rw [sb]
      show (AList.lookup run.devfs.sb (run.vfs.superBlock.insert run.devfs.sb _)).map _ = _
      rw [Store.lookup_insert_eq, if_pos rfl, ← sOp]
      rfl
    · exact absurd (sb.symm.trans zero) mounted

/-- The last release of a vnode keeps the pairs. -/
theorem Linked.iput_last {v : Vnode} (linked : run.Linked)
    (live : run.vfs.vnode.lookup node = some v) (last : v.count = 1) : (run.iput node).Linked := by
  obtain ⟨_, n, found⟩ := linked.whole node v live
  have left := Vfs.iput_lookup linked.cached live (by omega)
  have gone : (run.vfs.iput node).vnode.lookup node = none := by
    have here := left node
    rw [if_pos rfl, if_pos last] at here
    exact Option.map_eq_none_iff.mp here
  have kept (other : Nat) (differ : other ≠ node) :
      ((run.vfs.iput node).vnode.lookup other).map Vnode.content =
        (run.vfs.vnode.lookup other).map Vnode.content := by
    rw [left, if_neg differ]
  have numbers (other : Nat) (differ : other ≠ node) :
      ((run.vfs.iput node).vnode.lookup other).map (·.ino) = run.number other := by
    have here := congrArg (Option.map (·.ino)) (kept other differ)
    rw [Option.map_map, Option.map_map] at here
    exact here
  obtain ⟨pairs, sb⟩ := linked.devfs.erase found numbers
  have released : run.devfs.putInode node v.count = { run.devfs with
      handle := run.devfs.handle.modify n.handle fun h => { h with node := 0 } } := by
    unfold Devfs.putInode
    rw [found]
    exact if_pos last
  have result : run.iput node = ⟨{ run.devfs.putInode node 1 with
      node := (run.devfs.putInode node 1).node.erase node }, run.vfs.iput node⟩ := by
    unfold DevfsRun.iput
    rw [live]
    dsimp only
    rw [gone, last]
    rfl
  rw [result]
  rw [last] at released
  refine ⟨pairs, linked.cached.iput node, fun other v' live' => ?_, fun mounted => ?_,
    fun unmounted => ?_⟩
  · have differ : other ≠ node := by
      rintro rfl
      cases gone.symm.trans live'
    have here := kept other differ
    rw [live'] at here
    obtain ⟨v₀, live₀, key⟩ := Option.map_eq_some_iff.mp here.symm
    obtain ⟨owner₀, n', found'⟩ := linked.whole other v₀ live₀
    have sbs : v₀.content.sb = v'.content.sb := congrArg Vnode.sb key
    refine ⟨sbs.symm.trans (owner₀.trans sb.symm), n', ?_⟩
    dsimp only
    rw [released, Store.lookup_erase_eq, if_neg differ]
    exact found'
  · dsimp only at mounted ⊢
    rw [sb] at mounted ⊢
    exact ((Vfs.iput_setup run.vfs node).operations _).trans (linked.block mounted)
  · dsimp only at unmounted ⊢
    rw [sb] at unmounted
    rw [released]
    exact linked.unmounted unmounted

/-- A release keeps the pairs. -/
theorem Linked.iput (linked : run.Linked) (node : Nat) : (run.iput node).Linked := by
  cases live : run.vfs.vnode.lookup node with
  | none =>
    have result : run.iput node = run := by
      unfold DevfsRun.iput
      rw [live]
    rwa [result]
  | some v =>
    by_cases last : v.count = 1
    · exact linked.iput_last live last
    obtain ⟨_, n, found⟩ := linked.whole node v live
    have same (other : Nat) :
        ((run.vfs.iput node).vnode.lookup other).map (fun m => (m.ino, m.sb)) =
          (run.vfs.vnode.lookup other).map fun m => (m.ino, m.sb) := by
      by_cases zero : v.count = 0
      · rw [Vfs.iput_of_zero live zero]
      · have left := congrArg (Option.map fun m => (m.ino, m.sb))
          (Vfs.iput_lookup linked.cached live zero other)
        rw [Option.map_map] at left
        refine Eq.trans left ?_
        split
        · rename_i own
          rw [own, live]
          rfl
        · rw [Option.map_map]
          rfl
    have shared : run.devfs.putInode node v.count = run.devfs := by
      unfold Devfs.putInode
      rw [found]
      exact if_neg last
    have remains : ((run.vfs.iput node).vnode.lookup node).isSome = true := by
      have here := congrArg Option.isSome (same node)
      rw [Option.isSome_map, Option.isSome_map, live] at here
      exact here
    have result : run.iput node = ⟨run.devfs, run.vfs.iput node⟩ := by
      unfold DevfsRun.iput
      rw [live]
      dsimp only
      rw [shared, if_pos remains]
    rw [result]
    exact linked.of_parts (linked.cached.iput node) same (Vfs.iput_setup run.vfs node).operations

/-- A registration keeps the pairs. -/
theorem Linked.register (linked : run.Linked) (handles : Allocator DevfsHandle) (dir : Nat)
    (name : CString) (mode uid gid type fOp : Nat) : Linked { run with
      devfs := (run.devfs.registerDevice handles dir name mode uid gid type fOp).1 } := by
  have registers := linked.devfs.registerDevice handles dir name mode uid gid type fOp
  rcases Devfs.registerDevice_cases handles run.devfs dir name mode uid gid type fOp with same |
    ⟨target, p, p', h, e, live, _, _, _, allocates, sb, resizes⟩
  · rw [same]
    exact linked
  · have mounted : run.devfs.sb ≠ 0 := by
      intro zero
      cases (linked.devfs.handle_eq_none (linked.unmounted zero) target).symm.trans live
    have owner := resizes.frame.2.1.trans sb
    refine ⟨registers, linked.cached, fun node v found => ?_, fun _ => ?_,
      fun zero => absurd (owner.symm.trans zero) mounted⟩
    · obtain ⟨here, n, both⟩ := linked.whole node v found
      exact ⟨here.trans owner.symm, resizes.node_live (allocates.node.symm ▸ both)⟩
    · dsimp only
      rw [owner]
      exact linked.block mounted

/-- A registered device is one of a mounted file system. -/
theorem Linked.mounted_of_live (linked : run.Linked)
    (live : run.devfs.handle.lookup device = some h) : run.devfs.sb ≠ 0 := by
  intro zero
  cases (linked.devfs.handle_eq_none (linked.unmounted zero) device).symm.trans live

/-- No vnode in the cache belongs to a handle exactly if it has none. -/
theorem Linked.unseen_iff (linked : run.Linked) (live : run.devfs.handle.lookup device = some h) :
    run.Unseen device ↔ h.node = 0 := by
  rw [linked.devfs.paired.node_eq_zero live]
  exact ⟨fun unseen node n found => unseen node n (linked.inCache_iff.mpr ⟨n, found⟩) found,
    fun unseen node n _ => unseen node n⟩

/-- The removal of a device without a cached vnode keeps the pairs. -/
theorem Linked.unregister (linked : run.Linked) (registered : run.devfs.IsRegistered device)
    (unseen : run.Unseen device) : (run.unregister device).Linked := by
  obtain ⟨h, p, live, inside, _⟩ := registered
  have zero := (linked.unseen_iff live).mp unseen
  obtain ⟨kept, sb⟩ := linked.devfs.unregisterDevice live inside zero
  have mounted := linked.mounted_of_live live
  refine ⟨kept, linked.cached, fun node v found => ?_, fun _ => ?_,
    fun zero => absurd (sb.symm.trans zero) mounted⟩
  · obtain ⟨owner, n, both⟩ := linked.whole node v found
    obtain ⟨e, resizes, shrunk, there, removed⟩ := linked.devfs.unregisterDevice_eq live inside
    obtain ⟨n', left⟩ := resizes.node_live both
    refine ⟨owner.trans sb.symm, n', ?_⟩
    show (run.devfs.unregisterDevice device).node.lookup node = some n'
    rw [removed, (shrunk.delFromCache_relinks there).1.node]
    exact left
  · show (run.vfs.superBlock.lookup (run.devfs.unregisterDevice device).sb).map (·.sOp) = _
    rw [sb]
    exact linked.block mounted

/-- A mount makes the root and its vnode. -/
theorem Linked.mount (linked : run.Linked) (handles : Allocator DevfsHandle)
    (calloc : Allocator Vnode) {sb : Nat} (block : sb ≠ 0) :
    (run.mount handles calloc sb).Linked := by
  unfold DevfsRun.mount
  by_cases busy : run.devfs.sb ≠ 0
  · rw [if_pos busy]
    exact linked
  · rw [if_neg busy]
    have empty := linked.unmounted (not_not.mp busy)
    have noHandle := linked.devfs.handle_eq_none empty
    have noNode := linked.devfs.node_eq_none empty
    have noVnode (node : Nat) : run.vfs.vnode.lookup node = none := by
      refine Option.eq_none_iff_forall_ne_some.mpr fun v live => ?_
      obtain ⟨_, n, found⟩ := linked.whole node v live
      cases (noNode node).symm.trans found
    let base : Devfs := { run.devfs with sb, cache := 0 }
    let h : DevfsHandle :=
      { ino := 0, nlinks := 1, mode := 755, flags := fsDirectory, size := devfsEntrySize * 2,
        pdata := fun i => if i = 0 then ⟨0, dot⟩ else if i = 1 then ⟨0, dotdot⟩ else {},
        fOp := devfsDirFop, parent := base.devfsIget 0 }
    let root := handles.address run.devfs.handle
    have nonnull : root ≠ 0 := handles.address_ne_zero run.devfs.handle
    have parent : h.parent = 0 := rfl
    have allocates : base.Allocates { (base.emptyDir handles 0 0).1 with root } root h := by
      refine ⟨fun other => ?_, rfl, rfl⟩
      show AList.lookup other (Store.modify (run.devfs.handle.insert root h) root fun g =>
        { g with cacheNext := 0 }) = if other = root then some { h with cacheNext := 0 } else
          run.devfs.handle.lookup other
      rw [Store.lookup_modify, Store.lookup_insert_eq, if_pos rfl]
      split
      · rfl
      · rename_i differ
        rw [Store.lookup_insert_eq, if_neg differ]
    have made := (Devfs.linked_empty (d := base) rfl noHandle noNode run.number).allocates
      (noHandle root) nonnull allocates rfl (parent ▸ nonnull.symm)
    let vfs : Vfs := { run.vfs with
      superBlock := run.vfs.superBlock.insert sb { sOp := some devfsOperations } }
    have ready : Linked ⟨{ (base.emptyDir handles 0 0).1 with root }, vfs⟩ := by
      refine ⟨made, Vfs.cached_of_empty noVnode fun other b found => ?_, fun node v live => ?_,
        fun _ => ?_, fun zero => absurd zero block⟩
      · rw [Store.lookup_insert_eq] at found
        split at found
        · obtain rfl := Option.some.inj found
          rfl
        · refine linked.cached.cache_eq_zero found fun node v live => ?_
          cases (noVnode node).symm.trans live
      · cases (noVnode node).symm.trans live
      · show (AList.lookup sb (run.vfs.superBlock.insert sb _)).map _ = _
        rw [AList.lookup_insert]
        rfl
    exact ready.iget (made.devfsIget_ne_zero (allocates.handle root |>.trans (if_pos rfl))) calloc

/-- An unmount leaves nothing. -/
theorem Linked.unmount (linked : run.Linked) : run.unmount.Linked := by
  obtain ⟨handles, chain, members⟩ := linked.devfs.cached
  have walk := Devfs.walk_of_live chain fun handle member => (members handle).mp member
  have noHandle (handle : Nat) : run.devfs.unmount.handle.lookup handle = none := by
    show (Devfs.freeCache run.devfs.walkSteps run.devfs).handle.lookup handle = none
    by_cases member : handle ∈ handles
    · exact run.devfs.freeCache_erases chain (Nat.le_of_lt walk) member
    · have absent : run.devfs.handle.lookup handle = none :=
        Option.eq_none_iff_forall_ne_some.mpr fun h live =>
          member ((members handle).mpr ⟨h, live⟩)
      exact Devfs.freeCache_none _ run.devfs absent
  have empty : run.devfs.unmount.cache = 0 :=
    Devfs.freeCache_cache run.devfs chain (Nat.le_of_lt walk)
  have noVnode (node : Nat) : run.unmount.vfs.vnode.lookup node = none := rfl
  refine ⟨Devfs.linked_empty empty noHandle (fun _ => rfl) _,
    Vfs.cached_of_empty noVnode fun sb b found => ?_, fun node v live => ?_,
    fun mounted => absurd rfl mounted, fun _ => empty⟩
  · rw [DevfsRun.unmount, Store.lookup_erase_eq] at found
    split at found
    · cases found
    · rename_i other
      refine linked.cached.cache_eq_zero found fun node v live same => ?_
      exact other (same.symm.trans (linked.whole node v live).1)
  · cases (noVnode node).symm.trans live

/-- Every step but the removal of a device with a cached vnode keeps the pairs. -/
theorem Linked.step {next : DevfsRun} {call : DevfsCall} (linked : run.Linked)
    (permitted : run.RemovesUnseen call) (step : DevfsCallStep run call next) : next.Linked := by
  cases step with
  | mount handles calloc block => exact linked.mount handles calloc block
  | register handles name _ mode uid gid type fOp =>
    exact linked.register handles _ name mode uid gid type fOp
  | iget calloc named => exact linked.iget named calloc
  | iput node => exact linked.iput node
  | unregister registered => exact linked.unregister registered permitted
  | unmount mounted => exact linked.unmount

/-- Every run that removes no device with a cached vnode keeps the pairs. -/
theorem linked_of_reached (reached : devfsCalls.ReachableUnder RemovesUnseen run) : run.Linked := by
  refine reached.invariant (fun first start => ?_) fun _ _ _ linked permitted step =>
    linked.step permitted step
  obtain rfl : first = {} := start
  refine ⟨Devfs.linked_empty rfl (fun _ => rfl) (fun _ => rfl) _,
    Vfs.cached_of_empty (fun _ => rfl) fun sb block found => ?_, fun node v live => ?_,
    fun mounted => absurd rfl mounted, fun _ => rfl⟩
  · cases found
  · cases live

/-! ## What a removal leaves -/

section Removal

variable (linked : run.Linked) (live : run.devfs.handle.lookup device = some h)
  (inside : run.devfs.handle.lookup h.parent = some p)
include linked live inside

/-- The state after a removal: the directory is shrunk, the handle freed, and the cache of vnodes
the same. -/
theorem Linked.unregister_eq : ∃ e, run.devfs.Resizes e h.parent (Devfs.without p h.ino) ∧
    e.Linked run.number ∧ e.handle.lookup device = some h ∧
    e.Relinks (run.unregister device).devfs device ∧
    ∀ node, (run.unregister device).InCache node ↔ run.InCache node := by
  obtain ⟨e, resizes, shrunk, there, removed⟩ := linked.devfs.unregisterDevice_eq live inside
  obtain ⟨relinks, _, sb⟩ := shrunk.delFromCache_relinks there
  refine ⟨e, resizes, shrunk, there, ?_, fun node => ?_⟩
  · rw [DevfsRun.unregister, removed]
    exact relinks
  · have same : (run.unregister device).devfs.sb = run.devfs.sb :=
      (congrArg Devfs.sb removed).trans (sb.trans resizes.frame.2.1)
    unfold InCache
    rw [same]
    rfl

/-- No vnode points to a freed handle exactly if none belongs to the device. -/
theorem Linked.pointing_iff : (∀ node n, (run.unregister device).InCache node →
    (run.unregister device).devfs.node.lookup node = some n →
      ∃ h, (run.unregister device).devfs.handle.lookup n.handle = some h) ↔ run.Unseen device := by
  obtain ⟨e, resizes, shrunk, there, relinks, cache⟩ := linked.unregister_eq live inside
  have other : h.parent ≠ device := linked.devfs.parent device h live
  constructor
  · rintro pointing node n here found rfl
    have kept : e.node.lookup node = some n := by
      rw [resizes.others node fun connected own => ?_]
      · exact found
      · obtain ⟨n', found', back⟩ := shrunk.paired.handle h.parent _
          ((resizes.handle h.parent).trans (if_pos rfl)) connected
        obtain ⟨h', live', same, _⟩ := linked.devfs.paired.vnode node n found
        obtain rfl := Option.some.inj (live'.symm.trans live)
        obtain ⟨m, shown, same'⟩ := shrunk.paired.handle n.handle h' there
          (same.trans own ▸ connected)
        rw [same, own, found'] at shown
        obtain rfl := Option.some.inj shown
        exact other (back.symm.trans same')
    obtain ⟨h', left⟩ := pointing node n ((cache node).mpr here) (relinks.node.symm ▸ kept)
    cases relinks.freed.symm.trans left
  · intro unseen node n _ found
    rw [relinks.node] at found
    have zero := (linked.unseen_iff live).mp unseen
    obtain ⟨h', live', _⟩ := shrunk.paired.vnode node n found
    obtain ⟨link, same⟩ := relinks.kept n.handle
      ((shrunk.paired.node_eq_zero there).mp zero node n found)
    exact ⟨_, same.trans (congrArg (Option.map _) live')⟩

/-- No entry names the device exactly if one at most did, behind `.` and `..` of its directory. -/
theorem Linked.unnamed_iff (isDir : p.isDir) :
    (∀ dir q, (run.unregister device).devfs.handle.lookup dir = some q → q.isDir →
      ∀ entry ∈ q.listing, entry.inode ≠ run.devfs.inoOf device) ↔
      run.devfs.NamedOnce device := by
  obtain ⟨e, resizes, _, _, relinks, _⟩ := linked.unregister_eq live inside
  have other : h.parent ≠ device := linked.devfs.parent device h live
  have ino := Devfs.inoOf_of_live live
  have parent : run.devfs.parentOf device = h.parent := by
    rw [Devfs.parentOf, live]
    rfl
  have left := Devfs.listing_without p h.ino
  have once := PackedArray.removed_iff p.pdata (fun entry => entry.inode == h.ino) 2 p.entries
  unfold Devfs.NamedOnce
  rw [ino, parent]
  have top : e.handle.lookup h.parent = some (Devfs.without p h.ino) :=
    (resizes.handle h.parent).trans (if_pos rfl)
  constructor
  · intro unnamed
    have apart (dir : Nat) (q : DevfsHandle) (differ : dir ≠ device)
        (there : e.handle.lookup dir = some q) (qDir : q.isDir) :
        ∀ entry ∈ q.listing, entry.inode ≠ h.ino := by
      obtain ⟨link, same⟩ := relinks.kept dir differ
      rw [there] at same
      exact unnamed dir { q with cacheNext := link } same qDir
    have isDir' : (Devfs.without p h.ino).isDir := by
      obtain ⟨size, pdata, shape⟩ := Devfs.sameBut_without p h.ino
      rw [shape]
      exact isDir
    have none := apart h.parent _ other top isDir'
    rw [left] at none
    obtain ⟨k, behind, all⟩ := once.mp fun entry member =>
      beq_eq_false_iff_ne.mpr (none entry member)
    refine ⟨k, behind, fun dir q differ there qDir i within named => ?_⟩
    by_cases same : dir = h.parent
    · obtain rfl := Option.some.inj ((same ▸ there).symm.trans inside)
      exact ⟨same, all i within (beq_iff_eq.mpr named)⟩
    · have kept := (resizes.handle dir).trans (if_neg same)
      have member : q.pdata i ∈ q.listing :=
        List.mem_of_getElem? (PackedArray.getElem?_contents.mpr ⟨within, rfl⟩)
      exact absurd named (apart dir q differ (kept.trans there) qDir _ member)
  · rintro ⟨k, behind, all⟩ dir q there qDir entry member named
    have differ : dir ≠ device := by
      rintro rfl
      cases relinks.freed.symm.trans there
    obtain ⟨link, same⟩ := relinks.kept dir differ
    rw [same] at there
    obtain ⟨q₀, before, rfl⟩ := Option.map_eq_some_iff.mp there
    rw [resizes.handle] at before
    split at before
    · obtain rfl := Option.some.inj before
      have none := once.mpr ⟨k, behind, fun i within qualifies =>
        (all h.parent p other inside isDir i within (beq_iff_eq.mp qualifies)).2⟩
      rw [← left] at none
      exact beq_eq_false_iff_ne.mp (none entry member) named
    · rename_i apart
      obtain ⟨i, here⟩ := List.mem_iff_getElem?.mp member
      obtain ⟨within, rfl⟩ := PackedArray.getElem?_contents.mp here
      exact apart (all dir q₀ differ before qDir i within named).1

/-- A vnode of the directory shows what is left. -/
theorem Linked.showing_of (isDir : p.isDir) (once : run.devfs.NamedOnce device) {n : DevfsNode}
    (found : run.devfs.node.lookup node = some n) (back : n.handle = run.devfs.parentOf device) :
    (∃ n' p', (run.unregister device).devfs.node.lookup node = some n' ∧
      n'.handle = run.devfs.parentOf device ∧
      (run.unregister device).devfs.handle.lookup n'.handle = some p' ∧ n'.size = p'.size) ∧
    (run.unregister device).devfs.shown node =
      (run.devfs.shown node).filter fun entry => !(entry.inode == run.devfs.inoOf device) := by
  have unnamed := (linked.unnamed_iff live inside isDir).mpr once
  obtain ⟨e, resizes, _, _, relinks, _⟩ := linked.unregister_eq live inside
  have parent : run.devfs.parentOf device = h.parent := by
    rw [Devfs.parentOf, live]
    rfl
  rw [parent] at back ⊢
  obtain ⟨q, there, rfl, length, _⟩ := linked.devfs.paired.vnode node n found
  obtain rfl := Option.some.inj ((back ▸ there).symm.trans inside)
  have nonnull : q.node ≠ 0 := by
    intro zero
    rw [zero, linked.devfs.paired.null.2] at found
    cases found
  obtain ⟨size, pdata, shape⟩ := Devfs.sameBut_without q h.ino
  have own : (Devfs.without q h.ino).node = q.node := by rw [shape]
  obtain ⟨n', shown, back', length'⟩ := resizes.shows (own ▸ nonnull)
  rw [own, ← relinks.node] at shown
  obtain ⟨link, same⟩ := relinks.kept h.parent (linked.devfs.parent device h live)
  rw [resizes.handle, if_pos rfl] at same
  have same' : (run.unregister device).devfs.handle.lookup n'.handle =
      some { Devfs.without q h.ino with cacheNext := link } := back' ▸ same
  refine ⟨⟨n', _, shown, back', same', length'⟩, ?_⟩
  have before : run.devfs.shown q.node = q.listing := by
    unfold Devfs.shown
    rw [found]
    dsimp only
    rw [there, length]
    rfl
  have after : (run.unregister device).devfs.shown q.node = (Devfs.without q h.ino).listing := by
    unfold Devfs.shown
    rw [shown]
    dsimp only
    rw [same', length']
    rfl
  have isDir' : (Devfs.without q h.ino).isDir := by
    rw [shape]
    exact isDir
  have none := unnamed h.parent _ same isDir'
  rw [before, after, Devfs.inoOf_of_live live]
  rw [Devfs.inoOf_of_live live] at none
  have kept : (Devfs.without q h.ino).listing.filter (fun entry => !(entry.inode == h.ino)) =
      (Devfs.without q h.ino).listing := by
    refine List.filter_eq_self.mpr fun entry member => ?_
    rw [beq_eq_false_iff_ne.mpr (none entry member)]
    rfl
  rw [← kept, Devfs.listing_without]
  exact PackedArray.filter_removed q.pdata (fun entry => entry.inode == h.ino) 2 q.entries

end Removal

/-- The file system after its first mount. -/
def mounted : DevfsRun := mount (.above _) (.above _) {} 1

/-- The file system with one device. -/
def populated : DevfsRun := { mounted with devfs := (mounted.devfs.registerAt Devfs.nullName).1 }

/-- The file system with one device that is looked up. -/
def lookedUp : DevfsRun := (populated.iget (.above _) 1).1

/-- A mount and a registration lead there. -/
theorem populated_reached : devfsCalls.ReachableUnder RemovesUnseen populated := by
  have mount : DevfsCallStep {} (.mount 1) mounted := .mount (.above _) (.above _) (by decide)
  have register : DevfsCallStep mounted (.register 0 Devfs.nullName) populated :=
    .register (.above _) Devfs.nullName (by decide) 0o666 0 0 3 2
  have start : devfsCalls.ReachableUnder RemovesUnseen {} := .start rfl
  exact (start.next (show RemovesUnseen {} (.mount 1) from trivial) mount).next
    (show RemovesUnseen mounted (.register 0 Devfs.nullName) from trivial) register

/-- A lookup leads on. -/
theorem lookedUp_reached : devfsCalls.ReachableUnder RemovesUnseen lookedUp := by
  have iget : DevfsCallStep populated (.iget 1) lookedUp := .iget (.above _) (by decide +kernel)
  exact populated_reached.next (show RemovesUnseen populated (.iget 1) from trivial) iget

/-- In every run that removes no device with a cached vnode, a removal leaves no vnode that points
to a freed handle, no entry that names the device and a directory that shows the rest, exactly if
no vnode of the device is cached and one entry at most names it, behind `.` and `..` of its
directory. -/
theorem unregistersCleanly_iff (reached : devfsCalls.ReachableUnder RemovesUnseen run)
    (registered : run.devfs.IsRegistered device) :
    run.UnregistersCleanly device ↔ run.Unseen device ∧ run.devfs.NamedOnce device := by
  have linked := linked_of_reached reached
  obtain ⟨h, p, live, inside, isDir⟩ := registered
  constructor
  · intro clean
    exact ⟨(linked.pointing_iff live inside).mp clean.pointing,
      (linked.unnamed_iff live inside isDir).mp clean.unnamed⟩
  · rintro ⟨unseen, once⟩
    exact ⟨(linked.pointing_iff live inside).mpr unseen,
      (linked.unnamed_iff live inside isDir).mpr once,
      fun node n _ found back => linked.showing_of live inside isDir once found back⟩

/-- A device that is not looked up. -/
theorem unregistersCleanly_iff_null : populated.UnregistersCleanly 2 := by
  have linked := linked_of_reached populated_reached
  refine (unregistersCleanly_iff populated_reached (by decide +kernel)).mpr ⟨?_, 2, le_refl 2, ?_⟩
  · have bare : (populated.devfs.handle.lookup 2).map (·.node) = some 0 := by decide +kernel
    obtain ⟨h, live, zero⟩ := Option.map_eq_some_iff.mp bare
    exact (linked.unseen_iff live).mpr zero
  · intro dir p differ live _
    have keys : populated.devfs.handle.keys.erase 2 = [1] := by decide +kernel
    have member : dir ∈ populated.devfs.handle.keys.erase 2 :=
      (List.mem_erase_of_ne differ).mpr (AList.mem_keys.mp (Store.mem_iff_lookup.mpr ⟨p, live⟩))
    rw [keys] at member
    obtain rfl := List.mem_singleton.mp member
    have once : ∀ q ∈ populated.devfs.handle.lookup 1, ∀ i < q.entries,
        (q.pdata i).inode = populated.devfs.inoOf 2 → 1 = populated.devfs.parentOf 2 ∧ i = 2 := by
      decide +kernel
    exact once p live

/-- A device that is looked up leaves its vnode behind. -/
theorem unregistersCleanly_not : ¬∀ run, devfsCalls.Reachable run → ∀ device,
    run.devfs.IsRegistered device → run.UnregistersCleanly device := by
  intro claim
  have linked := linked_of_reached lookedUp_reached
  have registered : lookedUp.devfs.IsRegistered 2 := by decide +kernel
  have clean := claim lookedUp (lookedUp_reached.weaken fun _ _ _ => trivial) 2 registered
  obtain ⟨h, p, live, inside, _⟩ := registered
  have found : lookedUp.devfs.node.lookup 2 =
      some { flags := 3, mode := 0o666, nlinks := 1, size := 1, handle := 2 } := by decide +kernel
  exact (linked.pointing_iff live inside).mp clean.pointing 2 _
    (linked.inCache_iff.mpr ⟨_, found⟩) found rfl

end DevfsRun

end Nupkux
