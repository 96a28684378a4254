import Nupkux.Fs.Devfs

/-!
# The registry of devices

What the handle cache, the entries of the root and the inode counter of `devfs` say about the
registered devices, over any sequence of mounts, registrations, removals and unmounts.
-/

namespace Nupkux

namespace Devfs

open LinkedList

variable {d : Devfs} {h : DevfsHandle} {dir handle node other : Nat}

/-! ## What the operations do to the objects -/

/-- Filling the vnode of a live handle. -/
theorem handle2vnode_of_live (live : d.handle.lookup handle = some h) (nonnull : node ≠ 0) :
    d.handle2vnode node handle =
      { d with
        node := d.node.insert node
          { flags := h.flags, uid := h.uid, gid := h.gid, mode := h.mode, nlinks := h.nlinks,
            size := h.size, handle }
        handle := d.handle.insert handle { h with node } } := by
  unfold handle2vnode
  rw [live]
  dsimp only
  rw [if_neg nonnull]

/-- A directory that is resized is written, and nothing else in the cache. -/
theorem resized_handle (d : Devfs) (dir : Nat) (h : DevfsHandle) (other : Nat) :
    (d.resized dir h).handle.lookup other =
      if other = dir then some h else d.handle.lookup other := by
  unfold resized
  dsimp only
  split
  · rename_i connected
    rw [handle2vnode_of_live (AList.lookup_insert ..) connected]
    dsimp only
    rw [Store.lookup_insert_eq, Store.lookup_insert_eq]
    split <;> rfl
  · exact Store.lookup_insert_eq ..

/-- Resizing a directory changes no variable. -/
theorem resized_frame (d : Devfs) (dir : Nat) (h : DevfsHandle) :
    (d.resized dir h).cache = d.cache ∧ (d.resized dir h).nextInode = d.nextInode ∧
      (d.resized dir h).sb = d.sb ∧ (d.resized dir h).root = d.root := by
  unfold resized
  dsimp only
  split
  · rename_i connected
    rw [handle2vnode_of_live (AList.lookup_insert ..) connected]
    exact ⟨rfl, rfl, rfl, rfl⟩
  · exact ⟨rfl, rfl, rfl, rfl⟩

/-- The vnode of a directory has its new size. -/
theorem resized_node (connected : h.node ≠ 0) : ∃ n, (d.resized dir h).node.lookup h.node = some n ∧
    n.handle = dir ∧ n.size = h.size := by
  unfold resized
  dsimp only
  rw [if_pos connected, handle2vnode_of_live (AList.lookup_insert ..) connected]
  exact ⟨_, AList.lookup_insert .., rfl, rfl⟩

/-- The number of a handle that is found. -/
theorem inoOf_of_live (live : d.handle.lookup handle = some h) : d.inoOf handle = h.ino := by
  rw [inoOf, live]
  rfl

/-- The link of a handle that is found. -/
theorem cacheNext_of_live (live : d.handle.lookup handle = some h) :
    d.cacheNext handle = h.cacheNext := by
  rw [cacheNext, live]
  rfl

/-- A walk through a cache of live handles ends. -/
theorem walk_of_live {handles : List Nat} (chain : Chain d.cacheNext d.cache handles)
    (live : ∀ handle ∈ handles, ∃ h, d.handle.lookup handle = some h) :
    handles.length < d.walkSteps := by
  have bound := Store.length_le_of_live chain.nodup fun handle member =>
    Store.mem_iff_lookup.mpr (live handle member)
  exact Nat.lt_succ_of_le bound

/-- Removing a handle from the cache unlinks and frees it; of another handle it changes the
link only. -/
theorem delFromCache_spec {before after : List Nat}
    (chain : Chain d.cacheNext d.cache (before ++ handle :: after))
    (live : ∀ other ∈ before ++ handle :: after, ∃ h, d.handle.lookup other = some h) :
    let d' := d.delFromCache handle
    Chain d'.cacheNext d'.cache (before ++ after) ∧
      (∀ other h, other ≠ handle → d.handle.lookup other = some h →
        ∃ link, d'.handle.lookup other = some { h with cacheNext := link }) ∧
      (∀ other, d.handle.lookup other = none → d'.handle.lookup other = none) ∧
      d'.node = d.node ∧ d'.sb = d.sb ∧ d'.root = d.root ∧ d'.nextInode = d.nextInode := by
  intro d'
  have distinct := chain.nodup
  have nonnull : handle ≠ 0 := chain.ne_zero (by simp)
  have walk := walk_of_live chain live
  have passed : ∀ earlier ∈ before, (earlier == handle) = false := by
    intro earlier member
    rw [beq_eq_false_iff_ne]
    rintro rfl
    exact (List.nodup_append.mp distinct).2.2 earlier member earlier List.mem_cons_self rfl
  have found : LinkedList.seek d.cacheNext (· == handle) d.walkSteps 0 d.cache =
      (before.getLastD 0, handle) := by
    refine seek_found chain passed (beq_self_eq_true _) ?_
    rw [List.length_append, List.length_cons] at walk
    omega
  have unlinked := chain.unlink
  have gone : ∀ other ∈ before ++ after, other ≠ handle := by
    rintro other member rfl
    exact (List.nodup_middle.mp distinct |> List.nodup_cons.mp).1 member
  have result : d' = d.delFromCache handle := rfl
  unfold delFromCache at result
  rw [if_neg nonnull, found] at result
  dsimp only at result
  by_cases first : before.getLastD 0 = 0
  · rw [if_pos first] at unlinked result
    rw [if_pos first] at unlinked
    have lookup : ∀ other, other ≠ handle → d'.handle.lookup other = d.handle.lookup other := by
      intro other differ
      rw [result]
      exact AList.lookup_erase_ne differ
    refine ⟨?_, fun other h differ here => ⟨h.cacheNext, ?_⟩, fun other none => ?_, ?_⟩
    · have cache : d'.cache = d.cacheNext handle := by rw [result]
      rw [cache]
      refine unlinked.congr fun other member => ?_
      unfold cacheNext
      rw [lookup other (gone other member)]
    · rw [lookup other differ]
      exact here
    · by_cases same : other = handle
      · rw [result, same]
        exact AList.lookup_erase ..
      · rw [lookup other same]
        exact none
    · rw [result]
      exact ⟨rfl, rfl, rfl, rfl⟩
  · rw [if_neg first] at unlinked result
    rw [if_neg first] at unlinked
    have lookup : ∀ other, other ≠ handle → d'.handle.lookup other =
        if other = before.getLastD 0
        then (d.handle.lookup (before.getLastD 0)).map
          fun p => { p with cacheNext := d.cacheNext handle }
        else d.handle.lookup other := by
      intro other differ
      rw [result]
      exact (AList.lookup_erase_ne differ).trans (Store.lookup_modify ..)
    have member : before.getLastD 0 ∈ before := by
      rcases List.eq_nil_or_concat before with rfl | ⟨init, prev, rfl⟩
      · exact absurd rfl first
      · simp
    obtain ⟨p, prev⟩ := live _ (List.mem_append_left _ member)
    refine ⟨?_, fun other h differ here => ?_, fun other none => ?_, ?_⟩
    · have cache : d'.cache = d.cache := by rw [result]
      rw [cache]
      refine unlinked.congr fun other there => ?_
      rw [Function.update_apply]
      unfold cacheNext
      rw [lookup other (gone other there)]
      split
      · rw [prev]
        rfl
      · rfl
    · rw [lookup other differ]
      split
      · rename_i same
        rw [← same, here]
        exact ⟨_, rfl⟩
      · exact ⟨h.cacheNext, here⟩
    · by_cases same : other = handle
      · rw [result, same]
        exact AList.lookup_erase ..
      · rw [lookup other same]
        split
        · rename_i last
          rw [← last, none]
          rfl
        · exact none
    · rw [result]
      exact ⟨rfl, rfl, rfl, rfl⟩

/-! ## The registered devices -/

/-- A name that may be registered. -/
structure ValidName (name : CString) : Prop where
  short : name.length ≤ devfsFilenameLen
  whole : NoNul name
  plain : slash ∉ name

/-- The entry of a device. -/
def entryOf (d : Devfs) (device : Nat × CString) : DevfsEntry := ⟨d.inoOf device.1, device.2⟩

/-- What holds while the file system is mounted, for the devices in the order of their
registration. -/
structure Mounted (devices : List (Nat × CString)) (d : Devfs) : Prop where
  /-- The root and its vnode have room for the entries. -/
  root : ∃ r, d.handle.lookup d.root = some r ∧ r.ino = 0 ∧ r.isDir = true ∧
    r.size = (devices.length + 2) * devfsEntrySize ∧ r.node ≠ 0 ∧
      ∃ n, d.node.lookup r.node = some n ∧ n.handle = d.root ∧ n.size = r.size
  /-- The entries of the root. -/
  listed : d.listing = ⟨0, dot⟩ :: ⟨0, dotdot⟩ :: devices.map d.entryOf
  /-- The cache has the root and the devices, the last one first. -/
  chain : Chain d.cacheNext d.cache ((devices.map (·.1)).reverse ++ [d.root])
  /-- The handles of the devices. -/
  live : ∀ device ∈ devices, ∃ h, d.handle.lookup device.1 = some h ∧ h.parent = d.root
  /-- The inode numbers differ. -/
  distinct : ((d.root :: devices.map (·.1)).map d.inoOf).Nodup
  /-- The names may be registered and differ. -/
  names : (devices.map (·.2)).Nodup ∧ ∀ device ∈ devices, ValidName device.2

/-- What holds in every state. -/
structure Sound (devices : List (Nat × CString)) (d : Devfs) : Prop where
  /-- The null pointer is no handle. -/
  null : d.handle.lookup 0 = none
  /-- Nothing is cached or registered while the file system is not mounted. -/
  unmounted : d.sb = 0 → d.root = 0 ∧ d.cache = 0 ∧ devices = []
  mounted : d.sb ≠ 0 → Mounted devices d

variable {devices : List (Nat × CString)}

/-- Every handle of the cache is live. -/
theorem Mounted.cached_live (mounted : Mounted devices d)
    (member : handle ∈ (devices.map (·.1)).reverse ++ [d.root]) :
    ∃ h, d.handle.lookup handle = some h := by
  rcases List.mem_append.mp member with registered | root
  · obtain ⟨device, there, rfl⟩ := List.mem_map.mp (List.mem_reverse.mp registered)
    obtain ⟨h, live, _⟩ := mounted.live device there
    exact ⟨h, live⟩
  · obtain ⟨r, live, _⟩ := mounted.root
    exact ⟨r, List.mem_singleton.mp root ▸ live⟩

/-- A walk through the cache ends. -/
theorem Mounted.walk (mounted : Mounted devices d) :
    ((devices.map (·.1)).reverse ++ [d.root]).length < d.walkSteps :=
  walk_of_live mounted.chain fun _ member => mounted.cached_live member

/-- The numbers of the cached handles differ. -/
theorem Mounted.cached_distinct (mounted : Mounted devices d) :
    (((devices.map (·.1)).reverse ++ [d.root]).map d.inoOf).Nodup := by
  rw [← List.nodup_reverse, ← List.map_reverse, List.reverse_append, List.reverse_reverse]
  exact mounted.distinct

/-- `devfs_iget` finds every cached handle by its number. -/
theorem Mounted.devfsIget_of_cached (mounted : Mounted devices d)
    (member : handle ∈ (devices.map (·.1)).reverse ++ [d.root]) :
    d.devfsIget (d.inoOf handle) = handle := by
  have distinct := mounted.cached_distinct
  have chain := mounted.chain
  have walk := mounted.walk
  generalize (devices.map (·.1)).reverse ++ [d.root] = cached at *
  obtain ⟨before, after, rfl⟩ := List.append_of_mem member
  have passed : ∀ earlier ∈ before, (d.inoOf earlier == d.inoOf handle) = false := by
    intro earlier there
    rw [beq_eq_false_iff_ne]
    intro same
    rw [List.map_append, List.map_cons] at distinct
    exact (List.nodup_append.mp distinct).2.2 _ (List.mem_map_of_mem there) _ List.mem_cons_self
      same
  unfold devfsIget
  rw [seek_found chain passed (beq_self_eq_true _)]
  rw [List.length_append, List.length_cons] at walk
  omega

/-- `devfs_iget` finds no other number. -/
theorem Mounted.devfsIget_eq_zero (mounted : Mounted devices d) {ino : Nat} :
    d.devfsIget ino = 0 ↔ ino ∉ (d.root :: devices.map (·.1)).map d.inoOf := by
  have same : ∀ handle, handle ∈ d.root :: devices.map (·.1) ↔
      handle ∈ (devices.map (·.1)).reverse ++ [d.root] := by
    intro handle
    simp [or_comm]
  constructor
  · intro none member
    obtain ⟨handle, cached, rfl⟩ := List.mem_map.mp member
    have here := (same handle).mp cached
    rw [mounted.devfsIget_of_cached here] at none
    exact mounted.chain.ne_zero here none
  · intro absent
    refine seek_absent mounted.chain (fun earlier member => ?_) mounted.walk
    rw [beq_eq_false_iff_ne]
    rintro rfl
    exact absent (List.mem_map_of_mem ((same earlier).mpr member))

/-! ## Registration -/

/-- The root with one entry more. -/
def grown (d : Devfs) (r : DevfsHandle) (name : CString) : DevfsHandle :=
  { r with
    size := (r.entries + 1) * devfsEntrySize
    pdata := Function.update r.pdata r.entries ⟨d.nextInode, name.take devfsFilenameLen⟩ }

/-- The handle that a registration in the root allocates. -/
def deviceHandle (d : Devfs) (mode uid gid type fOp : Nat) : DevfsHandle :=
  { ino := d.nextInode, nlinks := 1, uid, gid, mode, flags := type, size := 1, fOp,
    parent := d.root }

/-- A registration in the root allocates the handle, grows the root and caches the handle. -/
theorem registerDevice_eq (calloc : Allocator DevfsHandle) {r : DevfsHandle}
    (live : d.handle.lookup d.root = some r) (isDir : r.isDir = true)
    (into : dir = 0 ∨ dir = d.root) (name : CString) (mode uid gid type fOp : Nat) :
    let device := calloc.address d.handle
    let allocated := { d with
      handle := d.handle.insert device (d.deviceHandle mode uid gid type fOp)
      nextInode := (d.nextInode + 1) % uintWidth }
    d.registerDevice calloc dir name mode uid gid type fOp =
      ((allocated.resized d.root (d.grown r name)).addToCache device, device) := by
  intro device allocated
  have fresh := calloc.address_fresh d.handle
  have apart : d.root ≠ device := by
    intro same
    rw [same] at live
    exact absurd (fresh.symm.trans live) (by simp)
  have target : (if dir = 0 then d.root else dir) = d.root := by
    rcases into with null | root
    · rw [if_pos null]
    · rw [root, ite_self]
  have there : allocated.handle.lookup d.root = some r := by
    rw [← live]
    exact AList.lookup_insert_ne apart
  have added : allocated.addDEntry d.root name d.nextInode =
      allocated.resized d.root (d.grown r name) := by
    unfold addDEntry
    rw [there]
    rfl
  unfold registerDevice
  rw [target]
  dsimp only
  rw [live]
  dsimp only
  rw [isDir, ← added]
  rfl

/-- A state after a registration in the root: the new handle is in front of the cache and the
root has one entry more. -/
structure Registers (d d' : Devfs) (device : Nat) (h r : DevfsHandle) (name : CString) : Prop where
  cache : d'.cache = device
  sb : d'.sb = d.sb
  root : d'.root = d.root
  lookup : ∀ other, d'.handle.lookup other =
    if other = device then some { h with cacheNext := d.cache }
    else if other = d.root then some (d.grown r name) else d.handle.lookup other
  node : r.node ≠ 0 → ∃ n, d'.node.lookup r.node = some n ∧ n.handle = d.root ∧
    n.size = (d.grown r name).size

/-- What `devfs_register_device` does in the root. -/
theorem registerDevice_spec (calloc : Allocator DevfsHandle) {r : DevfsHandle}
    (live : d.handle.lookup d.root = some r) (isDir : r.isDir = true)
    (into : dir = 0 ∨ dir = d.root) (name : CString) (mode uid gid type fOp : Nat) :
    ∃ d', d.registerDevice calloc dir name mode uid gid type fOp =
        (d', calloc.address d.handle) ∧
      d.Registers d' (calloc.address d.handle) (d.deviceHandle mode uid gid type fOp) r name := by
  refine ⟨_, registerDevice_eq calloc live isDir into name mode uid gid type fOp, ?_⟩
  have frame := resized_frame { d with
    handle := d.handle.insert (calloc.address d.handle) (d.deviceHandle mode uid gid type fOp)
    nextInode := (d.nextInode + 1) % uintWidth } d.root (d.grown r name)
  refine ⟨rfl, frame.2.2.1, frame.2.2.2, fun other => ?_, fun connected => ?_⟩
  · have apart : calloc.address d.handle ≠ d.root := by
      intro same
      rw [← same] at live
      exact absurd ((calloc.address_fresh d.handle).symm.trans live) (by simp)
    unfold addToCache
    dsimp only
    rw [Store.lookup_modify, resized_handle, resized_handle, frame.1, if_neg apart]
    by_cases new : other = calloc.address d.handle
    · rw [if_pos new, if_pos new, AList.lookup_insert]
      rfl
    · rw [if_neg new, if_neg new]
      by_cases root : other = d.root
      · rw [if_pos root, if_pos root]
      · rw [if_neg root, if_neg root]
        exact AList.lookup_insert_ne new
  · exact resized_node (h := d.grown r name) connected

/-- The size of a directory is that of its entries. -/
theorem entries_of_size {count : Nat} (size : h.size = count * devfsEntrySize) :
    h.entries = count := by
  rw [DevfsHandle.entries, size]
  exact Nat.mul_div_cancel count (by decide)

/-- The entries of a root that is found. -/
theorem listing_of_live {r : DevfsHandle} (live : d.handle.lookup d.root = some r) :
    d.listing = PackedArray.contents r.pdata r.entries := by
  unfold listing
  rw [live]

/-- A registered device is not the root. -/
theorem Mounted.device_ne_root (mounted : Mounted devices d) {device : Nat × CString}
    (member : device ∈ devices) : device.1 ≠ d.root := by
  intro same
  have chain := mounted.chain.nodup
  rw [List.nodup_append] at chain
  exact chain.2.2 device.1 (List.mem_reverse.mpr (List.mem_map_of_mem member)) d.root
    List.mem_cons_self same

/-- The numbers after a registration. -/
theorem Registers.inoOf {d' : Devfs} {device : Nat} {r : DevfsHandle} {name : CString}
    (registers : d.Registers d' device h r name) (live : d.handle.lookup d.root = some r) :
    d'.inoOf other = if other = device then h.ino else d.inoOf other := by
  unfold Devfs.inoOf
  rw [registers.lookup]
  by_cases here : other = device
  · rw [if_pos here, if_pos here]
    rfl
  · rw [if_neg here, if_neg here]
    by_cases top : other = d.root
    · rw [if_pos top, top, live]
      rfl
    · rw [if_neg top]

/-- The links after a registration. -/
theorem Registers.cacheNext {d' : Devfs} {device : Nat} {r : DevfsHandle} {name : CString}
    (registers : d.Registers d' device h r name) (live : d.handle.lookup d.root = some r) :
    d'.cacheNext = Function.update d.cacheNext device d.cache := by
  funext other
  rw [Function.update_apply]
  unfold Devfs.cacheNext
  rw [registers.lookup]
  by_cases here : other = device
  · rw [if_pos here, if_pos here]
    rfl
  · rw [if_neg here, if_neg here]
    by_cases top : other = d.root
    · rw [if_pos top, top, live]
      rfl
    · rw [if_neg top]

/-- A new handle is not in the cache. -/
theorem Mounted.not_cached {device : Nat} (mounted : Mounted devices d)
    (fresh : d.handle.lookup device = none) :
    device ∉ (devices.map (·.1)).reverse ++ [d.root] := by
  intro member
  obtain ⟨h, live⟩ := mounted.cached_live member
  exact absurd (fresh.symm.trans live) (by simp)

/-- The numbers still differ after a registration exactly when no cached handle had the
number of the new one. -/
theorem Mounted.register_distinct {d' : Devfs} {device : Nat} {r : DevfsHandle} {name : CString}
    (mounted : Mounted devices d) (registers : d.Registers d' device h r name)
    (live : d.handle.lookup d.root = some r) (fresh : d.handle.lookup device = none)
    (ino : h.ino = d.nextInode) :
    ((d'.root :: (devices ++ [(device, name)]).map (·.1)).map d'.inoOf).Nodup ↔
      d.devfsIget d.nextInode = 0 := by
  have absent := mounted.not_cached fresh
  have same : (d.root :: devices.map (·.1)).map d'.inoOf =
      (d.root :: devices.map (·.1)).map d.inoOf := by
    apply List.map_congr_left
    intro other member
    have differ : other ≠ device := by
      rintro rfl
      exact absent (by simpa [or_comm] using member)
    rw [registers.inoOf live, if_neg differ]
  have new : d'.inoOf device = d.nextInode := by
    rw [registers.inoOf live, if_pos rfl, ino]
  rw [registers.root, List.map_append, ← List.cons_append, List.map_append, same,
    mounted.devfsIget_eq_zero, List.map_singleton, List.map_singleton, new, List.nodup_append]
  constructor
  · intro distinct member
    exact distinct.2.2 _ member _ (List.mem_singleton.mpr rfl) rfl
  · intro free
    refine ⟨mounted.distinct, List.nodup_singleton _, fun number member last single equal => ?_⟩
    rw [List.mem_singleton.mp single] at equal
    exact free (equal ▸ member)

/-- A registration under a number that no cached handle has. -/
theorem Mounted.register {d' : Devfs} {device : Nat} {r : DevfsHandle} {name : CString}
    (mounted : Mounted devices d) (registers : d.Registers d' device h r name)
    (live : d.handle.lookup d.root = some r) (fresh : d.handle.lookup device = none)
    (nonnull : device ≠ 0) (ino : h.ino = d.nextInode) (parent : h.parent = d.root)
    (valid : ValidName name) (new : name ∉ devices.map (·.2))
    (free : d.devfsIget d.nextInode = 0) : Mounted (devices ++ [(device, name)]) d' := by
  obtain ⟨_, live', zero, isDir, size, connected, _⟩ := mounted.root
  obtain rfl := Option.some.inj (live.symm.trans live')
  have absent := mounted.not_cached fresh
  have apart : d.root ≠ device := by
    intro same
    exact absent (by simp [← same])
  have old : ∀ earlier ∈ devices, earlier.1 ≠ device := by
    intro earlier member same
    exact absent (by simp [← same, List.mem_map_of_mem member])
  have inos : ∀ other, d'.inoOf other = if other = device then d.nextInode else d.inoOf other :=
    fun other => ino ▸ registers.inoOf live
  have rootLive : d'.handle.lookup d'.root = some (d.grown r name) := by
    rw [registers.root, registers.lookup, if_neg apart, if_pos rfl]
  have entries := entries_of_size size
  have grownSize : (d.grown r name).size =
      ((devices ++ [(device, name)]).length + 2) * devfsEntrySize := by
    show (r.entries + 1) * devfsEntrySize = _
    rw [entries, List.length_append]
    rfl
  have unchanged : devices.map d'.entryOf = devices.map d.entryOf := by
    apply List.map_congr_left
    intro earlier member
    rw [entryOf, entryOf, inos, if_neg (old earlier member)]
  refine ⟨⟨d.grown r name, rootLive, zero, isDir, grownSize, connected, ?_⟩, ?_, ?_, ?_, ?_, ?_⟩
  · obtain ⟨n, node, back, same⟩ := registers.node connected
    exact ⟨n, node, back.trans registers.root.symm, same⟩
  · have listed := mounted.listed
    rw [listing_of_live live] at listed
    rw [listing_of_live rootLive, entries_of_size grownSize, List.length_append,
      List.map_append, unchanged]
    show PackedArray.contents (Function.update r.pdata r.entries _) (devices.length + 2 + 1) = _
    rw [← entries, PackedArray.contents_push, listed, List.take_of_length_le valid.short]
    simp [entryOf, inos]
  · rw [registers.cacheNext live, registers.cache, registers.root, List.map_append,
      List.reverse_append]
    exact mounted.chain.push nonnull absent
  · intro other member
    rw [registers.root]
    rcases List.mem_append.mp member with earlier | here
    · obtain ⟨h, live, parent⟩ := mounted.live other earlier
      refine ⟨h, ?_, parent⟩
      rw [registers.lookup, if_neg (old other earlier), if_neg (mounted.device_ne_root earlier),
        live]
    · rw [List.mem_singleton.mp here, registers.lookup, if_pos rfl]
      exact ⟨_, rfl, parent⟩
  · exact (mounted.register_distinct registers live fresh ino).mpr free
  · obtain ⟨distinct, all⟩ := mounted.names
    constructor
    · rw [List.map_append]
      apply List.nodup_append.mpr
      refine ⟨distinct, by simp, fun other member last single equal => ?_⟩
      have here : last = name := by simpa using single
      exact new (by rwa [← here, ← equal])
    · intro other member
      rcases List.mem_append.mp member with earlier | here
      · exact all other earlier
      · rw [List.mem_singleton.mp here]
        exact valid

/-! ## Removal -/

/-- The root with one entry less. -/
def shrunk (r : DevfsHandle) (index : Nat) : DevfsHandle :=
  { r with
    size := r.size - devfsEntrySize
    pdata := PackedArray.shiftDown r.pdata index (r.entries - 1 - index) }

/-- The entries behind `.` and `..`. -/
theorem Mounted.contents_drop {r : DevfsHandle} (mounted : Mounted devices d)
    (live : d.handle.lookup d.root = some r) :
    PackedArray.contents (fun k => r.pdata (2 + k)) devices.length = devices.map d.entryOf := by
  obtain ⟨_, live', _, _, size, _⟩ := mounted.root
  obtain rfl := Option.some.inj (live.symm.trans live')
  have listed := mounted.listed
  rw [listing_of_live live, entries_of_size size] at listed
  apply List.ext_getElem
  · simp
  · intro k below _
    rw [PackedArray.length_contents] at below
    have inside : k + 2 < (PackedArray.contents r.pdata (devices.length + 2)).length := by
      simpa using below
    have whole : (PackedArray.contents r.pdata (devices.length + 2))[k + 2] =
        r.pdata (k + 2) := PackedArray.getElem_contents ..
    rw [PackedArray.getElem_contents, Nat.add_comm 2 k, ← whole]
    simp only [listed, List.getElem_cons_succ]

variable {before after : List (Nat × CString)} {device : Nat} {name : CString}

/-- The entry of a registered device is found and removed. -/
theorem Mounted.delDEntry_eq {r : DevfsHandle}
    (mounted : Mounted (before ++ (device, name) :: after) d)
    (live : d.handle.lookup d.root = some r) :
    d.delDEntry d.root (d.inoOf device) = d.resized d.root (shrunk r (2 + before.length)) := by
  obtain ⟨_, live', _, _, size, _⟩ := mounted.root
  obtain rfl := Option.some.inj (live.symm.trans live')
  have entries := entries_of_size size
  have numbers := mounted.distinct
  have index : (List.map d.entryOf (before ++ (device, name) :: after)).findIdx
      (fun entry => entry.inode == d.inoOf device) = before.length := by
    have passed : ¬(before.map d.entryOf).findIdx (fun entry => entry.inode == d.inoOf device) <
        (before.map d.entryOf).length := by
      rw [List.findIdx_lt_length]
      rintro ⟨entry, member, same⟩
      obtain ⟨other, earlier, rfl⟩ := List.mem_map.mp member
      rw [List.map_cons, List.nodup_cons, List.map_append, List.map_append] at numbers
      exact (List.nodup_append.mp numbers.2).2.2 _
        (List.mem_map_of_mem (List.mem_map_of_mem earlier)) _ List.mem_cons_self
        (beq_iff_eq.mp same)
    rw [List.map_append, List.findIdx_append, if_neg passed, List.map_cons, List.findIdx_cons,
      entryOf, beq_self_eq_true, cond_true, List.length_map, Nat.zero_add]
  have found : PackedArray.search r.pdata (fun entry => entry.inode == d.inoOf device) 2
      (r.entries - 2) = 2 + before.length := by
    rw [PackedArray.search_eq_findIdx, entries, Nat.add_sub_cancel, mounted.contents_drop live,
      index]
  have inside : ¬r.entries ≤ 2 + before.length := by
    rw [entries, List.length_append, List.length_cons]
    omega
  unfold delDEntry
  rw [live]
  dsimp only
  rw [found, if_neg inside]
  rfl

/-- The removal of a registered device. -/
theorem Mounted.unregister (mounted : Mounted (before ++ (device, name) :: after) d) :
    Mounted (before ++ after) (d.unregisterDevice device) ∧
      (d.unregisterDevice device).sb = d.sb ∧
      ∀ other, d.handle.lookup other = none →
        (d.unregisterDevice device).handle.lookup other = none := by
  obtain ⟨r, rootLive, zero, isDir, size, connected, _⟩ := mounted.root
  have here : (device, name) ∈ before ++ (device, name) :: after := by simp
  obtain ⟨h, live, parent⟩ := mounted.live _ here
  have entries := entries_of_size size
  let less := d.resized d.root (shrunk r (2 + before.length))
  have removed : d.unregisterDevice device = less.delFromCache device := by
    unfold unregisterDevice
    rw [live]
    dsimp only
    rw [parent, ← inoOf_of_live live, mounted.delDEntry_eq rootLive]
  have lookup : ∀ other, less.handle.lookup other =
      if other = d.root then some (shrunk r (2 + before.length)) else d.handle.lookup other :=
    fun other => resized_handle d d.root _ other
  have links : less.cacheNext = d.cacheNext := by
    funext other
    unfold cacheNext
    rw [lookup]
    split
    · rename_i top
      rw [top, rootLive]
      rfl
    · rfl
  obtain ⟨cache, _, sb, root⟩ := resized_frame d d.root (shrunk r (2 + before.length))
  have shape : (((before ++ (device, name) :: after).map (·.1)).reverse ++ [d.root]) =
      (after.map (·.1)).reverse ++ device :: ((before.map (·.1)).reverse ++ [d.root]) := by
    simp
  have chain : Chain less.cacheNext less.cache
      ((after.map (·.1)).reverse ++ device :: ((before.map (·.1)).reverse ++ [d.root])) := by
    rw [links, ← shape]
    exact cache ▸ mounted.chain
  have alive : ∀ other ∈ (after.map (·.1)).reverse ++ device ::
      ((before.map (·.1)).reverse ++ [d.root]), ∃ h, less.handle.lookup other = some h := by
    intro other member
    rw [lookup]
    split
    · exact ⟨_, rfl⟩
    · exact mounted.cached_live (shape ▸ member)
  obtain ⟨chain', kept, gone, node, sb', root', _⟩ := delFromCache_spec chain alive
  rw [removed]
  generalize less.delFromCache device = d' at *
  have distinct := mounted.chain.nodup
  have differ : ∀ other ∈ before ++ after, other.1 ≠ device := by
    intro other member same
    rw [shape, List.nodup_middle, List.nodup_cons] at distinct
    apply distinct.1
    rw [← same]
    rcases List.mem_append.mp member with early | late
    · simp [List.mem_map_of_mem early]
    · simp [List.mem_map_of_mem late]
  have old : ∀ other ∈ before ++ after, other ∈ before ++ (device, name) :: after := by
    intro other member
    simp only [List.mem_append, List.mem_cons] at member ⊢
    exact member.imp id .inr
  have apart : d.root ≠ device := fun same => mounted.device_ne_root here same.symm
  obtain ⟨link, rootLive'⟩ := kept d.root _ apart (by rw [lookup, if_pos rfl])
  have top : d'.root = d.root := root'.trans root
  have survives : ∀ other ∈ before ++ after, ∃ h, d'.handle.lookup other.1 = some h ∧
      h.parent = d.root ∧ h.ino = d.inoOf other.1 := by
    intro other member
    obtain ⟨h, live, parent⟩ := mounted.live other (old other member)
    have before' : less.handle.lookup other.1 = some h := by
      rw [lookup, if_neg (mounted.device_ne_root (old other member))]
      exact live
    obtain ⟨link, after'⟩ := kept other.1 h (differ other member) before'
    exact ⟨_, after', parent, (inoOf_of_live live).symm⟩
  have inos : ∀ other ∈ before ++ after, d'.inoOf other.1 = d.inoOf other.1 := by
    intro other member
    obtain ⟨h, live, _, ino⟩ := survives other member
    rw [inoOf_of_live live, ino]
  have rootIno : d'.inoOf d.root = d.inoOf d.root := by
    rw [inoOf_of_live rootLive', inoOf_of_live rootLive]
    rfl
  have lessSize : (shrunk r (2 + before.length)).size =
      ((before ++ after).length + 2) * devfsEntrySize := by
    show r.size - devfsEntrySize = _
    rw [size, List.length_append, List.length_append, List.length_cons, devfsEntrySize]
    omega
  have newRoot : d'.handle.lookup d'.root =
      some { shrunk r (2 + before.length) with cacheNext := link } := by
    rw [top]
    exact rootLive'
  have same : (before ++ after).map d'.entryOf = (before ++ after).map d.entryOf := by
    apply List.map_congr_left
    intro other member
    rw [entryOf, entryOf, inos other member]
  have shorter : (before ++ after).Sublist (before ++ (device, name) :: after) :=
    (List.sublist_cons_self _ after).append_left before
  refine ⟨⟨⟨_, newRoot, zero, isDir, lessSize, connected, ?_⟩, ?_, ?_, ?_, ?_, ?_⟩,
    sb'.trans sb, fun other none => gone other ?_⟩
  · have connected' : (shrunk r (2 + before.length)).node ≠ 0 := connected
    obtain ⟨n, found, back, same⟩ := @resized_node d _ d.root connected'
    exact ⟨n, node ▸ found, back.trans top.symm, same⟩
  · have listed := mounted.listed
    rw [listing_of_live rootLive, entries] at listed
    have inside : 2 + before.length < r.entries := by
      rw [entries, List.length_append, List.length_cons]
      omega
    have count : (before ++ after).length + 2 = r.entries - 1 := by
      rw [entries, List.length_append, List.length_append, List.length_cons]
      omega
    rw [listing_of_live newRoot, same]
    show PackedArray.contents (PackedArray.shiftDown r.pdata (2 + before.length)
      (r.entries - 1 - (2 + before.length))) (shrunk r (2 + before.length)).entries = _
    rw [entries_of_size lessSize, count, PackedArray.contents_shiftDown inside, entries, listed,
      Nat.add_comm 2 before.length, List.eraseIdx_cons_succ, List.eraseIdx_cons_succ, List.map_append,
      List.eraseIdx_append_of_length_le (by simp), List.length_map, Nat.sub_self,
      List.map_cons, List.eraseIdx_cons_zero, List.map_append]
  · rw [top, List.map_append, List.reverse_append, List.append_assoc]
    exact chain'
  · intro other member
    obtain ⟨h, live, parent, _⟩ := survives other member
    exact ⟨h, live, parent.trans top.symm⟩
  · have numbers : (d.root :: (before ++ after).map (·.1)).map d'.inoOf =
        (d.root :: (before ++ after).map (·.1)).map d.inoOf := by
      rw [List.map_cons, List.map_cons, rootIno, List.map_map, List.map_map]
      congr 1
      exact List.map_congr_left inos
    rw [top, numbers]
    exact mounted.distinct.sublist (((shorter.map _).cons_cons d.root).map d.inoOf)
  · exact ⟨mounted.names.1.sublist (shorter.map _),
      fun other member => mounted.names.2 other (old other member)⟩
  · rw [lookup, if_neg]
    · exact none
    · rintro rfl
      exact absurd (none.symm.trans rootLive) (by simp)

/-! ## Mount and unmount -/

/-- A mount of the unmounted file system. -/
theorem readDevfsSb_mounted (calloc : Allocator DevfsHandle) (iget : Allocator DevfsNode)
    (free : d.sb = 0) (null : d.handle.lookup 0 = none) (sb : Nat) :
    let d' := (d.readDevfsSb calloc iget sb).1
    Mounted [] d' ∧ d'.sb = sb ∧ d'.handle.lookup 0 = none := by
  intro d'
  have nonnull : calloc.address d.handle ≠ 0 := calloc.address_ne_zero _
  have connected : iget.address d.node ≠ 0 := iget.address_ne_zero _
  let entries (i : Nat) : DevfsEntry :=
    if i = 0 then ⟨0, dot⟩ else if i = 1 then ⟨0, dotdot⟩ else {}
  let h : DevfsHandle :=
    { ino := 0, nlinks := 1, mode := 755, flags := fsDirectory, size := devfsEntrySize * 2,
      pdata := entries, fOp := devfsDirFop,
      parent := { d with sb, cache := 0 }.devfsIget 0 }
  let cached := (emptyDir calloc { d with sb, cache := 0 } 0 0).1
  have lookup : ∀ other, cached.handle.lookup other =
      if other = calloc.address d.handle then some { h with cacheNext := 0 }
      else d.handle.lookup other := by
    intro other
    show (Store.modify _ _ _).lookup other = _
    rw [Store.lookup_modify]
    by_cases here : other = calloc.address d.handle
    · rw [if_pos here, if_pos here]
      dsimp only
      rw [AList.lookup_insert]
      rfl
    · rw [if_neg here, if_neg here]
      exact AList.lookup_insert_ne here
  have live := lookup (calloc.address d.handle)
  rw [if_pos rfl] at live
  have chain : Chain cached.cacheNext cached.cache [calloc.address d.handle] := by
    refine ⟨rfl, nonnull, ?_⟩
    rw [cacheNext_of_live live]
    rfl
  have found : cached.devfsIget 0 = calloc.address d.handle := by
    have stops : (cached.inoOf (calloc.address d.handle) == 0) = true := by
      rw [inoOf_of_live live]
      rfl
    unfold devfsIget
    rw [@seek_found _ _ _ _ _ _ [] [] chain (by simp) stops (by simp [walkSteps])]
  let rooted : Devfs := { cached with root := calloc.address d.handle }
  have result : d' = rooted.handle2vnode (iget.address d.node) (calloc.address d.handle) := by
    show (d.readDevfsSb calloc iget sb).1 = _
    unfold readDevfsSb
    rw [if_neg (not_not.mpr free)]
    show rooted.handle2vnode (iget.address d.node) (cached.devfsIget 0) = _
    rw [found]
  have there : rooted.handle.lookup (calloc.address d.handle) = _ := live
  rw [handle2vnode_of_live there connected] at result
  have rootLive : d'.handle.lookup d'.root =
      some { h with cacheNext := 0, node := iget.address d.node } := by
    rw [result]
    exact AList.lookup_insert ..
  have isDir : h.isDir = true := by
    show (fsDirectory &&& 7 == fsDirectory) = true
    decide
  refine ⟨⟨⟨_, rootLive, rfl, isDir, rfl, connected, ?_⟩, ?_, ?_, ?_, ?_, ?_⟩, ?_, ?_⟩
  · rw [result]
    exact ⟨_, AList.lookup_insert .., rfl, rfl⟩
  · have two : devfsEntrySize * 2 = 2 * devfsEntrySize := rfl
    rw [listing_of_live rootLive, entries_of_size two]
    rfl
  · refine ⟨?_, ?_, ?_⟩
    · rw [result]
      rfl
    · rw [result]
      exact nonnull
    · rw [cacheNext_of_live rootLive]
      rfl
  · intro device member
    cases member
  · simp
  · simp
  · rw [result]
    rfl
  · rw [result]
    dsimp only
    rw [Store.lookup_insert_eq, if_neg nonnull.symm]
    show cached.handle.lookup 0 = none
    rw [lookup, if_neg nonnull.symm]
    exact null

/-- Freeing the cache makes no handle. -/
theorem freeCache_none (steps : Nat) (d : Devfs) (absent : d.handle.lookup other = none) :
    (freeCache steps d).handle.lookup other = none := by
  induction steps generalizing d with
  | zero => exact absent
  | succ steps ih =>
    unfold freeCache
    split
    · exact absent
    · apply ih
      rw [Store.lookup_erase_eq]
      split
      · rfl
      · exact absent

/-- Freeing the cache empties it. -/
theorem freeCache_cache {handles : List Nat} {steps : Nat} (d : Devfs)
    (chain : Chain d.cacheNext d.cache handles) (enough : handles.length ≤ steps) :
    (freeCache steps d).cache = 0 := by
  induction handles generalizing d steps with
  | nil =>
    cases steps with
    | zero => exact chain
    | succ steps =>
      unfold freeCache
      rw [if_pos (show d.cache = 0 from chain)]
      exact chain
  | cons first rest ih =>
    have distinct := chain.nodup
    obtain ⟨cache, nonnull, tail⟩ := chain
    cases steps with
    | zero => simp at enough
    | succ steps =>
      unfold freeCache
      rw [if_neg (cache ▸ nonnull), cache]
      refine ih _ (tail.congr fun other member => ?_) (Nat.le_of_succ_le_succ enough)
      unfold cacheNext
      dsimp only
      rw [Store.lookup_erase_eq, if_neg]
      rintro rfl
      exact (List.nodup_cons.mp distinct).1 member

end Devfs

/-- What happens to the file system. A registration says which handle it returned. -/
inductive DevfsEvent where
  | mount (sb : Nat)
  | register (handle : Nat) (name : CString)
  | unregister (device : Nat)
  | unmount
  deriving DecidableEq, Repr

/-- The handle is a registered device: it is in the cache, and not the root. -/
def Devfs.IsDevice (d : Devfs) (device : Nat) : Prop :=
  device ≠ d.root ∧
    (LinkedList.seek d.cacheNext (· == device) d.walkSteps 0 d.cache).2 = device ∧ device ≠ 0

/-- The steps. A device is registered in the root, which a null directory stands for, under a name
that `devfs_add_d_entry` returns for, and only a registered device is removed. -/
inductive DevfsStep : Devfs → DevfsEvent → Devfs → Prop
  | mount {d : Devfs} {sb : Nat} (calloc : Allocator DevfsHandle) (iget : Allocator DevfsNode)
      (block : sb ≠ 0) : DevfsStep d (.mount sb) (d.readDevfsSb calloc iget sb).1
  | register {d : Devfs} {dir : Nat} (calloc : Allocator DevfsHandle) (into : dir = 0 ∨ dir = d.root)
      (name : CString) (short : name.length ≤ devfsFilenameLen) (mode uid gid type fOp : Nat) :
      DevfsStep d (.register (d.registerDevice calloc dir name mode uid gid type fOp).2 name)
        (d.registerDevice calloc dir name mode uid gid type fOp).1
  | unregister {d : Devfs} {device : Nat} (registered : d.IsDevice device) :
      DevfsStep d (.unregister device) (d.unregisterDevice device)
  | unmount {d : Devfs} (mounted : d.sb ≠ 0) : DevfsStep d .unmount d.unmount

/-- Runs from the variables as they are compiled. -/
def devfs : TransitionSystem Devfs DevfsEvent where
  initial d := d = {}
  step := DevfsStep

/-- What an event does to the list of the registered devices. -/
def recordDevice (devices : List (Nat × CString)) : DevfsEvent → List (Nat × CString)
  | .mount _ => devices
  | .register handle name => if handle = 0 then devices else devices ++ [(handle, name)]
  | .unregister device => devices.filter (·.1 != device)
  | .unmount => []

/-- The registered devices, in the order of their registration. -/
def registered (events : List DevfsEvent) : List (Nat × CString) :=
  events.foldl recordDevice []

/-- A registration uses a name that may be registered and is not registered. -/
def NewName (d : Devfs) : DevfsEvent → Prop
  | .register _ name => Devfs.ValidName name ∧ name ∉ (d.listing.drop 2).map (·.filename)
  | _ => True

/-- A registration uses an inode number that no cached handle has. -/
def FreeNumber (d : Devfs) : DevfsEvent → Prop
  | .register _ _ => d.devfsIget d.nextInode = 0
  | _ => True

namespace Devfs

open LinkedList

variable {d : Devfs} {devices : List (Nat × CString)} {device : Nat} {name : CString}

/-- A handle that may be removed is that of a registered device. -/
theorem Mounted.exists_device (mounted : Mounted devices d) (isDevice : d.IsDevice device) :
    ∃ name, (device, name) ∈ devices := by
  obtain ⟨other, found, nonnull⟩ := isDevice
  have member : device ∈ (devices.map (·.1)).reverse ++ [d.root] := by
    by_contra absent
    have passed : ∀ earlier ∈ (devices.map (·.1)).reverse ++ [d.root],
        (earlier == device) = false :=
      fun earlier there => beq_eq_false_iff_ne.mpr fun same => absent (same ▸ there)
    exact nonnull (found.symm.trans (seek_absent mounted.chain passed mounted.walk))
  rcases List.mem_append.mp member with registered | root
  · obtain ⟨⟨_, name⟩, there, rfl⟩ := List.mem_map.mp (List.mem_reverse.mp registered)
    exact ⟨name, there⟩
  · exact absurd (List.mem_singleton.mp root) other

/-- The names in the root behind `.` and `..`. -/
theorem Mounted.names_listed (mounted : Mounted devices d) :
    (d.listing.drop 2).map (·.filename) = devices.map (·.2) := by
  rw [mounted.listed]
  show (devices.map d.entryOf).map (·.filename) = _
  rw [List.map_map]
  rfl

/-- Every step keeps what the file system says about its devices. -/
theorem Sound.step {event : DevfsEvent} {d' : Devfs} (sound : Sound devices d)
    (new : NewName d event) (free : FreeNumber d event) (step : DevfsStep d event d') :
    Sound (recordDevice devices event) d' := by
  cases step with
  | @mount sb calloc iget block =>
    by_cases mounted : d.sb = 0
    · obtain ⟨_, _, none⟩ := sound.unmounted mounted
      obtain ⟨now, same, null⟩ := readDevfsSb_mounted calloc iget mounted sound.null sb
      refine ⟨null, fun zero => absurd (same.symm.trans zero) block, fun _ => ?_⟩
      rw [recordDevice, none]
      exact now
    · have busy : d.readDevfsSb calloc iget sb = (d, 0) := if_pos mounted
      rw [busy]
      exact sound
  | @register dir calloc into name _ mode uid gid type fOp =>
    by_cases mounted : d.sb = 0
    · obtain ⟨root, _, _⟩ := sound.unmounted mounted
      have target : (if dir = 0 then d.root else dir) = 0 := by
        rw [root] at into ⊢
        rw [or_self] at into
        rw [if_pos into]
      have refused : d.registerDevice calloc dir name mode uid gid type fOp = (d, 0) := by
        unfold registerDevice
        rw [target]
        dsimp only
        rw [sound.null]
      rw [refused]
      exact sound
    · have now := sound.mounted mounted
      obtain ⟨r, live, _, isDir, _⟩ := now.root
      obtain ⟨d', done, registers⟩ :=
        registerDevice_spec calloc live isDir into name mode uid gid type fOp
      have fresh := calloc.address_fresh d.handle
      have nonnull := calloc.address_ne_zero d.handle
      obtain ⟨valid, unused⟩ := new
      rw [now.names_listed] at unused
      rw [done, recordDevice, if_neg nonnull]
      refine ⟨?_, fun zero => absurd (registers.sb.symm.trans zero) mounted,
        fun _ => now.register registers live fresh nonnull rfl rfl valid unused free⟩
      rw [registers.lookup, if_neg nonnull.symm, if_neg, sound.null]
      rintro top
      rw [← top, sound.null] at live
      cases live
  | @unregister device isDevice =>
    by_cases mounted : d.sb = 0
    · obtain ⟨_, cache, _⟩ := sound.unmounted mounted
      obtain ⟨_, found, nonnull⟩ := isDevice
      rw [cache] at found
      exact absurd (by simpa [walkSteps, seek] using found.symm) nonnull
    · have now := sound.mounted mounted
      obtain ⟨name, member⟩ := now.exists_device isDevice
      obtain ⟨before, after, rfl⟩ := List.append_of_mem member
      obtain ⟨then', sb, none⟩ := now.unregister
      have left : recordDevice (before ++ (device, name) :: after) (.unregister device) =
          before ++ after := by
        have differ : ∀ other ∈ before ++ after, (other.1 != device) = true := by
          intro other there
          have chain := now.chain.nodup
          rw [List.nodup_append, List.nodup_reverse, List.map_append, List.map_cons,
            List.nodup_middle, List.nodup_cons, ← List.map_append] at chain
          rw [bne_iff_ne]
          rintro rfl
          exact chain.1.1 (List.mem_map.mpr ⟨other, there, rfl⟩)
        have kept := List.filter_eq_self.mpr differ
        rw [List.filter_append] at kept
        rw [recordDevice, List.filter_append, List.filter_cons_of_neg (by simp), kept]
      rw [left]
      exact ⟨none 0 sound.null, fun zero => absurd (sb.symm.trans zero) mounted, fun _ => then'⟩
  | unmount mounted =>
    have now := sound.mounted mounted
    refine ⟨freeCache_none _ d sound.null, fun _ => ⟨rfl, ?_, rfl⟩, fun busy => absurd rfl busy⟩
    exact freeCache_cache d now.chain (Nat.le_of_lt now.walk)

/-- A lookup searches the entries of the root, the last one first. -/
theorem Mounted.devfsLookup_eq (mounted : Mounted devices d) (name : CString) :
    d.devfsLookup d.rootNode name =
      (d.listing.reverse.find? fun entry => nameiMatch name entry.filename).map (·.inode) := by
  obtain ⟨r, live, _, _, size, _, n, node, back, same⟩ := mounted.root
  have top : d.rootNode = r.node := by
    rw [rootNode, live]
    rfl
  have count : n.size / devfsEntrySize = r.entries := by
    rw [same]
    rfl
  rw [listing_of_live live, ← PackedArray.searchLast_map]
  unfold devfsLookup
  rw [top, node]
  show (d.handle.lookup n.handle).bind _ = _
  rw [back, live]
  show (PackedArray.searchLast r.pdata _ (n.size / devfsEntrySize)).bind _ = _
  rw [count]
  cases PackedArray.searchLast r.pdata (fun entry => nameiMatch name entry.filename) r.entries with
  | none => rfl
  | some i => rfl

/-- The entry a lookup finds is that of the device with the name. -/
theorem Mounted.find_device (mounted : Mounted devices d) {filename : CString}
    (member : (device, name) ∈ devices) (named : component filename = name) :
    (devices.map d.entryOf).reverse.find? (fun entry => nameiMatch filename entry.filename) =
      some (d.entryOf (device, name)) := by
  have match_iff : ∀ other ∈ devices, nameiMatch filename other.2 = true ↔ other.2 = name := by
    intro other there
    have valid := mounted.names.2 other there
    rw [nameiMatch_iff, named, component_of_name valid.whole valid.plain, eq_comm]
  cases found : (devices.map d.entryOf).reverse.find?
      (fun entry => nameiMatch filename entry.filename) with
  | none =>
    have none := List.find?_eq_none.mp found (d.entryOf (device, name))
      (List.mem_reverse.mpr (List.mem_map_of_mem member))
    exact absurd ((match_iff _ member).mpr rfl) none
  | some entry =>
    obtain ⟨other, there, rfl⟩ := List.mem_map.mp
      (List.mem_reverse.mp (List.mem_of_find?_eq_some found))
    have matches' := List.find?_some found
    have same := (match_iff other there).mp matches'
    have equal := List.inj_on_of_nodup_map mounted.names.1 there member same
    rw [equal]

/-- A lookup of the name of a device yields the inode of the device. -/
theorem Mounted.lookup_device (mounted : Mounted devices d) {filename : CString}
    (member : (device, name) ∈ devices) (named : component filename = name) :
    d.devfsLookup d.rootNode filename = some (d.inoOf device) := by
  rw [mounted.devfsLookup_eq, mounted.listed, List.reverse_cons, List.reverse_cons,
    List.append_assoc, List.find?_append, mounted.find_device member named]
  rfl

/-- A lookup of another name yields the root for `.` and `..`, and otherwise nothing. -/
theorem Mounted.lookup_other (mounted : Mounted devices d) {filename : CString}
    (other : component filename ∉ devices.map (·.2)) :
    d.devfsLookup d.rootNode filename =
      if component filename = dot ∨ component filename = dotdot then some 0 else none := by
  have none : (devices.map d.entryOf).reverse.find?
      (fun entry => nameiMatch filename entry.filename) = none := by
    rw [List.find?_eq_none]
    intro entry member same
    obtain ⟨device, there, rfl⟩ := List.mem_map.mp (List.mem_reverse.mp member)
    have valid := mounted.names.2 device there
    have equal := (nameiMatch_iff _ _).mp same
    rw [entryOf, component_of_name valid.whole valid.plain] at equal
    exact other (equal ▸ List.mem_map_of_mem there)
  have self : ∀ name, nameiMatch filename name = decide (component filename = component name) := by
    intro name
    rw [Bool.eq_iff_iff, nameiMatch_iff, decide_eq_true_iff]
  rw [mounted.devfsLookup_eq, mounted.listed, List.reverse_cons, List.reverse_cons,
    List.append_assoc, List.find?_append, none, Option.none_or]
  show Option.map _ (List.find? _ [(⟨0, dotdot⟩ : DevfsEntry), ⟨0, dot⟩]) = _
  rw [List.find?_cons, List.find?_cons, List.find?_nil, self, self]
  show Option.map _ (match decide (component filename = dotdot) with
    | true => _
    | false => match decide (component filename = dot) with
      | true => _
      | false => _) = _
  by_cases up : component filename = dotdot
  · simp [up]
  · by_cases here : component filename = dot
    · simp [here, dot, dotdot]
    · simp [up, here]

end Devfs

/-- One more event. -/
theorem registered_snoc (events : List DevfsEvent) (event : DevfsEvent) :
    registered (events ++ [event]) = recordDevice (registered events) event := by
  rw [registered, List.foldl_append]
  rfl

/-- Every run that registers each device under a free number is sound. -/
theorem devfs_sound {d : Devfs} {events : List DevfsEvent}
    (path : devfs.Path (fun d event => NewName d event ∧ FreeNumber d event) {} events d) :
    Devfs.Sound (registered events) d := by
  generalize start : ({} : Devfs) = first at path
  induction path with
  | nil =>
    subst start
    exact ⟨rfl, fun _ => ⟨rfl, rfl, rfl⟩, fun busy => absurd rfl busy⟩
  | snoc _ permitted step ih =>
    rw [registered_snoc]
    exact ih.step permitted.1 permitted.2 step

open LinkedList Devfs in
/-- The registry of devices, in every run that registers each device under a number no cached
handle has, while the file system is mounted: the cache has the root and the devices with
different numbers, `devfs_iget` finds each of them, the root lists them in the order of their
registration, and a lookup finds them and nothing else but `.` and `..`. A registration keeps
the numbers apart exactly when its own number is free. -/
theorem devfs_registry {d : Devfs} {events : List DevfsEvent}
    (path : devfs.Path (fun d event => NewName d event ∧ FreeNumber d event) {} events d)
    (mounted : d.sb ≠ 0) :
    (∃ cached : List Nat, Chain d.cacheNext d.cache cached ∧
      cached = ((registered events).map (·.1)).reverse ++ [d.root] ∧
      (cached.map d.inoOf).Nodup ∧ ∀ handle ∈ cached, d.devfsIget (d.inoOf handle) = handle) ∧
    d.listing = ⟨0, dot⟩ :: ⟨0, dotdot⟩ :: (registered events).map d.entryOf ∧
    (∀ filename,
      (∀ device ∈ registered events, component filename = device.2 →
        d.devfsLookup d.rootNode filename = some (d.inoOf device.1)) ∧
      (component filename ∉ (registered events).map (·.2) →
        d.devfsLookup d.rootNode filename =
          if component filename = dot ∨ component filename = dotdot then some 0 else none)) ∧
    ∀ handle name d', DevfsStep d (.register handle name) d' →
      (((d'.root :: (registered (events ++ [.register handle name])).map (·.1)).map
        d'.inoOf).Nodup ↔ FreeNumber d (.register handle name)) := by
  have sound := devfs_sound path
  have now := sound.mounted mounted
  refine ⟨⟨_, now.chain, rfl, now.cached_distinct, fun _ => now.devfsIget_of_cached⟩, now.listed,
    fun filename => ⟨fun _ => now.lookup_device, now.lookup_other⟩, fun handle name d' step => ?_⟩
  rw [registered_snoc]
  cases step with
  | @register dir calloc into name _ mode uid gid type fOp =>
    obtain ⟨r, live, _, isDir, _⟩ := now.root
    obtain ⟨d', done, registers⟩ :=
      registerDevice_spec calloc live isDir into name mode uid gid type fOp
    rw [done, recordDevice, if_neg (calloc.address_ne_zero d.handle)]
    exact now.register_distinct registers live (calloc.address_fresh d.handle) rfl

namespace Devfs

/-- Mount the file system. -/
def mountAt (d : Devfs) (sb : Nat) : Devfs := (d.readDevfsSb (.above _) (.above _) sb).1

/-- Register a device in the root. -/
def registerAt (d : Devfs) (name : CString) : Devfs × Nat :=
  d.registerDevice (.above _) 0 name 0o666 0 0 3 2

/-- `"null"`. -/
def nullName : CString := [110, 117, 108, 108]

/-- The name of a device may be registered. -/
theorem nullName_valid : ValidName nullName := ⟨by decide, by decide, by decide⟩

/-- The file system after its first mount, with one device. -/
def populated : Devfs := ((({} : Devfs).mountAt 1).registerAt nullName).1

end Devfs

/-- The first device is found and has the number 1. -/
theorem devfs_registry_null :
    Devfs.populated.devfsLookup Devfs.populated.rootNode Devfs.nullName = some 1 := by
  have mount : DevfsStep {} (.mount 1) (Devfs.mountAt {} 1) := .mount (.above _) (.above _) (by decide)
  have register : DevfsStep (Devfs.mountAt {} 1) (.register 2 Devfs.nullName) Devfs.populated :=
    .register (.above _) (.inl rfl) Devfs.nullName (by decide) 0o666 0 0 3 2
  let allowed (d : Devfs) (event : DevfsEvent) : Prop := NewName d event ∧ FreeNumber d event
  have new : allowed (Devfs.mountAt {} 1) (.register 2 Devfs.nullName) :=
    ⟨⟨Devfs.nullName_valid, by decide +kernel⟩, by unfold FreeNumber; decide +kernel⟩
  have mounted : devfs.Path allowed {} [.mount 1] (Devfs.mountAt {} 1) :=
    (TransitionSystem.Path.nil _).snoc (show allowed {} (.mount 1) from ⟨trivial, trivial⟩) mount
  have path := mounted.snoc new register
  have found := ((devfs_registry path (by decide +kernel)).2.2.1 Devfs.nullName).1
    (2, Devfs.nullName) (by decide +kernel) (by decide +kernel)
  rw [found]
  decide +kernel

/-- After an unmount the first device gets the number of the root, and `devfs_iget` of that
number returns the device. -/
theorem devfs_registry_remounted :
    ¬∀ (d : Devfs) (events : List DevfsEvent), devfs.Path NewName {} events d → d.sb ≠ 0 →
      d.devfsIget (d.inoOf d.root) = d.root := by
  intro claim
  let first := Devfs.mountAt {} 1
  let second := first.unmount.mountAt 1
  have mount (d : Devfs) : DevfsStep d (.mount 1) (d.mountAt 1) :=
    .mount (.above _) (.above _) (by decide)
  have unmount : DevfsStep first .unmount first.unmount := .unmount (by decide +kernel)
  have register : DevfsStep second (.register _ Devfs.nullName)
      (second.registerAt Devfs.nullName).1 :=
    .register (.above _) (.inl rfl) Devfs.nullName (by decide) 0o666 0 0 3 2
  have new (handle : Nat) : NewName second (.register handle Devfs.nullName) :=
    ⟨Devfs.nullName_valid, by decide +kernel⟩
  have silent (d : Devfs) : NewName d (.mount 1) ∧ NewName d .unmount := ⟨trivial, trivial⟩
  have mounted : devfs.Path NewName {} [.mount 1] first :=
    (TransitionSystem.Path.nil _).snoc (silent _).1 (mount _)
  have remounted := (mounted.snoc (silent _).2 unmount).snoc (silent _).1 (mount _)
  have found := claim _ _ (remounted.snoc (new _) register) (by decide +kernel)
  exact absurd found (by decide +kernel)

end Nupkux
