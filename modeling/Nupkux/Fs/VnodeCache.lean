import Nupkux.Fs.Vnode
import Nupkux.Lib.Transition

/-!
# Reference counting in the vnode cache

`Vfs.Cached` is what `iget` and `iput` keep of the linked caches: each live vnode is in the
list of its super block and no two of one super block share an inode number. The counter
enters separately, in `CacheRun.Counted`, because it is a UCHAR: it tells the outstanding
references apart only up to 255.
-/

namespace Nupkux

open LinkedList

/-- A vnode without its link in the cache. -/
def Vnode.content (n : Vnode) : Vnode := { n with cacheNext := 0 }

namespace Vfs

/-- The list of a super block's cache holds exactly its live vnodes. -/
structure Cached (v : Vfs) : Prop where
  /-- The super block of a live vnode is there and has its operations. -/
  owner : ∀ node n, v.vnode.lookup node = some n →
    ∃ block, v.superBlock.lookup n.sb = some block ∧ block.sOp.isSome
  /-- The cache of a super block links its live vnodes. -/
  chain : ∀ sb block, v.superBlock.lookup sb = some block →
    ∃ nodes, Chain v.cacheNext block.cache nodes ∧
      ∀ node, node ∈ nodes ↔ ∃ n, v.vnode.lookup node = some n ∧ n.sb = sb
  /-- A super block has at most one vnode of an inode number. -/
  inode : ∀ node other n m, v.vnode.lookup node = some n → v.vnode.lookup other = some m →
    n.sb = m.sb → n.ino = m.ino → node = other

variable {v : Vfs} {width sb ino node : Nat} {block : SuperBlock} {n : Vnode}

/-- No vnode is at the null pointer. -/
theorem Cached.null (cached : v.Cached) : v.vnode.lookup 0 = none := by
  cases found : v.vnode.lookup 0 with
  | none => rfl
  | some n =>
    obtain ⟨block, owner, _⟩ := cached.owner 0 n found
    obtain ⟨nodes, chain, members⟩ := cached.chain n.sb block owner
    exact absurd rfl (chain.ne_zero ((members 0).mpr ⟨n, found, rfl⟩))

/-- A live vnode is not at the null pointer. -/
theorem Cached.ne_zero (cached : v.Cached) (live : v.vnode.lookup node = some n) :
    node ≠ 0 := by
  rintro rfl
  simp [cached.null] at live

/-- A walk over distinct live vnodes ends within `walkSteps`. -/
theorem walk_enough {nodes : List Nat} (distinct : nodes.Nodup)
    (live : ∀ node ∈ nodes, ∃ n, v.vnode.lookup node = some n) :
    nodes.length < v.walkSteps := by
  have bound := Store.length_le_of_live distinct
    fun node member => Store.mem_iff_lookup.mpr (live node member)
  simp only [walkSteps]
  omega

/-- What the caches are is decided by the inode number, super block and link of each vnode. -/
theorem Cached.congr {v' : Vfs} (cached : v.Cached) (blocks : v'.superBlock = v.superBlock)
    (same : ∀ node, (v'.vnode.lookup node).map (fun n => (n.ino, n.sb, n.cacheNext)) =
      (v.vnode.lookup node).map (fun n => (n.ino, n.sb, n.cacheNext))) : v'.Cached := by
  have back : ∀ node n', v'.vnode.lookup node = some n' → ∃ n, v.vnode.lookup node = some n ∧
      n.ino = n'.ino ∧ n.sb = n'.sb := by
    intro node n' live
    have this := same node
    rw [live] at this
    obtain ⟨n, found, key⟩ := Option.map_eq_some_iff.mp this.symm
    exact ⟨n, found, congrArg (·.1) key, congrArg (·.2.1) key⟩
  have forth : ∀ node n, v.vnode.lookup node = some n → ∃ n', v'.vnode.lookup node = some n' ∧
      n'.sb = n.sb := by
    intro node n live
    have this := same node
    rw [live] at this
    obtain ⟨n', found, key⟩ := Option.map_eq_some_iff.mp this
    exact ⟨n', found, congrArg (·.2.1) key⟩
  have links : v'.cacheNext = v.cacheNext := by
    funext node
    have this := congrArg (Option.map (·.2.2)) (same node)
    simp only [Option.map_map] at this
    simp only [cacheNext]
    exact congrArg (·.getD 0) this
  refine ⟨fun node n' live => ?_, fun sb block found => ?_, fun node other n' m' live live' sbs inos => ?_⟩
  · obtain ⟨n, found, _, sbs⟩ := back node n' live
    rw [blocks, ← sbs]
    exact cached.owner node n found
  · rw [blocks] at found
    obtain ⟨nodes, chain, members⟩ := cached.chain sb block found
    refine ⟨nodes, links ▸ chain, fun node => (members node).trans ⟨?_, ?_⟩⟩
    · rintro ⟨n, live, rfl⟩
      obtain ⟨n', live', sbs⟩ := forth node n live
      exact ⟨n', live', sbs⟩
    · rintro ⟨n', live', rfl⟩
      obtain ⟨n, live, _, sbs⟩ := back node n' live'
      exact ⟨n, live, sbs⟩
  · obtain ⟨n, found, ino, sb⟩ := back node n' live
    obtain ⟨m, found', ino', sb'⟩ := back other m' live'
    exact cached.inode node other n m found found' (by rw [sb, sb', sbs]) (by rw [ino, ino', inos])

/-- Taking a reference changes no list. -/
theorem Cached.hold (cached : v.Cached) (width node : Nat) : (v.hold width node).Cached := by
  refine cached.congr rfl fun other => ?_
  simp only [Vfs.hold, Store.lookup_modify]
  split
  · rename_i same
    subst same
    simp [Option.map_map, Function.comp_def]
  · rfl

/-- A vnode is in the list of a super block exactly while it is live and of that super block. -/
theorem Cached.mem_iff (cached : v.Cached) :
    (∃ block nodes, v.superBlock.lookup sb = some block ∧ Chain v.cacheNext block.cache nodes ∧
      node ∈ nodes) ↔ ∃ n, v.vnode.lookup node = some n ∧ n.sb = sb := by
  constructor
  · rintro ⟨block, nodes, found, chain, member⟩
    obtain ⟨nodes', chain', members⟩ := cached.chain sb block found
    rw [chain.unique chain'] at member
    exact (members node).mp member
  · rintro ⟨n, live, rfl⟩
    obtain ⟨block, found, _⟩ := cached.owner node n live
    obtain ⟨nodes, chain, members⟩ := cached.chain n.sb block found
    exact ⟨block, nodes, found, chain, (members node).mpr ⟨n, live, rfl⟩⟩

/-- A super block without live vnodes has an empty cache. -/
theorem Cached.cache_eq_zero (cached : v.Cached) (found : v.superBlock.lookup sb = some block)
    (none : ∀ node n, v.vnode.lookup node = some n → n.sb ≠ sb) : block.cache = 0 := by
  obtain ⟨nodes, chain, members⟩ := cached.chain sb block found
  have empty : nodes = [] := by
    refine List.eq_nil_iff_forall_not_mem.mpr fun node member => ?_
    obtain ⟨n, live, same⟩ := (members node).mp member
    exact none node n live same
  rw [empty] at chain
  exact chain

/-- Without vnodes the caches are in order if they are empty. -/
theorem cached_of_empty (none : ∀ node, v.vnode.lookup node = none)
    (empty : ∀ sb block, v.superBlock.lookup sb = some block → block.cache = 0) : v.Cached := by
  refine ⟨fun node n live => ?_, fun sb block found => ⟨[], empty sb block found, fun node => ?_⟩,
    fun node other n m live => ?_⟩
  · cases (none node).symm.trans live
  · simp [none]
  · cases (none node).symm.trans live

/-- The search of `iget` finds the cached vnode of the inode number. -/
theorem findCached_of_live (cached : v.Cached) (found : v.superBlock.lookup n.sb = some block)
    (live : v.vnode.lookup node = some n) : v.findCached block n.ino = node := by
  obtain ⟨nodes, chain, members⟩ := cached.chain n.sb block found
  obtain ⟨before, after, rfl⟩ := List.append_of_mem ((members node).mpr ⟨n, live, rfl⟩)
  have distinct := chain.nodup
  have enough := walk_enough (v := v) distinct fun other member =>
    ((members other).mp member).imp fun _ h => h.1
  simp only [List.length_append, List.length_cons] at enough
  unfold findCached
  rw [seek_found chain (fun earlier member => ?_) (by simp [live]) (by omega)]
  obtain ⟨m, found', sbs⟩ := (members earlier).mp (List.mem_append_left _ member)
  by_contra stops
  simp only [found', Option.any_some, Bool.not_eq_false, beq_iff_eq] at stops
  have same := cached.inode earlier node m n found' live sbs stops
  subst same
  exact (List.nodup_append.mp distinct).2.2 earlier member earlier List.mem_cons_self rfl

/-- The search of `iget` finds nothing when no vnode of the inode number is cached. -/
theorem findCached_of_absent (cached : v.Cached) (found : v.superBlock.lookup sb = some block)
    (absent : ∀ node n, v.vnode.lookup node = some n → n.sb = sb → n.ino ≠ ino) :
    v.findCached block ino = 0 := by
  obtain ⟨nodes, chain, members⟩ := cached.chain sb block found
  refine seek_absent chain (fun node member => ?_) (walk_enough chain.nodup fun node member =>
    ((members node).mp member).imp fun _ h => h.1)
  obtain ⟨n, live, sbs⟩ := (members node).mp member
  simp [live, absent node n live sbs]

/-- `iget` of a cached inode returns its vnode with one more reference. -/
theorem iget_of_live (cached : v.Cached) (live : v.vnode.lookup node = some n)
    (calloc : Allocator Vnode) : v.iget width calloc n.sb n.ino = (v.hold width node, node) := by
  obtain ⟨block, found, _⟩ := cached.owner node n live
  simp [iget, found, findCached_of_live cached found live, cached.ne_zero live]

/-- `iget` of an inode that is not cached reads it into a fresh vnode. -/
theorem iget_of_absent (cached : v.Cached) (found : v.superBlock.lookup sb = some block)
    {operations : SuperOperations} {readInode : Nat → Attributes → Attributes}
    (sOp : block.sOp = some operations) (reads : operations.readInode = some readInode)
    (absent : ∀ node n, v.vnode.lookup node = some n → n.sb = sb → n.ino ≠ ino)
    (calloc : Allocator Vnode) :
    v.iget width calloc sb ino = v.createEmptyInode calloc sb block readInode ino := by
  simp [iget, found, findCached_of_absent cached found absent, sOp, reads]

/-- A fresh vnode in front of its cache keeps the caches. -/
theorem Cached.createEmptyInode (cached : v.Cached)
    (found : v.superBlock.lookup sb = some block) (operations : block.sOp.isSome)
    (absent : ∀ node n, v.vnode.lookup node = some n → n.sb = sb → n.ino ≠ ino)
    (calloc : Allocator Vnode) (readInode : Nat → Attributes → Attributes) :
    (v.createEmptyInode calloc sb block readInode ino).1.Cached := by
  have fresh := calloc.address_fresh v.vnode
  have nonnull := calloc.address_ne_zero v.vnode
  set res := calloc.address v.vnode with res_def
  have apart : ∀ {node n}, v.vnode.lookup node = some n → node ≠ res := by
    rintro node n live rfl
    simp [fresh] at live
  have links : (v.createEmptyInode calloc sb block readInode ino).1.cacheNext =
      Function.update v.cacheNext res block.cache := by
    funext node
    simp only [cacheNext, Vfs.createEmptyInode, Store.lookup_insert_eq, ← res_def]
    by_cases same : node = res
    · subst same
      simp
    · simp [same, cacheNext]
  refine ⟨fun node n live => ?_, fun s b found' => ?_, fun node other n m live live' sbs inos => ?_⟩
  · simp only [Vfs.createEmptyInode, Store.lookup_insert_eq, ← res_def] at live ⊢
    by_cases here : n.sb = sb
    · simp [here, operations]
    · split at live
      · obtain rfl := Option.some.inj live
        simp at here
      · simpa [here] using cached.owner node n live
  · rw [links]
    simp only [Vfs.createEmptyInode, Store.lookup_insert_eq, ← res_def] at found' ⊢
    by_cases here : s = sb
    · subst here
      simp only [if_true, Option.some.injEq] at found'
      subst found'
      obtain ⟨nodes, chain, members⟩ := cached.chain s block found
      have outside : res ∉ nodes := fun member => by
        obtain ⟨n, live, _⟩ := (members res).mp member
        exact apart live rfl
      refine ⟨res :: nodes, chain.push nonnull outside, fun node => ?_⟩
      by_cases same : node = res
      · simp [same]
      · simp [same, members]
    · simp only [here, if_false] at found'
      obtain ⟨nodes, chain, members⟩ := cached.chain s b found'
      have outside : ∀ node ∈ nodes, node ≠ res := fun node member => by
        obtain ⟨n, live, _⟩ := (members node).mp member
        exact apart live
      refine ⟨nodes, chain.congr fun node member =>
        Function.update_of_ne (outside node member) _ _, fun node => ?_⟩
      by_cases same : node = res
      · subst same
        constructor
        · exact fun member => absurd rfl (outside _ member)
        · rintro ⟨n, live, sbs⟩
          simp only [if_true, Option.some.injEq] at live
          subst live
          exact absurd sbs.symm here
      · simp [same, members]
  · simp only [Vfs.createEmptyInode, Store.lookup_insert_eq, ← res_def] at live live'
    split at live <;> split at live' <;> rename_i left right
    · rw [left, right]
    · obtain rfl := Option.some.inj live
      exact absurd inos.symm (absent other m live' sbs.symm)
    · obtain rfl := Option.some.inj live'
      exact absurd inos (absent node n live sbs)
    · exact cached.inode node other n m live live' sbs inos

/-- What the removal of one vnode has to establish for the caches to be kept. -/
theorem Cached.of_unlink {v' : Vfs} (cached : v.Cached) (head : Nat) (rest : List Nat)
    (live : v.vnode.lookup node = some n) (found : v.superBlock.lookup n.sb = some block)
    (blocks : ∀ sb, v'.superBlock.lookup sb =
      if sb = n.sb then some { block with cache := head } else v.superBlock.lookup sb)
    (nodes : ∀ other, (v'.vnode.lookup other).map (fun m => (m.ino, m.sb)) =
      if other = node then none else (v.vnode.lookup other).map fun m => (m.ino, m.sb))
    (links : ∀ other m, v.vnode.lookup other = some m → m.sb ≠ n.sb →
      v'.cacheNext other = v.cacheNext other)
    (chain : Chain v'.cacheNext head rest)
    (members : ∀ other, other ∈ rest ↔
      other ≠ node ∧ ∃ m, v.vnode.lookup other = some m ∧ m.sb = n.sb) : v'.Cached := by
  have back : ∀ other m', v'.vnode.lookup other = some m' → other ≠ node ∧
      ∃ m, v.vnode.lookup other = some m ∧ m.ino = m'.ino ∧ m.sb = m'.sb := by
    intro other m' live'
    have this := nodes other
    rw [live'] at this
    split at this
    · cases this
    · obtain ⟨m, live, key⟩ := Option.map_eq_some_iff.mp this.symm
      exact ⟨‹_›, m, live, congrArg (·.1) key, congrArg (·.2) key⟩
  have forth : ∀ other m, v.vnode.lookup other = some m → other ≠ node →
      ∃ m', v'.vnode.lookup other = some m' ∧ m'.sb = m.sb := by
    intro other m live apart
    have this := nodes other
    rw [live, if_neg apart] at this
    obtain ⟨m', live', key⟩ := Option.map_eq_some_iff.mp this
    exact ⟨m', live', congrArg (·.2) key⟩
  refine ⟨fun other m' live' => ?_, fun sb b found' => ?_, fun a b m k live live' sbs inos => ?_⟩
  · obtain ⟨_, m, live, _, sbs⟩ := back other m' live'
    obtain ⟨b, owner, operations⟩ := cached.owner other m live
    rw [blocks, ← sbs]
    split
    · rename_i same
      rw [same, found] at owner
      obtain rfl := Option.some.inj owner
      exact ⟨_, rfl, operations⟩
    · exact ⟨b, owner, operations⟩
  · rw [blocks] at found'
    split at found'
    · rename_i same
      obtain rfl := Option.some.inj found'
      refine ⟨rest, chain, fun other => (members other).trans ⟨?_, ?_⟩⟩
      · rintro ⟨apart, m, live, sbs⟩
        obtain ⟨m', live', sbs'⟩ := forth other m live apart
        exact ⟨m', live', by rw [sbs', sbs, same]⟩
      · rintro ⟨m', live', sbs'⟩
        obtain ⟨apart, m, live, _, sbs⟩ := back other m' live'
        exact ⟨apart, m, live, by rw [sbs, sbs', same]⟩
    · rename_i differ
      obtain ⟨others, chain', members'⟩ := cached.chain sb b found'
      refine ⟨others, chain'.congr fun other member => ?_, fun other => (members' other).trans ⟨?_, ?_⟩⟩
      · obtain ⟨m, live, sbs⟩ := (members' other).mp member
        exact links other m live (by rw [sbs]; exact differ)
      · rintro ⟨m, live', sbs⟩
        have apart : other ≠ node := by
          rintro rfl
          rw [live] at live'
          obtain rfl := Option.some.inj live'
          exact differ sbs.symm
        obtain ⟨m', live', sbs'⟩ := forth other m live' apart
        exact ⟨m', live', by rw [sbs', sbs]⟩
      · rintro ⟨m', live', sbs'⟩
        obtain ⟨_, m, live, _, sbs⟩ := back other m' live'
        exact ⟨m, live, by rw [sbs, sbs']⟩
  · obtain ⟨_, m', found', ino', sb'⟩ := back a m live
    obtain ⟨_, k', found'', ino'', sb''⟩ := back b k live'
    exact cached.inode a b m' k' found' found'' (by rw [sb', sb'', sbs])
      (by rw [ino', ino'', inos])

/-- Where the vnode to free stands in its cache, and what the search of `free_inode` finds. -/
theorem Cached.position (cached : v.Cached) (live : v.vnode.lookup node = some n)
    (found : v.superBlock.lookup n.sb = some block) :
    ∃ before after, Chain v.cacheNext block.cache (before ++ node :: after) ∧
      (∀ other, other ∈ before ++ node :: after ↔
        ∃ m, v.vnode.lookup other = some m ∧ m.sb = n.sb) ∧
      (seek v.cacheNext (· == node) v.walkSteps 0 block.cache).1 = before.getLastD 0 := by
  obtain ⟨nodes, chain, members⟩ := cached.chain n.sb block found
  obtain ⟨before, after, rfl⟩ := List.append_of_mem ((members node).mpr ⟨n, live, rfl⟩)
  refine ⟨before, after, chain, members, ?_⟩
  have distinct := chain.nodup
  have enough := walk_enough (v := v) distinct fun other member =>
    ((members other).mp member).imp fun _ h => h.1
  simp only [List.length_append, List.length_cons] at enough
  rw [seek_found chain (fun earlier member => ?_) (by simp) (by omega)]
  have apart := (List.nodup_append.mp distinct).2.2 earlier member node List.mem_cons_self
  simpa using apart

/-- The link `free_inode` reads is the one the vnode has in the cache. -/
theorem cacheNext_of_live (live : v.vnode.lookup node = some n) :
    v.cacheNext node = n.cacheNext := by simp [cacheNext, live]

/-- Unlinking a vnode from any position of its cache keeps the caches. -/
theorem Cached.freeInode (cached : v.Cached) (live : v.vnode.lookup node = some n)
    (found : v.superBlock.lookup n.sb = some block) : (v.freeInode node n block).Cached := by
  obtain ⟨before, after, chain, members, seeks⟩ := cached.position live found
  have distinct := chain.nodup
  have link := cacheNext_of_live live
  rcases List.eq_nil_or_concat before with rfl | ⟨init, prev, rfl⟩
  · -- the first vnode of the cache: the super block takes over its link
    have first : v.freeInode node n block =
        { v with
          superBlock := v.superBlock.insert n.sb { block with cache := n.cacheNext }
          vnode := v.vnode.erase node } := by
      simp [Vfs.freeInode, seeks]
    have outside : node ∉ after := (List.nodup_cons.mp distinct).1
    rw [first]
    have links : ∀ other, other ≠ node → (({ v with
        superBlock := v.superBlock.insert n.sb { block with cache := n.cacheNext }
        vnode := v.vnode.erase node } : Vfs).cacheNext other) = v.cacheNext other := by
      intro other apart
      simp [cacheNext, apart]
    refine cached.of_unlink n.cacheNext after live found
      (fun sb => Store.lookup_insert_eq _ _ _ _) (fun other => ?_) (fun other m live' differ => ?_)
      ?_ (fun other => ?_)
    · rw [Store.lookup_erase_eq]
      split <;> rfl
    · refine links other ?_
      rintro rfl
      rw [live] at live'
      exact differ (by rw [← Option.some.inj live'])
    · have tail : Chain v.cacheNext n.cacheNext after := link ▸ chain.unlink_first
      refine tail.congr fun other member => links other ?_
      rintro rfl
      exact outside member
    · rw [← members other]
      simp only [List.nil_append, List.mem_cons]
      constructor
      · exact fun member => ⟨fun same => outside (same ▸ member), .inr member⟩
      · rintro ⟨apart, same | member⟩
        · exact absurd same apart
        · exact member
  · -- a later vnode: its predecessor takes over its link
    have prev_live : ∃ p, v.vnode.lookup prev = some p ∧ p.sb = n.sb :=
      (members prev).mp (by simp)
    obtain ⟨p, prev_found, prev_sb⟩ := prev_live
    have prev_nonnull : prev ≠ 0 := cached.ne_zero prev_found
    have later : v.freeInode node n block =
        { v with vnode :=
          (v.vnode.modify prev fun q => { q with cacheNext := n.cacheNext }).erase node } := by
      simp [Vfs.freeInode, seeks, prev_nonnull]
    have outside : node ∉ init ++ prev :: after := by
      simp only [List.concat_eq_append, List.append_assoc, List.singleton_append] at distinct
      have := List.nodup_middle.mp (by simpa using distinct : (((init ++ [prev]) ++ node :: after)).Nodup)
      simpa using (List.nodup_cons.mp this).1
    have prev_apart : prev ≠ node := fun same => outside (by simp [same])
    rw [later]
    have links : ∀ other, other ≠ node → (({ v with vnode :=
        (v.vnode.modify prev fun q => { q with cacheNext := n.cacheNext }).erase node } :
          Vfs).cacheNext other) = Function.update v.cacheNext prev (v.cacheNext node) other := by
      intro other apart
      simp only [cacheNext, Store.lookup_erase_eq, apart, if_false, Store.lookup_modify]
      by_cases same : other = prev
      · subst same
        simp [prev_found, live]
      · simp [same, cacheNext]
    simp only [List.concat_eq_append, List.append_assoc, List.singleton_append] at chain members
    refine cached.of_unlink block.cache (init ++ prev :: after) live found (fun sb => ?_) (fun other => ?_) (fun other m live' differ => ?_) ?_ (fun other => ?_)
    · split
      · rename_i same
        rw [same, found]
      · rfl
    · rw [Store.lookup_erase_eq, Store.lookup_modify]
      by_cases here : other = node
      · simp [here]
      · by_cases same : other = prev
        · subst same
          simp [here, prev_found]
        · simp [here, same]
    · have apart : other ≠ node := by
        rintro rfl
        rw [live] at live'
        exact differ (by rw [← Option.some.inj live'])
      rw [links other apart, Function.update_of_ne]
      rintro rfl
      rw [prev_found] at live'
      exact differ (by rw [← Option.some.inj live', prev_sb])
    · refine chain.unlink_after.congr fun other member => links other ?_
      rintro rfl
      exact outside member
    · rw [← members other]
      simp only [List.mem_append, List.mem_cons]
      constructor
      · intro member
        refine ⟨fun same => outside (same ▸ by simpa using member), ?_⟩
        tauto
      · rintro ⟨apart, member | member | member | member⟩ <;> tauto

/-- Giving back one of several references only lowers the counter. -/
theorem iput_of_shared (cached : v.Cached) (live : v.vnode.lookup node = some n)
    (shared : 1 < n.count) :
    v.iput node = { v with vnode := v.vnode.insert node { n with count := n.count - 1 } } := by
  obtain ⟨block, found, operations⟩ := cached.owner node n live
  have present : block.sOp.isNone = false := by
    rw [Option.isNone_eq_false_iff]
    exact operations
  have nonzero : n.count ≠ 0 := by omega
  have remains : n.count - 1 ≠ 0 := by omega
  simp [iput, live, found, present, nonzero, remains]

/-- Giving back the last reference frees the vnode. -/
theorem iput_of_last (cached : v.Cached) (live : v.vnode.lookup node = some n)
    (last : n.count = 1) (found : v.superBlock.lookup n.sb = some block) :
    v.iput node = ({ v with vnode := v.vnode.insert node { n with count := 0 } } : Vfs).freeInode
      node { n with count := 0 } block := by
  obtain ⟨block', found', operations⟩ := cached.owner node n live
  obtain rfl := Option.some.inj (found.symm.trans found')
  have present : block.sOp.isNone = false := by
    rw [Option.isNone_eq_false_iff]
    exact operations
  simp [iput, live, found, present, last]

/-- A vnode whose counter reads zero is left alone by `iput`. -/
theorem iput_of_zero (live : v.vnode.lookup node = some n) (zero : n.count = 0) :
    v.iput node = v := by
  cases found : v.superBlock.lookup n.sb with
  | none => simp [iput, live, found]
  | some block => simp [iput, live, found, zero]

/-- Nothing happens to a null or freed pointer. -/
theorem iput_of_absent (absent : v.vnode.lookup node = none) : v.iput node = v := by
  simp [iput, absent]

/-- Changing the counter of a vnode changes no list. -/
theorem Cached.setCount (cached : v.Cached) (live : v.vnode.lookup node = some n) (count : Nat) :
    ({ v with vnode := v.vnode.insert node { n with count } } : Vfs).Cached := by
  refine cached.congr rfl fun other => ?_
  simp only [Store.lookup_insert_eq]
  split
  · rename_i same
    subst same
    simp [live]
  · rfl

/-- `iput` keeps the caches. -/
theorem Cached.iput (cached : v.Cached) (node : Nat) : (v.iput node).Cached := by
  cases live : v.vnode.lookup node with
  | none => rwa [iput_of_absent live]
  | some n =>
    obtain ⟨block, found, _⟩ := cached.owner node n live
    rcases Nat.lt_trichotomy n.count 1 with zero | last | shared
    · rwa [iput_of_zero live (by omega)]
    · rw [iput_of_last cached live last found]
      exact (cached.setCount live 0).freeInode (n := { n with count := 0 })
        (by simp [AList.lookup_insert]) found
    · rw [iput_of_shared cached live shared]
      exact cached.setCount live _

/-- Freeing a vnode removes it and changes the others in their links only. -/
theorem freeInode_lookup (v : Vfs) (node : Nat) (n : Vnode) (block : SuperBlock) (other : Nat) :
    ((v.freeInode node n block).vnode.lookup other).map Vnode.content =
      if other = node then none else (v.vnode.lookup other).map Vnode.content := by
  unfold freeInode
  dsimp only
  split
  · rw [Store.lookup_erase_eq]
    split <;> rfl
  · rw [Store.lookup_erase_eq]
    split
    · rfl
    · rw [Store.lookup_modify]
      split
      · rename_i same
        rw [same, Option.map_map]
        rfl
      · rfl

/-- What `iput` leaves of each vnode, links apart. -/
theorem iput_lookup (cached : v.Cached) (live : v.vnode.lookup node = some n)
    (counted : n.count ≠ 0) (other : Nat) :
    ((v.iput node).vnode.lookup other).map Vnode.content =
      if other = node then
        if n.count = 1 then none else some { n.content with count := n.count - 1 }
      else (v.vnode.lookup other).map Vnode.content := by
  obtain ⟨block, found, _⟩ := cached.owner node n live
  by_cases last : n.count = 1
  · rw [iput_of_last cached live last found, freeInode_lookup]
    by_cases same : other = node
    · simp [same, last]
    · simp [same]
  · rw [iput_of_shared cached live (by omega)]
    simp only [Store.lookup_insert_eq, last, if_false]
    by_cases same : other = node
    · simp [same, Vnode.content]
    · simp [same]

/-! ## References as exact integers -/

/-- The references held on a vnode, none if it is gone. -/
def references (v : Vfs) (node : Nat) : Nat := ((v.vnode.lookup node).map (·.count)).getD 0

/-- A vnode with a reference is live. -/
theorem live_of_references (held : 0 < v.references node) :
    ∃ n, v.vnode.lookup node = some n ∧ n.count = v.references node := by
  cases found : v.vnode.lookup node with
  | none => simp [references, found] at held
  | some n => exact ⟨n, rfl, by simp [references, found]⟩

/-- Taking a reference. -/
theorem hold_references (live : v.vnode.lookup node = some n) (other : Nat) :
    (v.hold exactWidth node).references other =
      v.references other + if other = node then 1 else 0 := by
  simp only [references, Vfs.hold, Store.lookup_modify]
  by_cases same : other = node
  · subst same
    simp [live, exactWidth]
  · simp [same]

/-- Giving a reference back. -/
theorem iput_references (cached : v.Cached) (held : 0 < v.references node) (other : Nat) :
    (v.iput node).references other + (if other = node then 1 else 0) = v.references other := by
  obtain ⟨n, live, count⟩ := live_of_references held
  have left := iput_lookup cached live (by omega) other
  have counts (o : Option Vnode) :
      (o.map (·.count)).getD 0 = ((o.map Vnode.content).map (·.count)).getD 0 := by
    cases o <;> rfl
  rw [references, counts, left, references]
  by_cases same : other = node
  · subst same
    rw [if_pos rfl, if_pos rfl, live]
    rw [references, live, Option.map_some, Option.getD_some] at held
    split
    · rename_i last
      simp [last]
    · simp only [Option.map_some, Option.getD_some]
      omega
  · rw [if_neg same, if_neg same, ← counts, Nat.add_zero]

end Vfs

/-! ## Runs of `iget` and `iput`

`held` is the history of a run: how many references to each vnode were handed out by `iget`
and not given back yet. -/

/-- A state of the cache with the outstanding references of the callers. -/
structure CacheRun where
  vfs : Vfs
  held : Nat → Nat

/-- A call on the cache. -/
inductive CacheCall where
  | iget (sb ino : Nat)
  | iput (node : Nat)

/-- `iget` hands its caller one more reference to the vnode it returns. -/
def CacheRun.iget (calloc : Allocator Vnode) (run : CacheRun) (sb ino : Nat) : CacheRun :=
  let (vfs, node) := run.vfs.iget ucharWidth calloc sb ino
  ⟨vfs, Function.update run.held node (run.held node + 1)⟩

/-- `iput` takes one reference back from its caller. -/
def CacheRun.iput (run : CacheRun) (node : Nat) : CacheRun :=
  ⟨run.vfs.iput node, Function.update run.held node (run.held node - 1)⟩

/-- One call: `iget` on a super block with `read_inode`, or `iput` of a reference that is
outstanding. The block that `calloc` hands out is any that is free. -/
inductive CacheStep : CacheRun → CacheCall → CacheRun → Prop
  | iget {run : CacheRun} {sb ino : Nat} {block : SuperBlock} {operations : SuperOperations}
      (calloc : Allocator Vnode) (found : run.vfs.superBlock.lookup sb = some block)
      (sOp : block.sOp = some operations) (reads : operations.readInode.isSome) :
      CacheStep run (.iget sb ino) (run.iget calloc sb ino)
  | iput {run : CacheRun} {node : Nat} (outstanding : 0 < run.held node) :
      CacheStep run (.iput node) (run.iput node)

/-- Runs on super blocks whose caches are empty at first. -/
def cacheSystem : TransitionSystem CacheRun CacheCall where
  initial run := run.vfs.vnode = ∅ ∧
    (∀ sb block, run.vfs.superBlock.lookup sb = some block → block.cache = 0) ∧ ∀ node, run.held node = 0
  step := CacheStep

/-- `iget` does not hand out a 256th reference to one vnode. -/
def CacheRun.BelowLimit (run : CacheRun) : CacheCall → Prop
  | .iget sb ino => ∀ node n, run.vfs.vnode.lookup node = some n → n.sb = sb → n.ino = ino →
      run.held node < 255
  | .iput _ => True

/-- The vnode is in the list of the super block. -/
def CacheRun.InCache (run : CacheRun) (sb node : Nat) : Prop :=
  ∃ block nodes, run.vfs.superBlock.lookup sb = some block ∧
    Chain run.vfs.cacheNext block.cache nodes ∧ node ∈ nodes

/-- A call frees a vnode: it is live before and not after. -/
def Freed (before after : CacheRun) (node : Nat) : Prop :=
  (∃ n, before.vfs.vnode.lookup node = some n) ∧ after.vfs.vnode.lookup node = none

/-- The invariant: the caches are in order and the counters are the outstanding references. -/
structure CacheRun.Counted (run : CacheRun) : Prop where
  cached : run.vfs.Cached
  /-- A live vnode has as many references as its counter says, and at least one. -/
  counter : ∀ node n, run.vfs.vnode.lookup node = some n →
    n.count = run.held node ∧ 0 < run.held node ∧ run.held node ≤ 255
  /-- A vnode with an outstanding reference is live. -/
  live : ∀ node, 0 < run.held node → ∃ n, run.vfs.vnode.lookup node = some n

/-- `iget` below the limit keeps the counters. -/
theorem CacheRun.Counted.iget {run : CacheRun} (counted : run.Counted) {sb ino : Nat}
    {block : SuperBlock} {operations : SuperOperations} (calloc : Allocator Vnode)
    (found : run.vfs.superBlock.lookup sb = some block) (sOp : block.sOp = some operations)
    (reads : operations.readInode.isSome) (below : run.BelowLimit (.iget sb ino)) :
    (run.iget calloc sb ino).Counted := by
  obtain ⟨readInode, reads⟩ := Option.isSome_iff_exists.mp reads
  by_cases present : ∃ node n, run.vfs.vnode.lookup node = some n ∧ n.sb = sb ∧ n.ino = ino
  · obtain ⟨node, n, live, rfl, rfl⟩ := present
    have room := below node n live rfl rfl
    rw [CacheRun.iget, Vfs.iget_of_live counted.cached live calloc]
    refine ⟨counted.cached.hold _ _, fun other m live' => ?_, fun other outstanding => ?_⟩
    · simp only [Vfs.hold, Store.lookup_modify] at live'
      by_cases same : other = node
      · subst same
        obtain ⟨exact, positive, _⟩ := counted.counter other n live
        simp only [if_true, live, Option.map_some, Option.some.injEq] at live'
        subst live'
        simp only [Function.update_self, ucharWidth]
        omega
      · simp only [same, if_false] at live'
        simpa [same] using counted.counter other m live'
    · simp only [Vfs.hold, Store.lookup_modify]
      by_cases same : other = node
      · simp [same, live]
      · simp only [same, if_false]
        exact counted.live other (by simpa [same] using outstanding)
  · have absent : ∀ node n, run.vfs.vnode.lookup node = some n → n.sb = sb → n.ino ≠ ino :=
      fun node n live sbs inos => present ⟨node, n, live, sbs, inos⟩
    have fresh := calloc.address_fresh run.vfs.vnode
    have unheld : run.held (calloc.address run.vfs.vnode) = 0 := by
      by_contra outstanding
      obtain ⟨n, live⟩ := counted.live _ (Nat.pos_of_ne_zero outstanding)
      simp [fresh] at live
    rw [CacheRun.iget, Vfs.iget_of_absent counted.cached found sOp reads absent calloc]
    refine ⟨counted.cached.createEmptyInode found (by simp [sOp]) absent calloc readInode,
      fun other m live' => ?_, fun other outstanding => ?_⟩
    · simp only [Vfs.createEmptyInode, Store.lookup_insert_eq] at live' ⊢
      by_cases same : other = calloc.address run.vfs.vnode
      · simp only [same, if_true, Option.some.injEq] at live'
        subst live'
        simp [same, unheld]
      · simp only [same, if_false] at live'
        simpa [same] using counted.counter other m live'
    · simp only [Vfs.createEmptyInode, Store.lookup_insert_eq] at outstanding ⊢
      by_cases same : other = calloc.address run.vfs.vnode
      · simp [same]
      · simp only [same, if_false]
        exact counted.live other (by simpa [same] using outstanding)

/-- What `iput` of an outstanding reference leaves: one reference less, and no vnode when it
was the last one. -/
theorem CacheRun.Counted.iput_lookup {run : CacheRun} (counted : run.Counted) {node : Nat}
    (outstanding : 0 < run.held node) (other : Nat) :
    ((run.vfs.iput node).vnode.lookup other).map Vnode.content =
      if other = node ∧ run.held node = 1 then none
      else (run.vfs.vnode.lookup other).map fun n =>
        if other = node then { n.content with count := run.held node - 1 } else n.content := by
  obtain ⟨n, live⟩ := counted.live node outstanding
  obtain ⟨exact, _, _⟩ := counted.counter node n live
  rw [Vfs.iput_lookup counted.cached live (by omega), exact]
  by_cases same : other = node
  · subst same
    by_cases last : run.held other = 1
    · simp [last]
    · simp [last, live]
  · simp [same]

/-- `iput` of an outstanding reference keeps the counters. -/
theorem CacheRun.Counted.iput {run : CacheRun} (counted : run.Counted) {node : Nat}
    (outstanding : 0 < run.held node) : (run.iput node).Counted := by
  have left := counted.iput_lookup outstanding
  refine ⟨counted.cached.iput node, fun other m live' => ?_, fun other outstanding' => ?_⟩
  · have this := left other
    simp only [CacheRun.iput] at live' ⊢
    rw [live'] at this
    simp only [Option.map_some] at this
    split at this
    · cases this
    · obtain ⟨n, live, same⟩ := Option.map_eq_some_iff.mp this.symm
      obtain ⟨exact, positive, bound⟩ := counted.counter other n live
      have counts := congrArg Vnode.count same
      by_cases here : other = node
      · subst here
        simp only [if_true, Vnode.content] at counts
        simp only [Function.update_self]
        omega
      · simp only [here, if_false, Vnode.content] at counts
        simp only [Function.update_of_ne here]
        omega
  · have this := left other
    simp only [CacheRun.iput] at outstanding' ⊢
    by_cases here : other = node
    · subst here
      simp only [Function.update_self] at outstanding'
      obtain ⟨n, live⟩ := counted.live other outstanding
      rw [if_neg (by omega), live] at this
      obtain ⟨m, live', _⟩ := Option.map_eq_some_iff.mp this
      exact ⟨m, live'⟩
    · simp only [Function.update_of_ne here] at outstanding'
      obtain ⟨n, live⟩ := counted.live other outstanding'
      rw [if_neg (by simp [here]), live] at this
      obtain ⟨m, live', _⟩ := Option.map_eq_some_iff.mp this
      exact ⟨m, live'⟩

/-- The counters are exact in every state reached without a 256th reference. -/
theorem cacheSystem_counted {run : CacheRun}
    (reached : cacheSystem.ReachableUnder CacheRun.BelowLimit run) : run.Counted := by
  refine reached.invariant (fun first start => ?_) fun run call next counted below step => ?_
  · obtain ⟨empty, caches, unheld⟩ := start
    have none (node : Nat) : first.vfs.vnode.lookup node = none := by simp [empty]
    refine ⟨Vfs.cached_of_empty none caches, fun node n live => ?_, fun node outstanding => ?_⟩
    · simp [empty] at live
    · simp [unheld] at outstanding
  · cases step with
    | iget calloc found sOp reads => exact counted.iget calloc found sOp reads below
    | iput outstanding => exact counted.iput outstanding

/-- A vnode is in its cache exactly while it is live. -/
theorem CacheRun.Counted.inCache_iff {run : CacheRun} (counted : run.Counted) {sb node : Nat} :
    run.InCache sb node ↔ ∃ n, run.vfs.vnode.lookup node = some n ∧ n.sb = sb :=
  counted.cached.mem_iff

/-- A call frees a vnode exactly when it gives back its last outstanding reference. -/
theorem CacheRun.Counted.freed_iff {run next : CacheRun} (counted : run.Counted)
    {call : CacheCall} (step : CacheStep run call next) (node : Nat) :
    Freed run next node ↔ call = .iput node ∧ run.held node = 1 := by
  cases step with
  | @iget sb ino block operations calloc found sOp reads =>
    obtain ⟨readInode, reads⟩ := Option.isSome_iff_exists.mp reads
    suffices kept : ∀ n, run.vfs.vnode.lookup node = some n →
        (run.iget calloc sb ino).vfs.vnode.lookup node ≠ none by
      constructor
      · rintro ⟨⟨n, live⟩, gone⟩
        exact absurd gone (kept n live)
      · simp
    intro n live
    by_cases present : ∃ node n, run.vfs.vnode.lookup node = some n ∧ n.sb = sb ∧ n.ino = ino
    · obtain ⟨other, m, live', rfl, rfl⟩ := present
      rw [CacheRun.iget, Vfs.iget_of_live counted.cached live' calloc]
      simp only [Vfs.hold, Store.lookup_modify]
      split
      · simp [live']
      · simp [live]
    · rw [CacheRun.iget, Vfs.iget_of_absent counted.cached found sOp reads
        (fun node n live sbs inos => present ⟨node, n, live, sbs, inos⟩)]
      simp only [Vfs.createEmptyInode, Store.lookup_insert_eq]
      split <;> simp [live]
  | @iput given outstanding =>
    have left := counted.iput_lookup outstanding node
    constructor
    · rintro ⟨⟨n, live⟩, gone⟩
      simp only [CacheRun.iput] at gone
      rw [gone, live] at left
      simp only [Option.map_none, Option.map_some] at left
      split at left
      · rename_i last
        obtain ⟨rfl, last⟩ := last
        exact ⟨rfl, last⟩
      · cases left
    · rintro ⟨same, last⟩
      obtain rfl := CacheCall.iput.inj same
      rw [if_pos ⟨rfl, last⟩, Option.map_eq_none_iff] at left
      exact ⟨counted.live given outstanding, left⟩

/-- Reference counting of the vnode cache, in every state reached by calls of which none
hands out a 256th reference to one vnode: a cache holds at most one vnode of an inode
number; a vnode is in a cache exactly while it has an outstanding reference; `iget` of its
inode number returns that vnode; and a next call frees it exactly when it is the `iput` that
gives back the last outstanding reference. -/
theorem vnode_references_exact {run : CacheRun}
    (reached : cacheSystem.ReachableUnder CacheRun.BelowLimit run) :
    (∀ sb node other n m, run.InCache sb node → run.InCache sb other →
      run.vfs.vnode.lookup node = some n → run.vfs.vnode.lookup other = some m →
      n.ino = m.ino → node = other) ∧
    (∀ node, (∃ sb, run.InCache sb node) ↔ 0 < run.held node) ∧
    (∀ sb node n calloc, run.InCache sb node → run.vfs.vnode.lookup node = some n →
      (run.vfs.iget ucharWidth calloc sb n.ino).2 = node) ∧
    (∀ call next, CacheStep run call next → ∀ node,
      Freed run next node ↔ call = .iput node ∧ run.held node = 1) := by
  have counted := cacheSystem_counted reached
  refine ⟨fun sb node other n m inside inside' live live' inos => ?_, fun node => ⟨?_, ?_⟩,
    fun sb node n calloc inside live => ?_, fun call next step node => counted.freed_iff step node⟩
  · obtain ⟨n', found, sbs⟩ := counted.inCache_iff.mp inside
    obtain ⟨m', found', sbs'⟩ := counted.inCache_iff.mp inside'
    obtain rfl := Option.some.inj (live.symm.trans found)
    obtain rfl := Option.some.inj (live'.symm.trans found')
    exact counted.cached.inode node other n m live live' (by rw [sbs, sbs']) inos
  · rintro ⟨sb, inside⟩
    obtain ⟨n, live, _⟩ := counted.inCache_iff.mp inside
    exact (counted.counter node n live).2.1
  · intro outstanding
    obtain ⟨n, live⟩ := counted.live node outstanding
    exact ⟨n.sb, counted.inCache_iff.mpr ⟨n, live, rfl⟩⟩
  · obtain ⟨n', found, rfl⟩ := counted.inCache_iff.mp inside
    obtain rfl := Option.some.inj (live.symm.trans found)
    rw [Vfs.iget_of_live counted.cached live calloc]

/-! The counter wraps at the 256th reference: after 257 calls of `iget` for one inode it
reads 1, and the first `iput` frees the vnode. -/

namespace WrappedCounter

/-- The operations of a file system whose `read_inode` fills nothing in. -/
def operations : SuperOperations := ⟨some fun _ attributes => attributes⟩

/-- One super block with an empty cache. -/
def fresh : CacheRun where
  vfs := { superBlock := AList.insert 7 { sOp := some operations } ∅ }
  held _ := 0

/-- The state after so many calls of `iget` for inode 0. -/
def referenced (count : Nat) : CacheRun where
  vfs := {
    vnode := AList.insert 1 { ino := 0, count := count % 256, sb := 7 } ∅
    superBlock := AList.insert 7 { sOp := some operations, cache := 1 } ∅ }
  held := Function.update (fun _ => 0) 1 count

/-- Its cache is empty. -/
theorem fresh_initial : cacheSystem.initial fresh := by
  refine ⟨rfl, fun sb block found => ?_, fun _ => rfl⟩
  simp only [fresh, Store.lookup_insert_eq] at found
  split at found
  · rw [← Option.some.inj found]
  · simp at found

/-- The first call reads the vnode in. -/
theorem first_iget : fresh.iget (Allocator.above Vnode) 7 0 = referenced 1 := rfl

/-- Every further call only raises the counter, which wraps. -/
theorem later_iget (count : Nat) :
    (referenced count).iget (Allocator.above Vnode) 7 0 = referenced (count + 1) := by
  have live : (referenced count).vfs.vnode.lookup 1 =
      some { ino := 0, count := count % 256, sb := 7 } := AList.lookup_insert _
  have found : (referenced count).vfs.iget ucharWidth (Allocator.above Vnode) 7 0 =
      ((referenced count).vfs.hold ucharWidth 1, 1) := rfl
  rw [CacheRun.iget, found]
  simp only [Vfs.hold, Store.modify_of_lookup live]
  simp [referenced, ucharWidth, Nat.add_mod]

/-- Any number of calls can be made. -/
theorem referenced_reachable (count : Nat) : cacheSystem.Reachable (referenced (count + 1)) := by
  have step : ∀ run : CacheRun, ∀ block, run.vfs.superBlock.lookup 7 = some block →
      block.sOp = some operations →
      CacheStep run (.iget 7 0) (run.iget (Allocator.above Vnode) 7 0) :=
    fun run block found sOp => .iget _ found sOp rfl
  induction count with
  | zero =>
    have first := step fresh _ rfl rfl
    rw [first_iget] at first
    exact (TransitionSystem.ReachableUnder.start fresh_initial).next trivial first
  | succ count ih =>
    have next := step (referenced (count + 1)) _ rfl rfl
    rw [later_iget] at next
    exact ih.next trivial next

/-- So many calls stay below the limit. -/
theorem referenced_reached {count : Nat} (few : count < 255) :
    cacheSystem.ReachableUnder CacheRun.BelowLimit (referenced (count + 1)) := by
  induction count with
  | zero =>
    have below : fresh.BelowLimit (.iget 7 0) := fun node n live => by simp [fresh] at live
    have step : CacheStep fresh (.iget 7 0) (fresh.iget (Allocator.above Vnode) 7 0) :=
      .iget _ (AList.lookup_insert _) rfl rfl
    rw [first_iget] at step
    exact (TransitionSystem.ReachableUnder.start fresh_initial).next below step
  | succ count ih =>
    have below : (referenced (count + 1)).BelowLimit (.iget 7 0) := by
      intro node n _ _ _
      show Function.update (fun _ => 0) 1 (count + 1) node < 255
      by_cases here : node = 1
      · rw [here, Function.update_self]
        exact few
      · rw [Function.update_of_ne here]
        decide
    have step : CacheStep (referenced (count + 1)) (.iget 7 0)
        ((referenced (count + 1)).iget (Allocator.above Vnode) 7 0) :=
      .iget _ (AList.lookup_insert _) rfl rfl
    rw [later_iget] at step
    exact (ih (Nat.lt_of_succ_lt few)).next below step

end WrappedCounter

/-- After 255 calls of `iget` the vnode is in the cache, and the next `iput` does not free it. -/
theorem vnode_references_exact_limit :
    ((∃ sb, (WrappedCounter.referenced 255).InCache sb 1) ↔
      0 < (WrappedCounter.referenced 255).held 1) ∧
    ¬Freed (WrappedCounter.referenced 255) ((WrappedCounter.referenced 255).iput 1) 1 := by
  have reached : cacheSystem.ReachableUnder CacheRun.BelowLimit (WrappedCounter.referenced 255) :=
    WrappedCounter.referenced_reached (by decide)
  have step : CacheStep (WrappedCounter.referenced 255) (.iput 1)
      ((WrappedCounter.referenced 255).iput 1) := .iput (by decide)
  obtain ⟨_, cached, _, freed⟩ := vnode_references_exact reached
  refine ⟨cached 1, fun gone => ?_⟩
  have last := ((freed _ _ step 1).mp gone).2
  exact absurd last (by decide)

/-- Without the limit the counting fails: a vnode with 256 outstanding references is freed. -/
theorem vnode_references_wrap :
    ¬ ∀ run, cacheSystem.Reachable run → ∀ node, (∃ sb, run.InCache sb node) ↔ 0 < run.held node := by
  intro exact
  have outstanding : 0 < (WrappedCounter.referenced 257).held 1 := by decide
  have reached : cacheSystem.Reachable ((WrappedCounter.referenced 257).iput 1) :=
    (WrappedCounter.referenced_reachable 256).next trivial (CacheStep.iput outstanding)
  obtain ⟨sb, block, nodes, found, chain, member⟩ := (exact _ reached 1).mpr (by decide)
  have empty : ∀ block, ((WrappedCounter.referenced 257).iput 1).vfs.superBlock.lookup sb =
      some block → block.cache = 0 := by
    intro block found
    have blocks : ((WrappedCounter.referenced 257).iput 1).vfs.superBlock =
        AList.insert 7 { sOp := some WrappedCounter.operations, cache := 0 } ∅ := rfl
    rw [blocks, Store.lookup_insert_eq] at found
    split at found
    · rw [← Option.some.inj found]
    · simp at found
  rw [empty block found] at chain
  have ended : Chain ((WrappedCounter.referenced 257).iput 1).vfs.cacheNext 0 [] := rfl
  have none : nodes = [] := chain.unique ended
  rw [none] at member
  cases member

end Nupkux
