import Nupkux.Fs.Mount
import Nupkux.Fs.VnodeCache

/-!
# References taken on the way

Path resolution takes references and gives some of them back, and reads vnodes into the cache.
`Extends` relates the vnodes before and during that: a list tells which references have been
taken, once for each, and no vnode is freed as long as one is given back only where another is
left. The counters are exact while they have room for the list.
-/

namespace Nupkux

namespace Vfs

variable {v v' : Vfs} {width node k : Nat} {extra : List Nat} {n n' : Vnode}

/-- The attributes that `read_inode` of a super block gives an inode. -/
def inode (v : Vfs) (sb ino : Nat) : Attributes :=
  match v.superBlock.lookup sb with
  | none => {}
  | some block => ((block.sOp.bind (·.readInode)).map fun readInode => readInode ino {}).getD {}

/-- The counters have room for so many more references. -/
structure Room (width : Nat) (v : Vfs) (k : Nat) : Prop where
  limit : width = 0 ∨ k < width
  counters : ∀ node n, v.vnode.lookup node = some n → width = 0 ∨ n.count + k < width

/-- The vnodes after some references have been taken: those from before, with so many more
references, and new ones. -/
structure Extends (v v' : Vfs) (extra : List Nat) : Prop where
  cached : v'.Cached
  inode : v'.inode = v.inode
  kept : ∀ node n, v.vnode.lookup node = some n → ∃ n', v'.vnode.lookup node = some n' ∧
    n'.content = { n.content with count := n.count + extra.count node }
  fresh : ∀ node n', v'.vnode.lookup node = some n' → v.vnode.lookup node = none →
    n'.mount = 0 ∧ n'.cover = 0 ∧ n'.attributes = v.inode n'.sb n'.ino ∧
      n'.count = extra.count node ∧ node ∈ extra
  taken : ∀ node ∈ extra, ∃ n', v'.vnode.lookup node = some n'

/-- No reference has been taken. -/
theorem Extends.refl (cached : v.Cached) : Extends v v [] := by
  refine ⟨cached, rfl, fun node n live => ⟨n, live, rfl⟩, fun node n' live dead => ?_,
    fun node taken => absurd taken List.not_mem_nil⟩
  rw [live] at dead
  cases dead

/-- What is read does not depend on the caches. -/
theorem inode_congr (same : ∀ sb, (v'.superBlock.lookup sb).map (·.sOp) =
    (v.superBlock.lookup sb).map (·.sOp)) : v'.inode = v.inode := by
  have reads (w : Vfs) (sb ino : Nat) : w.inode sb ino =
      (((((w.superBlock.lookup sb).map (·.sOp)).getD none).bind (·.readInode)).map
        fun readInode => readInode ino {}).getD {} := by
    unfold inode
    cases w.superBlock.lookup sb <;> rfl
  funext sb ino
  rw [reads, reads, same]

/-- The counter of a vnode has room for one more reference. -/
theorem Extends.room (ext : Extends v v' extra) (room : Room width v k) (short : extra.length < k)
    (live : v'.vnode.lookup node = some n') : (n'.count + 1) % width = n'.count + 1 := by
  have few : extra.count node ≤ extra.length := List.count_le_length
  have below : width = 0 ∨ n'.count + 1 < width := by
    cases before : v.vnode.lookup node with
    | none =>
      have count := (ext.fresh node n' live before).2.2.2.1
      have limit := room.limit
      omega
    | some n =>
      obtain ⟨n'', live'', same⟩ := ext.kept node n before
      obtain rfl := Option.some.inj (live.symm.trans live'')
      have count : n'.count = n.count + extra.count node := congrArg Vnode.count same
      have limit := room.counters node n before
      omega
  rcases below with exact | below
  · rw [exact, Nat.mod_zero]
  · exact Nat.mod_eq_of_lt below

/-- One more reference on a vnode that is there. -/
theorem Extends.hold (ext : Extends v v' extra) (room : Room width v k) (short : extra.length < k)
    (live : v'.vnode.lookup node = some n') :
    Extends v (v'.hold width node) (node :: extra) := by
  have exact := ext.room room short live
  have looks (other : Nat) : (v'.hold width node).vnode.lookup other =
      if other = node then some { n' with count := n'.count + 1 }
      else v'.vnode.lookup other := by
    rw [Vfs.hold, Store.lookup_modify]
    split
    · rw [live, Option.map_some, exact]
    · rfl
  refine ⟨ext.cached.hold width node, ext.inode, fun other n before => ?_,
    fun other m there before => ?_, fun other taken => ?_⟩
  · obtain ⟨m, there, same⟩ := ext.kept other n before
    rw [looks]
    by_cases here : other = node
    · rw [if_pos here]
      refine ⟨_, rfl, ?_⟩
      obtain rfl := Option.some.inj (live.symm.trans (here ▸ there))
      rw [here, List.count_cons_self, ← Nat.add_assoc]
      have count : n'.count = n.count + extra.count node := by
        have counts := congrArg Vnode.count same
        rw [here] at counts
        exact counts
      have content := congrArg (fun w : Vnode => { w with count := n'.count + 1 }) same
      rw [count] at content ⊢
      exact content
    · rw [if_neg here, List.count_cons_of_ne (Ne.symm here)]
      exact ⟨m, there, same⟩
  · rw [looks] at there
    split at there
    · rename_i here
      cases there
      obtain ⟨mount, cover, attributes, count, _⟩ := ext.fresh node n' live (here ▸ before)
      refine ⟨mount, cover, attributes, ?_, ?_⟩
      · rw [here, List.count_cons_self, ← count]
      · rw [here]
        exact List.mem_cons_self
    · rename_i here
      obtain ⟨mount, cover, attributes, count, taken⟩ := ext.fresh other m there before
      refine ⟨mount, cover, attributes, ?_, List.mem_cons_of_mem _ taken⟩
      rw [List.count_cons_of_ne (Ne.symm here), count]
  · rw [looks]
    split
    · exact ⟨_, rfl⟩
    · rename_i here
      exact ext.taken other ((List.mem_cons.mp taken).resolve_left here)

/-- A reference is given back where another one is left. -/
theorem Extends.iput (ext : Extends v v' extra) (live : v'.vnode.lookup node = some n')
    (taken : node ∈ extra) (more : 2 ≤ n'.count) :
    Extends v (v'.iput node) (extra.erase node) := by
  have gives := iput_of_shared ext.cached live more
  have looks (other : Nat) : (v'.iput node).vnode.lookup other =
      if other = node then some { n' with count := n'.count - 1 }
      else v'.vnode.lookup other := by
    rw [gives, Store.lookup_insert_eq]
  have inode : (v'.iput node).inode = v.inode := by
    rw [gives, ← ext.inode]
    exact inode_congr fun _ => rfl
  have fewer : (extra.erase node).count node + 1 = extra.count node := by
    have positive := List.count_pos_iff.mpr taken
    rw [List.count_erase_self]
    omega
  refine ⟨ext.cached.iput node, inode, fun other n before => ?_, fun other m there before => ?_,
    fun other left => ?_⟩
  · obtain ⟨m, there, same⟩ := ext.kept other n before
    rw [looks]
    by_cases here : other = node
    · rw [if_pos here]
      refine ⟨_, rfl, ?_⟩
      obtain rfl := Option.some.inj (live.symm.trans (here ▸ there))
      rw [here] at same ⊢
      have count : n'.count = n.count + extra.count node := congrArg Vnode.count same
      have less : n'.count - 1 = n.count + (extra.erase node).count node := by omega
      have content := congrArg (fun w : Vnode => { w with count := n'.count - 1 }) same
      rw [less] at content ⊢
      exact content
    · rw [if_neg here, List.count_erase_of_ne here]
      exact ⟨m, there, same⟩
  · rw [looks] at there
    split at there
    · rename_i here
      cases there
      obtain ⟨mount, cover, attributes, count, _⟩ := ext.fresh node n' live (here ▸ before)
      refine ⟨mount, cover, attributes, ?_, ?_⟩
      · rw [here]
        change n'.count - 1 = _
        omega
      · rw [here, ← List.count_pos_iff]
        omega
    · rename_i here
      obtain ⟨mount, cover, attributes, count, taken'⟩ := ext.fresh other m there before
      refine ⟨mount, cover, attributes, ?_, (List.mem_erase_of_ne here).mpr taken'⟩
      rw [List.count_erase_of_ne here, count]
  · rw [looks]
    split
    · exact ⟨_, rfl⟩
    · exact ext.taken other (List.mem_of_mem_erase left)

/-- A vnode is read into the cache, with the one reference taken. -/
theorem Extends.create (ext : Extends v v' extra) {sb ino : Nat} {block : SuperBlock}
    {operations : SuperOperations} {readInode : Nat → Attributes → Attributes}
    (found : v'.superBlock.lookup sb = some block) (sOp : block.sOp = some operations)
    (reads : operations.readInode = some readInode)
    (absent : ∀ other m, v'.vnode.lookup other = some m → m.sb = sb → m.ino ≠ ino)
    (calloc : Allocator Vnode) :
    let made := v'.createEmptyInode calloc sb block readInode ino
    Extends v made.1 (made.2 :: extra) ∧
      ∃ n, made.1.vnode.lookup made.2 = some n ∧ (n.sb, n.ino) = (sb, ino) := by
  intro made
  set res := calloc.address v'.vnode with res_def
  have unused : v'.vnode.lookup res = none := calloc.address_fresh v'.vnode
  have unusedBefore : v.vnode.lookup res = none := by
    cases before : v.vnode.lookup res with
    | none => rfl
    | some n =>
      obtain ⟨n', live, _⟩ := ext.kept res n before
      rw [unused] at live
      cases live
  have untaken : res ∉ extra := by
    intro taken
    obtain ⟨n', live⟩ := ext.taken res taken
    rw [unused] at live
    cases live
  have looks (other : Nat) : made.1.vnode.lookup other =
      if other = res then some
        { ino, count := 1, attributes := readInode ino {}, dev := block.dev, sb,
          cacheNext := block.cache }
      else v'.vnode.lookup other := Store.lookup_insert_eq ..
  have blocks : made.1.inode = v'.inode := by
    refine inode_congr fun other => ?_
    change ((v'.superBlock.insert sb { block with cache := res }).lookup other).map _ = _
    rw [Store.lookup_insert_eq]
    split
    · rename_i here
      rw [here, found]
      rfl
    · rfl
  have attributes : readInode ino {} = v.inode sb ino := by
    rw [← ext.inode, Vfs.inode, found]
    simp only [sOp, Option.bind_some, reads, Option.map_some, Option.getD_some]
  refine ⟨⟨ext.cached.createEmptyInode found (by rw [sOp]; rfl) absent calloc readInode,
    blocks.trans ext.inode, fun other n before => ?_, fun other m there before => ?_,
    fun other taken => ?_⟩, _, (looks res).trans (if_pos rfl), rfl⟩
  · obtain ⟨m, there, same⟩ := ext.kept other n before
    have differ : other ≠ res := by
      rintro rfl
      rw [unused] at there
      cases there
    change ∃ n', made.1.vnode.lookup other = some n' ∧
      n'.content = { n.content with count := n.count + (res :: extra).count other }
    rw [looks, if_neg differ, List.count_cons_of_ne (Ne.symm differ)]
    exact ⟨m, there, same⟩
  · change m.mount = 0 ∧ m.cover = 0 ∧ m.attributes = v.inode m.sb m.ino ∧
      m.count = (res :: extra).count other ∧ other ∈ res :: extra
    rw [looks] at there
    split at there
    · rename_i here
      cases there
      rw [here, List.count_cons_self, List.count_eq_zero.mpr untaken]
      exact ⟨rfl, rfl, attributes, rfl, List.mem_cons_self⟩
    · rename_i here
      obtain ⟨mount, cover, attributes, count, taken⟩ := ext.fresh other m there before
      rw [List.count_cons_of_ne (Ne.symm here)]
      exact ⟨mount, cover, attributes, count, List.mem_cons_of_mem _ taken⟩
  · rw [looks]
    split
    · exact ⟨_, rfl⟩
    · rename_i here
      exact ext.taken other ((List.mem_cons.mp taken).resolve_left here)

/-- `iget` takes a reference on a vnode of the inode, or finds none: then the inode has no
vnode. -/
theorem Extends.iget (ext : Extends v v' extra) (room : Room width v k)
    (short : extra.length < k) (calloc : Allocator Vnode) (sb ino : Nat) :
    let found := v'.iget width calloc sb ino
    (found = (v', 0) ∧ ∀ other m, v'.vnode.lookup other = some m → (m.sb, m.ino) ≠ (sb, ino)) ∨
      found.2 ≠ 0 ∧ Extends v found.1 (found.2 :: extra) ∧
        ∃ n, found.1.vnode.lookup found.2 = some n ∧ (n.sb, n.ino) = (sb, ino) := by
  intro found
  by_cases cached : ∃ other m, v'.vnode.lookup other = some m ∧ (m.sb, m.ino) = (sb, ino)
  · obtain ⟨other, m, live, place⟩ := cached
    rw [Prod.mk.injEq] at place
    have gets : found = (v'.hold width other, other) := by
      have gets : v'.iget width calloc m.sb m.ino = _ := iget_of_live ext.cached live calloc
      rw [place.1, place.2] at gets
      exact gets
    right
    rw [gets]
    refine ⟨ext.cached.ne_zero live, ext.hold room short live,
      { m with count := (m.count + 1) % width }, ?_, ?_⟩
    · rw [Vfs.hold, Store.lookup_modify, if_pos rfl, live]
      rfl
    · exact Prod.ext place.1 place.2
  · have absent (other : Nat) (m : Vnode) (live : v'.vnode.lookup other = some m) :
        (m.sb, m.ino) ≠ (sb, ino) := fun place => cached ⟨other, m, live, place⟩
    have absent' (other : Nat) (m : Vnode) (live : v'.vnode.lookup other = some m)
        (sbs : m.sb = sb) : m.ino ≠ ino := fun inos => absent other m live (Prod.ext sbs inos)
    cases block_found : v'.superBlock.lookup sb with
    | none =>
      left
      refine ⟨?_, absent⟩
      simp only [found, Vfs.iget, block_found]
    | some block =>
      cases reads : block.sOp.bind (·.readInode) with
      | none =>
        left
        refine ⟨?_, absent⟩
        simp only [found, Vfs.iget, block_found, findCached_of_absent ext.cached block_found absent',
          ne_eq, not_true_eq_false, if_false, reads]
      | some readInode =>
        right
        obtain ⟨operations, sOp, reads'⟩ := Option.bind_eq_some_iff.mp reads
        have gets : found = v'.createEmptyInode calloc sb block readInode ino :=
          iget_of_absent ext.cached block_found sOp reads' absent' calloc
        rw [gets]
        exact ⟨calloc.address_ne_zero _, ext.create block_found sOp reads' absent' calloc⟩

end Vfs

end Nupkux
