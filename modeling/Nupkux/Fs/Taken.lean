import Nupkux.Fs.MountChain
import Nupkux.Fs.MountTree

/-!
# What stays while references are taken

`Took` is what path resolution keeps of everything: the vnodes from before with their mounts and
covers, the super blocks with their operations, and a reference more for each entry of a list.
Whatever is looked up in the vnodes from before is then looked up with the same result.
-/

namespace Nupkux

namespace Vfs

variable {v v' v'' : Vfs} {node : Nat} {extra extra' : List Nat} {n : Vnode}

/-- A mount configuration: the caches are in order, each vnode is there for a reference, and
`mount` and `cover` pointers lead to vnodes. -/
structure WellMounted (v : Vfs) : Prop where
  cached : v.Cached
  counted : ∀ node n, v.vnode.lookup node = some n → 0 < n.count
  mounts : v.MountsLive
  covers : ∀ node, v.coverOf node ≠ 0 → ∃ n, v.vnode.lookup (v.coverOf node) = some n

/-- The vnode is there. -/
def Live (v : Vfs) (node : Nat) : Prop := ∃ n, v.vnode.lookup node = some n

/-- The super block is there, and its file system can read an inode. -/
def Reads (v : Vfs) (sb : Nat) : Prop :=
  ∃ block, v.superBlock.lookup sb = some block ∧ (block.sOp.bind (·.readInode)).isSome

/-- The super blocks are there with the same operations, and the root vnode is the same. -/
structure SameSetup (v v' : Vfs) : Prop where
  operations : ∀ sb, (v'.superBlock.lookup sb).map (·.sOp) = (v.superBlock.lookup sb).map (·.sOp)
  rootVnode : v'.rootVnode = v.rootVnode

/-- References have been taken as the list tells, by operations that keep the setup, on vnodes
from before and on vnodes that were read. -/
structure Took (v v' : Vfs) (extra : List Nat) : Prop extends Extends v v' extra,
    SameSetup v v' where
  readable : ∀ node n, v'.vnode.lookup node = some n → v.vnode.lookup node = none → v.Reads n.sb

/-! ## The setup -/

namespace SameSetup

/-- Nothing changed. -/
theorem refl (v : Vfs) : SameSetup v v := ⟨fun _ => rfl, rfl⟩

/-- Two steps that keep the setup. -/
theorem trans (first : SameSetup v v') (second : SameSetup v' v'') : SameSetup v v'' :=
  ⟨fun sb => (second.operations sb).trans (first.operations sb),
    second.rootVnode.trans first.rootVnode⟩

/-- The setup is the same, seen from the other side. -/
theorem symm (same : SameSetup v v') : SameSetup v' v :=
  ⟨fun sb => (same.operations sb).symm, same.rootVnode.symm⟩

/-- The same file systems can read inodes. -/
theorem reads (same : SameSetup v v') {sb : Nat} (reads : v'.Reads sb) : v.Reads sb := by
  obtain ⟨block, found, reads⟩ := reads
  have here := same.operations sb
  rw [found] at here
  obtain ⟨block', found', sOp⟩ := Option.map_eq_some_iff.mp here.symm
  refine ⟨block', found', ?_⟩
  rw [sOp]
  exact reads

end SameSetup

/-- `free_inode` keeps the setup. -/
theorem freeInode_setup {n : Vnode} {block : SuperBlock}
    (found : v.superBlock.lookup n.sb = some block) : SameSetup v (v.freeInode node n block) := by
  unfold freeInode
  dsimp only
  split
  · refine ⟨fun sb => ?_, rfl⟩
    rw [Store.lookup_insert_eq]
    split
    · rename_i here
      rw [here, found]
      rfl
    · rfl
  · exact ⟨fun _ => rfl, rfl⟩

/-- `iput` keeps the setup. -/
theorem iput_setup (v : Vfs) (node : Nat) : SameSetup v (v.iput node) := by
  unfold iput
  split
  · exact .refl v
  · split
    · exact .refl v
    · rename_i block found
      split
      · exact .refl v
      · split
        · exact .refl v
        · dsimp only
          split
          · exact ⟨fun sb => (freeInode_setup (by exact found)).operations sb,
              (freeInode_setup (by exact found)).rootVnode⟩
          · exact ⟨fun _ => rfl, rfl⟩

/-- `iget` keeps the setup. -/
theorem iget_setup (width : Nat) (calloc : Allocator Vnode) (v : Vfs) (sb ino : Nat) :
    SameSetup v (v.iget width calloc sb ino).1 := by
  unfold iget
  split
  · exact .refl v
  · rename_i block found
    dsimp only
    split
    · exact ⟨fun _ => rfl, rfl⟩
    · split
      · exact .refl v
      · refine ⟨fun other => ?_, rfl⟩
        rw [createEmptyInode, Store.lookup_insert_eq]
        split
        · rename_i here
          rw [here, found]
          rfl
        · rfl

/-- The vnodes after `iget` were there before, or are of a file system that can read inodes. -/
theorem iget_vnodes (width : Nat) (calloc : Allocator Vnode) (v : Vfs) (sb ino : Nat)
    (there : (v.iget width calloc sb ino).1.vnode.lookup node = some n) :
    (∃ m, v.vnode.lookup node = some m ∧ m.sb = n.sb) ∨ v.Reads n.sb := by
  unfold iget at there
  split at there
  · exact .inl ⟨n, there, rfl⟩
  · rename_i block found
    dsimp only at there
    split at there
    · rw [Vfs.hold, Store.lookup_modify] at there
      split at there
      · obtain ⟨m, live, rfl⟩ := Option.map_eq_some_iff.mp there
        rename_i here
        rw [here]
        exact .inl ⟨m, live, rfl⟩
      · exact .inl ⟨n, there, rfl⟩
    · split at there
      · exact .inl ⟨n, there, rfl⟩
      · rename_i readInode reads
        rw [createEmptyInode, Store.lookup_insert_eq] at there
        split at there
        · cases there
          refine .inr ⟨block, found, ?_⟩
          rw [reads]
          rfl
        · exact .inl ⟨n, there, rfl⟩

/-- Exact counters have room. -/
theorem room_exact (v : Vfs) (k : Nat) : Room exactWidth v k :=
  ⟨.inl rfl, fun _ _ _ => .inl rfl⟩

namespace Took

/-- No reference has been taken. -/
theorem refl (cached : v.Cached) : Took v v [] := by
  refine ⟨.refl cached, .refl v, fun node n there before => ?_⟩
  rw [there] at before
  cases before

/-- The vnodes from before are there. -/
theorem live (took : Took v v' extra) (live : v.Live node) : v'.Live node := by
  obtain ⟨n, there⟩ := live
  obtain ⟨n', there', _⟩ := took.kept node n there
  exact ⟨n', there'⟩

/-- What is kept of a vnode from before. -/
theorem keeps (took : Took v v' extra) (there : v.vnode.lookup node = some n) :
    ∃ n', v'.vnode.lookup node = some n' ∧ n'.sb = n.sb ∧ n'.ino = n.ino ∧
      n'.attributes = n.attributes ∧ n'.count = n.count + extra.count node := by
  obtain ⟨n', there', same⟩ := took.kept node n there
  have sb := congrArg Vnode.sb same
  have ino := congrArg Vnode.ino same
  have attributes := congrArg Vnode.attributes same
  exact ⟨n', there', sb, ino, attributes, congrArg Vnode.count same⟩

/-- The order of the references does not matter. -/
theorem perm (took : Took v v' extra) (same : extra.Perm extra') : Took v v' extra' := by
  refine ⟨⟨took.cached, took.inode, fun node n there => ?_, fun node n there before => ?_,
    fun node taken => took.taken node (same.mem_iff.mpr taken)⟩, took.toSameSetup, took.readable⟩
  · rw [← same.count_eq]
    exact took.kept node n there
  · rw [← same.count_eq, ← same.mem_iff]
    exact took.fresh node n there before

/-- References taken one after another. -/
theorem trans (first : Took v v' extra) (second : Took v' v'' extra') :
    Took v v'' (extra' ++ extra) := by
  refine ⟨⟨second.cached, second.inode.trans first.inode, fun node n there => ?_,
    fun node n'' there'' before => ?_, fun node taken => ?_⟩,
    first.toSameSetup.trans second.toSameSetup, fun node n'' there'' before => ?_⟩
  · obtain ⟨n', there', same⟩ := first.kept node n there
    obtain ⟨n'', there'', same'⟩ := second.kept node n' there'
    refine ⟨n'', there'', ?_⟩
    have count : n'.count = n.count + extra.count node := congrArg Vnode.count same
    rw [same', same, count, List.count_append, Nat.add_comm (List.count node extra'),
      ← Nat.add_assoc]
  · rw [List.count_append, List.mem_append]
    cases between : v'.vnode.lookup node with
    | none =>
      obtain ⟨mount, cover, attributes, count, taken⟩ := second.fresh node n'' there'' between
      have untaken : node ∉ extra := fun member => by
        obtain ⟨n', there'⟩ := first.taken node member
        rw [between] at there'
        cases there'
      rw [List.count_eq_zero.mpr untaken, ← first.inode]
      exact ⟨mount, cover, attributes, count, .inl taken⟩
    | some n' =>
      obtain ⟨m, there, same⟩ := second.kept node n' between
      obtain rfl := Option.some.inj (there.symm.trans there'')
      obtain ⟨mount, cover, attributes, count, taken⟩ := first.fresh node n' between before
      have total : m.count = n'.count + extra'.count node := congrArg Vnode.count same
      have sb := congrArg Vnode.sb same
      have ino := congrArg Vnode.ino same
      refine ⟨(congrArg Vnode.mount same).trans mount, (congrArg Vnode.cover same).trans cover,
        ?_, by omega, .inr taken⟩
      change m.attributes = v.inode m.content.sb m.content.ino
      rw [sb, ino]
      exact (congrArg Vnode.attributes same).trans attributes
  · rcases List.mem_append.mp taken with later | earlier
    · exact second.taken node later
    · exact second.live (first.taken node earlier)
  · cases between : v'.vnode.lookup node with
    | none => exact first.toSameSetup.reads (second.readable node n'' there'' between)
    | some n' =>
      obtain ⟨m, there, sb, _⟩ := second.keeps between
      obtain rfl := Option.some.inj (there.symm.trans there'')
      rw [sb]
      exact first.readable node n' between before

/-- The references after they have been taken. -/
theorem references (took : Took v v' extra) (node : Nat) :
    v'.references node = v.references node + extra.count node := by
  unfold Vfs.references
  cases before : v.vnode.lookup node with
  | some n =>
    obtain ⟨n', there', same⟩ := took.kept node n before
    have count : n'.count = n.count + extra.count node := congrArg Vnode.count same
    rw [there']
    exact count
  | none =>
    cases after : v'.vnode.lookup node with
    | some n' =>
      have count := (took.fresh node n' after before).2.2.2.1
      rw [Option.map_some, Option.getD_some, count, Option.map_none, Option.getD_none, Nat.zero_add]
    | none =>
      have untaken : node ∉ extra := fun member => by
        obtain ⟨n', there'⟩ := took.taken node member
        rw [after] at there'
        cases there'
      rw [List.count_eq_zero.mpr untaken]
      rfl

/-- A pointer that a new vnode does not have is kept. -/
theorem pointer (took : Took v v' extra) (get : Vnode → Nat)
    (content : ∀ n : Vnode, get n.content = get n)
    (counter : ∀ (n : Vnode) count, get { n with count } = get n)
    (fresh : ∀ node n', v'.vnode.lookup node = some n' → v.vnode.lookup node = none → get n' = 0)
    (node : Nat) :
    ((v'.vnode.lookup node).map get).getD 0 = ((v.vnode.lookup node).map get).getD 0 := by
  cases before : v.vnode.lookup node with
  | some n =>
    obtain ⟨n', there', same⟩ := took.kept node n before
    rw [there', Option.map_some, Option.map_some, ← content, same, counter, content]
  | none =>
    cases after : v'.vnode.lookup node with
    | some n' => exact fresh node n' after before
    | none => rfl

/-- The mounts are kept. -/
theorem mountOf (took : Took v v' extra) (node : Nat) : v'.mountOf node = v.mountOf node :=
  took.pointer (·.mount) (fun _ => rfl) (fun _ _ => rfl)
    (fun other n' there before => (took.fresh other n' there before).1) node

/-- The covers are kept. -/
theorem coverOf (took : Took v v' extra) (node : Nat) : v'.coverOf node = v.coverOf node :=
  took.pointer (·.cover) (fun _ => rfl) (fun _ _ => rfl)
    (fun other n' there before => (took.fresh other n' there before).2.1) node

/-- Taking references keeps a mount configuration. -/
theorem wellMounted (took : Took v v' extra) (well : v.WellMounted) : v'.WellMounted := by
  refine ⟨took.cached, fun node n' there => ?_, fun node mounted => ?_, fun node covers => ?_⟩
  · cases before : v.vnode.lookup node with
    | some n =>
      obtain ⟨m, there', same⟩ := took.kept node n before
      obtain rfl := Option.some.inj (there'.symm.trans there)
      have count : m.count = n.count + extra.count node := congrArg Vnode.count same
      have positive := well.counted node n before
      omega
    | none =>
      obtain ⟨_, _, _, count, taken⟩ := took.fresh node n' there before
      have positive := List.count_pos_iff.mpr taken
      omega
  · rw [took.mountOf] at mounted ⊢
    exact took.live (well.mounts node mounted)
  · rw [took.coverOf] at covers ⊢
    exact took.live (well.covers node covers)

/-! ## Operations -/

/-- One more reference. -/
theorem hold (took : Took v v' extra) (live : v'.Live node) :
    Took v (v'.hold exactWidth node) (node :: extra) := by
  obtain ⟨n, there⟩ := live
  refine ⟨took.toExtends.hold (room_exact v (extra.length + 1)) (Nat.lt_succ_self _) there,
    took.toSameSetup.trans ⟨fun _ => rfl, rfl⟩, fun other m there' before => ?_⟩
  rw [Vfs.hold, Store.lookup_modify] at there'
  split at there'
  · obtain ⟨m', there'', rfl⟩ := Option.map_eq_some_iff.mp there'
    rename_i here
    exact took.readable other m' (here ▸ there'') before
  · exact took.readable other m there' before

/-- A reference is given back to a vnode that has another one. -/
theorem iput (took : Took v v' (node :: extra)) (well : v.WellMounted)
    (other : v.Live node ∨ node ∈ extra) : Took v (v'.iput node) extra := by
  obtain ⟨n', there'⟩ := took.taken node List.mem_cons_self
  have more : 2 ≤ n'.count := by
    cases before : v.vnode.lookup node with
    | some n =>
      obtain ⟨m, there, same⟩ := took.kept node n before
      obtain rfl := Option.some.inj (there.symm.trans there')
      have count : m.count = n.count + (node :: extra).count node := congrArg Vnode.count same
      have positive := well.counted node n before
      rw [List.count_cons_self] at count
      omega
    | none =>
      have taken : node ∈ extra := by
        rcases other with ⟨n, there⟩ | taken
        · rw [before] at there
          cases there
        · exact taken
      have count := (took.fresh node n' there' before).2.2.2.1
      have positive := List.count_pos_iff.mpr taken
      rw [List.count_cons_self] at count
      omega
  have gives := took.toExtends.iput there' List.mem_cons_self more
  rw [List.erase_cons_head] at gives
  refine ⟨gives, took.toSameSetup.trans (iput_setup v' node), fun other m there before => ?_⟩
  rw [iput_of_shared took.cached there' more, Store.lookup_insert_eq] at there
  split at there
  · rename_i here
    cases there
    exact took.readable other n' (here ▸ there') before
  · exact took.readable other m there before

/-- A reference is given back, and a vnode that was read only for it is freed. -/
theorem release (took : Took v v' (node :: extra)) (well : v.WellMounted) :
    Took v (v'.iput node) extra := by
  by_cases other : v.Live node ∨ node ∈ extra
  · exact took.iput well other
  obtain ⟨gone, untaken⟩ := not_or.mp other
  have before : v.vnode.lookup node = none := by
    cases found : v.vnode.lookup node with
    | none => rfl
    | some n => exact absurd ⟨n, found⟩ gone
  obtain ⟨n', there'⟩ := took.taken node List.mem_cons_self
  have last : n'.count = 1 := by
    have count := (took.fresh node n' there' before).2.2.2.1
    rwa [List.count_cons_self, List.count_eq_zero.mpr untaken] at count
  have looks (other : Nat) : ((v'.iput node).vnode.lookup other).map Vnode.content =
      if other = node then none else (v'.vnode.lookup other).map Vnode.content := by
    rw [iput_lookup took.cached there' (by omega)]
    simp only [last, if_true]
  have setup : SameSetup v (v'.iput node) := took.toSameSetup.trans (iput_setup v' node)
  -- what is left of another vnode is what it was, and the freed one is a new one
  have same (other : Nat) (m : Vnode) (there : (v'.iput node).vnode.lookup other = some m) :
      other ≠ node ∧ ∃ m', v'.vnode.lookup other = some m' ∧ m'.content = m.content := by
    have content := looks other
    rw [there, Option.map_some] at content
    split at content
    · cases content
    · rename_i here
      obtain ⟨m', there', same⟩ := Option.map_eq_some_iff.mp content.symm
      exact ⟨here, m', there', same⟩
  have stays (other : Nat) (m' : Vnode) (there : v'.vnode.lookup other = some m')
      (here : other ≠ node) :
      ∃ m, (v'.iput node).vnode.lookup other = some m ∧ m.content = m'.content := by
    have content := looks other
    rw [if_neg here, there, Option.map_some] at content
    exact Option.map_eq_some_iff.mp content
  refine ⟨⟨took.cached.iput node, inode_congr setup.operations, fun other n live => ?_,
    fun other m there fresh => ?_, fun other taken => ?_⟩, setup, fun other m there fresh => ?_⟩
  · have here : other ≠ node := fun here => gone ⟨n, here ▸ live⟩
    obtain ⟨m', there, content⟩ := took.kept other n live
    obtain ⟨m, left, content'⟩ := stays other m' there here
    refine ⟨m, left, content'.trans ?_⟩
    rw [content, List.count_cons_of_ne (Ne.symm here)]
  · obtain ⟨here, m', there', content⟩ := same other m there
    obtain ⟨mount, cover, attributes, count, taken⟩ := took.fresh other m' there' fresh
    have sb : m'.sb = m.sb := (congrArg Vnode.sb content :)
    have ino : m'.ino = m.ino := (congrArg Vnode.ino content :)
    have filled : m'.attributes = m.attributes := (congrArg Vnode.attributes content :)
    have counts : m'.count = m.count := (congrArg Vnode.count content :)
    rw [sb, ino, filled] at attributes
    rw [List.count_cons_of_ne (Ne.symm here), counts] at count
    exact ⟨(congrArg Vnode.mount content).symm.trans mount,
      (congrArg Vnode.cover content).symm.trans cover, attributes, count,
      (List.mem_cons.mp taken).resolve_left here⟩
  · obtain ⟨m', there⟩ := took.taken other (List.mem_cons_of_mem _ taken)
    have here : other ≠ node := fun here => untaken (here ▸ taken)
    obtain ⟨m, left, _⟩ := stays other m' there here
    exact ⟨m, left⟩
  · obtain ⟨_, m', there', content⟩ := same other m there
    have sb : m'.sb = m.sb := (congrArg Vnode.sb content :)
    rw [← sb]
    exact took.readable other m' there' fresh

end Took

end Vfs

end Nupkux
