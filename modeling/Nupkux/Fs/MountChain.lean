import Nupkux.Fs.Umount

/-!
# The limit on mount chains

`resolve_mount` hands `steps--` on, which is `steps`: its limit of `MOUNT_MAX` mounts is never
used up. A chain of mounts is followed to its end however long it is, and a chain without an end
forever, or until a vnode on it has been freed. The reference moves along as it should, except
where the counter of a vnode, a UCHAR, is at its largest value.
-/

namespace Nupkux

open LinkedList

namespace Vfs

variable {v v' : Vfs} {width fuel fuel' node last steps : Nat} {status : Int}
  {result result' : Vfs × Nat × Int} {rest : List Nat}

/-- The chain of mounts from a vnode has an end, and no more mounts than the limit. -/
def EndsWithin (v : Vfs) (node limit last : Nat) : Prop :=
  ∃ rest, Chain v.mountOf node (node :: rest) ∧ rest.length ≤ limit ∧
    last = (node :: rest).getLast (List.cons_ne_nil node rest)

/-- One reference moves from a vnode to another one, and no other is taken or given back. -/
def Moved (v v' : Vfs) (node last : Nat) : Prop :=
  ∀ other, v'.references other + (if other = node then 1 else 0) =
    v.references other + if other = last then 1 else 0

/-- One reference is given back, and no other is taken or given back. -/
def Released (v v' : Vfs) (node : Nat) : Prop :=
  ∀ other, v'.references other + (if other = node then 1 else 0) = v.references other

/-- `resolve_mount(node, status, MOUNT_MAX)` returns, with the last root of a chain that ends
within the limit and the reference moved to it, else with null, `-EMLINK` and the reference
given back. -/
def FollowsWithin (v : Vfs) (node : Nat) (status : Int) : Prop :=
  ∃ fuel v' found status',
    v.resolveMount ucharWidth fuel node status mountMax = some (v', found, status') ∧
      ((v.EndsWithin node mountMax found ∧ status' = status ∧ Moved v v' node found) ∨
        ((∀ last, ¬v.EndsWithin node mountMax last) ∧ found = 0 ∧ status' = -EMLINK ∧
          Released v v' node))

/-! ## One mount -/

/-- `iput` of a vnode lowers its counter unless it is 0, and no other. -/
theorem iput_lowers (cached : v.Cached) (node other : Nat) :
    (v.iput node).references other =
      if other = node then v.references node - 1 else v.references other := by
  by_cases held : 0 < v.references node
  · have gives := iput_references cached held other
    split
    · rename_i same
      rw [if_pos same, same] at gives
      rw [same]
      omega
    · rename_i differ
      rwa [if_neg differ, Nat.add_zero] at gives
  · have none : v.references node = 0 := Nat.eq_zero_of_not_pos held
    have left : v.iput node = v := by
      cases found : v.vnode.lookup node with
      | none => exact iput_of_absent found
      | some n => exact iput_of_zero found (by rwa [references, found] at none)
    rw [left]
    split
    · rename_i same
      rw [same, none]
    · rfl

/-- `node->count++` of a vnode that is there, at the width of the counter. -/
theorem hold_raises {n : Vnode} (live : v.vnode.lookup node = some n) (other : Nat) :
    (v.hold width node).references other =
      if other = node then (v.references node + 1) % width else v.references other := by
  simp only [references, Vfs.hold, Store.lookup_modify]
  by_cases same : other = node
  · simp [same, live]
  · simp [same]

/-- Taking a reference keeps the mounts. -/
theorem mountOf_hold (v : Vfs) (width node other : Nat) :
    (v.hold width node).mountOf other = v.mountOf other := by
  simp only [mountOf, Vfs.hold, Store.lookup_modify]
  split
  · rename_i same
    rw [same, Option.map_map]
    rfl
  · rfl

/-- Giving a reference back keeps the other vnodes, their links apart. -/
theorem iput_content_ne (cached : v.Cached) {other : Nat} (differ : other ≠ node) :
    ((v.iput node).vnode.lookup other).map Vnode.content =
      (v.vnode.lookup other).map Vnode.content := by
  cases live : v.vnode.lookup node with
  | none => rw [iput_of_absent live]
  | some n =>
    by_cases zero : n.count = 0
    · rw [iput_of_zero live zero]
    · rw [iput_lookup cached live zero, if_neg differ]

/-- The step from a vnode to what is mounted on it: the caches are in order, and all other vnodes
are there as before and have the same mounts. -/
theorem enter_keeps (cached : v.Cached) (width next : Nat) {other : Nat} (differ : other ≠ node) :
    (((v.iput node).hold width next).mountOf other = v.mountOf other) ∧
      ((∃ n, v.vnode.lookup other = some n) →
        ∃ n, ((v.iput node).hold width next).vnode.lookup other = some n) := by
  have same := iput_content_ne cached differ
  refine ⟨?_, fun ⟨n, live⟩ => ?_⟩
  · rw [mountOf_hold, mountOf_content, same, ← mountOf_content]
  · rw [live, Option.map_some] at same
    obtain ⟨n', live', _⟩ := Option.map_eq_some_iff.mp same
    rw [Vfs.hold, Store.lookup_modify]
    split
    · rename_i here
      rw [← here, live']
      exact ⟨_, rfl⟩
    · exact ⟨n', live'⟩

/-! ## A whole chain -/

/-- The counters after the step from a vnode to what is mounted on it. -/
def entered (width : Nat) (count : Nat → Nat) (node next : Nat) : Nat → Nat :=
  Function.update (Function.update count node (count node - 1)) next ((count next + 1) % width)

/-- The vnode that is entered. -/
theorem entered_next (width : Nat) (count : Nat → Nat) (node next : Nat) :
    entered width count node next next = (count next + 1) % width := Function.update_self ..

/-- The vnode that is left. -/
theorem entered_node (width : Nat) (count : Nat → Nat) {node next : Nat} (differ : node ≠ next) :
    entered width count node next node = count node - 1 := by
  rw [entered, Function.update_of_ne differ, Function.update_self]

/-- The other vnodes. -/
theorem entered_ne (width : Nat) (count : Nat → Nat) {node next other : Nat}
    (differ : other ≠ node) (differ' : other ≠ next) :
    entered width count node next other = count other := by
  rw [entered, Function.update_of_ne differ', Function.update_of_ne differ]

/-- The counters after the walk along a chain of mounts, from the counters before. -/
def carried (width : Nat) (count : Nat → Nat) (node : Nat) : List Nat → Nat → Nat
  | [] => count
  | next :: rest => carried width (entered width count node next) next rest

/-- What the step leaves of the counters. -/
theorem enter_references (cached : v.Cached) (width : Nat) {next : Nat} {n : Vnode}
    (differ : next ≠ node) (live : v.vnode.lookup next = some n) :
    ((v.iput node).hold width next).references = entered width v.references node next := by
  have same := iput_content_ne cached differ
  rw [live, Option.map_some] at same
  obtain ⟨n', live', _⟩ := Option.map_eq_some_iff.mp same
  funext other
  rw [hold_raises live', iput_lowers cached, iput_lowers cached, if_neg differ, entered,
    Function.update_apply, Function.update_apply]

/-- More fuel than is needed changes nothing. -/
theorem resolveMount_mono (enough : fuel ≤ fuel')
    (done : v.resolveMount width fuel node status steps = some result) :
    v.resolveMount width fuel' node status steps = some result := by
  induction fuel generalizing v node fuel' with
  | zero => cases done
  | succ fuel ih =>
    obtain ⟨more, rfl⟩ : ∃ more, fuel' = more + 1 := ⟨fuel' - 1, by omega⟩
    rw [resolveMount] at done ⊢
    split
    · rename_i mounted
      rw [if_pos mounted] at done
      split
      · rename_i used
        rwa [if_pos used] at done
      · rename_i left
        rw [if_neg left] at done
        exact ih (by omega) done
    · rename_i bare
      rwa [if_neg bare] at done

/-- The result does not depend on the fuel. -/
theorem resolveMount_unique
    (done : v.resolveMount width fuel node status steps = some result)
    (done' : v.resolveMount width fuel' node status steps = some result') : result = result' := by
  rcases Nat.le_total fuel fuel' with less | less
  · exact Option.some.inj ((resolveMount_mono less done).symm.trans done')
  · exact Option.some.inj (done.symm.trans (resolveMount_mono less done'))

/-- A chain of mounts with an end is followed to it, since the limit is not used up. -/
theorem resolveMount_chain (cached : v.Cached) (limit : steps ≠ 0)
    (chain : Chain v.mountOf node (node :: rest))
    (live : ∀ other ∈ rest, ∃ n, v.vnode.lookup other = some n) :
    ∃ v', v.resolveMount width (rest.length + 1) node status steps =
        some (v', (node :: rest).getLast (List.cons_ne_nil node rest), status) ∧
      v'.references = carried width v.references node rest := by
  induction rest generalizing v node with
  | nil =>
    have bare : v.mountOf node = 0 := chain.2.2
    refine ⟨v, ?_, rfl⟩
    rw [List.length_nil, resolveMount, if_neg (not_not.mpr bare)]
    rfl
  | cons next rest ih =>
    have outside := (List.nodup_cons.mp chain.nodup).1
    obtain ⟨_, _, ⟨here, nonnull, tail⟩⟩ := chain
    have apart (other : Nat) (member : other ∈ next :: rest) : other ≠ node := by
      rintro rfl
      exact outside member
    obtain ⟨n, there⟩ := live next List.mem_cons_self
    -- all the vnodes ahead are as before but for one reference on the first
    have ahead : Chain v.mountOf next (next :: rest) := ⟨rfl, nonnull, here ▸ tail⟩
    have ahead' := ahead.congr fun other member =>
      (enter_keeps cached width next (apart other member)).1
    obtain ⟨v', done, counts⟩ := ih ((cached.iput node).hold width next) ahead'
      fun other member => (enter_keeps cached width next
        (apart other (List.mem_cons_of_mem _ member))).2 (live other (List.mem_cons_of_mem _ member))
    refine ⟨v', ?_, ?_⟩
    · rw [List.length_cons, resolveMount, if_pos (by rw [here]; exact nonnull), if_neg limit]
      dsimp only
      rw [here, done, List.getLast_cons (List.cons_ne_nil next rest)]
    · rw [counts, carried, enter_references cached width (apart next List.mem_cons_self) there]

/-! ## What the counters tell -/

/-- Vnodes off the chain keep their counters. -/
theorem carried_outside (count : Nat → Nat) {other : Nat} (outside : other ∉ node :: rest) :
    carried width count node rest other = count other := by
  induction rest generalizing count node with
  | nil => rfl
  | cons next rest ih =>
    obtain ⟨differ, outside⟩ := not_or.mp (List.mem_cons.not.mp outside)
    rw [carried, ih _ outside, entered_ne width count differ (List.ne_of_not_mem_cons outside)]

/-- The vnode that is left gives one reference back. -/
theorem carried_first (count : Nat → Nat) {next : Nat} (distinct : (node :: next :: rest).Nodup) :
    carried width count node (next :: rest) node = count node - 1 := by
  have outside := (List.nodup_cons.mp distinct).1
  rw [carried, carried_outside _ outside, entered_node width count (List.ne_of_not_mem_cons outside)]

/-- Where the counters have room for one more, the reference moves to the last root. -/
theorem carried_moves (count : Nat → Nat) (distinct : (node :: rest).Nodup)
    (held : 0 < count node) (room : ∀ other ∈ rest, count other + 1 < width) (other : Nat) :
    carried width count node rest other + (if other = node then 1 else 0) =
      count other +
        if other = (node :: rest).getLast (List.cons_ne_nil node rest) then 1 else 0 := by
  induction rest generalizing count node with
  | nil => rfl
  | cons next rest ih =>
    obtain ⟨outside, distinct'⟩ := List.nodup_cons.mp distinct
    have differ : node ≠ next := List.ne_of_not_mem_cons outside
    have fits : entered width count node next next = count next + 1 := by
      rw [entered_next, Nat.mod_eq_of_lt (room next List.mem_cons_self)]
    have room' (member : Nat) (inside : member ∈ rest) :
        entered width count node next member + 1 < width := by
      have off : member ≠ next := by
        rintro rfl
        exact (List.nodup_cons.mp distinct').1 inside
      have off' : member ≠ node := by
        rintro rfl
        exact outside (List.mem_cons_of_mem _ inside)
      rw [entered_ne width count off' off]
      exact room member (List.mem_cons_of_mem _ inside)
    have later := ih (entered width count node next) distinct' (by omega) room'
    rw [List.getLast_cons (List.cons_ne_nil next rest), carried]
    by_cases here : other = node
    · rw [here, if_neg differ, entered_node width count differ] at later
      rw [here, if_pos rfl]
      omega
    · rw [if_neg here]
      by_cases there : other = next
      · rw [there, if_pos rfl, fits] at later
        rw [there]
        omega
      · rw [if_neg there, entered_ne width count here there] at later
        exact later

/-- A counter without room for one more is too low afterwards. -/
theorem carried_loses (count : Nat → Nat) (distinct : (node :: rest).Nodup) (wide : 1 < width)
    {full : Nat} (member : full ∈ rest) (none : width ≤ count full + 1) :
    carried width count node rest full <
      count full +
        if full = (node :: rest).getLast (List.cons_ne_nil node rest) then 1 else 0 := by
  induction rest generalizing count node with
  | nil => cases member
  | cons next rest ih =>
    obtain ⟨outside, distinct'⟩ := List.nodup_cons.mp distinct
    rw [List.getLast_cons (List.cons_ne_nil next rest), carried]
    by_cases here : full = next
    · subst here
      have wraps : (count full + 1) % width < width := Nat.mod_lt _ (Nat.lt_of_succ_lt wide)
      cases rest with
      | nil =>
        rw [carried, entered_next, List.getLast_singleton, if_pos rfl]
        omega
      | cons second rest =>
        rw [carried_first _ distinct', entered_next]
        omega
    · have off : full ≠ node := by
        rintro rfl
        exact outside member
      have same := entered_ne width count off here
      have later := ih (entered width count node next) distinct'
        ((List.mem_cons.mp member).resolve_left here) (by rwa [same])
      rwa [same] at later

/-! ## The limit -/

/-- What a mount pointer leads to is there. -/
def MountsLive (v : Vfs) : Prop :=
  ∀ other, v.mountOf other ≠ 0 → ∃ n, v.vnode.lookup (v.mountOf other) = some n

/-- The vnodes on a chain of mounts are there. -/
theorem MountsLive.chain (live : v.MountsLive) (chain : Chain v.mountOf (v.mountOf node) rest)
    (other : Nat) (member : other ∈ rest) : ∃ n, v.vnode.lookup other = some n := by
  induction rest generalizing node with
  | nil => cases member
  | cons next rest ih =>
    obtain ⟨here, nonnull, tail⟩ := chain
    rcases List.mem_cons.mp member with rfl | later
    · obtain ⟨n, there⟩ := live node (here ▸ nonnull)
      exact ⟨n, here ▸ there⟩
    · exact ih tail later

end Vfs

/-- `resolve_mount` keeps to its limit and its counts exactly when the chain of mounts ends
within the limit and no vnode after the first has its counter at the largest value: a longer chain
is followed as well, and one without an end is not left with an error. -/
theorem resolveMount_followsWithin_iff {v : Vfs} {node : Nat} (cached : v.Cached)
    (live : v.MountsLive) (held : 0 < v.references node) (status : Int) :
    v.FollowsWithin node status ↔
      ∃ rest, Chain v.mountOf node (node :: rest) ∧ rest.length ≤ mountMax ∧
        ∀ other ∈ rest, v.references other + 1 < ucharWidth := by
  have nonnull : node ≠ 0 := by
    obtain ⟨n, there, _⟩ := Vfs.live_of_references held
    exact cached.ne_zero there
  have limit : mountMax ≠ 0 := by decide
  constructor
  · rintro ⟨fuel, v', found, status', done, ⟨⟨rest, chain, short, rfl⟩, _, moved⟩ | ⟨_, null, _⟩⟩
    · refine ⟨rest, chain, short, fun other member => ?_⟩
      obtain ⟨v'', done', counts⟩ := Vfs.resolveMount_chain cached limit chain
        (live.chain chain.2.2)
      have same := Vfs.resolveMount_unique done done'
      rw [Prod.mk.injEq] at same
      by_contra full
      have lost := Vfs.carried_loses v.references chain.nodup (by decide) member (not_lt.mp full)
      have kept := moved other
      rw [same.1, counts, if_neg, Nat.add_zero] at kept
      · exact absurd kept (Nat.ne_of_lt lost)
      · rintro rfl
        exact (List.nodup_cons.mp chain.nodup).1 member
    · exact absurd null ((Vfs.resolveMount_bare (by decide) done).2.2 nonnull)
  · rintro ⟨rest, chain, short, room⟩
    obtain ⟨v', done, counts⟩ := Vfs.resolveMount_chain cached limit chain
      (live.chain chain.2.2)
    refine ⟨_, v', _, status, done, .inl ⟨⟨rest, chain, short, rfl⟩, rfl, fun other => ?_⟩⟩
    rw [counts]
    exact Vfs.carried_moves v.references chain.nodup held room other

/-! File systems mounted on top of each other, at vnodes 1, 2 and so on. -/

namespace MountTower

/-- One of the roots, below all those up to the top. -/
def root (top i : Nat) : Vnode where
  ino := 0
  count := 2
  attributes := { flags := fsDirectory, mode := 0o777 }
  sb := i
  mount := if i < top then i + 1 else 0
  cover := i - 1

/-- The roots up to one. -/
def roots (top : Nat) : Nat → Store Vnode
  | 0 => ∅
  | i + 1 => (roots top i).insert (i + 1) (root top (i + 1))

/-- The super blocks of the roots up to one. -/
def blocks : Nat → Store SuperBlock
  | 0 => ∅
  | i + 1 => (blocks i).insert (i + 1) { sOp := some ⟨none⟩, root := i + 1, cache := i + 1 }

/-- So many file systems mounted on top of each other. -/
def tower (top : Nat) : Vfs where
  vnode := roots top top
  superBlock := blocks top
  rootVnode := 1

/-- The vnodes are the roots. -/
theorem roots_lookup (top height i : Nat) :
    (roots top height).lookup i =
      if 0 < i ∧ i ≤ height then some (root top i) else none := by
  induction height with
  | zero =>
    rw [if_neg (by omega)]
    rfl
  | succ height ih =>
    rw [roots, Store.lookup_insert_eq, ih]
    by_cases here : i = height + 1
    · rw [if_pos here, if_pos (by omega), here]
    · rw [if_neg here]
      exact if_congr (by omega) rfl rfl

/-- Each root has a super block. -/
theorem blocks_lookup (height i : Nat) :
    (blocks height).lookup i =
      if 0 < i ∧ i ≤ height then some { sOp := some ⟨none⟩, root := i, cache := i } else none := by
  induction height with
  | zero =>
    rw [if_neg (by omega)]
    rfl
  | succ height ih =>
    rw [blocks, Store.lookup_insert_eq, ih]
    by_cases here : i = height + 1
    · rw [if_pos here, if_pos (by omega), here]
    · rw [if_neg here]
      exact if_congr (by omega) rfl rfl

/-- A vnode of the tower. -/
theorem tower_live {top i : Nat} {n : Vnode} (there : (tower top).vnode.lookup i = some n) :
    (0 < i ∧ i ≤ top) ∧ n = root top i := by
  have found : (roots top top).lookup i = some n := there
  rw [roots_lookup] at found
  split at found
  · exact ⟨‹_›, (Option.some.inj found).symm⟩
  · cases found

/-- The caches are in order. -/
theorem tower_cached (top : Nat) : (tower top).Cached := by
  have next (i : Nat) : (tower top).cacheNext i = 0 := by
    unfold Vfs.cacheNext
    cases there : (tower top).vnode.lookup i with
    | none => rfl
    | some n =>
      obtain ⟨_, rfl⟩ := tower_live there
      rfl
  refine ⟨fun i n there => ?_, fun sb block found => ?_, fun i j n m there there' sbs _ => ?_⟩
  · obtain ⟨inside, rfl⟩ := tower_live there
    exact ⟨_, (blocks_lookup top i).trans (if_pos inside), rfl⟩
  · have found' : (blocks top).lookup sb = some block := found
    rw [blocks_lookup] at found'
    split at found'
    · rename_i inside
      obtain rfl := Option.some.inj found'
      refine ⟨[sb], ⟨rfl, by omega, next sb⟩, fun i => ?_⟩
      rw [List.mem_singleton]
      constructor
      · rintro rfl
        exact ⟨_, (roots_lookup top top i).trans (if_pos inside), rfl⟩
      · rintro ⟨n, there, same⟩
        obtain ⟨_, rfl⟩ := tower_live there
        exact same
    · cases found'
  · obtain ⟨_, rfl⟩ := tower_live there
    obtain ⟨_, rfl⟩ := tower_live there'
    exact sbs

/-- What is mounted on a vnode of the tower. -/
theorem tower_mountOf (top i : Nat) :
    (tower top).mountOf i = if 0 < i ∧ i < top then i + 1 else 0 := by
  have found : (tower top).vnode.lookup i = _ := roots_lookup top top i
  rw [Vfs.mountOf, found]
  by_cases inside : 0 < i ∧ i ≤ top
  · rw [if_pos inside]
    exact if_congr (by omega) rfl rfl
  · rw [if_neg inside, if_neg (by omega)]
    rfl

/-- What is mounted is there. -/
theorem tower_mountsLive (top : Nat) : (tower top).MountsLive := by
  intro i mounted
  rw [tower_mountOf] at mounted ⊢
  by_cases below : 0 < i ∧ i < top
  · rw [if_pos below]
    exact ⟨_, (roots_lookup top top (i + 1)).trans (if_pos (by omega))⟩
  · rw [if_neg below] at mounted
    exact absurd rfl mounted

/-- The chain of mounts goes up to the top. -/
theorem tower_chain (top i count : Nat) (positive : 0 < i) (whole : i + count = top) :
    Chain (tower top).mountOf i (List.range' i (count + 1)) := by
  induction count generalizing i with
  | zero =>
    refine ⟨rfl, by omega, ?_⟩
    rw [tower_mountOf, if_neg (by omega)]
    rfl
  | succ count ih =>
    rw [List.range'_succ]
    refine ⟨rfl, by omega, ?_⟩
    rw [tower_mountOf, if_pos (by omega)]
    exact ih (i + 1) (by omega) (by omega)

end MountTower

open MountTower in
/-- One file system on another one is found, and the reference moves to its root. -/
theorem resolveMount_followsWithin_two : (tower 2).FollowsWithin 1 0 :=
  (resolveMount_followsWithin_iff (tower_cached 2) (tower_mountsLive 2) (by decide) 0).mpr
    ⟨[2], tower_chain 2 1 1 (by decide) (by decide), by decide, by decide⟩

open MountTower in
/-- The limit is not kept: seventeen mounts on the first of eighteen roots are followed to the
last one, where `MOUNT_MAX` is 16. -/
theorem resolveMount_followsWithin_not :
    ¬ ∀ (v : Vfs) (node : Nat) (status : Int), v.Cached → v.MountsLive →
      0 < v.references node → v.FollowsWithin node status := by
  intro follows
  obtain ⟨fuel, v', found, status', done, ⟨⟨rest, chain, short, _⟩, _⟩ | ⟨_, null, _⟩⟩ :=
    follows (tower 18) 1 0 (tower_cached 18) (tower_mountsLive 18) (by decide)
  · have same := chain.unique (tower_chain 18 1 17 (by decide) (by decide))
    have length := congrArg List.length same
    rw [List.length_cons, List.length_range'] at length
    have limit : rest.length ≤ 16 := short
    omega
  · exact absurd null ((Vfs.resolveMount_bare (by decide) done).2.2 (by decide))

end Nupkux
