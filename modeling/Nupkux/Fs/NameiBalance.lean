import Nupkux.Fs.Taken

/-!
# References left by path resolution

Every part of path resolution moves its references along, `resolve_mount` to the last root,
`getdentry` to the entry it finds. Only the loop of `igetdir` and the end of `namei` keep the
reference to a directory they have entered and go on from it: each directory entered on the way
has a reference more afterwards. Counts are exact integers here.
-/

namespace Nupkux

namespace Vfs

variable {v v' : Vfs} {node : Nat} {extra : List Nat} {n : Vnode}

/-! ## Entries -/

/-- `iget` finds a vnode of the inode or can read one. -/
def CanGet (v : Vfs) (sb ino : Nat) : Prop :=
  (∃ node n, v.vnode.lookup node = some n ∧ n.sb = sb ∧ n.ino = ino) ∨ v.Reads sb

/-- The task may look for the name in the vnode, and finds an entry of it. -/
def HasEntry (v : Vfs) (task : Task) (node : Nat) (name : CString) : Prop :=
  ∃ n lookup ino, v.vnode.lookup node = some n ∧ n.attributes.flags &&& 7 = fsDirectory ∧
    nodePermission task n.attributes xOk ≠ 0 ∧ n.attributes.lookup = some lookup ∧
    lookup name = some ino ∧ v.CanGet n.sb ino

/-- The name leads somewhere from a vnode on which nothing is mounted: `.` to itself, `..` up
through what it covers and to the root of the task at most, any other name to an entry. -/
inductive LeadsFrom (v : Vfs) (task : Task) (name : CString) : Nat → Prop
  /-- `.`. -/
  | dot {node : Nat} : nameiMatch name dot → LeadsFrom v task name node
  /-- `..` in the root of what is mounted. -/
  | cover {node : Nat} : nameiMatch name dotdot → v.coverOf node ≠ 0 →
      LeadsFrom v task name (v.coverOf node) → LeadsFrom v task name node
  /-- `..` in the root of the task. -/
  | root {node steps : Nat} : nameiMatch name dotdot → v.coverOf node = 0 →
      Follow v.mountOf steps task.root node → LeadsFrom v task name node
  /-- An entry of a directory. -/
  | entry {node : Nat} : (nameiMatch name dotdot → v.coverOf node = 0) →
      v.HasEntry task node name → LeadsFrom v task name node

/-- The name leads somewhere from a vnode. -/
def Leads (v : Vfs) (task : Task) (node : Nat) (name : CString) : Prop :=
  ∃ steps top, Follow v.mountOf steps node top ∧ v.LeadsFrom task name top

/-- `iget` returns null exactly when it neither finds nor reads a vnode. -/
theorem iget_eq_null (cached : v.Cached) (width : Nat) (calloc : Allocator Vnode) (sb ino : Nat) :
    (v.iget width calloc sb ino).2 ≠ 0 ↔ v.CanGet sb ino := by
  by_cases live : ∃ node n, v.vnode.lookup node = some n ∧ n.sb = sb ∧ n.ino = ino
  · obtain ⟨node, n, there, rfl, rfl⟩ := live
    rw [iget_of_live cached there calloc]
    exact iff_of_true (cached.ne_zero there) (.inl ⟨node, n, there, rfl, rfl⟩)
  · have absent (node : Nat) (n : Vnode) (there : v.vnode.lookup node = some n)
        (sbs : n.sb = sb) : n.ino ≠ ino := fun inos => live ⟨node, n, there, sbs, inos⟩
    rw [CanGet, or_iff_right live, Reads]
    cases found : v.superBlock.lookup sb with
    | none =>
      rw [iget, found]
      refine iff_of_false (not_not.mpr rfl) ?_
      rintro ⟨block, there, _⟩
      cases there
    | some block =>
      cases reads : block.sOp.bind (·.readInode) with
      | none =>
        simp only [iget, found, findCached_of_absent cached found absent, ne_eq, not_true_eq_false,
          if_false, reads]
        refine iff_of_false id ?_
        rintro ⟨block', there, some_read⟩
        obtain rfl := Option.some.inj there
        rw [reads] at some_read
        cases some_read
      | some readInode =>
        obtain ⟨operations, sOp, reads'⟩ := Option.bind_eq_some_iff.mp reads
        rw [iget_of_absent cached found sOp reads' absent]
        refine iff_of_true (calloc.address_ne_zero _) ⟨block, rfl, ?_⟩
        rw [reads]
        rfl

/-- Following mounts from a vnode ends at a vnode. -/
theorem WellMounted.live_top (well : v.WellMounted) {steps top : Nat} (live : v.Live node)
    (follow : Follow v.mountOf steps node top) : v.Live top := by
  induction follow with
  | last _ => exact live
  | step mounted _ ih => exact ih (well.mounts _ mounted)

namespace Took

/-- The same inodes can be had. -/
theorem canGet (took : Took v v' extra) (sb ino : Nat) : v'.CanGet sb ino ↔ v.CanGet sb ino := by
  constructor
  · rintro (⟨node, n', there', rfl, rfl⟩ | reads)
    · cases before : v.vnode.lookup node with
      | none => exact .inr (took.readable node n' there' before)
      | some n =>
        obtain ⟨m, there, sb, ino, _⟩ := took.keeps before
        obtain rfl := Option.some.inj (there.symm.trans there')
        exact .inl ⟨node, n, before, sb.symm, ino.symm⟩
    · exact .inr (took.toSameSetup.reads reads)
  · rintro (⟨node, n, there, rfl, rfl⟩ | reads)
    · obtain ⟨n', there', sb, ino, _⟩ := took.keeps there
      exact .inl ⟨node, n', there', sb, ino⟩
    · exact .inr (took.toSameSetup.symm.reads reads)

/-- A vnode from before has the same entries. -/
theorem hasEntry (took : Took v v' extra) {task : Task} {name : CString} (live : v.Live node) :
    v'.HasEntry task node name ↔ v.HasEntry task node name := by
  obtain ⟨n, there⟩ := live
  obtain ⟨n', there', sb, _, attributes, _⟩ := took.keeps there
  constructor
  · rintro ⟨m, lookup, ino, found, has⟩
    obtain rfl := Option.some.inj (there'.symm.trans found)
    rw [sb, attributes, took.canGet] at has
    exact ⟨n, lookup, ino, there, has⟩
  · rintro ⟨m, lookup, ino, found, has⟩
    obtain rfl := Option.some.inj (there.symm.trans found)
    refine ⟨n', lookup, ino, there', ?_⟩
    rwa [sb, attributes, took.canGet]

/-- A name leads somewhere from a vnode from before as it did. -/
theorem leadsFrom (took : Took v v' extra) (well : v.WellMounted) {task : Task} {name : CString}
    (live : v.Live node) : v'.LeadsFrom task name node ↔ v.LeadsFrom task name node := by
  have mounts : v'.mountOf = v.mountOf := funext took.mountOf
  constructor
  · intro leads
    induction leads with
    | dot dots => exact .dot dots
    | cover up covers _ ih =>
      rw [took.coverOf] at covers ih
      exact .cover up covers (ih (well.covers _ covers))
    | root up bare follow =>
      rw [took.coverOf] at bare
      exact .root up bare (mounts ▸ follow)
    | entry bare has =>
      rw [took.coverOf] at bare
      exact .entry bare ((took.hasEntry live).mp has)
  · intro leads
    induction leads with
    | dot dots => exact .dot dots
    | cover up covers _ ih =>
      have later := ih (well.covers _ covers)
      rw [← took.coverOf] at covers later
      exact .cover up covers later
    | root up bare follow =>
      rw [← took.coverOf] at bare
      exact .root up bare (mounts.symm ▸ follow)
    | entry bare has =>
      rw [← took.coverOf] at bare
      exact .entry bare ((took.hasEntry live).mpr has)

/-- A name leads somewhere from the mounts on a vnode from before as it did. -/
theorem leads (took : Took v v' extra) (well : v.WellMounted) {task : Task} {name : CString}
    (live : v.Live node) : v'.Leads task node name ↔ v.Leads task node name := by
  unfold Leads
  rw [show v'.mountOf = v.mountOf from funext took.mountOf]
  refine exists_congr fun steps => exists_congr fun top => and_congr_right fun follow => ?_
  exact took.leadsFrom well (well.live_top live follow)

end Took

/-! ## Results of path resolution -/

/-- The vnode found, if any, has the caller's reference, and those of a list are left besides. -/
def Leaves (v : Vfs) (result : Vfs × Nat × Int) (left : List Nat) : Prop :=
  Took v result.1 (if result.2.1 = 0 then left else result.2.1 :: left)

variable {fuel steps : Nat} {calloc : Allocator Vnode} {task : Task} {filename : CString}
  {status : Int} {result : Vfs × Nat × Int}

/-- References are taken on vnodes. -/
theorem Took.ne_zero (took : Took v v' extra) (taken : node ∈ extra) : node ≠ 0 := by
  obtain ⟨n, there⟩ := took.taken node taken
  exact took.cached.ne_zero there

/-- The caller's reference is on a vnode. -/
theorem Leaves.found {left : List Nat} (took : Took v result.1 (result.2.1 :: left)) :
    Leaves v result left := by
  rw [Leaves, if_neg (took.ne_zero List.mem_cons_self)]
  exact took

/-- References that were taken before are left besides. -/
theorem Leaves.after {left : List Nat} (took : Took v v' extra) (leaves : Leaves v' result left) :
    Leaves v result (left ++ extra) := by
  have both := took.trans leaves
  unfold Leaves
  split at both
  · rename_i null
    rwa [if_pos null]
  · rename_i found
    rwa [if_neg found]

/-- `iget` takes a reference on the vnode it returns. -/
theorem Took.iget (took : Took v v' extra) (calloc : Allocator Vnode) (sb ino : Nat) :
    let found := v'.iget exactWidth calloc sb ino
    if found.2 = 0 then Took v found.1 extra else Took v found.1 (found.2 :: extra) := by
  intro found
  have readable (other : Nat) (m : Vnode) (there : found.1.vnode.lookup other = some m)
      (before : v.vnode.lookup other = none) : v.Reads m.sb := by
    rcases iget_vnodes exactWidth calloc v' sb ino there with ⟨m', there', same⟩ | reads
    · rw [← same]
      exact took.readable other m' there' before
    · exact took.toSameSetup.reads reads
  rcases took.toExtends.iget (room_exact v (extra.length + 1)) (Nat.lt_succ_self _) calloc sb ino
    with ⟨none, _⟩ | ⟨nonnull, ext, _⟩
  · have null : found = (v', 0) := none
    rw [null, if_pos rfl]
    exact took
  · rw [if_neg nonnull]
    exact ⟨ext, took.toSameSetup.trans (iget_setup exactWidth calloc v' sb ino), readable⟩

/-- `resolve_mount` moves its reference to the last root. -/
theorem resolveMount_takes (well : v.WellMounted) (took : Took v v' (node :: extra))
    (limit : steps ≠ 0)
    (done : v'.resolveMount exactWidth fuel node status steps = some result) :
    ∃ count top, Follow v.mountOf count node top ∧ result.2 = (top, status) ∧
      Took v result.1 (top :: extra) := by
  induction fuel generalizing v' node with
  | zero => cases done
  | succ fuel ih =>
    rw [resolveMount, took.mountOf] at done
    by_cases mounted : v.mountOf node ≠ 0
    · rw [if_pos mounted, if_neg limit] at done
      have left := took.iput well (.inl (live_of_mountOf mounted))
      obtain ⟨count, top, follow, found, moved⟩ := ih (left.hold (left.live (well.mounts node mounted)))
        done
      exact ⟨count + 1, top, .step mounted follow, found, moved⟩
    · rw [if_neg mounted] at done
      cases done
      exact ⟨0, node, .last (not_not.mp mounted), rfl, took⟩

/-- The end of `getdentry` gives up the directory for its entry. -/
theorem lookupEntry_takes (well : v.WellMounted) (took : Took v v' [node]) (live : v.Live node)
    (done : v'.lookupEntry exactWidth calloc fuel task node filename = some result) :
    Leaves v result [] ∧ (result.2.1 ≠ 0 ↔ v.HasEntry task node filename) := by
  obtain ⟨n, there⟩ := live
  obtain ⟨n', there', sb, _, attributes, _⟩ := took.keeps there
  -- the vnode that the name is looked for in is this one
  have entry (has : v.HasEntry task node filename) : n.attributes.flags &&& 7 = fsDirectory ∧
      nodePermission task n.attributes xOk ≠ 0 ∧ ∃ lookup ino, n.attributes.lookup = some lookup ∧
        lookup filename = some ino ∧ v.CanGet n.sb ino := by
    obtain ⟨m, lookup, ino, found, directory, permitted, looks, finds, gets⟩ := has
    obtain rfl := Option.some.inj (there.symm.trans found)
    exact ⟨directory, permitted, lookup, ino, looks, finds, gets⟩
  have fails {error : Int} {v₁ : Vfs} (kept : Took v v₁ [node])
      (returned : some (v₁.iput node, 0, error) = some result)
      (none : ¬v.HasEntry task node filename) :
      Leaves v result [] ∧ (result.2.1 ≠ 0 ↔ v.HasEntry task node filename) := by
    cases returned
    exact ⟨kept.iput well (.inl ⟨n, there⟩), iff_of_false (not_not.mpr rfl) none⟩
  unfold lookupEntry at done
  rw [there', Option.map_some, Option.getD_some, attributes, Option.map_some, Option.getD_some,
    sb] at done
  dsimp only at done
  split at done
  · rename_i other
    exact fails took done fun has => other (entry has).1
  · rename_i directory
    split at done
    · rename_i denied
      exact fails took done fun has => (entry has).2.1 denied
    · rename_i permitted
      split at done
      · rename_i none
        refine fails took done fun has => ?_
        obtain ⟨lookup, _, looks, _⟩ := (entry has).2.2
        rw [none] at looks
        cases looks
      · rename_i lookup looks
        cases finds : lookup filename with
        | none =>
          rw [finds, lookupInode, if_pos rfl] at done
          refine fails took done fun has => ?_
          obtain ⟨lookup', ino, looks', finds', _⟩ := (entry has).2.2
          obtain rfl := Option.some.inj (looks.symm.trans looks')
          rw [finds] at finds'
          cases finds'
        | some ino =>
          rw [finds, lookupInode] at done
          have gets := took.iget calloc n.sb ino
          have null := iget_eq_null took.cached exactWidth calloc n.sb ino
          rw [took.canGet] at null
          dsimp only at gets
          split at done
          · rename_i absent
            rw [if_pos absent] at gets
            refine fails gets done fun has => ?_
            obtain ⟨lookup', ino', looks', finds', can⟩ := (entry has).2.2
            obtain rfl := Option.some.inj (looks.symm.trans looks')
            obtain rfl := Option.some.inj (finds.symm.trans finds')
            exact null.mpr can absent
          · rename_i present
            rw [if_neg present] at gets
            have moved := (gets.perm (List.Perm.swap node _ [])).iput well (.inl ⟨n, there⟩)
            obtain ⟨_, top, _, found, taken⟩ := resolveMount_takes well moved (by decide) done
            have top_eq : result.2.1 = top := congrArg Prod.fst found
            refine ⟨.found (top_eq ▸ taken), iff_of_true ?_ ?_⟩
            · rw [top_eq]
              exact taken.ne_zero List.mem_cons_self
            · exact ⟨n, lookup, ino, there, not_not.mp directory, permitted, looks, finds,
                null.mp present⟩

/-- `getdentry` takes a reference on the vnode the name leads to, if it leads anywhere. -/
theorem getdentry_takes {frommount : Bool} (well : v.WellMounted) (took : Took v v' [])
    (live : v.Live node) (root : v.Live task.root)
    (done : v'.getdentry exactWidth calloc task filename fuel node status frommount =
      some result) :
    Leaves v result [] ∧ (result.2.1 ≠ 0 ↔
      if frommount then v.LeadsFrom task filename node else v.Leads task node filename) := by
  induction fuel generalizing v' node status frommount with
  | zero => cases done
  | succ fuel ih =>
    rw [getdentry] at done
    obtain ⟨⟨v₁, top, status₁⟩, start, done⟩ := Option.bind_eq_some_iff.mp done
    -- what the name leads to is decided where the mounts on the vnode end
    have first : Took v v₁ [top] ∧ v.Live top ∧
        (v.LeadsFrom task filename top ↔
          if frommount then v.LeadsFrom task filename node else v.Leads task node filename) := by
      have held := took.hold (took.live live)
      cases frommount with
      | true =>
        cases start
        exact ⟨held, live, Iff.rfl⟩
      | false =>
        obtain ⟨count, top', follow, found, moved⟩ := resolveMount_takes well held (by decide) start
        obtain ⟨rfl, _⟩ := Prod.mk.inj found
        refine ⟨moved, well.live_top live follow, fun leads => ⟨count, top, follow, leads⟩, ?_⟩
        rintro ⟨count', top', follow', leads⟩
        rw [follow.unique follow']
        exact leads
    obtain ⟨taken, live₁, same⟩ := first
    rw [← same]
    dsimp only at done
    rw [if_neg (taken.ne_zero List.mem_cons_self)] at done
    by_cases here : nameiMatch filename dot = true
    · rw [if_pos here] at done
      cases done
      exact ⟨.found taken, iff_of_true (taken.ne_zero List.mem_cons_self) (.dot here)⟩
    · rw [if_neg here] at done
      by_cases up : nameiMatch filename dotdot = true
      · rw [if_pos up, taken.coverOf] at done
        by_cases covers : v.coverOf top ≠ 0
        · rw [if_pos covers] at done
          obtain ⟨leaves, leads⟩ := ih (taken.iput well (.inl live₁)) (well.covers top covers) done
          refine ⟨leaves, leads.trans ⟨.cover up covers, fun from_top => ?_⟩⟩
          cases from_top with
          | dot dots => exact absurd dots here
          | cover _ _ leads => exact leads
          | root _ bare _ => exact absurd bare covers
          | entry bare _ => exact absurd (bare up) covers
        · rw [if_neg covers] at done
          have bare := not_not.mp covers
          obtain ⟨⟨v₂, newnode, status₂⟩, resolved, done⟩ := Option.bind_eq_some_iff.mp done
          obtain ⟨count, top', follow, found, moved⟩ :=
            resolveMount_takes well (taken.hold (taken.live root)) (by decide) resolved
          obtain ⟨rfl, _⟩ := Prod.mk.inj found
          dsimp only at done
          have given := moved.iput well (.inl (well.live_top root follow))
          by_cases at_root : top = newnode
          · rw [if_pos at_root] at done
            cases done
            refine ⟨.found given, iff_of_true (given.ne_zero List.mem_cons_self) ?_⟩
            exact .root up bare (at_root ▸ follow)
          · rw [if_neg at_root] at done
            obtain ⟨leaves, leads⟩ := lookupEntry_takes well given live₁ done
            refine ⟨leaves, leads.trans ⟨.entry fun _ => bare, fun from_top => ?_⟩⟩
            cases from_top with
            | dot dots => exact absurd dots here
            | cover _ covered _ => exact absurd bare covered
            | root _ _ follow' => exact absurd (follow'.unique follow) at_root
            | entry _ has => exact has
      · rw [if_neg up] at done
        obtain ⟨leaves, leads⟩ := lookupEntry_takes well taken live₁ done
        refine ⟨leaves, leads.trans ⟨.entry fun dots => absurd dots up, fun from_top => ?_⟩⟩
        cases from_top with
        | dot dots => exact absurd dots here
        | cover dots _ _ => exact absurd dots up
        | root dots _ _ => exact absurd dots up
        | entry _ has => exact has

/-! ## Paths -/

/-- The name that `igetdir` looks up at a point of the path: `.` before a slash. -/
def nameAt (filename : CString) : CString :=
  if filename.head? = some slash then dot else filename

/-- Without a slash the loop of `igetdir` does nothing. -/
theorem walk_plain {path : CString} (plain : slash ∉ path) (width : Nat)
    (calloc : Allocator Vnode) (fuel : Nat) (task : Task) (v : Vfs) (node : Nat) (status : Int)
    (filename : CString) : v.walk width calloc fuel task node status filename path =
      some (v, node, filename, status) := by
  induction path with
  | nil => rfl
  | cons c rest ih =>
    obtain ⟨differ, plain⟩ := not_or.mp (List.mem_cons.not.mp plain)
    rw [walk, if_neg (Ne.symm differ), ih plain]

/-- The loop of `igetdir` ends with what follows the last slash. -/
theorem walk_splits {width last : Nat} {path basename : CString} {status' : Int}
    (some_slash : slash ∈ path) (nonnull : last ≠ 0)
    (done : v.walk width calloc fuel task node status filename path =
      some (v', last, basename, status')) :
    ∃ before, path = before ++ slash :: basename ∧ slash ∉ basename := by
  induction path generalizing v node status filename with
  | nil => cases some_slash
  | cons c rest ih =>
    rw [walk] at done
    by_cases separator : c = slash
    · rw [if_pos separator] at done
      obtain ⟨⟨v₁, node₁, status₁⟩, entered, done⟩ := Option.bind_eq_some_iff.mp done
      dsimp only at done
      split at done
      · cases done
        exact absurd rfl nonnull
      · by_cases more : slash ∈ rest
        · obtain ⟨before, rfl, plain⟩ := ih more done
          exact ⟨c :: before, rfl, plain⟩
        · rw [walk_plain more] at done
          cases done
          exact ⟨[], by rw [separator, List.nil_append], more⟩
    · rw [if_neg separator] at done
      obtain ⟨before, rfl, plain⟩ := ih
        ((List.mem_cons.mp some_slash).resolve_left (Ne.symm separator)) done
      exact ⟨c :: before, rfl, plain⟩

/-- What the loop of `igetdir` comes to: the first name leads nowhere, or the only directory is
entered, or directories are entered on the way and their references are left. -/
inductive Passage (v : Vfs) (task : Task) (node : Nat) (name path : CString) (last : Nat) :
    List Nat → Prop
  /-- Nothing is entered. -/
  | nowhere : ¬v.Leads task node name → last = 0 → Passage v task node name path last []
  /-- One directory is entered. -/
  | once : v.Leads task node name → last ≠ 0 → path.count slash = 1 →
      Passage v task node name path last []
  /-- Directories are entered on the way. -/
  | further {left : List Nat} : v.Leads task node name → 1 < path.count slash → left ≠ [] →
      Passage v task node name path last left

/-- The loop of `igetdir` leaves a reference on each directory it goes on from. -/
theorem walk_leaves {path basename : CString} {last : Nat} {status' : Int}
    (well : v.WellMounted) (live : v.Live node) (root : v.Live task.root)
    (some_slash : slash ∈ path)
    (done : v.walk exactWidth calloc fuel task node status filename path =
      some (v', last, basename, status')) :
    ∃ left, Leaves v (v', last, status') left ∧
      Passage v task node (nameAt filename) path last left := by
  induction path generalizing v node status filename with
  | nil => cases some_slash
  | cons c rest ih =>
    rw [walk] at done
    by_cases separator : c = slash
    · rw [if_pos separator] at done
      obtain ⟨⟨v₁, node₁, status₁⟩, entered, done⟩ := Option.bind_eq_some_iff.mp done
      obtain ⟨leaves, leads⟩ := getdentry_takes well (.refl well.cached) live root entered
      rw [if_neg Bool.false_ne_true] at leads
      have counts : (c :: rest).count slash = rest.count slash + 1 := by
        rw [separator, List.count_cons_self]
      dsimp only at done leads
      split at done
      · rename_i null
        cases done
        rw [null] at leaves leads
        exact ⟨[], leaves, .nowhere (fun leads' => leads.mpr leads' rfl) rfl⟩
      · rename_i nonnull
        have takes : Took v v₁ [node₁] := by
          rw [Leaves, if_neg nonnull] at leaves
          exact leaves
        by_cases more : slash ∈ rest
        · obtain ⟨left, leaves', _⟩ := ih (takes.wellMounted well)
            (takes.taken node₁ List.mem_cons_self) (takes.live root) more done
          refine ⟨left ++ [node₁], leaves'.after takes, .further (leads.mp nonnull) ?_ (by simp)⟩
          have positive := List.count_pos_iff.mpr more
          omega
        · rw [walk_plain more] at done
          cases done
          refine ⟨[], leaves, .once (leads.mp nonnull) nonnull ?_⟩
          rw [counts, List.count_eq_zero.mpr more]
    · rw [if_neg separator] at done
      have later := (List.mem_cons.mp some_slash).resolve_left (Ne.symm separator)
      obtain ⟨left, leaves, walked⟩ := ih well live root later done
      have counts : (c :: rest).count slash = rest.count slash := List.count_cons_of_ne separator
      refine ⟨left, leaves, ?_⟩
      cases walked with
      | nowhere stays null => exact .nowhere stays null
      | once leads nonnull one => exact .once leads nonnull (counts.trans one)
      | further leads many some_left => exact .further leads (by omega) some_left

/-- The path after the slash that it may start with. -/
def relativePath : CString → CString
  | [] => []
  | c :: rest => if c = slash then rest else c :: rest

/-- Path resolution leaves one reference more on the vnode it returns, if any, and all other
references as they were. -/
def ReferencesBalance (v : Vfs) (result : Vfs × Nat × Int) : Prop :=
  ∀ other, result.1.references other =
    v.references other + if result.2.1 ≠ 0 ∧ other = result.2.1 then 1 else 0

/-- The references balance when none is left. -/
theorem Leaves.balance_iff {left : List Nat} (leaves : Leaves v result left) :
    v.ReferencesBalance result ↔ left = [] := by
  have counts (other : Nat) : result.1.references other = v.references other +
      ((if result.2.1 ≠ 0 ∧ other = result.2.1 then 1 else 0) + left.count other) := by
    rw [Took.references leaves other]
    by_cases null : result.2.1 = 0
    · rw [if_pos null, if_neg (fun both => both.1 null), Nat.zero_add]
    · rw [if_neg null]
      by_cases here : other = result.2.1
      · rw [here, List.count_cons_self, if_pos ⟨null, rfl⟩, Nat.add_comm 1]
      · rw [List.count_cons_of_ne (Ne.symm here), if_neg (fun both => here both.2), Nat.zero_add]
  constructor
  · intro balance
    refine List.eq_nil_iff_forall_not_mem.mpr fun other member => ?_
    have same := (counts other).symm.trans (balance other)
    have positive := List.count_pos_iff.mpr member
    omega
  · rintro rfl other
    rw [counts, List.count_nil, Nat.add_zero]

/-- A path with two slashes has one that is followed by something. -/
theorem slash_mem_dropLast {path : CString} (many : 1 < path.count slash) :
    slash ∈ path.dropLast := by
  rcases List.eq_nil_or_concat path with rfl | ⟨before, c, rfl⟩
  · cases many
  · rw [List.concat_eq_append] at many ⊢
    rw [List.dropLast_concat]
    by_contra outside
    rw [List.count_append, List.count_eq_zero.mpr outside, Nat.zero_add] at many
    have few : [c].count slash ≤ 1 := List.count_le_length
    omega

/-- What a path leaves on the way, by where its slashes are. -/
theorem Passage.left_iff {name path : CString} {last : Nat} {left : List Nat}
    (passage : Passage v task node name path last left) :
    left = [] ↔ path.count slash ≤ 1 ∨ ¬v.Leads task node name := by
  cases passage with
  | nowhere stays _ => exact iff_of_true rfl (.inr stays)
  | once _ _ one => exact iff_of_true rfl (.inl (Nat.le_of_eq one))
  | further leads many some_left =>
    refine iff_of_false some_left ?_
    rintro (few | stays)
    · exact absurd few (Nat.not_le.mpr many)
    · exact stays leads

/-- The part of `namei` after `igetdir`, for a path with a slash. -/
theorem namei_rest_leaves {path basename : CString} {last : Nat} {status₁ : Int}
    (well : v.WellMounted) (live : v.Live node) (root : v.Live task.root)
    (some_slash : slash ∈ path)
    (walked : v.walk exactWidth calloc fuel task node status path path =
      some (v', last, basename, status₁))
    (done : (if last = 0 then some (v', 0, status₁)
      else if basename = [] then some (v', last, 0)
      else getdentry exactWidth calloc task basename fuel v' last 0 false) = some result) :
    ∃ left, Leaves v result left ∧
      (left = [] ↔ slash ∉ path.dropLast ∨ ¬v.Leads task node (nameAt path)) ∧
      (result.2.1 = 0 ∧ left = [] ↔ ¬v.Leads task node (nameAt path)) := by
  obtain ⟨left, leaves, passage⟩ := walk_leaves well live root some_slash walked
  by_cases null : last = 0
  · rw [if_pos null] at done
    cases done
    rw [null] at leaves
    refine ⟨left, leaves, ?_⟩
    cases passage with
    | nowhere stays _ => exact ⟨iff_of_true rfl (.inr stays), iff_of_true ⟨rfl, rfl⟩ stays⟩
    | once _ nonnull _ => exact absurd null nonnull
    | further leads many some_left =>
      refine ⟨iff_of_false some_left ?_, iff_of_false (fun both => some_left both.2)
        (not_not.mpr leads)⟩
      rintro (outside | stays)
      · exact outside (slash_mem_dropLast many)
      · exact stays leads
  · rw [if_neg null] at done
    have leads : v.Leads task node (nameAt path) := by
      cases passage with
      | nowhere _ none => exact absurd none null
      | once leads _ _ => exact leads
      | further leads _ _ => exact leads
    have ways := passage.left_iff
    obtain ⟨before, split_at, plain⟩ := walk_splits some_slash null walked
    have taken : Took v v' (last :: left) := by
      rw [Leaves, if_neg null] at leaves
      exact leaves
    rw [or_iff_left (not_not.mpr leads)] at ways ⊢
    by_cases ended : basename = []
    · rw [if_pos ended] at done
      cases done
      refine ⟨left, .found taken, ?_, iff_of_false (fun both => null both.1) (not_not.mpr leads)⟩
      rw [ways, split_at, ended, List.dropLast_concat, List.count_append, List.count_cons_self,
        List.count_nil, ← List.count_eq_zero]
      omega
    · rw [if_neg ended] at done
      obtain ⟨leaves', _⟩ := getdentry_takes (taken.wellMounted well) (.refl taken.cached)
        (taken.taken last List.mem_cons_self) (taken.live root) done
      have some_left : [] ++ last :: left ≠ [] := List.cons_ne_nil last left
      refine ⟨_, leaves'.after taken, iff_of_false some_left (not_not.mpr ?_),
        iff_of_false (fun both => some_left both.2) (not_not.mpr leads)⟩
      rw [split_at, List.dropLast_append_of_ne_nil (List.cons_ne_nil _ _),
        List.dropLast_cons_of_ne_nil ended]
      exact List.mem_append_right _ List.mem_cons_self

/-- Path resolution goes on from no directory: no slash of the path, after the first character,
is followed by anything, or the first name leads nowhere. -/
def Direct (v : Vfs) (task : Task) (filename : CString) : Prop :=
  slash ∉ (relativePath filename).dropLast ∨
    ¬v.Leads task (v.startOf task (filename.headD 0)) (nameAt (relativePath filename))

/-- The path is empty, or its first name leads nowhere. -/
def LeadsNowhere (v : Vfs) (task : Task) (filename : CString) : Prop :=
  filename = [] ∨ relativePath filename ≠ [] ∧
    ¬v.Leads task (v.startOf task (filename.headD 0)) (nameAt (relativePath filename))

/-- What `namei` leaves: nothing when it goes on from no directory, and in failing when the
path leads nowhere. -/
theorem namei_leaves (well : v.WellMounted) (root : v.Live task.root)
    (start : ∀ c, v.Live (v.startOf task c))
    (done : v.namei exactWidth calloc fuel task filename status = some result) :
    ∃ left, Leaves v result left ∧ (left = [] ↔ v.Direct task filename) ∧
      (result.2.1 = 0 ∧ left = [] ↔ v.LeadsNowhere task filename) := by
  cases filename with
  | nil =>
    cases done
    exact ⟨[], .refl well.cached, iff_of_true rfl (.inl List.not_mem_nil),
      iff_of_true ⟨rfl, rfl⟩ (.inl rfl)⟩
  | cons c rest =>
    rw [namei] at done
    rw [LeadsNowhere, or_iff_right (List.cons_ne_nil c rest)]
    change ∃ left, Leaves v result left ∧
      (left = [] ↔ slash ∉ (if c = slash then rest else c :: rest).dropLast ∨
        ¬v.Leads task (v.startOf task c) (nameAt (if c = slash then rest else c :: rest))) ∧
      (result.2.1 = 0 ∧ left = [] ↔ (if c = slash then rest else c :: rest) ≠ [] ∧
        ¬v.Leads task (v.startOf task c) (nameAt (if c = slash then rest else c :: rest)))
    generalize (if c = slash then rest else c :: rest) = path at done ⊢
    have live := start c
    generalize v.startOf task c = node at done live ⊢
    split at done
    · cases done
    · rename_i nonnull
      obtain ⟨⟨v₁, last, basename, status₁⟩, walked, done⟩ := Option.bind_eq_some_iff.mp done
      dsimp only at done
      rw [igetdir] at walked
      by_cases empty : path = []
      · rw [if_pos empty] at walked
        obtain ⟨⟨v₂, top, status₂⟩, resolved, walked⟩ := Option.bind_eq_some_iff.mp walked
        cases walked
        obtain ⟨count, top', _, found, taken⟩ := resolveMount_takes well
          ((Took.refl well.cached).hold live) (by decide) resolved
        obtain ⟨rfl, _⟩ := Prod.mk.inj found
        have nonnull := taken.ne_zero List.mem_cons_self
        rw [if_neg nonnull, if_pos rfl] at done
        cases done
        refine ⟨[], .found taken, iff_of_true rfl (.inl ?_),
          iff_of_false (fun both => nonnull both.1) fun both => both.1 empty⟩
        rw [empty]
        exact List.not_mem_nil
      · rw [if_neg empty] at walked
        rw [and_iff_right empty]
        by_cases some_slash : slash ∈ path
        · exact namei_rest_leaves well live root some_slash walked done
        · rw [walk_plain some_slash] at walked
          cases walked
          rw [if_neg nonnull, if_neg empty] at done
          obtain ⟨leaves, leads⟩ := getdentry_takes well (.refl well.cached) live root done
          rw [if_neg Bool.false_ne_true] at leads
          have first : nameAt path = path := by
            refine if_neg fun slash_first => some_slash ?_
            exact List.mem_of_mem_head? slash_first
          refine ⟨[], leaves, iff_of_true rfl
            (.inl fun inside => some_slash (List.mem_of_mem_dropLast inside)), ?_⟩
          rw [first, ← leads, and_iff_left rfl, not_not]

end Vfs

/-- Path resolution keeps the references balanced exactly when it goes on from no directory.
Every directory that it goes on from keeps a reference. -/
theorem namei_balances_iff {v : Vfs} {task : Task} {calloc : Allocator Vnode} {fuel : Nat}
    {filename : CString} {status : Int} {result : Vfs × Nat × Int} (well : v.WellMounted)
    (root : v.Live task.root) (start : ∀ c, v.Live (v.startOf task c))
    (done : v.namei exactWidth calloc fuel task filename status = some result) :
    v.ReferencesBalance result ↔ v.Direct task filename := by
  obtain ⟨left, leaves, direct, _⟩ := Vfs.namei_leaves well root start done
  rw [leaves.balance_iff, direct]

/-! One directory, mounted as the root. -/

namespace MountTower

/-- The superuser in the root directory. -/
def superuser : Task := { root := 1, pwd := 1 }

/-- A tower is a mount configuration. -/
theorem tower_wellMounted (top : Nat) : (tower top).WellMounted := by
  refine ⟨tower_cached top, fun i n there => ?_, tower_mountsLive top, fun i covers => ?_⟩
  · obtain ⟨_, rfl⟩ := tower_live there
    exact Nat.succ_pos 1
  · obtain ⟨n, there⟩ := Vfs.live_of_coverOf covers
    obtain ⟨inside, rfl⟩ := tower_live there
    have cover : (tower top).coverOf i = i - 1 := by
      rw [Vfs.coverOf, there]
      rfl
    rw [cover] at covers ⊢
    exact ⟨_, (roots_lookup top top (i - 1)).trans (if_pos (by omega))⟩

/-- The root directory is there. -/
theorem tower_root : (tower 1).Live 1 := ⟨root 1 1, (roots_lookup 1 1 1).trans (if_pos (by decide))⟩

/-- Paths start at the root directory. -/
theorem tower_start (c : UInt8) : (tower 1).Live ((tower 1).startOf superuser c) := by
  have same : (tower 1).startOf superuser c = 1 := by
    unfold Vfs.startOf
    split <;> rfl
  rw [same]
  exact tower_root

/-- `namei` of a path in the root directory. -/
def resolve (filename : CString) : Option (Vfs × Nat × Int) :=
  (tower 1).namei exactWidth (Allocator.above Vnode) 2 superuser filename 0

end MountTower

open MountTower in
/-- The path `.` leaves one reference on the root directory. -/
theorem namei_balances_dot : ∃ result, resolve dot = some result ∧
    (tower 1).ReferencesBalance result := by
  obtain ⟨result, done⟩ : ∃ result, resolve dot = some result :=
    Option.isSome_iff_exists.mp (by decide)
  exact ⟨result, done, (namei_balances_iff (tower_wellMounted 1) tower_root tower_start done).mpr
    (.inl (by decide))⟩

open MountTower in
/-- References do not always balance: the path `./.` leaves two references on the root
directory. -/
theorem namei_balances_not :
    ¬ ∀ (v : Vfs) (task : Task) (calloc : Allocator Vnode) (fuel : Nat) (filename : CString)
      (status : Int) (result : Vfs × Nat × Int), v.WellMounted → v.Live task.root →
      (∀ c, v.Live (v.startOf task c)) →
      v.namei exactWidth calloc fuel task filename status = some result →
      v.ReferencesBalance result := by
  intro balances
  have returned : (resolve [46, 47, 46]).map (fun result => (result.1.references 1, result.2.1)) =
      some (4, 1) := by decide
  obtain ⟨result, done, two⟩ := Option.map_eq_some_iff.mp returned
  obtain ⟨four, found⟩ := Prod.mk.inj two
  have three := balances _ _ _ _ _ _ result (tower_wellMounted 1) tower_root tower_start done 1
  have before : (tower 1).references 1 = 2 := by decide
  rw [four, before, if_pos ⟨by rw [found]; decide, found.symm⟩] at three
  cases three

end Nupkux
