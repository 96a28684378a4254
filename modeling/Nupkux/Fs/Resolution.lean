import Nupkux.Fs.Confinement

/-!
# What a path denotes

The meaning of a path, apart from vnodes, reference counts and the order in which pointers are
followed: a name denotes a place or an error from a place, and a path denotes what its names denote
one after another. `namei` returns a vnode at the place that the path denotes, or its error.
-/

namespace Nupkux

namespace Vfs

/-- How the lookup of a name in a place ends: where the mounts on the entry lead, or an error. -/
inductive Opens (v : Vfs) (task : Task) (name : CString) (place : Place) : Except Int Place → Prop
  /-- The place is no directory. -/
  | notDirectory : (v.inode place.1 place.2).flags &&& 7 ≠ fsDirectory →
      Opens v task name place (.error (-ENOTDIR))
  /-- The task may not search the directory. -/
  | denied : (v.inode place.1 place.2).flags &&& 7 = fsDirectory →
      nodePermission task (v.inode place.1 place.2) xOk = 0 →
      Opens v task name place (.error (-EACCES))
  /-- The directory has no function for it. -/
  | without : (v.inode place.1 place.2).flags &&& 7 = fsDirectory →
      nodePermission task (v.inode place.1 place.2) xOk ≠ 0 →
      (v.inode place.1 place.2).lookup = none → Opens v task name place (.error (-EGENERIC))
  /-- There is no entry, or its inode cannot be read. -/
  | absent {lookup : CString → Option Nat} : (v.inode place.1 place.2).flags &&& 7 = fsDirectory →
      nodePermission task (v.inode place.1 place.2) xOk ≠ 0 →
      (v.inode place.1 place.2).lookup = some lookup →
      (∀ ino, lookup name = some ino → ¬v.CanGet place.1 ino) →
      Opens v task name place (.error (-ENOENT))
  /-- There is an entry. -/
  | entry {lookup : CString → Option Nat} {ino : Nat} {place' : Place} :
      (v.inode place.1 place.2).flags &&& 7 = fsDirectory →
      nodePermission task (v.inode place.1 place.2) xOk ≠ 0 →
      (v.inode place.1 place.2).lookup = some lookup → lookup name = some ino →
      v.CanGet place.1 ino → v.Arrives (place.1, ino) place' → Opens v task name place (.ok place')

/-- A place covers another one: it is the root directory of what is mounted there. -/
def Covers (v : Vfs) (place under : Place) : Prop :=
  ∃ node, v.At node place ∧ v.coverOf node ≠ 0 ∧ v.At (v.coverOf node) under

/-- What a name denotes from a place that mounts lead to, for a task whose root is at `root`. -/
inductive Denotes (v : Vfs) (task : Task) (root : Place) (name : CString) :
    Place → Except Int Place → Prop
  /-- `.` is the place itself. -/
  | dot {place : Place} : nameiMatch name dot → Denotes v task root name place (.ok place)
  /-- `..` leads through what the place covers. -/
  | cover {place under : Place} {r : Except Int Place} : ¬nameiMatch name dot →
      nameiMatch name dotdot → v.Covers place under → Denotes v task root name under r →
      Denotes v task root name place r
  /-- `..` stays in the root of the task. -/
  | root : ¬nameiMatch name dot → nameiMatch name dotdot → (∀ under, ¬v.Covers root under) →
      Denotes v task root name root (.ok root)
  /-- `..` of another directory is looked up. -/
  | parent {place : Place} {r : Except Int Place} : ¬nameiMatch name dot →
      nameiMatch name dotdot → (∀ under, ¬v.Covers place under) → place ≠ root →
      v.Opens task name place r → Denotes v task root name place r
  /-- Other names are looked up. -/
  | entry {place : Place} {r : Except Int Place} : ¬nameiMatch name dot →
      ¬nameiMatch name dotdot → v.Opens task name place r → Denotes v task root name place r

/-- What names denote, one after another. -/
inductive DenotesAll (v : Vfs) (task : Task) (root : Place) :
    List CString → Place → Except Int Place → Prop
  /-- No name is left. -/
  | nil {place : Place} : DenotesAll v task root [] place (.ok place)
  /-- A name denotes an error. -/
  | fails {name : CString} {names : List CString} {place : Place} {error : Int} :
      Denotes v task root name place (.error error) →
      DenotesAll v task root (name :: names) place (.error error)
  /-- A name denotes a place. -/
  | cons {name : CString} {names : List CString} {place place' : Place} {r : Except Int Place} :
      Denotes v task root name place (.ok place') → DenotesAll v task root names place' r →
      DenotesAll v task root (name :: names) place r

/-- The names of a path, from a point on: `filename` is the path from the last slash before it. A
name goes on with the rest of the path. -/
def namesFrom (filename : CString) : CString → List CString
  | [] => if filename = [] then [] else [filename]
  | c :: rest =>
    if c = slash then nameAt filename :: namesFrom rest rest else namesFrom filename rest

/-- The names of a path. -/
def namesOf (path : CString) : List CString := namesFrom (relativePath path) (relativePath path)

variable {v v' : Vfs} {h : Hierarchy v.inode} {extra : List Nat} {node : Nat}
  {place place' root under : Place} {task : Task} {name : CString} {names : List CString}
  {r r' : Except Int Place}

/-! ## A name denotes one thing -/

/-- A lookup has one end. -/
theorem Opens.unique (cached : v.Cached) (first : v.Opens task name place r)
    (second : v.Opens task name place r') : r = r' := by
  cases first with
  | notDirectory other =>
    cases second with
    | notDirectory => rfl
    | denied directory => exact absurd directory other
    | without directory => exact absurd directory other
    | absent directory => exact absurd directory other
    | entry directory => exact absurd directory other
  | denied directory closed =>
    cases second with
    | notDirectory other => exact absurd directory other
    | denied => rfl
    | without _ open_ => exact absurd closed open_
    | absent _ open_ => exact absurd closed open_
    | entry _ open_ => exact absurd closed open_
  | without directory open_ none =>
    cases second with
    | notDirectory other => exact absurd directory other
    | denied _ closed => exact absurd closed open_
    | without => rfl
    | absent _ _ looks => cases none.symm.trans looks
    | entry _ _ looks => cases none.symm.trans looks
  | absent directory open_ looks missing =>
    cases second with
    | notDirectory other => exact absurd directory other
    | denied _ closed => exact absurd closed open_
    | without _ _ none => cases none.symm.trans looks
    | absent => rfl
    | entry _ _ looks' finds gets =>
      obtain rfl := Option.some.inj (looks.symm.trans looks')
      exact absurd gets (missing _ finds)
  | entry directory open_ looks finds gets arrives =>
    cases second with
    | notDirectory other => exact absurd directory other
    | denied _ closed => exact absurd closed open_
    | without _ _ none => cases none.symm.trans looks
    | absent _ _ looks' missing =>
      obtain rfl := Option.some.inj (looks.symm.trans looks')
      exact absurd gets (missing _ finds)
    | entry _ _ looks' finds' _ arrives' =>
      obtain rfl := Option.some.inj (looks.symm.trans looks')
      obtain rfl := Option.some.inj (finds.symm.trans finds')
      rw [arrives.unique cached arrives']

/-- A place covers one place at most. -/
theorem Covers.unique (cached : v.Cached) (first : v.Covers place under)
    (second : v.Covers place place') : under = place' := by
  obtain ⟨node, here, _, there⟩ := first
  obtain ⟨node', here', _, there'⟩ := second
  obtain rfl := cached.at_unique here here'
  exact there.unique there'

/-- A name denotes one place or one error. -/
theorem Denotes.unique (cached : v.Cached) (first : v.Denotes task root name place r)
    (second : v.Denotes task root name place r') : r = r' := by
  induction first with
  | dot same =>
    cases second with
    | dot => rfl
    | cover other => exact absurd same other
    | root other => exact absurd same other
    | parent other => exact absurd same other
    | entry other => exact absurd same other
  | cover other upwards covers _ ih =>
    cases second with
    | dot same => exact absurd same other
    | cover _ _ covers' below =>
      obtain rfl := covers.unique cached covers'
      exact ih below
    | root _ _ bare => exact absurd covers (bare _)
    | parent _ _ bare => exact absurd covers (bare _)
    | entry _ down => exact absurd upwards down
  | root other upwards bare =>
    cases second with
    | dot same => exact absurd same other
    | cover _ _ covers => exact absurd covers (bare _)
    | root => rfl
    | parent _ _ _ apart => exact absurd rfl apart
    | entry _ down => exact absurd upwards down
  | parent other upwards bare apart opens =>
    cases second with
    | dot same => exact absurd same other
    | cover _ _ covers => exact absurd covers (bare _)
    | root => exact absurd rfl apart
    | parent _ _ _ _ opens' => exact opens.unique cached opens'
    | entry _ down => exact absurd upwards down
  | entry other down opens =>
    cases second with
    | dot same => exact absurd same other
    | cover _ upwards => exact absurd upwards down
    | root _ upwards => exact absurd upwards down
    | parent _ upwards => exact absurd upwards down
    | entry _ _ opens' => exact opens.unique cached opens'

/-- A path denotes one place or one error. -/
theorem DenotesAll.unique (cached : v.Cached) (first : v.DenotesAll task root names place r)
    (second : v.DenotesAll task root names place r') : r = r' := by
  induction first with
  | nil =>
    cases second
    rfl
  | fails error =>
    cases second with
    | fails error' => exact error.unique cached error'
    | cons found => cases error.unique cached found
  | cons found _ ih =>
    cases second with
    | fails error => cases found.unique cached error
    | cons found' rest =>
      obtain rfl := Except.ok.inj (found.unique cached found')
      exact ih rest

/-! ## References that are taken change no meaning -/

namespace Took

/-- What a place covers stays. -/
theorem covers_iff (took : Took v v' extra) (tree : v.MountTree h) :
    v'.Covers place under ↔ v.Covers place under := by
  constructor
  · rintro ⟨node, here, covers, there⟩
    rw [took.coverOf] at covers there
    obtain ⟨n, live⟩ := live_of_coverOf covers
    obtain ⟨m, live'⟩ := tree.live_cover covers
    have at_node := (took.at_of ⟨n, live, rfl⟩).unique here
    have at_cover := (took.at_of ⟨m, live', rfl⟩).unique there
    exact ⟨node, ⟨n, live, at_node⟩, covers, m, live', at_cover⟩
  · rintro ⟨node, here, covers, there⟩
    refine ⟨node, took.at_of here, ?_, ?_⟩
    · rwa [took.coverOf]
    · rw [took.coverOf]
      exact took.at_of there

/-- How a lookup ends stays. -/
theorem opens_iff (took : Took v v' extra) (tree : v.MountTree h) :
    v'.Opens task name place r ↔ v.Opens task name place r := by
  have same := took.inode
  constructor
  · intro opens
    cases opens with
    | notDirectory other => exact .notDirectory (same ▸ other)
    | denied directory closed => exact .denied (same ▸ directory) (same ▸ closed)
    | without directory open_ none => exact .without (same ▸ directory) (same ▸ open_) (same ▸ none)
    | absent directory open_ looks missing =>
      exact .absent (same ▸ directory) (same ▸ open_) (same ▸ looks) fun ino finds gets =>
        missing ino finds ((took.canGet _ _).mpr gets)
    | entry directory open_ looks finds gets arrives =>
      exact .entry (same ▸ directory) (same ▸ open_) (same ▸ looks) finds
        ((took.canGet _ _).mp gets) ((took.arrives_iff tree).mp arrives)
  · intro opens
    cases opens with
    | notDirectory other => exact .notDirectory (same ▸ other)
    | denied directory closed => exact .denied (same ▸ directory) (same ▸ closed)
    | without directory open_ none => exact .without (same ▸ directory) (same ▸ open_) (same ▸ none)
    | absent directory open_ looks missing =>
      exact .absent (same ▸ directory) (same ▸ open_) (same ▸ looks) fun ino finds gets =>
        missing ino finds ((took.canGet _ _).mp gets)
    | entry directory open_ looks finds gets arrives =>
      exact .entry (same ▸ directory) (same ▸ open_) (same ▸ looks) finds
        ((took.canGet _ _).mpr gets) ((took.arrives_iff tree).mpr arrives)

/-- What a name denotes stays. -/
theorem denotes_iff (took : Took v v' extra) (tree : v.MountTree h) :
    v'.Denotes task root name place r ↔ v.Denotes task root name place r := by
  have covers {place under : Place} : v'.Covers place under ↔ v.Covers place under :=
    took.covers_iff tree
  constructor
  · intro denotes
    induction denotes with
    | dot same => exact .dot same
    | cover other up above _ ih => exact .cover other up (covers.mp above) ih
    | root other up bare => exact .root other up fun _ above => bare _ (covers.mpr above)
    | parent other up bare apart opens =>
      exact .parent other up (fun _ above => bare _ (covers.mpr above)) apart
        ((took.opens_iff tree).mp opens)
    | entry other down opens => exact .entry other down ((took.opens_iff tree).mp opens)
  · intro denotes
    induction denotes with
    | dot same => exact .dot same
    | cover other up above _ ih => exact .cover other up (covers.mpr above) ih
    | root other up bare => exact .root other up fun _ above => bare _ (covers.mp above)
    | parent other up bare apart opens =>
      exact .parent other up (fun _ above => bare _ (covers.mp above)) apart
        ((took.opens_iff tree).mpr opens)
    | entry other down opens => exact .entry other down ((took.opens_iff tree).mpr opens)

/-- What names denote stays. -/
theorem denotesAll_iff (took : Took v v' extra) (tree : v.MountTree h) :
    v'.DenotesAll task root names place r ↔ v.DenotesAll task root names place r := by
  constructor
  · intro all
    induction all with
    | nil => exact .nil
    | fails error => exact .fails ((took.denotes_iff tree).mp error)
    | cons found _ ih => exact .cons ((took.denotes_iff tree).mp found) ih
  · intro all
    induction all with
    | nil => exact .nil
    | fails error => exact .fails ((took.denotes_iff tree).mpr error)
    | cons found _ ih => exact .cons ((took.denotes_iff tree).mpr found) ih

end Took

/-! ## Names -/

/-- The answer of path resolution: a vnode at a place with a status, or an error. -/
def Gives (result : Vfs × Nat × Int) (status : Int) : Except Int Place → Prop
  | .ok place => result.1.At result.2.1 place ∧ result.2.2 = status
  | .error error => result.2.1 = 0 ∧ result.2.2 = error

variable {fuel : Nat} {calloc : Allocator Vnode} {filename : CString} {status : Int}
  {result : Vfs × Nat × Int}

/-- The end of `getdentry` answers what the lookup ends with. -/
theorem lookupEntry_opens (tree : v.MountTree h) (took : Took v v' [node]) {n : Vnode}
    (live : v.vnode.lookup node = some n)
    (done : v'.lookupEntry exactWidth calloc fuel task node filename = some result) :
    ∃ r, v.Opens task filename (n.sb, n.ino) r ∧ Gives result 0 r := by
  obtain ⟨n', there', sb, _, attributes, _⟩ := took.keeps live
  have filled := tree.filled node n live
  unfold lookupEntry at done
  rw [there', Option.map_some, Option.getD_some, attributes, Option.map_some, Option.getD_some,
    sb, filled] at done
  dsimp only at done
  split at done
  · rename_i other
    cases done
    exact ⟨_, .notDirectory other, rfl, rfl⟩
  · rename_i directory
    rw [not_not] at directory
    split at done
    · rename_i closed
      cases done
      exact ⟨_, .denied directory closed, rfl, rfl⟩
    · rename_i open_
      split at done
      · rename_i none
        cases done
        exact ⟨_, .without directory open_ none, rfl, rfl⟩
      · rename_i lookup looks
        cases finds : lookup filename with
        | none =>
          rw [finds, lookupInode, if_pos rfl] at done
          cases done
          refine ⟨_, .absent directory open_ looks fun ino found => ?_, rfl, rfl⟩
          cases finds.symm.trans found
        | some ino =>
          rw [finds, lookupInode] at done
          have gets := took.iget calloc n.sb ino
          have here := iget_at took.cached exactWidth calloc n.sb ino
          have present_iff := (iget_eq_null took.cached exactWidth calloc n.sb ino).trans
            (took.canGet n.sb ino)
          dsimp only at gets
          split at done
          · rename_i null
            cases done
            refine ⟨_, .absent directory open_ looks fun other found => ?_, rfl, rfl⟩
            obtain rfl := Option.some.inj (finds.symm.trans found)
            exact fun can => present_iff.mpr can null
          · rename_i present
            rw [if_neg present] at gets
            -- the directory is given up for its entry, which stays at its place
            have moved := (gets.perm (List.Perm.swap node _ [])).iput tree.wellMounted
              (.inl ⟨n, live⟩)
            obtain ⟨m, there⟩ := moved.taken _ List.mem_cons_self
            have entered := (iput_at gets.cached ⟨m, there, rfl⟩).unique (here present)
            obtain ⟨_, top, follow, found, taken⟩ :=
              resolveMount_takes tree.wellMounted moved (by decide) done
            obtain ⟨place', there', arrives⟩ := moved.arrives tree ⟨m, there, entered⟩ follow
            obtain ⟨l, last⟩ := taken.taken _ List.mem_cons_self
            have arrived := (resolveMount_at moved.cached done ⟨l, last, rfl⟩).unique there'
            obtain ⟨top_eq, status_eq⟩ := Prod.mk.inj found
            refine ⟨_, .entry directory open_ looks finds (present_iff.mp present) arrives, ?_,
              status_eq⟩
            rw [top_eq]
            exact ⟨l, last, arrived⟩

/-- The mounts on a vnode lead to a place. -/
def Resolves (v : Vfs) (node : Nat) (place : Place) : Prop :=
  ∃ steps top, Follow v.mountOf steps node top ∧ v.At top place

/-- What the mounts on a vnode lead to stays. -/
theorem Resolves.took (resolves : v.Resolves node place) (took : Took v v' extra) :
    v'.Resolves node place := by
  obtain ⟨steps, top, follow, here⟩ := resolves
  refine ⟨steps, top, ?_, took.at_of here⟩
  rwa [show v'.mountOf = v.mountOf from funext took.mountOf]

/-- A vnode from which mounts lead somewhere is there. -/
theorem Resolves.live (resolves : v.Resolves node place) : v.Live node := by
  obtain ⟨steps, top, follow, n, live, _⟩ := resolves
  cases follow with
  | last _ => exact ⟨n, live⟩
  | step mounted _ => exact live_of_mountOf mounted

/-- `getdentry` answers what the name denotes: from where the mounts on the vnode lead, or from the
vnode itself on the way up through a mount. -/
theorem getdentry_denotes (frommount : Bool) (tree : v.MountTree h)
    (rooted : v.Resolves task.root root) (took : Took v v' [])
    (begins : if frommount then v.At node place else v.Resolves node place)
    (upwards : frommount = true → ¬nameiMatch filename dot ∧ nameiMatch filename dotdot)
    (done : v'.getdentry exactWidth calloc task filename fuel node status frommount =
      some result) : ∃ r, v.Denotes task root filename place r ∧
        (Gives result status r ∨ Gives result 0 r) := by
  have well := tree.wellMounted
  induction fuel generalizing v' node place status frommount with
  | zero => cases done
  | succ fuel ih =>
    rw [getdentry] at done
    obtain ⟨⟨v₁, top, status₁⟩, first, done⟩ := Option.bind_eq_some_iff.mp done
    -- the vnode that the name is looked up in
    have entered : Took v v₁ [top] ∧ v.At top place ∧ status₁ = status := by
      cases frommount with
      | true =>
        have here : v.At node place := begins
        obtain ⟨n, live, _⟩ := here
        cases first
        exact ⟨took.hold (took.live ⟨n, live⟩), begins, rfl⟩
      | false =>
        have resolves : v.Resolves node place := begins
        have live := resolves.live
        obtain ⟨_, last, follow', there⟩ := resolves
        obtain ⟨count, top', follow, found, moved⟩ :=
          resolveMount_takes well (took.hold (took.live live)) (by decide) first
        obtain ⟨rfl, same⟩ := Prod.mk.inj found
        obtain rfl := follow.unique follow'
        exact ⟨moved, there, same⟩
    obtain ⟨taken, ⟨n, live, here⟩, same_status⟩ := entered
    rw [← same_status, ← here]
    dsimp only at done
    rw [if_neg (taken.ne_zero List.mem_cons_self)] at done
    by_cases same : nameiMatch filename dot = true
    · rw [if_pos same] at done
      cases done
      exact ⟨_, .dot same, .inl ⟨taken.at_of ⟨n, live, rfl⟩, rfl⟩⟩
    · rw [if_neg same] at done
      by_cases up : nameiMatch filename dotdot = true
      · rw [if_pos up, taken.coverOf] at done
        by_cases covers : v.coverOf top ≠ 0
        · rw [if_pos covers] at done
          obtain ⟨m, above⟩ := tree.live_cover covers
          have covered : v.Covers (n.sb, n.ino) (m.sb, m.ino) :=
            ⟨top, ⟨n, live, rfl⟩, covers, m, above, rfl⟩
          have at_cover : if true then v.At (v.coverOf top) (m.sb, m.ino)
              else v.Resolves (v.coverOf top) (m.sb, m.ino) := ⟨m, above, rfl⟩
          obtain ⟨r, denotes, gives⟩ := ih true (taken.iput well (.inl ⟨n, live⟩)) at_cover
            (fun _ => ⟨same, up⟩) done
          exact ⟨r, .cover same up covered denotes, gives⟩
        · rw [if_neg covers] at done
          have bare (under : Place) : ¬v.Covers (n.sb, n.ino) under := by
            rintro ⟨other, there, some_cover, _⟩
            obtain rfl := tree.cached.at_unique there ⟨n, live, rfl⟩
            exact covers some_cover
          obtain ⟨⟨v₂, newnode, status₂⟩, resolved, done⟩ := Option.bind_eq_some_iff.mp done
          obtain ⟨count, root', follow, found, moved⟩ := resolveMount_takes well
            (taken.hold (taken.live (Resolves.live rooted))) (by decide) resolved
          obtain ⟨rfl, status_eq⟩ := Prod.mk.inj found
          obtain ⟨_, last, follow', at_last⟩ := rooted
          obtain rfl := follow.unique follow'
          have given := moved.iput well (.inl (at_last.imp fun _ there => there.1))
          dsimp only at done status_eq
          by_cases at_root : top = newnode
          · rw [if_pos at_root] at done
            cases done
            have there : v.At newnode (n.sb, n.ino) := at_root ▸ ⟨n, live, rfl⟩
            obtain rfl := there.unique at_last
            exact ⟨_, .root same up bare, .inl ⟨given.at_of ⟨n, live, rfl⟩, status_eq⟩⟩
          · rw [if_neg at_root] at done
            obtain ⟨r, opens, gives⟩ := lookupEntry_opens tree given live done
            refine ⟨r, .parent same up bare (fun equal => at_root ?_) opens, .inr gives⟩
            exact tree.cached.at_unique (equal ▸ ⟨n, live, rfl⟩) at_last
      · rw [if_neg up] at done
        obtain ⟨r, opens, gives⟩ := lookupEntry_opens tree taken live done
        exact ⟨r, .entry same up opens, .inr gives⟩

/-! ## Paths -/

/-- What a path denotes for a task. -/
inductive PathDenotes (v : Vfs) (task : Task) : CString → Except Int Place → Prop
  /-- The empty path denotes nothing. -/
  | empty : PathDenotes v task [] (.error (-ENOENT))
  /-- Other paths lead from the root of the task or from its working directory. -/
  | path {c : UInt8} {rest : CString} {start root : Place} {r : Except Int Place} :
      v.Resolves (v.startOf task c) start → v.Resolves task.root root →
      v.DenotesAll task root (namesOf (c :: rest)) start r → PathDenotes v task (c :: rest) r

/-- Mounts lead to one place. -/
theorem Resolves.unique (first : v.Resolves node place) (second : v.Resolves node place') :
    place = place' := by
  obtain ⟨_, top, follow, here⟩ := first
  obtain ⟨_, top', follow', here'⟩ := second
  obtain rfl := follow.unique follow'
  exact here.unique here'

/-- A path denotes one place or one error. -/
theorem PathDenotes.unique {path : CString} (cached : v.Cached) (first : v.PathDenotes task path r)
    (second : v.PathDenotes task path r') : r = r' := by
  cases first with
  | empty =>
    cases second
    rfl
  | path start rooted all =>
    cases second with
    | path start' rooted' all' =>
      obtain rfl := start.unique start'
      obtain rfl := rooted.unique rooted'
      exact all.unique cached all'

/-- Nothing is mounted at a place. -/
def Bare (v : Vfs) (place : Place) : Prop := ∀ node, v.At node place → v.mountOf node = 0

/-- Nothing is mounted where mounts lead. -/
theorem Resolves.bare (cached : v.Cached) (resolves : v.Resolves node place) : v.Bare place := by
  obtain ⟨_, top, follow, here⟩ := resolves
  intro other there
  rw [cached.at_unique there here]
  exact follow.ends

/-- Nothing is mounted on what a name denotes. -/
theorem Denotes.bare (cached : v.Cached) (rooted : v.Bare root)
    (begins : nameiMatch name Nupkux.dot → v.Bare place) (denotes : v.Denotes task root name place r)
    (found : r = .ok place') : v.Bare place' := by
  have opened {place : Place} {r : Except Int Place} (opens : v.Opens task name place r)
      (found : r = .ok place') : v.Bare place' := by
    cases opens with
    | entry _ _ _ _ _ arrives =>
      cases found
      exact fun _ here => arrives.resolved cached here
    | _ => cases found
  induction denotes with
  | dot same =>
    cases found
    exact begins same
  | cover other _ _ _ ih => exact ih (fun same => absurd same other) found
  | root _ _ _ =>
    cases found
    exact rooted
  | parent _ _ _ _ opens => exact opened opens found
  | entry _ _ opens => exact opened opens found

/-- A vnode on which nothing is mounted resolves to its own place. -/
theorem Bare.resolves (bare : v.Bare place) (here : v.At node place) : v.Resolves node place :=
  ⟨0, node, .last (bare node here), here⟩

/-- An answer without a vnode is an error. -/
theorem Gives.error {result : Vfs × Nat × Int} {status : Int} (cached : result.1.Cached)
    (null : result.2.1 = 0) (gives : Gives result status r) : r = .error result.2.2 := by
  cases r with
  | error error => exact congrArg Except.error gives.2.symm
  | ok place =>
    obtain ⟨⟨n, live, _⟩, _⟩ := gives
    exact absurd null (cached.ne_zero live)

/-- An answer with a vnode is its place. -/
theorem Gives.found {result : Vfs × Nat × Int} {status : Int} (nonnull : result.2.1 ≠ 0)
    (gives : Gives result status r) : ∃ place, r = .ok place ∧ result.1.At result.2.1 place := by
  cases r with
  | error error => exact absurd gives.1 nonnull
  | ok place => exact ⟨place, rfl, gives.1⟩

/-- The loop of `igetdir` comes to a directory from which the last name goes on, or to the error of
a name. -/
theorem walk_denotes {path basename : CString} {last : Nat} {status' : Int} (tree : v.MountTree h)
    (rooted : v.Resolves task.root root) (begins : v.Resolves node place)
    (done : v.walk exactWidth calloc fuel task node status filename path =
      some (v', last, basename, status')) :
    (last = 0 ∧ v.DenotesAll task root (namesFrom filename path) place (.error status')) ∨
      (last ≠ 0 ∧ ∃ extra place', Took v v' extra ∧ v'.Resolves last place' ∧
        (slash ∈ path → v'.At last place') ∧
        ∀ r, v.DenotesAll task root (namesFrom basename []) place' r →
          v.DenotesAll task root (namesFrom filename path) place r) := by
  induction path generalizing v node place status filename with
  | nil =>
    cases done
    obtain ⟨n, live⟩ := begins.live
    exact .inr ⟨tree.cached.ne_zero live, [], place, .refl tree.cached, begins,
      fun member => absurd member List.not_mem_nil, fun _ all => all⟩
  | cons c rest ih =>
    have names : namesFrom filename (c :: rest) =
      if c = slash then nameAt filename :: namesFrom rest rest else namesFrom filename rest := rfl
    rw [walk] at done
    rw [names]
    by_cases separator : c = slash
    · rw [if_pos separator] at done ⊢
      obtain ⟨⟨v₁, node₁, status₁⟩, entered, done⟩ := Option.bind_eq_some_iff.mp done
      obtain ⟨r, denotes, gives⟩ := getdentry_denotes false tree rooted
        (.refl tree.cached) begins (fun other => absurd other Bool.false_ne_true) entered
      obtain ⟨leaves, _⟩ := getdentry_takes tree.wellMounted (.refl tree.cached) begins.live
        rooted.live entered
      dsimp only at done
      by_cases null : node₁ = 0
      · rw [if_pos null] at done
        cases done
        rw [Leaves, if_pos null] at leaves
        have error : r = .error status' := by
          rcases gives with gives | gives
          · exact gives.error leaves.cached null
          · exact gives.error leaves.cached null
        exact .inl ⟨rfl, .fails (error ▸ denotes)⟩
      · rw [if_neg null] at done
        rw [Leaves, if_neg null] at leaves
        have found : ∃ place₁, r = .ok place₁ ∧ v₁.At node₁ place₁ := by
          rcases gives with gives | gives
          · exact gives.found null
          · exact gives.found null
        obtain ⟨place₁, rfl, here⟩ := found
        have took : Took v v₁ [node₁] := leaves
        have tree₁ := took.mountTree tree
        have rooted₁ := rooted.took took
        have denotes₁ := (took.denotes_iff tree).mpr denotes
        have bare : v₁.Bare place₁ := denotes₁.bare took.cached (rooted₁.bare took.cached)
          (fun _ => (begins.took took).bare took.cached) rfl
        have back {names : List CString} {place : Place} {r : Except Int Place} :
            v₁.DenotesAll task root names place r ↔ v.DenotesAll task root names place r :=
          took.denotesAll_iff tree
        rcases ih tree₁ rooted₁ (bare.resolves here) done with failed | ⟨nonnull, further⟩
        · exact .inl ⟨failed.1, .cons denotes (back.mp failed.2)⟩
        · obtain ⟨extra, place', taken, ends, at_, all⟩ := further
          refine .inr ⟨nonnull, _, place', took.trans taken, ends, fun _ => ?_, fun r left =>
            .cons denotes (back.mp (all r (back.mpr left)))⟩
          by_cases more : slash ∈ rest
          · exact at_ more
          · rw [walk_plain more] at done
            cases done
            obtain rfl := ends.unique (bare.resolves here)
            exact here
    · rw [if_neg separator] at done ⊢
      rcases ih tree rooted begins done with failed | ⟨nonnull, extra, place', took, ends, at_, all⟩
      · exact .inl failed
      · exact .inr ⟨nonnull, extra, place', took, ends, fun member =>
          at_ ((List.mem_cons.mp member).resolve_left (Ne.symm separator)), all⟩

/-- `namei` answers what the names of the path denote. -/
theorem namei_gives {c : UInt8} {rest : CString} {start : Place} (tree : v.MountTree h)
    (rooted : v.Resolves task.root root) (begins : v.Resolves (v.startOf task c) start)
    (done : v.namei exactWidth calloc fuel task (c :: rest) status = some result) :
    ∃ r, v.DenotesAll task root (namesOf (c :: rest)) start r ∧ Gives result 0 r := by
  have path : relativePath (c :: rest) = if c = slash then rest else c :: rest := rfl
  rw [namei] at done
  rw [namesOf, path]
  generalize (if c = slash then rest else c :: rest) = path at done ⊢
  generalize v.startOf task c = node at done begins
  split at done
  · cases done
  · obtain ⟨⟨v₁, last, basename, status₁⟩, walked, done⟩ := Option.bind_eq_some_iff.mp done
    dsimp only at done
    rw [igetdir] at walked
    by_cases empty : path = []
    · rw [if_pos empty] at walked
      obtain ⟨⟨v₂, top, status₂⟩, resolved, walked⟩ := Option.bind_eq_some_iff.mp walked
      cases walked
      obtain ⟨count, top', follow, found, taken⟩ := resolveMount_takes tree.wellMounted
        ((Took.refl tree.cached).hold begins.live) (by decide) resolved
      obtain ⟨rfl, _⟩ := Prod.mk.inj found
      obtain ⟨_, _, follow', there⟩ := begins
      obtain rfl := follow.unique follow'
      rw [if_neg (taken.ne_zero List.mem_cons_self), if_pos rfl] at done
      cases done
      refine ⟨.ok start, ?_, taken.at_of there, rfl⟩
      rw [empty]
      exact .nil
    · rw [if_neg empty] at walked
      rcases walk_denotes tree rooted begins walked with ⟨null, failed⟩ | ⟨nonnull, further⟩
      · rw [if_pos null] at done
        cases done
        exact ⟨_, failed, rfl, rfl⟩
      · obtain ⟨extra, place', taken, ends, at_, all⟩ := further
        rw [if_neg nonnull] at done
        by_cases ended : basename = []
        · rw [if_pos ended] at done
          cases done
          refine ⟨.ok place', all _ ?_, ?_, rfl⟩
          · rw [ended]
            exact .nil
          · by_cases some_slash : slash ∈ path
            · exact at_ some_slash
            · rw [walk_plain some_slash] at walked
              cases walked
              exact absurd ended empty
        · rw [if_neg ended] at done
          obtain ⟨r, denotes, gives⟩ := getdentry_denotes false
            (taken.mountTree tree) (rooted.took taken) (.refl taken.cached) ends
            (fun other => absurd other Bool.false_ne_true) done
          refine ⟨r, all r ?_, gives.elim id id⟩
          have single : namesFrom basename [] = [basename] := if_neg ended
          have denotes := (taken.denotes_iff tree).mp denotes
          rw [single]
          cases r with
          | error error => exact .fails denotes
          | ok place => exact .cons denotes .nil

end Vfs

/-- In an acyclic mount configuration `namei` returns for every path, with the vnode at the place
that the path denotes, or with the error that it denotes; and it denotes nothing else. -/
theorem namei_denotes {v : Vfs} {h : Hierarchy v.inode} (tree : v.MountTree h) :
    ∃ bound, ∀ (task : Task) (calloc : Allocator Vnode) (fuel : Nat) (filename : CString)
      (status : Int), v.Live task.root → (∀ c, v.Live (v.startOf task c)) → bound < fuel →
      ∃ result r, v.namei exactWidth calloc fuel task filename status = some result ∧
        v.PathDenotes task filename r ∧ Vfs.Gives result 0 r ∧
        ∀ r', v.PathDenotes task filename r' → r' = r := by
  obtain ⟨bound, ends⟩ := tree.bounded
  refine ⟨2 * bound + 1, fun task calloc fuel filename status rooted begins enough => ?_⟩
  have returns : ∃ result, v.namei exactWidth calloc fuel task filename status = some result :=
    Vfs.namei_returns tree.wellMounted ends begins rooted enough
  obtain ⟨result, done⟩ := returns
  have resolves {node : Nat} (live : v.Live node) : ∃ place, v.Resolves node place := by
    obtain ⟨_, top, _, follow⟩ := ends.1 node
    obtain ⟨n, there⟩ := live
    obtain ⟨m, at_top⟩ := tree.live_top there follow
    exact ⟨_, _, top, follow, m, at_top, rfl⟩
  have denotes : ∃ r, v.PathDenotes task filename r ∧ Vfs.Gives result 0 r := by
    cases filename with
    | nil =>
      cases done
      exact ⟨_, .empty, rfl, rfl⟩
    | cons c rest =>
      obtain ⟨start, starts⟩ := resolves (begins c)
      obtain ⟨root, at_root⟩ := resolves rooted
      obtain ⟨r, all, gives⟩ := Vfs.namei_gives tree at_root starts done
      exact ⟨r, .path starts at_root all, gives⟩
  obtain ⟨r, denotes, gives⟩ := denotes
  exact ⟨result, r, done, denotes, gives, fun r' other => other.unique tree.cached denotes⟩

open Cell in
/-- From a directory that is its root, a task asks for `../..`. -/
theorem namei_denotes_dotdot : ∃ bound, ∀ fuel, bound < fuel → ∃ result r,
    cell.namei exactWidth (Allocator.above Vnode) fuel prisoner [46, 46, 47, 46, 46] 0 =
        some result ∧ cell.PathDenotes prisoner [46, 46, 47, 46, 46] r ∧ Vfs.Gives result 0 r ∧
      ∀ r', cell.PathDenotes prisoner [46, 46, 47, 46, 46] r' → r' = r := by
  obtain ⟨bound, denotes⟩ := namei_denotes (cell_took.mountTree disk_tree)
  have live : cell.Live 2 := cell_took.taken 2 List.mem_cons_self
  have start (c : UInt8) : cell.startOf prisoner c = 2 := by
    unfold Vfs.startOf
    split
    · rfl
    · rfl
  exact ⟨bound, fun fuel => denotes prisoner (Allocator.above Vnode) fuel _ 0 live
    fun c => (start c).symm ▸ live⟩

end Nupkux
