import Nupkux.Fs.Open
import Nupkux.Lib.LinkedList
import Nupkux.Lib.Transition
import Nupkux.Strings

/-!
# File system types

The list `filesystems` of the registered file system types. A type is linked through its own
`next` pointer, which is null for a type that is not registered and also for the last one
that is. The abstract registry is the set of the types whose last successful call was a
registration.
-/

namespace Nupkux

/-- `filesystem_t`, as far as the registry reads it. -/
structure Filesystem where
  /-- The name, `none` for a null pointer. -/
  name : Option CString := none
  next : Nat := 0
  deriving DecidableEq, Repr, Inhabited

/-- The file system types in memory and `filesystems`. -/
structure Registry where
  filesystem : Store Filesystem := ∅
  filesystems : Nat := 0

namespace Registry

/-- `fs->next`. -/
def nextOf (r : Registry) (fs : Nat) : Nat := ((r.filesystem.lookup fs).map (·.next)).getD 0

/-- `fs->name`. -/
def nameOf (r : Registry) (fs : Nat) : Option CString := (r.filesystem.lookup fs).bind (·.name)

/-- `fs->next = next`. -/
def setNext (r : Registry) (fs next : Nat) : Registry :=
  { r with filesystem := r.filesystem.modify fs fun f => { f with next } }

/-- Enough steps to walk any list of distinct types. -/
def walkSteps (r : Registry) : Nat := r.filesystem.keys.length + 1

/-- The loops of `vfs_get_fs` and `unregister_filesystem`: the first type with a name and the
one before it. -/
def find (r : Registry) (name : Option CString) : Nat × Nat :=
  LinkedList.seek r.nextOf (fun fs => strcmp (r.nameOf fs) name == 0) r.walkSteps 0 r.filesystems

/-- `vfs_get_fs`. -/
def vfsGetFs (r : Registry) (name : Option CString) : Nat :=
  if name.isNone then 0 else (r.find name).2

/-- `register_filesystem`. -/
def registerFilesystem (r : Registry) (fs : Nat) : Registry × Int :=
  if fs = 0 then (r, -EINVAL)
  else if r.nextOf fs ≠ 0 ∨ r.vfsGetFs (r.nameOf fs) ≠ 0 then (r, -EBUSY)
  else ({ r.setNext fs r.filesystems with filesystems := fs }, 0)

/-- `unregister_filesystem`. -/
def unregisterFilesystem (r : Registry) (fs : Nat) : Registry × Int :=
  if fs = 0 ∨ r.nameOf fs = none then (r, -EINVAL)
  else
    let (prev, tmp) := r.find (r.nameOf fs)
    if tmp = 0 then (r, -EINVAL)
    else
      let r' :=
        if prev = 0 then { r with filesystems := r.nextOf r.filesystems }
        else (r.setNext prev (r.nextOf tmp)).setNext tmp 0
      (r'.setNext fs 0, 0)

end Registry

/-- A call of the registry's interface. -/
inductive RegistryCall where
  | register (fs : Nat)
  | unregister (fs : Nat)
  deriving DecidableEq, Repr

/-- The type a call is about. -/
def RegistryCall.subject : RegistryCall → Nat
  | .register fs | .unregister fs => fs

/-- What a call does and returns. -/
def RegistryCall.run (r : Registry) : RegistryCall → Registry × Int
  | .register fs => r.registerFilesystem fs
  | .unregister fs => r.unregisterFilesystem fs

/-- Whether a call registers its type. -/
def RegistryCall.registers : RegistryCall → Bool
  | .register _ => true
  | .unregister _ => false

/-- The abstract registry: a successful call decides whether its type is registered. -/
def recordCall (registered : Nat → Bool) (event : RegistryCall × Int) : Nat → Bool :=
  if event.2 = 0 then Function.update registered event.1.subject event.1.registers
  else registered

/-- The last successful call on a type was a registration. -/
def registeredAfter (history : List (RegistryCall × Int)) : Nat → Bool :=
  history.foldl recordCall fun _ => false

/-- What the kernel's file system types are: they have non-null names, no two the same. -/
structure Registry.Named (r : Registry) : Prop where
  /-- The null pointer is no type. -/
  null : r.filesystem.lookup 0 = none
  /-- Every type has a name. -/
  name : ∀ fs f, r.filesystem.lookup fs = some f → ∃ s, f.name = some s ∧ NoNul s
  /-- Types with one name are one type. -/
  distinct : ∀ fs fs' f f', r.filesystem.lookup fs = some f → r.filesystem.lookup fs' = some f' →
    f.name = f'.name → fs = fs'

/-- Any sequence of calls on types, or with a null pointer; a label is a call and what it
returned. -/
def registry : TransitionSystem Registry (RegistryCall × Int) where
  initial r := r.Named ∧ r.filesystems = 0 ∧
    ∀ fs f, r.filesystem.lookup fs = some f → f.next = 0
  step r label r' :=
    (label.1.subject = 0 ∨ ∃ f, r.filesystem.lookup label.1.subject = some f) ∧
      label.1.run r = (r', label.2)

namespace Registry

open LinkedList

variable {r r' : Registry} {fs other prev next : Nat} {f g : Filesystem} {s name : CString}
  {nodes before after : List Nat}

/-- The registered types are these, the last registered first: the list visits exactly them
and every other type has a null `next`. -/
structure Lists (r : Registry) (nodes : List Nat) : Prop extends r.Named where
  /-- The list. -/
  chain : Chain r.nextOf r.filesystems nodes
  /-- It visits types. -/
  live : ∀ fs ∈ nodes, ∃ f, r.filesystem.lookup fs = some f
  /-- A type that is not registered is not linked. -/
  unlinked : ∀ fs, fs ∉ nodes → r.nextOf fs = 0

/-- The name of a type. -/
theorem nameOf_of_live (live : r.filesystem.lookup fs = some f) : r.nameOf fs = f.name := by
  simp [nameOf, live]

/-- A named type is in memory. -/
theorem live_of_nameOf (named : r.nameOf fs = some s) : ∃ f, r.filesystem.lookup fs = some f := by
  obtain ⟨f, live, _⟩ := Option.bind_eq_some_iff.mp named
  exact ⟨f, live⟩

/-- Setting one link changes what is found by the link only. -/
theorem lookup_setNext (r : Registry) (fs next other : Nat) :
    (r.setNext fs next).filesystem.lookup other =
      if other = fs then (r.filesystem.lookup fs).map fun f => { f with next }
      else r.filesystem.lookup other := Store.lookup_modify ..

/-- Setting a link keeps the names. -/
@[simp] theorem nameOf_setNext (r : Registry) (fs next other : Nat) :
    (r.setNext fs next).nameOf other = r.nameOf other := by
  unfold nameOf
  rw [lookup_setNext]
  by_cases same : other = fs
  · rw [if_pos same, same]
    cases r.filesystem.lookup fs <;> rfl
  · rw [if_neg same]

/-- Setting the link of a type sets that link. -/
theorem nextOf_setNext (live : r.filesystem.lookup fs = some f) (next : Nat) :
    (r.setNext fs next).nextOf = Function.update r.nextOf fs next := by
  funext other
  unfold nextOf
  rw [lookup_setNext, Function.update_apply]
  by_cases same : other = fs
  · rw [if_pos same, if_pos same, live]
    rfl
  · rw [if_neg same, if_neg same]

/-- The types stay where they are. -/
theorem live_setNext (r : Registry) (fs next other : Nat) :
    (∃ f, (r.setNext fs next).filesystem.lookup other = some f) ↔
      ∃ f, r.filesystem.lookup other = some f := by
  rw [lookup_setNext]
  by_cases same : other = fs
  · rw [if_pos same, same]
    cases r.filesystem.lookup fs <;> simp
  · rw [if_neg same]

/-- Setting a link keeps what the types are. -/
theorem Named.setNext (named : r.Named) (fs next : Nat) : (r.setNext fs next).Named := by
  have back : ∀ other g, (r.setNext fs next).filesystem.lookup other = some g →
      ∃ f, r.filesystem.lookup other = some f ∧ f.name = g.name := by
    intro other g live
    have same := nameOf_setNext r fs next other
    obtain ⟨f, live'⟩ := (live_setNext r fs next other).mp ⟨g, live⟩
    rw [nameOf_of_live live, nameOf_of_live live'] at same
    exact ⟨f, live', same.symm⟩
  refine ⟨?_, fun other g live => ?_, fun other other' g g' live live' same => ?_⟩
  · rw [lookup_setNext]
    by_cases null : 0 = fs
    · rw [if_pos null, ← null, named.null]
      rfl
    · rw [if_neg null, named.null]
  · obtain ⟨f, live', equal⟩ := back other g live
    rw [← equal]
    exact named.name other f live'
  · obtain ⟨f, found, equal⟩ := back other g live
    obtain ⟨f', found', equal'⟩ := back other' g' live'
    exact named.distinct other other' f f' found found' (by rw [equal, equal', same])

/-- The search finds a registered type by its name, and the type before it. -/
theorem Lists.find_registered (lists : r.Lists (before ++ fs :: after))
    (live : r.filesystem.lookup fs = some f) : r.find f.name = (before.getLastD 0, fs) := by
  have distinct := lists.chain.nodup
  obtain ⟨s, named, whole⟩ := lists.name fs f live
  have enough := Store.length_le_of_live distinct
    fun node member => Store.mem_iff_lookup.mpr (lists.live node member)
  apply seek_found lists.chain
  · intro earlier member
    obtain ⟨g, live'⟩ := lists.live earlier (List.mem_append_left _ member)
    obtain ⟨t, named', whole'⟩ := lists.name earlier g live'
    rw [nameOf_of_live live', named, named', beq_eq_false_iff_ne]
    intro equal
    have same : t = s := (compareStrings_eq_zero whole' whole).mp equal
    have here := lists.distinct earlier fs g f live' live (by rw [named, named', same])
    exact (List.nodup_append.mp distinct).2.2 earlier member fs List.mem_cons_self here
  · rw [nameOf_of_live live, named, beq_iff_eq]
    exact (compareStrings_eq_zero whole whole).mpr rfl
  · simp only [List.length_append, List.length_cons] at enough
    simp only [walkSteps]
    omega

/-- The search finds nothing by a name that no registered type has. -/
theorem Lists.find_absent (lists : r.Lists nodes) (whole : NoNul name)
    (absent : ∀ fs ∈ nodes, r.nameOf fs ≠ some name) : (r.find (some name)).2 = 0 := by
  apply seek_absent lists.chain
  · intro fs member
    obtain ⟨f, live⟩ := lists.live fs member
    obtain ⟨t, named, whole'⟩ := lists.name fs f live
    have differ := absent fs member
    rw [nameOf_of_live live, named] at differ ⊢
    rw [beq_eq_false_iff_ne]
    intro equal
    apply differ
    rw [(compareStrings_eq_zero whole' whole).mp equal]
  · exact Nat.lt_succ_of_le (Store.length_le_of_live lists.chain.nodup
      fun node member => Store.mem_iff_lookup.mpr (lists.live node member))

/-- No other type has the name of one that is not registered. -/
theorem Lists.name_absent (lists : r.Lists nodes) (live : r.filesystem.lookup fs = some f)
    (outside : fs ∉ nodes) : ∀ other ∈ nodes, r.nameOf other ≠ f.name := by
  intro other member same
  obtain ⟨g, live'⟩ := lists.live other member
  rw [nameOf_of_live live'] at same
  have here := lists.distinct other fs g f live' live same
  exact outside (here ▸ member)

/-- `vfs_get_fs` finds the registered types by their names and no other type. -/
theorem Lists.vfsGetFs (lists : r.Lists nodes) (live : r.filesystem.lookup fs = some f) :
    r.vfsGetFs f.name = if fs ∈ nodes then fs else 0 := by
  obtain ⟨s, named, whole⟩ := lists.name fs f live
  unfold Registry.vfsGetFs
  rw [named, Option.isNone_some, if_neg Bool.false_ne_true, ← named]
  by_cases member : fs ∈ nodes
  · obtain ⟨before, after, rfl⟩ := List.append_of_mem member
    rw [lists.find_registered live, if_pos member]
  · rw [if_neg member, named]
    apply lists.find_absent whole
    rw [← named]
    exact lists.name_absent live member

/-- What `vfs_get_fs` finds has the name and is registered. -/
theorem Lists.vfsGetFs_sound (lists : r.Lists nodes) (whole : NoNul name)
    (found : r.vfsGetFs (some name) = fs) (nonnull : fs ≠ 0) :
    r.nameOf fs = some name ∧ fs ∈ nodes := by
  by_cases present : ∃ other ∈ nodes, r.nameOf other = some name
  · obtain ⟨other, member, named⟩ := present
    obtain ⟨g, live⟩ := lists.live other member
    have here := lists.vfsGetFs live
    rw [← nameOf_of_live live, named, found, if_pos member] at here
    rw [here]
    exact ⟨named, member⟩
  · have absent : ∀ other ∈ nodes, r.nameOf other ≠ some name :=
      fun other member named => present ⟨other, member, named⟩
    have none : r.vfsGetFs (some name) = 0 := lists.find_absent whole absent
    exact absurd (found.symm.trans none) nonnull

/-- A live type is not null. -/
theorem Named.ne_zero (named : r.Named) (live : r.filesystem.lookup fs = some f) : fs ≠ 0 := by
  rintro rfl
  rw [named.null] at live
  cases live

/-- A type that is registered is not registered again. -/
theorem Lists.register_again (lists : r.Lists nodes) (live : r.filesystem.lookup fs = some f)
    (member : fs ∈ nodes) : r.registerFilesystem fs = (r, -EBUSY) := by
  have nonnull := lists.ne_zero live
  have found := lists.vfsGetFs live
  rw [if_pos member, ← nameOf_of_live live] at found
  unfold registerFilesystem
  rw [if_neg nonnull, if_pos]
  rw [found]
  exact .inr nonnull

/-- A type that is not registered comes first when it is. -/
theorem Lists.register (lists : r.Lists nodes) (live : r.filesystem.lookup fs = some f)
    (outside : fs ∉ nodes) : ∃ r', r.registerFilesystem fs = (r', 0) ∧ r'.Lists (fs :: nodes) ∧
      r'.nameOf = r.nameOf := by
  have nonnull := lists.ne_zero live
  have found := lists.vfsGetFs live
  rw [if_neg outside, ← nameOf_of_live live] at found
  have links := nextOf_setNext live r.filesystems
  refine ⟨{ r.setNext fs r.filesystems with filesystems := fs }, ?_, ?_, ?_⟩
  · unfold registerFilesystem
    rw [if_neg nonnull, if_neg]
    rw [lists.unlinked fs outside, found]
    decide
  · have named := lists.toNamed.setNext fs r.filesystems
    refine ⟨⟨named.null, named.name, named.distinct⟩, ?_, fun other member => ?_, fun other absent => ?_⟩
    · show Chain (r.setNext fs r.filesystems).nextOf fs (fs :: nodes)
      rw [links]
      exact lists.chain.push nonnull outside
    · show ∃ g, (r.setNext fs r.filesystems).filesystem.lookup other = some g
      rw [live_setNext]
      rcases List.mem_cons.mp member with rfl | later
      · exact ⟨f, live⟩
      · exact lists.live other later
    · show (r.setNext fs r.filesystems).nextOf other = 0
      rw [links, Function.update_of_ne (List.ne_of_not_mem_cons absent)]
      exact lists.unlinked other (List.not_mem_of_not_mem_cons absent)
  · funext other
    exact nameOf_setNext r fs r.filesystems other

/-- A type that is not registered is not unregistered. -/
theorem Lists.unregister_absent (lists : r.Lists nodes) (live : r.filesystem.lookup fs = some f)
    (outside : fs ∉ nodes) : r.unregisterFilesystem fs = (r, -EINVAL) := by
  obtain ⟨s, named, whole⟩ := lists.name fs f live
  have here := nameOf_of_live live
  have absent := lists.name_absent live outside
  unfold unregisterFilesystem
  rw [here, named] at *
  rw [if_neg (by simp [lists.ne_zero live])]
  have none := lists.find_absent whole absent
  simp only [none, if_true]

/-- What is left of the list when one type is unlinked from it and its link is cleared. -/
theorem Lists.remove (lists : r.Lists (before ++ fs :: after)) (named : r'.Named)
    (live : ∀ other, (∃ f, r'.filesystem.lookup other = some f) ↔
      ∃ f, r.filesystem.lookup other = some f)
    (start : r'.filesystems =
      if before.getLastD 0 = 0 then r.nextOf fs else r.filesystems)
    (links : r'.nextOf = Function.update
      (if before.getLastD 0 = 0 then r.nextOf
        else Function.update r.nextOf (before.getLastD 0) (r.nextOf fs)) fs 0) :
    r'.Lists (before ++ after) := by
  have outside : fs ∉ before ++ after :=
    (List.nodup_cons.mp (List.nodup_middle.mp lists.chain.nodup)).1
  have kept : ∀ other, other ∈ before ++ fs :: after ↔ other = fs ∨ other ∈ before ++ after := by
    intro other
    simp only [List.mem_append, List.mem_cons]
    exact or_left_comm
  refine ⟨named, ?_, fun other member => ?_, fun other absent => ?_⟩
  · rw [start, links]
    apply lists.chain.unlink.congr
    intro other member
    apply Function.update_of_ne
    rintro rfl
    exact outside member
  · exact (live other).mpr (lists.live other ((kept other).mpr (.inr member)))
  · rw [links, Function.update_apply]
    by_cases here : other = fs
    · rw [if_pos here]
    · have null := lists.unlinked other fun member =>
        ((kept other).mp member).elim here absent
      rw [if_neg here]
      by_cases first : before.getLastD 0 = 0
      · rw [if_pos first]
        exact null
      · rw [if_neg first, Function.update_of_ne]
        · exact null
        · rintro rfl
          rcases List.eq_nil_or_concat before with rfl | ⟨init, prev, rfl⟩
          · exact first rfl
          · simp at absent

/-- A registered type leaves the list, at any position, and its link is cleared. -/
theorem Lists.unregister (lists : r.Lists (before ++ fs :: after))
    (live : r.filesystem.lookup fs = some f) :
    ∃ r', r.unregisterFilesystem fs = (r', 0) ∧ r'.Lists (before ++ after) ∧
      r'.nameOf = r.nameOf := by
  have nonnull := lists.ne_zero live
  obtain ⟨s, name, _⟩ := lists.name fs f live
  have here := nameOf_of_live live
  have found := lists.find_registered live
  have given : ¬(fs = 0 ∨ f.name = none) := by simp [nonnull, name]
  unfold unregisterFilesystem
  rw [here, if_neg given, found]
  simp only [if_neg nonnull]
  refine ⟨_, rfl, ?_⟩
  by_cases first : before.getLastD 0 = 0
  · -- the first type of the list
    have start : r.filesystems = fs := by
      have chain := lists.chain
      rw [lists.chain.getLastD_eq_zero.mp first] at chain
      exact chain.1
    have same : ({ r with filesystems := r.nextOf r.filesystems } : Registry).nextOf = r.nextOf :=
      rfl
    rw [if_pos first]
    refine ⟨lists.remove ?_ ?_ ?_ ?_, ?_⟩
    · have named : ({ r with filesystems := r.nextOf r.filesystems } : Registry).Named :=
        ⟨lists.null, lists.name, lists.distinct⟩
      exact named.setNext fs 0
    · exact live_setNext { r with filesystems := r.nextOf r.filesystems } fs 0
    · rw [if_pos first, ← start]
      rfl
    · rw [if_pos first, ← same]
      exact nextOf_setNext (r := { r with filesystems := r.nextOf r.filesystems }) live 0
    · funext other
      exact nameOf_setNext { r with filesystems := r.nextOf r.filesystems } fs 0 other
  · -- a later one: its predecessor takes over its link
    have before_ne : before ≠ [] := fun none => first (lists.chain.getLastD_eq_zero.mpr none)
    have prev_mem : before.getLastD 0 ∈ before ++ fs :: after := by
      rw [List.getLastD_eq_getLast?, List.getLast?_eq_getLast_of_ne_nil before_ne]
      exact List.mem_append_left _ (List.getLast_mem before_ne)
    obtain ⟨p, prev_live⟩ := lists.live _ prev_mem
    have linked := nextOf_setNext prev_live (r.nextOf fs)
    obtain ⟨g, there⟩ := (live_setNext r (before.getLastD 0) (r.nextOf fs) fs).mpr ⟨f, live⟩
    obtain ⟨g', there'⟩ := (live_setNext _ fs 0 fs).mpr ⟨g, there⟩
    rw [if_neg first]
    refine ⟨lists.remove ?_ (fun other => ?_) ?_ ?_, ?_⟩
    · exact ((lists.toNamed.setNext _ _).setNext fs 0).setNext fs 0
    · rw [live_setNext, live_setNext, live_setNext]
    · rw [if_neg first]
      rfl
    · rw [if_neg first, nextOf_setNext there', nextOf_setNext there, linked, Function.update_idem]
    · funext other
      rw [nameOf_setNext, nameOf_setNext, nameOf_setNext]

/-- The list visits exactly the types that are registered. -/
def Represents (r : Registry) (nodes : List Nat) (registered : Nat → Bool) : Prop :=
  r.Lists nodes ∧ ∀ fs, fs ∈ nodes ↔ registered fs = true

variable {registered : Nat → Bool} {call : RegistryCall} {result : Int}

/-- A call that fails changes nothing. -/
theorem run_of_failed (ran : call.run r = (r', result)) (failed : result ≠ 0) : r' = r := by
  cases call with
  | register fs =>
    simp only [RegistryCall.run, registerFilesystem] at ran
    split at ran
    · exact (congrArg Prod.fst ran).symm
    · split at ran
      · exact (congrArg Prod.fst ran).symm
      · exact absurd (congrArg Prod.snd ran).symm failed
  | unregister fs =>
    simp only [RegistryCall.run, unregisterFilesystem] at ran
    split at ran
    · exact (congrArg Prod.fst ran).symm
    · split at ran
      · exact (congrArg Prod.fst ran).symm
      · exact absurd (congrArg Prod.snd ran).symm failed

/-- A call with a null pointer fails. -/
theorem run_null (ran : call.run r = (r', result)) (null : call.subject = 0) : result ≠ 0 := by
  have refused : result = -EINVAL := by
    cases call with
    | register fs =>
      simp only [RegistryCall.run, registerFilesystem, RegistryCall.subject] at ran null
      rw [if_pos null] at ran
      exact (congrArg Prod.snd ran).symm
    | unregister fs =>
      simp only [RegistryCall.run, unregisterFilesystem, RegistryCall.subject] at ran null
      rw [if_pos (.inl null)] at ran
      exact (congrArg Prod.snd ran).symm
  rw [refused]
  decide

/-- What a call on a type returns, and what list it leaves when it succeeds. -/
theorem Represents.run (represents : r.Represents nodes registered)
    (live : r.filesystem.lookup call.subject = some f) (ran : call.run r = (r', result)) :
    (result = 0 ↔ registered call.subject ≠ call.registers) ∧
      (result = 0 → ∃ nodes', r'.Represents nodes'
        (Function.update registered call.subject call.registers) ∧ r'.nameOf = r.nameOf) := by
  obtain ⟨lists, members⟩ := represents
  cases call with
  | register fs =>
    simp only [RegistryCall.subject, RegistryCall.registers, RegistryCall.run] at *
    by_cases member : fs ∈ nodes
    · rw [lists.register_again live member, Prod.mk.injEq] at ran
      have failed : result ≠ 0 := by
        rw [← ran.2]
        decide
      simp [failed, (members fs).mp member]
    · obtain ⟨r'', success, lists', names⟩ := lists.register live member
      rw [success, Prod.mk.injEq] at ran
      obtain ⟨rfl, rfl⟩ := ran
      refine ⟨by simpa using mt (members fs).mpr member, fun _ => ⟨_, ⟨lists', ?_⟩, names⟩⟩
      intro other
      rw [List.mem_cons, Function.update_apply, members other]
      by_cases same : other = fs <;> simp [same]
  | unregister fs =>
    simp only [RegistryCall.subject, RegistryCall.registers, RegistryCall.run] at *
    by_cases member : fs ∈ nodes
    · obtain ⟨before, after, rfl⟩ := List.append_of_mem member
      have distinct := List.nodup_middle.mp lists.chain.nodup
      obtain ⟨r'', success, lists', names⟩ := lists.unregister live
      rw [success, Prod.mk.injEq] at ran
      obtain ⟨rfl, rfl⟩ := ran
      refine ⟨by simp [(members fs).mp member], fun _ => ⟨_, ⟨lists', ?_⟩, names⟩⟩
      intro other
      rw [Function.update_apply]
      by_cases same : other = fs
      · rw [if_pos same, same]
        simpa using (List.nodup_cons.mp distinct).1
      · rw [if_neg same, ← members other]
        simp [same]
    · rw [lists.unregister_absent live member, Prod.mk.injEq] at ran
      have failed : result ≠ 0 := by
        rw [← ran.2]
        decide
      have absent : registered fs = false := by simpa using mt (members fs).mpr member
      simp [failed, absent]

/-- A step of the registry is one of the abstract registry. -/
theorem Represents.step {label : RegistryCall × Int} (represents : r.Represents nodes registered)
    (step : registry.step r label r') :
    (∃ nodes', r'.Represents nodes' (recordCall registered label)) ∧ r'.nameOf = r.nameOf := by
  obtain ⟨known, ran⟩ := step
  unfold recordCall
  by_cases success : label.2 = 0
  · rcases known with null | ⟨f, live⟩
    · exact absurd success (run_null ran null)
    · obtain ⟨nodes', represents', names⟩ := (represents.run live ran).2 success
      rw [if_pos success]
      exact ⟨⟨nodes', represents'⟩, names⟩
  · have same := run_of_failed ran success
    rw [if_neg success, same]
    exact ⟨⟨nodes, represents⟩, rfl⟩

/-- A sequence of calls goes on with one that succeeds. -/
theorem path_call {first : Registry} {history : List (RegistryCall × Int)}
    (path : registry.Path TransitionSystem.Unrestricted first history r) (call : RegistryCall)
    (known : r.nameOf call.subject ≠ none) (success : (call.run r).2 = 0) :
    registry.Path TransitionSystem.Unrestricted first (history ++ [(call, 0)]) (call.run r).1 := by
  obtain ⟨s, named⟩ := Option.ne_none_iff_exists'.mp known
  exact path.snoc trivial ⟨.inr (live_of_nameOf named), Prod.ext rfl success⟩

/-- After any sequence of calls the list represents the abstract registry. -/
theorem represents_of_path {first : Registry} {history : List (RegistryCall × Int)}
    (start : registry.initial first)
    (path : registry.Path TransitionSystem.Unrestricted first history r) :
    ∃ nodes, r.Represents nodes (registeredAfter history) := by
  induction path with
  | nil =>
    obtain ⟨named, empty, unlinked⟩ := start
    refine ⟨[], ⟨named, empty, by simp, fun fs _ => ?_⟩, by simp [registeredAfter]⟩
    unfold nextOf
    cases live : first.filesystem.lookup fs with
    | none => rfl
    | some f => exact unlinked fs f live
  | snoc _ _ step ih =>
    obtain ⟨nodes, represents⟩ := ih
    unfold registeredAfter
    rw [List.foldl_append]
    exact (represents.step step).1

end Registry

open Registry

/-- After any sequence of registrations and unregistrations the registry is a finite map from
names to the types whose last successful call was a registration. -/
theorem filesystem_registry_map {first r : Registry} {history : List (RegistryCall × Int)}
    (start : registry.initial first)
    (path : registry.Path TransitionSystem.Unrestricted first history r) :
    (∃ nodes, LinkedList.Chain r.nextOf r.filesystems nodes ∧ nodes.Nodup) ∧
    (∀ fs f, r.filesystem.lookup fs = some f →
      (r.vfsGetFs f.name = fs ↔ registeredAfter history fs = true) ∧
      ((r.registerFilesystem fs).2 = -EBUSY ↔ registeredAfter history fs = true) ∧
      ((r.unregisterFilesystem fs).2 = -EINVAL ↔ registeredAfter history fs = false) ∧
      (registeredAfter history fs = false → (r.registerFilesystem fs).2 = 0) ∧
      (registeredAfter history fs = true → (r.unregisterFilesystem fs).2 = 0 ∧
        ((r.unregisterFilesystem fs).1.registerFilesystem fs).2 = 0)) ∧
    (∀ name, NoNul name → ∀ fs, r.vfsGetFs (some name) = fs → fs ≠ 0 →
      r.nameOf fs = some name ∧ registeredAfter history fs = true) ∧
    ∀ call : RegistryCall, (call.run r).2 ≠ 0 → (call.run r).1 = r := by
  obtain ⟨nodes, represents⟩ := represents_of_path start path
  obtain ⟨lists, members⟩ := represents
  refine ⟨⟨nodes, lists.chain, lists.chain.nodup⟩, fun fs f live => ?_, ?_, ?_⟩
  · have found := lists.vfsGetFs live
    have nonnull := lists.ne_zero live
    obtain ⟨s, name, _⟩ := lists.name fs f live
    by_cases member : fs ∈ nodes
    · rw [if_pos member] at found
      have registered := (members fs).mp member
      obtain ⟨before, after, rfl⟩ := List.append_of_mem member
      have distinct := List.nodup_middle.mp lists.chain.nodup
      obtain ⟨r', success, lists', names⟩ := lists.unregister live
      have named : r'.nameOf fs = some s := by rw [names, nameOf_of_live live, name]
      obtain ⟨f', live'⟩ := live_of_nameOf named
      obtain ⟨r'', again, _⟩ := lists'.register live' (List.nodup_cons.mp distinct).1
      simp [found, registered, lists.register_again live member, success, again, EINVAL]
    · rw [if_neg member] at found
      have registered : registeredAfter history fs = false := by
        simpa using mt (members fs).mpr member
      obtain ⟨r', success, _⟩ := lists.register live member
      simp [found, Ne.symm nonnull, registered, lists.unregister_absent live member, success,
        EBUSY]
  · intro name whole fs found nonnull
    rw [← members fs]
    exact lists.vfsGetFs_sound whole found nonnull
  · intro call failed
    have ran : call.run r = ((call.run r).1, (call.run r).2) := rfl
    exact run_of_failed ran failed

/-- `rootfs_type`, not registered. -/
def rootfsType : Filesystem where
  name := some [114, 111, 111, 116, 102, 115]

/-- `devfs_fs_type`, not registered. -/
def devfsType : Filesystem where
  name := some [100, 101, 118, 102, 115]

/-- Two of the kernel's types, `rootfs` at 1 and `devfs` at 2. -/
def twoTypes : Registry where
  filesystem := (AList.insert 2 devfsType ∅).insert 1 rootfsType

/-- The types before any call. -/
theorem twoTypes_initial : registry.initial twoTypes := by
  have types : ∀ fs f, twoTypes.filesystem.lookup fs = some f →
      fs = 1 ∧ f = rootfsType ∨ fs = 2 ∧ f = devfsType := by
    intro fs f live
    simp only [twoTypes, Store.lookup_insert_eq, AList.lookup_empty] at live
    split at live
    · exact .inl ⟨‹_›, (Option.some.inj live).symm⟩
    · split at live
      · exact .inr ⟨‹_›, (Option.some.inj live).symm⟩
      · cases live
  refine ⟨⟨rfl, fun fs f live => ?_, fun fs fs' f f' live live' same => ?_⟩, rfl,
    fun fs f live => ?_⟩
  · rcases types fs f live with ⟨rfl, rfl⟩ | ⟨rfl, rfl⟩
    · exact ⟨_, rfl, by decide⟩
    · exact ⟨_, rfl, by decide⟩
  · rcases types fs f live with ⟨rfl, rfl⟩ | ⟨rfl, rfl⟩ <;>
      rcases types fs' f' live' with ⟨rfl, rfl⟩ | ⟨rfl, rfl⟩ <;> first | rfl | cases same
  · rcases types fs f live with ⟨rfl, rfl⟩ | ⟨rfl, rfl⟩ <;> rfl

/-- `devfs` is found after `rootfs`, registered before it, is unregistered. -/
theorem filesystem_registry_map_unregister :
    (((twoTypes.registerFilesystem 1).1.registerFilesystem 2).1.unregisterFilesystem 1).1.vfsGetFs
      devfsType.name = 2 := by
  have start : registry.Path TransitionSystem.Unrestricted twoTypes [] twoTypes := .nil twoTypes
  have path₁ := path_call start (.register 1) (by decide) (by decide)
  have path₂ := path_call path₁ (.register 2) (by decide) (by decide)
  have path₃ := path_call path₂ (.unregister 1) (by decide) (by decide)
  have map := filesystem_registry_map twoTypes_initial path₃
  exact (map.2.1 2 devfsType (by decide)).1.mpr (by decide)

end Nupkux
