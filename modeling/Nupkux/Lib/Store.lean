import Mathlib.Data.Finset.Card
import Mathlib.Data.Finset.Lattice.Fold
import Mathlib.Data.List.AList
import Mathlib.Data.List.Perm.Subperm
import Mathlib.Order.MinMax

/-!
# Pointer-indexed stores

The live objects of one C type, indexed by address. A store is finite, so an allocator can
return a fresh address in every state; the null pointer is the address 0 and never live.
-/

/-- The live objects of one type, by address. -/
abbrev Store (α : Type) := AList (fun _ : Nat => α)

namespace Store

variable {α : Type}

/-- Change the object at an address, if there is one. -/
def modify (store : Store α) (address : Nat) (change : α → α) : Store α :=
  match store.lookup address with
  | some object => store.insert address (change object)
  | none => store

/-- A live object is changed in place. -/
theorem modify_of_lookup {store : Store α} {address : Nat} {object : α}
    (live : store.lookup address = some object) (change : α → α) :
    store.modify address change = store.insert address (change object) := by
  simp only [modify, live]

/-- Changing an object changes what is found at its address only. -/
theorem lookup_modify (store : Store α) (address other : Nat) (change : α → α) :
    (store.modify address change).lookup other =
      if other = address then (store.lookup address).map change else store.lookup other := by
  unfold modify
  by_cases same : other = address
  · subst same
    cases found : store.lookup other with
    | none => simp [found]
    | some object => simp [AList.lookup_insert]
  · cases found : store.lookup address with
    | none => simp [same]
    | some object => simp [AList.lookup_insert_ne same, same]

/-- The object at the changed address. -/
@[simp] theorem lookup_modify_self (store : Store α) (address : Nat) (change : α → α) :
    (store.modify address change).lookup address = (store.lookup address).map change := by
  simp [lookup_modify]

/-- Objects at other addresses are kept. -/
theorem lookup_modify_ne {store : Store α} {address other : Nat} (differ : other ≠ address)
    (change : α → α) : (store.modify address change).lookup other = store.lookup other := by
  simp [lookup_modify, differ]

/-- What is found after an object is written. -/
theorem lookup_insert_eq (store : Store α) (address other : Nat) (object : α) :
    AList.lookup other (AList.insert address object store) =
      if other = address then some object else store.lookup other := by
  by_cases same : other = address
  · subst same
    simp [AList.lookup_insert]
  · simp [AList.lookup_insert_ne same, same]

/-- What is found after an object is freed. -/
theorem lookup_erase_eq (store : Store α) (address other : Nat) :
    AList.lookup other (AList.erase address store) =
      if other = address then none else store.lookup other := by
  by_cases same : other = address
  · subst same
    simp
  · simp [AList.lookup_erase_ne same, same]

/-- An address is live exactly when an object is found there. -/
theorem mem_iff_lookup {store : Store α} {address : Nat} :
    address ∈ store ↔ ∃ object, store.lookup address = some object := by
  rw [← AList.lookup_isSome, Option.isSome_iff_exists]

/-- The same objects are found if the same addresses are live and hold equal objects. -/
theorem lookup_eq_of_getD {store store' : Store α} {address : Nat} (default : α)
    (live : address ∈ store' ↔ address ∈ store)
    (same : (store'.lookup address).getD default = (store.lookup address).getD default) :
    store'.lookup address = store.lookup address := by
  by_cases there : address ∈ store
  · obtain ⟨object, found⟩ := mem_iff_lookup.mp there
    obtain ⟨object', found'⟩ := mem_iff_lookup.mp (live.mpr there)
    rw [found, found'] at same ⊢
    exact congrArg some same
  · rw [AList.lookup_eq_none.mpr there, AList.lookup_eq_none.mpr fun here => there (live.mp here)]

/-- No more distinct addresses are live than the store has entries. -/
theorem length_le_of_live {store : Store α} {addresses : List Nat} (distinct : addresses.Nodup)
    (live : ∀ address ∈ addresses, address ∈ store) :
    addresses.length ≤ store.keys.length :=
  (List.subperm_of_subset distinct fun address member => AList.mem_keys.mp (live address member)).length_le

/-- A measure of the live objects is bounded. -/
theorem exists_bound (store : Store α) (measure : α → Nat) :
    ∃ bound, ∀ address object, store.lookup address = some object → measure object ≤ bound := by
  refine ⟨store.keys.toFinset.sup fun address => ((store.lookup address).map measure).getD 0,
    fun address object live => ?_⟩
  have member : address ∈ store.keys.toFinset :=
    List.mem_toFinset.mpr (AList.mem_keys.mp (mem_iff_lookup.mpr ⟨object, live⟩))
  have below : _ ≤ store.keys.toFinset.sup
      fun address => ((store.lookup address).map measure).getD 0 := Finset.le_sup member
  rwa [live] at below

/-- The addresses of the live objects with a property. -/
def having (store : Store α) (property : α → Bool) : Finset Nat :=
  store.keys.toFinset.filter fun address => (store.lookup address).any property

/-- An address is one of an object with the property. -/
theorem mem_having {store : Store α} {property : α → Bool} {address : Nat} :
    address ∈ store.having property ↔
      ∃ object, store.lookup address = some object ∧ property object := by
  simp only [having, Finset.mem_filter, List.mem_toFinset, AList.mem_keys.symm, mem_iff_lookup,
    Option.any_eq_true]
  constructor
  · exact And.right
  · rintro ⟨object, live, holds⟩
    exact ⟨⟨object, live⟩, object, live, holds⟩

/-- How many live objects have a property. -/
def count (store : Store α) (property : α → Bool) : Nat := (store.having property).card

/-- The count depends on which live objects have the property. -/
theorem count_congr {store store' : Store α} {property : α → Bool}
    (same : ∀ address, (store'.lookup address).map property =
      (store.lookup address).map property) : store'.count property = store.count property := by
  refine congrArg Finset.card (Finset.ext fun address => ?_)
  simp only [mem_having]
  have here := same address
  constructor
  · rintro ⟨object, live, holds⟩
    rw [live, Option.map_some, holds] at here
    obtain ⟨object', live', holds'⟩ := Option.map_eq_some_iff.mp here.symm
    exact ⟨object', live', holds'⟩
  · rintro ⟨object, live, holds⟩
    rw [live, Option.map_some, holds] at here
    obtain ⟨object', live', holds'⟩ := Option.map_eq_some_iff.mp here
    exact ⟨object', live', holds'⟩

/-- One object more. -/
theorem count_insert {store : Store α} {property : α → Bool} {address : Nat}
    (fresh : store.lookup address = none) (object : α) :
    count (AList.insert address object store) property =
      store.count property + if property object then 1 else 0 := by
  have absent : address ∉ store.having property := by
    rw [mem_having]
    rintro ⟨_, live, _⟩
    rw [fresh] at live
    cases live
  unfold count
  split
  · rename_i holds
    rw [← Finset.card_insert_of_notMem absent]
    refine congrArg Finset.card (Finset.ext fun other => ?_)
    rw [Finset.mem_insert, mem_having, mem_having, lookup_insert_eq]
    by_cases same : other = address
    · simp [same, holds]
    · simp [same]
  · rename_i fails
    rw [Nat.add_zero]
    refine congrArg Finset.card (Finset.ext fun other => ?_)
    rw [mem_having, mem_having, lookup_insert_eq]
    by_cases same : other = address
    · subst same
      simp [fails, fresh]
    · simp [same]

/-- One object less. -/
theorem count_erase {store : Store α} {property : α → Bool} {address : Nat} {object : α}
    (live : store.lookup address = some object) :
    count (AList.erase address store) property + (if property object then 1 else 0) =
      store.count property := by
  have gone : AList.lookup address (AList.erase address store) = none := AList.lookup_erase ..
  rw [← count_insert gone object]
  refine count_congr fun other => ?_
  rw [lookup_insert_eq, lookup_erase_eq]
  by_cases same : other = address
  · rw [if_pos same, same, live]
  · rw [if_neg same, if_neg same]

/-- Some live object has the property. -/
theorem count_pos {store : Store α} {property : α → Bool} {address : Nat} {object : α}
    (live : store.lookup address = some object) (holds : property object) :
    0 < store.count property :=
  Finset.card_pos.mpr ⟨address, mem_having.mpr ⟨object, live, holds⟩⟩

end Store

/-- An allocator of one type: in every state it returns a nonzero address not live there. -/
structure Allocator (α : Type) where
  /-- The address of the next block. -/
  address : Store α → Nat
  /-- A block is never at the null pointer. -/
  address_ne_zero : ∀ store : Store α, address store ≠ 0
  /-- A block is never one that is in use. -/
  address_fresh : ∀ store : Store α, store.lookup (address store) = none

namespace Allocator

variable {α : Type}

/-- Every live address is at most the largest key. -/
theorem le_foldr_max {keys : List Nat} {key : Nat} (member : key ∈ keys) :
    key ≤ keys.foldr max 0 := by
  induction keys with
  | nil => cases member
  | cons first rest ih =>
    simp only [List.foldr_cons]
    rcases List.mem_cons.mp member with rfl | later
    · exact le_max_left _ _
    · exact (ih later).trans (le_max_right _ _)

/-- The allocator that returns the address after the largest live one. -/
def above (α : Type) : Allocator α where
  address store := store.keys.foldr max 0 + 1
  address_ne_zero store := by omega
  address_fresh store := by
    rw [AList.lookup_eq_none]
    intro member
    have := le_foldr_max (AList.mem_keys.mp member)
    omega

end Allocator
