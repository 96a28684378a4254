import Mathlib.Logic.Basic

/-!
# Ownership of resources by slots

Slots each hold one resource or none, and a set marks the resources in use. `Owned` says that
no two slots hold the same resource and that the marks are exactly the reserved resources and
those held. Acquiring an unmarked resource and releasing a set of slots keep it.
-/

/-- Exclusive holding, and marks that are exact. -/
structure Owned {Slot Resource : Type*} (reserved used : Resource → Prop)
    (holds : Slot → Option Resource) : Prop where
  /-- No two slots hold the same resource. -/
  distinct : ∀ slot other resource, holds slot = some resource → holds other = some resource →
    slot = other
  /-- A resource is marked exactly when it is reserved or held. -/
  used_iff : ∀ resource, used resource ↔
    reserved resource ∨ ∃ slot, holds slot = some resource
  /-- No slot holds a reserved resource. -/
  unreserved : ∀ slot resource, holds slot = some resource → ¬reserved resource

namespace Owned

variable {Slot Resource : Type*} {reserved used used' : Resource → Prop}
  {holds holds' : Slot → Option Resource}

/-- Ownership depends on the marks and holdings only. -/
theorem congr (owned : Owned reserved used holds)
    (marks : ∀ resource, used' resource ↔ used resource)
    (slots : ∀ slot, holds' slot = holds slot) : Owned reserved used' holds' := by
  obtain rfl : holds' = holds := funext slots
  obtain rfl : used' = used := funext fun resource => propext (marks resource)
  exact owned

/-- An empty slot acquires a resource that was not marked. -/
theorem acquire {slot : Slot} {resource : Resource} (owned : Owned reserved used holds)
    (fresh : ¬used resource) (empty : holds slot = none)
    (marks : ∀ other, used' other ↔ other = resource ∨ used other)
    (taken : holds' slot = some resource)
    (others : ∀ other, other ≠ slot → holds' other = holds other) :
    Owned reserved used' holds' where
  distinct first second held atFirst atSecond := by
    have unheld : ∀ other, holds other ≠ some resource := fun other here =>
      fresh ((owned.used_iff resource).mpr (.inr ⟨other, here⟩))
    by_cases isFirst : first = slot
    · by_cases isSecond : second = slot
      · rw [isFirst, isSecond]
      · rw [isFirst, taken] at atFirst
        rw [others second isSecond, ← Option.some.inj atFirst] at atSecond
        exact absurd atSecond (unheld second)
    · rw [others first isFirst] at atFirst
      by_cases isSecond : second = slot
      · rw [isSecond, taken] at atSecond
        rw [← Option.some.inj atSecond] at atFirst
        exact absurd atFirst (unheld first)
      · rw [others second isSecond] at atSecond
        exact owned.distinct first second held atFirst atSecond
  used_iff other := by
    rw [marks, owned.used_iff]
    constructor
    · rintro (rfl | isReserved | ⟨holder, here⟩)
      · exact .inr ⟨slot, taken⟩
      · exact .inl isReserved
      · refine .inr ⟨holder, ?_⟩
        rw [others holder, here]
        rintro rfl
        rw [empty] at here
        cases here
    · rintro (isReserved | ⟨holder, here⟩)
      · exact .inr (.inl isReserved)
      · by_cases isSlot : holder = slot
        · rw [isSlot, taken] at here
          exact .inl (Option.some.inj here).symm
        · rw [others holder isSlot] at here
          exact .inr (.inr ⟨holder, here⟩)
  unreserved holder held here := by
    by_cases isSlot : holder = slot
    · rw [isSlot, taken] at here
      rw [← Option.some.inj here]
      exact fun isReserved => fresh ((owned.used_iff resource).mpr (.inl isReserved))
    · rw [others holder isSlot] at here
      exact owned.unreserved holder held here

/-- A set of slots releases what it holds. -/
theorem release (owned : Owned reserved used holds) (released : Slot → Prop)
    (marks : ∀ resource, used' resource ↔
      used resource ∧ ∀ slot, released slot → holds slot ≠ some resource)
    (emptied : ∀ slot, released slot → holds' slot = none)
    (others : ∀ slot, ¬released slot → holds' slot = holds slot) :
    Owned reserved used' holds' := by
  have kept {slot : Slot} {resource : Resource} (here : holds' slot = some resource) :
      ¬released slot ∧ holds slot = some resource := by
    by_cases isReleased : released slot
    · rw [emptied slot isReleased] at here
      cases here
    · exact ⟨isReleased, others slot isReleased ▸ here⟩
  refine ⟨fun slot other resource here there => ?_, fun resource => ?_, fun slot resource here => ?_⟩
  · exact owned.distinct slot other resource (kept here).2 (kept there).2
  · rw [marks, owned.used_iff]
    constructor
    · rintro ⟨isReserved | ⟨slot, here⟩, unreleased⟩
      · exact .inl isReserved
      · have remains : ¬released slot := fun isReleased => unreleased slot isReleased here
        exact .inr ⟨slot, others slot remains ▸ here⟩
    · rintro (isReserved | ⟨slot, here⟩)
      · exact ⟨.inl isReserved, fun slot _ held => owned.unreserved slot resource held isReserved⟩
      · obtain ⟨remains, held⟩ := kept here
        refine ⟨.inr ⟨slot, held⟩, fun other isReleased there => remains ?_⟩
        rwa [owned.distinct slot other resource held there]
  · exact owned.unreserved slot resource (kept here).2

end Owned
