import Nupkux.Lib.Transition
import Mathlib.Logic.Function.Basic

/-!
# Separate spaces

Each space that is there has contents of its own at some addresses. A space begins as a copy of
another one, and from then on only the calls that name it change it.
-/

/-- What the spaces have at the addresses; a space that is not there is `none`. -/
abbrev Spaces (Space Address Content : Type*) := Space → Option (Address → Option Content)

/-- A call on spaces. -/
inductive SpaceCall (Space Address Content : Type*) where
  | fork (parent : Space)
  | map (space : Space) (address : Address)
  | store (space : Space) (address : Address) (change : Content → Content)
  | release (space : Space)

/-- The call names a space that is there already. -/
def SpaceCall.Changes {Space Address Content : Type*} (space : Space) :
    SpaceCall Space Address Content → Prop
  | .fork _ => False
  | .map other _ | .store other _ _ | .release other => other = space

namespace Spaces

variable {Space Address Content : Type*} {s s' : Spaces Space Address Content}
  {call : SpaceCall Space Address Content}

/-- What a space has; a space that is not there has nothing. -/
def contents (s : Spaces Space Address Content) (space : Space) : Address → Option Content :=
  (s space).getD fun _ => none

/-- The contents of a space that is there. -/
theorem contents_of_some {space : Space} {pages : Address → Option Content}
    (there : s space = some pages) : s.contents space = pages := by
  rw [contents, there]
  rfl

variable [DecidableEq Space] [DecidableEq Address]

/-- Change what a space has at an address. -/
def alter (s : Spaces Space Address Content) (space : Space) (address : Address)
    (change : Option Content → Option Content) : Spaces Space Address Content :=
  Function.update s space
    ((s space).map fun pages => Function.update pages address (change (pages address)))

/-- The steps: a new space with the contents of another one; contents at an address that has
none, or nothing new; a change of what there is at an address; the end of a space. -/
inductive Step : Spaces Space Address Content → SpaceCall Space Address Content →
    Spaces Space Address Content → Prop
  | fork {s : Spaces Space Address Content} {child : Space} (parent : Space)
      (fresh : s child = none) :
      Step s (.fork parent) (Function.update s child (some (s.contents parent)))
  | map {s : Spaces Space Address Content} (space : Space) (address : Address)
      (content : Option Content) :
      Step s (.map space address) (s.alter space address (·.or content))
  | store {s : Spaces Space Address Content} (space : Space) (address : Address)
      (change : Content → Content) :
      Step s (.store space address change) (s.alter space address (Option.map change))
  | release {s : Spaces Space Address Content} (space : Space) :
      Step s (.release space) (Function.update s space none)

/-- Runs from no space at all. -/
def system : TransitionSystem (Spaces Space Address Content) (SpaceCall Space Address Content) where
  initial s := ∀ space, s space = none
  step := Step

/-- A change in one space leaves the others. -/
theorem alter_ne (s : Spaces Space Address Content) {space other : Space} (apart : other ≠ space)
    (address : Address) (change : Option Content → Option Content) :
    s.alter space address change other = s other := Function.update_of_ne apart _ _

/-- A change in a space that is there. -/
theorem alter_self {space : Space} {pages : Address → Option Content}
    (there : s space = some pages) (address : Address)
    (change : Option Content → Option Content) :
    s.alter space address change space =
      some (Function.update pages address (change (pages address))) := by
  rw [alter, Function.update_self, there]
  rfl

/-- A change in a space that is not there is none. -/
theorem alter_of_none {space : Space} (absent : s space = none) (address : Address)
    (change : Option Content → Option Content) : s.alter space address change = s := by
  rw [alter, absent]
  exact Function.update_eq_self_iff.mpr absent.symm

/-- A step keeps a space that its call does not name. -/
theorem Step.kept {space : Space} {pages : Address → Option Content} (step : Step s call s')
    (other : ¬call.Changes space) (there : s space = some pages) : s' space = some pages := by
  cases step with
  | fork parent fresh =>
    have apart : space ≠ _ := fun same => by
      rw [same, fresh] at there
      cases there
    rw [Function.update_of_ne apart, there]
  | map named address content => rw [alter_ne _ (Ne.symm other), there]
  | store named address change => rw [alter_ne _ (Ne.symm other), there]
  | release named => rw [Function.update_of_ne (Ne.symm other), there]

end Spaces
