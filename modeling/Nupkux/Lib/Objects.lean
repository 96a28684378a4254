import Nupkux.Lib.Transition
import Mathlib.Logic.Function.Basic

/-!
# Objects in memory

What an allocator is for: objects that are made, given back, given another size and stored into,
each of them a list of cells at an address. No two objects share a cell, and the cells of an object
are left alone by what is done to others. Where an object is put, and what else it has room for, is
left to the allocator.
-/

/-- The cells of each object, by its address. -/
abbrev Objects (β : Type*) := Nat → Option (List β)

namespace Objects

variable {β : Type*}

/-- No object reaches into a range. -/
def Clear (o : Objects β) (address length : Nat) : Prop :=
  ∀ other cells, o other = some cells →
    other + cells.length ≤ address ∨ address + length ≤ other

/-- What is done to objects. -/
inductive Request (β : Type*)
  /-- An object of a size is made, whose first cells are given. -/
  | make (first : List β) (size address : Nat)
  /-- An object is given back. -/
  | free (address : Nat)
  /-- An object is given a size, and perhaps another address. -/
  | resize (address size address' : Nat)
  /-- A cell is stored into. -/
  | set (address index : Nat) (value : β)

/-- The object that a request is about, if it is there before. -/
def Request.target : Request β → Option Nat
  | .make .. => none
  | .free address => some address
  | .resize address .. => some address
  | .set address .. => some address

/-- One request. -/
inductive Step : Objects β → Request β → Objects β → Prop
  | make {o : Objects β} {first cells : List β} {size address : Nat} :
      first <+: cells → size ≤ cells.length → o address = none → Clear o address cells.length →
      Step o (.make first size address) (Function.update o address (some cells))
  | free {o : Objects β} {cells : List β} {address : Nat} : o address = some cells →
      Step o (.free address) (Function.update o address none)
  | resize {o : Objects β} {old cells : List β} {address size address' : Nat} :
      o address = some old → old.take size <+: cells → size ≤ cells.length →
      Function.update o address none address' = none →
      Clear (Function.update o address none) address' cells.length →
      Step o (.resize address size address')
        (Function.update (Function.update o address none) address' (some cells))
  | set {o : Objects β} {cells : List β} {address index : Nat} {value : β} :
      o address = some cells → index < cells.length →
      Step o (.set address index value)
        (Function.update o address (some (cells.set index value)))

/-- Requests one after the other, from when there is no object. -/
def system (β : Type*) : TransitionSystem (Objects β) (Request β) where
  initial o := o = fun _ => none
  step := Step

/-- No two objects share a cell. -/
def Separate (o : Objects β) : Prop :=
  ∀ address cells, o address = some cells →
    Clear (Function.update o address none) address cells.length

variable {o o' : Objects β} {address : Nat} {cells : List β}

/-- What is clear of objects is clear of fewer ones. -/
theorem Clear.erase {length : Nat} (clear : Clear o address length) (gone : Nat) :
    Clear (Function.update o gone none) address length := by
  intro other cells there
  by_cases same : other = gone
  · rw [same, Function.update_self] at there
    cases there
  · rw [Function.update_of_ne same] at there
    exact clear other cells there

/-- Objects without one of them are separate. -/
theorem Separate.erase (separate : Separate o) (gone : Nat) :
    Separate (Function.update o gone none) := by
  intro address cells there
  by_cases same : address = gone
  · rw [same, Function.update_self] at there
    cases there
  · rw [Function.update_of_ne same] at there
    rw [Function.update_comm (Ne.symm same)]
    exact (separate address cells there).erase gone

/-- Objects with one more where nothing was are separate. -/
theorem Separate.insert (separate : Separate o) (free : o address = none)
    (clear : Clear o address cells.length) : Separate (Function.update o address (some cells)) := by
  intro here found there
  by_cases same : here = address
  · subst same
    rw [Function.update_self, Option.some.injEq] at there
    rw [Function.update_idem, ← there]
    exact clear.erase here
  · rw [Function.update_of_ne same] at there
    intro other others member
    by_cases second : other = address
    · subst second
      rw [Function.update_of_ne (Ne.symm same), Function.update_self, Option.some.injEq] at member
      rw [← member]
      exact (clear here found there).symm
    · apply separate here found there other others
      by_cases third : other = here
      · rw [third, Function.update_self] at member
        cases member
      · rw [Function.update_of_ne third, Function.update_of_ne second] at member
        rwa [Function.update_of_ne third]

/-- A request keeps objects separate. -/
theorem Step.separate {request : Request β} (step : Step o request o') (separate : Separate o) :
    Separate o' := by
  cases step with
  | make _ _ free clear => exact separate.insert free clear
  | free _ => exact separate.erase _
  | resize _ _ _ free clear => exact (separate.erase _).insert free clear
  | @set cells address index value there _ =>
    have same : Function.update (Function.update o address none) address
        (some (cells.set index value)) = Function.update o address (some (cells.set index value)) :=
      Function.update_idem ..
    rw [← same]
    apply (separate.erase address).insert (Function.update_self ..)
    rw [List.length_set]
    exact separate address cells there

/-- Objects are separate in every state that is reached. -/
theorem separate_of_path {requests : List (Request β)}
    (path : (system β).Path TransitionSystem.Unrestricted o requests o') (separate : Separate o) :
    Separate o' :=
  path.keeps Separate (fun _ _ _ holds _ step => step.separate holds) separate

/-- An object is left alone by a request about another one. -/
theorem Step.kept {request : Request β} (step : Step o request o') (there : o address = some cells)
    (other : request.target ≠ some address) : o' address = some cells := by
  cases step with
  | @make _ _ _ made _ _ free _ =>
    have differ : address ≠ made := by
      rintro rfl
      rw [free] at there
      cases there
    rwa [Function.update_of_ne differ]
  | @free _ gone _ =>
    have differ : address ≠ gone := fun same => other (congrArg some same.symm)
    rwa [Function.update_of_ne differ]
  | @resize _ _ gone _ made _ _ _ free _ =>
    have differ : address ≠ gone := fun same => other (congrArg some same.symm)
    have differ' : address ≠ made := by
      rintro rfl
      rw [Function.update_of_ne differ, there] at free
      cases free
    rwa [Function.update_of_ne differ', Function.update_of_ne differ]
  | @set _ stored _ _ _ _ =>
    have differ : address ≠ stored := fun same => other (congrArg some same.symm)
    rwa [Function.update_of_ne differ]

/-- An object is left alone as long as all requests are about others. -/
theorem kept_of_path {requests : List (Request β)}
    (path : (system β).Path TransitionSystem.Unrestricted o requests o')
    (there : o address = some cells)
    (others : ∀ request ∈ requests, request.target ≠ some address) : o' address = some cells := by
  induction path with
  | nil => exact there
  | snoc _ _ step ih =>
    have before := ih fun request member => others request (List.mem_append_left _ member)
    exact step.kept before (others _ (List.mem_append_right _ List.mem_cons_self))

end Objects
