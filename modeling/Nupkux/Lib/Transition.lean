import Mathlib.Logic.Basic
import Mathlib.Data.List.Basic

/-!
# Labelled transition systems

A system says in which states a run may start and which labelled steps there are. A `Path`
is a finite sequence of steps whose every label is `allowed` in the state it is taken in, so
that a statement about all runs and one about all runs of a restricted kind have one form.
The rules below reduce both to a statement about one step.
-/

/-- Start states and labelled steps. -/
structure TransitionSystem (State Label : Type*) where
  /-- The states a run starts in. -/
  initial : State → Prop
  /-- One step, with the label that says which. -/
  step : State → Label → State → Prop

namespace TransitionSystem

variable {State Label : Type*}

/-- Finitely many steps, every label allowed in the state it is taken in. -/
inductive Path (system : TransitionSystem State Label) (allowed : State → Label → Prop) :
    State → List Label → State → Prop
  /-- No step. -/
  | nil (state : State) : Path system allowed state [] state
  /-- One more step at the end. -/
  | snoc {first last next : State} {labels : List Label} {label : Label} :
      Path system allowed first labels last → allowed last label →
      system.step last label next → Path system allowed first (labels ++ [label]) next

/-- A state some path from a start state ends in. -/
def ReachableUnder (system : TransitionSystem State Label) (allowed : State → Label → Prop)
    (state : State) : Prop :=
  ∃ first labels, system.initial first ∧ system.Path allowed first labels state

/-- Any label is allowed in any state. -/
def Unrestricted (_ : State) (_ : Label) : Prop := True

/-- A state some unrestricted run reaches. -/
abbrev Reachable (system : TransitionSystem State Label) (state : State) : Prop :=
  system.ReachableUnder Unrestricted state

variable {system : TransitionSystem State Label} {allowed : State → Label → Prop}

/-- What every step of a path keeps holds at its end when it holds at its beginning. -/
theorem Path.keeps {first last : State} {labels : List Label}
    (path : system.Path allowed first labels last) (holds : State → Prop)
    (keep : ∀ state label next, holds state → allowed state label →
      system.step state label next → holds next)
    (start : holds first) : holds last := by
  induction path with
  | nil => exact start
  | snoc _ permitted step ih => exact keep _ _ _ ih permitted step

/-- A start state is reachable. -/
theorem ReachableUnder.start {state : State} (start : system.initial state) :
    system.ReachableUnder allowed state :=
  ⟨state, [], start, .nil state⟩

/-- A step from a reachable state reaches its successor. -/
theorem ReachableUnder.next {state next : State} {label : Label}
    (reached : system.ReachableUnder allowed state) (permitted : allowed state label)
    (step : system.step state label next) : system.ReachableUnder allowed next := by
  obtain ⟨first, labels, start, path⟩ := reached
  exact ⟨first, labels ++ [label], start, path.snoc permitted step⟩

/-- An invariant: it holds in every start state and every allowed step keeps it. -/
theorem ReachableUnder.invariant {holds : State → Prop} {state : State}
    (reached : system.ReachableUnder allowed state)
    (start : ∀ first, system.initial first → holds first)
    (keep : ∀ state label next, holds state → allowed state label →
      system.step state label next → holds next) : holds state := by
  obtain ⟨first, labels, initial, path⟩ := reached
  exact path.keeps holds keep (start first initial)

/-- A refinement: when each step of a state that meets an invariant is one abstract step, or
none if the abstract system does not see its label, a path is a path of the abstract system. -/
theorem Path.refines {State' Label' : Type*} {abstract : TransitionSystem State' Label'}
    {first last : State} {labels : List Label} (path : system.Path allowed first labels last)
    (view : State → State') (sees : Label → Option Label') (holds : State → Prop)
    (keep : ∀ state label next, holds state → allowed state label →
      system.step state label next → holds next)
    (simulate : ∀ state label next, holds state → allowed state label →
      system.step state label next → (sees label = none ∧ view next = view state) ∨
        ∃ seen, sees label = some seen ∧ abstract.step (view state) seen (view next))
    (start : holds first) :
    abstract.Path Unrestricted (view first) (labels.filterMap sees) (view last) := by
  induction path with
  | nil => exact .nil _
  | snoc earlier permitted step ih =>
    have reached := earlier.keeps holds keep start
    rw [List.filterMap_append]
    rcases simulate _ _ _ reached permitted step with ⟨silent, same⟩ | ⟨seen, visible, move⟩
    · rw [List.filterMap_cons_none silent, List.filterMap_nil, List.append_nil, same]
      exact ih
    · rw [List.filterMap_cons_some visible, List.filterMap_nil]
      exact ih.snoc trivial move

/-- A simulation: when each allowed step of a state is one abstract step of every abstract state
related to it, a path is a path of the abstract system from any state related to its beginning. -/
theorem Path.simulates {State' Label' : Type*} {abstract : TransitionSystem State' Label'}
    {first last : State} {labels : List Label} (path : system.Path allowed first labels last)
    (related : State → State' → Prop) (sees : Label → Label')
    (simulate : ∀ state label next state', related state state' → allowed state label →
      system.step state label next →
        ∃ next', abstract.step state' (sees label) next' ∧ related next next')
    {first' : State'} (start : related first first') :
    ∃ last', abstract.Path Unrestricted first' (labels.map sees) last' ∧ related last last' := by
  induction path with
  | nil => exact ⟨first', .nil _, start⟩
  | snoc _ permitted step ih =>
    obtain ⟨last', path', reached⟩ := ih
    obtain ⟨next', step', related'⟩ := simulate _ _ _ _ reached permitted step
    refine ⟨next', ?_, related'⟩
    rw [List.map_append]
    exact path'.snoc trivial step'

/-- Dropping a restriction keeps a path. -/
theorem Path.weaken {permitted : State → Label → Prop} {first last : State}
    {labels : List Label} (path : system.Path allowed first labels last)
    (weaker : ∀ state label, allowed state label → permitted state label) :
    system.Path permitted first labels last := by
  induction path with
  | nil => exact .nil _
  | snoc _ permission step ih => exact ih.snoc (weaker _ _ permission) step

/-- Dropping a restriction keeps reachability. -/
theorem ReachableUnder.weaken {permitted : State → Label → Prop} {state : State}
    (reached : system.ReachableUnder allowed state)
    (weaker : ∀ state label, allowed state label → permitted state label) :
    system.ReachableUnder permitted state := by
  obtain ⟨first, labels, start, path⟩ := reached
  exact ⟨first, labels, start, path.weaken weaker⟩

end TransitionSystem
