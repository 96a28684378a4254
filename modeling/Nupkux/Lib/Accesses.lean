import Mathlib.Logic.Function.Basic

/-!
# Programs that load and store

A program returns, or it does not go on, or it loads from or stores at an address and goes on. Behind
the addresses are places: a translation may give one place to two addresses, or none. Which accesses
a program makes depends on what it loads only, and whether they can be made depends on memory only,
so a run is taken apart into the two.
-/

namespace Accesses

universe u

variable {A V P R S : Type u}

/-- An access: the address, and the value that was loaded or is stored. -/
inductive Access (A V : Type u) where
  | load (a : A) (v : V)
  | store (a : A) (v : V)

/-- A program with a result. -/
inductive Program (A V R : Type u) where
  | done (r : R)
  | stuck
  | load (a : A) (next : V → Program A V R)
  | store (a : A) (v : V) (next : Program A V R)

namespace Program

/-- One program after another. -/
def bind : Program A V R → (R → Program A V S) → Program A V S
  | done r, f => f r
  | stuck, _ => stuck
  | load a next, f => load a fun v => (next v).bind f
  | store a v next, f => store a v (next.bind f)

instance : Monad (Program A V) where
  pure := done
  bind := bind

/-- A program that only loads. -/
def Loads : Program A V R → Prop
  | done _ => True
  | stuck => True
  | load _ next => ∀ v, (next v).Loads
  | store .. => False

/-- The result and the memory afterwards. -/
def run [DecidableEq P] (τ : A → Option P) : Program A V R → (P → V) → Option (R × (P → V))
  | done r, mem => some (r, mem)
  | stuck, _ => none
  | load a next, mem => (τ a).bind fun p => (next (mem p)).run τ mem
  | store a v next, mem => (τ a).bind fun p => next.run τ (Function.update mem p v)

/-- The accesses of a program when it loads the values that are in them, and its result. -/
inductive Follows : Program A V R → List (Access A V) → R → Prop
  | done (r : R) : Follows (.done r) [] r
  | load {a : A} {v : V} {next : V → Program A V R} {t : List (Access A V)} {r : R}
      (rest : Follows (next v) t r) : Follows (.load a next) (.load a v :: t) r
  | store {a : A} {v : V} {next : Program A V R} {t : List (Access A V)} {r : R}
      (rest : Follows next t r) : Follows (.store a v next) (.store a v :: t) r

end Program

/-- The accesses can be made, one after the other, and lead from one memory to another. -/
inductive Replays [DecidableEq P] (τ : A → Option P) :
    List (Access A V) → (P → V) → (P → V) → Prop
  | done (mem : P → V) : Replays τ [] mem mem
  | load {a : A} {p : P} {t : List (Access A V)} {mem mem' : P → V} (place : τ a = some p)
      (rest : Replays τ t mem mem') : Replays τ (.load a (mem p) :: t) mem mem'
  | store {a : A} {v : V} {p : P} {t : List (Access A V)} {mem mem' : P → V}
      (place : τ a = some p) (rest : Replays τ t (Function.update mem p v) mem') :
      Replays τ (.store a v :: t) mem mem'

/-- What is loaded is what some memory has. -/
def Sees (ρ : A → Option V) (t : List (Access A V)) : Prop := ∀ a v, .load a v ∈ t → ρ a = some v

/-- Each address that is stored at has a place. -/
def Placed (τ : A → Option P) (t : List (Access A V)) : Prop :=
  ∀ a v, .store a v ∈ t → (τ a).isSome

/-- What was stored last at a place, the last store first. -/
def latest [DecidableEq P] (τ : A → Option P) (p : P) : List (A × V) → Option V
  | [] => none
  | (a, v) :: earlier => if τ a = some p then some v else latest τ p earlier

/-- No access loads a value that has been replaced by another one. -/
def Steady [DecidableEq P] (τ : A → Option P) : List (A × V) → List (Access A V) → Prop
  | _, [] => True
  | earlier, .load a v :: t =>
    (∀ p w, τ a = some p → latest τ p earlier = some w → w = v) ∧ Steady τ earlier t
  | earlier, .store a v :: t => Steady τ ((a, v) :: earlier) t

/-- Each load agrees with all stores at its place that come before it. -/
def Agrees (τ : A → Option P) : (A → V → Prop) → List (Access A V) → Prop
  | _, [] => True
  | earlier, .load a v :: t => (∀ b w, earlier b w → τ b = τ a → w = v) ∧ Agrees τ earlier t
  | earlier, .store a v :: t => Agrees τ (fun b w => earlier b w ∨ b = a ∧ w = v) t

variable {τ : A → Option P} {ρ : A → Option V} {p : Program A V R} {f : R → Program A V S}
  {t t' t₁ t₂ : List (Access A V)} {r r' : R} {s : S} {a b : A} {v w : V} {q : P}
  {mem mem' mem'' : P → V} {earlier : List (A × V)} {K K' : A → V → Prop}

/-! ## Programs -/

/-- The accesses of two programs, one after the other. -/
theorem follows_bind : (p >>= f).Follows t s ↔
    ∃ t₁ t₂ r, t = t₁ ++ t₂ ∧ p.Follows t₁ r ∧ (f r).Follows t₂ s := by
  change (p.bind f).Follows t s ↔ _
  constructor
  · intro follows
    induction p generalizing t with
    | done r => exact ⟨[], t, r, rfl, .done r, follows⟩
    | stuck => cases follows
    | load a next ih =>
      cases follows with
      | load rest =>
        obtain ⟨t₁, t₂, r, rfl, first, second⟩ := ih _ rest
        exact ⟨_ :: t₁, t₂, r, rfl, .load first, second⟩
    | store a v next ih =>
      cases follows with
      | store rest =>
        obtain ⟨t₁, t₂, r, rfl, first, second⟩ := ih rest
        exact ⟨_ :: t₁, t₂, r, rfl, .store first, second⟩
  · rintro ⟨t₁, t₂, r, rfl, first, second⟩
    induction first with
    | done r => exact second
    | load _ ih => exact .load (ih second)
    | store _ ih => exact .store (ih second)

/-- The accesses of two programs, put together. -/
theorem Program.Follows.bind (first : p.Follows t₁ r) (second : (f r).Follows t₂ s) :
    (p >>= f).Follows (t₁ ++ t₂) s := follows_bind.mpr ⟨t₁, t₂, r, rfl, first, second⟩

/-- A program that loads what a memory has makes the same accesses each time. -/
theorem Program.Follows.unique (first : p.Follows t r) (second : p.Follows t' r')
    (sees : Sees ρ t) (sees' : Sees ρ t') : t = t' ∧ r = r' := by
  induction first generalizing t' with
  | done r =>
    cases second
    exact ⟨rfl, rfl⟩
  | load _ ih =>
    cases second with
    | load rest =>
      obtain rfl := Option.some.inj ((sees _ _ List.mem_cons_self).symm.trans
        (sees' _ _ List.mem_cons_self))
      obtain ⟨rfl, rfl⟩ := ih rest (fun a v member => sees a v (List.mem_cons_of_mem _ member))
        fun a v member => sees' a v (List.mem_cons_of_mem _ member)
      exact ⟨rfl, rfl⟩
  | store _ ih =>
    cases second with
    | store rest =>
      obtain ⟨rfl, rfl⟩ := ih rest (fun a v member => sees a v (List.mem_cons_of_mem _ member))
        fun a v member => sees' a v (List.mem_cons_of_mem _ member)
      exact ⟨rfl, rfl⟩

/-- A program that has nothing to load makes one list of accesses. -/
theorem Program.Follows.of_silent (first : p.Follows t r) (silent : ∀ a v, .load a v ∉ t)
    (second : p.Follows t' r') : t' = t ∧ r' = r := by
  induction first generalizing t' with
  | done r =>
    cases second
    exact ⟨rfl, rfl⟩
  | load _ _ => exact absurd List.mem_cons_self (silent _ _)
  | store _ ih =>
    cases second with
    | store rest =>
      obtain ⟨rfl, rfl⟩ := ih (fun a v member => silent a v (List.mem_cons_of_mem _ member)) rest
      exact ⟨rfl, rfl⟩

/-- Two programs that only load. -/
theorem Program.Loads.bind (first : p.Loads) (rest : ∀ r, (f r).Loads) : (p >>= f).Loads := by
  change (p.bind f).Loads
  induction p with
  | done r => exact rest r
  | stuck => trivial
  | load a next ih => exact fun v => ih v (first v)
  | store a v next ih => exact first.elim

/-- A program that only loads stores nothing. -/
theorem Program.Loads.not_stored (loads : p.Loads) (follows : p.Follows t r) : .store a v ∉ t := by
  induction follows with
  | done r => exact List.not_mem_nil
  | load _ ih =>
    intro member
    rcases List.mem_cons.mp member with head | later
    · cases head
    · exact ih (loads _) later
  | store _ _ => exact loads.elim

/-- What is loaded by two lists of accesses. -/
theorem sees_append : Sees ρ (t₁ ++ t₂) ↔ Sees ρ t₁ ∧ Sees ρ t₂ := by
  simp only [Sees, List.mem_append, or_imp, forall_and]

/-- The stores of two lists of accesses. -/
theorem placed_append : Placed τ (t₁ ++ t₂) ↔ Placed τ t₁ ∧ Placed τ t₂ := by
  simp only [Placed, List.mem_append, or_imp, forall_and]

section Run

variable [DecidableEq P]

/-- One program after another. -/
theorem run_bind (mem : P → V) : (p >>= f).run τ mem =
    (p.run τ mem).bind fun after => (f after.1).run τ after.2 := by
  change (p.bind f).run τ mem = _
  induction p generalizing mem with
  | done r => rfl
  | stuck => rfl
  | load a next ih =>
    rw [Program.bind, Program.run, Program.run, Option.bind_assoc]
    exact congrArg _ (funext fun q => ih _ mem)
  | store a v next ih =>
    rw [Program.bind, Program.run, Program.run, Option.bind_assoc]
    exact congrArg _ (funext fun q => ih _)

/-- A run is a list of accesses that the program makes and memory allows. -/
theorem run_eq_some : p.run τ mem = some (r, mem') ↔ ∃ t, p.Follows t r ∧ Replays τ t mem mem' := by
  constructor
  · intro run
    induction p generalizing mem with
    | done r =>
      cases run
      exact ⟨[], .done r, .done _⟩
    | stuck => cases run
    | load a next ih =>
      obtain ⟨q, place, rest⟩ := Option.bind_eq_some_iff.mp run
      obtain ⟨t, follows, replays⟩ := ih _ rest
      exact ⟨_ :: t, .load follows, .load place replays⟩
    | store a v next ih =>
      obtain ⟨q, place, rest⟩ := Option.bind_eq_some_iff.mp run
      obtain ⟨t, follows, replays⟩ := ih rest
      exact ⟨_ :: t, .store follows, .store place replays⟩
  · rintro ⟨t, follows, replays⟩
    induction follows generalizing mem with
    | done r =>
      cases replays
      rfl
    | load _ ih =>
      cases replays with
      | load place rest => exact Option.bind_eq_some_iff.mpr ⟨_, place, ih rest⟩
    | store _ ih =>
      cases replays with
      | store place rest => exact Option.bind_eq_some_iff.mpr ⟨_, place, ih rest⟩

/-! ## Memory -/

/-- Stores that have been made had places. -/
theorem Replays.placed (replays : Replays τ t mem mem') : Placed τ t := by
  induction replays with
  | done _ => exact fun a v member => nomatch member
  | load _ _ ih =>
    intro a v member
    rcases List.mem_cons.mp member with head | later
    · cases head
    · exact ih a v later
  | store place _ ih =>
    intro a v member
    rcases List.mem_cons.mp member with head | later
    · cases head
      exact Option.isSome_of_eq_some place
    · exact ih a v later

/-- A place that is not stored at keeps its value. -/
theorem Replays.kept (replays : Replays τ t mem mem')
    (elsewhere : ∀ a v, .store a v ∈ t → τ a ≠ some q) : mem' q = mem q := by
  induction replays with
  | done _ => rfl
  | load _ _ ih => exact ih fun a v member => elsewhere a v (List.mem_cons_of_mem _ member)
  | store place _ ih =>
    rw [ih fun a v member => elsewhere a v (List.mem_cons_of_mem _ member)]
    refine Function.update_of_ne ?_ ..
    rintro rfl
    exact elsewhere _ _ List.mem_cons_self place

/-- A place keeps a value when no other one is stored there. -/
theorem Replays.holds (replays : Replays τ t mem mem') (here : mem q = v)
    (single : ∀ b w, .store b w ∈ t → τ b = some q → w = v) : mem' q = v := by
  induction replays with
  | done _ => exact here
  | load _ _ ih => exact ih here fun b w member => single b w (List.mem_cons_of_mem _ member)
  | @store b w p _ _ _ place _ ih =>
    refine ih ?_ fun b w member => single b w (List.mem_cons_of_mem _ member)
    by_cases same : q = p
    · subst same
      rw [Function.update_self]
      exact single b w List.mem_cons_self place
    · rw [Function.update_of_ne same, here]

/-- A place where one value only is stored has it afterwards. -/
theorem Replays.stored (replays : Replays τ t mem mem') (member : .store a v ∈ t)
    (place : τ a = some q) (single : ∀ b w, .store b w ∈ t → τ b = some q → w = v) :
    mem' q = v := by
  induction replays with
  | done _ => cases member
  | load _ _ ih =>
    refine ih ?_ fun b w found => single b w (List.mem_cons_of_mem _ found)
    rcases List.mem_cons.mp member with head | later
    · cases head
    · exact later
  | @store _ _ _ t _ _ here rest ih =>
    have later (b : A) (w : V) (found : .store b w ∈ t) := single b w (List.mem_cons_of_mem _ found)
    rcases List.mem_cons.mp member with head | tail
    · cases head
      obtain rfl := Option.some.inj (here.symm.trans place)
      exact rest.holds (Function.update_self ..) later
    · exact ih tail later

/-- Accesses that store what is there can be made, and change nothing. -/
theorem replays_quiet (sees : Sees (fun a => (τ a).map mem) t)
    (quiet : ∀ a v, .store a v ∈ t → (τ a).map mem = some v) : Replays τ t mem mem := by
  induction t with
  | nil => exact .done mem
  | cons access t ih =>
    have rest := ih (fun a v member => sees a v (List.mem_cons_of_mem _ member))
      fun a v member => quiet a v (List.mem_cons_of_mem _ member)
    cases access with
    | load a v =>
      obtain ⟨p, place, rfl⟩ := Option.map_eq_some_iff.mp (sees a v List.mem_cons_self)
      exact .load place rest
    | store a v =>
      obtain ⟨p, place, rfl⟩ := Option.map_eq_some_iff.mp (quiet a v List.mem_cons_self)
      refine .store place ?_
      rwa [Function.update_eq_self]

/-- When only what is there is stored, nothing changes, and what is loaded is what was there. -/
theorem Replays.quiet (replays : Replays τ t mem mem')
    (quiet : ∀ a v, .store a v ∈ t → (τ a).map mem = some v) :
    mem' = mem ∧ Sees (fun a => (τ a).map mem) t := by
  induction replays with
  | done mem => exact ⟨rfl, fun a v member => nomatch member⟩
  | @load a p t mem _ place _ ih =>
    obtain ⟨same, sees⟩ := ih fun a v member => quiet a v (List.mem_cons_of_mem _ member)
    refine ⟨same, fun b v member => ?_⟩
    rcases List.mem_cons.mp member with head | later
    · cases head
      exact Option.map_eq_some_iff.mpr ⟨p, place, rfl⟩
    · exact sees b v later
  | @store a v p t mem _ place _ ih =>
    have here := quiet a v List.mem_cons_self
    rw [place, Option.map_some, Option.some.injEq] at here
    rw [← here, Function.update_eq_self] at ih
    obtain ⟨same, sees⟩ := ih fun a v member => quiet a v (List.mem_cons_of_mem _ member)
    refine ⟨same, fun b w member => sees b w ((List.mem_cons.mp member).resolve_left ?_)⟩
    exact fun head => nomatch head

/-- A memory after some stores. -/
def storedOver (τ : A → Option P) (earlier : List (A × V)) (mem : P → V) (p : P) : V :=
  (latest τ p earlier).getD (mem p)

/-- A memory after no store. -/
@[simp] theorem storedOver_nil : storedOver τ ([] : List (A × V)) mem = mem := rfl

/-- A memory after one more store. -/
theorem update_storedOver (place : τ a = some q) :
    Function.update (storedOver τ earlier mem) q v = storedOver τ ((a, v) :: earlier) mem := by
  funext p
  by_cases same : p = q
  · subst same
    rw [Function.update_self, storedOver, latest, if_pos place]
    rfl
  · have other : τ a ≠ some p := fun here =>
      same (Option.some.inj (here.symm.trans place))
    rw [Function.update_of_ne same, storedOver, storedOver, latest, if_neg other]

/-- Accesses that load what a memory has can be made after some stores if and only if their own stores
have places and no load meets a value that has been replaced by another one. -/
theorem exists_replays_after_iff (sees : Sees (fun a => (τ a).map mem) t) :
    (∃ mem', Replays τ t (storedOver τ earlier mem) mem') ↔ Placed τ t ∧ Steady τ earlier t := by
  induction t generalizing earlier with
  | nil => exact iff_of_true ⟨_, .done _⟩ ⟨fun _ _ member => (nomatch member), trivial⟩
  | cons access t ih =>
    have later (earlier : List (A × V)) : (∃ mem', Replays τ t (storedOver τ earlier mem) mem') ↔
        Placed τ t ∧ Steady τ earlier t :=
      ih fun a v member => sees a v (List.mem_cons_of_mem _ member)
    cases access with
    | load a v =>
      obtain ⟨q, place, here⟩ := Option.map_eq_some_iff.mp (sees a v List.mem_cons_self)
      constructor
      · rintro ⟨mem', replays⟩
        cases replays with
        | load place' rest =>
          obtain ⟨placed, steady⟩ := (later earlier).mp ⟨mem', rest⟩
          refine ⟨fun b w member => ?_, fun p w behind found => ?_, steady⟩
          · rcases List.mem_cons.mp member with head | tail
            · cases head
            · exact placed b w tail
          · cases Option.some.inj (place'.symm.trans behind)
            rw [storedOver, found]
            rfl
      · rintro ⟨placed, loads, steady⟩
        obtain ⟨mem', rest⟩ := (later earlier).mpr
          ⟨fun b w member => placed b w (List.mem_cons_of_mem _ member), steady⟩
        have value : storedOver τ earlier mem q = v := by
          unfold storedOver
          cases found : latest τ q earlier with
          | none => exact here
          | some w => exact loads q w place found
        exact ⟨mem', value ▸ .load place rest⟩
    | store a v =>
      constructor
      · rintro ⟨mem', replays⟩
        cases replays with
        | store place rest =>
          rw [update_storedOver place] at rest
          obtain ⟨placed, steady⟩ := (later _).mp ⟨mem', rest⟩
          refine ⟨fun b w member => ?_, steady⟩
          rcases List.mem_cons.mp member with head | tail
          · cases head
            exact Option.isSome_of_eq_some place
          · exact placed b w tail
      · rintro ⟨placed, steady⟩
        obtain ⟨q, place⟩ := Option.isSome_iff_exists.mp (placed a v List.mem_cons_self)
        obtain ⟨mem', rest⟩ := (later _).mpr
          ⟨fun b w member => placed b w (List.mem_cons_of_mem _ member), steady⟩
        rw [← update_storedOver place] at rest
        exact ⟨mem', .store place rest⟩

/-- So from this memory itself on. -/
theorem exists_replays_iff (sees : Sees (fun a => (τ a).map mem) t) :
    (∃ mem', Replays τ t mem mem') ↔ Placed τ t ∧ Steady τ [] t := by
  have after : (∃ mem', Replays τ t (storedOver τ [] mem) mem') ↔ Placed τ t ∧ Steady τ [] t :=
    exists_replays_after_iff sees
  rwa [storedOver_nil] at after

/-! ## Loads that agree with the stores before them -/

/-- Whatever was stored last was stored. -/
theorem latest_mem (found : latest τ q earlier = some v) : ∃ a, (a, v) ∈ earlier ∧ τ a = some q := by
  induction earlier with
  | nil => cases found
  | cons cell earlier ih =>
    rw [latest] at found
    by_cases here : τ cell.1 = some q
    · rw [if_pos here] at found
      cases found
      exact ⟨cell.1, List.mem_cons_self, here⟩
    · rw [if_neg here] at found
      obtain ⟨a, member, place⟩ := ih found
      exact ⟨a, List.mem_cons_of_mem _ member, place⟩

/-- Something was stored last where something was stored. -/
theorem latest_isSome (member : (a, v) ∈ earlier) (place : τ a = some q) :
    (latest τ q earlier).isSome := by
  induction earlier with
  | nil => cases member
  | cons cell earlier ih =>
    rw [latest]
    by_cases here : τ cell.1 = some q
    · rw [if_pos here]
      rfl
    · rw [if_neg here]
      refine ih ((List.mem_cons.mp member).resolve_left ?_)
      rintro rfl
      exact here place

/-- When each place gets one value only, it does not matter which of the stores is the last. -/
theorem steady_iff_agrees (sees : Sees (fun a => (τ a).map mem) t)
    (single : ∀ a v b w, K a v → K b w → τ a = τ b → (τ a).isSome → v = w)
    (before : ∀ a v, (a, v) ∈ earlier → K a v) (during : ∀ a v, .store a v ∈ t → K a v) :
    Steady τ earlier t ↔ Agrees τ (fun a v => (a, v) ∈ earlier) t := by
  induction t generalizing earlier with
  | nil => exact Iff.rfl
  | cons access t ih =>
    have later := fun (earlier : List (A × V)) (before : ∀ a v, (a, v) ∈ earlier → K a v) =>
      ih (fun a v member => sees a v (List.mem_cons_of_mem _ member)) before
        fun a v member => during a v (List.mem_cons_of_mem _ member)
    cases access with
    | load a v =>
      rw [Steady, Agrees, later earlier before]
      refine and_congr_left fun _ => ⟨fun loads b w member same => ?_, fun loads p w place found => ?_⟩
      · obtain ⟨p, place, _⟩ := Option.map_eq_some_iff.mp (sees a v List.mem_cons_self)
        have place' := same.trans place
        obtain ⟨u, last⟩ := Option.isSome_iff_exists.mp (latest_isSome member place')
        obtain ⟨c, member', place''⟩ := latest_mem last
        rw [← loads p u place last]
        exact single b w c u (before b w member) (before c u member')
          (place'.trans place''.symm) (Option.isSome_of_eq_some place')
      · obtain ⟨b, member, place'⟩ := latest_mem found
        exact loads b w member (place'.trans place.symm)
    | store a v =>
      have same : (fun b w => (b, w) ∈ (a, v) :: earlier) =
          fun b w => (b, w) ∈ earlier ∨ b = a ∧ w = v := by
        funext b w
        rw [List.mem_cons, Prod.mk.injEq, or_comm]
      rw [Steady, Agrees, ← same]
      refine later _ fun b w member => ?_
      rcases List.mem_cons.mp member with head | tail
      · cases head
        exact during a v List.mem_cons_self
      · exact before b w tail

end Run

/-- Two lists of accesses, one after the other. -/
theorem agrees_append : Agrees τ K (t₁ ++ t₂) ↔
    Agrees τ K t₁ ∧ Agrees τ (fun a v => K a v ∨ .store a v ∈ t₁) t₂ := by
  induction t₁ generalizing K with
  | nil => simp only [List.nil_append, Agrees, true_and, List.not_mem_nil, or_false]
  | cons access t₁ ih =>
    cases access with
    | load a v =>
      simp only [List.cons_append, Agrees, ih, and_assoc, List.mem_cons, reduceCtorEq, false_or]
    | store a v =>
      simp only [List.cons_append, Agrees, ih, List.mem_cons, Access.store.injEq, or_assoc]

/-- Loads that agree with all stores agree with those before them. -/
theorem agrees_of (loads : ∀ a v, .load a v ∈ t → ∀ b w, K b w ∨ .store b w ∈ t → τ b = τ a → w = v) :
    Agrees τ K t := by
  induction t generalizing K with
  | nil => trivial
  | cons access t ih =>
    cases access with
    | load a v =>
      refine ⟨fun b w member => loads a v List.mem_cons_self b w (.inl member), ih ?_⟩
      intro c u member b w either
      exact loads c u (List.mem_cons_of_mem _ member) b w
        (either.imp_right (List.mem_cons_of_mem _))
    | store a v =>
      refine ih fun c u member b w either => loads c u (List.mem_cons_of_mem _ member) b w ?_
      rcases either with (before | ⟨rfl, rfl⟩) | later
      · exact .inl before
      · exact .inr List.mem_cons_self
      · exact .inr (List.mem_cons_of_mem _ later)

/-- Each load agrees with what was stored before all of them. -/
theorem Agrees.before (agrees : Agrees τ K t) (member : .load a v ∈ t) (earlier : K b w)
    (same : τ b = τ a) : w = v := by
  induction t generalizing K with
  | nil => cases member
  | cons access t ih =>
    cases access with
    | load c u =>
      rcases List.mem_cons.mp member with head | later
      · cases head
        exact agrees.1 b w earlier same
      · exact ih agrees.2 later earlier
    | store c u =>
      rcases List.mem_cons.mp member with head | later
      · cases head
      · exact ih agrees later (.inl earlier)

end Accesses
