import Mathlib.Data.List.Basic
import Mathlib.Logic.Function.Basic

/-!
# Singly linked lists of pointers

`next` gives the link of each node and 0 is the null pointer. `Chain` says which nodes a
list visits; `seek` is the loop that C code writes to find a node and its predecessor. The
rules below are the ones an intrusive list needs: what a search finds, and what unlinking a
node at any position leaves.
-/

namespace LinkedList

/-- Following the links from a pointer visits exactly these nodes and ends at null. -/
def Chain (next : Nat → Nat) : Nat → List Nat → Prop
  | pointer, [] => pointer = 0
  | pointer, node :: rest => pointer = node ∧ node ≠ 0 ∧ Chain next (next node) rest

/-- The search loop `prev = 0; while (node && !stop(node)) { prev = node; node = next(node); }`.
It returns the last node passed and the node it stopped at, null when there is none. -/
def seek (next : Nat → Nat) (stop : Nat → Bool) : Nat → Nat → Nat → Nat × Nat
  | 0, prev, _ => (prev, 0)
  | steps + 1, prev, node =>
    if node = 0 then (prev, 0)
    else if stop node then (prev, node)
    else seek next stop steps node (next node)

variable {next other : Nat → Nat} {stop : Nat → Bool} {pointer prev node steps : Nat}
  {before after nodes : List Nat}

/-- The empty list is the null pointer. -/
@[simp] theorem chain_nil : Chain next pointer [] ↔ pointer = 0 := Iff.rfl

/-- A nonempty list starts at its first node. -/
@[simp] theorem chain_cons : Chain next pointer (node :: nodes) ↔
    pointer = node ∧ node ≠ 0 ∧ Chain next (next node) nodes := Iff.rfl

/-- A pointer starts at most one list. -/
theorem Chain.unique {nodes others : List Nat} (chain : Chain next pointer nodes)
    (again : Chain next pointer others) : nodes = others := by
  induction nodes generalizing pointer others with
  | nil =>
    cases others with
    | nil => rfl
    | cons first rest =>
      obtain ⟨rfl, nonnull, _⟩ := again
      exact absurd chain nonnull
  | cons first rest ih =>
    obtain ⟨rfl, nonnull, tail⟩ := chain
    cases others with
    | nil => exact absurd again nonnull
    | cons second others =>
      obtain ⟨rfl, _, tail'⟩ := again
      rw [ih tail tail']

/-- The part of a list from one of its nodes on. -/
theorem Chain.suffix (chain : Chain next pointer (before ++ node :: after)) :
    Chain next node (node :: after) := by
  induction before generalizing pointer with
  | nil =>
    obtain ⟨_, nonnull, tail⟩ := chain
    exact ⟨rfl, nonnull, tail⟩
  | cons first rest ih => exact ih chain.2.2

/-- No node of a list is null. -/
theorem Chain.ne_zero (chain : Chain next pointer nodes) (member : node ∈ nodes) : node ≠ 0 := by
  obtain ⟨before, after, rfl⟩ := List.append_of_mem member
  exact chain.suffix.2.1

/-- A list that ends visits no node twice. -/
theorem Chain.nodup (chain : Chain next pointer nodes) : nodes.Nodup := by
  induction nodes generalizing pointer with
  | nil => exact List.nodup_nil
  | cons first rest ih =>
    refine List.nodup_cons.mpr ⟨fun member => ?_, ih chain.2.2⟩
    -- a second visit would make the list equal to a proper suffix of itself
    obtain ⟨before, after, rfl⟩ := List.append_of_mem member
    have whole : Chain next first (first :: (before ++ first :: after)) :=
      ⟨rfl, chain.2.1, chain.2.2⟩
    have same := congrArg List.length (whole.unique chain.2.2.suffix)
    simp only [List.length_cons, List.length_append] at same
    omega

/-- A list depends on the links of its own nodes only. -/
theorem Chain.congr (chain : Chain next pointer nodes)
    (agree : ∀ node ∈ nodes, other node = next node) : Chain other pointer nodes := by
  induction nodes generalizing pointer with
  | nil => exact chain
  | cons first rest ih =>
    obtain ⟨rfl, nonnull, tail⟩ := chain
    refine ⟨rfl, nonnull, ?_⟩
    rw [agree pointer List.mem_cons_self]
    exact ih tail fun node member => agree node (List.mem_cons_of_mem _ member)

/-- Putting a new node in front. -/
theorem Chain.push (chain : Chain next pointer nodes) (nonnull : node ≠ 0)
    (absent : node ∉ nodes) : Chain (Function.update next node pointer) node (node :: nodes) := by
  refine ⟨rfl, nonnull, ?_⟩
  rw [Function.update_self]
  refine chain.congr fun later member => Function.update_of_ne ?_ _ _
  rintro rfl
  exact absent member

/-- The search stops at the first node that qualifies, having passed the ones before. -/
theorem seek_found (chain : Chain next pointer (before ++ node :: after))
    (passed : ∀ earlier ∈ before, stop earlier = false) (stops : stop node = true)
    (enough : before.length < steps) :
    seek next stop steps prev pointer = (before.getLastD prev, node) := by
  induction before generalizing pointer prev steps with
  | nil =>
    obtain ⟨rfl, nonnull, _⟩ := chain
    cases steps with
    | zero => simp at enough
    | succ steps => simp [seek, nonnull, stops]
  | cons first rest ih =>
    obtain ⟨rfl, nonnull, tail⟩ := chain
    cases steps with
    | zero => simp at enough
    | succ steps =>
      have skip := passed pointer List.mem_cons_self
      simp only [seek, nonnull, skip, if_false, Bool.false_eq_true]
      rw [ih tail (fun earlier member => passed earlier (List.mem_cons_of_mem _ member))
        (by simpa using enough), List.getLastD_cons]

/-- What a search finds is in the list and qualifies. -/
theorem seek_mem (chain : Chain next pointer nodes)
    (found : (seek next stop steps prev pointer).2 ≠ 0) :
    (seek next stop steps prev pointer).2 ∈ nodes ∧
      stop (seek next stop steps prev pointer).2 = true := by
  induction nodes generalizing pointer prev steps with
  | nil =>
    cases steps with
    | zero => exact absurd rfl found
    | succ steps => simp [seek, chain_nil.mp chain] at found
  | cons first rest ih =>
    obtain ⟨rfl, nonnull, tail⟩ := chain
    cases steps with
    | zero => exact absurd rfl found
    | succ steps =>
      rw [seek, if_neg nonnull] at found ⊢
      by_cases stops : stop pointer = true
      · rw [if_pos stops]
        exact ⟨List.mem_cons_self, stops⟩
      · rw [if_neg stops] at found ⊢
        obtain ⟨member, qualifies⟩ := ih tail found
        exact ⟨List.mem_cons_of_mem _ member, qualifies⟩

/-- A search finds something when a node qualifies. -/
theorem seek_ne_zero (chain : Chain next pointer nodes) (member : node ∈ nodes)
    (stops : stop node = true) (enough : nodes.length < steps) :
    (seek next stop steps prev pointer).2 ≠ 0 := by
  induction nodes generalizing pointer prev steps with
  | nil => cases member
  | cons first rest ih =>
    obtain ⟨rfl, nonnull, tail⟩ := chain
    cases steps with
    | zero => cases enough
    | succ steps =>
      rw [seek, if_neg nonnull]
      by_cases here : stop pointer = true
      · rwa [if_pos here]
      · rw [if_neg here]
        rcases List.mem_cons.mp member with rfl | later
        · exact absurd stops here
        · exact ih tail later (Nat.lt_of_succ_lt_succ enough)

/-- The search ends at null when no node qualifies. -/
theorem seek_absent (chain : Chain next pointer nodes)
    (passed : ∀ earlier ∈ nodes, stop earlier = false) (enough : nodes.length < steps) :
    (seek next stop steps prev pointer).2 = 0 := by
  induction nodes generalizing pointer prev steps with
  | nil =>
    cases steps with
    | zero => simp at enough
    | succ steps => simp [seek, chain_nil.mp chain]
  | cons first rest ih =>
    obtain ⟨rfl, nonnull, tail⟩ := chain
    cases steps with
    | zero => simp at enough
    | succ steps =>
      have skip := passed pointer List.mem_cons_self
      simp only [seek, nonnull, skip, if_false, Bool.false_eq_true]
      exact ih tail (fun earlier member => passed earlier (List.mem_cons_of_mem _ member))
        (by simpa using enough)

/-- Unlinking the first node: the list starts at its successor. -/
theorem Chain.unlink_first (chain : Chain next pointer (node :: after)) :
    Chain next (next node) after := chain.2.2

/-- Unlinking a later node: its predecessor takes over its link. -/
theorem Chain.unlink_after (chain : Chain next pointer (before ++ prev :: node :: after)) :
    Chain (Function.update next prev (next node)) pointer (before ++ prev :: after) := by
  have distinct := chain.nodup
  induction before generalizing pointer with
  | nil =>
    obtain ⟨rfl, nonnull, rfl, _, tail⟩ := chain
    refine ⟨rfl, nonnull, ?_⟩
    rw [Function.update_self]
    refine tail.congr fun later member => Function.update_of_ne ?_ _ _
    rintro rfl
    simp [member] at distinct
  | cons first rest ih =>
    obtain ⟨rfl, nonnull, tail⟩ := chain
    have apart : pointer ≠ prev := by
      rintro rfl
      simp at distinct
    refine ⟨rfl, nonnull, ?_⟩
    rw [Function.update_of_ne apart]
    exact ih tail (List.nodup_cons.mp distinct).2

/-- The last node before another one is null only when there is none. -/
theorem Chain.getLastD_eq_zero (chain : Chain next pointer (before ++ after)) :
    before.getLastD 0 = 0 ↔ before = [] := by
  rcases List.eq_nil_or_concat before with rfl | ⟨init, prev, rfl⟩
  · simp
  · have nonnull : prev ≠ 0 := chain.ne_zero (by simp)
    simp [nonnull]

/-- Unlinking a node wherever it is: the first one by moving the start of the list, a later
one by the link of its predecessor. -/
theorem Chain.unlink (chain : Chain next pointer (before ++ node :: after)) :
    Chain
      (if before.getLastD 0 = 0 then next
        else Function.update next (before.getLastD 0) (next node))
      (if before.getLastD 0 = 0 then next node else pointer) (before ++ after) := by
  rcases List.eq_nil_or_concat before with rfl | ⟨init, prev, rfl⟩
  · exact chain.suffix.2.2
  · have nonnull : prev ≠ 0 := chain.ne_zero (by simp)
    simp only [List.concat_eq_append, List.append_assoc, List.singleton_append,
      List.getLastD_concat, if_neg nonnull] at chain ⊢
    exact chain.unlink_after

end LinkedList
