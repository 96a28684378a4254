import Mathlib.Data.Option.Basic

/-!
# Walks in a tree and in a table of its nodes

A walk in a tree is at a node and knows the nodes above it. It stays, goes up, where the root is
above itself, or goes down to a child by its name. A table has the nodes under numbers and answers
the same moves with a number. When each number represents a node, with the number of the node above
it, walks of the same moves go to a node and to its number, or both to nothing.
-/

/-- A move of a walk. -/
inductive Move (Name : Type*)
  /-- No move. -/
  | stay
  /-- To the node above. -/
  | up
  /-- To a child. -/
  | down (name : Name)

/-- A node and the nodes above it, the nearest one first. -/
structure Cursor (Node : Type*) where
  node : Node
  above : List Node := []

namespace Cursor

variable {Node Name Id : Type*}

/-- The node above, or the root itself. -/
def up : Cursor Node → Cursor Node
  | ⟨root, []⟩ => ⟨root, []⟩
  | ⟨_, parent :: above⟩ => ⟨parent, above⟩

/-- The cursor of a child. -/
def down (c : Cursor Node) (child : Node) : Cursor Node := ⟨child, c.node :: c.above⟩

/-- One move. A node without a function to its children has no moves. -/
def move (children : Node → Option (Name → Option Node)) (c : Cursor Node) (m : Move Name) :
    Option (Cursor Node) :=
  (children c.node).bind fun child =>
    match m with
    | .stay => some c
    | .up => some c.up
    | .down name => (child name).map c.down

/-- A table of numbered rows, of which each represents a node and knows the number above it. -/
structure Represents (children : Node → Option (Name → Option Node))
    (entry : Id → Move Name → Option Id) (row : Node → Id → Id → Prop) : Prop where
  /-- A row without children has no entries. -/
  leaf : ∀ node parent id m, row node parent id → children node = none → entry id m = none
  /-- The row itself. -/
  stay : ∀ node parent id child, row node parent id → children node = some child →
    entry id .stay = some id
  /-- The row above. -/
  up : ∀ node parent id child, row node parent id → children node = some child →
    entry id .up = some parent
  /-- The rows of the children. -/
  down : ∀ node parent id child, row node parent id → children node = some child →
    ∀ name, Option.Rel (fun node' id' => row node' id id') (child name) (entry id (.down name))

/-- The rows of a node and of those above it. -/
inductive Located (row : Node → Id → Id → Prop) : Cursor Node → Id → Prop
  /-- The root is above itself. -/
  | root {node : Node} {id : Id} : row node id id → Located row ⟨node, []⟩ id
  /-- A child of a node. -/
  | child {c : Cursor Node} {node : Node} {parent id : Id} : Located row c parent →
      row node parent id → Located row (c.down node) id

variable {children : Node → Option (Name → Option Node)} {entry : Id → Move Name → Option Id}
  {row : Node → Id → Id → Prop} {c : Cursor Node} {id : Id}

/-- The row of the node itself. -/
theorem Located.here (located : Located row c id) : ∃ parent, row c.node parent id := by
  cases located with
  | root here => exact ⟨id, here⟩
  | child _ here => exact ⟨_, here⟩

/-- The row above is that of the node above. -/
theorem Located.up (located : Located row c id) : ∃ parent, row c.node parent id ∧
    Located row c.up parent := by
  cases located with
  | root here => exact ⟨id, here, .root here⟩
  | child above here => exact ⟨_, here, above⟩

/-- A move leads to the row of the node that it leads to. -/
theorem Located.move (table : Represents children entry row) (located : Located row c id)
    (m : Move Name) : Option.Rel (Located row) (c.move children m) (entry id m) := by
  obtain ⟨parent, here, above⟩ := located.up
  unfold Cursor.move
  cases inner : children c.node with
  | none =>
    rw [table.leaf _ _ _ m here inner]
    exact .none
  | some child =>
    rw [Option.bind_some]
    cases m with
    | stay =>
      rw [table.stay _ _ _ _ here inner]
      exact .some located
    | up =>
      rw [table.up _ _ _ _ here inner]
      exact .some above
    | down name =>
      have found := table.down _ _ _ _ here inner name
      dsimp only
      generalize child name = node at found ⊢
      generalize entry id (.down name) = id' at found ⊢
      cases found with
      | some there => exact .some (.child located there)
      | none => exact .none

/-- Walks of the same moves lead to a node and to its row, or to nothing. -/
theorem Located.walk (table : Represents children entry row) (located : Located row c id)
    (moves : List (Move Name)) :
    Option.Rel (Located row) (moves.foldlM (Cursor.move children) c) (moves.foldlM entry id) := by
  induction moves generalizing c id with
  | nil => exact .some located
  | cons m moves ih =>
    rw [List.foldlM_cons, List.foldlM_cons]
    have first := located.move table m
    generalize c.move children m = c' at first ⊢
    generalize entry id m = id' at first ⊢
    cases first with
    | some next => exact ih next
    | none => exact .none

end Cursor
