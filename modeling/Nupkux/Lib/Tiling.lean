import Mathlib.Data.List.Basic

/-!
# Pieces that tile a range

A range of addresses is tiled when pieces of given sizes follow each other from its start to its
end, and each of them looks as it should at its address. What is at an address decides which
pieces tile a range, so that a tiling can be taken apart and put together at any boundary.
-/

namespace Tiling

variable {α : Type*} (size : α → Nat) (looks looks' : Nat → α → Prop)

/-- The pieces follow each other from one address to another. -/
def Tiles : Nat → List α → Nat → Prop
  | start, [], stop => start = stop
  | start, piece :: pieces, stop => looks start piece ∧ Tiles (start + size piece) pieces stop

/-- Whether pieces follow each other is found by looking at one after the other. -/
instance decidableTiles [∀ address piece, Decidable (looks address piece)] :
    (start : Nat) → (pieces : List α) → (stop : Nat) → Decidable (Tiles size looks start pieces stop)
  | start, [], stop => inferInstanceAs (Decidable (start = stop))
  | start, piece :: pieces, stop =>
    have := decidableTiles (start + size piece) pieces stop
    inferInstanceAs (Decidable (looks start piece ∧ Tiles size looks (start + size piece) pieces stop))

/-- The size of pieces together. -/
def total : List α → Nat
  | [] => 0
  | piece :: pieces => size piece + total pieces

/-- The addresses of the pieces. -/
def places : Nat → List α → List (Nat × α)
  | _, [] => []
  | start, piece :: pieces => (start, piece) :: places (start + size piece) pieces

variable {size looks looks'} {start stop middle : Nat} {pieces more : List α} {piece : α}

/-- The size of two lists of pieces. -/
@[simp] theorem total_append (pieces more : List α) :
    total size (pieces ++ more) = total size pieces + total size more := by
  induction pieces with
  | nil => exact (Nat.zero_add _).symm
  | cons piece pieces ih =>
    rw [List.cons_append, total, total, ih]
    omega

/-- The addresses of two lists of pieces. -/
theorem places_append (start : Nat) (pieces more : List α) :
    places size start (pieces ++ more) =
      places size start pieces ++ places size (start + total size pieces) more := by
  induction pieces generalizing start with
  | nil => rfl
  | cons piece pieces ih =>
    have next : start + total size (piece :: pieces) = start + size piece + total size pieces :=
      (Nat.add_assoc ..).symm
    rw [List.cons_append, places, places, ih, next]
    rfl

/-- A piece has an address where the pieces before it end. -/
theorem mem_places {place : Nat} :
    (place, piece) ∈ places size start pieces ↔
      ∃ before after, pieces = before ++ piece :: after ∧ place = start + total size before := by
  induction pieces generalizing start with
  | nil =>
    refine iff_of_false List.not_mem_nil ?_
    rintro ⟨before, after, none, _⟩
    cases before <;> cases none
  | cons first pieces ih =>
    rw [places, List.mem_cons, ih]
    constructor
    · rintro (same | ⟨before, after, rfl, rfl⟩)
      · obtain ⟨rfl, rfl⟩ := Prod.mk.inj same
        exact ⟨[], pieces, rfl, rfl⟩
      · exact ⟨first :: before, after, rfl, by rw [total]; omega⟩
    · rintro ⟨before, after, here, rfl⟩
      cases before with
      | nil =>
        obtain ⟨rfl, rfl⟩ := List.cons.inj here
        exact .inl rfl
      | cons one before =>
        obtain ⟨rfl, rfl⟩ := List.cons.inj here
        exact .inr ⟨before, after, rfl, by rw [total]; omega⟩

/-- The pieces end where their sizes say. -/
theorem Tiles.stop_eq (tiles : Tiles size looks start pieces stop) :
    stop = start + total size pieces := by
  induction pieces generalizing start with
  | nil => exact tiles.symm
  | cons piece pieces ih =>
    rw [ih tiles.2, total]
    omega

/-- A tiling is taken apart, or put together. -/
theorem tiles_append :
    Tiles size looks start (pieces ++ more) stop ↔
      Tiles size looks start pieces (start + total size pieces) ∧
        Tiles size looks (start + total size pieces) more stop := by
  induction pieces generalizing start with
  | nil => exact ⟨fun tiles => ⟨rfl, tiles⟩, And.right⟩
  | cons piece pieces ih =>
    have next : start + total size (piece :: pieces) = start + size piece + total size pieces :=
      (Nat.add_assoc ..).symm
    rw [List.cons_append, next]
    exact (and_congr_right fun _ => ih).trans and_assoc.symm

/-- A tiling around a piece. -/
theorem tiles_middle {before after : List α} :
    Tiles size looks start (before ++ piece :: after) stop ↔
      Tiles size looks start before (start + total size before) ∧
        looks (start + total size before) piece ∧
        Tiles size looks (start + total size before + size piece) after stop :=
  tiles_append

/-- Pieces that look the same in both ways tile in both ways. -/
theorem Tiles.congr (tiles : Tiles size looks start pieces stop)
    (same : ∀ place piece, (place, piece) ∈ places size start pieces → looks place piece →
      looks' place piece) : Tiles size looks' start pieces stop := by
  induction pieces generalizing start with
  | nil => exact tiles
  | cons piece pieces ih =>
    refine ⟨same start piece List.mem_cons_self tiles.1, ih tiles.2 fun place other member => ?_⟩
    exact same place other (List.mem_cons_of_mem _ member)

/-- A piece of a tiling is inside. -/
theorem Tiles.bounds {place : Nat} (tiles : Tiles size looks start pieces stop)
    (member : (place, piece) ∈ places size start pieces) :
    start ≤ place ∧ place + size piece ≤ stop := by
  have ends := tiles.stop_eq
  obtain ⟨before, after, rfl, rfl⟩ := mem_places.mp member
  rw [total_append, total] at ends
  omega

/-- What is at an address decides about the piece there. -/
def Decides (looks : Nat → α → Prop) : Prop :=
  ∀ place piece other, looks place piece → looks place other → piece = other

/-- Pieces are not empty. -/
def Solid (size : α → Nat) (looks : Nat → α → Prop) : Prop :=
  ∀ place piece, looks place piece → 0 < size piece

/-- A tiling begins with every tiling of a first part. -/
theorem Tiles.extends (decides : Decides looks) (solid : Solid size looks)
    (part : Tiles size looks start pieces middle) (whole : Tiles size looks start more stop)
    (inside : middle ≤ stop) :
    ∃ rest, more = pieces ++ rest ∧ Tiles size looks middle rest stop := by
  induction pieces generalizing start more with
  | nil =>
    rw [show middle = start from part.symm]
    exact ⟨more, rfl, whole⟩
  | cons piece pieces ih =>
    have positive := solid _ _ part.1
    have ends := part.2.stop_eq
    cases more with
    | nil =>
      have same : start = stop := whole
      omega
    | cons other more =>
      obtain rfl := decides _ _ _ part.1 whole.1
      obtain ⟨rest, rfl, tiles⟩ := ih part.2 whole.2
      exact ⟨rest, rfl, tiles⟩

/-- A range is tiled in one way. -/
theorem Tiles.unique (decides : Decides looks) (solid : Solid size looks)
    (first : Tiles size looks start pieces stop) (second : Tiles size looks start more stop) :
    pieces = more := by
  obtain ⟨rest, rfl, tiles⟩ := first.extends decides solid second (Nat.le_refl _)
  cases rest with
  | nil => exact (List.append_nil _).symm
  | cons piece rest =>
    have positive := solid _ _ tiles.1
    have ends := tiles.2.stop_eq
    omega

end Tiling
