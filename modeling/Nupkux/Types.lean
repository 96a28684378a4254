import Mathlib.Logic.Basic

/-!
# Machine types

The C types of the kernel. Arithmetic on a counter takes the number `width` of its values:
the width of its type is the counter as compiled, and 0 makes it an exact integer, since
`n % 0 = n`.
-/

namespace Nupkux

/-- A C string: its bytes before the NUL. -/
abbrev CString := List UInt8

/-- The number of values of a UCHAR. -/
def ucharWidth : Nat := 256

/-- The number of values of a UINT. -/
def uintWidth : Nat := 4294967296

/-- The number of values of a USHORT. -/
def ushortWidth : Nat := 65536

/-- An integer as it is stored in an `int`. -/
def toInt (n : Int) : Int := (n + 2147483648) % 4294967296 - 2147483648

/-- An integer as it is stored in a `char`. -/
def toChar (n : Int) : Int := (n + 128) % 256 - 128

/-- An integer as it is stored in a `size_t` or a `UINT`. -/
def toUint (n : Int) : Nat := (n % 4294967296).toNat

/-- The width at which counters are exact integers. -/
def exactWidth : Nat := 0

/-- `a + b` of two UINTs. -/
def uadd (a b : Nat) : Nat := (a + b) % uintWidth

/-- `a - b` of two UINTs. -/
def usub (a b : Nat) : Nat := (a + (uintWidth - b)) % uintWidth

/-- `a * b` of two UINTs. -/
def umul (a b : Nat) : Nat := a * b % uintWidth

variable {a b : Nat}

/-- A product that does not wrap. -/
theorem umul_of_lt (small : a * b < uintWidth) : umul a b = a * b := Nat.mod_eq_of_lt small

/-- A sum is a UINT. -/
theorem uadd_lt (a b : Nat) : uadd a b < uintWidth := Nat.mod_lt _ (by decide)

/-- A sum that does not wrap. -/
theorem uadd_of_lt (small : a + b < uintWidth) : uadd a b = a + b := Nat.mod_eq_of_lt small

/-- A difference that does not wrap. -/
theorem usub_of_le (ordered : b ≤ a) (small : a < uintWidth) : usub a b = a - b := by
  simp only [usub, uintWidth] at *
  omega

/-- `FRAME_SIZE`. -/
def frameSize : Nat := 4096

/-- `ASSERT_ALIGN`: the next page boundary, for an address that is not on one. -/
def assertAlign (value : Nat) : Nat :=
  if value % frameSize ≠ 0 then uadd (value - value % frameSize) frameSize else value

/-- `ALIGN_UP`: the page boundary above, also for an address on one. -/
def alignUp (value : Nat) : Nat := uadd (value - value % frameSize) frameSize

/-- An aligned address is a UINT. -/
theorem assertAlign_lt (small : a < uintWidth) : assertAlign a < uintWidth := by
  unfold assertAlign
  split
  · exact uadd_lt _ _
  · exact small

/-- An address that does not wrap is aligned to a page boundary less than a page above. -/
theorem assertAlign_spec (small : a + frameSize < uintWidth) :
    a ≤ assertAlign a ∧ assertAlign a < a + frameSize ∧ assertAlign a % frameSize = 0 := by
  unfold assertAlign
  by_cases aligned : a % frameSize = 0
  · rw [if_neg (not_not.mpr aligned)]
    exact ⟨Nat.le_refl a, Nat.lt_add_of_pos_right (by decide), aligned⟩
  · rw [if_pos aligned]
    simp only [uadd, frameSize, uintWidth] at *
    omega

end Nupkux
