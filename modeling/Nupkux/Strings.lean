import Nupkux.Types

/-!
# The string library

The functions of `lib/string.c` the kernel compares and copies names with. A `char` is
signed. A pointer to a string is an `Option`, with `none` for the null pointer.
-/

namespace Nupkux

/-- A text of the kernel. -/
def ascii (s : String) : CString := s.toList.map fun c => UInt8.ofNat c.toNat

/-- The value of a character as a signed `char`. -/
def charValue (c : UInt8) : Int := if c.toNat < 128 then c.toNat else c.toNat - 256

/-- A string without a NUL among its bytes. -/
def NoNul (s : CString) : Prop := 0 ∉ s

instance (s : CString) : Decidable (NoNul s) := inferInstanceAs (Decidable (0 ∉ s))

/-- `(a < b) ? -1 : 1` for two different characters, and 0 for equal ones. -/
def charOrder (a b : UInt8) : Int :=
  if a = b then 0 else if charValue a < charValue b then -1 else 1

/-- The loop of `strcmp`, and the comparison after it. -/
def compareStrings : CString → CString → Int
  | a :: s, b :: t =>
    if a = 0 ∨ b = 0 then charOrder a b
    else if charValue a < charValue b then -1
    else if charValue a > charValue b then 1
    else compareStrings s t
  | s, t => charOrder (s.headD 0) (t.headD 0)

/-- `strcmp`. -/
def strcmp : Option CString → Option CString → Int
  | some s, some t => compareStrings s t
  | _, _ => 0

variable {a b c : UInt8} {s t : CString}

/-- Characters with one value are one character. -/
theorem charValue_inj (same : charValue a = charValue b) : a = b := by
  have first := a.toNat_lt
  have second := b.toNat_lt
  apply UInt8.toNat_inj.mp
  simp only [charValue] at same
  split at same <;> split at same <;> omega

/-- Only equal characters compare equal. -/
theorem charOrder_eq_zero : charOrder a b = 0 ↔ a = b := by
  unfold charOrder
  by_cases same : a = b
  · simp [same]
  · rw [if_neg same]
    split <;> simp [same]

/-- The tail of a string has no NUL either. -/
theorem NoNul.tail (whole : NoNul (c :: s)) : NoNul s :=
  fun member => whole (List.mem_cons_of_mem _ member)

/-- The first character of a string is not NUL. -/
theorem NoNul.head_ne (whole : NoNul (c :: s)) : c ≠ 0 := by
  rintro rfl
  exact whole List.mem_cons_self

/-- `strcmp` is 0 for equal strings only. -/
theorem compareStrings_eq_zero (first : NoNul s) (second : NoNul t) :
    compareStrings s t = 0 ↔ s = t := by
  induction s generalizing t with
  | nil =>
    cases t with
    | nil => simp [compareStrings, charOrder]
    | cons d t =>
      have nonzero := second.head_ne
      simp [compareStrings, charOrder_eq_zero, Ne.symm nonzero]
  | cons c s ih =>
    have nonzero := first.head_ne
    cases t with
    | nil => simp [compareStrings, charOrder_eq_zero, nonzero]
    | cons d t =>
      have nonzero' := second.head_ne
      by_cases same : c = d
      · subst same
        simp [compareStrings, nonzero, ih first.tail second.tail]
      · have apart : charValue c ≠ charValue d := fun equal => same (charValue_inj equal)
        simp only [compareStrings, nonzero, nonzero', or_self, if_false, List.cons.injEq, same,
          false_and, iff_false]
        split
        · decide
        · rw [if_pos (by omega)]
          decide

end Nupkux
