import Nupkux.Types
import Nupkux.Lib.Words

/-!
# Strings in memory

`strlen` and `strncpy` of `lib/string.c`, which walk memory up to a NUL. A walk takes at most as
many steps as there are addresses. `strncpy` fills the rest of its target with zeros, and when it
has copied as many characters as it may and the string goes on, its counter has passed below 0
and the rest is nearly all of memory.
-/

namespace Nupkux

/-- The loop of `strlen` over at most so many characters. -/
def strlenFrom (m : Bytes) : Nat → Nat → Nat
  | 0, _ => 0
  | steps + 1, a => if m a = 0 then 0 else strlenFrom m steps (a + 1) + 1

/-- `strlen` of the string at an address. -/
def strlenAt (m : Bytes) (a : Nat) : Nat := strlenFrom m uintWidth a

/-- The first loop of `strncpy`: what is left of `num`, where `tmp` points and the memory. The
string is in a memory of its own. -/
def strncpyLoop (src : Bytes) : Nat → Nat → Nat → Bytes → Nat × Nat × Bytes
  | 0, s, tmp, m => if src s = 0 then (0, tmp, m) else (uintWidth - 1, tmp, m)
  | num + 1, s, tmp, m =>
    if src s = 0 then (num + 1, tmp, m)
    else strncpyLoop src num (s + 1) (tmp + 1) (Function.update m tmp (src s))

/-- `strncpy` of the string at `s` to `dest`. -/
def strncpy (src : Bytes) (dest s num : Nat) (m : Bytes) : Bytes :=
  let copied := strncpyLoop src num s dest m
  copied.2.2.fill copied.2.1 0 copied.1

variable {src m : Bytes} {a s dest num n steps : Nat}

/-- The loop of `strlen` ends at the first NUL. -/
theorem strlenFrom_eq (letters : ∀ i < n, m (a + i) ≠ 0) (ends : m (a + n) = 0)
    (enough : n < steps) : strlenFrom m steps a = n := by
  induction n generalizing a steps with
  | zero =>
    obtain ⟨steps, rfl⟩ := Nat.exists_eq_add_of_lt enough
    exact if_pos ends
  | succ n ih =>
    cases steps with
    | zero => cases enough
    | succ steps =>
      have first : m a ≠ 0 := letters 0 (Nat.succ_pos n)
      rw [strlenFrom, if_neg first, ih _ _ (Nat.lt_of_succ_lt_succ enough)]
      · intro i inside
        rw [show a + 1 + i = a + (i + 1) by omega]
        exact letters (i + 1) (Nat.succ_lt_succ inside)
      · rwa [show a + 1 + n = a + (n + 1) by omega]

/-- The length of a string is where its first NUL is. -/
theorem strlenAt_eq (letters : ∀ i < n, m (a + i) ≠ 0) (ends : m (a + n) = 0)
    (small : n < uintWidth) : strlenAt m a = n :=
  strlenFrom_eq letters ends small

/-- One character more than was stored. -/
theorem update_eq_blit (dest s : Nat) :
    Function.update m dest (src s) = m.blit dest (fun i => src (s + i)) 1 := by
  funext b
  unfold Bytes.blit
  by_cases same : b = dest
  · subst same
    rw [Function.update_self, if_pos (by omega), Nat.sub_self]
    rfl
  · rw [Function.update_of_ne same, if_neg (by omega)]

/-- The loop of `strncpy` copies a string that ends in time, -/
theorem strncpyLoop_of_nul (letters : ∀ i < n, src (s + i) ≠ 0) (ends : src (s + n) = 0)
    (inside : n ≤ num) : strncpyLoop src num s dest m =
      (num - n, dest + n, m.blit dest (fun i => src (s + i)) n) := by
  induction n generalizing s dest num m with
  | zero =>
    have nul : src s = 0 := ends
    cases num with
    | zero =>
      rw [strncpyLoop, if_pos nul, Bytes.blit_zero]
      rfl
    | succ num =>
      rw [strncpyLoop, if_pos nul, Bytes.blit_zero]
      rfl
  | succ n ih =>
    cases num with
    | zero => cases inside
    | succ num =>
      have next (i : Nat) : s + 1 + i = s + (i + 1) := by omega
      have more : ∀ i < n, src (s + 1 + i) ≠ 0 := by
        intro i below
        rw [next]
        exact letters (i + 1) (Nat.succ_lt_succ below)
      have finally_nul : src (s + 1 + n) = 0 := by rwa [next]
      have first : src s ≠ 0 := letters 0 (Nat.succ_pos n)
      rw [strncpyLoop, if_neg first,
        ih more finally_nul (Nat.le_of_succ_le_succ inside), update_eq_blit, Bytes.blit_blit]
      · rw [Nat.succ_sub_succ, Nat.add_assoc, Nat.add_comm 1 n]
      · intro i _
        rw [Nat.add_assoc]

/-- and so many characters of one that does not. -/
theorem strncpyLoop_of_long (letters : ∀ i ≤ num, src (s + i) ≠ 0) :
    strncpyLoop src num s dest m =
      (uintWidth - 1, dest + num, m.blit dest (fun i => src (s + i)) num) := by
  induction num generalizing s dest m with
  | zero =>
    have first : src s ≠ 0 := letters 0 (Nat.le_refl 0)
    rw [strncpyLoop, if_neg first, Bytes.blit_zero]
    rfl
  | succ num ih =>
    have more : ∀ i ≤ num, src (s + 1 + i) ≠ 0 := by
      intro i below
      rw [show s + 1 + i = s + (i + 1) by omega]
      exact letters (i + 1) (Nat.succ_le_succ below)
    have first : src s ≠ 0 := letters 0 (Nat.zero_le _)
    rw [strncpyLoop, if_neg first, ih more, update_eq_blit, Bytes.blit_blit]
    · rw [Nat.add_assoc, Nat.add_comm 1 num]
    · intro i _
      rw [Nat.add_assoc]

/-- A string that ends in time is copied and the rest is filled. -/
theorem strncpy_of_nul (letters : ∀ i < n, src (s + i) ≠ 0) (ends : src (s + n) = 0)
    (inside : n ≤ num) : strncpy src dest s num m =
      (m.blit dest (fun i => src (s + i)) n).fill (dest + n) 0 (num - n) := by
  rw [strncpy, strncpyLoop_of_nul letters ends inside]

/-- A string that goes on is cut, and memory behind the target is filled. -/
theorem strncpy_of_long (letters : ∀ i ≤ num, src (s + i) ≠ 0) :
    strncpy src dest s num m =
      (m.blit dest (fun i => src (s + i)) num).fill (dest + num) 0 (uintWidth - 1) := by
  rw [strncpy, strncpyLoop_of_long letters]

end Nupkux
