import Mathlib.Data.List.Lex
import Nupkux.Strings

/-!
# The order of strings

`strcmp` orders strings by their signed characters with the NUL behind them, so that a string need
not come before its continuations. `strncmp` counts down in the test of its loop: when the count has
run out there, it has passed below 0 and no longer tells the comparison behind the loop to stop.
-/

namespace Nupkux

/-- The end of `strncmp`, with what is left of the count. -/
def boundedEnd (n : Nat) (a b : UInt8) : Int :=
  if n ≠ 0 ∧ a ≠ b then if charValue a < charValue b then -1 else 1 else 0

/-- The loop of `strncmp`, and the comparison after it. -/
def compareBounded : Nat → CString → CString → Int
  | n, a :: s, b :: t =>
    if a = 0 ∨ b = 0 then boundedEnd n a b
    else
      match n with
      | 0 => boundedEnd (uintWidth - 1) a b
      | n + 1 =>
        if charValue a < charValue b then -1
        else if charValue a > charValue b then 1
        else compareBounded n s t
  | n, s, t => boundedEnd n (s.headD 0) (t.headD 0)

/-- `strncmp`. -/
def strncmp : Option CString → Option CString → Nat → Int
  | some s, some t, n => compareBounded n s t
  | _, _, _ => 0

/-- After so many characters that agree, both strings go on, and differently. -/
def DifferNext (s t : CString) (n : Nat) : Prop :=
  s.take n = t.take n ∧ ∃ a b, s[n]? = some a ∧ t[n]? = some b ∧ a ≠ b

instance (s t : CString) (n : Nat) : Decidable (DifferNext s t n) :=
  decidable_of_iff (s.take n = t.take n ∧ s[n]?.isSome ∧ t[n]?.isSome ∧ s[n]? ≠ t[n]?) <| by
    unfold DifferNext
    cases s[n]? <;> cases t[n]? <;> simp

/-- What `strcmp` orders strings by. -/
def orderKey (s : CString) : List Int := s.map charValue ++ [0]

variable {a b : UInt8} {s t u : CString} {n : Nat}

/-! ## strcmp -/

/-- The other order of two characters. -/
theorem charOrder_swap (a b : UInt8) : charOrder a b = -charOrder b a := by
  unfold charOrder
  by_cases same : a = b
  · rw [if_pos same, if_pos same.symm]
    rfl
  · have differ : charValue a ≠ charValue b := fun equal => same (charValue_inj equal)
    rw [if_neg same, if_neg (Ne.symm same)]
    split <;> split <;> omega

/-- An empty string. -/
theorem compareStrings_nil (t : CString) : compareStrings [] t = charOrder 0 (t.headD 0) := by
  cases t <;> rfl

/-- A string and an empty one. -/
theorem compareStrings_nil_right (s : CString) : compareStrings s [] = charOrder (s.headD 0) 0 := by
  cases s <;> rfl

/-- Two strings that are not empty. -/
theorem compareStrings_cons (a b : UInt8) (s t : CString) :
    compareStrings (a :: s) (b :: t) =
      if a = 0 ∨ b = 0 then charOrder a b
      else if charValue a < charValue b then -1
      else if charValue a > charValue b then 1
      else compareStrings s t := rfl

/-- The other order of two strings. -/
theorem compareStrings_swap (s t : CString) : compareStrings s t = -compareStrings t s := by
  induction s generalizing t with
  | nil =>
    rw [compareStrings_nil, compareStrings_nil_right]
    exact charOrder_swap ..
  | cons a s ih =>
    cases t with
    | nil => exact charOrder_swap ..
    | cons b t =>
      rw [compareStrings_cons, compareStrings_cons]
      by_cases ends : a = 0 ∨ b = 0
      · rw [if_pos ends, if_pos (or_comm.mp ends)]
        exact charOrder_swap a b
      · rw [if_neg ends, if_neg (mt or_comm.mp ends), ih]
        split <;> split <;> omega

/-- The order of two characters is that of their values. -/
theorem charOrder_pos : 0 < charOrder a b ↔ charValue b < charValue a := by
  unfold charOrder
  by_cases same : a = b
  · simp [same]
  · have differ : charValue a ≠ charValue b := fun equal => same (charValue_inj equal)
    rw [if_neg same]
    split <;> omega

/-- Only NUL has the value 0. -/
theorem charValue_eq_zero : charValue a = 0 ↔ a = 0 := by
  constructor
  · exact fun zero => charValue_inj (b := 0) zero
  · rintro rfl
    rfl

/-- The key of a string that is not empty. -/
theorem orderKey_cons (a : UInt8) (s : CString) : orderKey (a :: s) = charValue a :: orderKey s :=
  rfl

/-- A string comes after another one if its key does. -/
theorem compareStrings_pos (first : NoNul s) (second : NoNul t) :
    0 < compareStrings s t ↔ orderKey t < orderKey s := by
  have nul : charValue 0 = 0 := rfl
  have key : orderKey [] = [0] := rfl
  induction s generalizing t with
  | nil =>
    rw [compareStrings_nil, charOrder_pos, key, nul]
    cases t with
    | nil => simp [key, nul]
    | cons b t =>
      have nonzero : charValue b ≠ 0 := fun zero => second.head_ne (charValue_eq_zero.mp zero)
      rw [orderKey_cons, List.cons_lt_cons_iff]
      simp [nonzero]
  | cons a s ih =>
    have nonzero := first.head_ne
    cases t with
    | nil =>
      have value : charValue a ≠ 0 := fun zero => nonzero (charValue_eq_zero.mp zero)
      rw [compareStrings_nil_right, charOrder_pos, orderKey_cons, key, List.cons_lt_cons_iff]
      simp [nul, Ne.symm value]
    | cons b t =>
      have nonzero' := second.head_ne
      rw [compareStrings_cons, if_neg (by simp [nonzero, nonzero']), orderKey_cons, orderKey_cons,
        List.cons_lt_cons_iff]
      have later := ih first.tail second.tail
      split
      · omega
      · split
        · omega
        · have equal : charValue b = charValue a := by omega
          exact later.trans (by simp [equal])

/-- The order of strings is transitive. -/
theorem compareStrings_trans (first : NoNul s) (second : NoNul t) (third : NoNul u)
    (before : compareStrings s t ≤ 0) (before' : compareStrings t u ≤ 0) :
    compareStrings s u ≤ 0 := by
  rw [← Int.not_lt, compareStrings_pos first second, List.not_lt] at before
  rw [← Int.not_lt, compareStrings_pos second third, List.not_lt] at before'
  rw [← Int.not_lt, compareStrings_pos first third, List.not_lt]
  exact List.le_trans before before'

/-! ## strncmp -/

/-- While the count lasts, `strncmp` ends as `strcmp` does. -/
theorem boundedEnd_of_pos (positive : n ≠ 0) (a b : UInt8) : boundedEnd n a b = charOrder a b := by
  unfold boundedEnd charOrder
  by_cases same : a = b
  · simp [same]
  · rw [if_pos ⟨positive, same⟩, if_neg same]

/-- An empty string. -/
theorem compareBounded_nil (n : Nat) (t : CString) :
    compareBounded n [] t = boundedEnd n 0 (t.headD 0) := by
  cases n <;> cases t <;> rfl

/-- A string and an empty one. -/
theorem compareBounded_nil_right (n : Nat) (s : CString) :
    compareBounded n s [] = boundedEnd n (s.headD 0) 0 := by
  cases n <;> cases s <;> rfl

/-- When the count is 0, two strings that are not empty are told apart by their next characters. -/
theorem compareBounded_zero (a b : UInt8) (s t : CString) (letter : a ≠ 0) (letter' : b ≠ 0) :
    compareBounded 0 (a :: s) (b :: t) = charOrder a b := by
  rw [compareBounded, if_neg (by simp [letter, letter'])]
  exact boundedEnd_of_pos (by decide) a b

/-- A character of each string is compared while the count lasts. -/
theorem compareBounded_succ (n : Nat) (a b : UInt8) (s t : CString) (letter : a ≠ 0)
    (letter' : b ≠ 0) : compareBounded (n + 1) (a :: s) (b :: t) =
      if charValue a < charValue b then -1
      else if charValue a > charValue b then 1
      else compareBounded n s t := if_neg (by simp [letter, letter'])

/-- `strncmp` compares the strings cut to the count if and only if they do not go on differently
just after it. -/
theorem compareBounded_iff (first : NoNul s) (second : NoNul t) :
    compareBounded n s t = compareStrings (s.take n) (t.take n) ↔ ¬DifferNext s t n := by
  induction n generalizing s t with
  | zero =>
    cases s with
    | nil => simp [DifferNext, compareBounded_nil, boundedEnd, compareStrings, charOrder]
    | cons a s =>
      cases t with
      | nil => simp [DifferNext, compareBounded_nil_right, boundedEnd, compareStrings, charOrder]
      | cons b t =>
        have cut : compareStrings ((a :: s).take 0) ((b :: t).take 0) = 0 := rfl
        rw [compareBounded_zero a b s t first.head_ne second.head_ne, cut, charOrder_eq_zero]
        simp [DifferNext]
  | succ n ih =>
    cases s with
    | nil =>
      rw [compareBounded_nil, boundedEnd_of_pos (Nat.succ_ne_zero n), List.take_nil,
        compareStrings_nil]
      cases t <;> simp [DifferNext]
    | cons a s =>
      cases t with
      | nil =>
        rw [compareBounded_nil_right, boundedEnd_of_pos (Nat.succ_ne_zero n), List.take_nil,
          compareStrings_nil_right]
        simp [DifferNext]
      | cons b t =>
        have letter := first.head_ne
        have letter' := second.head_ne
        have inside : ¬(a = 0 ∨ b = 0) := not_or.mpr ⟨letter, letter'⟩
        have later := ih first.tail second.tail
        rw [compareBounded_succ n a b s t letter letter', List.take_succ_cons, List.take_succ_cons,
          compareStrings_cons, if_neg inside]
        by_cases same : a = b
        · subst same
          have next : DifferNext (a :: s) (a :: t) (n + 1) ↔ DifferNext s t n := by
            simp [DifferNext]
          simp only [gt_iff_lt, Int.lt_irrefl, if_false, later, next]
        · have differ : charValue a ≠ charValue b := fun equal => same (charValue_inj equal)
          have apart : ¬DifferNext (a :: s) (b :: t) (n + 1) := by simp [DifferNext, same]
          refine iff_of_true ?_ apart
          rcases Int.lt_or_gt_of_ne differ with less | more
          · rw [if_pos less, if_pos less]
          · rw [if_neg (by omega), if_pos more, if_neg (by omega), if_pos more]

/-- `strncmp` agrees with `strcmp` of the strings cut to the count if and only if they do not go on
differently just after it, and `strcmp` is 0 for equal strings only, antisymmetric and
transitive. -/
theorem strncmp_iff (n : Nat) (first : NoNul s) (second : NoNul t) (third : NoNul u) :
    (strncmp (some s) (some t) n = strcmp (some (s.take n)) (some (t.take n)) ↔
        ¬DifferNext s t n) ∧
      (strcmp (some s) (some t) = 0 ↔ s = t) ∧
      strcmp (some s) (some t) = -strcmp (some t) (some s) ∧
      (strcmp (some s) (some t) ≤ 0 → strcmp (some t) (some u) ≤ 0 →
        strcmp (some s) (some u) ≤ 0) :=
  ⟨compareBounded_iff first second, compareStrings_eq_zero first second, compareStrings_swap s t,
    compareStrings_trans first second third⟩

/-- `"ab"` and `"ab"` with a character more, up to two of them. -/
theorem strncmp_iff_ab :
    strncmp (some [97, 98]) (some [97, 98, 99]) 2 = strcmp (some [97, 98]) (some [97, 98]) :=
  (strncmp_iff (u := []) 2 (by decide) (by decide) (by decide)).1.mpr (by decide)

/-- `"ab"` and `"ac"`, of which one character is to be compared. -/
theorem strncmp_not : ¬strncmp (some [97, 98]) (some [97, 99]) 1 =
    strcmp (some ([97, 98].take 1)) (some ([97, 99].take 1)) := by decide

end Nupkux
