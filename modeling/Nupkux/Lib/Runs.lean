import Mathlib.Data.List.Basic

/-!
# Runs between separators

A run of a list is a part without separators that cannot be made longer. The runs from a position on
are listed by taking the list apart: separators, a run, the separator behind it and the rest.
-/

namespace Runs

variable {α : Type*} (sep : α → Prop)

/-- There is a separator at a position. -/
def SepAt (l : List α) (j : Nat) : Prop := ∃ c, l[j]? = some c ∧ sep c

/-- There is an element that is no separator at a position. -/
def LetterAt (l : List α) (j : Nat) : Prop := ∃ c, l[j]? = some c ∧ ¬sep c

/-- So many elements from a position on are a run. -/
structure IsRun (l : List α) (k n : Nat) : Prop where
  pos : 0 < n
  letters : ∀ j, k ≤ j → j < k + n → LetterAt sep l j
  before : k = 0 ∨ SepAt sep l (k - 1)
  behind : k + n = l.length ∨ SepAt sep l (k + n)

/-- The positions and lengths of the runs from a position on, in their order. -/
structure Lists (l : List α) (k : Nat) (runs : List (Nat × Nat)) : Prop where
  order : runs.Pairwise fun r r' => r.1 < r'.1
  all : ∀ r, r ∈ runs ↔ k ≤ r.1 ∧ IsRun sep l r.1 r.2

variable {sep} {l u v w : List α} {j k n : Nat} {runs : List (Nat × Nat)}

/-- A separator is no other element. -/
theorem SepAt.not_letterAt (separator : SepAt sep l j) : ¬LetterAt sep l j := by
  rintro ⟨c, here, letter⟩
  obtain ⟨c', here', holds⟩ := separator
  obtain rfl := Option.some.inj (here.symm.trans here')
  exact letter holds

/-- There is an element inside of the list only. -/
theorem LetterAt.lt (letter : LetterAt sep l j) : j < l.length := by
  obtain ⟨c, here, _⟩ := letter
  exact (List.getElem?_eq_some_iff.mp here).1

/-- An element of a part. -/
theorem getElem?_part (parts : l.drop k = u ++ v ++ w) (low : k + u.length ≤ j)
    (high : j < k + u.length + v.length) : ∃ c ∈ v, l[j]? = some c := by
  obtain ⟨n, rfl⟩ := Nat.exists_eq_add_of_le low
  have inside : n < v.length := by omega
  have shifted : (l.drop k)[u.length + n]? = l[k + (u.length + n)]? := List.getElem?_drop
  refine ⟨v[n], List.getElem_mem inside, ?_⟩
  rw [Nat.add_assoc, ← shifted, parts, List.append_assoc, List.getElem?_append_right (by omega),
    Nat.add_sub_cancel_left, List.getElem?_append_left inside, List.getElem?_eq_getElem inside]

/-- A part of separators. -/
theorem sepAt_of_part (parts : l.drop k = u ++ v ++ w) (all : ∀ c ∈ v, sep c)
    (low : k + u.length ≤ j) (high : j < k + u.length + v.length) : SepAt sep l j := by
  obtain ⟨c, member, here⟩ := getElem?_part parts low high
  exact ⟨c, here, all c member⟩

/-- A part without separators. -/
theorem letterAt_of_part (parts : l.drop k = u ++ v ++ w) (none : ∀ c ∈ v, ¬sep c)
    (low : k + u.length ≤ j) (high : j < k + u.length + v.length) : LetterAt sep l j := by
  obtain ⟨c, member, here⟩ := getElem?_part parts low high
  exact ⟨c, here, none c member⟩

/-- There is no run among separators. -/
theorem lists_nil (separators : ∀ j, k ≤ j → j < l.length → SepAt sep l j) :
    Lists sep l k [] := by
  refine ⟨List.Pairwise.nil, fun r => iff_of_false List.not_mem_nil ?_⟩
  rintro ⟨low, run⟩
  have letter := run.letters r.1 (Nat.le_refl _) (Nat.lt_add_of_pos_right run.pos)
  exact (separators r.1 low letter.lt).not_letterAt letter

section First

variable {a e a' : Nat} (skipped : ∀ j, k ≤ j → j < a → SepAt sep l j)
  (letters : ∀ j, a ≤ j → j < e → LetterAt sep l j) (low : k ≤ a) (some : a < e)
  (behind : e = l.length ∨ SepAt sep l e)
include skipped letters low some behind

/-- A run is the first one or behind it. -/
theorem isRun_later (run : IsRun sep l a' n) (from_ : k ≤ a') : a' = a ∧ n = e - a ∨ e < a' := by
  have first := run.letters a' (Nat.le_refl _) (Nat.lt_add_of_pos_right run.pos)
  have notSkipped : a ≤ a' := by
    by_contra early
    exact (skipped a' from_ (Nat.lt_of_not_le early)).not_letterAt first
  rcases Nat.eq_or_lt_of_le notSkipped with rfl | later
  · have notShorter : e ≤ a + n := by
      by_contra short
      have inside := letters (a + n) (Nat.le_add_right _ _) (Nat.lt_of_not_le short)
      rcases run.behind with ends | separator
      · exact absurd inside.lt (by omega)
      · exact separator.not_letterAt inside
    have notLonger : a + n ≤ e := by
      by_contra long
      have inside := run.letters e (Nat.le_of_lt some) (Nat.lt_of_not_le long)
      rcases behind with ends | separator
      · exact absurd inside.lt (by omega)
      · exact separator.not_letterAt inside
    exact .inl ⟨rfl, by omega⟩
  · refine .inr (Nat.lt_of_not_le fun within => ?_)
    rcases run.before with zero | separator
    · omega
    · exact separator.not_letterAt (letters (a' - 1) (by omega) (by omega))

variable (start : k = 0 ∨ SepAt sep l (k - 1))
include start

/-- The first run from a position on. -/
theorem isRun_first : IsRun sep l a (e - a) := by
  have ends : a + (e - a) = e := Nat.add_sub_cancel' (Nat.le_of_lt some)
  refine ⟨Nat.sub_pos_of_lt some, fun j from_ upTo => letters j from_ (ends ▸ upTo), ?_, ?_⟩
  · rcases Nat.eq_or_lt_of_le low with rfl | later
    · exact start
    · exact .inr (skipped (a - 1) (by omega) (by omega))
  · rwa [ends]

/-- The first run and those behind it. -/
theorem lists_cons (rest : Lists sep l (e + 1) runs) : Lists sep l k ((a, e - a) :: runs) := by
  refine ⟨List.pairwise_cons.mpr ⟨fun r member => ?_, rest.order⟩, fun r => ?_⟩
  · have later := ((rest.all r).mp member).1
    show a < r.1
    omega
  · rw [List.mem_cons, rest.all]
    constructor
    · rintro (rfl | ⟨later, run⟩)
      · exact ⟨low, isRun_first skipped letters low some behind start⟩
      · exact ⟨by omega, run⟩
    · rintro ⟨from_, run⟩
      rcases isRun_later skipped letters low some behind run from_ with ⟨same, length⟩ | later
      · exact .inl (Prod.ext same length)
      · exact .inr ⟨later, run⟩

end First

end Runs
