import Mathlib.Data.List.Basic
import Mathlib.Logic.Function.Basic

/-!
# Packed arrays

A block of entries of which the first ones are used, without a gap. The loops are those that C
code writes to append an entry, to search from either end and to close the gap a removed entry
leaves; each is described by the list of the used entries.
-/

namespace PackedArray

variable {α : Type*}

/-- The used entries. -/
def contents (block : Nat → α) (count : Nat) : List α := (List.range count).map block

/-- The loop `for (; index < count; index++) if (stop(block[index])) break;`, for a number of
turns. -/
def search (block : Nat → α) (stop : α → Bool) (index : Nat) : Nat → Nat
  | 0 => index
  | turns + 1 => if stop (block index) then index else search block stop (index + 1) turns

/-- The loop `while (count--) if (stop(block[count])) return count;`. -/
def searchLast (block : Nat → α) (stop : α → Bool) : Nat → Option Nat
  | 0 => none
  | count + 1 => if stop (block count) then some count else searchLast block stop count

/-- The loop `while (index < count - 1) { block[index] = block[index + 1]; index++; }`, for a
number of turns. -/
def shiftDown (block : Nat → α) (index : Nat) : Nat → Nat → α
  | 0 => block
  | turns + 1 => shiftDown (Function.update block index (block (index + 1))) (index + 1) turns

variable {block : Nat → α} {stop : α → Bool} {count index turns : Nat} {value : α}

@[simp] theorem length_contents : (contents block count).length = count := by simp [contents]

/-- A used entry. -/
theorem getElem_contents (inside : index < (contents block count).length) :
    (contents block count)[index] = block index := by
  simp [contents]

/-- One entry more in front of the unused ones. -/
theorem contents_succ : contents block (count + 1) = contents block count ++ [block count] := by
  rw [contents, contents, List.range_succ, List.map_append]
  rfl

/-- Appending an entry. -/
theorem contents_push :
    contents (Function.update block count value) (count + 1) = contents block count ++ [value] := by
  rw [contents_succ, Function.update_self]
  congr 1
  apply List.map_congr_left
  intro other below
  exact Function.update_of_ne (Nat.ne_of_lt (List.mem_range.mp below)) ..

/-- What is where after the gap is closed. -/
theorem shiftDown_apply (j : Nat) : shiftDown block index turns j =
    if index ≤ j ∧ j < index + turns then block (j + 1) else block j := by
  induction turns generalizing block index with
  | zero =>
    rw [if_neg (by omega)]
    rfl
  | succ turns ih =>
    rw [shiftDown, ih]
    by_cases first : j = index
    · rw [first, if_neg (by omega), if_pos (by omega), Function.update_self]
    · rw [Function.update_of_ne first]
      by_cases later : index + 1 ≤ j ∧ j < index + 1 + turns
      · rw [if_pos later, if_pos (by omega), Function.update_of_ne (by omega)]
      · rw [if_neg later, if_neg (by omega)]

/-- Closing the gap removes an entry. -/
theorem contents_shiftDown (inside : index < count) :
    contents (shiftDown block index (count - 1 - index)) (count - 1) =
      (contents block count).eraseIdx index := by
  apply List.ext_getElem
  · rw [List.length_eraseIdx, length_contents, length_contents, if_pos inside]
  · intro j below _
    rw [getElem_contents, shiftDown_apply, List.getElem_eraseIdx]
    rw [length_contents] at below
    by_cases earlier : j < index
    · rw [dif_pos earlier, if_neg (by omega), getElem_contents]
    · rw [dif_neg earlier, if_pos (by omega), getElem_contents]

/-- The search finds the first entry that qualifies, or ends behind the last one. -/
theorem search_eq_findIdx : search block stop index turns =
    index + ((contents (fun k => block (index + k)) turns).findIdx stop) := by
  induction turns generalizing index with
  | zero => rfl
  | succ turns ih =>
    have split : contents (fun k => block (index + k)) (turns + 1) =
        block index :: contents (fun k => block (index + 1 + k)) turns := by
      rw [contents, contents, List.range_succ_eq_map, List.map_cons, List.map_map]
      congr 1
      apply List.map_congr_left
      intro k _
      show block (index + (k + 1)) = block (index + 1 + k)
      rw [Nat.add_assoc, Nat.add_comm 1 k]
    rw [split, List.findIdx_cons, search]
    cases stop (block index) with
    | true => rfl
    | false =>
      rw [ih]
      simp only [Bool.false_eq_true, if_false, cond_false]
      omega

/-- The search from the end finds the last entry that qualifies. -/
theorem searchLast_map : (searchLast block stop count).map block =
    (contents block count).reverse.find? stop := by
  induction count with
  | zero => rfl
  | succ count ih =>
    rw [contents_succ, List.reverse_append, List.reverse_singleton, List.singleton_append,
      List.find?_cons, searchLast]
    cases qualifies : stop (block count) with
    | true => simp
    | false => simpa using ih

/-- An entry at a position. -/
theorem getElem?_contents {i : Nat} :
    (contents block count)[i]? = some value ↔ i < count ∧ block i = value := by
  rw [List.getElem?_eq_some_iff]
  constructor
  · rintro ⟨inside, here⟩
    rw [getElem_contents] at here
    rw [length_contents] at inside
    exact ⟨inside, here⟩
  · rintro ⟨inside, here⟩
    refine ⟨length_contents.symm ▸ inside, ?_⟩
    rw [getElem_contents, here]

/-- The search does not go back. -/
theorem le_search : index ≤ search block stop index turns := by
  induction turns generalizing index with
  | zero => exact Nat.le_refl index
  | succ turns ih =>
    rw [search]
    split
    · exact Nat.le_refl index
    · exact Nat.le_of_succ_le ih

/-- The search does not pass an entry that qualifies. -/
theorem search_le {k : Nat} (from_ : index ≤ k) (qualifies : stop (block k) = true) :
    search block stop index turns ≤ k := by
  induction turns generalizing index with
  | zero => exact from_
  | succ turns ih =>
    rw [search]
    split
    · exact from_
    · rename_i passed
      exact ih (Nat.lt_of_le_of_ne from_ fun same => passed (same ▸ qualifies))

/-- A search that does not end behind the entries finds one that qualifies. -/
theorem stop_search (found : search block stop index turns < index + turns) :
    stop (block (search block stop index turns)) = true := by
  induction turns generalizing index with
  | zero => exact absurd found (Nat.lt_irrefl index)
  | succ turns ih =>
    rw [search] at found ⊢
    by_cases here : stop (block index) = true
    · rwa [if_pos here]
    · rw [if_neg here] at found ⊢
      exact ih (by omega)

/-- A removed entry that is filtered out anyway. -/
theorem filter_eraseIdx {l : List α} {keep : α → Bool} {i : Nat}
    (dropped : ∀ value, l[i]? = some value → keep value = false) :
    (l.eraseIdx i).filter keep = l.filter keep := by
  induction l generalizing i with
  | nil => rfl
  | cons first l ih =>
    cases i with
    | zero =>
      have out : ¬keep first = true := Bool.eq_false_iff.mp (dropped first rfl)
      rw [List.eraseIdx_cons_zero, List.filter_cons_of_neg out]
    | succ i =>
      rw [List.eraseIdx_cons_succ, List.filter_cons, List.filter_cons, ih (by simpa using dropped)]

section Removal

variable (block : Nat → α) (stop : α → Bool) (first count : Nat)

/-- The entries that are left when the one that a search from a position on finds is removed. -/
def removed : List α := (contents block count).eraseIdx (search block stop first (count - first))

/-- The removal leaves no entry that qualifies exactly if one at most does, in the part that is
searched. -/
theorem removed_iff : (∀ value ∈ removed block stop first count, stop value = false) ↔
    ∃ k ≥ first, ∀ i < count, stop (block i) = true → i = k := by
  unfold removed
  constructor
  · refine fun none => ⟨search block stop first (count - first), le_search,
      fun i inside qualifies => ?_⟩
    by_contra other
    have left := none (block i)
      (List.mem_eraseIdx_iff_getElem?.mpr ⟨i, other, getElem?_contents.mpr ⟨inside, rfl⟩⟩)
    exact absurd (left.symm.trans qualifies) Bool.false_ne_true
  · rintro ⟨k, searched, once⟩ value member
    obtain ⟨i, other, here⟩ := List.mem_eraseIdx_iff_getElem?.mp member
    obtain ⟨inside, rfl⟩ := getElem?_contents.mp here
    by_contra qualifies
    rw [Bool.not_eq_false] at qualifies
    obtain rfl := once i inside qualifies
    have notPast : search block stop first (count - first) ≤ i := search_le searched qualifies
    have found : search block stop first (count - first) < first + (count - first) := by omega
    exact other (once _ (by omega) (stop_search found)).symm

/-- The entry that is removed is one that qualifies. -/
theorem filter_removed : (removed block stop first count).filter (fun value => !stop value) =
    (contents block count).filter fun value => !stop value := by
  refine filter_eraseIdx fun value here => ?_
  obtain ⟨inside, rfl⟩ := getElem?_contents.mp here
  have searched : first ≤ search block stop first (count - first) := le_search
  have found : search block stop first (count - first) < first + (count - first) := by omega
  rw [stop_search found]
  rfl

end Removal

end PackedArray
