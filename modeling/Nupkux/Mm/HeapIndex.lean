import Nupkux.Mm.KernelHeap
import Mathlib.Data.List.Sort

/-!
# The index of holes

What the loops over `entries[]` do to the list of its entries: an entry is inserted before the
first one that is not smaller, and one is taken out. Memory outside the slots they store into
stays as it is.
-/

namespace Nupkux

namespace KernelHeap

variable {k : KernelHeap} {i j value turns tmp entry : Nat}

/-- The last of two memories remains. -/
@[simp] theorem setMemory_setMemory (k : KernelHeap) (m m' : Bytes) :
    (k.setMemory m).setMemory m' = k.setMemory m' := rfl

/-- The bounds do not change with the memory. -/
@[simp] theorem setMemory_heap (k : KernelHeap) (m : Bytes) : (k.setMemory m).heap = k.heap := rfl

/-- Nothing is taken out without an entry. -/
@[simp] theorem heapDelEntry_none (k : KernelHeap) : k.heapDelEntry none = k := rfl

/-- An entry is a 32-bit word. -/
theorem entry_lt (k : KernelHeap) (i : Nat) : k.entry i < uintWidth := Bytes.word_lt _ _

/-- The index has as many entries as counted. -/
@[simp] theorem length_index (k : KernelHeap) : k.index.length = k.heap.entrycount := by
  rw [index, List.length_map, List.length_range]

/-- The entries of the index. -/
theorem getElem?_index (k : KernelHeap) (i : Nat) :
    k.index[i]? = if i < k.heap.entrycount then some (k.entry i) else none := by
  rw [index, List.getElem?_map]
  split
  · rename_i inside
    rw [List.getElem?_range inside]
    rfl
  · rename_i outside
    rw [List.getElem?_eq_none (by rw [List.length_range]; omega)]
    rfl

/-- Stores into different slots are apart. -/
theorem entry_setEntry (k : KernelHeap) (i j value : Nat) :
    (k.setEntry i value).entry j = if j = i then value % uintWidth else k.entry j := by
  show (k.memory.store (k.slot i) value).word (k.slot j) = _
  split
  · rename_i same
    rw [same]
    exact Bytes.word_store_self _ _ _
  · rename_i differ
    apply Bytes.word_store_of_apart
    unfold slot
    omega

/-- The entries after a number of turns of the loop that moves them up. -/
theorem entry_shiftUp (turns i tmp : Nat) (k : KernelHeap) (j : Nat) :
    (shiftUp turns i tmp k).entry j =
      if i < j ∧ j ≤ i + turns then if j = i + 1 then tmp % uintWidth else k.entry (j - 1)
      else k.entry j := by
  induction turns generalizing i tmp k with
  | zero =>
    rw [if_neg (by omega)]
    rfl
  | succ turns ih =>
    rw [shiftUp, ih]
    by_cases first : j = i + 1
    · rw [if_neg (by omega), if_pos (by omega), if_pos first, entry_setEntry, if_pos first]
    · by_cases inside : i < j ∧ j ≤ i + (turns + 1)
      · rw [if_pos (by omega), if_pos inside, if_neg first]
        by_cases second : j = i + 1 + 1
        · rw [if_pos second, second, Nat.mod_eq_of_lt (k.entry_lt _)]
          rfl
        · rw [if_neg second, entry_setEntry, if_neg (by omega)]
      · rw [if_neg (by omega), if_neg inside, entry_setEntry, if_neg first]

/-- The entries after a number of turns of the loop that moves them down. -/
theorem entry_shiftDown (turns i : Nat) (k : KernelHeap) (j : Nat) :
    (shiftDown turns i k).entry j =
      if i ≤ j ∧ j < i + turns then k.entry (j + 1) else k.entry j := by
  induction turns generalizing i k with
  | zero =>
    rw [if_neg (by omega)]
    rfl
  | succ turns ih =>
    rw [shiftDown, ih]
    by_cases first : j = i
    · rw [if_neg (by omega), if_pos (by omega), entry_setEntry, if_pos first, first,
        Nat.mod_eq_of_lt (k.entry_lt _)]
    · by_cases inside : i ≤ j ∧ j < i + (turns + 1)
      · rw [if_pos (by omega), if_pos inside, entry_setEntry, if_neg (by omega)]
      · rw [if_neg (by omega), if_neg inside, entry_setEntry, if_neg first]

/-! ## What else is kept -/

/-- Only slots of the index from one to before another have been stored into. -/
structure OnlySlots (low high : Nat) (k k' : KernelHeap) : Prop where
  heap : k'.heap = k.heap
  paging : k'.paging = k.paging
  memory : Bytes.OnlyIn (k.slot low) (k.slot high) k.memory k'.memory
  stored : k'.stored ≤ max k.stored high

/-- Nothing has been stored. -/
theorem OnlySlots.refl (low high : Nat) (k : KernelHeap) : OnlySlots low high k k :=
  ⟨rfl, rfl, fun _ _ => rfl, Nat.le_max_left ..⟩

/-- Stores into two ranges of slots. -/
theorem OnlySlots.trans {low high low' high' : Nat} {k' k'' : KernelHeap}
    (first : OnlySlots low high k k') (second : OnlySlots low' high' k' k'')
    (begins : low ≤ low') (ends : high' ≤ high) : OnlySlots low high k k'' := by
  have slots (n : Nat) : k'.slot n = k.slot n := by rw [slot, slot, first.heap]
  refine ⟨second.heap.trans first.heap, second.paging.trans first.paging, fun b outside => ?_, ?_⟩
  · rw [second.memory, first.memory b outside]
    rw [slots, slots]
    unfold slot at outside ⊢
    omega
  · have before := first.stored
    have after := second.stored
    omega

/-- A store into a slot. -/
theorem onlySlots_setEntry (k : KernelHeap) (i value : Nat) :
    OnlySlots i (i + 1) k (k.setEntry i value) := by
  refine ⟨rfl, rfl, fun b outside => ?_, Nat.le_refl _⟩
  apply Bytes.store_of_outside
  unfold slot at *
  omega

/-- The slots of the loop that moves entries up. -/
theorem onlySlots_shiftUp (turns i tmp : Nat) (k : KernelHeap) :
    OnlySlots i (i + 1 + turns) k (shiftUp turns i tmp k) := by
  induction turns generalizing i tmp k with
  | zero => exact .refl ..
  | succ turns ih =>
    have first : OnlySlots i (i + 1 + (turns + 1)) k (k.setEntry (i + 1) tmp) :=
      (OnlySlots.refl i (i + 1 + (turns + 1)) k).trans (onlySlots_setEntry k (i + 1) tmp)
        (by omega) (by omega)
    exact first.trans (ih (i + 1) _ _) (by omega) (by omega)

/-- The slots of the loop that moves entries down. -/
theorem onlySlots_shiftDown (turns i : Nat) (k : KernelHeap) :
    OnlySlots i (i + turns) k (shiftDown turns i k) := by
  induction turns generalizing i k with
  | zero => exact .refl ..
  | succ turns ih =>
    have first : OnlySlots i (i + (turns + 1)) k (k.setEntry i (k.entry (i + 1))) :=
      (OnlySlots.refl i (i + (turns + 1)) k).trans (onlySlots_setEntry k i _)
        (by omega) (by omega)
    exact first.trans (ih (i + 1) _) (by omega) (by omega)

/-! ## Insertion and deletion -/

/-- A change of the index: the entries are others, their number is another, and slots from one
on have been stored into. -/
structure Indexed (low high : Nat) (entries : List Nat) (k k' : KernelHeap) : Prop where
  index : k'.index = entries
  heap : k'.heap = { k.heap with entrycount := entries.length }
  paging : k'.paging = k.paging
  memory : Bytes.OnlyIn (k.slot low) (k.slot high) k.memory k'.memory
  stored : k'.stored ≤ max k.stored high

/-- The index when its slots and the number of entries are known. -/
theorem OnlySlots.indexed {low high : Nat} {k' : KernelHeap} {entries : List Nat}
    (only : OnlySlots low high k k')
    (slots : ∀ i, entries[i]? = if i < entries.length then some (k'.entry i) else none) :
    Indexed low high entries k (k'.setEntrycount entries.length) := by
  refine ⟨?_, ?_, only.paging, only.memory, only.stored⟩
  · apply List.ext_getElem?
    intro i
    rw [getElem?_index, slots]
    rfl
  · show { k'.heap with entrycount := entries.length } = _
    rw [only.heap]

/-- Whether one hole may stand before another. -/
def NotLarger (m : Bytes) (entry other : Nat) : Prop := sizeAt m entry ≤ sizeAt m other

instance (m : Bytes) : DecidableRel (NotLarger m) := fun entry other =>
  inferInstanceAs (Decidable (sizeAt m entry ≤ sizeAt m other))

/-- An element is inserted where the search for its place ends. -/
theorem insertIdx_findIdx {α : Type*} (r : α → α → Prop) [DecidableRel r] (a : α) (l : List α) :
    l.insertIdx (l.findIdx fun b => r a b) a = l.orderedInsert r a := by
  induction l with
  | nil => rfl
  | cons b l ih =>
    rw [List.findIdx_cons, List.orderedInsert_cons]
    by_cases here : r a b
    · simp only [here, decide_true, cond_true, if_true, List.insertIdx_zero]
    · simp only [here, decide_false, cond_false, if_false, List.insertIdx_succ_cons, ih]

/-- The place of an entry. -/
theorem addPosition_eq (k : KernelHeap) (entry : Nat) :
    k.addPosition entry = k.index.findIdx fun other => NotLarger k.memory entry other := by
  unfold addPosition
  congr 1
  funext other
  exact decide_eq_decide.mpr Nat.not_lt

/-- The place is in the index or at its end. -/
theorem addPosition_le (k : KernelHeap) (entry : Nat) :
    k.addPosition entry ≤ k.heap.entrycount := by
  rw [← length_index]
  exact List.findIdx_le_length

/-- `heap_add_entry` inserts an entry before the first one that is not smaller. -/
theorem heapAddEntry_indexed (k : KernelHeap) (small : entry < uintWidth) :
    Indexed (k.addPosition entry) (k.heap.entrycount + 1)
      (k.index.orderedInsert (NotLarger k.memory) entry) k (k.heapAddEntry entry) := by
  have place := k.addPosition_le entry
  have length : (k.index.orderedInsert (NotLarger k.memory) entry).length =
      k.heap.entrycount + 1 := by
    rw [List.orderedInsert_length, length_index]
  have value : entry % uintWidth = entry := Nat.mod_eq_of_lt small
  have slots (i : Nat) : (k.index.orderedInsert (NotLarger k.memory) entry)[i]? =
      if i < k.addPosition entry then k.index[i]?
      else if i = k.addPosition entry then some entry else k.index[i - 1]? := by
    rw [← insertIdx_findIdx, ← addPosition_eq, List.getElem?_insertIdx, length_index]
    split
    · rfl
    · split
      · exact if_pos (by omega)
      · rfl
  have inserted {k' : KernelHeap} (only : OnlySlots (k.addPosition entry) (k.heap.entrycount + 1) k k')
      (entries : ∀ i < k.heap.entrycount + 1, k'.entry i =
        if i < k.addPosition entry then k.entry i
        else if i = k.addPosition entry then entry else k.entry (i - 1)) :
      Indexed (k.addPosition entry) (k.heap.entrycount + 1)
        (k.index.orderedInsert (NotLarger k.memory) entry) k
        (k'.setEntrycount (k.heap.entrycount + 1)) := by
    rw [← length] at only ⊢
    refine only.indexed fun i => ?_
    rw [slots, length]
    by_cases inside : i < k.heap.entrycount + 1
    · rw [if_pos inside, entries i inside]
      by_cases before : i < k.addPosition entry
      · rw [if_pos before, if_pos before, getElem?_index, if_pos (by omega)]
      · rw [if_neg before, if_neg before]
        by_cases here : i = k.addPosition entry
        · rw [if_pos here, if_pos here]
        · rw [if_neg here, if_neg here, getElem?_index, if_pos (by omega)]
    · have past : ¬i < k.addPosition entry ∧ i ≠ k.addPosition entry := by omega
      rw [if_neg inside, if_neg past.1, if_neg past.2, getElem?_index, if_neg (by omega)]
  unfold heapAddEntry
  dsimp only
  by_cases last : k.addPosition entry = k.heap.entrycount
  · rw [if_pos last]
    apply inserted
    · rw [last]
      exact onlySlots_setEntry ..
    · intro i inside
      rw [entry_setEntry, value, last]
      by_cases here : i = k.heap.entrycount
      · rw [if_pos here, if_neg (by omega), if_pos here]
      · rw [if_neg here, if_pos (by omega)]
  · rw [if_neg last]
    apply inserted
    · have moved := onlySlots_shiftUp (k.heap.entrycount - k.addPosition entry)
        (k.addPosition entry) (k.entry (k.addPosition entry))
        (k.setEntry (k.addPosition entry) entry)
      have first : OnlySlots (k.addPosition entry) (k.heap.entrycount + 1) k
          (k.setEntry (k.addPosition entry) entry) :=
        (OnlySlots.refl _ _ k).trans (onlySlots_setEntry k _ entry) (Nat.le_refl _) (by omega)
      exact first.trans moved (Nat.le_refl _) (by omega)
    · intro i inside
      rw [entry_shiftUp]
      by_cases after : k.addPosition entry < i
      · have past : ¬i < k.addPosition entry ∧ i ≠ k.addPosition entry := by omega
        rw [if_pos ⟨after, by omega⟩, if_neg past.1, if_neg past.2]
        by_cases next : i = k.addPosition entry + 1
        · rw [if_pos next, Nat.mod_eq_of_lt (k.entry_lt _), next]
          rfl
        · have other : i - 1 ≠ k.addPosition entry := by omega
          rw [if_neg next, entry_setEntry, if_neg other]
      · rw [if_neg (by omega), entry_setEntry, value]
        by_cases here : i = k.addPosition entry
        · rw [if_pos here, if_neg (by omega), if_pos here]
        · rw [if_neg here, if_pos (by omega)]

/-- `heap_del_entry` takes an entry out. -/
theorem heapDelEntry_indexed (k : KernelHeap) (inside : i < k.heap.entrycount) :
    Indexed i k.heap.entrycount (k.index.eraseIdx i) k (k.heapDelEntry (some i)) := by
  have length : (k.index.eraseIdx i).length = k.heap.entrycount - 1 := by
    rw [List.length_eraseIdx, length_index, if_pos inside]
  have only := onlySlots_shiftDown (k.heap.entrycount - i) i k
  rw [show i + (k.heap.entrycount - i) = k.heap.entrycount by omega] at only
  unfold heapDelEntry
  rw [← length]
  refine only.indexed fun j => ?_
  rw [length, List.getElem?_eraseIdx, getElem?_index, getElem?_index, entry_shiftDown]
  by_cases before : j < i
  · rw [if_pos before, if_pos (by omega), if_pos (by omega), if_neg (by omega)]
  · rw [if_neg before]
    by_cases below : j < k.heap.entrycount - 1
    · rw [if_pos (by omega), if_pos below, if_pos (by omega)]
    · rw [if_neg (by omega), if_neg below]

/-- What `heap_add_entry` does to the heap: there is an entry more. -/
theorem heapAddEntry_heap (k : KernelHeap) (entry : Nat) :
    (k.heapAddEntry entry).heap = { k.heap with entrycount := k.heap.entrycount + 1 } := by
  unfold heapAddEntry
  dsimp only
  split
  · rfl
  · show { (shiftUp _ _ _ (k.setEntry _ entry)).heap with
      entrycount := k.heap.entrycount + 1 } = _
    rw [(onlySlots_shiftUp _ _ _ _).heap]
    rfl

/-- `heap_add_entry` does not change the page tables. -/
theorem heapAddEntry_paging (k : KernelHeap) (entry : Nat) :
    (k.heapAddEntry entry).paging = k.paging := by
  unfold heapAddEntry
  dsimp only
  split
  · rfl
  · show (shiftUp _ _ _ (k.setEntry _ entry)).paging = _
    rw [(onlySlots_shiftUp _ _ _ _).paging]
    rfl

/-- What `heap_del_entry` does to the heap: there is an entry less, if one was given. -/
theorem heapDelEntry_heap (k : KernelHeap) (entry : Option Nat) :
    (k.heapDelEntry entry).heap =
      { k.heap with entrycount := k.heap.entrycount - if entry = none then 0 else 1 } := by
  cases entry with
  | none => rfl
  | some i =>
    show { (shiftDown (k.heap.entrycount - i) i k).heap with
      entrycount := k.heap.entrycount - 1 } = _
    rw [(onlySlots_shiftDown (k.heap.entrycount - i) i k).heap]
    rfl

/-- `heap_add_entry` stores into the index only. -/
theorem heapAddEntry_same (k : KernelHeap) {entry lo : Nat} (hi : Nat) (small : entry < uintWidth)
    (room : k.slot (k.heap.entrycount + 1) ≤ lo) :
    Bytes.Same lo hi k.memory (k.heapAddEntry entry).memory :=
  (k.heapAddEntry_indexed small).memory.same (.inr room)

/-- `heap_del_entry` stores into the index only. -/
theorem heapDelEntry_same (k : KernelHeap) (entry : Option Nat) {lo : Nat} (hi : Nat)
    (room : k.slot k.heap.entrycount ≤ lo) :
    Bytes.Same lo hi k.memory (k.heapDelEntry entry).memory := by
  cases entry with
  | none => exact Bytes.Same.refl lo hi k.memory
  | some i =>
    have only := (onlySlots_shiftDown (k.heap.entrycount - i) i k).memory
    intro b low _
    apply only b
    unfold slot at *
    by_cases inside : i ≤ k.heap.entrycount
    · right
      omega
    · have none : k.heap.entrycount - i = 0 := by omega
      rw [none]
      omega

/-! ## The search for a hole -/

/-- An entry in use by its number. -/
theorem getElem_index (k : KernelHeap) {i : Nat} (inside : i < k.index.length) :
    k.index[i] = k.entry i := by
  simp only [index, List.getElem_map, List.getElem_range]

/-- An entry and the others. -/
theorem entry_cons_eraseIdx_perm (k : KernelHeap) (inside : i < k.heap.entrycount) :
    (k.entry i :: k.index.eraseIdx i).Perm k.index := by
  have bound : i < k.index.length := by rwa [length_index]
  rw [← getElem_index k bound]
  exact List.getElem_cons_eraseIdx_perm bound

/-- `find_smallest_hole` finds the first hole that suits. -/
theorem findSmallestHole_some {size : Nat} {pageAlign : Bool}
    (found : k.findSmallestHole size pageAlign = some i) :
    i < k.heap.entrycount ∧ k.suits size pageAlign (k.entry i) ∧
      ∀ j < i, ¬k.suits size pageAlign (k.entry j) := by
  obtain ⟨inside, suits, before⟩ := List.findIdx?_eq_some_iff_getElem.mp found
  have bound : i < k.heap.entrycount := by rwa [length_index] at inside
  rw [getElem_index, decide_eq_true_eq] at suits
  refine ⟨bound, suits, fun j earlier => ?_⟩
  have other := before j earlier
  rwa [getElem_index, Bool.not_eq_true, decide_eq_false_iff_not] at other

/-- `find_smallest_hole` finds no hole if none suits. -/
theorem findSmallestHole_none {size : Nat} {pageAlign : Bool} :
    k.findSmallestHole size pageAlign = none ↔
      ∀ entry ∈ k.index, ¬k.suits size pageAlign entry := by
  unfold findSmallestHole
  rw [List.findIdx?_eq_none_iff]
  exact forall₂_congr fun _ _ => decide_eq_false_iff_not

/-- `heap_find_entry` finds an entry that is listed. -/
theorem heapFindEntry_of_mem (listed : entry ∈ k.index) :
    ∃ i < k.heap.entrycount, k.heapFindEntry entry = some i ∧ k.entry i = entry := by
  cases found : k.heapFindEntry entry with
  | none =>
    have other := List.findIdx?_eq_none_iff.mp found entry listed
    exact absurd rfl (decide_eq_false_iff_not.mp other)
  | some i =>
    obtain ⟨inside, same, _⟩ := List.findIdx?_eq_some_iff_getElem.mp found
    rw [getElem_index, decide_eq_true_eq] at same
    rw [length_index] at inside
    exact ⟨i, inside, rfl, same⟩

/-- `heap_find_entry` finds no entry that is not listed. -/
theorem heapFindEntry_of_not_mem (unlisted : entry ∉ k.index) : k.heapFindEntry entry = none := by
  refine List.findIdx?_eq_none_iff.mpr fun other member => decide_eq_false_iff_not.mpr ?_
  rintro rfl
  exact unlisted member

end KernelHeap

end Nupkux
