import Mathlib.Data.BitVec

/-!
# Bytes of memory and the words stored in them

Memory is a byte at every address, and a 32-bit word is stored with its lowest byte first, at
any address. A word that was stored is read back, and words and bytes elsewhere are kept.
-/

/-- A byte at every address. -/
abbrev Bytes := Nat → BitVec 8

namespace Bytes

variable {m m' : Bytes} {a b v lo hi : Nat}

/-- The word at an address. -/
def word (m : Bytes) (a : Nat) : Nat :=
  (m a).toNat + 256 * (m (a + 1)).toNat + 65536 * (m (a + 2)).toNat + 16777216 * (m (a + 3)).toNat

/-- The half word at an address. -/
def half (m : Bytes) (a : Nat) : Nat := (m a).toNat + 256 * (m (a + 1)).toNat

/-- A word is stored, cut to 32 bits. -/
def store (m : Bytes) (a v : Nat) : Bytes := fun b =>
  if b = a then BitVec.ofNat 8 v
  else if b = a + 1 then BitVec.ofNat 8 (v / 256)
  else if b = a + 2 then BitVec.ofNat 8 (v / 65536)
  else if b = a + 3 then BitVec.ofNat 8 (v / 16777216)
  else m b

/-- So many bytes are copied, the first one first. -/
def copy (dest source : Nat) : Nat → Bytes → Bytes
  | 0, m => m
  | count + 1, m => copy (dest + 1) (source + 1) count (Function.update m dest (m source))

/-- So many bytes are stored from another memory, where the first one is `source 0`. -/
def blit (m : Bytes) (dest : Nat) (source : Bytes) (count : Nat) : Bytes := fun b =>
  if dest ≤ b ∧ b < dest + count then source (b - dest) else m b

/-- So many bytes are set to a value. -/
def fill (m : Bytes) (dest : Nat) (value : BitVec 8) (count : Nat) : Bytes := fun b =>
  if dest ≤ b ∧ b < dest + count then value else m b

/-- The memories have the same bytes in a range. -/
def Same (lo hi : Nat) (m m' : Bytes) : Prop := ∀ b, lo ≤ b → b < hi → m' b = m b

/-- The memories differ in a range at most. -/
def OnlyIn (lo hi : Nat) (m m' : Bytes) : Prop := ∀ b, b < lo ∨ hi ≤ b → m' b = m b

/-- A word has 32 bits. -/
theorem word_lt (m : Bytes) (a : Nat) : m.word a < 4294967296 := by
  have first := (m a).isLt
  have second := (m (a + 1)).isLt
  have third := (m (a + 2)).isLt
  have fourth := (m (a + 3)).isLt
  unfold word
  omega

/-- A word depends on its four bytes. -/
theorem word_congr (same : Same lo hi m m') (low : lo ≤ a) (high : a + 4 ≤ hi) :
    m'.word a = m.word a := by
  unfold word
  rw [same a low (by omega), same (a + 1) (by omega) (by omega),
    same (a + 2) (by omega) (by omega), same (a + 3) (by omega) (by omega)]

/-- A word of a range that is found at another address. -/
theorem word_shift {c n j : Nat} (same : ∀ i < n, m' (c + i) = m (a + i)) (inside : j + 4 ≤ n) :
    m'.word (c + j) = m.word (a + j) := by
  unfold word
  rw [same j (by omega), Nat.add_assoc c, Nat.add_assoc c, Nat.add_assoc c, Nat.add_assoc a,
    Nat.add_assoc a, Nat.add_assoc a, same (j + 1) (by omega), same (j + 2) (by omega),
    same (j + 3) (by omega)]

/-- A half word of a range that is found at another address. -/
theorem half_shift {c n j : Nat} (same : ∀ i < n, m' (c + i) = m (a + i)) (inside : j + 2 ≤ n) :
    m'.half (c + j) = m.half (a + j) := by
  unfold half
  rw [same j (by omega), Nat.add_assoc c, Nat.add_assoc a, same (j + 1) (by omega)]

/-- The word that was stored. -/
@[simp] theorem word_store_self (m : Bytes) (a v : Nat) :
    (m.store a v).word a = v % 4294967296 := by
  have second : a + 1 ≠ a := by omega
  have third : a + 2 ≠ a ∧ a + 2 ≠ a + 1 := by omega
  have fourth : a + 3 ≠ a ∧ a + 3 ≠ a + 1 ∧ a + 3 ≠ a + 2 := by omega
  simp only [word, store, second, third, fourth, if_true, if_false, BitVec.toNat_ofNat]
  omega

/-- Bytes elsewhere are kept. -/
theorem store_of_outside (m : Bytes) (v : Nat) (outside : b < a ∨ a + 4 ≤ b) :
    m.store a v b = m b := by
  have other : b ≠ a ∧ b ≠ a + 1 ∧ b ≠ a + 2 ∧ b ≠ a + 3 := by omega
  simp only [store, other, if_false]

/-- A range without the word is kept. -/
theorem same_store (m : Bytes) (v : Nat) (outside : hi ≤ a ∨ a + 4 ≤ lo) :
    Same lo hi m (m.store a v) :=
  fun _ low high => store_of_outside m v (by omega)

/-- Words elsewhere are kept. -/
theorem word_store_of_apart (m : Bytes) (v : Nat) (apart : b + 4 ≤ a ∨ a + 4 ≤ b) :
    (m.store a v).word b = m.word b :=
  word_congr (same_store m v apart) (Nat.le_refl b) (Nat.le_refl _)

/-- The second of two words stored at one address remains. -/
@[simp] theorem store_store (m : Bytes) (a v w : Nat) :
    (m.store a v).store a w = m.store a w := by
  funext b
  by_cases inside : b < a ∨ a + 4 ≤ b
  · rw [store_of_outside _ _ inside, store_of_outside _ _ inside, store_of_outside _ _ inside]
  · unfold store
    split
    · rfl
    · split
      · rfl
      · split
        · rfl
        · rw [if_pos (by omega), if_pos (by omega)]

/-- Nothing changed. -/
theorem Same.refl (lo hi : Nat) (m : Bytes) : Same lo hi m m := fun _ _ _ => rfl

/-- Two changes elsewhere. -/
theorem Same.trans {m'' : Bytes} (first : Same lo hi m m') (second : Same lo hi m' m'') :
    Same lo hi m m'' :=
  fun b low high => (second b low high).trans (first b low high)

/-- The same bytes in a part of a range. -/
theorem Same.mono {lo' hi' : Nat} (same : Same lo hi m m') (low : lo ≤ lo') (high : hi' ≤ hi) :
    Same lo' hi' m m' :=
  fun b above below => same b (Nat.le_trans low above) (Nat.lt_of_lt_of_le below high)

/-- A word is stored outside a range. -/
theorem Same.store (same : Same lo hi m m') (v : Nat) (outside : hi ≤ a ∨ a + 4 ≤ lo) :
    Same lo hi m (m'.store a v) :=
  same.trans (same_store m' v outside)

/-- Nothing changed in a range. -/
theorem OnlyIn.refl (lo hi : Nat) (m : Bytes) : OnlyIn lo hi m m := fun _ _ => rfl

/-- Two changes in a range. -/
theorem OnlyIn.trans {m'' : Bytes} (first : OnlyIn lo hi m m') (second : OnlyIn lo hi m' m'') :
    OnlyIn lo hi m m'' :=
  fun b outside => (second b outside).trans (first b outside)

/-- A change in a part of a range. -/
theorem OnlyIn.mono {lo' hi' : Nat} (only : OnlyIn lo hi m m') (low : lo' ≤ lo) (high : hi ≤ hi') :
    OnlyIn lo' hi' m m' :=
  fun b outside => only b (by omega)

/-- A word is stored in a range. -/
theorem onlyIn_store (m : Bytes) (v : Nat) (low : lo ≤ a) (high : a + 4 ≤ hi) :
    OnlyIn lo hi m (m.store a v) :=
  fun _ outside => store_of_outside m v (by omega)

/-- A word is stored in a range where something has changed. -/
theorem OnlyIn.store (only : OnlyIn lo hi m m') (v : Nat) (low : lo ≤ a) (high : a + 4 ≤ hi) :
    OnlyIn lo hi m (m'.store a v) :=
  only.trans (onlyIn_store m' v low high)

/-- Another range is kept. -/
theorem OnlyIn.same {lo' hi' : Nat} (only : OnlyIn lo hi m m') (apart : hi' ≤ lo ∨ hi ≤ lo') :
    Same lo' hi' m m' :=
  fun b above below => only b (by omega)

/-- A word outside the range is kept. -/
theorem OnlyIn.word (only : OnlyIn lo hi m m') (apart : a + 4 ≤ lo ∨ hi ≤ a) :
    m'.word a = m.word a :=
  word_congr (only.same apart) (Nat.le_refl a) (Nat.le_refl _)

/-- Bytes outside the target of a copy are kept. -/
theorem copy_of_outside {dest source count : Nat} (outside : b < dest ∨ dest + count ≤ b) :
    copy dest source count m b = m b := by
  induction count generalizing m dest source with
  | zero => rfl
  | succ count ih =>
    have other : b ≠ dest := by omega
    rw [copy, ih (by omega), Function.update_of_ne other]

/-- Copied bytes are the ones that were there, when the two ranges do not overlap. -/
theorem copy_of_inside {dest source count i : Nat} (inside : i < count)
    (apart : source + count ≤ dest ∨ dest + count ≤ source) :
    copy dest source count m (dest + i) = m (source + i) := by
  induction count generalizing m dest source i with
  | zero => omega
  | succ count ih =>
    rw [copy]
    cases i with
    | zero =>
      rw [copy_of_outside (by omega)]
      exact Function.update_self ..
    | succ i =>
      have other : source + 1 + i ≠ dest := by omega
      have target : dest + (i + 1) = dest + 1 + i := by omega
      have origin : source + (i + 1) = source + 1 + i := by omega
      rw [target, origin, ih (by omega) (by omega), Function.update_of_ne other]

section Blit

variable {f g : Bytes} {dest s n : Nat}

/-- Bytes are stored in a range. -/
theorem onlyIn_blit (low : lo ≤ dest) (high : dest + n ≤ hi) :
    OnlyIn lo hi m (m.blit dest f n) :=
  fun _ outside => if_neg (by omega)

/-- Bytes are set in a range. -/
theorem onlyIn_fill (v : BitVec 8) (low : lo ≤ dest) (high : dest + n ≤ hi) :
    OnlyIn lo hi m (m.fill dest v n) :=
  fun _ outside => if_neg (by omega)

/-- A byte is stored in a range. -/
theorem onlyIn_update (v : BitVec 8) (low : lo ≤ dest) (high : dest < hi) :
    OnlyIn lo hi m (Function.update m dest v) :=
  fun _ outside => Function.update_of_ne (by omega) ..

/-- There is another byte. -/
theorem add_one_ne (v : BitVec 8) : v + 1 ≠ v := by
  intro equal
  have numbers := congrArg BitVec.toNat equal
  rw [BitVec.toNat_add] at numbers
  have bound := v.isLt
  change (v.toNat + 1) % 256 = v.toNat at numbers
  omega

/-- Bytes outside the target of a store are kept. -/
theorem blit_of_outside (outside : b < dest ∨ dest + n ≤ b) : m.blit dest f n b = m b :=
  if_neg (by omega)

/-- A stored byte. -/
theorem blit_of_inside {i : Nat} (inside : i < n) : m.blit dest f n (dest + i) = f i := by
  rw [blit, if_pos (by omega), Nat.add_sub_cancel_left]

/-- Nothing is stored. -/
@[simp] theorem blit_zero : m.blit dest f 0 = m := by
  funext b
  exact blit_of_outside (by omega)

/-- The bytes that are stored decide. -/
theorem blit_congr (same : ∀ i < n, f i = g i) : m.blit dest f n = m.blit dest g n := by
  funext b
  unfold blit
  split
  · exact same _ (by omega)
  · rfl

/-- Two stores side by side are one. -/
theorem blit_blit (next : ∀ i < n, g i = f (s + i)) :
    (m.blit dest f s).blit (dest + s) g n = m.blit dest f (s + n) := by
  funext b
  by_cases second : dest + s ≤ b ∧ b < dest + s + n
  · have offset : b - (dest + s) < n := by omega
    have place : s + (b - (dest + s)) = b - dest := by omega
    rw [blit, if_pos second, next _ offset, place, blit, if_pos (by omega)]
  · rw [blit, if_neg second]
    unfold blit
    by_cases first : dest ≤ b ∧ b < dest + s
    · rw [if_pos first, if_pos (by omega)]
    · rw [if_neg first, if_neg (by omega)]

/-- Two stores do the same to every memory if they store as many bytes and the same ones. -/
theorem blit_eq_iff (dest : Nat) : (∀ m : Bytes, m.blit dest f s = m.blit dest g n) ↔
    s = n ∧ ∀ i < n, f i = g i := by
  constructor
  · intro same
    -- a memory that differs from both sources at a byte shows who stores it
    have stored (i : Nat) : i < s ↔ i < n := by
      have value := congrFun (same fun _ => f i + 1) (dest + i)
      have value' := congrFun (same fun _ => g i + 1) (dest + i)
      by_cases first : i < s
      · by_cases second : i < n
        · exact iff_of_true first second
        · rw [blit_of_inside first, blit_of_outside (by omega)] at value
          exact absurd value.symm (add_one_ne _)
      · by_cases second : i < n
        · rw [blit_of_outside (by omega), blit_of_inside second] at value'
          exact absurd value' (add_one_ne _)
        · exact iff_of_false first second
    have count : s = n := by
      have low := stored s
      have high := stored n
      omega
    refine ⟨count, fun i inside => ?_⟩
    have value := congrFun (same fun _ => 0) (dest + i)
    rwa [blit_of_inside (by omega), blit_of_inside inside] at value
  · rintro ⟨rfl, same⟩ m
    exact blit_congr same

end Blit

end Bytes
