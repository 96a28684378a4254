import Nupkux.Fs.StackTrace
import Nupkux.Fs.StackVectors

/-!
# The accesses of `make_new_stack`

For proper vectors whose bytes are what is loaded, the accesses of `write_vector` can be written down:
they are those of the list below. Where they store is a block of bytes without gaps, and it is in
the order of the accesses that one loop after the other gets to lower addresses. The two loops of
`write_vector` count downwards one after the other; that they come to the same addresses is
`placed_append`. The lists of entries that the loops go over have the last entry first.
-/

open Accesses

namespace Nupkux

/-- Bytes are loaded, one after the other. -/
def loads : Nat → List (BitVec 8) → Trace
  | _, [] => []
  | a, v :: bytes => .load a v :: loads (a + 1) bytes

/-- Bytes are stored, one after the other. -/
def stores : Nat → List (BitVec 8) → Trace
  | _, [] => []
  | a, v :: bytes => .store a v :: stores (uadd a 1) bytes

/-- The first loop of `strncpy` copies the characters of a string. -/
def copyLetters : Nat → Nat → List (BitVec 8) → Trace
  | a, _, [] => [.load a 0]
  | a, dest, v :: s => .load a v :: .store dest v :: copyLetters (a + 1) (uadd dest 1) s

/-- `strncpy` copies a string. -/
def copyString (e : Entry) (dest : Nat) : Trace :=
  copyLetters e.1 dest e.2 ++ [.store (uadd dest e.2.length) 0]

/-- Each loop of `write_vector` loads a pointer, and the string for its length. -/
def entryLoads (vec i : Nat) (e : Entry) : Trace :=
  loads (vec + 4 * i) (Machine.bytes32 e.1) ++ loads e.1 (e.2 ++ [0])

/-- The first loop of `write_vector`. -/
def copyAccesses (vec : Nat) : List Entry → Nat → Trace
  | [], _ => []
  | e :: es, buf => entryLoads vec es.length e ++ copyString e (usub buf (e.2.length + 1)) ++
    copyAccesses vec es (usub buf (e.2.length + 1))

/-- The second loop of `write_vector`. -/
def pointerAccesses (vec : Nat) : List Entry → Nat → Nat → Trace
  | [], _, _ => []
  | e :: es, oldbuf, buf => entryLoads vec es.length e ++
    stores (usub buf 4) (Machine.bytes32 (usub oldbuf (e.2.length + 1))) ++
    pointerAccesses vec es (usub oldbuf (e.2.length + 1)) (usub buf 4)

/-- The address that is so many bytes below another one. -/
def lowered (pos size : Nat) : Nat := (pos + (uintWidth - 1) * size) % uintWidth

/-- `write_vector`. -/
def vectorAccesses (vec : Nat) (entries : List Entry) (buf : Nat) : Trace :=
  let top := lowered buf (stringsSize (entries.map Prod.snd))
  loads vec (wordBytes (entries.map Prod.fst ++ [0])) ++ (copyAccesses vec entries.reverse buf ++
    (stores (usub top 4) (Machine.bytes32 0) ++
      pointerAccesses vec entries.reverse buf (usub top 4)))

/-- What `write_vector` returns. -/
def vectorEnd (entries : List Entry) (buf : Nat) : Nat :=
  lowered buf (vectorSize (entries.map Prod.snd))

/-- `write_vector` of a vector that may be the null pointer. -/
def optionalAccesses (vec : Nat) : Option (List Entry) → Nat → Trace
  | none, _ => []
  | some entries, buf => vectorAccesses vec entries buf

/-- What `write_vector` returns then. -/
def optionalEnd : Option (List Entry) → Nat → Nat
  | none, _ => 0
  | some entries, buf => vectorEnd entries buf

/-- The three words at the end. -/
def headerStores (esp argc args envs : Nat) : Trace :=
  stores (usub esp 12) (Machine.bytes32 argc) ++
    (stores (uadd (usub esp 12) 4) (Machine.bytes32 args) ++
      stores (uadd (usub esp 12) 8) (Machine.bytes32 envs))

variable {s bytes : List (BitVec 8)} {entries es rest : List Entry} {env : Option (List Entry)}
  {e : Entry} {words : List Nat} {a b v vec buf oldbuf dest argc args envs esp steps num tmp n : Nat}
  {u w : BitVec 8} {m : Machine} {t : Trace} {K : Nat → BitVec 8 → Prop} {P : Type}
  {τ : Nat → Option P}

/-! ## Addresses -/

/-- Below by a subtraction. -/
theorem usub_eq_lowered (small : n ≤ uintWidth) : usub a n = lowered a n := by
  unfold usub lowered uintWidth at *
  omega

/-- A difference is an address. -/
theorem usub_lt (a n : Nat) : usub a n < uintWidth := Nat.mod_lt _ (by decide)

/-- Below by two sizes. -/
theorem lowered_lowered (a n num : Nat) : lowered (lowered a n) num = lowered a (n + num) := by
  unfold lowered uintWidth
  omega

/-- An address is one. -/
theorem lowered_lt (a n : Nat) : lowered a n < uintWidth := Nat.mod_lt _ (by decide)

/-- Below without a carry. -/
theorem lowered_of_le (fits : n ≤ a) (small : a < uintWidth) : lowered a n = a - n := by
  unfold lowered uintWidth at *
  omega

/-! ## What is loaded and stored -/

/-- The loads of some bytes. -/
theorem mem_loads : .load b u ∈ loads a bytes ↔ Cell a bytes b u := by
  induction bytes generalizing a with
  | nil => exact iff_of_false List.not_mem_nil cell_nil
  | cons v bytes ih => rw [loads, List.mem_cons, ih, cell_cons, Access.load.injEq]

/-- They store nothing. -/
@[simp] theorem store_not_mem_loads : .store b u ∉ loads a bytes := by
  induction bytes generalizing a with
  | nil => exact List.not_mem_nil
  | cons v bytes ih => simp [loads, ih]

/-- The stores of some bytes. -/
theorem mem_stores (inRange : a + bytes.length ≤ uintWidth) :
    .store b u ∈ stores a bytes ↔ Cell a bytes b u := by
  induction bytes generalizing a with
  | nil => exact iff_of_false List.not_mem_nil cell_nil
  | cons v bytes ih =>
    rw [List.length_cons] at inRange
    rw [stores, List.mem_cons, cell_cons, Access.store.injEq]
    cases bytes with
    | nil => exact or_congr_right (iff_of_false List.not_mem_nil cell_nil)
    | cons w bytes =>
      rw [List.length_cons] at inRange ih
      rw [uadd_of_lt (by omega), ih (by omega)]

/-- They load nothing. -/
@[simp] theorem load_not_mem_stores : .load b u ∉ stores a bytes := by
  induction bytes generalizing a with
  | nil => exact List.not_mem_nil
  | cons v bytes ih => simp [stores, ih]

/-- What copying a string loads is the string. -/
theorem load_mem_copyString : .load b u ∈ copyString e dest ↔ Cell e.1 (e.2 ++ [0]) b u := by
  obtain ⟨a, s⟩ := e
  rw [copyString, List.mem_append]
  simp only [List.mem_singleton, reduceCtorEq, or_false]
  induction s generalizing a dest with
  | nil => rw [copyLetters, List.mem_singleton, Access.load.injEq, List.nil_append, cell_cons,
      or_iff_left cell_nil]
  | cons v s ih =>
    rw [copyLetters, List.mem_cons, List.mem_cons, ih, List.cons_append, cell_cons,
      Access.load.injEq, or_iff_right (a := _ = Access.store _ _) (by simp)]

/-- Stores after other ones. -/
theorem stores_append (small : a < uintWidth) (bytes bytes' : List (BitVec 8)) :
    stores a (bytes ++ bytes') = stores a bytes ++ stores (uadd a bytes.length) bytes' := by
  induction bytes generalizing a with
  | nil => rw [List.nil_append, List.length_nil, uadd_of_lt small]; rfl
  | cons w bytes ih =>
    have next : uadd (uadd a 1) bytes.length = uadd a (bytes.length + 1) := by
      unfold uadd uintWidth
      omega
    rw [List.cons_append, stores, ih (uadd_lt ..), stores, List.cons_append, List.length_cons, next]

/-- A store after other ones. -/
theorem stores_concat (small : a < uintWidth) (bytes : List (BitVec 8)) (v : BitVec 8) :
    stores a (bytes ++ [v]) = stores a bytes ++ [.store (uadd a bytes.length) v] :=
  stores_append small bytes [v]

/-- The three words are stored one after the other. -/
theorem headerStores_eq : headerStores esp argc args envs =
    stores (usub esp 12) (wordBytes [argc, args, envs]) := by
  have words : wordBytes [argc, args, envs] =
      Machine.bytes32 argc ++ (Machine.bytes32 args ++ Machine.bytes32 envs) := by
    simp [wordBytes]
  have next (a : Nat) : uadd (uadd a 4) 4 = uadd a 8 := by
    unfold uadd uintWidth
    omega
  rw [headerStores, words, stores_append (usub_lt ..), stores_append (uadd_lt ..), length_bytes32,
    length_bytes32, next]

/-- What it stores is the string, too. -/
theorem store_mem_copyString (small : dest < uintWidth) :
    .store b u ∈ copyString e dest ↔ .store b u ∈ stores dest (e.2 ++ [0]) := by
  obtain ⟨a, s⟩ := e
  have letters (dest : Nat) : .store b u ∈ copyLetters a dest s ↔ .store b u ∈ stores dest s := by
    induction s generalizing a dest with
    | nil => simp [copyLetters, stores]
    | cons v s ih =>
      rw [copyLetters, stores, List.mem_cons, List.mem_cons, List.mem_cons, ih,
        or_iff_right (a := _ = Access.load _ _) (by simp)]
  rw [copyString, stores_concat small, List.mem_append, List.mem_append, letters]

/-- The loads of an entry. -/
theorem mem_entryLoads : .load b u ∈ entryLoads vec n e ↔ EntryCell vec n e b u := by
  rw [entryLoads, List.mem_append, mem_loads, mem_loads, EntryCell]

/-- They store nothing. -/
@[simp] theorem store_not_mem_entryLoads : .store b u ∉ entryLoads vec n e := by
  simp [entryLoads]

/-- The first loop of `write_vector` loads entries. -/
theorem load_mem_copyAccesses (member : .load b u ∈ copyAccesses vec es buf) :
    ∃ before e after, es = before ++ e :: after ∧ EntryCell vec after.length e b u := by
  induction es generalizing buf with
  | nil => cases member
  | cons e es ih =>
    rw [copyAccesses, List.mem_append, List.mem_append, mem_entryLoads, load_mem_copyString]
      at member
    rcases member with (entry | text) | later
    · exact ⟨[], e, es, rfl, entry⟩
    · exact ⟨[], e, es, rfl, .inr text⟩
    · obtain ⟨before, e', after, rfl, entry⟩ := ih later
      exact ⟨e :: before, e', after, rfl, entry⟩

/-- So does the second. -/
theorem load_mem_pointerAccesses (member : .load b u ∈ pointerAccesses vec es oldbuf buf) :
    ∃ before e after, es = before ++ e :: after ∧ EntryCell vec after.length e b u := by
  induction es generalizing oldbuf buf with
  | nil => cases member
  | cons e es ih =>
    rw [pointerAccesses, List.mem_append, List.mem_append, mem_entryLoads] at member
    rcases member with (entry | none) | later
    · exact ⟨[], e, es, rfl, entry⟩
    · exact absurd none load_not_mem_stores
    · obtain ⟨before, e', after, rfl, entry⟩ := ih later
      exact ⟨e :: before, e', after, rfl, entry⟩

/-- An entry of the vector, with the last one first. -/
theorem VectorCell.of_reverse {before after : List Entry}
    (split : entries.reverse = before ++ e :: after) (cell : EntryCell vec after.length e b u) :
    VectorCell vec entries b u := by
  have order : entries = after.reverse ++ e :: before.reverse := by
    rw [← List.reverse_reverse entries, split]
    simp
  rw [order]
  exact .of_entry (by rwa [List.length_reverse])

/-- `write_vector` loads bytes of the vector and its strings. -/
theorem load_mem_vectorAccesses (member : .load b u ∈ vectorAccesses vec entries buf) :
    VectorCell vec entries b u := by
  rw [vectorAccesses, List.mem_append, List.mem_append, List.mem_append, mem_loads] at member
  rcases member with word | copied | none | stored
  · exact .inl word
  · obtain ⟨before, e, after, split, cell⟩ := load_mem_copyAccesses copied
    exact .of_reverse split cell
  · exact absurd none load_not_mem_stores
  · obtain ⟨before, e, after, split, cell⟩ := load_mem_pointerAccesses stored
    exact .of_reverse split cell

/-- So with a vector that may be the null pointer. -/
theorem load_mem_optionalAccesses (member : .load b u ∈ optionalAccesses vec env buf) :
    OptionalCell vec env b u := by
  cases env with
  | none => cases member
  | some entries => exact load_mem_vectorAccesses member

/-- The strings of a list with the last entry first. -/
theorem texts_cons (e : Entry) (es : List Entry) :
    (e :: es).reverse.map Prod.snd = es.reverse.map Prod.snd ++ [e.2] := by
  rw [List.reverse_cons, List.map_append, List.map_singleton]

/-- The first loop stores the strings. -/
theorem store_mem_copyAccesses (fits : stringsSize (es.reverse.map Prod.snd) ≤ buf)
    (small : buf < uintWidth) : .store b u ∈ copyAccesses vec es buf ↔
      Cell (buf - stringsSize (es.reverse.map Prod.snd))
        (stringsImage (es.reverse.map Prod.snd)) b u := by
  induction es generalizing buf with
  | nil => exact iff_of_false List.not_mem_nil cell_nil
  | cons e es ih =>
    rw [texts_cons, stringsSize_concat] at fits
    rw [texts_cons, stringsSize_concat, stringsImage_concat, cell_append, length_stringsImage,
      copyAccesses, usub_of_le (by omega) small, List.mem_append, List.mem_append,
      or_iff_right store_not_mem_entryLoads, store_mem_copyString (by omega),
      mem_stores (by rw [List.length_append, List.length_singleton]; omega), ih (by omega) (by omega),
      or_comm]
    generalize stringsSize (es.reverse.map Prod.snd) = size at *
    rw [show buf - (size + (e.2.length + 1)) + size = buf - (e.2.length + 1) by omega,
      show buf - (size + (e.2.length + 1)) = buf - (e.2.length + 1) - size by omega]

/-- The second loop stores their addresses. -/
theorem store_mem_pointerAccesses (strings : stringsSize (es.reverse.map Prod.snd) ≤ oldbuf)
    (small : oldbuf < uintWidth) (fits : 4 * es.length ≤ buf) (small' : buf < uintWidth) :
    .store b u ∈ pointerAccesses vec es oldbuf buf ↔
      Cell (buf - 4 * es.length) (wordBytes ((placed
        (oldbuf - stringsSize (es.reverse.map Prod.snd))
          (es.reverse.map Prod.snd)).map Prod.fst)) b u := by
  induction es generalizing oldbuf buf with
  | nil => exact iff_of_false List.not_mem_nil cell_nil
  | cons e es ih =>
    rw [texts_cons, stringsSize_concat] at strings
    rw [List.length_cons] at fits ⊢
    rw [texts_cons, stringsSize_concat, placed_append, List.map_append, wordBytes_append, cell_append,
      length_wordBytes, List.length_map, length_placed, List.length_map, List.length_reverse,
      pointerAccesses, usub_of_le (by omega) small, usub_of_le (by omega) small', List.mem_append,
      List.mem_append, or_iff_right store_not_mem_entryLoads,
      mem_stores (by rw [length_bytes32]; omega), ih (by omega) (by omega) (by omega) (by omega),
      or_comm]
    generalize stringsSize (es.reverse.map Prod.snd) = size at *
    rw [show buf - 4 * (es.length + 1) + 4 * es.length = buf - 4 by omega,
      show buf - 4 * (es.length + 1) = buf - 4 - 4 * es.length by omega,
      show oldbuf - (size + (e.2.length + 1)) = oldbuf - (e.2.length + 1) - size by omega, placed,
      placed, List.map_singleton, wordBytes_singleton,
      show oldbuf - (e.2.length + 1) - size + size = oldbuf - (e.2.length + 1) by omega]

/-- `write_vector` stores the vector and its strings. -/
theorem store_mem_vectorAccesses (fits : vectorSize (entries.map Prod.snd) ≤ buf)
    (small : buf < uintWidth) : .store b u ∈ vectorAccesses vec entries buf ↔
      Cell (buf - vectorSize (entries.map Prod.snd)) (vectorBytes buf (entries.map Prod.snd)) b u := by
  have total : vectorSize (entries.map Prod.snd) =
      stringsSize (entries.map Prod.snd) + 4 * entries.length + 4 := by
    rw [vectorSize, List.length_map]
  have whole : entries.reverse.reverse.map Prod.snd = entries.map Prod.snd := by
    rw [List.reverse_reverse]
  rw [vectorAccesses, lowered_of_le (by omega) small, List.mem_append, List.mem_append, List.mem_append,
    or_iff_right store_not_mem_loads, store_mem_copyAccesses (by rw [whole]; omega) small,
    usub_of_le (by omega) (by omega), mem_stores (by rw [length_bytes32]; omega),
    store_mem_pointerAccesses (by rw [whole]; omega) small (by rw [List.length_reverse]; omega)
      (by omega), whole, List.length_reverse, vectorBytes, cell_append, wordBytes_append, cell_append,
    List.length_append, length_wordBytes, wordBytes_singleton, length_bytes32, List.length_map,
    length_placed, List.length_map]
  generalize stringsSize (entries.map Prod.snd) = size at *
  rw [total, show buf - (size + 4 * entries.length + 4) + (4 * entries.length + 4) = buf - size by omega,
    show buf - (size + 4 * entries.length + 4) + 4 * entries.length = buf - size - 4 by omega,
    show buf - (size + 4 * entries.length + 4) = buf - size - 4 - 4 * entries.length by omega, or_comm,
    or_comm (b := Cell (buf - size - 4 - 4 * entries.length) _ _ _)]

/-! ## The accesses are those of the functions -/

/-- Loads of bytes after other bytes. -/
theorem loads_append (a : Nat) (bytes more : List (BitVec 8)) :
    loads a (bytes ++ more) = loads a bytes ++ loads (a + bytes.length) more := by
  induction bytes generalizing a with
  | nil => rfl
  | cons v bytes ih =>
    rw [List.cons_append, loads, ih, loads, List.cons_append, List.length_cons, Nat.add_assoc,
      Nat.add_comm 1]

/-- The bytes of a number, the lowest first. -/
def numberBytes (v : Nat) : Nat → List (BitVec 8)
  | 0 => []
  | count + 1 => numberBytes v count ++ [BitVec.ofNat 8 (v / 256 ^ count)]

/-- How many they are. -/
@[simp] theorem length_numberBytes (v count : Nat) : (numberBytes v count).length = count := by
  induction count with
  | zero => rfl
  | succ count ih => rw [numberBytes, List.length_append, ih]; rfl

/-- A word is a number of four bytes. -/
theorem numberBytes_four (v : Nat) : numberBytes v 4 = Machine.bytes32 v := by
  simp [numberBytes, Machine.bytes32]

namespace Stepwise

section Steps

variable {R : Type} {f : BitVec 8 → Code R} {g : Unit → Code R} {r : R}

/-- A load, and what comes after it. -/
theorem byte_bind_follows (rest : (f u).Follows t r) :
    (byte a >>= f).Follows (.load a u :: t) r := .load rest

/-- A store, and what comes after it. -/
theorem store_bind_follows (rest : (g ()).Follows t r) :
    (store a u >>= g).Follows (.store a u :: t) r := .store rest

end Steps

/-- A number is loaded. -/
theorem value_follows_bytes (inRange : a + n ≤ uintWidth) :
    (value a n).Follows (loads a (numberBytes v n)) (v % 256 ^ n) := by
  induction n with
  | zero =>
    rw [Nat.pow_zero, Nat.mod_one]
    exact .done 0
  | succ n ih =>
    have digit : (BitVec.ofNat 8 (v / 256 ^ n)).toNat = v / 256 ^ n % 256 := BitVec.toNat_ofNat ..
    have place : uadd a n = a + n := uadd_of_lt (by omega)
    rw [numberBytes, loads_append, length_numberBytes, Nat.mod_pow_succ, ← digit]
    refine (ih (by omega)).bind ?_
    rw [place]
    exact byte_bind_follows (.done _)

/-- A word is loaded. -/
theorem value_follows (small : v < uintWidth) (inRange : a + 4 ≤ uintWidth) :
    (value a 4).Follows (loads a (Machine.bytes32 v)) v := by
  have width : uintWidth = 256 ^ 4 := by decide
  have follows := value_follows_bytes (v := v) inRange
  rwa [numberBytes_four, Nat.mod_eq_of_lt (width ▸ small)] at follows

/-- A number is stored. -/
theorem storeValue_follows (small : a < uintWidth) :
    (storeValue a v n).Follows (stores a (numberBytes v n)) () := by
  induction n with
  | zero => exact .done ()
  | succ n ih =>
    rw [numberBytes, stores_concat small, length_numberBytes]
    exact ih.bind (.store (.done ()))

/-- The loop of `strlen` counts the characters. -/
theorem strlenLoop_follows (letters : 0 ∉ s) (inRange : a + s.length < uintWidth)
    (enough : s.length < steps) : (strlenLoop steps a).Follows (loads a (s ++ [0])) s.length := by
  induction s generalizing a steps with
  | nil =>
    obtain ⟨steps, rfl⟩ := Nat.exists_eq_add_of_lt enough
    refine byte_bind_follows ?_
    rw [if_pos rfl]
    exact .done 0
  | cons c s ih =>
    cases steps with
    | zero => cases enough
    | succ steps =>
      rw [List.length_cons] at inRange enough ⊢
      have nonzero : c ≠ 0 := fun nul => letters (nul ▸ List.mem_cons_self)
      have rest : (strlenLoop steps (a + 1)).Follows (loads (a + 1) (s ++ [0])) s.length :=
        ih (fun member => letters (List.mem_cons_of_mem _ member)) (by omega) (by omega)
      refine byte_bind_follows ?_
      rw [if_neg nonzero, uadd_of_lt (by omega), ← List.append_nil (loads _ _)]
      exact rest.bind (.done _)

/-- `strncpy` of a string. -/
theorem strncpy_follows (letters : 0 ∉ e.2) (inRange : e.1 + e.2.length < uintWidth)
    (small : dest < uintWidth) :
    (strncpy dest e.1 (e.2.length + 1)).Follows (copyString e dest) () := by
  have loop (s : List (BitVec 8)) : ∀ a dest, 0 ∉ s → a + s.length < uintWidth → dest < uintWidth →
      (strncpyLoop (s.length + 1) a dest).Follows (copyLetters a dest s)
        (1, uadd dest s.length) := by
    induction s with
    | nil =>
      intro a dest _ _ small
      refine byte_bind_follows ?_
      rw [if_pos rfl, List.length_nil, uadd_of_lt small]
      exact .done _
    | cons c s ih =>
      intro a dest letters inRange _
      rw [List.length_cons] at inRange ⊢
      have nonzero : c ≠ 0 := fun nul => letters (nul ▸ List.mem_cons_self)
      have rest := ih (a + 1) (uadd dest 1) (fun member => letters (List.mem_cons_of_mem _ member))
        (by omega) (uadd_lt ..)
      have next : uadd (uadd dest 1) s.length = uadd dest (s.length + 1) := by
        unfold uadd uintWidth
        omega
      rw [next] at rest
      refine byte_bind_follows ?_
      rw [if_neg nonzero, uadd_of_lt (by omega)]
      exact store_bind_follows rest
  refine (loop e.2 e.1 dest letters inRange small).bind ?_
  have last : uadd (uadd dest e.2.length) 0 = uadd dest e.2.length := uadd_of_lt (uadd_lt ..)
  have set : (memset (uadd dest e.2.length) 0 1).Follows
      [.store (uadd (uadd dest e.2.length) 0) 0] () := .store (.done ())
  rwa [last] at set

/-- The loop over the words of a vector. -/
theorem vectorLoop_follows (nonzero : 0 ∉ words) (small : ∀ v ∈ words, v < uintWidth)
    (inRange : a + 4 * words.length + 4 ≤ uintWidth) (enough : words.length < steps) :
    (vectorLoop steps a).Follows (loads a (wordBytes (words ++ [0]))) words.length := by
  induction words generalizing a steps with
  | nil =>
    obtain ⟨steps, rfl⟩ := Nat.exists_eq_add_of_lt enough
    rw [List.nil_append, wordBytes_singleton, ← List.append_nil (loads _ _)]
    refine (value_follows (by decide) (by simpa using inRange)).bind ?_
    rw [if_pos rfl]
    exact .done 0
  | cons p words ih =>
    cases steps with
    | zero => cases enough
    | succ steps =>
      rw [List.length_cons] at inRange enough ⊢
      have pointer : p ≠ 0 := fun null => nonzero (null ▸ List.mem_cons_self)
      have rest : (vectorLoop steps (a + 4)).Follows (loads (a + 4) (wordBytes (words ++ [0])))
          words.length := ih (fun member => nonzero (List.mem_cons_of_mem _ member))
        (fun v member => small v (List.mem_cons_of_mem _ member)) (by omega) (by omega)
      rw [List.cons_append, ← List.singleton_append, wordBytes_append, wordBytes_singleton,
        loads_append, length_bytes32]
      refine (value_follows (small p List.mem_cons_self) (by omega)).bind ?_
      rw [if_neg pointer, uadd_of_lt (by omega), ← List.append_nil (loads _ _)]
      exact rest.bind (.done _)

/-- The number of strings of a vector. -/
theorem vectorLength_follows (proper : Proper vec entries) :
    (vectorLength vec).Follows (loads vec (wordBytes (entries.map Prod.fst ++ [0])))
      entries.length := by
  have inRange := proper.inRange
  have follows : (vectorLoop uintWidth vec).Follows
      (loads vec (wordBytes (entries.map Prod.fst ++ [0]))) (entries.map Prod.fst).length :=
    vectorLoop_follows (fun member => ?_) (fun v member => ?_) (by rw [List.length_map]; omega)
      (by rw [List.length_map]; omega)
  · rwa [List.length_map] at follows
  · obtain ⟨e, found, null⟩ := List.mem_map.mp member
    exact proper.nonzero e found null
  · obtain ⟨e, found, rfl⟩ := List.mem_map.mp member
    have fits := proper.fits e found
    omega

/-- `strlen` of the string of an entry is not all of memory. -/
theorem uadd_length (proper : Proper vec entries) (member : e ∈ entries) :
    uadd e.2.length 1 = e.2.length + 1 := by
  have fits := proper.fits e member
  have nonzero := proper.nonzero e member
  exact uadd_of_lt (by omega)

/-- A pointer is loaded, and its string for the length. -/
theorem entry_follows {R : Type} {f : Nat → Nat → Code R} {r : R} (proper : Proper vec entries)
    (member : e ∈ entries) (inside : n < entries.length) (rest : (f e.1 e.2.length).Follows t r) :
    (do let s ← vectorEntry vec n; let length ← strlen s; f s length).Follows
      (entryLoads vec n e ++ t) r := by
  have inRange := proper.inRange
  have fits := proper.fits e member
  have place : uadd vec (umul 4 n) = vec + 4 * n := by
    rw [umul_of_lt (by omega), uadd_of_lt (by omega)]
  rw [entryLoads, List.append_assoc]
  refine Program.Follows.bind (r := e.1) ?_ (Program.Follows.bind (r := e.2.length) ?_ rest)
  · rw [vectorEntry, place]
    exact value_follows (by omega) (by omega)
  · exact strlenLoop_follows (proper.letters e member) fits (by omega)

/-- The first loop of `write_vector`. -/
theorem copyStrings_follows (proper : Proper vec entries) (subset : es ⊆ entries)
    (short : es.length ≤ entries.length) (small : buf < uintWidth) :
    (copyStrings vec es.length buf).Follows (copyAccesses vec es buf)
      (lowered buf (stringsSize (es.reverse.map Prod.snd))) := by
  induction es generalizing buf with
  | nil =>
    have start : lowered buf 0 = buf := lowered_of_le (Nat.zero_le _) small
    exact start.symm ▸ .done buf
  | cons e es ih =>
    have member := subset List.mem_cons_self
    have fits := proper.fits e member
    have length := uadd_length proper member
    have rest : (copyStrings vec es.length (usub buf (e.2.length + 1))).Follows
        (copyAccesses vec es (usub buf (e.2.length + 1)))
        (lowered (usub buf (e.2.length + 1)) (stringsSize (es.reverse.map Prod.snd))) :=
      ih (fun e' later => subset (List.mem_cons_of_mem _ later)) (Nat.le_of_lt short) (usub_lt ..)
    rw [usub_eq_lowered (by omega), lowered_lowered] at rest
    rw [texts_cons, stringsSize_concat, Nat.add_comm, copyAccesses, List.append_assoc, List.length_cons,
      usub_eq_lowered (by omega)]
    refine entry_follows proper member short ?_
    rw [length, usub_eq_lowered (by omega)]
    exact (strncpy_follows (proper.letters e member) fits (lowered_lt ..)).bind rest

/-- The second loop of `write_vector`. -/
theorem storePointers_follows (proper : Proper vec entries) (subset : es ⊆ entries)
    (short : es.length ≤ entries.length) (small : buf < uintWidth) :
    (storePointers vec es.length oldbuf buf).Follows (pointerAccesses vec es oldbuf buf)
      (lowered buf (4 * es.length)) := by
  induction es generalizing oldbuf buf with
  | nil =>
    have start : lowered buf 0 = buf := lowered_of_le (Nat.zero_le _) small
    exact start.symm ▸ .done buf
  | cons e es ih =>
    have member := subset List.mem_cons_self
    have rest : (storePointers vec es.length (usub oldbuf (e.2.length + 1)) (usub buf 4)).Follows
        (pointerAccesses vec es (usub oldbuf (e.2.length + 1)) (usub buf 4))
        (lowered (usub buf 4) (4 * es.length)) :=
      ih (fun e' later => subset (List.mem_cons_of_mem _ later)) (Nat.le_of_lt short) (usub_lt ..)
    have next : lowered (usub buf 4) (4 * es.length) = lowered buf (4 * (es.length + 1)) := by
      rw [usub_eq_lowered (by decide), lowered_lowered, Nat.mul_succ, Nat.add_comm]
    rw [next] at rest
    rw [pointerAccesses, List.append_assoc, List.length_cons]
    refine entry_follows proper member short ?_
    rw [uadd_length proper member, ← numberBytes_four]
    exact (storeValue_follows (usub_lt ..)).bind rest

/-- `write_vector`. -/
theorem writeVector_follows (proper : Proper vec entries) (small : buf < uintWidth) :
    (writeVector vec buf).Follows (vectorAccesses vec entries buf) (vectorEnd entries buf) := by
  have whole : entries.reverse.reverse.map Prod.snd = entries.map Prod.snd := by
    rw [List.reverse_reverse]
  have members : entries.reverse ⊆ entries := fun e member => List.mem_reverse.mp member
  have strings := copyStrings_follows proper members (Nat.le_of_eq List.length_reverse) small
  have pointers : (storePointers vec entries.reverse.length buf
      (usub (lowered buf (stringsSize (entries.map Prod.snd))) 4)).Follows _ _ :=
    storePointers_follows proper members (Nat.le_of_eq List.length_reverse) (usub_lt ..)
  rw [List.length_reverse, whole] at strings
  have last : lowered (usub (lowered buf (stringsSize (entries.map Prod.snd))) 4)
      (4 * entries.length) = vectorEnd entries buf := by
    rw [usub_eq_lowered (by decide), lowered_lowered, lowered_lowered, vectorEnd, vectorSize, List.length_map,
      Nat.add_right_comm, Nat.add_assoc]
  rw [List.length_reverse, last] at pointers
  rw [writeVector, if_neg proper.nonnull, vectorAccesses, ← numberBytes_four]
  exact (vectorLength_follows proper).bind
    (strings.bind ((storeValue_follows (usub_lt ..)).bind pointers))

/-- `write_vector` of a vector that may be the null pointer. -/
theorem writeOptional_follows (proper : ∀ entries ∈ env, Proper vec entries)
    (null : env = none → vec = 0) (small : buf < uintWidth) :
    (writeVector vec buf).Follows (optionalAccesses vec env buf) (optionalEnd env buf) := by
  cases env with
  | none =>
    rw [writeVector, if_pos (null rfl)]
    exact .done 0
  | some entries => exact writeVector_follows (proper entries rfl) small

/-- The three words at the end of `make_new_stack`. -/
theorem storeWords_follows :
    (do storeValue (usub esp 12) argc 4
        storeValue (uadd (usub esp 12) 4) args 4
        storeValue (uadd (usub esp 12) 8) envs 4
        .done (usub esp 12)).Follows (headerStores esp argc args envs) (usub esp 12) := by
  rw [headerStores, ← numberBytes_four, ← numberBytes_four, ← numberBytes_four,
    ← List.append_nil (stores (uadd (usub esp 12) 8) _)]
  exact (storeValue_follows (usub_lt ..)).bind ((storeValue_follows (uadd_lt ..)).bind
    ((storeValue_follows (uadd_lt ..)).bind (.done _)))

/-- The end of `make_new_stack`. -/
theorem storeHeader_follows {argv : Nat} (length : (vectorLength argv).Follows t argc) :
    (storeHeader argv esp args envs).Follows (t ++ headerStores esp argc args envs)
      (usub esp 12) := length.bind storeWords_follows

end Stepwise

/-! ## Loads and the stores before them -/

/-- Loads alone agree with what was stored before if each of them does. -/
theorem agrees_loads (silent : ∀ b w, .store b w ∉ t) : Agrees τ K t ↔
    ∀ a v, .load a v ∈ t → ∀ b w, K b w → τ b = τ a → w = v := by
  constructor
  · exact fun agrees a v member b w earlier same => agrees.before member earlier same
  · intro each
    refine agrees_of fun a v member b w either => each a v member b w (either.resolve_right ?_)
    exact silent b w

/-- Stores alone agree with anything. -/
theorem agrees_stores : Agrees τ K (stores a bytes) :=
  agrees_of fun _ _ member => absurd member load_not_mem_stores

/-- Where the second loop stores. -/
theorem pointerAccesses_bounds (strings : stringsSize (es.reverse.map Prod.snd) ≤ oldbuf)
    (small : oldbuf < uintWidth) (fits : 4 * es.length ≤ buf) (small' : buf < uintWidth)
    (member : .store b u ∈ pointerAccesses vec es oldbuf buf) :
    buf - 4 * es.length ≤ b ∧ b < buf := by
  have bounds := ((store_mem_pointerAccesses strings small fits small').mp member).bounds
  rw [length_wordBytes, List.length_map, length_placed, List.length_map, List.length_reverse]
    at bounds
  omega

/-- The loads of an entry in the second loop agree with what has been stored by then, which is what is
stored from the pointer of the entry behind on. -/
theorem agrees_pointerAccesses (strings : stringsSize (es.reverse.map Prod.snd) ≤ oldbuf)
    (small : oldbuf < uintWidth) (fits : 4 * es.length ≤ buf) (small' : buf < uintWidth)
    (above : ∀ b w, K b w → buf ≤ b) : Agrees τ K (pointerAccesses vec es oldbuf buf) ↔
      ∀ before e after, es = before ++ e :: after → ∀ a v, EntryCell vec after.length e a v →
        ∀ b w, K b w ∨ .store b w ∈ pointerAccesses vec es oldbuf buf →
          buf - 4 * before.length ≤ b → τ b = τ a → w = v := by
  induction es generalizing oldbuf buf K with
  | nil => exact iff_of_true trivial fun before e after split => by simp at split
  | cons e es ih =>
    have bounds := fun b w => @pointerAccesses_bounds (e :: es) b vec buf oldbuf w strings small fits
      small'
    rw [texts_cons, stringsSize_concat] at strings
    rw [List.length_cons] at fits
    have down := usub_of_le (a := buf) (b := 4) (by omega) small'
    have down' := usub_of_le (a := oldbuf) (b := e.2.length + 1) (by omega) small
    have head (b : Nat) (w : BitVec 8) (member : .store b w ∈ entryLoads vec es.length e ++
        stores (usub buf 4) (Machine.bytes32 (usub oldbuf (e.2.length + 1)))) : buf - 4 ≤ b := by
      have stored := (List.mem_append.mp member).resolve_left store_not_mem_entryLoads
      rw [mem_stores (by rw [down, length_bytes32]; omega), down] at stored
      exact stored.1
    rw [pointerAccesses, agrees_append, agrees_append, agrees_loads fun _ _ => store_not_mem_entryLoads,
      ih (by omega) (usub_lt ..) (by omega) (usub_lt ..) fun b w either => ?_]
    · rw [pointerAccesses] at bounds
      constructor
      · rintro ⟨⟨first, _⟩, tail⟩ before e' after split a v cell b w either low same
        cases before with
        | nil =>
          cases split
          rw [List.length_nil] at low
          refine first a v (mem_entryLoads.mpr cell) b w (either.resolve_right fun stored => ?_) same
          have inside := bounds b w stored
          omega
        | cons e₀ before =>
          cases split
          rw [List.length_cons] at low
          rw [List.mem_append, ← or_assoc] at either
          exact tail before e' after rfl a v cell b w either (by omega) same
      · intro each
        refine ⟨⟨fun a v member b w earlier same => ?_, agrees_stores⟩,
          fun before e' after split a v cell b w either low same => ?_⟩
        · have low := above b w earlier
          exact each [] e es rfl a v (mem_entryLoads.mp member) b w (.inl earlier) (by simpa using low)
            same
        · rw [or_assoc, ← List.mem_append] at either
          refine each (e :: before) e' after (congrArg _ split) a v cell b w either ?_ same
          rw [List.length_cons]
          omega
    · rcases either with before | stored
      · have low := above b w before
        omega
      · have low := head b w stored
        omega

/-- The loads of `write_vector` agree with what has been stored by then if the words of the vector
agree with what was stored before, and each entry with what has been stored when its address is. -/
theorem agrees_vectorAccesses (fits : vectorSize (entries.map Prod.snd) ≤ buf)
    (small : buf < uintWidth) (above : ∀ b w, K b w → buf ≤ b) :
    Agrees τ K (vectorAccesses vec entries buf) ↔
      (∀ a v, Cell vec (wordBytes (entries.map Prod.fst ++ [0])) a v →
        ∀ b w, K b w → τ b = τ a → w = v) ∧
      ∀ es e rest, entries = es ++ e :: rest → ∀ a v, EntryCell vec es.length e a v →
        ∀ b w, K b w ∨ .store b w ∈ vectorAccesses vec entries buf →
          buf - vectorSize (entries.map Prod.snd) + 4 * (es.length + 1) ≤ b → τ b = τ a →
            w = v := by
  have total : vectorSize (entries.map Prod.snd) =
      stringsSize (entries.map Prod.snd) + 4 * entries.length + 4 := by
    rw [vectorSize, List.length_map]
  have whole : entries.reverse.reverse.map Prod.snd = entries.map Prod.snd := by
    rw [List.reverse_reverse]
  have top := lowered_of_le (a := buf) (n := stringsSize (entries.map Prod.snd)) (by omega) small
  have null := usub_of_le (a := lowered buf (stringsSize (entries.map Prod.snd))) (b := 4)
    (by omega) (by omega)
  have strings {b : Nat} {w : BitVec 8} :=
    @store_mem_copyAccesses entries.reverse b vec buf w (by rw [whole]; omega) small
  have texts (b : Nat) (w : BitVec 8) (stored : .store b w ∈ copyAccesses vec entries.reverse buf) :
      buf - stringsSize (entries.map Prod.snd) ≤ b := by
    have cell := strings.mp stored
    rw [whole] at cell
    exact cell.1
  have word (b : Nat) (w : BitVec 8) (stored : .store b w ∈
      stores (usub (lowered buf (stringsSize (entries.map Prod.snd))) 4) (Machine.bytes32 0)) :
      buf - stringsSize (entries.map Prod.snd) - 4 ≤ b := by
    rw [mem_stores (by rw [length_bytes32]; omega)] at stored
    have low := stored.1
    omega
  have place (before after : List Entry) (e : Entry) (split : entries.reverse = before ++ e :: after) :
      entries = after.reverse ++ e :: before.reverse ∧
        entries.length = after.length + before.length + 1 := by
    have order : entries = after.reverse ++ e :: before.reverse := by
      rw [← List.reverse_reverse entries, split]
      simp
    refine ⟨order, ?_⟩
    have length := congrArg List.length order
    simp only [List.length_append, List.length_reverse, List.length_cons] at length
    omega
  rw [vectorAccesses, agrees_append, agrees_loads fun _ _ => store_not_mem_loads, agrees_append,
    agrees_append, agrees_pointerAccesses (by rw [whole]; omega) small
      (by rw [List.length_reverse]; omega) (usub_lt ..) fun b w either => ?_]
  · refine and_congr (forall₂_congr fun a v => imp_congr_left mem_loads) ?_
    constructor
    · rintro ⟨_, _, pointers⟩ es e rest split a v cell b w either low same
      refine pointers rest.reverse e es.reverse (by rw [split]; simp) a v
        (by rwa [List.length_reverse]) b w ?_ ?_ same
      · simpa only [List.mem_append, or_assoc] using either
      · have length := congrArg List.length split
        simp only [List.length_append, List.length_cons] at length
        rw [List.length_reverse]
        omega
    · intro each
      refine ⟨agrees_of fun a v member b w either same => ?_, agrees_stores,
        fun before e after split a v cell b w either low same => ?_⟩
      · obtain ⟨before, e, after, split, cell⟩ := load_mem_copyAccesses member
        obtain ⟨order, length⟩ := place before after e split
        refine each after.reverse e before.reverse order a v (by rwa [List.length_reverse]) b w ?_ ?_
          same
        · rcases either with (earlier | none) | stored
          · exact .inl earlier
          · exact absurd none store_not_mem_loads
          · exact .inr (List.mem_append_right _ (List.mem_append_left _ stored))
        · rw [List.length_reverse]
          rcases either with (earlier | none) | stored
          · have := above b w earlier
            omega
          · exact absurd none store_not_mem_loads
          · have := texts b w stored
            omega
      · obtain ⟨order, length⟩ := place before after e split
        refine each after.reverse e before.reverse order a v (by rwa [List.length_reverse]) b w ?_ ?_
          same
        · simpa only [List.mem_append, or_assoc] using either
        · rw [List.length_reverse]
          omega
  · rcases either with ((earlier | none) | stored) | stored
    · have := above b w earlier
      omega
    · exact absurd none store_not_mem_loads
    · have := texts b w stored
      omega
    · have := word b w stored
      omega

end Nupkux
