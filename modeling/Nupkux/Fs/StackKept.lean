import Nupkux.Fs.StackWrites

/-!
# A stack over one that is the same

When `make_new_stack` leaves memory as it is, each byte that it stores was there: whatever it loads, it
comes to lower and lower addresses, and does not store at one of them twice. So its block is in memory
before it, and what it loads are vectors.
-/

open Accesses

namespace Nupkux

/-- Stores at addresses of a range, of one byte each. -/
def Once (lo hi : Nat) (t : Trace) : Prop :=
  ∀ a v, .store a v ∈ t → lo ≤ a ∧ a < hi ∧ ∀ w, .store a w ∈ t → w = v

variable {t t' : Trace} {lo mid hi a b n v vec buf oldbuf top num s dest g argv envp pos : Nat}
  {u w : BitVec 8} {bytes : List (BitVec 8)} {m m' : Machine}

/-! ## Code that only loads -/

namespace Stepwise

/-- A number is loaded. -/
theorem value_loads (a n : Nat) : (value a n).Loads := by
  induction n with
  | zero => trivial
  | succ n ih => exact ih.bind fun low high => trivial

/-- So is a string. -/
theorem strlenLoop_loads (steps a : Nat) : (strlenLoop steps a).Loads := by
  induction steps generalizing a with
  | zero => trivial
  | succ steps ih =>
    intro u
    change (if u = 0 then Program.done 0 else _ : Code Nat).Loads
    split
    · trivial
    · exact (ih _).bind fun length => trivial

/-- So are the words of a vector. -/
theorem vectorLoop_loads (steps a : Nat) : (vectorLoop steps a).Loads := by
  induction steps generalizing a with
  | zero => trivial
  | succ steps ih =>
    refine (value_loads a 4).bind fun p => ?_
    split
    · trivial
    · exact (ih _).bind fun length => trivial

end Stepwise

/-! ## Where code stores -/

/-- No store. -/
theorem Once.of_not_mem (none : ∀ a v, .store a v ∉ t) : Once lo hi t :=
  fun a v member => absurd member (none a v)

/-- Stores above and below an address. -/
theorem Once.append (upper : Once mid hi t) (lower : Once lo mid t') (low : lo ≤ mid)
    (high : mid ≤ hi) : Once lo hi (t ++ t') := by
  intro a v member
  rcases List.mem_append.mp member with first | second
  · obtain ⟨above, below, single⟩ := upper a v first
    refine ⟨by omega, below, fun w other => single w ((List.mem_append.mp other).resolve_right ?_)⟩
    intro there
    have := (lower a w there).2.1
    omega
  · obtain ⟨above, below, single⟩ := lower a v second
    refine ⟨above, by omega, fun w other => single w ((List.mem_append.mp other).resolve_left ?_)⟩
    intro there
    have := (upper a w there).1
    omega

/-- Bytes that are stored. -/
theorem Once.of_stores (same : ∀ b v, .store b v ∈ t ↔ .store b v ∈ stores a bytes)
    (inRange : a + bytes.length ≤ uintWidth) : Once a (a + bytes.length) t := by
  intro b v member
  have cell := (mem_stores inRange).mp ((same b v).mp member)
  refine ⟨cell.bounds.1, cell.bounds.2, fun w other => ?_⟩
  exact ((mem_stores inRange).mp ((same b w).mp other)).unique cell

/-- A word is stored. -/
theorem storeValue_eq (follows : (Stepwise.storeValue a v 4).Follows t ()) (small : a < uintWidth) :
    t = stores a (Machine.bytes32 v) := by
  rw [← numberBytes_four]
  exact ((Stepwise.storeValue_follows small).of_silent (fun _ _ => load_not_mem_stores) follows).1

/-- `memset` stores one byte again and again. -/
theorem memset_follows (small : a < uintWidth) :
    (Stepwise.memset a u n).Follows (stores a (List.replicate n u)) () := by
  induction n with
  | zero => exact .done ()
  | succ n ih =>
    rw [List.replicate_succ', stores_concat small, List.length_replicate]
    exact ih.bind (.store (.done ()))

/-- A byte is loaded first. -/
theorem follows_byte {R : Type} {f : BitVec 8 → Code R} {r : R} :
    (Stepwise.byte a >>= f).Follows t r ↔ ∃ u t', t = .load a u :: t' ∧ (f u).Follows t' r := by
  constructor
  · intro follows
    obtain ⟨t₁, t₂, u, rfl, first, rest⟩ := follows_bind.mp follows
    cases first with
    | load first =>
      cases first
      exact ⟨u, t₂, rfl, rest⟩
  · rintro ⟨u, t', rfl, rest⟩
    exact .load rest

/-- The loop of `strncpy` stores until it has loaded a NUL, or `num` characters. -/
theorem strncpyLoop_stores {left : Nat × Nat} (small : dest < uintWidth)
    (follows : (Stepwise.strncpyLoop num s dest).Follows t left) : ∃ letters : List (BitVec 8),
      (letters.length + left.1 = num ∨ letters.length = num ∧ left.1 = uintWidth - 1) ∧
      left.2 = uadd dest letters.length ∧
      ∀ b v, .store b v ∈ t ↔ .store b v ∈ stores dest letters := by
  have start : uadd dest 0 = dest := uadd_of_lt small
  induction num generalizing s dest t with
  | zero =>
    obtain ⟨c, t', rfl, rest⟩ := follows_byte.mp follows
    cases rest
    refine ⟨[], ?_, start.symm, fun b v => by simp [stores]⟩
    by_cases nul : c = 0
    · exact .inl (by rw [if_pos nul]; rfl)
    · exact .inr ⟨rfl, if_neg nul⟩
  | succ num ih =>
    obtain ⟨c, t', rfl, rest⟩ := follows_byte.mp follows
    by_cases nul : c = 0
    · rw [if_pos nul] at rest
      cases rest
      exact ⟨[], .inl (Nat.zero_add _), start.symm, fun b v => by simp [stores]⟩
    · rw [if_neg nul] at rest
      cases rest with
      | store rest =>
        obtain ⟨letters, lengths, place, same⟩ := ih (uadd_lt ..) rest (uadd_of_lt (uadd_lt dest 1))
        have next : uadd (uadd dest 1) letters.length = uadd dest (letters.length + 1) := by
          unfold uadd uintWidth
          omega
        refine ⟨c :: letters, ?_, place.trans next, fun b v => ?_⟩
        · rw [List.length_cons]
          omega
        · simp only [stores, List.mem_cons, same, reduceCtorEq, false_or]

/-- `strncpy` stores `num` bytes one after the other, or nearly everywhere. -/
theorem strncpy_stores (small : dest < uintWidth)
    (follows : (Stepwise.strncpy dest s num).Follows t ()) : ∃ bytes : List (BitVec 8),
      (bytes.length = num ∨ num + (uintWidth - 1) ≤ bytes.length) ∧
      ∀ b v, .store b v ∈ t ↔ .store b v ∈ stores dest bytes := by
  obtain ⟨t₁, t₂, left, rfl, loop, rest⟩ := follows_bind.mp follows
  obtain ⟨letters, lengths, place, same⟩ := strncpyLoop_stores small loop
  rw [place] at rest
  obtain ⟨rfl, _⟩ := (memset_follows (uadd_lt ..)).of_silent (fun _ _ => load_not_mem_stores) rest
  refine ⟨letters ++ List.replicate left.1 0, ?_, fun b v => ?_⟩
  · rw [List.length_append, List.length_replicate]
    omega
  · rw [stores_append small, List.mem_append, List.mem_append, same]

/-! ## Downwards -/

section Missing

variable (missing : ∀ v, .store g v ∉ t) (low : g < buf) (small : buf < uintWidth)

include missing low small

/-- The first loop of `write_vector` goes down to an address above one where it does not store. -/
theorem copyStrings_once (follows : (Stepwise.copyStrings vec n buf).Follows t top)
    (last : ∀ v, .store (uintWidth - 1) v ∉ t) : g < top ∧ top ≤ buf ∧ Once top buf t := by
  induction n generalizing buf t with
  | zero =>
    cases follows
    exact ⟨low, Nat.le_refl _, .of_not_mem fun _ _ => List.not_mem_nil⟩
  | succ n ih =>
    obtain ⟨t₁, t₂, s, rfl, entry, rest⟩ := follows_bind.mp follows
    obtain ⟨t₃, t₄, length, rfl, string, rest⟩ := follows_bind.mp rest
    obtain ⟨t₅, t₆, _, rfl, copy, rest⟩ := follows_bind.mp rest
    have silent := fun a v => (Stepwise.value_loads _ 4).not_stored (a := a) (v := v) entry
    have silent' := fun a v => (Stepwise.strlenLoop_loads _ s).not_stored (a := a) (v := v) string
    have tmpSmall : uadd length 1 < uintWidth := uadd_lt ..
    generalize uadd length 1 = tmp at *
    obtain ⟨bytes, lengths, same⟩ := strncpy_stores (usub_lt ..) copy
    have copied {a : Nat} {v : BitVec 8} (member : .store a v ∈ stores (usub buf tmp) bytes) :
        .store a v ∈ t₁ ++ (t₃ ++ (t₅ ++ t₆)) := List.mem_append_right _
      (List.mem_append_right _ (List.mem_append_left _ ((same a v).mpr member)))
    -- it does not store everywhere
    have total : bytes.length = tmp := by
      refine lengths.resolve_right fun much => ?_
      have inside : uintWidth - 1 - usub buf tmp < bytes.length := by
        unfold usub uintWidth at *
        omega
      obtain ⟨v, member⟩ := exists_store inside (usub_lt buf tmp)
      have place : uadd (usub buf tmp) (uintWidth - 1 - usub buf tmp) = uintWidth - 1 := by
        unfold uadd usub uintWidth at *
        omega
      rw [place] at member
      exact last v (copied member)
    have fits : g + bytes.length < buf := by
      rw [← total] at copied
      exact fits_stores low small (fun v member => missing v (copied member)) (by omega)
    rw [usub_of_le (by omega) small] at same rest
    obtain ⟨above, below, once⟩ := ih (fun v member => missing v (List.mem_append_right _
      (List.mem_append_right _ (List.mem_append_right _ member)))) (by omega) (by omega) rest
      fun v member => last v (List.mem_append_right _ (List.mem_append_right _
        (List.mem_append_right _ member)))
    have here := Once.of_stores same (by omega)
    rw [total, show buf - tmp + tmp = buf by omega] at here
    refine ⟨above, by omega, ?_⟩
    have none : Once buf buf t₁ := .of_not_mem silent
    have none' : Once buf buf t₃ := .of_not_mem silent'
    exact none.append (none'.append (here.append once below (by omega)) (by omega) (Nat.le_refl _))
      (by omega) (Nat.le_refl _)

/-- A word that is stored below an address. -/
theorem storeValue_once (follows : (Stepwise.storeValue (usub buf 4) v 4).Follows t ()) :
    g + 4 < buf ∧ Once (buf - 4) buf t := by
  obtain rfl := storeValue_eq follows (usub_lt ..)
  have length := length_bytes32 v
  have fits : g + (Machine.bytes32 v).length < buf := by
    refine fits_stores low small (fun u member => missing u ?_) (by rw [length]; decide)
    rwa [length] at member
  rw [length] at fits
  have once : Once (buf - 4) (buf - 4 + (Machine.bytes32 v).length)
      (stores (buf - 4) (Machine.bytes32 v)) :=
    .of_stores (fun _ _ => Iff.rfl) (by rw [length]; omega)
  rw [length, show buf - 4 + 4 = buf by omega] at once
  rw [usub_of_le (by omega) small]
  exact ⟨fits, once⟩

/-- So does the second loop. -/
theorem storePointers_once (follows : (Stepwise.storePointers vec n oldbuf buf).Follows t top) :
    g < top ∧ top ≤ buf ∧ Once top buf t := by
  induction n generalizing oldbuf buf t with
  | zero =>
    cases follows
    exact ⟨low, Nat.le_refl _, .of_not_mem fun _ _ => List.not_mem_nil⟩
  | succ n ih =>
    obtain ⟨t₁, t₂, s, rfl, entry, rest⟩ := follows_bind.mp follows
    obtain ⟨t₃, t₄, length, rfl, string, rest⟩ := follows_bind.mp rest
    obtain ⟨t₅, t₆, _, rfl, word, rest⟩ := follows_bind.mp rest
    have silent := fun a v => (Stepwise.value_loads _ 4).not_stored (a := a) (v := v) entry
    have silent' := fun a v => (Stepwise.strlenLoop_loads _ s).not_stored (a := a) (v := v) string
    obtain ⟨fits, here⟩ := storeValue_once (fun v member => missing v (List.mem_append_right _
      (List.mem_append_right _ (List.mem_append_left _ member)))) low small word
    rw [usub_of_le (by omega) small] at rest
    obtain ⟨above, below, once⟩ := ih (fun v member => missing v (List.mem_append_right _
      (List.mem_append_right _ (List.mem_append_right _ member)))) (by omega) (by omega) rest
    refine ⟨above, by omega, ?_⟩
    have none : Once buf buf t₁ := .of_not_mem silent
    have none' : Once buf buf t₃ := .of_not_mem silent'
    exact none.append (none'.append (here.append once below (by omega)) (by omega) (Nat.le_refl _))
      (by omega) (Nat.le_refl _)

/-- So does `write_vector`, and it returns where it has come to, or 0. -/
theorem writeVector_once {res : Nat} (follows : (Stepwise.writeVector vec buf).Follows t res)
    (last : ∀ v, .store (uintWidth - 1) v ∉ t) :
    g < (if res ≠ 0 then res else buf) ∧ (if res ≠ 0 then res else buf) ≤ buf ∧
      Once (if res ≠ 0 then res else buf) buf t := by
  unfold Stepwise.writeVector at follows
  by_cases null : vec = 0
  · rw [if_pos null] at follows
    cases follows
    exact ⟨low, Nat.le_refl _, .of_not_mem fun _ _ => List.not_mem_nil⟩
  · rw [if_neg null] at follows
    obtain ⟨t₁, t₂, argc, rfl, count, rest⟩ := follows_bind.mp follows
    obtain ⟨t₃, t₄, top, rfl, strings, rest⟩ := follows_bind.mp rest
    obtain ⟨t₅, t₆, _, rfl, word, pointers⟩ := follows_bind.mp rest
    have silent := fun a v => (Stepwise.vectorLoop_loads _ vec).not_stored (a := a) (v := v) count
    obtain ⟨above, below, once⟩ := copyStrings_once (fun v member => missing v
      (List.mem_append_right _ (List.mem_append_left _ member))) low small strings
      fun v member => last v (List.mem_append_right _ (List.mem_append_left _ member))
    obtain ⟨fits, here⟩ := storeValue_once (fun v member => missing v (List.mem_append_right _
      (List.mem_append_right _ (List.mem_append_left _ member)))) above (by omega) word
    rw [usub_of_le (by omega) (by omega)] at pointers
    obtain ⟨above', below', once'⟩ := storePointers_once (fun v member => missing v
      (List.mem_append_right _ (List.mem_append_right _ (List.mem_append_right _ member))))
      (by omega) (by omega) pointers
    rw [if_pos (by omega)]
    refine ⟨above', by omega, ?_⟩
    have none : Once buf buf t₁ := .of_not_mem silent
    exact none.append (once.append (here.append once' below' (by omega)) (by omega) below)
      (by omega) (Nat.le_refl _)

/-- So does `make_new_stack`. -/
theorem makeNewStack_once {esp : Nat} (inside : buf < stackNomem)
    (follows : (Stepwise.makeNewStack argv envp buf).Follows t esp)
    (last : ∀ v, .store (uintWidth - 1) v ∉ t) : Once (g + 1) buf t := by
  obtain ⟨t₁, t₂, envs, rfl, first, rest⟩ := follows_bind.mp follows
  obtain ⟨above, below, once⟩ := writeVector_once (fun v member => missing v
    (List.mem_append_left _ member)) low small first
    fun v member => last v (List.mem_append_left _ member)
  have proper : envs ≠ stackNomem := by
    rintro rfl
    rw [if_pos (by decide)] at below
    omega
  rw [if_neg proper] at rest
  generalize (if envs ≠ 0 then envs else buf) = top at *
  obtain ⟨t₃, t₄, args, rfl, second, rest⟩ := follows_bind.mp rest
  obtain ⟨above', below', once'⟩ := writeVector_once (fun v member => missing v
    (List.mem_append_right _ (List.mem_append_left _ member))) above (by omega) second
    fun v member => last v (List.mem_append_right _ (List.mem_append_left _ member))
  have proper' : args ≠ stackNomem := by
    rintro rfl
    rw [if_pos (by decide)] at below'
    omega
  rw [if_neg proper'] at rest
  generalize (if args ≠ 0 then args else top) = bottom at *
  obtain ⟨t₅, t₆, argc, rfl, count, rest⟩ := follows_bind.mp rest
  have silent := fun a v => (Stepwise.vectorLoop_loads _ argv).not_stored (a := a) (v := v) count
  obtain ⟨rfl, _⟩ := Stepwise.storeWords_follows.of_silent
    (fun _ _ => load_not_mem_headerStores) rest
  have fits := fits_headerStores above' (by omega) fun v member => missing v
    (List.mem_append_right _ (List.mem_append_right _ (List.mem_append_right _ member)))
  have length : (wordBytes [argc, args, envs]).length = 12 := length_wordBytes _
  have here : Once (usub bottom 12) (usub bottom 12 + (wordBytes [argc, args, envs]).length)
      (headerStores bottom argc args envs) := by
    refine .of_stores (fun b v => by rw [← headerStores_eq]) ?_
    rw [usub_of_le (by omega) (by omega), length]
    omega
  rw [usub_of_le (by omega) (by omega), length, show bottom - 12 + 12 = bottom by omega] at here
  have none : Once bottom bottom t₅ := .of_not_mem silent
  have lower := none.append here (by omega) (Nat.le_refl _)
  have whole := once.append (once'.append lower (by omega) below') (by omega) below
  exact fun a v member => ⟨Nat.le_trans (by omega) (whole a v member).1, (whole a v member).2⟩

end Missing

/-! ## What is loaded -/

namespace Machine

/-- What only loads give. -/
theorem read_of_follows {R : Type} {p : Code R} {r : R} {x : Option R}
    (reads : m.perform p = x.map fun r => (r, m)) (loads : p.Loads) (follows : p.Follows t r)
    (sees : Sees m.byte t) : x = some r := by
  have quiet := replays_quiet sees fun a v member => absurd member (loads.not_stored follows)
  have ran : m.perform p = some (r, m) := perform_eq_some.mpr ⟨t, _, follows, quiet, rfl⟩
  rw [ran] at reads
  obtain ⟨r', found, same⟩ := Option.map_eq_some_iff.mp reads.symm
  cases same
  exact found

/-- `strlen` ends at a NUL. -/
theorem exists_string {steps : Nat} (last : m.byte (uintWidth - 1) = none) (small : a < uintWidth)
    (reads : m.strlenLoop steps a = some n) : ∃ s, m.StringAt a s := by
  induction steps generalizing a n with
  | zero => cases reads
  | succ steps ih =>
    obtain ⟨c, found, reads⟩ := Option.bind_eq_some_iff.mp reads
    by_cases nul : c = 0
    · refine ⟨[], List.not_mem_nil, fun j inside => ?_, small⟩
      obtain rfl : j = 0 := Nat.lt_one_iff.mp inside
      rw [Nat.add_zero, found, nul]
      rfl
    · rw [if_neg nul] at reads
      obtain ⟨length, reads, _⟩ := Option.map_eq_some_iff.mp reads
      have before : a ≠ uintWidth - 1 := by
        rintro rfl
        rw [last] at found
        cases found
      rw [uadd_of_lt (by omega)] at reads
      obtain ⟨s, letters, bytes, inRange⟩ := ih (by omega) reads
      refine ⟨c :: s, ?_, ?_, ?_⟩
      · intro member
        rcases List.mem_cons.mp member with head | later
        · exact nul head.symm
        · exact letters later
      · rw [List.cons_append, ← List.singleton_append, holdsAt_append]
        refine ⟨fun j inside => ?_, bytes⟩
        obtain rfl : j = 0 := Nat.lt_one_iff.mp inside
        exact found
      · rw [List.length_cons]
        omega

/-- The loop over a vector ends at a null pointer. -/
theorem exists_words {steps : Nat} (last : m.byte (uintWidth - 1) = none) (small : a < uintWidth)
    (reads : m.vectorLoop steps a = some n) : ∃ words : List Nat, words.length = n ∧ 0 ∉ words ∧
      a + 4 * n + 4 ≤ uintWidth ∧ m.WordsAt a (words ++ [0]) := by
  induction steps generalizing a n with
  | zero => cases reads
  | succ steps ih =>
    obtain ⟨p, found, reads⟩ := Option.bind_eq_some_iff.mp reads
    have inside : a + 4 < uintWidth := by
      by_contra outside
      have mapped := value_isSome.mp (Option.isSome_of_eq_some found) (uintWidth - 1 - a) (by omega)
      have place : uadd a (uintWidth - 1 - a) = uintWidth - 1 := by
        rw [uadd_of_lt (by omega)]
        omega
      rw [place, ← byte_isSome, last] at mapped
      cases mapped
    by_cases null : p = 0
    · rw [if_pos null] at reads
      cases reads
      refine ⟨[], rfl, List.not_mem_nil, by omega, fun k inside => ?_⟩
      obtain rfl : k = 0 := Nat.lt_one_iff.mp inside
      rw [Nat.mul_zero, Nat.add_zero, found, null]
      rfl
    · rw [if_neg null, uadd_of_lt (by omega)] at reads
      obtain ⟨length, counted, rfl⟩ := Option.map_eq_some_iff.mp reads
      obtain ⟨words, rfl, nonzero, inRange, at_⟩ := ih inside counted
      refine ⟨p :: words, List.length_cons, ?_, by omega, fun k inside => ?_⟩
      · intro member
        rcases List.mem_cons.mp member with head | later
        · exact null head.symm
        · exact nonzero later
      · cases k with
        | zero => exact found
        | succ k =>
          rw [show a + 4 * (k + 1) = a + 4 + 4 * k by omega]
          exact at_ k (Nat.lt_of_succ_lt_succ inside)

/-- So a vector whose strings have been loaded is one. -/
theorem exists_vector (last : m.byte (uintWidth - 1) = none) (small : vec < uintWidth)
    (nonnull : vec ≠ 0) (count : m.vectorLength vec = some n)
    (strings : ∀ i < n, ∃ s length, m.vectorEntry vec i = some s ∧ m.strlen s = some length) :
    ∃ entries, m.VectorAt vec entries := by
  obtain ⟨words, length, nonzero, inRange, at_⟩ := exists_words last small count
  have texts (p : Nat) (member : p ∈ words) : ∃ s, m.StringAt p s := by
    obtain ⟨i, inside, rfl⟩ := List.getElem_of_mem member
    obtain ⟨s, strlen, entry, string⟩ := strings i (by omega)
    have word := at_ i (by simp; omega)
    rw [List.getElem_append_left inside] at word
    rw [vectorEntry, umul_of_lt (by omega), uadd_of_lt (by omega), word] at entry
    cases entry
    exact exists_string last (value_lt word) string
  have entries (words : List Nat) (texts : ∀ p ∈ words, ∃ s, m.StringAt p s) :
      ∃ entries : List Entry, entries.map Prod.fst = words ∧
        ∀ e ∈ entries, m.StringAt e.1 e.2 := by
    induction words with
    | nil => exact ⟨[], rfl, fun e member => nomatch member⟩
    | cons p words ih =>
      obtain ⟨s, string⟩ := texts p List.mem_cons_self
      obtain ⟨entries, rfl, strings⟩ := ih fun p member => texts p (List.mem_cons_of_mem _ member)
      exact ⟨(p, s) :: entries, rfl, List.forall_mem_cons.mpr ⟨string, strings⟩⟩
  obtain ⟨entries, rfl, all⟩ := entries words texts
  rw [List.length_map] at length
  refine ⟨entries, nonnull, by omega, at_, fun e member zero => nonzero ?_, all⟩
  exact List.mem_map.mpr ⟨e, member, zero⟩

/-- The first loop of `write_vector` loads all strings. -/
theorem strings_of_copyStrings (follows : (Stepwise.copyStrings vec n buf).Follows t top)
    (sees : Sees m.byte t) :
    ∀ i < n, ∃ s length, m.vectorEntry vec i = some s ∧ m.strlen s = some length := by
  induction n generalizing buf t with
  | zero => exact fun i less => absurd less (Nat.not_lt_zero i)
  | succ n ih =>
    obtain ⟨t₁, t₂, s, rfl, entry, rest⟩ := follows_bind.mp follows
    obtain ⟨t₃, t₄, length, rfl, string, rest⟩ := follows_bind.mp rest
    obtain ⟨t₅, t₆, _, rfl, _, rest⟩ := follows_bind.mp rest
    simp only [sees_append] at sees
    intro i less
    rcases Nat.lt_succ_iff_lt_or_eq.mp less with earlier | rfl
    · exact ih rest sees.2.2.2 i earlier
    · exact ⟨s, length, read_of_follows (perform_value _ 4 m) (Stepwise.value_loads _ 4) entry sees.1,
        read_of_follows (perform_strlenLoop _ s m) (Stepwise.strlenLoop_loads _ s) string sees.2.1⟩

/-- `write_vector` has loaded a vector. -/
theorem optionalVector_of_follows {res : Nat} (last : m.byte (uintWidth - 1) = none)
    (small : vec < uintWidth) (follows : (Stepwise.writeVector vec buf).Follows t res)
    (sees : Sees m.byte t) : ∃ env, m.OptionalVectorAt vec env := by
  by_cases null : vec = 0
  · exact ⟨none, null⟩
  · rw [Stepwise.writeVector, if_neg null] at follows
    obtain ⟨t₁, t₂, argc, rfl, count, rest⟩ := follows_bind.mp follows
    obtain ⟨t₃, t₄, top, rfl, strings, _⟩ := follows_bind.mp rest
    simp only [sees_append] at sees
    have length := read_of_follows (perform_vectorLoop _ vec m) (Stepwise.vectorLoop_loads _ vec)
      count sees.1
    obtain ⟨entries, vector⟩ := exists_vector last small null length
      (strings_of_copyStrings strings sees.2.1)
    exact ⟨some entries, vector⟩

/-! ## The block is there -/

/-- The block of the vectors at two addresses is below `USER_STACK_POS`. With a null pointer for the
arguments, the words from address 0 on are counted. -/
def BlockThere (m : Machine) (argv envp : Nat) : Prop :=
  ∃ args env argc, m.OptionalVectorAt argv args ∧ m.OptionalVectorAt envp env ∧
    m.vectorLength argv = some argc ∧ writtenSize args env ≤ userStackPos ∧
    m.HoldsAt (userStackPos - writtenSize args env)
      (blockBytes argc userStackPos (args.map (List.map Prod.snd)) (env.map (List.map Prod.snd)))

/-- Then `make_new_stack` leaves memory as it is. -/
theorem BlockThere.makeNewStack (there : m.BlockThere argv envp) : ∃ esp reads, esp ≠ stackNomem ∧
    makeNewStack argv envp userStackPos m = some (esp, m, reads) := by
  obtain ⟨args, env, argc, argVector, envVector, count, fits, holds⟩ := there
  have small : userStackPos < uintWidth := by decide
  have size : optionalSize (env.map (List.map Prod.snd)) +
    optionalSize (args.map (List.map Prod.snd)) + 12 ≤ userStackPos := fits
  have top : topBelow userStackPos env =
    userStackPos - optionalSize (env.map (List.map Prod.snd)) := topBelow_of_fits (by omega) small
  have esp : topBelow (topBelow userStackPos env) args =
      topBelow userStackPos env - optionalSize (args.map (List.map Prod.snd)) :=
    topBelow_of_fits (by omega) (by omega)
  have envEnd : optionalEnd env userStackPos =
    optionalAt userStackPos (env.map (List.map Prod.snd)) := optionalEnd_eq (by omega) small
  have argEnd : optionalEnd args (topBelow userStackPos env) =
      optionalAt (topBelow userStackPos env) (args.map (List.map Prod.snd)) :=
    optionalEnd_eq (by omega) (by omega)
  have proper : optionalEnd env userStackPos ≠ stackNomem :=
    optionalEnd_ne_nomem (by omega) small
  have proper' : optionalEnd args (topBelow userStackPos env) ≠ stackNomem :=
    optionalEnd_ne_nomem (by omega) (by omega)
  -- the arguments are counted
  have counted : m.perform (Stepwise.vectorLength argv) = some (argc, m) := by
    rw [Stepwise.vectorLength, perform_vectorLoop]
    exact congrArg _ count
  obtain ⟨t, mem, counts, replays, _⟩ := perform_eq_some.mp counted
  have silent := fun a v => (Stepwise.vectorLoop_loads _ argv).not_stored (a := a) (v := v) counts
  have seen := (replays.quiet fun a v member => absurd member (silent a v)).2
  have follows : (Stepwise.makeNewStack argv envp userStackPos).Follows
      (optionalAccesses envp env userStackPos ++ (optionalAccesses argv args
        (topBelow userStackPos env) ++ (t ++ headerStores
          (topBelow (topBelow userStackPos env) args) argc
          (optionalEnd args (topBelow userStackPos env)) (optionalEnd env userStackPos))))
      (usub (topBelow (topBelow userStackPos env) args) 12) := by
    refine (Stepwise.writeOptional_follows envVector.proper.1 envVector.proper.2 small).bind ?_
    rw [if_neg proper]
    refine (Stepwise.writeOptional_follows argVector.proper.1 argVector.proper.2 (by
      rw [← topBelow]
      omega)).bind ?_
    rw [if_neg (by rwa [← topBelow])]
    exact counts.bind Stepwise.storeWords_follows
  have quiet : Replays m.translate _ m.physical m.physical := replays_quiet
    (t := optionalAccesses envp env userStackPos ++ (optionalAccesses argv args
      (topBelow userStackPos env) ++ (t ++ headerStores (topBelow (topBelow userStackPos env) args)
        argc (optionalEnd args (topBelow userStackPos env)) (optionalEnd env userStackPos)))) ?_ ?_
  · have returns : usub (topBelow (topBelow userStackPos env) args) 12 ≠ stackNomem := by
      have high : userStackPos < stackNomem := by decide
      rw [esp, top, usub_of_le (by omega) (by omega)]
      omega
    obtain ⟨reads, built⟩ := makeNewStack_eq_some.mpr ⟨_, _, follows, quiet, rfl⟩
    exact ⟨_, reads, returns, built⟩
  · rw [sees_append, sees_append, sees_append]
    refine ⟨fun a v member => envVector.byte (load_mem_optionalAccesses member),
      fun a v member => argVector.byte (load_mem_optionalAccesses member), seen,
      fun a v member => absurd member load_not_mem_headerStores⟩
  · intro a v member
    rw [argEnd, envEnd, esp, top] at member
    exact holdsAt_iff.mp holds a v ((store_mem_parts fits small silent).mp member)

/-- A run of `make_new_stack` that stores what is there already has found the block there. -/
theorem blockThere_of_quiet {esp : Nat} (last : m.byte (uintWidth - 1) = none)
    (argSmall : argv < uintWidth) (envSmall : envp < uintWidth) (low : g < userStackPos)
    (missing : ∀ v, .store g v ∉ t)
    (follows : (Stepwise.makeNewStack argv envp userStackPos).Follows t esp) (sees : Sees m.byte t)
    (quiet : ∀ a v, .store a v ∈ t → m.byte a = some v) : m.BlockThere argv envp := by
  have small : userStackPos < uintWidth := by decide
  obtain ⟨t₁, t₂, envs, rfl, first, rest⟩ := follows_bind.mp follows
  rw [sees_append] at sees
  obtain ⟨env, envVector⟩ := optionalVector_of_follows last envSmall first sees.1
  obtain ⟨rfl, rfl⟩ := first.unique
    (Stepwise.writeOptional_follows envVector.proper.1 envVector.proper.2 small) sees.1
    fun a v member => envVector.byte (load_mem_optionalAccesses member)
  have envMissing := fun v member => missing v (List.mem_append_left _ member)
  have envFits := fits_optionalAccesses low small envVector.proper.1 envMissing
  have top := topBelow_eq low small envVector.proper.1 envMissing
  have envEnd : optionalEnd env userStackPos =
    optionalAt userStackPos (env.map (List.map Prod.snd)) := optionalEnd_eq (by omega) small
  have proper : optionalEnd env userStackPos ≠ stackNomem :=
    optionalEnd_ne_nomem (by omega) small
  rw [if_neg proper, ← topBelow] at rest
  obtain ⟨t₃, t₄, args', rfl, second, rest⟩ := follows_bind.mp rest
  rw [sees_append] at sees
  obtain ⟨args, argVector⟩ := optionalVector_of_follows last argSmall second sees.2.1
  obtain ⟨rfl, rfl⟩ := second.unique
    (Stepwise.writeOptional_follows argVector.proper.1 argVector.proper.2 (by omega)) sees.2.1
    fun a v member => argVector.byte (load_mem_optionalAccesses member)
  have argMissing := fun v member => missing v (List.mem_append_right _
    (List.mem_append_left _ member))
  have esp := topBelow_eq (by omega) (by omega) argVector.proper.1 argMissing
  have argFits := fits_optionalAccesses (by omega) (by omega) argVector.proper.1 argMissing
  have argEnd : optionalEnd args (topBelow userStackPos env) =
      optionalAt (topBelow userStackPos env) (args.map (List.map Prod.snd)) :=
    optionalEnd_eq (by omega) (by omega)
  have proper' : optionalEnd args (topBelow userStackPos env) ≠ stackNomem :=
    optionalEnd_ne_nomem (by omega) (by omega)
  rw [if_neg proper', ← topBelow] at rest
  obtain ⟨t₅, t₆, argc, rfl, counts, rest⟩ := follows_bind.mp rest
  rw [sees_append] at sees
  obtain ⟨rfl, _⟩ := Stepwise.storeWords_follows.of_silent
    (fun _ _ => load_not_mem_headerStores) rest
  have count := read_of_follows (perform_vectorLoop _ argv m) (Stepwise.vectorLoop_loads _ argv)
    counts sees.2.2.1
  have silent := fun a v => (Stepwise.vectorLoop_loads _ argv).not_stored (a := a) (v := v) counts
  have fits := fits_block low small envVector.proper.1 argVector.proper.1 envMissing argMissing
    fun v member => missing v (List.mem_append_right _ (List.mem_append_right _
      (List.mem_append_right _ member)))
  have size : optionalSize (env.map (List.map Prod.snd)) +
      optionalSize (args.map (List.map Prod.snd)) + 12 = writtenSize args env := rfl
  rw [argEnd, envEnd, esp, top] at quiet
  refine ⟨args, env, argc, argVector, envVector, count, by omega, holdsAt_iff.mpr ?_⟩
  exact fun a v cell => quiet a v ((store_mem_parts (by omega) small silent).mpr cell)

end Machine

end Nupkux
