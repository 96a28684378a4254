import Nupkux.Mm.Machine

/-!
# The stack of a program

`do_exec` maps the pages of a new stack and puts the vectors of the program on it. `write_vector`
goes over a vector twice, from its last string to its first: once to copy the strings downwards and
once to put their addresses below them. All addresses are read from memory, which the copies may
be changing.
-/

namespace Nupkux

/-- `USER_STACK_POS`. -/
def userStackPos : Nat := 0x80000000

/-- `USER_STACK_SIZE`. -/
def userStackSize : Nat := 0x1000

/-- `STACK_NOMEM`. -/
def stackNomem : Nat := 0xFFFFFFFF

namespace Machine

/-- The loop of `strlen` over at most so many characters. -/
def strlenLoop (m : Machine) : Nat → Nat → Option Nat
  | 0, _ => none
  | steps + 1, a => do
    let v ← m.byte a
    if v = 0 then some 0 else (m.strlenLoop steps (uadd a 1)).map (· + 1)

/-- `strlen`. If there is no NUL anywhere, it does not return. -/
def strlen (m : Machine) (s : Nat) : Option Nat := m.strlenLoop uintWidth s

/-- The first loop of `strncpy`: what is left of `num`, where `tmp` points and the memory. -/
def strncpyLoop : Nat → Nat → Nat → Machine → Option (Nat × Nat × Machine)
  | 0, s, tmp, m => do
    let v ← m.byte s
    if v = 0 then some (0, tmp, m) else some (uintWidth - 1, tmp, m)
  | num + 1, s, tmp, m => do
    let v ← m.byte s
    if v = 0 then some (num + 1, tmp, m)
    else
      let m ← m.store tmp v
      strncpyLoop num (uadd s 1) (uadd tmp 1) m

/-- `strncpy`, with what it reads: what it copies, and the character it stops at. -/
def strncpy (dest s num : Nat) (m : Machine) : Option (Machine × Reads) := do
  let (num, tmp, m) ← strncpyLoop num s dest m
  let m ← memset tmp 0 num m
  some (m, [(s, usub tmp dest + 1)])

/-- A number is stored in so many bytes, the lowest byte first. -/
def storeValue (a v : Nat) : Nat → Machine → Option Machine
  | 0, m => some m
  | count + 1, m => do
    let m ← storeValue a v count m
    m.store (uadd a count) (BitVec.ofNat 8 (v / 256 ^ count))

/-- The loop `while (vec[argc++])` over at most so many words: how many come before the first that
is 0. -/
def vectorLoop (m : Machine) : Nat → Nat → Option Nat
  | 0, _ => none
  | steps + 1, a => do
    let p ← m.value a 4
    if p = 0 then some 0 else (m.vectorLoop steps (uadd a 4)).map (· + 1)

/-- The number of strings of a vector. -/
def vectorLength (m : Machine) (vec : Nat) : Option Nat := m.vectorLoop uintWidth vec

/-- `vec[i]`. -/
def vectorEntry (m : Machine) (vec i : Nat) : Option Nat := m.value (uadd vec (umul 4 i)) 4

/-- The first loop of `write_vector` over so many strings: `buf` afterwards, the memory and what was
read. -/
def copyStrings (vec : Nat) : Nat → Nat → Machine → Option (Nat × Machine × Reads)
  | 0, buf, m => some (buf, m, [])
  | i + 1, buf, m => do
    let s ← m.vectorEntry vec i
    let length ← m.strlen s
    let tmp := uadd length 1
    let (m, copied) ← strncpy (usub buf tmp) s tmp m
    let (buf, m, reads) ← copyStrings vec i (usub buf tmp) m
    some (buf, m, (uadd vec (umul 4 i), 4) :: (s, length + 1) :: copied ++ reads)

/-- The second loop of `write_vector`, with `oldbuf` and `buf`. -/
def storePointers (vec : Nat) : Nat → Nat → Nat → Machine → Option (Nat × Machine × Reads)
  | 0, _, buf, m => some (buf, m, [])
  | i + 1, oldbuf, buf, m => do
    let s ← m.vectorEntry vec i
    let length ← m.strlen s
    let oldbuf := usub oldbuf (uadd length 1)
    let m ← storeValue (usub buf 4) oldbuf 4 m
    let (buf, m, reads) ← storePointers vec i oldbuf (usub buf 4) m
    some (buf, m, (uadd vec (umul 4 i), 4) :: (s, length + 1) :: reads)

/-- `write_vector`: what it returns, the memory and what was read. -/
def writeVector (vec buf : Nat) (m : Machine) : Option (Nat × Machine × Reads) := do
  if vec = 0 then some (0, m, [])
  else
    let argc ← m.vectorLength vec
    let (top, m, copied) ← copyStrings vec argc buf m
    let m ← storeValue (usub top 4) 0 4 m
    let (res, m, read) ← storePointers vec argc buf (usub top 4) m
    some (res, m, (vec, 4 * (argc + 1)) :: copied ++ read)

/-- The end of `make_new_stack`: the number of arguments and the addresses of the two vectors. -/
def storeHeader (argv esp args envs : Nat) (m : Machine) : Option (Nat × Machine × Reads) := do
  let argc ← m.vectorLength argv
  let esp := usub esp 12
  let m ← storeValue esp argc 4 m
  let m ← storeValue (uadd esp 4) args 4 m
  let m ← storeValue (uadd esp 8) envs 4 m
  some (esp, m, [(argv, 4 * (argc + 1))])

/-- `make_new_stack`: what it returns, the memory and what was read. -/
def makeNewStack (argv envp pos : Nat) (m : Machine) : Option (Nat × Machine × Reads) := do
  let (envs, m, first) ← writeVector envp pos m
  if envs = stackNomem then some (stackNomem, m, first)
  else
    let esp := if envs ≠ 0 then envs else pos
    let (args, m, second) ← writeVector argv esp m
    if args = stackNomem then some (stackNomem, m, first ++ second)
    else
      let esp := if args ≠ 0 then args else esp
      let (esp, m, third) ← storeHeader argv esp args envs m
      some (esp, m, first ++ second ++ third)

/-- The loop of `new_stack` from `i` downwards, of so many turns at most. -/
def newStackLoop (blocks : PageBlocks) (lowest : Nat) : Nat → Nat → Machine → Option Machine
  | 0, _, _ => none
  | turns + 1, i, m =>
    if lowest ≤ i then newStackLoop blocks lowest turns (usub i frameSize) (m.makePage blocks i)
    else some m

/-- `new_stack`. A loop of more turns than there are pages does not end. -/
def newStack (blocks : PageBlocks) (pos size : Nat) (m : Machine) : Option Machine :=
  newStackLoop blocks (usub pos size) (frameNumbers + 1) pos m

variable {m m' : Machine} {blocks : PageBlocks} {a v s t n num tmp vec buf oldbuf count : Nat}
  {argv envp pos esp res rest args envs : Nat} {reads : Reads}

/-! ## The page tables -/

/-- A store keeps the page tables. -/
theorem store_same {v : BitVec 8} (stored : m.store a v = some m') : SamePages m m' := by
  obtain ⟨q, _, rfl⟩ := store_eq_some.mp stored
  exact ⟨rfl, rfl⟩

/-- A number is stored in its bytes only. -/
theorem storeValue_frame (stored : storeValue a v count m = some m') :
    StoresOnly m m' a count := by
  induction count generalizing m' with
  | zero =>
    cases stored
    exact .nothing m a
  | succ count ih =>
    rw [storeValue] at stored
    obtain ⟨between, first, last⟩ := Option.bind_eq_some_iff.mp stored
    exact (ih first).snoc last

/-- The first loop of `strncpy` keeps the page tables. -/
theorem strncpyLoop_same (copied : strncpyLoop num s t m = some (rest, tmp, m')) :
    SamePages m m' := by
  induction num generalizing s t m with
  | zero =>
    rw [strncpyLoop] at copied
    obtain ⟨v, _, copied⟩ := Option.bind_eq_some_iff.mp copied
    split at copied
    · cases copied
      exact .refl _
    · cases copied
      exact .refl _
  | succ num ih =>
    rw [strncpyLoop] at copied
    obtain ⟨v, _, copied⟩ := Option.bind_eq_some_iff.mp copied
    split at copied
    · cases copied
      exact .refl _
    · obtain ⟨between, stored, copied⟩ := Option.bind_eq_some_iff.mp copied
      exact (store_same stored).trans (ih copied)

/-- `strncpy` keeps the page tables. -/
theorem strncpy_same (copied : strncpy t s num m = some (m', reads)) : SamePages m m' := by
  unfold strncpy at copied
  obtain ⟨⟨rest, tmp, between⟩, first, copied⟩ := Option.bind_eq_some_iff.mp copied
  obtain ⟨after, filled, copied⟩ := Option.bind_eq_some_iff.mp copied
  cases copied
  exact (strncpyLoop_same first).trans (memset_frame filled).same

/-- The copies of the strings keep the page tables. -/
theorem copyStrings_same (copied : copyStrings vec n buf m = some (res, m', reads)) :
    SamePages m m' := by
  induction n generalizing buf m reads with
  | zero =>
    cases copied
    exact .refl _
  | succ n ih =>
    rw [copyStrings] at copied
    obtain ⟨s, _, copied⟩ := Option.bind_eq_some_iff.mp copied
    obtain ⟨length, _, copied⟩ := Option.bind_eq_some_iff.mp copied
    obtain ⟨⟨between, _⟩, first, copied⟩ := Option.bind_eq_some_iff.mp copied
    obtain ⟨⟨_, _, _⟩, later, copied⟩ := Option.bind_eq_some_iff.mp copied
    cases copied
    exact (strncpy_same first).trans (ih later)

/-- The addresses of the strings keep the page tables. -/
theorem storePointers_same (stored : storePointers vec n oldbuf buf m = some (res, m', reads)) :
    SamePages m m' := by
  induction n generalizing oldbuf buf m reads with
  | zero =>
    cases stored
    exact .refl _
  | succ n ih =>
    rw [storePointers] at stored
    obtain ⟨s, _, stored⟩ := Option.bind_eq_some_iff.mp stored
    obtain ⟨length, _, stored⟩ := Option.bind_eq_some_iff.mp stored
    obtain ⟨between, first, stored⟩ := Option.bind_eq_some_iff.mp stored
    obtain ⟨⟨_, _, _⟩, later, stored⟩ := Option.bind_eq_some_iff.mp stored
    cases stored
    exact (storeValue_frame first).same.trans (ih later)

/-- `write_vector` keeps the page tables. -/
theorem writeVector_same (written : writeVector vec buf m = some (res, m', reads)) :
    SamePages m m' := by
  unfold writeVector at written
  split at written
  · cases written
    exact .refl _
  · obtain ⟨argc, _, written⟩ := Option.bind_eq_some_iff.mp written
    obtain ⟨⟨top, m₁, _⟩, copied, written⟩ := Option.bind_eq_some_iff.mp written
    obtain ⟨m₂, ended, written⟩ := Option.bind_eq_some_iff.mp written
    obtain ⟨⟨_, m₃, _⟩, stored, written⟩ := Option.bind_eq_some_iff.mp written
    cases written
    exact ((copyStrings_same copied).trans (storeValue_frame ended).same).trans (storePointers_same stored)

/-- The end of `make_new_stack` keeps the page tables. -/
theorem storeHeader_same (stored : storeHeader argv esp args envs m = some (res, m', reads)) :
    SamePages m m' := by
  unfold storeHeader at stored
  obtain ⟨argc, _, stored⟩ := Option.bind_eq_some_iff.mp stored
  obtain ⟨m₁, first, stored⟩ := Option.bind_eq_some_iff.mp stored
  obtain ⟨m₂, second, stored⟩ := Option.bind_eq_some_iff.mp stored
  obtain ⟨m₃, third, stored⟩ := Option.bind_eq_some_iff.mp stored
  simp only [Option.some.injEq, Prod.mk.injEq] at stored
  obtain ⟨_, rfl, _⟩ := stored
  exact ((storeValue_frame first).same.trans (storeValue_frame second).same).trans (storeValue_frame third).same

/-- `make_new_stack` keeps the page tables. -/
theorem makeNewStack_same (built : makeNewStack argv envp pos m = some (esp, m', reads)) :
    SamePages m m' := by
  unfold makeNewStack at built
  obtain ⟨⟨envs, m₁, _⟩, first, built⟩ := Option.bind_eq_some_iff.mp built
  dsimp only at built
  split at built
  · cases built
    exact writeVector_same first
  · obtain ⟨⟨args, m₂, _⟩, second, built⟩ := Option.bind_eq_some_iff.mp built
    dsimp only at built
    have both := (writeVector_same first).trans (writeVector_same second)
    split at built
    · cases built
      exact both
    · obtain ⟨⟨_, m₃, _⟩, third, built⟩ := Option.bind_eq_some_iff.mp built
      cases built
      exact both.trans (storeHeader_same third)

/-! ## The pages of the stack -/

/-- The stack of a program has two pages. -/
theorem newStack_eq (blocks : PageBlocks) (m : Machine) :
    m.newStack blocks userStackPos userStackSize =
      some ((m.makePage blocks 0x80000000).makePage blocks 0x7FFFF000) := by
  have first : usub 0x80000000 frameSize = 0x7FFFF000 := by decide
  have second : usub 0x7FFFF000 frameSize = 0x7FFFE000 := by decide
  have loop (turns : Nat) : newStackLoop blocks 0x7FFFF000 (turns + 1 + 1 + 1) 0x80000000 m =
      some ((m.makePage blocks 0x80000000).makePage blocks 0x7FFFF000) := by
    rw [newStackLoop, if_pos (by decide), first, newStackLoop, if_pos (by decide), second,
      newStackLoop, if_neg (by decide)]
  exact loop 1048574

end Machine

end Nupkux
