import Nupkux.Fs.UserStack
import Nupkux.Lib.Accesses

/-!
# Building a stack, one access at a time

The functions that build the stack of a program, as programs of single loads and stores. What a
machine does with such a program is what the function does, so that a run of `make_new_stack` has a
list of accesses: every byte it loads, every byte it stores, and in which order.
-/

open Accesses

namespace Nupkux

/-- Code that loads and stores bytes. -/
abbrev Code (R : Type) := Program Nat (BitVec 8) R

/-- The accesses of code. -/
abbrev Trace := List (Access Nat (BitVec 8))

namespace Stepwise

/-- A byte is loaded. -/
def byte (a : Nat) : Code (BitVec 8) := .load a .done

/-- A byte is stored. -/
def store (a : Nat) (v : BitVec 8) : Code Unit := .store a v (.done ())

/-- A number is loaded. -/
def value (a : Nat) : Nat → Code Nat
  | 0 => .done 0
  | count + 1 => do
    let low ← value a count
    let high ← byte (uadd a count)
    .done (low + 256 ^ count * high.toNat)

/-- A number is stored. -/
def storeValue (a v : Nat) : Nat → Code Unit
  | 0 => .done ()
  | count + 1 => do
    storeValue a v count
    store (uadd a count) (BitVec.ofNat 8 (v / 256 ^ count))

/-- `memset`. -/
def memset (target : Nat) (v : BitVec 8) : Nat → Code Unit
  | 0 => .done ()
  | count + 1 => do
    memset target v count
    store (uadd target count) v

/-- The loop of `strlen`. -/
def strlenLoop : Nat → Nat → Code Nat
  | 0, _ => .stuck
  | steps + 1, a => do
    let v ← byte a
    if v = 0 then .done 0
    else do
      let length ← strlenLoop steps (uadd a 1)
      .done (length + 1)

/-- `strlen`. -/
def strlen (s : Nat) : Code Nat := strlenLoop uintWidth s

/-- The first loop of `strncpy`. -/
def strncpyLoop : Nat → Nat → Nat → Code (Nat × Nat)
  | 0, s, tmp => do
    let v ← byte s
    .done (if v = 0 then 0 else uintWidth - 1, tmp)
  | num + 1, s, tmp => do
    let v ← byte s
    if v = 0 then .done (num + 1, tmp)
    else do
      store tmp v
      strncpyLoop num (uadd s 1) (uadd tmp 1)

/-- `strncpy`. -/
def strncpy (dest s num : Nat) : Code Unit := do
  let left ← strncpyLoop num s dest
  memset left.2 0 left.1

/-- The loop over the words of a vector. -/
def vectorLoop : Nat → Nat → Code Nat
  | 0, _ => .stuck
  | steps + 1, a => do
    let p ← value a 4
    if p = 0 then .done 0
    else do
      let length ← vectorLoop steps (uadd a 4)
      .done (length + 1)

/-- The number of strings of a vector. -/
def vectorLength (vec : Nat) : Code Nat := vectorLoop uintWidth vec

/-- `vec[i]`. -/
def vectorEntry (vec i : Nat) : Code Nat := value (uadd vec (umul 4 i)) 4

/-- The first loop of `write_vector`. -/
def copyStrings (vec : Nat) : Nat → Nat → Code Nat
  | 0, buf => .done buf
  | i + 1, buf => do
    let s ← vectorEntry vec i
    let length ← strlen s
    strncpy (usub buf (uadd length 1)) s (uadd length 1)
    copyStrings vec i (usub buf (uadd length 1))

/-- The second loop of `write_vector`. -/
def storePointers (vec : Nat) : Nat → Nat → Nat → Code Nat
  | 0, _, buf => .done buf
  | i + 1, oldbuf, buf => do
    let s ← vectorEntry vec i
    let length ← strlen s
    storeValue (usub buf 4) (usub oldbuf (uadd length 1)) 4
    storePointers vec i (usub oldbuf (uadd length 1)) (usub buf 4)

/-- `write_vector`. -/
def writeVector (vec buf : Nat) : Code Nat :=
  if vec = 0 then .done 0
  else do
    let argc ← vectorLength vec
    let top ← copyStrings vec argc buf
    storeValue (usub top 4) 0 4
    storePointers vec argc buf (usub top 4)

/-- The end of `make_new_stack`. -/
def storeHeader (argv esp args envs : Nat) : Code Nat := do
  let argc ← vectorLength argv
  storeValue (usub esp 12) argc 4
  storeValue (uadd (usub esp 12) 4) args 4
  storeValue (uadd (usub esp 12) 8) envs 4
  .done (usub esp 12)

/-- `make_new_stack`. -/
def makeNewStack (argv envp pos : Nat) : Code Nat := do
  let envs ← writeVector envp pos
  if envs = stackNomem then .done stackNomem
  else do
    let args ← writeVector argv (if envs ≠ 0 then envs else pos)
    if args = stackNomem then .done stackNomem
    else storeHeader argv (if args ≠ 0 then args else if envs ≠ 0 then envs else pos) args envs

end Stepwise

namespace Machine

/-- The machine goes through code: the result and the machine afterwards. -/
def perform {R : Type} (m : Machine) (p : Code R) : Option (R × Machine) :=
  (p.run m.translate m.physical).map fun after => (after.1, { m with physical := after.2 })

variable {R S β γ : Type} {m m' : Machine} {p : Code R} {f : R → Code S} {e' : γ → S × Machine}

/-- Code that ends has a list of accesses that the memory of the machine allows. -/
theorem perform_eq_some {r : R} : m.perform p = some (r, m') ↔
    ∃ t mem, p.Follows t r ∧ Replays m.translate t m.physical mem ∧
      m' = { m with physical := mem } := by
  rw [perform, Option.map_eq_some_iff]
  constructor
  · rintro ⟨⟨r', mem⟩, run, same⟩
    cases same
    obtain ⟨t, follows, replays⟩ := run_eq_some.mp run
    exact ⟨t, mem, follows, replays, rfl⟩
  · rintro ⟨t, mem, follows, replays, rfl⟩
    exact ⟨(r, mem), run_eq_some.mpr ⟨t, follows, replays⟩, rfl⟩

/-- One step after another. -/
theorem perform_bind {x : Option β} {e : β → R × Machine} {g : β → Option γ}
    (first : m.perform p = x.map e)
    (rest : ∀ b, (e b).2.perform (f (e b).1) = (g b).map e') :
    m.perform (p >>= f) = (x >>= g).map e' := by
  have both : m.perform (p >>= f) =
      (m.perform p).bind fun after => after.2.perform (f after.1) := by
    rw [perform, run_bind, perform]
    cases p.run m.translate m.physical <;> rfl
  rw [both, first]
  cases x with
  | none => rfl
  | some b => exact rest b

/-- A step that only loads. -/
theorem perform_bind_read {x : Option R} {g : R → Option γ}
    (first : m.perform p = x.map fun r => (r, m))
    (rest : ∀ r, m.perform (f r) = (g r).map e') : m.perform (p >>= f) = (x >>= g).map e' :=
  perform_bind first rest

/-- The last step. -/
theorem perform_last {x : Option β} {e : β → S × Machine} {g : β → γ} (e' : γ → S × Machine)
    {p : Code S} (last : m.perform p = x.map e) (same : ∀ b, e b = e' (g b)) :
    m.perform p = (x >>= fun b => some (g b)).map e' := by
  rw [last]
  cases x with
  | none => rfl
  | some b => exact congrArg some (same b)

/-- Something made of what only loads give. -/
theorem perform_map {x : Option R} (h : R → S) (first : m.perform p = x.map fun r => (r, m)) :
    m.perform (p >>= fun r => .done (h r)) = (x.map h).map fun s => (s, m) := by
  have mapped : m.perform (p >>= fun r => .done (h r)) =
      (x >>= fun r => some (h r)).map fun s => (s, m) := perform_bind_read first fun r => rfl
  rw [mapped]
  cases x <;> rfl

variable {argv envp pos vec buf oldbuf esp args envs dest s num tmp a v count n steps target : Nat}

/-- A byte. -/
theorem perform_byte (a : Nat) (m : Machine) :
    m.perform (Stepwise.byte a) = (m.byte a).map fun v => (v, m) := by
  unfold perform Stepwise.byte byte
  rw [Program.run]
  cases m.translate a <;> rfl

/-- A store. -/
theorem perform_store (a : Nat) (v : BitVec 8) (m : Machine) :
    m.perform (Stepwise.store a v) = (m.store a v).map fun m => ((), m) := by
  unfold perform Stepwise.store store
  rw [Program.run]
  cases m.translate a <;> rfl

/-- A number. -/
theorem perform_value (a count : Nat) (m : Machine) :
    m.perform (Stepwise.value a count) = (m.value a count).map fun v => (v, m) := by
  induction count with
  | zero => rfl
  | succ count ih =>
    exact perform_bind_read ih fun low => perform_bind_read (perform_byte ..) fun high => rfl

/-- A number is stored. -/
theorem perform_storeValue (a v count : Nat) (m : Machine) :
    m.perform (Stepwise.storeValue a v count) = (storeValue a v count m).map fun m => ((), m) := by
  induction count with
  | zero => rfl
  | succ count ih => exact perform_bind ih fun m => perform_store ..

/-- `memset`. -/
theorem perform_memset (target : Nat) (v : BitVec 8) (count : Nat) (m : Machine) :
    m.perform (Stepwise.memset target v count) = (memset target v count m).map fun m => ((), m) := by
  induction count with
  | zero => rfl
  | succ count ih => exact perform_bind ih fun m => perform_store ..

/-- The loop of `strlen`. -/
theorem perform_strlenLoop (steps a : Nat) (m : Machine) :
    m.perform (Stepwise.strlenLoop steps a) =
      (m.strlenLoop steps a).map fun length => (length, m) := by
  induction steps generalizing a with
  | zero => rfl
  | succ steps ih =>
    refine perform_bind_read (perform_byte a m) fun v => ?_
    split
    · rfl
    · exact perform_map (· + 1) (ih _)

/-- The first loop of `strncpy`. -/
theorem perform_strncpyLoop (num s tmp : Nat) (m : Machine) :
    m.perform (Stepwise.strncpyLoop num s tmp) =
      (strncpyLoop num s tmp m).map fun left => ((left.1, left.2.1), left.2.2) := by
  induction num generalizing s tmp m with
  | zero =>
    refine perform_bind_read (perform_byte s m) fun v => ?_
    split <;> rfl
  | succ num ih =>
    refine perform_bind_read (perform_byte s m) fun v => ?_
    split
    · rfl
    · exact perform_bind (perform_store tmp v m) fun m => ih ..

/-- `strncpy`. -/
theorem perform_strncpy (dest s num : Nat) (m : Machine) :
    m.perform (Stepwise.strncpy dest s num) =
      (strncpy dest s num m).map fun copied => ((), copied.1) := by
  refine perform_bind (perform_strncpyLoop num s dest m) fun ⟨num, tmp, m⟩ => ?_
  exact perform_last _ (perform_memset tmp 0 num m) fun m => rfl

/-- The loop over the words of a vector. -/
theorem perform_vectorLoop (steps a : Nat) (m : Machine) :
    m.perform (Stepwise.vectorLoop steps a) =
      (m.vectorLoop steps a).map fun length => (length, m) := by
  induction steps generalizing a with
  | zero => rfl
  | succ steps ih =>
    refine perform_bind_read (perform_value a 4 m) fun p => ?_
    split
    · rfl
    · exact perform_map (· + 1) (ih _)

/-- The first loop of `write_vector`. -/
theorem perform_copyStrings (vec n buf : Nat) (m : Machine) :
    m.perform (Stepwise.copyStrings vec n buf) =
      (copyStrings vec n buf m).map fun copied => (copied.1, copied.2.1) := by
  induction n generalizing buf m with
  | zero => rfl
  | succ n ih =>
    refine perform_bind_read (perform_value _ 4 m) fun s => ?_
    refine perform_bind_read (perform_strlenLoop _ s m) fun length => ?_
    refine perform_bind (perform_strncpy _ s _ m) fun ⟨m, copied⟩ => ?_
    exact perform_last _ (ih _ m) fun ⟨buf, m, reads⟩ => rfl

/-- The second loop of `write_vector`. -/
theorem perform_storePointers (vec n oldbuf buf : Nat) (m : Machine) :
    m.perform (Stepwise.storePointers vec n oldbuf buf) =
      (storePointers vec n oldbuf buf m).map fun stored => (stored.1, stored.2.1) := by
  induction n generalizing oldbuf buf m with
  | zero => rfl
  | succ n ih =>
    refine perform_bind_read (perform_value _ 4 m) fun s => ?_
    refine perform_bind_read (perform_strlenLoop _ s m) fun length => ?_
    refine perform_bind (perform_storeValue _ _ 4 m) fun m => ?_
    exact perform_last _ (ih _ _ m) fun ⟨buf, m, reads⟩ => rfl

/-- `write_vector`. -/
theorem perform_writeVector (vec buf : Nat) (m : Machine) :
    m.perform (Stepwise.writeVector vec buf) =
      (writeVector vec buf m).map fun written => (written.1, written.2.1) := by
  rw [Stepwise.writeVector, writeVector]
  by_cases null : vec = 0
  · rw [if_pos null, if_pos null]
    rfl
  · rw [if_neg null, if_neg null]
    refine perform_bind_read (perform_vectorLoop _ vec m) fun argc => ?_
    refine perform_bind (perform_copyStrings vec argc buf m) fun ⟨top, m, copied⟩ => ?_
    refine perform_bind (perform_storeValue _ 0 4 m) fun m => ?_
    exact perform_last _ (perform_storePointers vec argc buf _ m) fun ⟨res, m, read⟩ => rfl

/-- The end of `make_new_stack`. -/
theorem perform_storeHeader (argv esp args envs : Nat) (m : Machine) :
    m.perform (Stepwise.storeHeader argv esp args envs) =
      (storeHeader argv esp args envs m).map fun stored => (stored.1, stored.2.1) := by
  refine perform_bind_read (perform_vectorLoop _ argv m) fun argc => ?_
  refine perform_bind (perform_storeValue _ argc 4 m) fun m => ?_
  refine perform_bind (perform_storeValue _ args 4 m) fun m => ?_
  exact perform_bind (perform_storeValue _ envs 4 m) fun m => rfl

/-- `make_new_stack`. -/
theorem perform_makeNewStack (argv envp pos : Nat) (m : Machine) :
    m.perform (Stepwise.makeNewStack argv envp pos) =
      (makeNewStack argv envp pos m).map fun built => (built.1, built.2.1) := by
  refine perform_bind (perform_writeVector envp pos m) fun ⟨envs, m, first⟩ => ?_
  dsimp only
  by_cases full : envs = stackNomem
  · rw [if_pos full, if_pos full]
    rfl
  · rw [if_neg full, if_neg full]
    refine perform_bind (perform_writeVector argv _ m) fun ⟨args, m, second⟩ => ?_
    dsimp only
    by_cases full : args = stackNomem
    · rw [if_pos full, if_pos full]
      rfl
    · rw [if_neg full, if_neg full]
      exact perform_last _ (perform_storeHeader argv _ args envs m) fun ⟨esp, m, third⟩ => rfl

end Machine

end Nupkux
