import Mathlib.Data.List.GetD
import Nupkux.Types
import Nupkux.Lib.Region
import Nupkux.Lib.Transition

/-!
# The kernel shell's command buffer

`nish_write` collects bytes in `nish_buf` until a NUL ends a command, hands the command to
`_nish_interpret` and clears the buffer. The commands themselves are not modelled; what is
kept of them is which strings were interpreted.
-/

namespace Nupkux

/-- `STRLEN`. -/
def strlen : Nat := 255

/-- The static variables of `nish.c`. -/
structure Nish where
  nishBuf : Region UInt8 := { cell := fun _ => 0 }
  bufPos : Int := 0
  /-- The strings given to `_nish_interpret`, the first one first. -/
  interpreted : List CString := []

namespace Nish

/-- The string in `nish_buf`. -/
def pending (s : Nish) : CString := s.nishBuf.text 0 strlen

/-- One turn of the loop of `nish_write`. -/
def nishByte (s : Nish) (c : UInt8) : Nish :=
  let s := { s with nishBuf := s.nishBuf.write s.bufPos c, bufPos := toInt (s.bufPos + 1) }
  if c = 0 then
    { nishBuf := s.nishBuf.fill 0 0 strlen
      bufPos := 0
      interpreted := s.interpreted ++ [s.pending] }
  else s

/-- The loop of `nish_write` over a number of bytes. -/
def nishBytes : (Nat → UInt8) → Nat → Nish → Nish
  | _, 0, s => s
  | buffer, count + 1, s => nishBytes (fun k => buffer (k + 1)) count (s.nishByte (buffer 0))

/-- The size `nish_write` goes on with; `buf_pos + size + 1` is unsigned and may wrap. -/
def clamp (s : Nish) (size : Nat) : Nat :=
  if uadd (uadd (toUint s.bufPos) size) 1 > strlen then toUint (strlen - 1 - s.bufPos) else size

/-- `nish_write`. The buffer is the bytes from its address on. The size that is returned is an
`int`. -/
def nishWrite (s : Nish) (size : Nat) (buffer : Nat → UInt8) : Nish × Int :=
  (nishBytes buffer (s.clamp size) s, toInt (s.clamp size))

end Nish

/-- Any sequence of calls of `nish_write` with any sizes and bytes. -/
def nish : TransitionSystem Nish (Nat × (Nat → UInt8)) where
  initial s := s = {}
  step s call s' := call.1 < uintWidth ∧ s' = (s.nishWrite call.1 call.2).1

namespace Nish

/-- A further write of this size that begins with a NUL is accepted: it returns at least 1, runs the
pending command, goes on with an empty buffer and stores nothing else. -/
def Accepts (s : Nish) (size : Nat) : Prop :=
  ∀ buffer : Nat → UInt8, buffer 0 = 0 →
    ∃ empty : Nish, empty.bufPos = 0 ∧ (∀ i : Int, 0 ≤ i → i < strlen → empty.nishBuf.cell i = 0) ∧
      empty.interpreted = s.interpreted ++ [s.pending] ∧ 1 ≤ (s.nishWrite size buffer).2 ∧
      (s.nishWrite size buffer).1 =
        nishBytes (fun k => buffer (k + 1)) ((s.nishWrite size buffer).2 - 1).toNat empty

/-- `buf_pos + size + 1` does not wrap. -/
def Passes (s : Nish) (size : Nat) : Prop := s.bufPos.toNat + size + 1 < uintWidth

/-- The buffer is neither overrun nor wedged. -/
structure Sound (s : Nish) : Prop where
  /-- The position is in the buffer. -/
  position : 0 ≤ s.bufPos ∧ s.bufPos < strlen
  /-- Every byte was stored inside the buffer. -/
  stored : s.nishBuf.Within strlen
  /-- A further command is accepted. -/
  accepts : ∀ size, 0 < size → s.Passes size → s.Accepts size

/-- The bytes a call takes: as many as leave a byte of the buffer free, and all of them when
`buf_pos + size + 1` wraps. -/
def taken (position size : Nat) : Nat :=
  if position + size + 1 < uintWidth then min size (strlen - 1 - position) else size

/-- How far bytes without a NUL may fill the buffer: one byte less at the end of a call. -/
def room (count j : Nat) : Nat := if j = count then strlen - 2 else strlen - 1

/-- No stretch of bytes without a NUL fills the buffer. -/
def Spaced (position count : Nat) (buffer : Nat → UInt8) : Prop :=
  (∀ j, j ≤ count → (∀ k, k < j → buffer k ≠ 0) → position + j ≤ room count j) ∧
    ∀ i j, i ≤ j → j ≤ count → (∀ k, i ≤ k → k < j → buffer k ≠ 0) → j - i ≤ room count j

/-- A call fits when no stretch without a NUL of the bytes it takes fills the buffer. -/
def Fits (s : Nish) (call : Nat × (Nat → UInt8)) : Prop :=
  Spaced s.bufPos.toNat (taken s.bufPos.toNat call.1) call.2

variable {s : Nish} {position count size : Nat} {buffer : Nat → UInt8} {c : UInt8}

/-- The state between two bytes: the position is in the buffer and only bytes without a NUL
are before it. -/
structure Filled (s : Nish) (position : Nat) : Prop where
  /-- The position. -/
  here : s.bufPos = position
  /-- It is in the buffer. -/
  inside : position < strlen
  /-- Every byte was stored inside the buffer. -/
  stored : s.nishBuf.Within strlen
  /-- The bytes before the position are the pending ones. -/
  nonzero : ∀ k : Nat, k < position → s.nishBuf.cell k ≠ 0
  /-- The rest of the buffer is clear. -/
  clear : ∀ i : Int, position ≤ i → i < strlen → s.nishBuf.cell i = 0

/-- The position after a byte that fits. -/
theorem Filled.advance (filled : s.Filled position) :
    toInt (s.bufPos + 1) = (position + 1 : Nat) := by
  have inside := filled.inside
  rw [filled.here]
  simp only [toInt, strlen] at *
  omega

/-- The pending command is what was collected so far. -/
theorem Filled.pending (filled : s.Filled position) :
    s.pending = (List.range position).map fun k : Nat => s.nishBuf.cell k := by
  have nonzero : ∀ k < position, s.nishBuf.cell ((0 : Int) + (k : Nat)) ≠ 0 := by
    intro k below
    rw [Int.zero_add]
    exact filled.nonzero k below
  have ends : s.nishBuf.cell ((0 : Int) + (position : Nat)) = 0 := by
    rw [Int.zero_add]
    exact filled.clear position (Int.le_refl _) (Int.ofNat_lt.mpr filled.inside)
  have text := Region.text_eq_map nonzero ends filled.inside
  unfold Nish.pending
  simpa only [Int.zero_add] using text

/-- A byte other than NUL is collected when there is room behind it. -/
theorem Filled.byte (filled : s.Filled position) (nonnull : c ≠ 0)
    (space : position + 1 < strlen) : (s.nishByte c).Filled (position + 1) := by
  have inside := filled.inside
  unfold nishByte
  simp only [if_neg nonnull]
  refine ⟨filled.advance, space, ?_, fun k below => ?_, fun i low high => ?_⟩
  · rw [Region.within_write, filled.here]
    exact ⟨⟨Int.natCast_nonneg _, Int.ofNat_lt.mpr inside⟩, filled.stored⟩
  · show (s.nishBuf.write s.bufPos c).cell k ≠ 0
    rw [filled.here]
    by_cases same : k = position
    · rw [same, Region.cell_write_self]
      exact nonnull
    · rw [Region.cell_write_of_ne (by omega)]
      exact filled.nonzero k (by omega)
  · show (s.nishBuf.write s.bufPos c).cell i = 0
    rw [filled.here, Region.cell_write_of_ne (by omega)]
    exact filled.clear i (by omega) high

/-- A NUL hands the pending command over and clears the buffer. -/
theorem Filled.byte_nul (filled : s.Filled position) :
    (s.nishByte 0).Filled 0 ∧ (s.nishByte 0).interpreted = s.interpreted ++ [s.pending] := by
  have inside := filled.inside
  have same : s.nishBuf.cell s.bufPos = 0 := by
    rw [filled.here]
    exact filled.clear position (Int.le_refl _) (Int.ofNat_lt.mpr inside)
  have cells : (s.nishBuf.write s.bufPos 0).cell = s.nishBuf.cell := by
    show Function.update s.nishBuf.cell s.bufPos 0 = s.nishBuf.cell
    rw [← same, Function.update_eq_self]
  have stored : (s.nishBuf.write s.bufPos 0).Within strlen := by
    rw [Region.within_write, filled.here]
    exact ⟨⟨Int.natCast_nonneg _, Int.ofNat_lt.mpr inside⟩, filled.stored⟩
  unfold nishByte
  simp only [if_true]
  refine ⟨⟨rfl, by decide, ?_, fun k below => absurd below (Nat.not_lt_zero k),
    fun i low high => ?_⟩, ?_⟩
  · exact stored.fill (Int.le_refl 0) (by simp)
  · exact Region.cell_fill_of_mem low (by simpa using high)
  · exact congrArg (fun text => s.interpreted ++ [text]) (Region.text_congr cells 0 strlen)

/-- Bytes are only added to what was stored. -/
theorem stored_of_bytes (stored : (nishBytes buffer count s).nishBuf.Within strlen) :
    s.nishBuf.Within strlen := by
  induction count generalizing s buffer with
  | zero => exact stored
  | succ count ih =>
    have before := ih stored
    intro i member
    apply before
    unfold nishByte
    by_cases nul : buffer 0 = 0
    · rw [if_pos nul]
      exact List.mem_append_right _ (List.mem_cons_of_mem _ member)
    · rw [if_neg nul]
      exact List.mem_cons_of_mem _ member

/-- A byte is stored at the position. -/
theorem position_of_bytes (stored : (nishBytes buffer (count + 1) s).nishBuf.Within strlen) :
    0 ≤ s.bufPos ∧ s.bufPos < strlen := by
  have first := stored_of_bytes (s := s.nishByte (buffer 0)) stored
  apply first
  unfold nishByte
  by_cases nul : buffer 0 = 0
  · rw [if_pos nul]
    exact List.mem_append_right _ List.mem_cons_self
  · rw [if_neg nul]
    exact List.mem_cons_self

/-- The room at a byte of a call, counted from the second byte on. -/
theorem room_succ (count j : Nat) : room (count + 1) (j + 1) = room count j := by
  simp [room]

/-- There is room for the first byte of a call that takes more. -/
theorem room_zero (count : Nat) : room (count + 1) 0 = strlen - 1 := by
  simp [room]

/-- There is never more room than one byte less than the buffer. -/
theorem room_le (count j : Nat) : room count j ≤ strlen - 1 := by
  unfold room
  split
  · decide
  · exact Nat.le_refl _

/-- The later bytes of a call have no NUL between two places. -/
theorem free_succ {i j : Nat} : (∀ k, i + 1 ≤ k → k < j + 1 → buffer k ≠ 0) ↔
    ∀ k, i ≤ k → k < j → buffer (k + 1) ≠ 0 := by
  constructor
  · intro free k low high
    exact free (k + 1) (Nat.succ_le_succ low) (Nat.succ_lt_succ high)
  · intro free k low high
    cases k with
    | zero => omega
    | succ k => exact free k (by omega) (by omega)

/-- The stretches of the later bytes of a call. -/
theorem windows_succ
    (windows : ∀ i j, i ≤ j → j ≤ count → (∀ k, i ≤ k → k < j → buffer (k + 1) ≠ 0) →
      j - i ≤ room count j)
    {i j : Nat} (ordered : i + 1 ≤ j) (below : j ≤ count + 1)
    (free : ∀ k, i + 1 ≤ k → k < j → buffer k ≠ 0) : j - (i + 1) ≤ room (count + 1) j := by
  cases j with
  | zero => omega
  | succ j =>
    have window := windows i j (by omega) (by omega) (free_succ.mp free)
    rw [room_succ]
    omega

/-- A NUL among the bytes starts a new stretch. -/
theorem spaced_succ_nul (inside : position < strlen) (nul : buffer 0 = 0) :
    Spaced position (count + 1) buffer ↔ Spaced 0 count fun k => buffer (k + 1) := by
  constructor
  · rintro ⟨_, windows⟩
    have later : ∀ i j, i ≤ j → j ≤ count → (∀ k, i ≤ k → k < j → buffer (k + 1) ≠ 0) →
        j - i ≤ room count j := by
      intro i j ordered below free
      have window := windows (i + 1) (j + 1) (by omega) (by omega) (free_succ.mpr free)
      rw [room_succ] at window
      omega
    refine ⟨fun j below free => ?_, later⟩
    have window := later 0 j (Nat.zero_le j) below fun k _ high => free k high
    omega
  · rintro ⟨_, windows⟩
    constructor
    · intro j _ free
      cases j with
      | zero =>
        rw [room_zero]
        omega
      | succ j => exact absurd nul (free 0 (Nat.succ_pos j))
    · intro i j ordered below free
      cases i with
      | zero =>
        cases j with
        | zero => exact Nat.zero_le _
        | succ j => exact absurd nul (free 0 (Nat.le_refl 0) (Nat.succ_pos j))
      | succ i => exact windows_succ windows ordered below free

/-- Another byte goes on with the stretch. -/
theorem spaced_succ (nonnull : buffer 0 ≠ 0) :
    Spaced position (count + 1) buffer ↔
      Spaced (position + 1) count fun k => buffer (k + 1) := by
  constructor
  · rintro ⟨start, windows⟩
    constructor
    · intro j below free
      have stretch := start (j + 1) (by omega) fun k high => by
        cases k with
        | zero => exact nonnull
        | succ k => exact free k (by omega)
      rw [room_succ] at stretch
      omega
    · intro i j ordered below free
      have window := windows (i + 1) (j + 1) (by omega) (by omega) (free_succ.mpr free)
      rw [room_succ] at window
      omega
  · rintro ⟨start, windows⟩
    have first : position + 1 ≤ room count 0 := by
      simpa using start 0 (Nat.zero_le _) fun k below => absurd below (Nat.not_lt_zero k)
    have most := room_le count 0
    have stretches : ∀ j, j ≤ count → (∀ k, k < j + 1 → buffer k ≠ 0) →
        position + (j + 1) ≤ room (count + 1) (j + 1) := by
      intro j below free
      have stretch := start j below fun k high => free (k + 1) (by omega)
      rw [room_succ]
      omega
    constructor
    · intro j below free
      cases j with
      | zero =>
        rw [room_zero]
        omega
      | succ j => exact stretches j (by omega) free
    · intro i j ordered below free
      cases i with
      | zero =>
        cases j with
        | zero => exact Nat.zero_le _
        | succ j =>
          have stretch := stretches j (by omega) fun k high => free k (Nat.zero_le k) high
          omega
      | succ i => exact windows_succ windows ordered below free

/-- A call that takes few bytes fits, whatever they are. -/
theorem spaced_of_few (few : position + count + 1 < strlen) : Spaced position count buffer := by
  have most : ∀ j, strlen - 2 ≤ room count j := by
    intro j
    unfold room
    split <;> decide
  constructor
  · intro j below _
    have := most j
    omega
  · intro i j _ below _
    have := most j
    omega

/-- The loop keeps the buffer from being overrun or filled up exactly when no stretch of the
bytes without a NUL fills it. -/
theorem Filled.bytes (filled : s.Filled position) :
    (Spaced position count buffer →
      ∃ q, q + 1 < strlen ∧ (nishBytes buffer count s).Filled q) ∧
    ((nishBytes buffer count s).nishBuf.Within strlen →
      0 ≤ (nishBytes buffer count s).bufPos →
      (nishBytes buffer count s).bufPos + 1 < strlen → Spaced position count buffer) := by
  induction count generalizing s position buffer with
  | zero =>
    have inside := filled.inside
    constructor
    · intro spaced
      have here := spaced.1 0 (Nat.le_refl 0) fun k below => absurd below (Nat.not_lt_zero k)
      simp only [room, strlen, if_true] at *
      exact ⟨position, by omega, filled⟩
    · intro _ _ high
      have here : s.bufPos + 1 < strlen := high
      rw [filled.here] at here
      constructor
      · intro j below _
        simp only [room, strlen] at *
        split <;> omega
      · intro i j ordered below _
        omega
  | succ count ih =>
    have unfolded : nishBytes buffer (count + 1) s =
        nishBytes (fun k => buffer (k + 1)) count (s.nishByte (buffer 0)) := rfl
    by_cases nul : buffer 0 = 0
    · rw [spaced_succ_nul filled.inside nul, unfolded, nul]
      exact ih filled.byte_nul.1
    · rw [spaced_succ nul, unfolded]
      by_cases space : position + 1 < strlen
      · exact ih (filled.byte nul space)
      · -- the byte fills the buffer
        have inside := filled.inside
        constructor
        · intro spaced
          have here := spaced.1 0 (Nat.zero_le _) fun k below => absurd below (Nat.not_lt_zero k)
          have most := room_le count 0
          omega
        · intro stored low high
          have full : (s.nishByte (buffer 0)).bufPos = strlen := by
            unfold nishByte
            simp only [if_neg nul]
            rw [filled.advance]
            omega
          cases count with
          | zero =>
            have position' : (s.nishByte (buffer 0)).bufPos + 1 < strlen := high
            omega
          | succ count =>
            have position' := position_of_bytes stored
            omega

/-- The clamp takes as many bytes as leave a byte free, unless the sum wraps. -/
theorem Filled.clamp_eq (filled : s.Filled position) (space : position + 1 < strlen)
    (small : size < uintWidth) : s.clamp size = taken position size := by
  unfold clamp taken
  rw [filled.here]
  have whole : toUint (position : Int) = position := by
    simp only [toUint, strlen] at *
    omega
  have rest : toUint (strlen - 1 - (position : Int)) = strlen - 1 - position := by
    simp only [toUint, strlen] at *
    omega
  rw [whole, rest]
  by_cases exact : position + size + 1 < uintWidth
  · have sum : uadd (uadd position size) 1 = position + size + 1 := by
      simp only [uadd, uintWidth] at *
      omega
    rw [if_pos exact, sum]
    by_cases much : position + size + 1 > strlen
    · rw [if_pos much]
      omega
    · rw [if_neg much]
      omega
  · have sum : ¬uadd (uadd position size) 1 > strlen := by
      simp only [uadd, uintWidth, strlen] at *
      omega
    rw [if_neg exact, if_neg sum]

/-- What a write returns when a byte of the buffer is free: the bytes it takes, as an `int`. -/
theorem Filled.returns (filled : s.Filled position) (space : position + 1 < strlen)
    (small : size < uintWidth) (buffer : Nat → UInt8) :
    (s.nishWrite size buffer).2 = toInt (taken position size) := by
  rw [nishWrite, filled.clamp_eq space small]

/-- When a byte of the buffer is free, a write that begins with a NUL is accepted exactly when
its size does not make the sum wrap: else the size is returned as a negative number. -/
theorem Filled.accepts_iff (filled : s.Filled position) (space : position + 1 < strlen)
    (some : 0 < size) (small : size < uintWidth) : s.Accepts size ↔ s.Passes size := by
  have place : s.bufPos.toNat = position := by rw [filled.here, Int.toNat_natCast]
  have bound : taken position size ≤ size := by
    unfold taken
    split
    · exact Nat.min_le_left _ _
    · exact Nat.le_refl _
  rw [Passes, place]
  constructor
  · intro accepts
    by_contra wraps
    obtain ⟨_, _, _, _, positive, _⟩ := accepts (fun _ => 0) rfl
    rw [filled.returns space small, taken, if_neg wraps] at positive
    simp only [toInt, strlen, uintWidth] at *
    omega
  · intro passes buffer nul
    obtain ⟨reset, interpreted⟩ := filled.byte_nul
    have several : 0 < taken position size ∧ taken position size < strlen := by
      rw [taken, if_pos passes]
      simp only [strlen] at *
      omega
    have whole : toInt (taken position size) = taken position size := by
      simp only [toInt, strlen] at *
      omega
    refine ⟨s.nishByte 0, reset.here, reset.clear, interpreted, ?_, ?_⟩
    · rw [filled.returns space small, whole]
      omega
    · rw [filled.returns space small, whole, nishWrite, filled.clamp_eq space small]
      obtain ⟨count, more⟩ := Nat.exists_eq_succ_of_ne_zero (Nat.ne_of_gt several.1)
      have rest : (((count + 1 : Nat) : Int) - 1).toNat = count := by omega
      rw [more, Nat.succ_eq_add_one, rest]
      show nishBytes _ count (s.nishByte (buffer 0)) = _
      rw [nul]

/-- The buffer is sound when a byte of it is free. -/
theorem Filled.sound (filled : s.Filled position) (space : position + 1 < strlen) : s.Sound := by
  have inside := filled.inside
  have place : s.bufPos.toNat = position := by rw [filled.here, Int.toNat_natCast]
  refine ⟨?_, filled.stored, fun size some passes => ?_⟩
  · rw [filled.here]
    exact ⟨Int.natCast_nonneg _, Int.ofNat_lt.mpr inside⟩
  · have small : size < uintWidth := by
      unfold Passes at passes
      omega
    exact (filled.accepts_iff space some small).mpr passes

/-- A full buffer refuses a command of one byte. -/
theorem space_of_sound (sound : s.Sound) : s.bufPos + 1 < strlen := by
  by_cases full : s.bufPos + 1 < strlen
  · exact full
  · have last : s.bufPos = 254 := by
      have inside := sound.position
      simp only [strlen] at *
      omega
    have passes : s.Passes 1 := by
      rw [Passes, last]
      decide
    obtain ⟨_, _, _, _, accepted, _⟩ := sound.accepts 1 (by decide) passes (fun _ => 0) rfl
    have refused : s.clamp 1 = 0 := by
      unfold clamp
      rw [last]
      decide
    rw [nishWrite, refused] at accepted
    have returned : (1 : Int) ≤ toInt 0 := accepted
    exact absurd returned (by decide)

/-- After a call the buffer is sound exactly when the call fits, and then a byte is free. -/
theorem Filled.write (filled : s.Filled position) (space : position + 1 < strlen)
    (call : Nat × (Nat → UInt8)) (small : call.1 < uintWidth) :
    ((s.nishWrite call.1 call.2).1.Sound ↔ s.Fits call) ∧
      (s.Fits call → ∃ q, q + 1 < strlen ∧ (s.nishWrite call.1 call.2).1.Filled q) := by
  have place : s.bufPos.toNat = position := by rw [filled.here, Int.toNat_natCast]
  have runs : (s.nishWrite call.1 call.2).1 =
      nishBytes call.2 (taken position call.1) s := by
    rw [nishWrite, filled.clamp_eq space small]
  obtain ⟨keeps, needs⟩ := @Filled.bytes _ _ (taken position call.1) call.2 filled
  unfold Fits
  rw [place, runs]
  refine ⟨⟨fun sound => ?_, fun fits => ?_⟩, keeps⟩
  · exact needs sound.stored sound.position.1 (space_of_sound sound)
  · obtain ⟨q, free, filled'⟩ := keeps fits
    exact filled'.sound free

/-- The buffer before the first call. -/
theorem filled_initial : Filled {} 0 where
  here := rfl
  inside := by decide
  stored := fun i member => absurd member List.not_mem_nil
  nonzero := fun k below => absurd below (Nat.not_lt_zero k)
  clear := fun _ _ _ => rfl

/-- A byte other than NUL is added to the pending command. -/
theorem Filled.pending_byte (filled : s.Filled position) (nonnull : c ≠ 0)
    (space : position + 1 < strlen) :
    (s.nishByte c).pending = s.pending ++ [c] ∧ (s.nishByte c).interpreted = s.interpreted := by
  rw [(filled.byte nonnull space).pending, filled.pending]
  have cells : (s.nishByte c).nishBuf = s.nishBuf.write position c := by
    rw [nishByte, if_neg nonnull, filled.here]
  have same : (s.nishByte c).interpreted = s.interpreted := by
    rw [nishByte, if_neg nonnull]
  refine ⟨?_, same⟩
  rw [cells, List.range_succ, List.map_append, List.map_singleton, Region.cell_write_self]
  congr 1
  apply List.map_congr_left
  intro k member
  have below := List.mem_range.mp member
  exact Region.cell_write_of_ne (by omega)

/-- Bytes up to a NUL are handed over as a command. -/
theorem Filled.command (filled : s.Filled position) (letters : ∀ k < count, buffer k ≠ 0)
    (ends : buffer count = 0) (space : position + count < strlen) :
    (nishBytes buffer (count + 1) s).interpreted =
      s.interpreted ++ [s.pending ++ (List.range count).map buffer] := by
  induction count generalizing s position buffer with
  | zero =>
    show (s.nishByte (buffer 0)).interpreted = _
    rw [ends, filled.byte_nul.2]
    simp
  | succ count ih =>
    have nonnull := letters 0 (Nat.succ_pos count)
    have room : position + 1 < strlen := by omega
    obtain ⟨pending, interpreted⟩ := filled.pending_byte nonnull room
    show (nishBytes (fun k => buffer (k + 1)) (count + 1) (s.nishByte (buffer 0))).interpreted = _
    rw [ih (filled.byte nonnull room) (fun k below => letters (k + 1) (Nat.succ_lt_succ below)) ends
      (by omega), pending, interpreted, List.range_succ_eq_map, List.map_cons, List.map_map,
      List.append_assoc]
    rfl

/-- A line that leaves room for its NUL and one more byte is handed over as it is. -/
theorem nishWrite_line {line : CString} (letters : 0 ∉ line) (fits : line.length + 1 < strlen) :
    (nishWrite {} (line.length + 1) fun k => line.getD k 0).1.interpreted = [line] := by
  have small : line.length + 1 < uintWidth := Nat.lt_trans fits (by decide)
  have whole : taken 0 (line.length + 1) = line.length + 1 := by
    have below : 0 + (line.length + 1) + 1 < uintWidth := by
      simp only [strlen, uintWidth] at *
      omega
    rw [taken, if_pos below]
    simp only [strlen] at *
    omega
  rw [nishWrite, filled_initial.clamp_eq (by decide) small, whole, filled_initial.command]
  · show [] ++ [[] ++ _] = _
    rw [List.nil_append, List.nil_append]
    congr 1
    apply List.ext_getElem (by simp)
    intro k _ below
    rw [List.getElem_map, List.getElem_range]
    exact List.getD_eq_getElem _ _ below
  · intro k below
    rw [List.getD_eq_getElem _ _ below]
    exact fun nul => letters (nul ▸ List.getElem_mem below)
  · exact List.getD_eq_default _ _ (Nat.le_refl _)
  · rw [Nat.zero_add]
    exact Nat.lt_of_succ_lt fits

end Nish

/-- What the shell writes for a line of 254 characters: the line and a NUL. -/
def longLine (k : Nat) : UInt8 := if k < 254 then 97 else 0

/-- `"ls"` with its NUL. -/
def shortLine (k : Nat) : UInt8 := [108, 115, 0].getD k 0

end Nupkux
