import Nupkux.Fs.StackLayout

/-!
# The argument block

The accesses of `make_new_stack` for a vector of arguments, with or without a vector for the
environment. When the block fits below its position and no load meets a byte that has been replaced by
another one, the block is what memory holds afterwards.
-/

open Accesses

namespace Nupkux

/-- Where `make_new_stack` goes on behind the environment. -/
def topBelow (pos : Nat) (env : Option (List Entry)) : Nat :=
  if optionalEnd env pos ≠ 0 then optionalEnd env pos else pos

/-- And behind the arguments. -/
def espBelow (pos : Nat) (entries : List Entry) (env : Option (List Entry)) : Nat :=
  if vectorEnd entries (topBelow pos env) ≠ 0 then vectorEnd entries (topBelow pos env)
  else topBelow pos env

/-- The accesses of `make_new_stack`. -/
def stackAccesses (argv envp pos : Nat) (entries : List Entry) (env : Option (List Entry)) : Trace :=
  if optionalEnd env pos = stackNomem then optionalAccesses envp env pos
  else if vectorEnd entries (topBelow pos env) = stackNomem then
    optionalAccesses envp env pos ++ vectorAccesses argv entries (topBelow pos env)
  else optionalAccesses envp env pos ++ (vectorAccesses argv entries (topBelow pos env) ++
    (loads argv (wordBytes (entries.map Prod.fst ++ [0])) ++
      headerStores (espBelow pos entries env) entries.length
        (vectorEnd entries (topBelow pos env)) (optionalEnd env pos)))

/-- What it returns. -/
def stackEnd (pos : Nat) (entries : List Entry) (env : Option (List Entry)) : Nat :=
  if optionalEnd env pos = stackNomem then stackNomem
  else if vectorEnd entries (topBelow pos env) = stackNomem then stackNomem
  else usub (espBelow pos entries env) 12

/-- The accesses of `make_new_stack` when the block fits below its position. -/
def blockAccesses (argv envp pos : Nat) (entries : List Entry) (env : Option (List Entry)) : Trace :=
  let texts := env.map (List.map Prod.snd)
  let top := pos - optionalSize texts
  let args := top - vectorSize (entries.map Prod.snd)
  optionalAccesses envp env pos ++ (vectorAccesses argv entries top ++
    (loads argv (wordBytes (entries.map Prod.fst ++ [0])) ++
      headerStores args entries.length args (optionalAt pos texts)))

namespace Machine

/-- There is memory of their own behind the addresses of a range. -/
structure Room (m : Machine) (lo hi : Nat) : Prop where
  sound : m.Sound
  inRange : hi < uintWidth
  held : ∀ a, lo ≤ a → a < hi →
    (m.page (a / frameSize)).frame ≠ 0 ∧ (m.page (a / frameSize)).frame < m.paging.framecount

end Machine

variable {entries : List Entry} {env : Option (List Entry)} {a b v argv envp pos lo hi : Nat}
  {u w : BitVec 8} {m : Machine} {esp argc args envs : Nat}

/-! ## The accesses -/

/-- What `write_vector` returns for a vector that may be the null pointer, when it fits. -/
theorem optionalEnd_eq (fits : optionalSize (env.map (List.map Prod.snd)) ≤ pos)
    (small : pos < uintWidth) :
    optionalEnd env pos = optionalAt pos (env.map (List.map Prod.snd)) := by
  cases env with
  | none => rfl
  | some entries => exact lowered_of_le fits small

/-- Where it stores. -/
theorem store_mem_optionalAccesses (fits : optionalSize (env.map (List.map Prod.snd)) ≤ pos)
    (small : pos < uintWidth) : .store b u ∈ optionalAccesses envp env pos ↔
      Cell (pos - optionalSize (env.map (List.map Prod.snd)))
        (optionalBytes pos (env.map (List.map Prod.snd))) b u := by
  cases env with
  | none => exact iff_of_false List.not_mem_nil cell_nil
  | some entries => exact store_mem_vectorAccesses fits small

/-- Where the three words are stored. -/
theorem store_mem_headerStores (fits : 12 ≤ esp) (small : esp < uintWidth) :
    .store b u ∈ headerStores esp argc args envs ↔
      Cell (esp - 12) (wordBytes [argc, args, envs]) b u := by
  rw [headerStores_eq, usub_of_le fits small, mem_stores (by rw [length_wordBytes]; simp; omega)]

/-- The three words are stored without a load. -/
theorem load_not_mem_headerStores : .load b u ∉ headerStores esp argc args envs := by
  rw [headerStores_eq]
  exact load_not_mem_stores

/-- The bytes of a vector that may be missing. -/
theorem length_optionalBytes (buf : Nat) (texts : Option (List (List (BitVec 8)))) :
    (optionalBytes buf texts).length = optionalSize texts := by
  cases texts with
  | none => rfl
  | some strings => exact length_vectorBytes buf strings

/-- The number of bytes of a block. -/
theorem length_blockBytes (argc pos : Nat) (strings : List (List (BitVec 8)))
    (texts : Option (List (List (BitVec 8)))) :
    (blockBytes argc pos (some strings) texts).length = blockSize strings texts := by
  rw [blockBytes, List.length_append, List.length_append, length_wordBytes, length_optionalBytes,
    length_optionalBytes, blockSize, optionalSize]
  simp only [List.length_cons, List.length_nil]
  omega

/-- It is below the first address. -/
theorem optionalAt_lt (positive : 0 < pos) (texts : Option (List (List (BitVec 8)))) :
    optionalAt pos texts < pos := by
  cases texts with
  | none => exact positive
  | some strings => exact Nat.sub_lt positive (Nat.succ_pos _)

/-- The address behind a vector that fits. -/
theorem topBelow_of_fits (fits : optionalSize (env.map (List.map Prod.snd)) < pos)
    (small : pos < uintWidth) :
    topBelow pos env = pos - optionalSize (env.map (List.map Prod.snd)) := by
  rw [topBelow, optionalEnd_eq (Nat.le_of_lt fits) small]
  cases env with
  | none => rfl
  | some more =>
    have place : optionalAt pos ((some more).map (List.map Prod.snd)) =
      pos - optionalSize ((some more).map (List.map Prod.snd)) := rfl
    rw [place, if_pos (by omega)]

/-- It is not `STACK_NOMEM`. -/
theorem optionalEnd_ne_nomem (fits : optionalSize (env.map (List.map Prod.snd)) < pos)
    (small : pos < uintWidth) : optionalEnd env pos ≠ stackNomem := by
  have last : stackNomem + 1 = uintWidth := rfl
  have high : optionalAt pos (env.map (List.map Prod.snd)) < pos := optionalAt_lt (by omega) _
  rw [optionalEnd_eq (Nat.le_of_lt fits) small]
  omega

/-- Two vectors and three words are stored as a block. -/
theorem store_mem_parts {args : Option (List Entry)} {t : Trace} {argc : Nat}
    (fits : optionalSize (env.map (List.map Prod.snd)) +
      optionalSize (args.map (List.map Prod.snd)) + 12 ≤ pos)
    (small : pos < uintWidth) (silent : ∀ b u, .store b u ∉ t) :
    .store b u ∈ optionalAccesses envp env pos ++
        (optionalAccesses argv args (pos - optionalSize (env.map (List.map Prod.snd))) ++
          (t ++ headerStores (pos - optionalSize (env.map (List.map Prod.snd)) -
              optionalSize (args.map (List.map Prod.snd))) argc
            (optionalAt (pos - optionalSize (env.map (List.map Prod.snd)))
              (args.map (List.map Prod.snd)))
            (optionalAt pos (env.map (List.map Prod.snd))))) ↔
      Cell (pos - (optionalSize (env.map (List.map Prod.snd)) +
          optionalSize (args.map (List.map Prod.snd)) + 12))
        (blockBytes argc pos (args.map (List.map Prod.snd)) (env.map (List.map Prod.snd))) b u := by
  have envStores {b : Nat} {u : BitVec 8} := @store_mem_optionalAccesses env b envp pos u (by omega)
    small
  have argStores {b : Nat} {u : BitVec 8} := @store_mem_optionalAccesses args b argv
    (pos - optionalSize (env.map (List.map Prod.snd))) u (by omega) (by omega)
  rw [List.mem_append, List.mem_append, List.mem_append, envStores, argStores,
    or_iff_right (silent b u), store_mem_headerStores (by omega) (by omega)]
  generalize env.map (List.map Prod.snd) = texts at *
  generalize args.map (List.map Prod.snd) = strings at *
  have length : (wordBytes [argc, optionalAt (pos - optionalSize texts) strings,
    optionalAt pos texts]).length = 12 := length_wordBytes _
  rw [blockBytes, cell_append, cell_append, length, length_optionalBytes]
  generalize optionalSize strings = size at *
  rw [show pos - (optionalSize texts + size + 12) + 12 + size = pos - optionalSize texts by omega,
    show pos - (optionalSize texts + size + 12) + 12 = pos - optionalSize texts - size by omega,
    show pos - (optionalSize texts + size + 12) = pos - optionalSize texts - size - 12 by omega]
  rw [or_comm, or_comm (a := Cell _ (optionalBytes _ strings) b u), or_assoc]

section Block

variable (fits : blockSize (entries.map Prod.snd) (env.map (List.map Prod.snd)) ≤ pos)
  (small : pos < uintWidth)

include fits small

/-- `make_new_stack` stores the bytes of the block. -/
theorem store_mem_blockAccesses : .store b u ∈ blockAccesses argv envp pos entries env ↔
    Cell (pos - blockSize (entries.map Prod.snd) (env.map (List.map Prod.snd)))
      (blockBytes entries.length pos (some (entries.map Prod.snd)) (env.map (List.map Prod.snd)))
      b u :=
  @store_mem_parts env b argv envp pos u (some entries) _ _ fits small
    fun _ _ => store_not_mem_loads

/-- Then the two vectors are below each other, and neither of them is `STACK_NOMEM`. -/
theorem places_eq : optionalEnd env pos ≠ stackNomem ∧
    topBelow pos env = pos - optionalSize (env.map (List.map Prod.snd)) ∧
    vectorEnd entries (topBelow pos env) = topBelow pos env - vectorSize (entries.map Prod.snd) ∧
    vectorEnd entries (topBelow pos env) ≠ stackNomem ∧
    espBelow pos entries env = vectorEnd entries (topBelow pos env) := by
  unfold blockSize at fits
  have last : stackNomem + 1 = uintWidth := rfl
  have least : 4 ≤ vectorSize (entries.map Prod.snd) := Nat.le_add_left ..
  have top : topBelow pos env = pos - optionalSize (env.map (List.map Prod.snd)) :=
    topBelow_of_fits (by omega) small
  have proper : optionalEnd env pos ≠ stackNomem := optionalEnd_ne_nomem (by omega) small
  have args : vectorEnd entries (topBelow pos env) =
      topBelow pos env - vectorSize (entries.map Prod.snd) := by
    rw [top]
    exact lowered_of_le (by omega) (by omega)
  exact ⟨proper, top, args, by omega, if_pos (by omega)⟩

/-- These are the accesses of `make_new_stack` then. -/
theorem stackAccesses_eq :
    stackAccesses argv envp pos entries env = blockAccesses argv envp pos entries env := by
  obtain ⟨proper, top, args, proper', esp⟩ := @places_eq entries env pos fits small
  unfold blockSize at fits
  rw [stackAccesses, if_neg proper, if_neg proper', esp, args, top, optionalEnd_eq (by omega) small]
  rfl

/-- And it returns the address of the block. -/
theorem stackEnd_eq : stackEnd pos entries env =
    pos - blockSize (entries.map Prod.snd) (env.map (List.map Prod.snd)) := by
  obtain ⟨proper, top, args, proper', esp⟩ := @places_eq entries env pos fits small
  rw [stackEnd, if_neg proper, if_neg proper', esp, args, top]
  unfold blockSize at *
  rw [usub_of_le (by omega) (by omega)]
  omega

end Block

/-- `make_new_stack` loads bytes of the two vectors. -/
theorem load_mem_stackAccesses (member : .load b u ∈ stackAccesses argv envp pos entries env) :
    VectorCell argv entries b u ∨ OptionalCell envp env b u := by
  have envCell (found : .load b u ∈ optionalAccesses envp env pos) :
      VectorCell argv entries b u ∨ OptionalCell envp env b u :=
    .inr (load_mem_optionalAccesses found)
  have argCell (found : .load b u ∈ vectorAccesses argv entries (topBelow pos env)) :
      VectorCell argv entries b u ∨ OptionalCell envp env b u :=
    .inl (load_mem_vectorAccesses found)
  unfold stackAccesses at member
  by_cases full : optionalEnd env pos = stackNomem
  · rw [if_pos full] at member
    exact envCell member
  rw [if_neg full] at member
  by_cases full' : vectorEnd entries (topBelow pos env) = stackNomem
  · rw [if_pos full'] at member
    exact (List.mem_append.mp member).elim envCell argCell
  · rw [if_neg full', List.mem_append, List.mem_append, List.mem_append, mem_loads] at member
    rcases member with first | second | third | none
    · exact envCell first
    · exact argCell second
    · exact .inl (.inl third)
    · exact absurd none load_not_mem_headerStores

/-- These are the accesses of `make_new_stack`, and what it returns. -/
theorem makeNewStack_follows (argProper : Proper argv entries)
    (envProper : ∀ entries ∈ env, Proper envp entries) (null : env = none → envp = 0)
    (small : pos < uintWidth) :
    (Stepwise.makeNewStack argv envp pos).Follows (stackAccesses argv envp pos entries env)
      (stackEnd pos entries env) := by
  have first := Stepwise.writeOptional_follows envProper null small
  have topSmall : topBelow pos env < uintWidth := by
    unfold topBelow
    cases env with
    | none => exact small
    | some more =>
      split
      · exact lowered_lt ..
      · exact small
  have second := Stepwise.writeVector_follows argProper topSmall
  unfold stackAccesses stackEnd
  by_cases full : optionalEnd env pos = stackNomem
  · rw [if_pos full, if_pos full, ← List.append_nil (optionalAccesses envp env pos)]
    refine first.bind ?_
    rw [if_pos full]
    exact .done _
  rw [if_neg full, if_neg full]
  by_cases full' : vectorEnd entries (topBelow pos env) = stackNomem
  · rw [if_pos full', if_pos full', ← List.append_nil (vectorAccesses argv entries (topBelow pos env))]
    refine first.bind ?_
    rw [if_neg full]
    refine second.bind ?_
    rw [if_pos full']
    exact .done _
  · rw [if_neg full', if_neg full']
    refine first.bind ?_
    rw [if_neg full]
    refine second.bind ?_
    rw [if_neg full']
    exact Stepwise.storeHeader_follows (Stepwise.vectorLength_follows argProper)

namespace Machine

/-- What is behind an address of the range is not behind another one. -/
theorem Room.same (room : m.Room lo hi) (low : lo ≤ b) (high : b < hi)
    (same : m.translate b = m.translate a) : a = b := by
  obtain ⟨nonzero, inside⟩ := room.held b low high
  have here := room.sound.translate_of_frame nonzero inside
  exact (room.sound.translate_inj nonzero here (same.symm.trans here)).symm

/-- There is memory behind each address of the range. -/
theorem Room.isSome (room : m.Room lo hi) (low : lo ≤ a) (high : a < hi) :
    (m.translate a).isSome := by
  obtain ⟨nonzero, inside⟩ := room.held a low high
  exact Option.isSome_of_eq_some (room.sound.translate_of_frame nonzero inside)

/-- The upper part of the room. -/
theorem Room.mono (room : m.Room lo hi) (low : lo ≤ a) : m.Room a hi :=
  ⟨room.sound, room.inRange, fun b above below => room.held b (low.trans above) below⟩

section Block

variable (argVector : m.VectorAt argv entries) (envVector : m.OptionalVectorAt envp env)
  (fits : blockSize (entries.map Prod.snd) (env.map (List.map Prod.snd)) ≤ pos)
  (room : m.Room (pos - blockSize (entries.map Prod.snd) (env.map (List.map Prod.snd))) pos)

include argVector envVector

/-- `make_new_stack` loads what the memory has before it. -/
theorem sees_stackAccesses : Sees m.byte (stackAccesses argv envp pos entries env) := by
  intro b u member
  rcases load_mem_stackAccesses member with arg | envCell
  · exact (vectorAt_iff.mp argVector).2 b u arg
  · exact envVector.byte envCell

include fits room

/-- The accesses can be made if and only if no load meets another byte. -/
theorem exists_replays_block :
    (∃ mem, Replays m.translate (blockAccesses argv envp pos entries env) m.physical mem) ↔
      Agrees m.translate (fun _ _ => False) (blockAccesses argv envp pos entries env) := by
  have sees : Sees (fun a => (m.translate a).map m.physical)
      (blockAccesses argv envp pos entries env) := by
    rw [← stackAccesses_eq fits room.inRange]
    exact sees_stackAccesses argVector envVector
  have stored {b : Nat} {w : BitVec 8} := @store_mem_blockAccesses entries env b argv envp pos w fits
    room.inRange
  generalize bytes_eq : blockBytes entries.length pos (some (entries.map Prod.snd))
    (env.map (List.map Prod.snd)) = bytes at stored
  have length : bytes.length = blockSize (entries.map Prod.snd) (env.map (List.map Prod.snd)) := by
    rw [← bytes_eq, length_blockBytes]
  generalize blockSize (entries.map Prod.snd) (env.map (List.map Prod.snd)) = size at *
  have inside {b : Nat} {w : BitVec 8} (cell : Cell (pos - size) bytes b w) :
      pos - size ≤ b ∧ b < pos := by
    have bounds := cell.bounds
    omega
  have replays := exists_replays_iff sees
  have placed : Accesses.Placed m.translate (blockAccesses argv envp pos entries env) := by
    intro b w member
    obtain ⟨low, high⟩ := inside (stored.mp member)
    exact room.isSome low high
  rw [and_iff_right placed, steady_iff_agrees (K := Cell (pos - size) bytes) sees ?_ ?_ ?_] at replays
  · simpa only [List.not_mem_nil] using replays
  · intro b v c w cell cell' same _
    obtain ⟨low, high⟩ := inside cell
    obtain rfl := room.same low high same
    exact cell.unique cell'
  · exact fun b w member => nomatch member
  · exact fun b w member => stored.mp member

omit argVector envVector in
/-- The accesses leave the block in memory. -/
theorem holdsAt_of_replays {mem : Bytes}
    (replays : Replays m.translate (blockAccesses argv envp pos entries env) m.physical mem) :
    { m with physical := mem }.HoldsAt
      (pos - blockSize (entries.map Prod.snd) (env.map (List.map Prod.snd)))
      (blockBytes entries.length pos (some (entries.map Prod.snd))
        (env.map (List.map Prod.snd))) := by
  have stored {b : Nat} {w : BitVec 8} := @store_mem_blockAccesses entries env b argv envp pos w fits
    room.inRange
  refine holdsAt_iff.mpr fun b u cell => ?_
  have bounds := cell.bounds
  rw [length_blockBytes] at bounds
  obtain ⟨q, place⟩ := Option.isSome_iff_exists.mp (room.isSome (a := b) (by omega) (by omega))
  have value := replays.stored (stored.mpr cell) place fun c w member same => by
    obtain rfl := room.same (a := c) bounds.1 (by omega) (place.trans same.symm)
    exact (stored.mp member).unique cell
  show (m.translate b).map mem = some u
  rw [place, Option.map_some, value]

end Block

end Machine

/-- A byte of a vector is in one of its stretches. -/
theorem VectorCell.mem_stretches (cell : VectorCell argv entries a u) :
    ∃ r ∈ stretches argv entries, r.1 ≤ a ∧ a < r.1 + r.2 := by
  rcases cell with word | ⟨e, member, text⟩
  · have bounds := word.bounds
    refine ⟨_, List.mem_cons_self, bounds.1, ?_⟩
    rw [length_wordBytes, List.length_append, List.length_map, List.length_singleton] at bounds
    dsimp only
    omega
  · have bounds := text.bounds
    refine ⟨_, List.mem_cons_of_mem _ (List.mem_map_of_mem member), bounds.1, ?_⟩
    rw [List.length_append, List.length_singleton] at bounds
    exact bounds.2

/-- So with a vector that may be the null pointer. -/
theorem OptionalCell.mem_stretches (cell : OptionalCell envp env a u) :
    ∃ r ∈ optionalStretches envp env, r.1 ≤ a ∧ a < r.1 + r.2 := by
  cases env with
  | none => cases cell
  | some entries => exact VectorCell.mem_stretches cell

/-- The vectors that are there are proper. -/
theorem Machine.OptionalVectorAt.proper (vector : m.OptionalVectorAt envp env) :
    (∀ entries ∈ env, Proper envp entries) ∧ (env = none → envp = 0) := by
  cases env with
  | none => exact ⟨fun _ member => (nomatch member), fun _ => vector⟩
  | some entries =>
    refine ⟨fun entries' member => ?_, fun none => nomatch none⟩
    cases member
    exact VectorAt.proper vector

/-- The block that `make_new_stack` builds of vectors outside of it is decoded to the same
strings. -/
theorem Machine.makeNewStack_decodes {argv envp pos : Nat}
    (args : m.VectorAt argv entries) (envs : m.OptionalVectorAt envp env)
    (fits : blockSize (entries.map Prod.snd) (env.map (List.map Prod.snd)) ≤ pos)
    (room : m.Room (pos - blockSize (entries.map Prod.snd) (env.map (List.map Prod.snd))) pos)
    (separate : ∀ r ∈ stretches argv entries ++ optionalStretches envp env,
      Separate r (pos - blockSize (entries.map Prod.snd) (env.map (List.map Prod.snd)),
        blockSize (entries.map Prod.snd) (env.map (List.map Prod.snd)))) :
    ∃ m' reads, makeNewStack argv envp pos m =
        some (pos - blockSize (entries.map Prod.snd) (env.map (List.map Prod.snd)), m', reads) ∧
      m'.Decodes (pos - blockSize (entries.map Prod.snd) (env.map (List.map Prod.snd)))
        (entries.map Prod.snd) (env.map (List.map Prod.snd)) := by
  obtain ⟨envProper, null⟩ := envs.proper
  have agrees : Agrees m.translate (fun _ _ => False) (blockAccesses argv envp pos entries env) := by
    refine agrees_of fun a v load b w either same => absurd (either.resolve_left id) fun stored => ?_
    have bounds := ((store_mem_blockAccesses fits room.inRange).mp stored).bounds
    rw [length_blockBytes] at bounds
    obtain rfl := room.same bounds.1 (by omega) same
    have source : ∃ r ∈ stretches argv entries ++ optionalStretches envp env,
        r.1 ≤ a ∧ a < r.1 + r.2 := by
      have load' : .load a v ∈ stackAccesses argv envp pos entries env := by
        rwa [stackAccesses_eq fits room.inRange]
      rcases load_mem_stackAccesses load' with arg | envCell
      · obtain ⟨r, member, inside⟩ := arg.mem_stretches
        exact ⟨r, List.mem_append_left _ member, inside⟩
      · obtain ⟨r, member, inside⟩ := envCell.mem_stretches
        exact ⟨r, List.mem_append_right _ member, inside⟩
    obtain ⟨r, member, inside⟩ := source
    have apart := separate r member
    unfold Separate at apart
    dsimp only at apart
    omega
  obtain ⟨mem, replays⟩ := (exists_replays_block args envs fits room).mpr agrees
  have follows := makeNewStack_follows args.proper envProper null room.inRange
  rw [stackAccesses_eq fits room.inRange, stackEnd_eq fits room.inRange] at follows
  have ran := perform_eq_some.mpr ⟨_, mem, follows, replays, rfl⟩
  rw [perform_makeNewStack] at ran
  obtain ⟨⟨esp, m', reads⟩, built, same⟩ := Option.map_eq_some_iff.mp ran
  cases same
  refine ⟨_, reads, built, decodes_of_bytes ?_ (Nat.sub_add_cancel fits) room.inRange ?_ ?_⟩
  · have held := holdsAt_of_replays fits room replays
    have length : (entries.map Prod.snd).length = entries.length := List.length_map _
    rwa [← length] at held
  · intro s member
    obtain ⟨e, found, rfl⟩ := List.mem_map.mp member
    exact args.proper.letters e found
  · intro more found s member
    obtain ⟨entries', there, rfl⟩ := Option.map_eq_some_iff.mp found
    obtain ⟨e, found, rfl⟩ := List.mem_map.mp member
    exact (envProper entries' there).letters e found

/-- A machine with a page for vectors and two for a stack. -/
def stackMachine (physical : Bytes) : Machine :=
  (((Machine.firstMachine physical).makePage FirstPages.blocks 4096).makePage FirstPages.blocks
    0x80000000).makePage FirstPages.blocks 0x7FFFF000

/-- The machine is sound. -/
theorem stackMachine_sound (physical : Bytes) : (stackMachine physical).Sound :=
  (((Machine.firstMachine_sound physical).makePage FirstPages.blocks (by decide)).makePage
    FirstPages.blocks (by decide)).makePage FirstPages.blocks (by decide)

/-- A page with the vector of the arguments `a` and `bc` at 4096. The second one alone is the vector
at 4100. -/
def vectorImage : List (BitVec 8) :=
  Machine.bytes32 4108 ++ Machine.bytes32 4110 ++ Machine.bytes32 0 ++ [97, 0] ++ [98, 99, 0]

/-- A machine with these vectors and the pages of a stack. -/
def vectorMachine : Machine := stackMachine fun a => vectorImage.getD (a - 4096) 0

/-- The arguments of this machine. -/
theorem vectorMachine_args :
    vectorMachine.OptionalVectorAt 4096 (some [(4108, [97]), (4110, [98, 99])]) := by
  refine Machine.VectorAt.mk (by decide) (by decide) (by unfold Machine.WordsAt; decide) (by decide)
    fun e member => ?_
  rcases List.mem_cons.mp member with rfl | member
  · exact ⟨by decide, by unfold Machine.HoldsAt; decide, by decide⟩
  · cases List.mem_singleton.mp member
    exact ⟨by decide, by unfold Machine.HoldsAt; decide, by decide⟩

/-- Its environment. -/
theorem vectorMachine_envs : vectorMachine.OptionalVectorAt 4100 (some [(4110, [98, 99])]) := by
  refine Machine.VectorAt.mk (by decide) (by decide) (by unfold Machine.WordsAt; decide) (by decide)
    fun e member => ?_
  exact vectorMachine_args.strings e (List.mem_cons_of_mem _ member)

/-- The page below the position of a stack. -/
theorem vectorMachine_room : vectorMachine.Room 0x7FFFF000 0x80000000 := by
  have held : (vectorMachine.page 0x7FFFF).frame ≠ 0 ∧
      (vectorMachine.page 0x7FFFF).frame < vectorMachine.paging.framecount := by decide
  refine ⟨stackMachine_sound _, by decide, fun a low high => ?_⟩
  rw [show a / frameSize = 0x7FFFF by unfold frameSize; omega]
  exact held

/-- Both vectors are built into one block of 40 bytes. -/
theorem Machine.makeNewStack_decodes_two : ∃ m' reads,
    Machine.makeNewStack 4096 4100 0x80000000 vectorMachine = some (0x7FFFFFD8, m', reads) ∧
      m'.Decodes 0x7FFFFFD8 [[97], [98, 99]] (some [[98, 99]]) :=
  Machine.makeNewStack_decodes vectorMachine_args vectorMachine_envs (by decide)
    (vectorMachine_room.mono (by decide)) (by unfold Separate; decide)

end Nupkux
