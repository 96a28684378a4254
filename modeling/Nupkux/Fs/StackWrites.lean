import Nupkux.Fs.StackBlock

/-!
# The memory a stack is built in

What `make_new_stack` stores to and loads from when `do_exec` calls it, for vectors that may be
anywhere, on the stack that is written, too. As long as what is loaded are the vectors and their
strings and nothing else, its accesses are known, and so is whether they can be made.
-/

open Accesses

namespace Nupkux

/-- The bytes that `make_new_stack` stores: those of two vectors and three words. -/
def writtenSize (args env : Option (List Entry)) : Nat :=
  optionalSize (env.map (List.map Prod.snd)) + optionalSize (args.map (List.map Prod.snd)) + 12

/-- An address in one of the pages that `new_stack` maps. -/
def OnStack (a : Nat) : Prop := a / frameSize ∈ [0x80000, 0x7FFFF]

/-- While a vector is built at an address, an entry is looked at for the last time when all of the
block is there from behind its new pointer on. No byte of the entry has been replaced by another one
by then. -/
def EntriesKept (block : Nat → BitVec 8 → Prop) (vec : Nat) (entries : List Entry) (base : Nat) :
    Prop :=
  ∀ es e rest, entries = es ++ e :: rest → ∀ a v, EntryCell vec es.length e a v →
    base + 4 * (es.length + 1) ≤ a → ∀ w, block a w → w = v

/-- Where the vectors are in the way of the block that is built of them, they agree with it. -/
structure Undisturbed (argv envp pos : Nat) (entries : List Entry) (env : Option (List Entry))
    (block : Nat → BitVec 8 → Prop) : Prop where
  envs : ∀ more ∈ env, EntriesKept block envp more (pos - vectorSize (more.map Prod.snd))
  args : EntriesKept block argv entries
    (pos - optionalSize (env.map (List.map Prod.snd)) - vectorSize (entries.map Prod.snd))
  /-- The words of the arguments are counted once more at the end. -/
  words : ∀ a v, Cell argv (wordBytes (entries.map Prod.fst ++ [0])) a v →
    pos - optionalSize (env.map (List.map Prod.snd)) - vectorSize (entries.map Prod.snd) ≤ a →
      ∀ w, block a w → w = v

/-- The block of arguments and an environment below a position. -/
def StackBlock (pos : Nat) (entries : List Entry) (env : Option (List Entry)) : Nat → BitVec 8 → Prop :=
  Cell (pos - blockSize (entries.map Prod.snd) (env.map (List.map Prod.snd)))
    (blockBytes entries.length pos (some (entries.map Prod.snd)) (env.map (List.map Prod.snd)))

variable {entries : List Entry} {args env : Option (List Entry)} {a b v argv envp pos vec base : Nat}
  {u w : BitVec 8} {m m' : Machine} {blocks : PageBlocks} {t : Trace}

/-- Vectors that agree with the block are not disturbed. -/
theorem undisturbed_of_agree {block : Nat → BitVec 8 → Prop}
    (args : ∀ a v, VectorCell argv entries a v → ∀ w, block a w → w = v)
    (envs : ∀ a v, OptionalCell envp env a v → ∀ w, block a w → w = v) :
    Undisturbed argv envp pos entries env block := by
  refine ⟨?_, ?_, fun a v cell _ => args a v (.inl cell)⟩
  · rintro more rfl es e rest rfl a v cell _
    exact envs a v (.of_entry cell)
  · rintro es e rest rfl a v cell _
    exact args a v (.of_entry cell)

/-- So are vectors outside of the block. -/
theorem undisturbed_of_separate
    (separate : ∀ r ∈ stretches argv entries ++ optionalStretches envp env,
      Separate r (pos - blockSize (entries.map Prod.snd) (env.map (List.map Prod.snd)),
        blockSize (entries.map Prod.snd) (env.map (List.map Prod.snd)))) :
    Undisturbed argv envp pos entries env (StackBlock pos entries env) := by
  have outside {r : Nat × Nat} {a : Nat} {w : BitVec 8}
      (member : r ∈ stretches argv entries ++ optionalStretches envp env)
      (inside : r.1 ≤ a ∧ a < r.1 + r.2) : ¬StackBlock pos entries env a w := by
    intro block
    have bounds := Cell.bounds block
    have apart := separate r member
    rw [length_blockBytes] at bounds
    unfold Separate at apart
    dsimp only at apart
    omega
  refine undisturbed_of_agree (fun a v cell w block => ?_) fun a v cell w block => ?_
  · obtain ⟨r, member, inside⟩ := cell.mem_stretches
    exact absurd block (outside (List.mem_append_left _ member) inside)
  · obtain ⟨r, member, inside⟩ := cell.mem_stretches
    exact absurd block (outside (List.mem_append_right _ member) inside)

/-- So are vectors in a memory that has the block already. -/
theorem undisturbed_of_holdsAt (args : m.VectorAt argv entries) (envs : m.OptionalVectorAt envp env)
    (holds : m.HoldsAt (pos - blockSize (entries.map Prod.snd) (env.map (List.map Prod.snd)))
      (blockBytes entries.length pos (some (entries.map Prod.snd))
        (env.map (List.map Prod.snd)))) :
    Undisturbed argv envp pos entries env (StackBlock pos entries env) := by
  have there := Machine.holdsAt_iff.mp holds
  refine undisturbed_of_agree (fun a v cell w block => ?_) fun a v cell w block => ?_
  · exact Option.some.inj ((there a w block).symm.trans ((Machine.vectorAt_iff.mp args).2 a v cell))
  · exact Option.some.inj ((there a w block).symm.trans (envs.byte cell))

namespace Machine

section Block

variable (fits : blockSize (entries.map Prod.snd) (env.map (List.map Prod.snd)) ≤ pos)
  (room : m.Room (pos - blockSize (entries.map Prod.snd) (env.map (List.map Prod.snd))) pos)

include fits room

/-- What the entries of a vector agree with while it is built. -/
theorem entriesKept_iff {K : Nat → BitVec 8 → Prop} {trace : Trace}
    (stored : ∀ b w, K b w ∨ .store b w ∈ trace ↔ StackBlock pos entries env b w ∧ base ≤ b)
    (others : List Entry) :
    (∀ es e rest, others = es ++ e :: rest → ∀ a v, EntryCell vec es.length e a v →
      ∀ b w, K b w ∨ .store b w ∈ trace → base + 4 * (es.length + 1) ≤ b →
        m.translate b = m.translate a → w = v) ↔
      EntriesKept (StackBlock pos entries env) vec others base := by
  constructor
  · intro agrees es e rest split a v cell low w block
    exact agrees es e rest split a v cell a w ((stored a w).mpr ⟨block, by omega⟩) low rfl
  · intro kept es e rest split a v cell b w either low same
    obtain ⟨block, _⟩ := (stored b w).mp either
    have bounds := Cell.bounds block
    rw [length_blockBytes] at bounds
    obtain rfl := room.same bounds.1 (by omega) same
    exact kept es e rest split a v cell low w block

/-- No load of `make_new_stack` meets another byte if and only if the vectors are not disturbed. -/
theorem agrees_blockAccesses :
    Agrees m.translate (fun _ _ => False) (blockAccesses argv envp pos entries env) ↔
      Undisturbed argv envp pos entries env (StackBlock pos entries env) := by
  have small := room.inRange
  have whole (b : Nat) (w : BitVec 8) : StackBlock pos entries env b w ↔
      .store b w ∈ blockAccesses argv envp pos entries env :=
    (store_mem_blockAccesses fits small).symm
  have kept := fun {vec base : Nat} {K : Nat → BitVec 8 → Prop} {trace : Trace} stored =>
    @entriesKept_iff entries env pos vec base m fits room K trace stored
  have same := fun {a b : Nat} {w : BitVec 8} (block : StackBlock pos entries env b w) =>
    room.same (a := a) (b := b) (Cell.bounds block).1 (by
      have high := (Cell.bounds block).2
      rw [length_blockBytes] at high
      omega)
  unfold blockSize at fits
  generalize top_eq : pos - optionalSize (env.map (List.map Prod.snd)) = top at *
  generalize args_eq : top - vectorSize (entries.map Prod.snd) = args at *
  -- where each part stores
  have first (b : Nat) (w : BitVec 8) (member : .store b w ∈ optionalAccesses envp env pos) :
      top ≤ b := by
    rw [store_mem_optionalAccesses (by omega) small, top_eq] at member
    exact member.1
  have second (b : Nat) (w : BitVec 8) (member : .store b w ∈ vectorAccesses argv entries top) :
      args ≤ b ∧ b < top := by
    have bounds := ((store_mem_vectorAccesses (by omega) (by omega)).mp member).bounds
    rw [length_vectorBytes] at bounds
    omega
  have third (b argc envs : Nat) (w : BitVec 8)
      (member : .store b w ∈ headerStores args argc args envs) : b < args := by
    have bounds := ((store_mem_headerStores (by omega) (by omega)).mp member).bounds
    rw [length_wordBytes] at bounds
    simp only [List.length_cons, List.length_nil] at bounds
    omega
  rw [blockAccesses, top_eq, args_eq] at whole ⊢
  have inEnv (b : Nat) (w : BitVec 8) : False ∨ .store b w ∈ optionalAccesses envp env pos ↔
      StackBlock pos entries env b w ∧ top ≤ b := by
    rw [whole, List.mem_append, List.mem_append, List.mem_append, false_or]
    constructor
    · exact fun member => ⟨.inl member, first b w member⟩
    · rintro ⟨member | member | none | member, low⟩
      · exact member
      · have := second b w member
        omega
      · exact absurd none store_not_mem_loads
      · have := third b _ _ w member
        omega
  have inBoth (b : Nat) (w : BitVec 8) : (False ∨ .store b w ∈ optionalAccesses envp env pos) ∨
      .store b w ∈ vectorAccesses argv entries top ↔ StackBlock pos entries env b w ∧ args ≤ b := by
    rw [whole, List.mem_append, List.mem_append, List.mem_append, false_or]
    constructor
    · rintro (member | member)
      · have := first b w member
        exact ⟨.inl member, by omega⟩
      · exact ⟨.inr (.inl member), (second b w member).1⟩
    · rintro ⟨member | member | none | member, low⟩
      · exact .inl member
      · exact .inr member
      · exact absurd none store_not_mem_loads
      · have := third b _ _ w member
        omega
  have envKept : Agrees m.translate (fun _ _ => False) (optionalAccesses envp env pos) ↔
      ∀ more ∈ env, EntriesKept (StackBlock pos entries env) envp more
        (pos - vectorSize (more.map Prod.snd)) := by
    cases env with
    | none => exact iff_of_true trivial fun _ member => nomatch member
    | some more =>
      have base : pos - vectorSize (more.map Prod.snd) = top := top_eq
      have built (b : Nat) (w : BitVec 8) : False ∨ .store b w ∈ vectorAccesses envp more pos ↔
          StackBlock pos entries (some more) b w ∧ top ≤ b := inEnv b w
      rw [optionalAccesses, agrees_vectorAccesses (Nat.le_trans (Nat.le_add_right _ _) (by
          rw [Nat.add_assoc] at fits
          exact fits)) small fun _ _ => False.elim, base, kept built, and_iff_right]
      · simp only [Option.mem_some_iff, forall_eq', base]
      · exact fun _ _ _ _ _ => False.elim
  rw [agrees_append, agrees_append, agrees_append, agrees_loads fun _ _ => store_not_mem_loads,
    agrees_vectorAccesses (by omega) (by omega) fun b w either =>
      first b w (either.resolve_left id), envKept, args_eq, kept inBoth]
  have silent : ∀ a v, .load a v ∉ headerStores args entries.length args
      (optionalAt pos (env.map (List.map Prod.snd))) := fun _ _ => load_not_mem_headerStores
  constructor
  · rintro ⟨envs, ⟨_, argsKept⟩, words, _⟩
    refine ⟨envs, ?_, fun a v cell low w block => ?_⟩
    · rw [top_eq, args_eq]
      exact argsKept
    · rw [top_eq, args_eq] at low
      exact words a v (mem_loads.mpr cell) a w ((inBoth a w).mpr ⟨block, low⟩) rfl
  · rintro ⟨envs, argsKept, words⟩
    rw [top_eq, args_eq] at argsKept words
    have agree (a : Nat) (v : BitVec 8)
        (cell : Cell argv (wordBytes (entries.map Prod.fst ++ [0])) a v) (b : Nat) (w : BitVec 8)
        (either : (False ∨ .store b w ∈ optionalAccesses envp env pos) ∨
          .store b w ∈ vectorAccesses argv entries top) (here : m.translate b = m.translate a) :
        w = v := by
      obtain ⟨block, low⟩ := (inBoth b w).mp either
      obtain rfl := same block here
      exact words a v cell low w block
    refine ⟨envs, ⟨fun a v cell b w earlier => agree a v cell b w (.inl earlier), argsKept⟩,
      fun a v load => agree a v (mem_loads.mp load), ?_⟩
    exact agrees_of fun a v load => absurd load (silent a v)

end Block

end Machine

/-! ## Stores on the stack -/

/-- The pages of the stack are the one below `USER_STACK_POS` and the one from there on. -/
theorem onStack_iff : OnStack a ↔ 0x7FFFF000 ≤ a ∧ a < 0x80001000 := by
  simp only [OnStack, frameSize, List.mem_cons, List.not_mem_nil, or_false]
  omega

/-- Bytes are stored at each address from the first one on. -/
theorem exists_store {bytes : List (BitVec 8)} {j : Nat} (inside : j < bytes.length)
    (small : a < uintWidth) : ∃ v, .store (uadd a j) v ∈ stores a bytes := by
  induction bytes generalizing a j with
  | nil => cases inside
  | cons v bytes ih =>
    cases j with
    | zero => exact ⟨v, by rw [uadd_of_lt small]; exact List.mem_cons_self⟩
    | succ j =>
      obtain ⟨w, member⟩ := ih (a := uadd a 1) (Nat.lt_of_succ_lt_succ inside) (uadd_lt ..)
      have next : uadd (uadd a 1) j = uadd a (j + 1) := by
        unfold uadd uintWidth
        omega
      exact ⟨w, List.mem_cons_of_mem _ (next ▸ member)⟩

/-- What is stored below an address, and not at another one below it, fits between them. -/
theorem fits_of_missing {g n buf : Nat} (missing : ∀ j < n, uadd (usub buf n) j ≠ g) (low : g < buf)
    (small : buf < uintWidth) (size : n ≤ uintWidth) : g + n < buf := by
  by_contra long
  refine missing (n - (buf - g)) (by omega) ?_
  unfold uadd usub uintWidth at *
  omega

section Missing

variable {es : List Entry} {g buf oldbuf : Nat} (low : g < buf) (small : buf < uintWidth)

include low small

/-- So with some bytes. -/
theorem fits_stores {bytes : List (BitVec 8)}
    (missing : ∀ v, .store g v ∉ stores (usub buf bytes.length) bytes)
    (size : bytes.length ≤ uintWidth) : g + bytes.length < buf := by
  refine fits_of_missing (fun j less here => ?_) low small size
  obtain ⟨v, member⟩ := exists_store less (usub_lt buf bytes.length)
  rw [here] at member
  exact missing v member

/-- So with the strings of a vector. -/
theorem fits_copyAccesses (missing : ∀ v, .store g v ∉ copyAccesses vec es buf)
    (lengths : ∀ e ∈ es, e.2.length + 1 ≤ uintWidth) :
    g + stringsSize (es.reverse.map Prod.snd) < buf := by
  induction es generalizing buf with
  | nil => exact low
  | cons e es ih =>
    have length : (e.2 ++ [0]).length = e.2.length + 1 := List.length_append
    have first : g + (e.2.length + 1) < buf := by
      rw [← length]
      refine fits_stores low small (fun v member => missing v ?_) (by
        rw [length]
        exact lengths e List.mem_cons_self)
      rw [length] at member
      rw [copyAccesses]
      exact List.mem_append_left _ (List.mem_append_right _
        ((store_mem_copyString (usub_lt ..)).mpr member))
    have next := usub_of_le (a := buf) (b := e.2.length + 1) (by omega) small
    have rest : g + stringsSize (es.reverse.map Prod.snd) < usub buf (e.2.length + 1) :=
      ih (by omega) (usub_lt ..) (fun v member => missing v (List.mem_append_right _ member))
        fun e' later => lengths e' (List.mem_cons_of_mem _ later)
    rw [texts_cons, stringsSize_concat]
    omega

/-- So with its pointers. -/
theorem fits_pointerAccesses (missing : ∀ v, .store g v ∉ pointerAccesses vec es oldbuf buf) :
    g + 4 * es.length < buf := by
  induction es generalizing oldbuf buf with
  | nil => exact low
  | cons e es ih =>
    have first : g + (Machine.bytes32 (usub oldbuf (e.2.length + 1))).length < buf :=
      fits_stores low small (fun v member => missing v (List.mem_append_left _
        (List.mem_append_right _ member))) (by rw [length_bytes32]; decide)
    rw [length_bytes32] at first
    have next := usub_of_le (a := buf) (b := 4) (by omega) small
    have rest : g + 4 * es.length < usub buf 4 :=
      ih (by omega) (usub_lt ..) fun v member => missing v (List.mem_append_right _ member)
    rw [List.length_cons]
    omega

/-- So with a vector. -/
theorem fits_vectorAccesses (proper : Proper vec entries)
    (missing : ∀ v, .store g v ∉ vectorAccesses vec entries buf) :
    g + vectorSize (entries.map Prod.snd) < buf := by
  have total : vectorSize (entries.map Prod.snd) =
      stringsSize (entries.map Prod.snd) + 4 * entries.length + 4 := by
    rw [vectorSize, List.length_map]
  have strings : g + stringsSize (entries.reverse.reverse.map Prod.snd) < buf := by
    refine fits_copyAccesses low small (fun v member => missing v (List.mem_append_right _
      (List.mem_append_left _ member))) fun e member => ?_
    have fits := proper.fits e (List.mem_reverse.mp member)
    have nonzero := proper.nonzero e (List.mem_reverse.mp member)
    omega
  rw [List.reverse_reverse] at strings
  have top := lowered_of_le (a := buf) (n := stringsSize (entries.map Prod.snd)) (by omega) small
  have null : g + (Machine.bytes32 0).length <
      lowered buf (stringsSize (entries.map Prod.snd)) :=
    fits_stores (by omega) (lowered_lt ..) (fun v member => missing v (List.mem_append_right _
      (List.mem_append_right _ (List.mem_append_left _ member)))) (by rw [length_bytes32]; decide)
  rw [length_bytes32] at null
  have next := usub_of_le (a := lowered buf (stringsSize (entries.map Prod.snd))) (b := 4) (by omega)
    (lowered_lt ..)
  have pointers : g + 4 * entries.reverse.length <
      usub (lowered buf (stringsSize (entries.map Prod.snd))) 4 :=
    fits_pointerAccesses (by omega) (usub_lt ..) fun v member => missing v (List.mem_append_right _
      (List.mem_append_right _ (List.mem_append_right _ member)))
  rw [List.length_reverse] at pointers
  omega

/-- So with a vector that may be the null pointer. -/
theorem fits_optionalAccesses (proper : ∀ entries ∈ env, Proper envp entries)
    (missing : ∀ v, .store g v ∉ optionalAccesses envp env buf) :
    g + optionalSize (env.map (List.map Prod.snd)) < buf := by
  cases env with
  | none => exact low
  | some more => exact fits_vectorAccesses low small (proper more rfl) missing

/-- So with the three words at the end. -/
theorem fits_headerStores {argc first second : Nat}
    (missing : ∀ v, .store g v ∉ headerStores buf argc first second) : g + 12 < buf := by
  have length : (wordBytes [argc, first, second]).length = 12 := length_wordBytes _
  rw [← length]
  refine fits_stores low small (fun v member => missing v ?_) (by rw [length]; decide)
  rwa [length, ← headerStores_eq] at member

/-- Where `make_new_stack` goes on behind a vector. -/
theorem topBelow_eq (proper : ∀ entries ∈ env, Proper envp entries)
    (missing : ∀ v, .store g v ∉ optionalAccesses envp env buf) :
    topBelow buf env = buf - optionalSize (env.map (List.map Prod.snd)) := by
  have fits := fits_optionalAccesses low small proper missing
  exact topBelow_of_fits (by omega) small

/-- So with the whole block. -/
theorem fits_block {argc first second : Nat} (envProper : ∀ entries ∈ env, Proper envp entries)
    (argProper : ∀ entries ∈ args, Proper argv entries)
    (envs : ∀ v, .store g v ∉ optionalAccesses envp env buf)
    (vector : ∀ v, .store g v ∉ optionalAccesses argv args (topBelow buf env))
    (header : ∀ v, .store g v ∉ headerStores (topBelow (topBelow buf env) args) argc first second) :
    g + writtenSize args env < buf := by
  have envFits := fits_optionalAccesses low small envProper envs
  have top := topBelow_eq low small envProper envs
  have argFits := fits_optionalAccesses (by omega) (by omega) argProper vector
  have esp := topBelow_eq (by omega) (by omega) argProper vector
  have last := fits_headerStores (by omega) (by omega) header
  unfold writtenSize
  omega

end Missing

/-- A block that stays on the stack fits into its page. -/
theorem fits_stackAccesses (argProper : Proper argv entries)
    (envProper : ∀ entries ∈ env, Proper envp entries)
    (returns : stackEnd userStackPos entries env ≠ stackNomem)
    (onStack : ∀ b v, .store b v ∈ stackAccesses argv envp userStackPos entries env → OnStack b) :
    writtenSize (some entries) env ≤ userStackSize := by
  have proper : optionalEnd env userStackPos ≠ stackNomem := fun full => returns (if_pos full)
  have proper' : vectorEnd entries (topBelow userStackPos env) ≠ stackNomem := fun full =>
    returns ((if_neg proper).trans (if_pos full))
  have missing (v : BitVec 8) :
      .store 0x7FFFEFFF v ∉ stackAccesses argv envp userStackPos entries env :=
    fun member => absurd (onStack_iff.mp (onStack _ v member)).1 (by decide)
  rw [stackAccesses, if_neg proper, if_neg proper'] at missing
  have argsProper : ∀ es ∈ some entries, Proper argv es :=
    fun _ member => Option.some.inj member ▸ argProper
  have fits := fits_block (by decide) (by decide) envProper argsProper
    (fun v member => missing v (List.mem_append_left _ member))
    (fun v member => missing v (List.mem_append_right _ (List.mem_append_left _ member)))
    fun v member => missing v (List.mem_append_right _ (List.mem_append_right _
      (List.mem_append_right _ member)))
  unfold userStackPos at fits
  unfold userStackSize
  omega

/-! ## The pages of the stack -/

namespace Machine

/-- The pages of the stack have frames when `new_stack` has mapped them. -/
theorem Sound.newStack_held (sound : m.Sound)
    (mapped : m.newStack blocks userStackPos userStackSize = some m') :
    m'.Sound ∧ ∀ n ∈ [0x80000, 0x7FFFF], (m'.page n).frame ≠ 0 := by
  have upper : 0x80000000 < uintWidth := by decide
  have lower : 0x7FFFF000 < uintWidth := by decide
  obtain rfl := Option.some.inj ((newStack_eq blocks m).symm.trans mapped)
  have sound₁ := sound.makePage blocks upper
  have given (m : Machine) (sound : m.Sound) {a n : Nat} (inRange : a < uintWidth)
      (place : n = a / frameSize) : ((m.makePage blocks a).page n).frame ≠ 0 := by
    rw [sound.makePage_page blocks inRange]
    by_cases none : (m.page n).frame = 0
    · rw [if_pos ⟨place, none⟩]
      exact sound.nextFrame.1
    · rwa [if_neg fun both => none both.2]
  refine ⟨sound₁.makePage blocks lower, fun n member => ?_⟩
  rcases List.mem_cons.mp member with rfl | member
  · have first := given m sound upper (n := 0x80000) (by decide)
    rwa [sound₁.makePage_held blocks lower first]
  · exact given _ sound₁ lower ((List.mem_singleton.mp member).trans (by decide))

/-- There is room for a stack of one page when there is memory behind it. -/
theorem Sound.room (sound : m.Sound) (frame : (m.page 0x7FFFF).frame ≠ 0)
    (memory : (m.page 0x7FFFF).frame < m.paging.framecount) :
    m.Room (userStackPos - userStackSize) userStackPos := by
  refine ⟨sound, by decide, fun a low high => ?_⟩
  have page : a / frameSize = 0x7FFFF := by
    unfold userStackPos userStackSize at *
    unfold frameSize
    omega
  rw [page]
  exact ⟨frame, memory⟩

/-- What a call of `make_new_stack` loads and stores. -/
theorem makeNewStack_eq_some {esp : Nat} : (∃ reads,
    makeNewStack argv envp pos m = some (esp, m', reads)) ↔ ∃ t mem,
      (Stepwise.makeNewStack argv envp pos).Follows t esp ∧ Replays m.translate t m.physical mem ∧
        m' = { m with physical := mem } := by
  rw [← perform_eq_some, perform_makeNewStack, Option.map_eq_some_iff]
  constructor
  · rintro ⟨reads, built⟩
    exact ⟨_, built, rfl⟩
  · rintro ⟨⟨esp', m'', reads⟩, built, same⟩
    cases same
    exact ⟨reads, built⟩

/-- `make_new_stack` ends after `new_stack`. It returns `STACK_NOMEM` or stores in the pages of the
stack only, and what it loads are the bytes of the vectors and of their strings. -/
def TouchesOwn (m : Machine) (blocks : PageBlocks) (argv envp : Nat)
    (args env : Option (List Entry)) : Prop :=
  ∃ m' esp t mem, m.newStack blocks userStackPos userStackSize = some m' ∧
    (Stepwise.makeNewStack argv envp userStackPos).Follows t esp ∧
    Replays m'.translate t m'.physical mem ∧
    (esp = stackNomem ∨ ∀ a v, .store a v ∈ t → OnStack a) ∧
    ∀ a v, .load a v ∈ t → OptionalCell argv args a v ∨ OptionalCell envp env a v

/-- The block is so long that `make_new_stack` comes to the address `STACK_NOMEM` while it goes
downwards. -/
def Wraps (env : Option (List Entry)) : Option (List Entry) → Prop
  | none => optionalEnd env userStackPos = stackNomem
  | some entries => stackEnd userStackPos entries env = stackNomem

/-- On its way there is memory everywhere, and no byte is loaded that has been replaced. -/
structure GoesRound (m : Machine) (argv envp : Nat) (args env : Option (List Entry)) : Prop where
  wraps : Wraps env args
  placed : Accesses.Placed m.translate (stackAccesses argv envp userStackPos (args.getD []) env)
  steady : Steady m.translate [] (stackAccesses argv envp userStackPos (args.getD []) env)

/-- There is no byte of a vector at address 0. -/
theorem OptionalVectorAt.positive (vector : m.OptionalVectorAt vec env)
    (cell : OptionalCell vec env a u) : a ≠ 0 := by
  cases env with
  | none => cases cell
  | some entries =>
    have proper := VectorAt.proper vector
    rcases cell with word | ⟨e, member, text⟩
    · have nonnull := proper.nonnull
      have low := word.1
      omega
    · have nonzero := proper.nonzero e member
      have low := text.1
      omega

/-- A number is loaded from its first byte on. -/
theorem load_of_value {count n : Nat} (follows : (Stepwise.value a (count + 1)).Follows t n)
    (small : a < uintWidth) : ∃ v, .load a v ∈ t := by
  induction count generalizing t n with
  | zero =>
    obtain ⟨_, _, _, rfl, none, rest⟩ := follows_bind.mp follows
    cases none
    obtain ⟨t₁, t₂, v, rfl, byte, _⟩ := follows_bind.mp rest
    cases byte with
    | load rest =>
      cases rest
      rw [uadd_of_lt small]
      exact ⟨v, List.mem_cons_self⟩
  | succ count ih =>
    obtain ⟨t₁, t₂, low, rfl, first, _⟩ := follows_bind.mp follows
    obtain ⟨v, member⟩ := ih first
    exact ⟨v, List.mem_append_left _ member⟩

/-- The loop over a vector begins with a load at its address. -/
theorem load_of_vectorLength {n : Nat} (follows : (Stepwise.vectorLength vec).Follows t n)
    (small : vec < uintWidth) : ∃ v, .load vec v ∈ t := by
  have loop : Stepwise.vectorLength vec = Stepwise.vectorLoop (0xFFFFFFFF + 1) vec := rfl
  rw [loop, Stepwise.vectorLoop] at follows
  obtain ⟨t₁, t₂, p, rfl, word, _⟩ := follows_bind.mp follows
  obtain ⟨v, member⟩ := load_of_value word small
  exact ⟨v, List.mem_append_left _ member⟩

/-- With a null pointer for the arguments, the words from address 0 on are loaded. -/
theorem load_of_null {esp : Nat} (envVector : m.OptionalVectorAt envp env)
    (proper : optionalEnd env userStackPos ≠ stackNomem)
    (follows : (Stepwise.makeNewStack 0 envp userStackPos).Follows t esp)
    (cells : ∀ a v, .load a v ∈ t → OptionalCell envp env a v) : ∃ v, .load 0 v ∈ t := by
  obtain ⟨envProper, null⟩ := envVector.proper
  obtain ⟨t₁, t₂, envs, rfl, first, rest⟩ := follows_bind.mp follows
  obtain ⟨rfl, rfl⟩ := first.unique
    (Stepwise.writeOptional_follows envProper null (show userStackPos < uintWidth by decide))
    (fun a v member => envVector.byte (cells a v (List.mem_append_left _ member)))
    fun a v member => envVector.byte (load_mem_optionalAccesses member)
  rw [if_neg proper] at rest
  obtain ⟨t₃, t₄, args, rfl, second, rest⟩ := follows_bind.mp rest
  rw [Stepwise.writeVector, if_pos rfl] at second
  cases second
  rw [if_neg (by decide)] at rest
  obtain ⟨t₅, t₆, argc, rfl, count, _⟩ := follows_bind.mp rest
  obtain ⟨v, member⟩ := load_of_vectorLength count (by decide)
  exact ⟨v, List.mem_append_right _ (List.mem_append_right _ (List.mem_append_left _ member))⟩

/-- When there are arguments, or when it does not get to them, `make_new_stack` loads bytes of the
vectors. -/
theorem load_mem_getD (there : args = none → optionalEnd env userStackPos = stackNomem)
    (member : .load a u ∈ stackAccesses argv envp userStackPos (args.getD []) env) :
    OptionalCell argv args a u ∨ OptionalCell envp env a u := by
  cases args with
  | some entries => exact load_mem_stackAccesses member
  | none =>
    rw [stackAccesses, if_pos (there rfl)] at member
    exact .inr (load_mem_optionalAccesses member)

section Vectors

variable (argVector : m.OptionalVectorAt argv args) (envVector : m.OptionalVectorAt envp env)

include argVector envVector

/-- And its accesses are known. -/
theorem follows_getD (there : args = none → optionalEnd env userStackPos = stackNomem) :
    (Stepwise.makeNewStack argv envp userStackPos).Follows
      (stackAccesses argv envp userStackPos (args.getD []) env)
      (stackEnd userStackPos (args.getD []) env) := by
  obtain ⟨envProper, null⟩ := envVector.proper
  have small : userStackPos < uintWidth := by decide
  cases args with
  | some entries => exact makeNewStack_follows (VectorAt.proper argVector) envProper null small
  | none =>
    have full := there rfl
    rw [stackAccesses, stackEnd, if_pos full, if_pos full, ← List.append_nil (optionalAccesses _ _ _)]
    refine (Stepwise.writeOptional_follows envProper null small).bind ?_
    rw [if_pos full]
    exact .done _

/-- Its accesses can be made if and only if there is memory to store in and no byte is loaded that
has been replaced. -/
theorem exists_replays_getD (there : args = none → optionalEnd env userStackPos = stackNomem) :
    (∃ mem, Replays m.translate (stackAccesses argv envp userStackPos (args.getD []) env) m.physical
      mem) ↔ Accesses.Placed m.translate (stackAccesses argv envp userStackPos (args.getD []) env) ∧
        Steady m.translate [] (stackAccesses argv envp userStackPos (args.getD []) env) := by
  exact exists_replays_iff fun a v member =>
    (load_mem_getD there member).elim argVector.byte envVector.byte

end Vectors

section Page

variable (fits : writtenSize (some entries) env ≤ userStackSize)

include fits

/-- A block that fits into a page has the accesses and the address of one. -/
theorem stackAccesses_of_fits :
    stackAccesses argv envp userStackPos entries env =
        blockAccesses argv envp userStackPos entries env ∧
      stackEnd userStackPos entries env = userStackPos - writtenSize (some entries) env :=
  have small : blockSize (entries.map Prod.snd) (env.map (List.map Prod.snd)) ≤ userStackPos :=
    Nat.le_trans fits (by decide)
  ⟨stackAccesses_eq small (by decide), stackEnd_eq small (by decide)⟩

/-- And its bytes are on the stack. -/
theorem onStack_of_fits (member : .store a u ∈ stackAccesses argv envp userStackPos entries env) :
    a / frameSize = 0x7FFFF := by
  rw [(stackAccesses_of_fits fits).1,
    store_mem_blockAccesses (Nat.le_trans fits (by decide)) (by decide)] at member
  have bounds := member.bounds
  have size : blockSize (entries.map Prod.snd) (env.map (List.map Prod.snd)) =
    writtenSize (some entries) env := rfl
  rw [length_blockBytes, size] at bounds
  unfold userStackPos userStackSize frameSize at *
  omega

/-- There is memory to store in if and only if there is memory behind the page. -/
theorem Sound.placed_iff (sound : m.Sound) (frame : (m.page 0x7FFFF).frame ≠ 0) :
    Accesses.Placed m.translate (stackAccesses argv envp userStackPos entries env) ↔
      (m.page 0x7FFFF).frame < m.paging.framecount := by
  constructor
  · intro placed
    have size : 12 ≤ blockSize (entries.map Prod.snd) (env.map (List.map Prod.snd)) :=
      Nat.le_add_left ..
    have first : ∃ u, StackBlock userStackPos entries env (userStackPos -
        blockSize (entries.map Prod.snd) (env.map (List.map Prod.snd))) u :=
      exists_cell (Nat.le_refl _) (by rw [length_blockBytes]; omega)
    obtain ⟨u, cell⟩ := first
    rw [StackBlock, ← @store_mem_blockAccesses _ _ _ argv envp _ _ (Nat.le_trans fits (by decide))
      (by decide), ← (stackAccesses_of_fits fits).1] at cell
    obtain ⟨q, place⟩ := Option.isSome_iff_exists.mp (placed _ u cell)
    have inside := (sound.translate_eq_some.mp place).2.1
    rwa [onStack_of_fits fits cell] at inside
  · intro memory a v member
    rw [← onStack_of_fits fits member] at frame memory
    exact Option.isSome_of_eq_some (sound.translate_of_frame frame memory)

end Page

/-- What `make_new_stack` touches is its own memory if and only if there are arguments, all fits into
one page that has memory, and the vectors are not disturbed; or if it goes round through all
addresses. -/
theorem touchesOwn_iff (sound : m.Sound)
    (mapped : m.newStack blocks userStackPos userStackSize = some m')
    (argVector : m'.OptionalVectorAt argv args) (envVector : m'.OptionalVectorAt envp env) :
    m.TouchesOwn blocks argv envp args env ↔
      (∃ entries ∈ args, writtenSize args env ≤ userStackSize ∧
        (m'.page 0x7FFFF).frame < m'.paging.framecount ∧
        Undisturbed argv envp userStackPos entries env (StackBlock userStackPos entries env)) ∨
      m'.GoesRound argv envp args env := by
  obtain ⟨sound', held⟩ := sound.newStack_held mapped
  have frame := held 0x7FFFF (by decide)
  -- for a block that fits into a page
  have page {entries : List Entry} (fits : writtenSize (some entries) env ≤ userStackSize)
      (memory : (m'.page 0x7FFFF).frame < m'.paging.framecount)
      (argVector : m'.VectorAt argv entries) :
      (∃ mem, Replays m'.translate (stackAccesses argv envp userStackPos entries env) m'.physical
        mem) ↔ Undisturbed argv envp userStackPos entries env (StackBlock userStackPos entries env) := by
    have small : blockSize (entries.map Prod.snd) (env.map (List.map Prod.snd)) ≤ userStackPos :=
      Nat.le_trans fits (by decide)
    have room := (sound'.room frame memory).mono (Nat.sub_le_sub_left fits userStackPos)
    rw [(stackAccesses_of_fits fits).1, exists_replays_block argVector envVector small room,
      agrees_blockAccesses small room]
  constructor
  · rintro ⟨m'', esp, t, mem, run, follows, replays, stores, cells⟩
    cases Option.some.inj (run.symm.trans mapped)
    have sees : Sees m'.byte t := fun a v member =>
      (cells a v member).elim argVector.byte envVector.byte
    -- what is loaded at address 0 is not a vector
    have there : args = none → optionalEnd env userStackPos = stackNomem := by
      rintro rfl
      obtain rfl : argv = 0 := argVector
      by_contra proper
      have only (a : Nat) (v : BitVec 8) (member : .load a v ∈ t) : OptionalCell envp env a v :=
        (cells a v member).resolve_left id
      obtain ⟨v, member⟩ := load_of_null envVector proper follows only
      exact envVector.positive (only 0 v member) rfl
    obtain ⟨rfl, rfl⟩ := follows.unique (follows_getD argVector envVector there) sees
      fun a v member => (load_mem_getD there member).elim argVector.byte envVector.byte
    have possible := (exists_replays_getD argVector envVector there).mp ⟨mem, replays⟩
    cases args with
    | none => exact .inr ⟨there rfl, possible.1, possible.2⟩
    | some entries =>
      by_cases wraps : stackEnd userStackPos entries env = stackNomem
      · exact .inr ⟨wraps, possible.1, possible.2⟩
      · have fits := fits_stackAccesses (VectorAt.proper argVector) envVector.proper.1 wraps
          (stores.resolve_left wraps)
        have memory := (sound'.placed_iff fits frame).mp possible.1
        exact .inl ⟨entries, rfl, fits, memory, (page fits memory argVector).mp ⟨mem, replays⟩⟩
  · rintro (⟨entries, rfl, fits, memory, undisturbed⟩ | round)
    · obtain ⟨mem, replays⟩ := (page fits memory argVector).mpr undisturbed
      refine ⟨m', _, _, mem, mapped, follows_getD argVector envVector nofun, replays,
        .inr fun a v member => ?_, fun a v => load_mem_getD nofun⟩
      rw [OnStack, onStack_of_fits fits member]
      decide
    · have there : args = none → optionalEnd env userStackPos = stackNomem := by
        rintro rfl
        exact round.wraps
      obtain ⟨mem, replays⟩ := (exists_replays_getD argVector envVector there).mpr
        ⟨round.placed, round.steady⟩
      refine ⟨m', _, _, mem, mapped, follows_getD argVector envVector there, replays, .inl ?_,
        fun a v => load_mem_getD there⟩
      cases args with
      | none => exact if_pos round.wraps
      | some entries => exact round.wraps

/-- The memory of a task that has been started with the arguments `a` and `bc`. -/
def startedMachine : Machine := stackMachine fun a =>
  (blockBytes 2 userStackPos (some [[97], [98, 99]]) none).getD (a - 0x3FE3) 0

/-- Vectors on a page of their own are built into the page below `USER_STACK_POS`, and so are the
arguments that a task has been started with itself, which are there. -/
theorem touchesOwn_iff_two :
    ((firstMachine fun a => vectorImage.getD (a - 4096) 0).makePage FirstPages.blocks
        4096).TouchesOwn FirstPages.blocks 4096 4100 (some [(4108, [97]), (4110, [98, 99])])
          (some [(4110, [98, 99])]) ∧
      startedMachine.TouchesOwn FirstPages.blocks 0x7FFFFFEF 0
        (some [(0x7FFFFFFB, [97]), (0x7FFFFFFD, [98, 99])]) none := by
  constructor
  · have sound := (firstMachine_sound fun a => vectorImage.getD (a - 4096) 0).makePage
      FirstPages.blocks (show 4096 < uintWidth by decide)
    refine (touchesOwn_iff sound (newStack_eq ..) vectorMachine_args vectorMachine_envs).mpr
      (.inl ⟨_, rfl, by decide, (vectorMachine_room.held 0x7FFFF000 (by decide) (by decide)).2, ?_⟩)
    exact undisturbed_of_separate (by unfold Separate; decide)
  · have args : ((startedMachine.makePage FirstPages.blocks 0x80000000).makePage FirstPages.blocks
        0x7FFFF000).VectorAt 0x7FFFFFEF [(0x7FFFFFFB, [97]), (0x7FFFFFFD, [98, 99])] := by
      refine VectorAt.mk (by decide) (by decide) (by unfold WordsAt; decide) (by decide)
        fun e member => ?_
      rcases List.mem_cons.mp member with rfl | member
      · exact ⟨by decide, by unfold HoldsAt; decide, by decide⟩
      · cases List.mem_singleton.mp member
        exact ⟨by decide, by unfold HoldsAt; decide, by decide⟩
    have sound : startedMachine.Sound := stackMachine_sound _
    have envs : ((startedMachine.makePage FirstPages.blocks 0x80000000).makePage FirstPages.blocks
      0x7FFFF000).OptionalVectorAt 0 none := rfl
    have vector : ((startedMachine.makePage FirstPages.blocks 0x80000000).makePage FirstPages.blocks
      0x7FFFF000).OptionalVectorAt 0x7FFFFFEF (some _) := args
    refine (touchesOwn_iff sound (newStack_eq ..) vector envs).mpr
      (.inl ⟨_, rfl, by decide, by decide, ?_⟩)
    exact undisturbed_of_holdsAt args rfl (by unfold HoldsAt; decide)

/-- With two null pointers, the loop that counts the arguments loads from address 0. -/
theorem touchesOwn_not : ¬((firstMachine fun a => vectorImage.getD (a - 4096) 0).makePage
    FirstPages.blocks 4096).TouchesOwn FirstPages.blocks 0 0 none none := by
  rintro ⟨m', esp, t, mem, _, follows, _, _, cells⟩
  have only (a : Nat) (v : BitVec 8) (member : .load a v ∈ t) : OptionalCell 0 none a v :=
    (cells a v member).elim id id
  have null : m'.OptionalVectorAt 0 none := rfl
  obtain ⟨v, member⟩ := load_of_null null (by decide) follows only
  exact only 0 v member

end Machine

end Nupkux
