import Nupkux.Mm.Machine

/-!
# Loading executables

`load_elf` reads the header of an image and its program headers, and with `pretend` 0 it copies
the segments to where they belong, each time after `make_page` has been called for its pages.
Every field is read where the source reads it, so a segment that is copied over a header shows.
The loops have a number of turns that has to suffice.
-/

namespace Nupkux

/-- `ALIGN_DOWN`: the page boundary at or below an address. -/
def alignDown (value : Nat) : Nat := value - value % frameSize

/-- A field of a structure: its offset and its size. -/
structure Field where
  offset : Nat
  size : Nat
  deriving DecidableEq, Repr

/-- `struct _elf32_ehdr`: `ei_magic`. -/
def eiMagic : Field := ⟨0, 4⟩
/-- `ei_class`. -/
def eiClass : Field := ⟨4, 1⟩
/-- `ei_data`. -/
def eiData : Field := ⟨5, 1⟩
/-- `ei_version`. -/
def eiVersion : Field := ⟨6, 1⟩
/-- `e_type`. -/
def eType : Field := ⟨16, 2⟩
/-- `e_machine`. -/
def eMachine : Field := ⟨18, 2⟩
/-- `e_version`. -/
def eVersion : Field := ⟨20, 4⟩
/-- `e_entry`. -/
def eEntry : Field := ⟨24, 4⟩
/-- `e_phoff`. -/
def ePhoff : Field := ⟨28, 4⟩
/-- `e_phentsize`. -/
def ePhentsize : Field := ⟨42, 2⟩
/-- `e_phnum`. -/
def ePhnum : Field := ⟨44, 2⟩

/-- `struct _elf32_phdr`: `p_type`. -/
def pType : Field := ⟨0, 4⟩
/-- `p_offset`. -/
def pOffset : Field := ⟨4, 4⟩
/-- `p_vaddr`. -/
def pVaddr : Field := ⟨8, 4⟩
/-- `p_filesz`. -/
def pFilesz : Field := ⟨16, 4⟩
/-- `p_memsz`. -/
def pMemsz : Field := ⟨20, 4⟩

/-- `PT_LOAD`. -/
def ptLoad : Nat := 1
/-- `PT_DYNAMIC`. -/
def ptDynamic : Nat := 2
/-- `PT_SHLIB`. -/
def ptShlib : Nat := 5

/-- `LOAD_ELF_SUCCESS` to `LOAD_ELF_LOAD`. -/
inductive LoadElf where
  | success | invarg | noelf | machine | support | dynamic | load
  deriving DecidableEq, Repr

/-- The tests of the header in the order of the source: a field, the value it must have and what
is returned if it has another one. -/
def headerTests : List (Field × Nat × LoadElf) :=
  [(eiMagic, 0x464C457F, .noelf), (eiVersion, 1, .support), (eVersion, 1, .support),
    (eiClass, 1, .machine), (eiData, 1, .machine), (eMachine, 3, .machine),
    (eiVersion, 1, .support), (eVersion, 1, .support), (eType, 2, .support)]

/-- Where a field of the structure at an address is. -/
def Field.span (f : Field) (base : Nat) : Nat × Nat := (uadd base f.offset, f.size)

namespace Machine

/-- A field of the structure at an address. -/
def field (m : Machine) (base : Nat) (f : Field) : Option Nat :=
  m.value (uadd base f.offset) f.size

/-- The tests of the header, up to the first that fails. -/
def testHeader (image : Nat) (m : Machine) : List (Field × Nat × LoadElf) →
    Option (LoadElf × Reads)
  | [] => some (.success, [])
  | (f, value, code) :: tests => do
    let found ← m.field image f
    if found ≠ value then some (code, [f.span image])
    else
      let (code, reads) ← testHeader image m tests
      some (code, f.span image :: reads)

/-- The loop over pages of `elf_load_segment`, from an address on. The end is looked at again
before each turn. -/
def mapPages (blocks : PageBlocks) (stop : Machine → Option Nat) :
    Nat → Nat → Machine → Option Machine
  | 0, _, _ => none
  | turns + 1, i, m => do
    let stop' ← stop m
    if i < stop' then mapPages blocks stop turns (uadd i frameSize) (m.makePage blocks i)
    else some m

/-- `seg->p_vaddr + seg->p_memsz`. -/
def segmentEnd (seg : Nat) (m : Machine) : Option Nat := do
  let vaddr ← m.field seg pVaddr
  let memsz ← m.field seg pMemsz
  some (uadd vaddr memsz)

/-- `if (seg->p_filesz < size) memset(image + seg->p_offset + seg->p_filesz, 0,
size - seg->p_filesz)`. -/
def zeroSegment (image seg size : Nat) (m : Machine) : Option Machine := do
  let filesz ← m.field seg pFilesz
  if filesz < size then
    let offset ← m.field seg pOffset
    memset (uadd (uadd image offset) filesz) 0 (size - filesz) m
  else some m

/-- `elf_load_segment`, with what it reads of the image. -/
def elfLoadSegment (blocks : PageBlocks) (turns image seg : Nat) (m : Machine) :
    Option (Machine × Reads) := do
  let filesz ← m.field seg pFilesz
  let vaddr ← m.field seg pVaddr
  let m ← mapPages blocks (segmentEnd seg) turns (alignDown vaddr) m
  let memsz ← m.field seg pMemsz
  let size := if memsz < filesz then memsz else filesz
  let vaddr ← m.field seg pVaddr
  let offset ← m.field seg pOffset
  let m ← memcpy vaddr (uadd image offset) size m
  let m ← zeroSegment image seg size m
  some (m, [pFilesz.span seg, pVaddr.span seg, pMemsz.span seg, pOffset.span seg,
    (uadd image offset, size)])

/-- `case PT_LOAD: if (!pretend) elf_load_segment(image, seg)`; other headers are passed over. The
test of what `elf_load_segment` returns, which is 0, is left out. -/
def passSegment (blocks : PageBlocks) (pages image : Nat) (pretend : Bool) (seg type : Nat)
    (m : Machine) : Option (Machine × Reads) :=
  if type = ptLoad ∧ pretend = false then elfLoadSegment blocks pages image seg m
  else some (m, [])

/-- The program header with an index. -/
def segmentAt (image i : Nat) (m : Machine) : Option Nat := do
  let phoff ← m.field image ePhoff
  let phentsize ← m.field image ePhentsize
  some (uadd (uadd image phoff) (umul i phentsize))

/-- The loop of `load_elf` over the program headers from one on. -/
def loadSegments (blocks : PageBlocks) (pages image : Nat) (pretend : Bool) :
    Nat → Nat → Machine → Option (LoadElf × Machine × Reads)
  | 0, _, _ => none
  | turns + 1, i, m => do
    let phnum ← m.field image ePhnum
    if i < phnum then
      let seg ← m.segmentAt image i
      let type ← m.field seg pType
      let head := [ePhnum.span image, ePhoff.span image, ePhentsize.span image, pType.span seg]
      if type = ptDynamic ∨ type = ptShlib then some (.dynamic, m, head)
      else
        let (m, loaded) ← passSegment blocks pages image pretend seg type m
        let (code, m, reads) ← loadSegments blocks pages image pretend turns (i + 1) m
        some (code, m, head ++ loaded ++ reads)
    else some (.success, m, [ePhnum.span image])

/-- What `load_elf` returns, what it stores in `*entry`, if anything, the memory afterwards and
what it has read of the image. -/
structure Loaded where
  code : LoadElf
  entry : Option Nat := none
  machine : Machine
  reads : Reads := []

/-- `load_elf`, with a pointer to a variable for the entry. The turns are those of the loops over
pages and of the loop over program headers. -/
def loadElf (blocks : PageBlocks) (pages turns image : Nat) (pretend : Bool) (m : Machine) :
    Option Loaded := do
  if image = 0 then some { code := .invarg, machine := m }
  else
    let (code, tested) ← testHeader image m headerTests
    if code ≠ .success then some { code, machine := m, reads := tested }
    else
      let entry ← m.field image eEntry
      let (code, m, reads) ← loadSegments blocks pages image pretend turns 0 m
      some
        { code
          entry := some entry
          machine := m
          reads := tested ++ [eEntry.span image] ++ reads }

/-! ## The loop over pages -/

variable {m m' m'' : Machine} {blocks : PageBlocks} {stop : Machine → Option Nat}
  {turns i lo n e a image seg base : Nat} {f : Field}

/-- The loop over pages lets the page tables grow. -/
theorem mapPages_grown (sound : m.Sound) (inRange : i < uintWidth)
    (maps : mapPages blocks stop turns i m = some m') : Grown m m' := by
  induction turns generalizing i m with
  | zero => cases maps
  | succ turns ih =>
    rw [mapPages] at maps
    obtain ⟨stop', _, rest⟩ := Option.bind_eq_some_iff.mp maps
    by_cases more : i < stop'
    · rw [if_pos more] at rest
      have step := sound.grows blocks inRange
      exact step.trans (ih step.sound (uadd_lt i frameSize) rest)
    · rw [if_neg more] at rest
      cases rest
      exact .refl sound

/-- When the end stays the same while the page tables grow, it need not be looked at again. -/
theorem mapPages_of_stable (sound : m.Sound) (inRange : i < uintWidth)
    (stable : ∀ m', Grown m m' → stop m' = some e) :
    mapPages blocks stop turns i m = mapPages blocks (fun _ => some e) turns i m := by
  induction turns generalizing i m with
  | zero => rfl
  | succ turns ih =>
    have step := sound.grows blocks inRange
    rw [mapPages, mapPages, stable m (.refl sound)]
    change (if i < e then _ else _) = if i < e then _ else _
    rw [ih step.sound (uadd_lt i frameSize) fun m' grown => stable m' (step.trans grown)]

/-- More turns than needed make no difference. -/
theorem mapPages_mono (maps : mapPages blocks stop turns i m = some m') (more : Nat) :
    mapPages blocks stop (turns + more) i m = some m' := by
  induction turns generalizing i m with
  | zero => cases maps
  | succ turns ih =>
    rw [Nat.succ_add, mapPages]
    rw [mapPages] at maps
    obtain ⟨stop', found, rest⟩ := Option.bind_eq_some_iff.mp maps
    rw [found]
    change (if i < stop' then _ else _) = _
    split
    · rename_i less
      rw [if_pos less] at rest
      exact ih rest
    · rename_i done
      rwa [if_neg done] at rest

/-- Two loops that end, end in the same state. -/
theorem mapPages_unique {turns' : Nat} (first : mapPages blocks stop turns i m = some m')
    (second : mapPages blocks stop turns' i m = some m'') : m' = m'' := by
  have one := mapPages_mono first turns'
  have two := mapPages_mono second turns
  rw [Nat.add_comm, two] at one
  exact (Option.some.inj one).symm

/-- The last page boundary. -/
def lastPage : Nat := 0xFFFFF000

/-- As many turns as the loop over pages can need: one for each page, and the last test. -/
def pageTurns : Nat := frameNumbers + 1

/-- The loop over pages ends when its end is not behind the last page boundary, or not behind its
start. -/
theorem mapPages_returns (aligned : i % frameSize = 0) (inRange : i < uintWidth)
    (bounds : e ≤ i ∨ e ≤ lastPage) :
    (mapPages blocks (fun _ => some e) pageTurns i m).isSome := by
  have enough : ∀ count i m, i % frameSize = 0 → i < uintWidth → e ≤ i + count * frameSize →
      e ≤ i ∨ e ≤ lastPage → (mapPages blocks (fun _ => some e) (count + 1) i m).isSome := by
    intro count
    induction count with
    | zero =>
      intro i m _ _ reached _
      rw [mapPages]
      change (if i < e then _ else some m).isSome
      rw [if_neg (by omega)]
      rfl
    | succ count ih =>
      intro i m aligned inRange reached bounds
      rw [mapPages]
      change (if i < e then _ else some m).isSome
      split
      · rename_i less
        have last : e ≤ lastPage := bounds.resolve_left (Nat.not_le_of_lt less)
        have next : uadd i frameSize = i + frameSize := by
          apply uadd_of_lt
          simp only [frameSize, uintWidth, lastPage] at *
          omega
        rw [next]
        refine ih _ _ ?_ ?_ ?_ (.inr last)
        · rw [Nat.add_mod_right]
          exact aligned
        · simp only [frameSize, uintWidth, lastPage] at *
          omega
        · simp only [frameSize] at *
          omega
      · rfl
  refine enough frameNumbers i m aligned inRange ?_ bounds
  simp only [frameNumbers, frameSize, lastPage] at *
  omega

/-- Otherwise it never ends: the counter wraps from the last page to 0, always below the end. -/
theorem mapPages_never (aligned : i % frameSize = 0) (inRange : i < uintWidth) (last : lastPage < e) :
    i < e → ∀ turns, mapPages blocks (fun _ => some e) turns i m = none := by
  intro less turns
  induction turns generalizing i m with
  | zero => rfl
  | succ turns ih =>
    rw [mapPages]
    change (if i < e then _ else _) = _
    rw [if_pos less]
    refine ih ?_ (uadd_lt i frameSize) ?_
    · simp only [uadd, frameSize, uintWidth] at *
      omega
    · simp only [uadd, frameSize, uintWidth, lastPage] at *
      omega

/-- The loop over pages ends if and only if its end is not behind the last page boundary, or not
behind its start. -/
theorem mapPages_isSome (aligned : i % frameSize = 0) (inRange : i < uintWidth) :
    (∃ turns, (mapPages blocks (fun _ => some e) turns i m).isSome) ↔ e ≤ i ∨ e ≤ lastPage := by
  constructor
  · rintro ⟨turns, ends⟩
    by_contra neither
    obtain ⟨before, last⟩ := not_or.mp neither
    rw [mapPages_never aligned inRange (by omega) (by omega)] at ends
    cases ends
  · intro bounds
    exact ⟨pageTurns, mapPages_returns aligned inRange bounds⟩

end Machine

end Nupkux
