import Nupkux.Kernel.ElfReads

/-!
# Validating an image before it is loaded

`do_exec` calls `load_elf` twice: with `pretend` 1 to see whether the image can be run, and with 0
to load it. The first call stores nothing and looks at the same program headers as the second,
so the two agree as long as the second one returns: the loop over the pages of a segment may not
end, and nothing is checked when no frame is left.
-/

namespace Nupkux

/-- `ENOEXEC`. -/
def ENOEXEC : Int := 8

namespace Machine

/-- The two calls of `load_elf` in `do_exec`: an error, or the entry. -/
def loadImage (blocks : PageBlocks) (pages turns image : Nat) (m : Machine) :
    Option (Except Int Nat × Machine) := do
  let checked ← m.loadElf blocks pages turns image true
  if checked.code ≠ .success then some (.error (-ENOEXEC), checked.machine)
  else
    let loaded ← checked.machine.loadElf blocks pages turns image false
    if loaded.code ≠ .success then some (.error (-ENOEXEC), loaded.machine)
    else some (.ok (loaded.entry.getD 0), loaded.machine)

/-- What the first of the calls is for. -/
structure Validates (m : Machine) (blocks : PageBlocks) (image : Nat) : Prop where
  /-- It changes nothing. -/
  still : ∀ pages turns checked,
    m.loadElf blocks pages turns image true = some checked → checked.machine = m
  /-- It tells what the second call would return and store in `*entry`. -/
  alike : ∃ pages turns checked loaded, m.loadElf blocks pages turns image true = some checked ∧
    m.loadElf blocks pages turns image false = some loaded ∧
      checked.code = loaded.code ∧ checked.entry = loaded.entry
  /-- Nothing is loaded of an image that is refused. -/
  refused : ∀ pages turns e m', m.loadImage blocks pages turns image = some (.error e, m') → m' = m

/-- The program headers are in the buffer, and no loadable range meets it. -/
structure HeadersApart (m : Machine) (image n : Nat) : Prop where
  inside : ∀ phnum phoff phentsize, m.HeaderTable image phnum phoff phentsize →
    ∀ i < phnum, InFile n (headerOffset phoff phentsize i) 32
  apart : ∀ phnum phoff phentsize, m.HeaderTable image phnum phoff phentsize →
    ∀ i < phnum, m.field (uadd image (headerOffset phoff phentsize i)) pType = some ptLoad →
      ∀ offset vaddr filesz memsz,
        m.ProgramHeader (uadd image (headerOffset phoff phentsize i)) offset vaddr filesz memsz →
          ∀ j < memsz, ¬InBuffer image n (uadd vaddr j)

/-- A buffer that holds an image with its program headers. -/
structure HoldsImage (m : Machine) (image n : Nat) : Prop where
  buffer : m.Buffer image n
  header : 46 ≤ n
  segments : m.Passes image headerTests → m.HeadersApart image n

/-- A segment can be stored: the loop over its pages ends, and there is memory behind the bytes
that are copied and where they go. -/
def CanStore (image off : Nat) (m : Machine) : Prop :=
  ∀ offset vaddr filesz memsz, m.ProgramHeader (uadd image off) offset vaddr filesz memsz →
    (uadd vaddr memsz ≤ alignDown vaddr ∨ uadd vaddr memsz ≤ lastPage) ∧
    ∀ j < copySize filesz memsz,
      m.WillReach (alignDown vaddr) (uadd vaddr memsz) (uadd vaddr j) ∧
        m.WillReach (alignDown vaddr) (uadd vaddr memsz) (uadd (uadd image offset) j)

variable {m m' m₁ : Machine} {blocks : PageBlocks} {n a pages turns image e : Nat}
  {offset vaddr filesz memsz off i type : Nat} {f : Field} {phnum phoff phentsize : Nat}
  {code : LoadElf} {reads : Reads}

/-! ## A segment apart from the image -/

section Apart

variable (sound : m.Sound) (buffer : m.Buffer image n)
  (covers : CoversHeader image n (uadd image off))
  (header : m.ProgramHeader (uadd image off) offset vaddr filesz memsz)
  (apart : ∀ j < memsz, ¬InBuffer image n (uadd vaddr j))

include sound buffer covers header apart

/-- If it was loaded, it could be stored. -/
theorem apart_canStore
    (ran : m.elfLoadSegment blocks pages image (uadd image off) = some (m', reads)) :
    (uadd vaddr memsz ≤ alignDown vaddr ∨ uadd vaddr memsz ≤ lastPage) ∧
    ∀ j < copySize filesz memsz,
      m.WillReach (alignDown vaddr) (uadd vaddr memsz) (uadd vaddr j) ∧
        m.WillReach (alignDown vaddr) (uadd vaddr memsz) (uadd (uadd image offset) j) := by
  have bounds := alignDown_spec header.range.2.1
  rw [apart_run sound buffer covers header apart] at ran
  obtain ⟨m₁, maps, ran⟩ := Option.bind_eq_some_iff.mp ran
  obtain ⟨m₂, copied, ran⟩ := Option.bind_eq_some_iff.mp ran
  have ends := (mapPages_isSome bounds.1 bounds.2).mp ⟨pages, by rw [maps]; rfl⟩
  have mapped := memcpy_isSome.mp (by rw [copied]; rfl)
  have reaches := mapPages_reaches sound bounds.1 bounds.2 ends maps
  exact ⟨ends, fun j less => ⟨(reaches _).mp (mapped.1 j less), (reaches _).mp (mapped.2 j less)⟩⟩

/-- If it can be stored, it is loaded. -/
theorem apart_loads (can : m.CanStore image off) :
    ∃ m' reads, m.elfLoadSegment blocks pageTurns image (uadd image off) = some (m', reads) := by
  have bounds := alignDown_spec header.range.2.1
  obtain ⟨ends, reach⟩ := can offset vaddr filesz memsz header
  obtain ⟨m₁, maps⟩ := Option.isSome_iff_exists.mp
    (@mapPages_returns m blocks (alignDown vaddr) (uadd vaddr memsz) bounds.1 bounds.2 ends)
  have reaches := mapPages_reaches sound bounds.1 bounds.2 ends maps
  obtain ⟨m₂, copied⟩ := Option.isSome_iff_exists.mp (memcpy_isSome.mpr
    ⟨fun j less => (reaches _).mpr (reach j less).1, fun j less => (reaches _).mpr (reach j less).2⟩)
  refine ⟨m₂, segmentReads image (uadd image off) offset filesz memsz, ?_⟩
  rw [apart_run sound buffer covers header apart, maps, Option.bind_some, copied]
  rfl

end Apart

/-! ## The two passes -/

/-- Still the same image. -/
theorem SameImage.refl (sound : m.Sound) (buffer : m.Buffer image n) : SameImage m m image n :=
  ⟨sound, buffer, fun _ _ => rfl⟩

/-- The same image after two changes. -/
theorem SameImage.trans (first : SameImage m m₁ image n) (second : SameImage m₁ m' image n) :
    SameImage m m' image n :=
  ⟨second.sound, second.buffer, fun a inside =>
    (second.bytes a inside).trans (first.bytes a inside)⟩

/-- A field of a structure at an offset, when the structure is in the file. -/
theorem InFile.field {count : Nat} (inside : InFile n off count) (f : Field)
    (small : f.offset + f.size ≤ count) : InFile n (uadd off f.offset) f.size := by
  intro j less
  have same : uadd (uadd off f.offset) j = uadd off (f.offset + j) := by
    simp only [uadd, uintWidth]
    omega
  rw [same]
  exact inside _ (by omega)

/-- The fields of the table are the same for the same image. -/
theorem SameImage.table (same : SameImage m m₁ image n) (fits : 46 ≤ n) :
    m₁.HeaderTable image phnum phoff phentsize ↔ m.HeaderTable image phnum phoff phentsize := by
  have bound := same.buffer.small
  have field (f : Field) (inside : f.offset + f.size ≤ 46) : m₁.field image f = m.field image f :=
    field_congr same.bytes ((covers_iff bound).mpr (inFile_of_le (by omega) (by omega)))
  constructor
  · intro table
    exact ⟨(field ePhnum (by decide)).symm.trans table.phnum,
      (field ePhoff (by decide)).symm.trans table.phoff,
      (field ePhentsize (by decide)).symm.trans table.phentsize⟩
  · intro table
    exact ⟨(field ePhnum (by decide)).trans table.phnum,
      (field ePhoff (by decide)).trans table.phoff,
      (field ePhentsize (by decide)).trans table.phentsize⟩

section Passes

variable (headers : m.HeadersApart image n) (fits : 46 ≤ n) (same : SameImage m m₁ image n)

include headers fits same

/-- A program header of a type is in the buffer, has this type in both passes and, if it is for a
loadable segment, a range apart from the buffer. -/
theorem header_of_looks (looks : m₁.LooksAt image n i off type) :
    CoversHeader image n (uadd image off) ∧ m.field (uadd image off) pType = some type ∧
    ∀ offset vaddr filesz memsz, m₁.ProgramHeader (uadd image off) offset vaddr filesz memsz →
      type = ptLoad → ∀ j < memsz, ¬InBuffer image n (uadd vaddr j) := by
  obtain ⟨phnum, phoff, phentsize, table, more, rfl, _, found⟩ := looks
  have table' := (same.table fits).mp table
  have bound := same.buffer.small
  have inside := headers.inside _ _ _ table' i more
  have covers : CoversHeader image n (uadd image (headerOffset phoff phentsize i)) := by
    intro f member
    refine (covers_field_iff bound).mpr (inside.field f ?_)
    revert f
    decide
  have type' : m.field (uadd image (headerOffset phoff phentsize i)) pType = some type := by
    rw [← field_congr same.bytes ((covers_field_iff bound).mpr (inside.field pType (by decide)))]
    exact found
  refine ⟨covers, type', fun offset vaddr filesz memsz header load => ?_⟩
  have header' := header.congr (fun a inside => (same.bytes a inside).symm) covers
  exact headers.apart _ _ _ table' i more (load ▸ type') _ _ _ _ header'

/-- What the loop over program headers returns when it loads, it also returns when it does not; and
each segment it has loaded could be stored. -/
theorem loadSegments_agree
    (ran : m₁.loadSegments blocks pages image false turns i = some (code, m', reads)) :
    (∃ reads, m.loadSegments blocks pages image true turns i = some (code, m, reads)) ∧
      Turns (fun off m => m.CanStore image off) blocks image n false i m₁ := by
  induction turns generalizing i m₁ m' code reads with
  | zero => cases ran
  | succ turns ih =>
    obtain ⟨phnum, phoff, phentsize, table⟩ := same.buffer.headerTable same.sound fits
    have table' := (same.table fits).mp table
    rw [loadSegments_succ table] at ran
    rw [loadSegments_succ table']
    by_cases more : i < phnum
    · rw [if_pos more] at ran ⊢
      obtain ⟨type, found, ran⟩ := Option.bind_eq_some_iff.mp ran
      have start := (headers.inside _ _ _ table' i more).field pType (by decide)
      have aligned : uadd (headerOffset phoff phentsize i) pType.offset =
          headerOffset phoff phentsize i := uadd_of_lt (uadd_lt ..)
      rw [aligned] at start
      have looks : m₁.LooksAt image n i (headerOffset phoff phentsize i) type :=
        ⟨_, _, _, table, more, rfl, start, found⟩
      obtain ⟨covers, found', apart⟩ := header_of_looks headers fits same looks
      rw [found', Option.bind_some]
      by_cases dynamic : type = ptDynamic ∨ type = ptShlib
      · rw [if_pos dynamic] at ran ⊢
        cases ran
        exact ⟨⟨_, rfl⟩, Turns.dynamic looks dynamic⟩
      · rw [if_neg dynamic] at ran ⊢
        obtain ⟨⟨m₂, loaded⟩, passed, ran⟩ := Option.bind_eq_some_iff.mp ran
        obtain ⟨⟨code', m₃, later⟩, rest, ran⟩ := Option.bind_eq_some_iff.mp ran
        cases ran
        unfold passSegment at passed ⊢
        have pretends : ¬(type = ptLoad ∧ true = false) := fun both => by cases both.2
        rw [if_neg pretends, Option.bind_some]
        by_cases load : type = ptLoad ∧ false = false
        · rw [if_pos load] at passed
          obtain ⟨offset, vaddr, filesz, memsz, header⟩ :=
            same.buffer.programHeader same.sound covers
          have image' := apart_image same.sound same.buffer covers header
            (apart _ _ _ _ header load.1) passed
          obtain ⟨⟨reads', checked⟩, turns'⟩ := ih (same.trans image') rest
          rw [checked]
          refine ⟨⟨_, rfl⟩, ?_⟩
          obtain ⟨_, _, unique⟩ := elfLoadSegment_spec same.sound same.buffer covers passed
          refine Turns.load (load.1 ▸ looks) rfl (fun offset vaddr filesz memsz header =>
            apart_canStore same.sound same.buffer covers header (apart _ _ _ _ header load.1)
              passed) fun pages' m'' reads'' ran' => ?_
          cases unique _ _ ran'
          exact turns'
        · rw [if_neg load] at passed
          cases passed
          obtain ⟨⟨reads', checked⟩, turns'⟩ := ih same rest
          rw [checked]
          exact ⟨⟨_, rfl⟩, Turns.pass looks dynamic load turns'⟩
    · rw [if_neg more] at ran ⊢
      cases ran
      exact ⟨⟨_, rfl⟩, Turns.done ⟨phnum, table.phnum, by omega⟩⟩

/-- The loop over program headers returns if each segment can be stored in its turn. -/
theorem loadSegments_returns
    (goes : Turns (fun off m => m.CanStore image off) blocks image n false i m₁) :
    ∃ turns code m' reads,
      m₁.loadSegments blocks pageTurns image false turns i = some (code, m', reads) := by
  have loads (i off : Nat) (m₁ : Machine) (same : SameImage m m₁ image n)
      (looks : m₁.LooksAt image n i off ptLoad) (can : m₁.CanStore image off) :
      ∃ m' reads, m₁.elfLoadSegment blocks pageTurns image (uadd image off) = some (m', reads) ∧
        (∀ read ∈ reads, True) ∧ SameImage m m' image n := by
    obtain ⟨covers, _, apart⟩ := header_of_looks headers fits same looks
    obtain ⟨offset, vaddr, filesz, memsz, header⟩ := same.buffer.programHeader same.sound covers
    have range := apart _ _ _ _ header rfl
    obtain ⟨m', reads, ran⟩ := apart_loads same.sound same.buffer covers header range can
    exact ⟨m', reads, ran, fun _ _ => trivial,
      same.trans (apart_image same.sound same.buffer covers header range ran)⟩
  obtain ⟨turns, code, m', reads, ran, _⟩ := Turns.returns
    (fun m' same => same.buffer.headerTable same.sound fits) (fun _ _ _ _ _ => trivial) trivial
    loads goes same
  exact ⟨turns, code, m', reads, ran⟩

end Passes

/-- With `pretend` 1 the loop over program headers changes nothing. -/
theorem loadSegments_still
    (ran : m.loadSegments blocks pages image true turns i = some (code, m', reads)) : m' = m := by
  induction turns generalizing i code reads with
  | zero => cases ran
  | succ turns ih =>
    rw [loadSegments] at ran
    obtain ⟨phnum, _, ran⟩ := Option.bind_eq_some_iff.mp ran
    split at ran
    · obtain ⟨seg, _, ran⟩ := Option.bind_eq_some_iff.mp ran
      obtain ⟨type, _, ran⟩ := Option.bind_eq_some_iff.mp ran
      dsimp only at ran
      split at ran
      · cases ran
        rfl
      · have pretends : ¬(type = ptLoad ∧ true = false) := fun both => by cases both.2
        obtain ⟨passed, same, ran⟩ := Option.bind_eq_some_iff.mp ran
        obtain ⟨later, rest, ran⟩ := Option.bind_eq_some_iff.mp ran
        rw [passSegment, if_neg pretends] at same
        cases same
        cases ran
        exact ih rest
    · cases ran
      rfl

/-- With `pretend` 1 `load_elf` changes nothing. -/
theorem loadElf_still {checked : Loaded}
    (ran : m.loadElf blocks pages turns image true = some checked) : checked.machine = m := by
  unfold loadElf at ran
  split at ran
  · cases ran
    rfl
  · obtain ⟨⟨code, tested⟩, _, ran⟩ := Option.bind_eq_some_iff.mp ran
    dsimp only at ran
    split at ran
    · cases ran
      rfl
    · obtain ⟨entry, _, ran⟩ := Option.bind_eq_some_iff.mp ran
      obtain ⟨later, segments, ran⟩ := Option.bind_eq_some_iff.mp ran
      cases ran
      exact loadSegments_still segments

/-- With `pretend` 1 it does not matter how many turns the loop over program headers may take, as long
as it ends. -/
theorem loadSegments_unique {pages' turns' : Nat} {code' : LoadElf} {m₂ : Machine} {reads' : Reads}
    (ran : m.loadSegments blocks pages image true turns i = some (code, m', reads))
    (ran' : m.loadSegments blocks pages' image true turns' i = some (code', m₂, reads')) :
    code = code' := by
  induction turns generalizing i turns' code reads code' reads' with
  | zero => cases ran
  | succ turns ih =>
    cases turns' with
    | zero => cases ran'
    | succ turns' =>
      have pretends (type : Nat) : ¬(type = ptLoad ∧ true = false) := fun both => by cases both.2
      rw [loadSegments] at ran ran'
      obtain ⟨phnum, count, ran⟩ := Option.bind_eq_some_iff.mp ran
      rw [count, Option.bind_eq_bind, Option.bind_some] at ran'
      by_cases more : i < phnum
      · rw [if_pos more] at ran ran'
        obtain ⟨seg, place, ran⟩ := Option.bind_eq_some_iff.mp ran
        obtain ⟨type, found, ran⟩ := Option.bind_eq_some_iff.mp ran
        rw [place, Option.bind_eq_bind, Option.bind_some, found, Option.bind_eq_bind,
          Option.bind_some] at ran'
        dsimp only at ran ran'
        by_cases dynamic : type = ptDynamic ∨ type = ptShlib
        · rw [if_pos dynamic] at ran ran'
          cases ran
          cases ran'
          rfl
        · rw [if_neg dynamic, passSegment, if_neg (pretends type)] at ran ran'
          obtain ⟨passed, same, ran⟩ := Option.bind_eq_some_iff.mp ran
          obtain ⟨passed', same', ran'⟩ := Option.bind_eq_some_iff.mp ran'
          cases same
          cases same'
          obtain ⟨later, rest, ran⟩ := Option.bind_eq_some_iff.mp ran
          obtain ⟨later', rest', ran'⟩ := Option.bind_eq_some_iff.mp ran'
          cases ran
          cases ran'
          exact ih rest rest'
      · rw [if_neg more] at ran ran'
        cases ran
        cases ran'
        rfl

/-- Nor for `load_elf`. -/
theorem loadElf_unique {pages' turns' : Nat} {checked checked' : Loaded}
    (ran : m.loadElf blocks pages turns image true = some checked)
    (ran' : m.loadElf blocks pages' turns' image true = some checked') :
    checked.code = checked'.code := by
  unfold loadElf at ran ran'
  by_cases null : image = 0
  · rw [if_pos null] at ran ran'
    cases ran
    cases ran'
    rfl
  · rw [if_neg null] at ran ran'
    obtain ⟨⟨code, tested⟩, tests, ran⟩ := Option.bind_eq_some_iff.mp ran
    rw [tests, Option.bind_eq_bind, Option.bind_some] at ran'
    dsimp only at ran ran'
    by_cases failure : code ≠ .success
    · rw [if_pos failure] at ran ran'
      cases ran
      cases ran'
      rfl
    · rw [if_neg failure] at ran ran'
      obtain ⟨entry, found, ran⟩ := Option.bind_eq_some_iff.mp ran
      rw [found, Option.bind_eq_bind, Option.bind_some] at ran'
      obtain ⟨⟨_, _, _⟩, segments, ran⟩ := Option.bind_eq_some_iff.mp ran
      obtain ⟨⟨_, _, _⟩, segments', ran'⟩ := Option.bind_eq_some_iff.mp ran'
      cases ran
      cases ran'
      exact loadSegments_unique segments segments'

/-- `load_elf` for an image that passes the tests. -/
theorem loadElf_of_passes {pretend : Bool} {tested : Reads} {entry : Nat} (null : image ≠ 0)
    (tests : m.testHeader image headerTests = some (code, tested)) (success : code = .success)
    (found : m.field image eEntry = some entry) :
    m.loadElf blocks pages turns image pretend =
      (m.loadSegments blocks pages image pretend turns 0).bind fun later =>
        some ⟨later.1, some entry, later.2.1, tested ++ [eEntry.span image] ++ later.2.2⟩ := by
  rw [loadElf, if_neg null, tests]
  change (if code ≠ .success then _ else _) = _
  rw [if_neg (not_not.mpr success), found]
  rfl

/-- `load_elf` for an image that fails a test. -/
theorem loadElf_of_fails {pretend : Bool} {tested : Reads} (null : image ≠ 0)
    (tests : m.testHeader image headerTests = some (code, tested)) (failure : code ≠ .success) :
    m.loadElf blocks pages turns image pretend =
      some { code, machine := m, reads := tested } := by
  rw [loadElf, if_neg null, tests]
  change (if code ≠ .success then _ else _) = _
  rw [if_pos failure]

section Validate

variable (sound : m.Sound) (held : m.HoldsImage image n)

include sound held

/-- The tests and the entry can be read. -/
theorem HoldsImage.tests : ∃ code tested entry,
    m.testHeader image headerTests = some (code, tested) ∧ m.field image eEntry = some entry := by
  have bound := held.buffer.small
  have header := held.header
  have small : n ≤ uintWidth := Nat.le_trans (Nat.le_add_left n image) bound
  have fit : ∀ test ∈ headerTests, test.1.offset + test.1.size ≤ n := by
    have all : ∀ test ∈ headerTests, test.1.offset + test.1.size ≤ 46 := by decide
    exact fun test member => Nat.le_trans (all test member) header
  obtain ⟨code, tested, tests, _⟩ :=
    (testHeader_inside sound held.buffer headerTests).mpr (testsFit_of_le small fit)
  have span : Covers image n (uadd image eEntry.offset) eEntry.size :=
    (covers_iff bound).mpr (inFile_of_le (Nat.le_trans (by decide) header) small)
  obtain ⟨entry, found⟩ := held.buffer.field sound span
  exact ⟨code, tested, entry, tests, found⟩

/-- When the second call returns, the first one has told what. -/
theorem HoldsImage.agree {loaded : Loaded}
    (ran : m.loadElf blocks pages turns image false = some loaded) :
    (∃ checked, m.loadElf blocks pages turns image true = some checked ∧
      checked.code = loaded.code ∧ checked.entry = loaded.entry) ∧
    (image ≠ 0 → m.Passes image headerTests →
      Turns (fun off m => m.CanStore image off) blocks image n false 0 m) := by
  by_cases null : image = 0
  · rw [loadElf, if_pos null] at ran ⊢
    exact ⟨⟨loaded, ran, rfl, rfl⟩, fun nonnull => absurd null nonnull⟩
  obtain ⟨code, tested, entry, tests, found⟩ := held.tests sound
  have passes := testHeader_code headerTests_codes tests
  by_cases success : code = .success
  · rw [loadElf_of_passes null tests success found] at ran ⊢
    obtain ⟨⟨code', m', reads⟩, segments, ran⟩ := Option.bind_eq_some_iff.mp ran
    cases ran
    obtain ⟨⟨reads', checks⟩, goes⟩ := loadSegments_agree (held.segments (passes.mp success))
      held.header (.refl sound held.buffer) segments
    rw [checks]
    exact ⟨⟨_, rfl, rfl, rfl⟩, fun _ _ => goes⟩
  · refine ⟨⟨loaded, ?_, rfl, rfl⟩, fun _ passed => absurd (passes.mpr passed) success⟩
    rw [loadElf_of_fails null tests success] at ran ⊢
    exact ran

/-- The second call returns when each segment can be stored in its turn. -/
theorem HoldsImage.returns (stores : image ≠ 0 → m.Passes image headerTests →
    Turns (fun off m => m.CanStore image off) blocks image n false 0 m) :
    ∃ pages turns loaded, m.loadElf blocks pages turns image false = some loaded := by
  by_cases null : image = 0
  · refine ⟨0, 0, { code := .invarg, machine := m }, ?_⟩
    rw [loadElf, if_pos null]
  obtain ⟨code, tested, entry, tests, found⟩ := held.tests sound
  have passes := testHeader_code headerTests_codes tests
  by_cases success : code = .success
  · have passed := passes.mp success
    obtain ⟨turns, code', m', reads, segments⟩ := loadSegments_returns (held.segments passed)
      held.header (.refl sound held.buffer) (stores null passed)
    refine ⟨pageTurns, turns, ⟨code', some entry, m', tested ++ [eEntry.span image] ++ reads⟩, ?_⟩
    rw [loadElf_of_passes null tests success found, segments]
    rfl
  · exact ⟨0, 0, _, loadElf_of_fails null tests success⟩

/-- An image that is refused is refused by the first call. -/
theorem HoldsImage.refused {err : Int}
    (ran : m.loadImage blocks pages turns image = some (.error err, m')) : m' = m := by
  unfold loadImage at ran
  obtain ⟨checked, first, ran⟩ := Option.bind_eq_some_iff.mp ran
  have still := loadElf_still first
  split at ran
  · cases ran
    exact still
  · rename_i success
    rw [still] at ran
    obtain ⟨loaded, second, ran⟩ := Option.bind_eq_some_iff.mp ran
    obtain ⟨⟨checked', first', codes, _⟩, _⟩ := held.agree sound second
    rw [first] at first'
    cases first'
    rw [codes] at success
    rw [if_neg success] at ran
    cases ran

end Validate

/-- What the loop looks at is determined. -/
theorem LooksAt.unique {off' type' : Nat} (first : m.LooksAt image n i off type)
    (second : m.LooksAt image n i off' type') : off = off' ∧ type = type' := by
  obtain ⟨phnum, phoff, phentsize, table, _, rfl, _, found⟩ := first
  obtain ⟨phnum', phoff', phentsize', table', _, rfl, _, found'⟩ := second
  cases Option.some.inj (table.phoff.symm.trans table'.phoff)
  cases Option.some.inj (table.phentsize.symm.trans table'.phentsize)
  exact ⟨rfl, Option.some.inj (found.symm.trans found')⟩

/-- A segment that is looked at was ready to be loaded. -/
theorem Turns.ready {can : Nat → Machine → Prop} (goes : Turns can blocks image n false i m)
    (looks : m.LooksAt image n i off ptLoad) : can off m := by
  cases goes with
  | done behind =>
    obtain ⟨phnum, counted, last⟩ := behind
    obtain ⟨phnum', _, _, table, more, _⟩ := looks
    cases Option.some.inj (counted.symm.trans table.phnum)
    omega
  | dynamic looks' dynamic =>
    obtain ⟨_, rfl⟩ := looks'.unique looks
    exact absurd dynamic (by decide)
  | pass looks' _ other =>
    obtain ⟨_, rfl⟩ := looks'.unique looks
    exact absurd ⟨rfl, rfl⟩ other
  | load looks' _ can =>
    obtain ⟨rfl, _⟩ := looks'.unique looks
    exact can

/-! ## A small image -/

section Small

variable {filesz memsz : Nat}

/-- The fields of a small image. -/
structure SmallFields (vaddr filesz memsz : Nat) : Prop where
  table : (imageMachine (smallImage ptLoad vaddr filesz memsz)).HeaderTable 4096 1 52 32
  type : (imageMachine (smallImage ptLoad vaddr filesz memsz)).field 4148 pType = some ptLoad
  header : (imageMachine (smallImage ptLoad vaddr filesz memsz)).ProgramHeader 4148 84 vaddr filesz
    memsz

variable (small : SmallFields vaddr filesz memsz)

include small

/-- The loop looks at its program header first. -/
theorem SmallFields.looks :
    (imageMachine (smallImage ptLoad vaddr filesz memsz)).LooksAt 4096 87 0 52 ptLoad :=
  ⟨1, 52, 32, small.table, by decide, by decide, inFile_of_le (by decide) (by decide), small.type⟩

/-- A small image is held apart from its segment. -/
theorem SmallFields.holds (apart : ∀ j < memsz, ¬InBuffer 4096 87 (uadd vaddr j)) :
    (imageMachine (smallImage ptLoad vaddr filesz memsz)).HoldsImage 4096 87 := by
  refine ⟨imageMachine_buffer _ (by decide), by decide, fun _ => ⟨?_, ?_⟩⟩
  · intro phnum phoff phentsize table i more
    cases Option.some.inj (table.phnum.symm.trans small.table.phnum)
    cases Option.some.inj (table.phoff.symm.trans small.table.phoff)
    cases Option.some.inj (table.phentsize.symm.trans small.table.phentsize)
    cases Nat.lt_one_iff.mp more
    exact inFile_of_le (by decide) (by decide)
  · intro phnum phoff phentsize table i more _ offset vaddr' filesz' memsz' header
    cases Option.some.inj (table.phnum.symm.trans small.table.phnum)
    cases Option.some.inj (table.phoff.symm.trans small.table.phoff)
    cases Option.some.inj (table.phentsize.symm.trans small.table.phentsize)
    cases Nat.lt_one_iff.mp more
    cases Option.some.inj (header.vaddr.symm.trans small.header.vaddr)
    cases Option.some.inj (header.memsz.symm.trans small.header.memsz)
    exact apart

end Small

/-- The fields of an image with a segment of three bytes. -/
theorem threeBytes_fields : SmallFields 0x2000 3 3 :=
  ⟨⟨by decide, by decide, by decide⟩, by decide, threeBytes_header⟩

end Machine

end Nupkux
