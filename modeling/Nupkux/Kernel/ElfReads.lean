import Nupkux.Kernel.ElfSegment

/-!
# What `load_elf` reads of an image

`load_elf` takes offsets, counts and sizes from the image and compares none of them with the size
of the file. Its reads stay in the buffer only if the image is made so, and the loop over the
pages of a segment does not end when the segment reaches into the last page of the address space:
the counter wraps.
-/

namespace Nupkux

namespace Machine

/-- The reads are in a buffer. -/
def ReadsInside (image n : Nat) (reads : Reads) : Prop := ∀ read ∈ reads, Covers image n read.1 read.2

/-- `load_elf` ends, and reads bytes of a buffer only. -/
def ReadsImage (blocks : PageBlocks) (image n : Nat) (pretend : Bool) (m : Machine) : Prop :=
  ∃ pages turns loaded, m.loadElf blocks pages turns image pretend = some loaded ∧
    ReadsInside image n loaded.reads

/-- So many bytes from an offset on are in a file of `n` bytes. Offsets are UINTs. -/
def InFile (n off count : Nat) : Prop := ∀ j < count, uadd off j < n

/-- Every field that is tested is in the file. -/
def TestsFit (image n : Nat) (m : Machine) : List (Field × Nat × LoadElf) → Prop
  | [] => True
  | (f, value, _) :: tests =>
    InFile n f.offset f.size ∧ (m.field image f = some value → TestsFit image n m tests)

/-- The image passes tests. -/
def Passes (image : Nat) (m : Machine) (tests : List (Field × Nat × LoadElf)) : Prop :=
  ∀ test ∈ tests, m.field image test.1 = some test.2.1

/-- The table of program headers: `e_phnum`, `e_phoff` and `e_phentsize`. -/
structure HeaderTable (m : Machine) (image phnum phoff phentsize : Nat) : Prop where
  phnum : m.field image ePhnum = some phnum
  phoff : m.field image ePhoff = some phoff
  phentsize : m.field image ePhentsize = some phentsize

/-- Where the program header with an index is in the file. -/
def headerOffset (phoff phentsize i : Nat) : Nat := uadd phoff (umul i phentsize)

/-- The loop is behind the last program header. -/
def LooksBehind (m : Machine) (image i : Nat) : Prop :=
  ∃ phnum, m.field image ePhnum = some phnum ∧ phnum ≤ i

/-- The loop looks at a program header of a type, at an offset that is in the file. -/
def LooksAt (m : Machine) (image n i off type : Nat) : Prop :=
  ∃ phnum phoff phentsize, m.HeaderTable image phnum phoff phentsize ∧ i < phnum ∧
    off = headerOffset phoff phentsize i ∧ InFile n off 4 ∧
    m.field (uadd image off) pType = some type

/-- What a field of the structure at an address holds after so many bytes have been copied. -/
def fieldAfterCopy (m : Machine) (t s count base : Nat) (f : Field) : Option Nat :=
  valueOf (m.byteAfterCopy t s count) (uadd base f.offset) f.size

/-- A segment may be copied over its own header, which is then read again: there is memory for what
is filled with zeros. -/
def CanZero (image seg offset vaddr filesz memsz : Nat) (m : Machine) : Prop :=
  ∀ filesz' offset',
    m.fieldAfterCopy vaddr (uadd image offset) (copySize filesz memsz) seg pFilesz = some filesz' →
    m.fieldAfterCopy vaddr (uadd image offset) (copySize filesz memsz) seg pOffset = some offset' →
    ∀ j < copySize filesz memsz - filesz', m.WillReach (alignDown vaddr) (uadd vaddr memsz)
      (uadd (uadd (uadd image offset') filesz') j)

/-- A segment can be loaded: its header and its bytes are in the file, its loop over pages ends,
and there is memory to store it. -/
def CanLoad (image n off : Nat) (m : Machine) : Prop :=
  (∀ f ∈ [pFilesz, pVaddr, pMemsz, pOffset], InFile n (uadd off f.offset) f.size) ∧
  ∀ offset vaddr filesz memsz, m.ProgramHeader (uadd image off) offset vaddr filesz memsz →
    (uadd vaddr memsz ≤ alignDown vaddr ∨ uadd vaddr memsz ≤ lastPage) ∧
    InFile n offset (copySize filesz memsz) ∧
    (∀ j < copySize filesz memsz,
      m.WillReach (alignDown vaddr) (uadd vaddr memsz) (uadd vaddr j)) ∧
    m.CanZero image (uadd image off) offset vaddr filesz memsz

/-- At each turn of the loop over program headers from one on, whatever the segments before have done
to memory, the header is in the file, and a segment that is loaded can be, in a given sense. -/
inductive Turns (can : Nat → Machine → Prop) (blocks : PageBlocks) (image n : Nat)
    (pretend : Bool) : Nat → Machine → Prop
  | done {i : Nat} {m : Machine} (behind : m.LooksBehind image i) :
      Turns can blocks image n pretend i m
  | dynamic {i off type : Nat} {m : Machine} (looks : m.LooksAt image n i off type)
      (dynamic : type = ptDynamic ∨ type = ptShlib) : Turns can blocks image n pretend i m
  | pass {i off type : Nat} {m : Machine} (looks : m.LooksAt image n i off type)
      (static : ¬(type = ptDynamic ∨ type = ptShlib)) (other : ¬(type = ptLoad ∧ pretend = false))
      (rest : Turns can blocks image n pretend (i + 1) m) : Turns can blocks image n pretend i m
  | load {i off : Nat} {m : Machine} (looks : m.LooksAt image n i off ptLoad)
      (real : pretend = false) (ready : can off m)
      (rest : ∀ pages m' reads,
        m.elfLoadSegment blocks pages image (uadd image off) = some (m', reads) →
          Turns can blocks image n pretend (i + 1) m') : Turns can blocks image n pretend i m

/-- The turns of `load_elf` from a program header on stay in the file and end. -/
abbrev SafeTurns (blocks : PageBlocks) (image n : Nat) (pretend : Bool) : Nat → Machine → Prop :=
  Turns (fun off m => m.CanLoad image n off) blocks image n pretend

/-- The second machine still has the image. -/
structure SameImage (m m' : Machine) (image n : Nat) : Prop where
  sound : m'.Sound
  buffer : m'.Buffer image n
  bytes : ∀ a, InBuffer image n a → m'.byte a = m.byte a

variable {m m' m'' m₁ : Machine} {blocks : PageBlocks} {n a q seg base turns pages image : Nat}
  {offset vaddr filesz memsz size count start off i : Nat} {f : Field} {pretend : Bool}
  {phnum phoff phentsize : Nat}

/-! ## Ranges of the file -/

/-- Bytes of the buffer are bytes of the file. -/
theorem covers_iff (bound : image + n ≤ uintWidth) :
    Covers image n (uadd image off) count ↔ InFile n off count := by
  refine forall_congr' fun j => imp_congr_right fun _ => ?_
  unfold InBuffer
  simp only [uadd, uintWidth] at *
  omega

/-- Bytes of a field of a structure. -/
theorem covers_field_iff (bound : image + n ≤ uintWidth) :
    Covers image n (uadd (uadd image off) f.offset) f.size ↔
      InFile n (uadd off f.offset) f.size := by
  have same : uadd (uadd image off) f.offset = uadd image (uadd off f.offset) := by
    simp only [uadd, uintWidth]
    omega
  rw [same, covers_iff bound]

/-- Fields of the file header. -/
theorem inFile_of_le (inside : off + count ≤ n) (small : n ≤ uintWidth) : InFile n off count := by
  intro j less
  rw [uadd_of_lt (by omega)]
  omega

/-- A field in the buffer can be read. -/
theorem Buffer.field (buffer : m.Buffer image n) (sound : m.Sound)
    (covers : Covers image n (uadd base f.offset) f.size) : ∃ value, m.field base f = some value :=
  Option.isSome_iff_exists.mp (value_isSome.mpr (buffer.mapped sound covers))

/-- The fields of a program header in a buffer can be read. -/
theorem Buffer.programHeader (buffer : m.Buffer image n) (sound : m.Sound)
    (covers : CoversHeader image n seg) :
    ∃ offset vaddr filesz memsz, m.ProgramHeader seg offset vaddr filesz memsz := by
  obtain ⟨offset, place⟩ := buffer.field sound (covers pOffset (by decide))
  obtain ⟨vaddr, target⟩ := buffer.field sound (covers pVaddr (by decide))
  obtain ⟨filesz, file⟩ := buffer.field sound (covers pFilesz (by decide))
  obtain ⟨memsz, memory⟩ := buffer.field sound (covers pMemsz (by decide))
  exact ⟨offset, vaddr, filesz, memsz, place, target, file, memory⟩

/-! ## The file header -/

/-- What the tests return. -/
theorem testHeader_code {tests : List (Field × Nat × LoadElf)} {code : LoadElf} {reads : Reads}
    (codes : ∀ test ∈ tests, test.2.2 ≠ .success)
    (ran : m.testHeader image tests = some (code, reads)) :
    code = .success ↔ m.Passes image tests := by
  induction tests generalizing code reads with
  | nil =>
    cases ran
    exact iff_of_true rfl fun test member => absurd member List.not_mem_nil
  | cons test tests ih =>
    obtain ⟨f, value, failure⟩ := test
    rw [testHeader] at ran
    obtain ⟨found, read, rest⟩ := Option.bind_eq_some_iff.mp ran
    unfold Passes
    rw [List.forall_mem_cons, read, Option.some.injEq]
    by_cases same : found = value
    · rw [if_neg (not_not.mpr same)] at rest
      obtain ⟨result, later, done⟩ := Option.bind_eq_some_iff.mp rest
      cases done
      rw [ih (fun test member => codes test (List.mem_cons_of_mem _ member)) later]
      exact ⟨fun passes => ⟨same, passes⟩, And.right⟩
    · rw [if_pos same] at rest
      cases rest
      exact iff_of_false (codes _ List.mem_cons_self) fun both => same both.1

/-- The tests stay in the buffer if and only if the fields that are tested are in the file. -/
theorem testHeader_inside (sound : m.Sound) (buffer : m.Buffer image n)
    (tests : List (Field × Nat × LoadElf)) :
    (∃ code reads, m.testHeader image tests = some (code, reads) ∧
      ReadsInside image n reads) ↔ TestsFit image n m tests := by
  induction tests with
  | nil => exact iff_of_true ⟨_, _, rfl, fun _ member => absurd member List.not_mem_nil⟩ trivial
  | cons test tests ih =>
    obtain ⟨f, value, failure⟩ := test
    have covers : Covers image n (uadd image f.offset) f.size ↔ InFile n f.offset f.size :=
      covers_iff buffer.small
    rw [TestsFit]
    constructor
    · rintro ⟨code, reads, ran, inside⟩
      rw [testHeader] at ran
      obtain ⟨found, read, rest⟩ := Option.bind_eq_some_iff.mp ran
      by_cases same : found = value
      · rw [if_neg (not_not.mpr same)] at rest
        obtain ⟨result, later, done⟩ := Option.bind_eq_some_iff.mp rest
        cases done
        obtain ⟨first, others⟩ := List.forall_mem_cons.mp inside
        exact ⟨covers.mp first, fun _ => ih.mp ⟨_, _, later, others⟩⟩
      · rw [if_pos same] at rest
        cases rest
        refine ⟨covers.mp (inside _ (List.mem_singleton_self _)), fun equal => ?_⟩
        rw [read, Option.some.injEq] at equal
        exact absurd equal same
    · rintro ⟨first, others⟩
      have span := covers.mpr first
      obtain ⟨found, read⟩ := buffer.field sound span
      rw [testHeader, read]
      by_cases same : found = value
      · rw [same] at read
        obtain ⟨code, reads, later, inside⟩ := ih.mpr (others read)
        refine ⟨code, f.span image :: reads, ?_, List.forall_mem_cons.mpr ⟨span, inside⟩⟩
        change (if found ≠ value then _ else _) = _
        rw [if_neg (not_not.mpr same), later]
        rfl
      · refine ⟨failure, [f.span image], ?_, fun read member => ?_⟩
        · change (if found ≠ value then _ else _) = _
          rw [if_pos same]
        · rw [List.mem_singleton.mp member]
          exact span

/-! ## One segment -/

/-- What `elf_load_segment` reads: the fields of the program header, and a range. -/
theorem elfLoadSegment_reads {reads : Reads}
    (ran : m.elfLoadSegment blocks pages image seg = some (m', reads)) :
    ∃ range, reads =
      [pFilesz.span seg, pVaddr.span seg, pMemsz.span seg, pOffset.span seg, range] := by
  unfold elfLoadSegment at ran
  obtain ⟨filesz, _, ran⟩ := Option.bind_eq_some_iff.mp ran
  obtain ⟨vaddr, _, ran⟩ := Option.bind_eq_some_iff.mp ran
  obtain ⟨m₁, _, ran⟩ := Option.bind_eq_some_iff.mp ran
  obtain ⟨memsz, _, ran⟩ := Option.bind_eq_some_iff.mp ran
  obtain ⟨vaddr', _, ran⟩ := Option.bind_eq_some_iff.mp ran
  obtain ⟨offset, _, ran⟩ := Option.bind_eq_some_iff.mp ran
  obtain ⟨m₂, _, ran⟩ := Option.bind_eq_some_iff.mp ran
  obtain ⟨m₃, _, ran⟩ := Option.bind_eq_some_iff.mp ran
  cases ran
  exact ⟨_, rfl⟩

/-- Filling with zeros keeps the page tables. -/
theorem zeroSegment_same (ran : m.zeroSegment image seg size = some m') : SamePages m m' := by
  unfold zeroSegment at ran
  obtain ⟨filesz, _, ran⟩ := Option.bind_eq_some_iff.mp ran
  split at ran
  · obtain ⟨offset, _, ran⟩ := Option.bind_eq_some_iff.mp ran
    exact (memset_frame ran).same
  · cases ran
    exact .refl m

/-- Page boundaries. -/
theorem alignDown_spec (range : vaddr < uintWidth) :
    alignDown vaddr % frameSize = 0 ∧ alignDown vaddr < uintWidth := by
  simp only [alignDown, frameSize, uintWidth] at *
  omega

/-- The header of a segment can be read again after the segment is copied. -/
theorem zeroSegment_isSome (sound : m.Sound) (buffer : m.Buffer image n)
    (covers : CoversHeader image n seg) :
    (m.zeroSegment image seg size).isSome ↔ ∀ filesz offset, m.field seg pFilesz = some filesz →
      m.field seg pOffset = some offset →
        m.Mapped (uadd (uadd image offset) filesz) (size - filesz) := by
  obtain ⟨filesz, file⟩ := buffer.field sound (covers pFilesz (by decide))
  obtain ⟨offset, place⟩ := buffer.field sound (covers pOffset (by decide))
  have only : (∀ filesz' offset', m.field seg pFilesz = some filesz' →
      m.field seg pOffset = some offset' →
        m.Mapped (uadd (uadd image offset') filesz') (size - filesz')) ↔
      m.Mapped (uadd (uadd image offset) filesz) (size - filesz) := by
    constructor
    · exact fun can => can filesz offset file place
    · intro mapped filesz' offset' same same'
      cases file.symm.trans same
      cases place.symm.trans same'
      exact mapped
  unfold zeroSegment
  rw [only, file, place]
  change (if filesz < size then _ else some m).isSome ↔ _
  split
  · exact memset_isSome
  · rename_i enough
    rw [Nat.sub_eq_zero_of_le (Nat.le_of_not_lt enough)]
    exact iff_of_true rfl fun j less => absurd less (Nat.not_lt_zero j)

/-- Where there is memory for what is filled with zeros is seen before the segment is copied. -/
theorem zeroSegment_iff_canZero (sound : m.Sound) (buffer : m.Buffer image n)
    (covers : CoversHeader image n seg) (header : m.ProgramHeader seg offset vaddr filesz memsz)
    (ends : uadd vaddr memsz ≤ alignDown vaddr ∨ uadd vaddr memsz ≤ lastPage)
    (source : Covers image n (uadd image offset) (copySize filesz memsz))
    (maps : mapPages blocks (fun _ => some (uadd vaddr memsz)) turns (alignDown vaddr) m = some m₁)
    (copied : memcpy vaddr (uadd image offset) (copySize filesz memsz) m₁ = some m') :
    (m'.zeroSegment image seg (copySize filesz memsz)).isSome ↔
      m.CanZero image seg offset vaddr filesz memsz := by
  have range := header.range
  have bounds := alignDown_spec range.2.1
  have grown := mapPages_grown sound bounds.2 maps
  have same := (memcpy_frame copied).same
  have buffer₁ := buffer.grown grown
  have small := copySize_le filesz memsz
  have kept {a : Nat} (inside : InBuffer image n a) : m₁.byte a = m.byte a :=
    grown.byte sound (buffer.held a inside).1
  have byte {a : Nat} (inside : InBuffer image n a) :
      m'.byte a = m.byteAfterCopy vaddr (uadd image offset) (copySize filesz memsz) a := by
    have below := Nat.lt_of_lt_of_le inside.2 buffer.small
    rw [memcpy_byte grown.sound range.2.1 (uadd_lt ..) copied (by omega)
      (fun j less => (buffer₁.held _ (source j less)).1) below (buffer₁.held _ inside).1]
    unfold byteAfterCopy
    split
    · rename_i target
      exact kept (source _ (Nat.lt_of_le_of_lt (Nat.mod_le ..) target))
    · exact kept inside
  have field (f : Field) (member : f ∈ [pFilesz, pVaddr, pMemsz, pOffset]) : m'.field seg f =
      m.fieldAfterCopy vaddr (uadd image offset) (copySize filesz memsz) seg f :=
    value_eq_valueOf fun i less => byte (covers f member i less)
  rw [zeroSegment_isSome (same.sound grown.sound) (buffer₁.same same) covers,
    field pFilesz (by decide), field pOffset (by decide)]
  refine forall_congr' fun filesz' => forall_congr' fun offset' => imp_congr_right fun _ =>
    imp_congr_right fun _ => forall_congr' fun j => imp_congr_right fun _ => ?_
  rw [same.translate]
  exact mapPages_reaches sound bounds.1 bounds.2 ends maps _

/-- The reads of a segment. -/
theorem segmentReads_inside : ReadsInside image n (segmentReads image seg offset filesz memsz) ↔
    CoversHeader image n seg ∧ Covers image n (uadd image offset) (copySize filesz memsz) := by
  unfold ReadsInside CoversHeader segmentReads
  simp only [List.forall_mem_cons, List.not_mem_nil, false_imp_iff, implies_true, and_true,
    Field.span, and_assoc]

/-- A segment that was loaded from the buffer could be, and the machine is still sound. -/
theorem elfLoadSegment_can {reads : Reads} (sound : m.Sound) (buffer : m.Buffer image n)
    (ran : m.elfLoadSegment blocks pages image (uadd image off) = some (m', reads))
    (inside : ReadsInside image n reads) : m.CanLoad image n off := by
  obtain ⟨range, list⟩ := elfLoadSegment_reads ran
  have covers : CoversHeader image n (uadd image off) := by
    rw [list] at inside
    unfold ReadsInside at inside
    unfold CoversHeader
    simp only [List.forall_mem_cons, List.not_mem_nil, false_imp_iff, implies_true, and_true,
      Field.span] at *
    exact ⟨inside.1, inside.2.1, inside.2.2.1, inside.2.2.2.1⟩
  refine ⟨fun f member => (covers_field_iff buffer.small).mp (covers f member),
    fun offset vaddr filesz memsz header => ?_⟩
  have bounds := alignDown_spec header.range.2.1
  rw [elfLoadSegment_eq sound buffer covers header] at ran
  obtain ⟨m₁, maps, ran⟩ := Option.bind_eq_some_iff.mp ran
  obtain ⟨m₂, copied, ran⟩ := Option.bind_eq_some_iff.mp ran
  obtain ⟨m₃, zeroed, ran⟩ := Option.bind_eq_some_iff.mp ran
  cases ran
  have ends := (mapPages_isSome bounds.1 bounds.2).mp ⟨pages, by rw [maps]; rfl⟩
  have targets := (memcpy_isSome.mp (by rw [copied]; rfl)).1
  have source := (segmentReads_inside.mp inside).2
  exact ⟨ends, (covers_iff buffer.small).mp source, fun j less =>
    (mapPages_reaches sound bounds.1 bounds.2 ends maps _).mp (targets j less),
    (zeroSegment_iff_canZero sound buffer covers header ends source maps copied).mp
      (by rw [zeroed]; rfl)⟩

/-- A segment that can be loaded from the buffer is. -/
theorem CanLoad.loads (can : m.CanLoad image n off) (sound : m.Sound)
    (buffer : m.Buffer image n) :
    ∃ m' reads, m.elfLoadSegment blocks pageTurns image (uadd image off) = some (m', reads) ∧
      ReadsInside image n reads ∧ m'.Sound ∧ m'.Buffer image n := by
  have covers : CoversHeader image n (uadd image off) :=
    fun f member => (covers_field_iff buffer.small).mpr (can.1 f member)
  obtain ⟨offset, vaddr, filesz, memsz, header⟩ := buffer.programHeader sound covers
  have bounds := alignDown_spec header.range.2.1
  obtain ⟨ends, range, reach, zeros⟩ := can.2 offset vaddr filesz memsz header
  obtain ⟨m₁, maps⟩ := Option.isSome_iff_exists.mp
    (@mapPages_returns m blocks (alignDown vaddr) (uadd vaddr memsz) bounds.1 bounds.2 ends)
  have grown := mapPages_grown sound bounds.2 maps
  have reaches := mapPages_reaches sound bounds.1 bounds.2 ends maps
  have source := (covers_iff buffer.small).mpr range
  obtain ⟨m₂, copied⟩ := Option.isSome_iff_exists.mp
    (memcpy_isSome.mpr ⟨fun j less => (reaches _).mpr (reach j less),
      (buffer.grown grown).mapped grown.sound source⟩)
  have same := (memcpy_frame copied).same
  have sound₂ := same.sound grown.sound
  have buffer₂ := (buffer.grown grown).same same
  obtain ⟨m₃, zeroed⟩ := Option.isSome_iff_exists.mp
    ((zeroSegment_iff_canZero sound buffer covers header ends source maps copied).mpr zeros)
  have same₃ := zeroSegment_same zeroed
  refine ⟨m₃, segmentReads image (uadd image off) offset filesz memsz, ?_,
    segmentReads_inside.mpr ⟨covers, source⟩, same₃.sound sound₂, buffer₂.same same₃⟩
  rw [elfLoadSegment_eq sound buffer covers header, maps, Option.bind_some, copied,
    Option.bind_some, zeroed]
  rfl

/-- The machine after a segment is loaded is sound and has the buffer, and more turns would not
have changed it. -/
theorem elfLoadSegment_spec {reads : Reads} (sound : m.Sound) (buffer : m.Buffer image n)
    (covers : CoversHeader image n seg)
    (ran : m.elfLoadSegment blocks pages image seg = some (m', reads)) :
    m'.Sound ∧ m'.Buffer image n ∧ ∀ pages' after,
      m.elfLoadSegment blocks pages' image seg = some after → after = (m', reads) := by
  obtain ⟨offset, vaddr, filesz, memsz, header⟩ := buffer.programHeader sound covers
  have bounds := alignDown_spec header.range.2.1
  have run := fun pages => @elfLoadSegment_eq m blocks n seg pages image offset vaddr filesz memsz
    sound buffer covers header
  rw [run] at ran
  obtain ⟨m₁, maps, ran⟩ := Option.bind_eq_some_iff.mp ran
  obtain ⟨m₂, copied, rest⟩ := Option.bind_eq_some_iff.mp ran
  obtain ⟨m₃, zeroed, done⟩ := Option.bind_eq_some_iff.mp rest
  cases done
  have grown := mapPages_grown sound bounds.2 maps
  have same := (memcpy_frame copied).same.trans (zeroSegment_same zeroed)
  refine ⟨same.sound grown.sound, (buffer.grown grown).same same, fun pages' after ran' => ?_⟩
  rw [run] at ran'
  obtain ⟨m₁', maps', ran'⟩ := Option.bind_eq_some_iff.mp ran'
  cases mapPages_unique maps maps'
  exact Option.some.inj (ran'.symm.trans ran)

/-! ## A segment apart from the image -/

section Apart

variable (sound : m.Sound) (buffer : m.Buffer image n)
  (covers : CoversHeader image n (uadd image off))
  (header : m.ProgramHeader (uadd image off) offset vaddr filesz memsz)
  (apart : ∀ j < memsz, ¬InBuffer image n (uadd vaddr j))

include sound buffer covers header apart

/-- Pages and bytes. -/
theorem apart_run (pages : Nat) : m.elfLoadSegment blocks pages image (uadd image off) =
    (mapPages blocks (fun _ => some (uadd vaddr memsz)) pages (alignDown vaddr) m).bind fun m =>
      (memcpy vaddr (uadd image offset) (copySize filesz memsz) m).bind fun m =>
        some (m, segmentReads image (uadd image off) offset filesz memsz) :=
  elfLoadSegment_of_apart sound buffer covers header fun j less =>
    apart j (Nat.lt_of_lt_of_le less (copySize_le filesz memsz).2)

/-- Loading it keeps the image. -/
theorem apart_image {reads : Reads}
    (ran : m.elfLoadSegment blocks pages image (uadd image off) = some (m', reads)) :
    SameImage m m' image n := by
  have bounds := alignDown_spec header.range.2.1
  obtain ⟨sound', buffer', _⟩ := elfLoadSegment_spec sound buffer covers ran
  refine ⟨sound', buffer', fun a inside => ?_⟩
  rw [apart_run sound buffer covers header apart] at ran
  obtain ⟨m₁, maps, ran⟩ := Option.bind_eq_some_iff.mp ran
  obtain ⟨m₂, copied, ran⟩ := Option.bind_eq_some_iff.mp ran
  cases ran
  have grown := mapPages_grown sound bounds.2 maps
  have size := copySize_le filesz memsz
  have held := ((buffer.grown grown).held a inside).1
  have kept := memcpy_elsewhere grown.sound copied (.inl held) fun j less same =>
    apart j (Nat.lt_of_lt_of_le less size.2) (same ▸ inside)
  rw [kept]
  exact grown.byte sound (buffer.held a inside).1

omit sound in
/-- Nothing is filled with zeros. -/
theorem apart_canZero : m.CanZero image (uadd image off) offset vaddr filesz memsz := by
  intro filesz' offset' file _ j less
  have size := copySize_le filesz memsz
  have kept : m.field (uadd image off) pFilesz = m.fieldAfterCopy vaddr (uadd image offset)
      (copySize filesz memsz) (uadd image off) pFilesz := by
    refine value_eq_valueOf fun i inside => ?_
    have here := covers pFilesz (by decide) i inside
    refine (if_neg fun target => ?_).symm
    have below := Nat.lt_of_lt_of_le here.2 buffer.small
    have back : uadd vaddr (usub (uadd (uadd (uadd image off) pFilesz.offset) i) vaddr) =
        uadd (uadd (uadd image off) pFilesz.offset) i := by
      have range := header.range.2.1
      generalize uadd (uadd (uadd image off) pFilesz.offset) i = place at *
      simp only [uadd, usub, uintWidth] at *
      omega
    refine apart _ (Nat.lt_of_lt_of_le target size.2) ?_
    rwa [back]
  cases file.symm.trans (kept.symm.trans header.filesz)
  omega

end Apart

/-! ## The program headers -/

/-- What a turn of the loop over program headers reads before it knows what to do. -/
def headReads (image off : Nat) : Reads :=
  [ePhnum.span image, ePhoff.span image, ePhentsize.span image, pType.span (uadd image off)]

/-- One turn of the loop over program headers. -/
theorem loadSegments_succ (table : m.HeaderTable image phnum phoff phentsize) :
    m.loadSegments blocks pages image pretend (turns + 1) i =
      if i < phnum then
        (m.field (uadd image (headerOffset phoff phentsize i)) pType).bind fun type =>
          if type = ptDynamic ∨ type = ptShlib then
            some (.dynamic, m, headReads image (headerOffset phoff phentsize i))
          else
            (m.passSegment blocks pages image pretend
              (uadd image (headerOffset phoff phentsize i)) type).bind fun passed =>
                (passed.1.loadSegments blocks pages image pretend turns (i + 1)).bind fun later =>
                  some (later.1, later.2.1,
                    headReads image (headerOffset phoff phentsize i) ++ passed.2 ++ later.2.2)
      else some (.success, m, [ePhnum.span image]) := by
  have place : uadd (uadd image phoff) (umul i phentsize) =
      uadd image (headerOffset phoff phentsize i) := by
    simp only [headerOffset, uadd, uintWidth]
    omega
  rw [loadSegments, segmentAt, table.phnum, table.phoff, table.phentsize]
  simp only [Option.bind_eq_bind, Option.bind_some, place]
  rfl

/-- The fields of the table are in a file of 46 bytes. -/
theorem Buffer.headerTable (buffer : m.Buffer image n) (sound : m.Sound) (fits : 46 ≤ n) :
    ∃ phnum phoff phentsize, m.HeaderTable image phnum phoff phentsize := by
  have small : n ≤ uintWidth := Nat.le_trans (Nat.le_add_left n image) buffer.small
  have field (f : Field) (inside : f.offset + f.size ≤ 46) : ∃ value, m.field image f = some value :=
    buffer.field sound ((covers_iff buffer.small).mpr (inFile_of_le (by omega) small))
  obtain ⟨phnum, first⟩ := field ePhnum (by decide)
  obtain ⟨phoff, second⟩ := field ePhoff (by decide)
  obtain ⟨phentsize, third⟩ := field ePhentsize (by decide)
  exact ⟨phnum, phoff, phentsize, first, second, third⟩

/-- The reads of a turn are in the buffer if the program header is. -/
theorem headReads_inside (bound : image + n ≤ uintWidth) (fits : 46 ≤ n) (range : off < uintWidth) :
    ReadsInside image n (headReads image off) ↔ InFile n off 4 := by
  have small : n ≤ uintWidth := Nat.le_trans (Nat.le_add_left n image) bound
  have table (f : Field) (inside : f.offset + f.size ≤ 46) :
      Covers image n (uadd image f.offset) f.size :=
    (covers_iff bound).mpr (inFile_of_le (by omega) small)
  have type : Covers image n (uadd (uadd image off) pType.offset) pType.size ↔ InFile n off 4 := by
    rw [covers_field_iff bound]
    have start : uadd off pType.offset = off := uadd_of_lt range
    rw [start]
    rfl
  unfold ReadsInside headReads
  simp only [List.forall_mem_cons, List.not_mem_nil, false_imp_iff, implies_true, and_true,
    Field.span]
  rw [type]
  exact ⟨fun all => all.2.2.2, fun last => ⟨table ePhnum (by decide), table ePhoff (by decide),
    table ePhentsize (by decide), last⟩⟩

/-- Reads one after another. -/
theorem readsInside_append {first second : Reads} : ReadsInside image n (first ++ second) ↔
    ReadsInside image n first ∧ ReadsInside image n second := List.forall_mem_append

/-- A loop over program headers that has stayed in the buffer was safe. -/
theorem loadSegments_safe {code : LoadElf} {reads : Reads} (sound : m.Sound)
    (buffer : m.Buffer image n) (fits : 46 ≤ n)
    (ran : m.loadSegments blocks pages image pretend turns i = some (code, m', reads))
    (inside : ReadsInside image n reads) : SafeTurns blocks image n pretend i m := by
  induction turns generalizing i m code reads with
  | zero => cases ran
  | succ turns ih =>
    obtain ⟨phnum, phoff, phentsize, table⟩ := buffer.headerTable sound fits
    have range : headerOffset phoff phentsize i < uintWidth := uadd_lt ..
    rw [loadSegments_succ table] at ran
    by_cases more : i < phnum
    · rw [if_pos more] at ran
      obtain ⟨type, found, ran⟩ := Option.bind_eq_some_iff.mp ran
      by_cases dynamic : type = ptDynamic ∨ type = ptShlib
      · rw [if_pos dynamic] at ran
        cases ran
        have head := (headReads_inside buffer.small fits range).mp inside
        exact Turns.dynamic ⟨_, _, _, table, more, rfl, head, found⟩ dynamic
      · rw [if_neg dynamic] at ran
        obtain ⟨⟨m₁, loaded⟩, passed, ran⟩ := Option.bind_eq_some_iff.mp ran
        obtain ⟨⟨code', m₂, later⟩, rest, ran⟩ := Option.bind_eq_some_iff.mp ran
        cases ran
        obtain ⟨both, last⟩ := readsInside_append.mp inside
        obtain ⟨head, segment⟩ := readsInside_append.mp both
        have looks : m.LooksAt image n i (headerOffset phoff phentsize i) type :=
          ⟨_, _, _, table, more, rfl, (headReads_inside buffer.small fits range).mp head, found⟩
        unfold passSegment at passed
        by_cases load : type = ptLoad ∧ pretend = false
        · rw [if_pos load] at passed
          rw [load.1] at looks
          have can := elfLoadSegment_can sound buffer passed segment
          have covers : CoversHeader image n (uadd image (headerOffset phoff phentsize i)) :=
            fun f member => (covers_field_iff buffer.small).mpr (can.1 f member)
          obtain ⟨sound₁, buffer₁, unique⟩ := elfLoadSegment_spec sound buffer covers passed
          refine Turns.load looks load.2 can fun pages' m' reads ran' => ?_
          cases unique _ _ ran'
          exact ih sound₁ buffer₁ rest last
        · rw [if_neg load] at passed
          cases passed
          exact Turns.pass looks dynamic load (ih sound buffer rest last)
    · exact Turns.done ⟨phnum, table.phnum, by omega⟩

/-- A loop over program headers ends if each segment that is loaded can be, in a sense that is kept
with what the machine satisfies. Its reads are those of the headers and of the segments. -/
theorem Turns.returns {can : Nat → Machine → Prop} {kept : Machine → Prop} {inside : Nat × Nat → Prop}
    (table : ∀ m, kept m → ∃ phnum phoff phentsize, m.HeaderTable image phnum phoff phentsize)
    (heads : ∀ off < uintWidth, InFile n off 4 → ∀ read ∈ headReads image off, inside read)
    (number : inside (ePhnum.span image))
    (loads : ∀ i off m, kept m → m.LooksAt image n i off ptLoad → can off m → ∃ m' reads,
      m.elfLoadSegment blocks pageTurns image (uadd image off) = some (m', reads) ∧
        (∀ read ∈ reads, inside read) ∧ kept m')
    (goes : Turns can blocks image n pretend i m) (start : kept m) :
    ∃ turns code m' reads,
      m.loadSegments blocks pageTurns image pretend turns i = some (code, m', reads) ∧
        ∀ read ∈ reads, inside read := by
  induction goes with
  | @done i m behind =>
    obtain ⟨phnum, counted, last⟩ := behind
    obtain ⟨phnum', phoff, phentsize, fields⟩ := table m start
    cases Option.some.inj (counted.symm.trans fields.phnum)
    refine ⟨1, .success, m, [ePhnum.span image], ?_, fun read member => ?_⟩
    · rw [loadSegments_succ fields, if_neg (by omega)]
    · rw [List.mem_singleton.mp member]
      exact number
  | @dynamic i off type m looks dynamic =>
    obtain ⟨phnum, phoff, phentsize, fields, more, rfl, head, found⟩ := looks
    refine ⟨1, .dynamic, m, _, ?_, heads _ (uadd_lt ..) head⟩
    rw [loadSegments_succ fields, if_pos more, found, Option.bind_some, if_pos dynamic]
    rfl
  | pass looks static other rest ih =>
    obtain ⟨phnum, phoff, phentsize, fields, more, rfl, head, found⟩ := looks
    obtain ⟨turns, code, m', reads, ran, later⟩ := ih start
    refine ⟨turns + 1, code, m', _, ?_, List.forall_mem_append.mpr ⟨List.forall_mem_append.mpr
      ⟨heads _ (uadd_lt ..) head, fun read member => absurd member List.not_mem_nil⟩, later⟩⟩
    rw [loadSegments_succ fields, if_pos more, found, Option.bind_some, if_neg static, passSegment,
      if_neg other, Option.bind_some, ran]
    rfl
  | @load i off m looks real ready rest ih =>
    obtain ⟨m₁, loaded, passed, segment, start₁⟩ := loads i off m start looks ready
    obtain ⟨turns, code, m', reads, ran, later⟩ := ih _ _ _ passed start₁
    obtain ⟨phnum, phoff, phentsize, fields, more, rfl, head, found⟩ := looks
    refine ⟨turns + 1, code, m', _, ?_, List.forall_mem_append.mpr ⟨List.forall_mem_append.mpr
      ⟨heads _ (uadd_lt ..) head, segment⟩, later⟩⟩
    rw [loadSegments_succ fields, if_pos more, found, Option.bind_some, if_neg (by decide),
      passSegment, if_pos ⟨rfl, real⟩, passed, Option.bind_some, ran]
    rfl

/-- A safe loop over program headers ends and stays in the buffer. -/
theorem SafeTurns.returns (safe : SafeTurns blocks image n pretend i m) (sound : m.Sound)
    (buffer : m.Buffer image n) (fits : 46 ≤ n) :
    ∃ turns code m' reads,
      m.loadSegments blocks pageTurns image pretend turns i = some (code, m', reads) ∧
        ReadsInside image n reads := by
  have small : n ≤ uintWidth := Nat.le_trans (Nat.le_add_left n image) buffer.small
  have loads (i off : Nat) (m : Machine) (start : m.Sound ∧ m.Buffer image n)
      (_ : m.LooksAt image n i off ptLoad) (can : m.CanLoad image n off) :=
    @CanLoad.loads m blocks n image off can start.1 start.2
  exact Turns.returns (fun m start => start.2.headerTable start.1 fits)
    (fun off range head => (headReads_inside buffer.small fits range).mpr head)
    ((covers_iff buffer.small).mpr (inFile_of_le fits small)) loads safe ⟨sound, buffer⟩

/-- The loop over program headers reads their number. -/
theorem phnum_mem_reads {code : LoadElf} {reads : Reads}
    (ran : m.loadSegments blocks pages image pretend turns i = some (code, m', reads)) :
    ePhnum.span image ∈ reads := by
  cases turns with
  | zero => cases ran
  | succ turns =>
    rw [loadSegments] at ran
    obtain ⟨phnum, _, ran⟩ := Option.bind_eq_some_iff.mp ran
    split at ran
    · obtain ⟨seg, _, ran⟩ := Option.bind_eq_some_iff.mp ran
      obtain ⟨type, _, ran⟩ := Option.bind_eq_some_iff.mp ran
      dsimp only at ran
      split at ran
      · cases ran
        exact List.mem_cons_self
      · obtain ⟨passed, _, ran⟩ := Option.bind_eq_some_iff.mp ran
        obtain ⟨later, _, ran⟩ := Option.bind_eq_some_iff.mp ran
        cases ran
        exact List.mem_cons_self
    · cases ran
      exact List.mem_cons_self

/-- None of the tests fails with success. -/
theorem headerTests_codes : ∀ test ∈ headerTests, test.2.2 ≠ .success := by decide

/-- What it takes for `load_elf` to end and to read only bytes of the file. -/
def ImageFits (blocks : PageBlocks) (image n : Nat) (pretend : Bool) (m : Machine) : Prop :=
  image = 0 ∨ m.TestsFit image n headerTests ∧
    (m.Passes image headerTests → 46 ≤ n ∧ SafeTurns blocks image n pretend 0 m)

/-- An image of which only bytes of the file were read fits, -/
theorem ReadsImage.fits (ran : m.ReadsImage blocks image n pretend) (sound : m.Sound)
    (buffer : m.Buffer image n) : m.ImageFits blocks image n pretend := by
  obtain ⟨pages, turns, loaded, ran, inside⟩ := ran
  by_cases null : image = 0
  · exact .inl null
  refine .inr ?_
  rw [loadElf, if_neg null] at ran
  obtain ⟨⟨code, tested⟩, tests, ran⟩ := Option.bind_eq_some_iff.mp ran
  have passes := testHeader_code headerTests_codes tests
  dsimp only at ran
  by_cases success : code = .success
  · rw [if_neg (not_not.mpr success)] at ran
    obtain ⟨entry, _, ran⟩ := Option.bind_eq_some_iff.mp ran
    obtain ⟨⟨code', m', reads⟩, segments, ran⟩ := Option.bind_eq_some_iff.mp ran
    cases ran
    obtain ⟨first, last⟩ := readsInside_append.mp inside
    refine ⟨(testHeader_inside sound buffer headerTests).mp
      ⟨code, tested, tests, (readsInside_append.mp first).1⟩, fun _ => ?_⟩
    have number := (covers_iff buffer.small).mp (last _ (phnum_mem_reads segments))
    have fits : 46 ≤ n := by
      have less : 1 < ePhnum.size := by decide
      have second := number 1 less
      have offset : uadd ePhnum.offset 1 = 45 := by decide
      omega
    exact ⟨fits, loadSegments_safe sound buffer fits segments last⟩
  · rw [if_pos success] at ran
    cases ran
    exact ⟨(testHeader_inside sound buffer headerTests).mp ⟨code, tested, tests, inside⟩,
      fun passed => absurd (passes.mpr passed) success⟩

/-- and of an image that fits only bytes of the file are read. -/
theorem ImageFits.reads (fits : m.ImageFits blocks image n pretend) (sound : m.Sound)
    (buffer : m.Buffer image n) : m.ReadsImage blocks image n pretend := by
  have small : n ≤ uintWidth := Nat.le_trans (Nat.le_add_left n image) buffer.small
  by_cases null : image = 0
  · refine ⟨0, 0, { code := .invarg, machine := m }, ?_, fun read member =>
      absurd member List.not_mem_nil⟩
    rw [loadElf, if_pos null]
  obtain ⟨fit, turns⟩ := fits.resolve_left null
  obtain ⟨code, tested, tests, inside⟩ := (testHeader_inside sound buffer headerTests).mpr fit
  have passes := testHeader_code headerTests_codes tests
  by_cases success : code = .success
  · obtain ⟨header, safe⟩ := turns (passes.mp success)
    obtain ⟨count, code', m', reads, ran, rest⟩ := SafeTurns.returns safe sound buffer header
    have span : Covers image n (uadd image eEntry.offset) eEntry.size :=
      (covers_iff buffer.small).mpr (inFile_of_le (Nat.le_trans (by decide) header) small)
    obtain ⟨entry, found⟩ := buffer.field sound span
    refine ⟨pageTurns, count, ⟨code', some entry, m', tested ++ [eEntry.span image] ++ reads⟩, ?_,
      readsInside_append.mpr ⟨readsInside_append.mpr ⟨inside, fun read member => ?_⟩, rest⟩⟩
    · rw [loadElf, if_neg null, tests]
      change (if code ≠ .success then _ else _) = _
      rw [if_neg (not_not.mpr success), found]
      change (m.loadSegments blocks pageTurns image pretend count 0).bind _ = _
      rw [ran]
      rfl
    · rw [List.mem_singleton.mp member]
      exact span
  · refine ⟨0, 0, { code, machine := m, reads := tested }, ?_, inside⟩
    rw [loadElf, if_neg null, tests]
    change (if code ≠ .success then _ else _) = _
    rw [if_pos success]

/-- Tests of fields that are in the file. -/
theorem testsFit_of_le {tests : List (Field × Nat × LoadElf)} (small : n ≤ uintWidth)
    (inside : ∀ test ∈ tests, test.1.offset + test.1.size ≤ n) : m.TestsFit image n tests := by
  induction tests with
  | nil => trivial
  | cons test tests ih =>
    obtain ⟨first, rest⟩ := List.forall_mem_cons.mp inside
    exact ⟨inFile_of_le first small, fun _ => ih rest⟩

/-- An image of 87 bytes fits, whether it is only looked at or loaded. -/
theorem smallImage_fits (pretend : Bool) :
    (imageMachine (smallImage ptLoad 0x2000 3 3)).ImageFits FirstPages.blocks 4096 87 pretend := by
  have sound := imageMachine_sound (smallImage ptLoad 0x2000 3 3)
  have buffer := imageMachine_buffer (smallImage ptLoad 0x2000 3 3) (show 87 ≤ frameSize by decide)
  have table : (imageMachine (smallImage ptLoad 0x2000 3 3)).HeaderTable 4096 1 52 32 :=
    ⟨by decide, by decide, by decide⟩
  have looks : (imageMachine (smallImage ptLoad 0x2000 3 3)).LooksAt 4096 87 0 52 ptLoad :=
    ⟨1, 52, 32, table, by decide, by decide, inFile_of_le (by decide) (by decide), by decide⟩
  have apart : ∀ j < 3, ¬InBuffer 4096 87 (uadd 0x2000 j) := by
    unfold InBuffer
    decide
  have covers : CoversHeader 4096 87 (uadd 4096 52) :=
    (@imageMachine_placed 3 3 (by decide) (by decide) threeBytes_header).covers
  refine .inr ⟨testsFit_of_le (by decide) (by decide), fun _ => ⟨by decide, ?_⟩⟩
  cases pretend with
  | true => exact Turns.pass looks (by decide) (by decide) (Turns.done ⟨1, table.phnum, Nat.le_refl 1⟩)
  | false =>
    refine Turns.load looks rfl ⟨fun f member => (covers_field_iff (by decide)).mp (covers f member),
      fun offset vaddr filesz memsz header => ?_⟩ fun pages m' reads ran => ?_
    · cases Option.some.inj (header.offset.symm.trans threeBytes_header.offset)
      cases Option.some.inj (header.vaddr.symm.trans threeBytes_header.vaddr)
      cases Option.some.inj (header.filesz.symm.trans threeBytes_header.filesz)
      cases Option.some.inj (header.memsz.symm.trans threeBytes_header.memsz)
      refine ⟨.inr (by decide), inFile_of_le (by decide) (by decide), fun j less => ?_,
        apart_canZero buffer covers header apart⟩
      have page : uadd 0x2000 j / frameSize = 2 := by
        have bound := (copySize_le 3 3).1
        simp only [uadd, uintWidth, frameSize]
        omega
      unfold WillReach
      rw [page, if_pos (by decide)]
      exact ⟨2, by decide, by decide⟩
    · have kept := apart_image sound buffer covers threeBytes_header apart ran
      have phnum : m'.field 4096 ePhnum = some 1 :=
        (field_congr kept.bytes (by unfold Covers InBuffer; decide)).trans table.phnum
      exact Turns.done ⟨1, phnum, Nat.le_refl 1⟩

end Machine

end Nupkux
