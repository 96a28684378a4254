import Nupkux.Kernel.Elf

/-!
# Loading one segment

`elf_load_segment` maps the pages of a segment and copies its bytes from the image. The bytes
behind them up to `p_memsz` should be 0, but the test for that compares `p_filesz` with a size
that has just been cut to `p_filesz` at most: the pages keep what their frames held.
-/

namespace Nupkux

namespace Machine

/-- An address of a buffer of so many bytes. -/
def InBuffer (image n a : Nat) : Prop := image ≤ a ∧ a < image + n

/-- A buffer in pages that have frames. -/
structure Buffer (m : Machine) (image n : Nat) : Prop where
  small : image + n ≤ uintWidth
  held : ∀ a, InBuffer image n a → (m.page (a / frameSize)).frame ≠ 0 ∧
    (m.page (a / frameSize)).frame < m.paging.framecount

/-- So many bytes from an address on are in a buffer. -/
def Covers (image n start count : Nat) : Prop := ∀ j < count, InBuffer image n (uadd start j)

/-- The fields of a program header that `elf_load_segment` reads. -/
structure ProgramHeader (m : Machine) (seg offset vaddr filesz memsz : Nat) : Prop where
  offset : m.field seg pOffset = some offset
  vaddr : m.field seg pVaddr = some vaddr
  filesz : m.field seg pFilesz = some filesz
  memsz : m.field seg pMemsz = some memsz

/-- The fields of a program header that `elf_load_segment` reads are in a buffer. -/
def CoversHeader (image n seg : Nat) : Prop :=
  ∀ f ∈ [pFilesz, pVaddr, pMemsz, pOffset], Covers image n (uadd seg f.offset) f.size

variable {m m' m'' m₁ : Machine} {blocks : PageBlocks} {n a q seg base turns image : Nat}
  {offset vaddr filesz memsz size count start lo e i : Nat} {f : Field}

/-! ## Buffers -/

/-- What is behind an address of a page that both machines have. -/
theorem translate_congr (sound : m.Sound) (sound' : m'.Sound)
    (page : m'.page (a / frameSize) = m.page (a / frameSize))
    (framecount : m'.paging.framecount = m.paging.framecount) :
    m'.translate a = m.translate a := by
  apply Option.ext
  intro q
  rw [sound.translate_eq_some, sound'.translate_eq_some, page, framecount]

/-- The bytes of pages with frames are kept while the page tables grow. -/
theorem Grown.byte (grown : Grown m m') (sound : m.Sound)
    (held : (m.page (a / frameSize)).frame ≠ 0) : m'.byte a = m.byte a :=
  byte_congr (translate_congr sound grown.sound (grown.held _ held) grown.framecount)
    fun _ _ => congrFun grown.physical _

/-- A buffer is kept while the page tables grow. -/
theorem Buffer.grown (buffer : m.Buffer image n) (grown : Grown m m') : m'.Buffer image n := by
  refine ⟨buffer.small, fun a inside => ?_⟩
  have held := buffer.held a inside
  rw [grown.held _ held.1, grown.framecount]
  exact held

/-- A buffer is kept while the page tables are. -/
theorem Buffer.same (buffer : m.Buffer image n) (same : SamePages m m') : m'.Buffer image n := by
  refine ⟨buffer.small, fun a inside => ?_⟩
  rw [same.page, same.paging]
  exact buffer.held a inside

/-- There is memory behind a buffer. -/
theorem Buffer.mapped (buffer : m.Buffer image n) (sound : m.Sound)
    (covers : Covers image n start count) : m.Mapped start count := by
  intro j less
  have held := buffer.held _ (covers j less)
  rw [sound.translate_of_frame held.1 held.2]
  rfl

/-- A field of a buffer depends on the bytes of the buffer. -/
theorem field_congr (same : ∀ a, InBuffer image n a → m'.byte a = m.byte a)
    (covers : Covers image n (uadd base f.offset) f.size) : m'.field base f = m.field base f :=
  value_congr fun j less => same _ (covers j less)

/-- A program header in a buffer depends on the bytes of the buffer. -/
theorem ProgramHeader.congr (header : m.ProgramHeader seg offset vaddr filesz memsz)
    (same : ∀ a, InBuffer image n a → m'.byte a = m.byte a)
    (covers : CoversHeader image n seg) : m'.ProgramHeader seg offset vaddr filesz memsz := by
  have field (f : Field) (member : f ∈ [pFilesz, pVaddr, pMemsz, pOffset]) :
      m'.field seg f = m.field seg f := field_congr same (covers f member)
  exact ⟨(field pOffset (by decide)).trans header.offset,
    (field pVaddr (by decide)).trans header.vaddr,
    (field pFilesz (by decide)).trans header.filesz,
    (field pMemsz (by decide)).trans header.memsz⟩

/-- Fields of four bytes are UINTs. -/
theorem ProgramHeader.range (header : m.ProgramHeader seg offset vaddr filesz memsz) :
    offset < uintWidth ∧ vaddr < uintWidth ∧ filesz < uintWidth ∧ memsz < uintWidth :=
  ⟨value_lt header.offset, value_lt header.vaddr, value_lt header.filesz,
    value_lt header.memsz⟩

/-- The size that is copied. -/
def copySize (filesz memsz : Nat) : Nat := if memsz < filesz then memsz else filesz

/-- What `elf_load_segment` reads. -/
def segmentReads (image seg offset filesz memsz : Nat) : Reads :=
  [pFilesz.span seg, pVaddr.span seg, pMemsz.span seg, pOffset.span seg,
    (uadd image offset, copySize filesz memsz)]

/-- `elf_load_segment` for a program header in a buffer: pages, bytes and zeros. -/
theorem elfLoadSegment_eq (sound : m.Sound) (buffer : m.Buffer image n)
    (covers : CoversHeader image n seg)
    (header : m.ProgramHeader seg offset vaddr filesz memsz) :
    m.elfLoadSegment blocks turns image seg =
      (mapPages blocks (fun _ => some (uadd vaddr memsz)) turns (alignDown vaddr) m).bind fun m =>
        (memcpy vaddr (uadd image offset) (copySize filesz memsz) m).bind fun m =>
          (zeroSegment image seg (copySize filesz memsz) m).bind fun m =>
            some (m, segmentReads image seg offset filesz memsz) := by
  have kept (m' : Machine) (grown : Grown m m') :
      m'.ProgramHeader seg offset vaddr filesz memsz :=
    header.congr (fun a inside => grown.byte sound (buffer.held a inside).1) covers
  have inRange : alignDown vaddr < uintWidth :=
    Nat.lt_of_le_of_lt (Nat.sub_le ..) header.range.2.1
  have stable (m' : Machine) (grown : Grown m m') :
      segmentEnd seg m' = some (uadd vaddr memsz) := by
    have here := kept m' grown
    rw [segmentEnd, here.vaddr, here.memsz]
    rfl
  unfold elfLoadSegment
  rw [header.filesz, header.vaddr, Option.bind_eq_bind, Option.bind_some, Option.bind_eq_bind,
    Option.bind_some, mapPages_of_stable sound inRange stable]
  cases maps : mapPages blocks (fun _ => some (uadd vaddr memsz)) turns (alignDown vaddr) m with
  | none => rfl
  | some m₁ =>
    have here := kept m₁ (mapPages_grown sound inRange maps)
    simp only [Option.bind_some, here.memsz, here.vaddr, here.offset]
    rfl

/-- Bytes that are not copied to are kept, if their page or the pages of the target have
frames. -/
theorem memcpy_elsewhere (sound : m.Sound) (copied : memcpy vaddr start count m = some m')
    (held : (m.page (a / frameSize)).frame ≠ 0 ∨
      ∀ j < count, (m.page (uadd vaddr j / frameSize)).frame ≠ 0)
    (elsewhere : ∀ j < count, a ≠ uadd vaddr j) : m'.byte a = m.byte a := by
  obtain ⟨same, kept⟩ := memcpy_frame copied
  refine byte_congr (same.translate a) fun q behind => kept q fun j less target => ?_
  refine elsewhere j less ?_
  rcases held with here | targets
  · exact sound.translate_inj here behind target
  · exact (sound.translate_inj (targets j less) target behind).symm

/-- `copySize` is at most each of the two. -/
theorem copySize_le (filesz memsz : Nat) :
    copySize filesz memsz ≤ filesz ∧ copySize filesz memsz ≤ memsz := by
  unfold copySize
  split
  · omega
  · omega

/-- `elf_load_segment` for a segment that is not copied over the image: the test for a tail to
fill is never met. -/
theorem elfLoadSegment_of_apart (sound : m.Sound) (buffer : m.Buffer image n)
    (covers : CoversHeader image n seg)
    (header : m.ProgramHeader seg offset vaddr filesz memsz)
    (apart : ∀ j < copySize filesz memsz, ¬InBuffer image n (uadd vaddr j)) :
    m.elfLoadSegment blocks turns image seg =
      (mapPages blocks (fun _ => some (uadd vaddr memsz)) turns (alignDown vaddr) m).bind fun m =>
        (memcpy vaddr (uadd image offset) (copySize filesz memsz) m).bind fun m =>
          some (m, segmentReads image seg offset filesz memsz) := by
  have inRange : alignDown vaddr < uintWidth :=
    Nat.lt_of_le_of_lt (Nat.sub_le ..) header.range.2.1
  rw [elfLoadSegment_eq sound buffer covers header]
  cases maps : mapPages blocks (fun _ => some (uadd vaddr memsz)) turns (alignDown vaddr) m with
  | none => rfl
  | some m₁ =>
    have grown := mapPages_grown sound inRange maps
    rw [Option.bind_some, Option.bind_some]
    cases copied : memcpy vaddr (uadd image offset) (copySize filesz memsz) m₁ with
    | none => rfl
    | some m₂ =>
      have kept (a : Nat) (inside : InBuffer image n a) : m₂.byte a = m.byte a := by
        have held := (buffer.grown grown).held a inside
        rw [memcpy_elsewhere grown.sound copied (.inl held.1) fun j less same =>
          apart j less (same ▸ inside)]
        exact grown.byte sound (buffer.held a inside).1
      have same := (header.congr kept covers).filesz
      have size := copySize_le filesz memsz
      rw [Option.bind_some, Option.bind_some, zeroSegment, same]
      change (if filesz < copySize filesz memsz then _ else some m₂).bind _ = _
      rw [if_neg (by omega)]
      rfl

/-! ## The frames that pages get -/

/-- How many pages from `lo` on, before a page, have no frame. -/
def waiting (m : Machine) (lo n : Nat) : Nat :=
  (List.range' lo (n - lo)).countP fun k => (m.page k).frame = 0

/-- The frame of a page once `make_page` has been called for the pages from `lo` on, one after
another: its own, or the free frame whose turn it is, if there are enough. -/
def frameFor (m : Machine) (lo n : Nat) : Option Nat :=
  if (m.page n).frame ≠ 0 then some (m.page n).frame else m.paging.freeFrames[m.waiting lo n]?

/-- What `alloc_frame` records when no frame is free. -/
def missingFrame : Nat := 0xFFFFF

/-- The frame that `alloc_frame` records is the first free one. -/
theorem Sound.nextFrame_eq (sound : m.Sound) :
    m.nextFrame = (m.paging.freeFrames[0]?).getD missingFrame := by
  have small := sound.small
  unfold Machine.nextFrame
  rw [Paging.firstFrame_eq, List.head?_eq_getElem?]
  cases first : m.paging.freeFrames[0]? with
  | none => rfl
  | some frame =>
    have inside := (Paging.mem_freeFrames.mp (List.mem_of_getElem? first)).1
    apply Nat.mod_eq_of_lt
    rw [Option.getD_some]
    omega

/-- After one turn of the loop over pages, each page behind has the same frame in store. -/
theorem Sound.frameFor_next (sound : m.Sound) (blocks : PageBlocks) (inRange : a < uintWidth)
    (behind : a / frameSize < n) :
    (m.makePage blocks a).frameFor (a / frameSize + 1) n = m.frameFor (a / frameSize) n := by
  have other (k : Nat) (behind : a / frameSize < k) :
      (m.makePage blocks a).page k = m.page k := by
    rw [sound.makePage_page blocks inRange, if_neg (by omega)]
  have rest : (m.makePage blocks a).waiting (a / frameSize + 1) n =
      m.waiting (a / frameSize + 1) n := by
    refine List.countP_congr fun k member => ?_
    rw [other k (List.mem_range'_1.mp member).1]
  have parts : m.waiting (a / frameSize) n =
      m.waiting (a / frameSize + 1) n + if (m.page (a / frameSize)).frame = 0 then 1 else 0 := by
    have count : n - a / frameSize = n - (a / frameSize + 1) + 1 := by omega
    rw [waiting, count, List.range'_succ, List.countP_cons, waiting]
    simp only [decide_eq_true_eq]
  unfold frameFor
  rw [other n behind, rest, parts, sound.makePage_free blocks inRange]
  by_cases unmapped : (m.page (a / frameSize)).frame = 0
  · rw [if_pos unmapped, if_pos unmapped, List.getElem?_tail]
  · rw [if_neg unmapped, if_neg unmapped]
    rfl

/-- The pages after the loop over pages. -/
theorem mapPages_pages (sound : m.Sound) (aligned : i % frameSize = 0) (last : e ≤ lastPage)
    (inRange : i < uintWidth)
    (maps : mapPages blocks (fun _ => some e) turns i m = some m') (n : Nat) :
    (i / frameSize ≤ n ∧ n * frameSize < e →
      (m'.page n).frame = (m.frameFor (i / frameSize) n).getD missingFrame) ∧
    (¬(i / frameSize ≤ n ∧ n * frameSize < e) → m'.page n = m.page n) := by
  induction turns generalizing i m with
  | zero => cases maps
  | succ turns ih =>
    rw [mapPages] at maps
    change (if i < e then _ else _) = _ at maps
    by_cases more : i < e
    · rw [if_pos more] at maps
      have step := sound.grows blocks inRange
      have next : uadd i frameSize = i + frameSize := by
        apply uadd_of_lt
        simp only [frameSize, uintWidth, lastPage] at *
        omega
      have index : (i + frameSize) / frameSize = i / frameSize + 1 :=
        Nat.add_div_right i (by decide)
      have later := ih step.sound (by rw [next, Nat.add_mod_right, aligned]) (uadd_lt ..) maps
      rw [next, index] at later
      have grown := mapPages_grown step.sound (uadd_lt i frameSize) maps
      have made := sound.makePage_page blocks inRange
      by_cases here : n = i / frameSize
      · have inside : i / frameSize ≤ n ∧ n * frameSize < e := by
          simp only [frameSize] at *
          omega
        refine ⟨fun _ => ?_, fun outside => absurd inside outside⟩
        have given : ((m.makePage blocks i).page n).frame =
            (m.frameFor (i / frameSize) n).getD missingFrame := by
          unfold frameFor
          rw [made]
          by_cases unmapped : (m.page n).frame = 0
          · rw [if_pos ⟨here, unmapped⟩, if_neg (not_not.mpr unmapped), here, waiting, Nat.sub_self]
            exact sound.nextFrame_eq
          · rw [if_neg fun both => unmapped both.2, if_pos unmapped]
            rfl
        have nonzero : ((m.makePage blocks i).page n).frame ≠ 0 := by
          rw [made]
          by_cases unmapped : (m.page n).frame = 0
          · rw [if_pos ⟨here, unmapped⟩]
            exact sound.nextFrame.1
          · rw [if_neg fun both => unmapped both.2]
            exact unmapped
        rw [grown.held n nonzero, given]
      · have same : (m.makePage blocks i).page n = m.page n := by
          rw [made, if_neg fun both => here both.1]
        refine ⟨fun inside => ?_, fun outside => ?_⟩
        · have behind : i / frameSize < n := by omega
          rw [later.1 ⟨behind, inside.2⟩, sound.frameFor_next blocks inRange behind]
        · rw [later.2 (by omega), same]
    · rw [if_neg more] at maps
      cases maps
      refine ⟨fun inside => ?_, fun _ => rfl⟩
      simp only [frameSize] at *
      omega

/-- No page is given the frame 0. -/
theorem Sound.frameFor_ne_zero (sound : m.Sound) (lo n : Nat) :
    (m.frameFor lo n).getD missingFrame ≠ 0 := by
  unfold frameFor
  split
  · rename_i held
    exact held
  · cases given : m.paging.freeFrames[m.waiting lo n]? with
    | none => decide
    | some frame =>
      intro zero
      change frame = 0 at zero
      have free := (Paging.mem_freeFrames.mp (List.mem_of_getElem? given)).2
      rw [zero] at free
      exact free sound.reserved

/-- The pages of a segment after the loop over them, and the others. -/
theorem mapPages_segment (sound : m.Sound) (last : vaddr + memsz ≤ lastPage)
    (inRange : vaddr < uintWidth)
    (maps : mapPages blocks (fun _ => some (vaddr + memsz)) turns (alignDown vaddr) m =
      some m₁) :
    Grown m m₁ ∧
      (∀ a, alignDown vaddr ≤ a → a / frameSize * frameSize < vaddr + memsz →
        (m₁.page (a / frameSize)).frame ≠ 0 ∧ (m₁.page (a / frameSize)).frame =
          (m.frameFor (vaddr / frameSize) (a / frameSize)).getD missingFrame) ∧
      ∀ a, ¬(alignDown vaddr ≤ a ∧ a / frameSize * frameSize < vaddr + memsz) →
        m₁.page (a / frameSize) = m.page (a / frameSize) := by
  have aligned : alignDown vaddr % frameSize = 0 := by
    simp only [alignDown, frameSize]
    omega
  have index : alignDown vaddr / frameSize = vaddr / frameSize := by
    simp only [alignDown, frameSize]
    omega
  have below : alignDown vaddr < uintWidth := Nat.lt_of_le_of_lt (Nat.sub_le ..) inRange
  have pages := mapPages_pages sound aligned last below maps
  rw [index] at pages
  have inside (a : Nat) : alignDown vaddr ≤ a ↔ vaddr / frameSize ≤ a / frameSize := by
    simp only [alignDown, frameSize]
    omega
  refine ⟨mapPages_grown sound below maps, fun a low high => ?_, fun a outside => ?_⟩
  · have given := (pages (a / frameSize)).1 ⟨(inside a).mp low, high⟩
    rw [given]
    exact ⟨sound.frameFor_ne_zero _ _, rfl⟩
  · rw [inside] at outside
    exact (pages (a / frameSize)).2 outside

/-- There is memory behind an address after the loop over pages from `i` to `e`: if its page is
one of those, it has a frame of memory or there is a free one left in its turn. -/
def WillReach (m : Machine) (i e a : Nat) : Prop :=
  if i / frameSize ≤ a / frameSize ∧ a / frameSize * frameSize < e then
    ∃ frame, m.frameFor (i / frameSize) (a / frameSize) = some frame ∧
      frame < m.paging.framecount
  else (m.translate a).isSome

/-- There is memory behind an address of a page with a frame if it is one of memory. -/
theorem Sound.translate_isSome (sound : m.Sound) (held : (m.page (a / frameSize)).frame ≠ 0) :
    (m.translate a).isSome ↔ (m.page (a / frameSize)).frame < m.paging.framecount := by
  constructor
  · intro there
    obtain ⟨q, found⟩ := Option.isSome_iff_exists.mp there
    exact (sound.translate_eq_some.mp found).2.1
  · intro inside
    rw [sound.translate_of_frame held inside]
    rfl

/-- Where there is memory after the loop over pages. -/
theorem mapPages_reaches (sound : m.Sound) (aligned : i % frameSize = 0) (inRange : i < uintWidth)
    (bounds : e ≤ i ∨ e ≤ lastPage)
    (maps : mapPages blocks (fun _ => some e) turns i m = some m') (a : Nat) :
    (m'.translate a).isSome ↔ m.WillReach i e a := by
  have grown := mapPages_grown sound inRange maps
  unfold WillReach
  rcases bounds with done | last
  · have none : ¬(i / frameSize ≤ a / frameSize ∧ a / frameSize * frameSize < e) := by
      simp only [frameSize] at *
      omega
    have same : m' = m := by
      cases turns with
      | zero => cases maps
      | succ turns =>
        rw [mapPages] at maps
        change (if i < e then _ else some m) = some m' at maps
        rw [if_neg (by omega)] at maps
        exact (Option.some.inj maps).symm
    rw [if_neg none, same]
  · obtain ⟨inside, outside⟩ := mapPages_pages sound aligned last inRange maps (a / frameSize)
    split
    · rename_i one
      have frame := inside one
      have held : (m'.page (a / frameSize)).frame ≠ 0 := by
        rw [frame]
        exact sound.frameFor_ne_zero _ _
      rw [grown.sound.translate_isSome held, frame, grown.framecount]
      have small := sound.small
      cases turn : m.frameFor (i / frameSize) (a / frameSize) with
      | none =>
        refine iff_of_false ?_ ?_
        · simp only [missingFrame, frameNumbers, Option.getD_none] at *
          omega
        · rintro ⟨_, absent, _⟩
          cases absent
      | some number =>
        refine ⟨fun memory => ⟨number, rfl, memory⟩, ?_⟩
        rintro ⟨_, same, memory⟩
        cases same
        exact memory
    · rename_i other
      rw [translate_congr sound grown.sound (outside other) grown.framecount]

/-- A segment is loaded: its bytes from the file, zeros behind them, memory for all of them, and
nothing else changed. -/
structure LoadsSegment (m m' : Machine) (image offset vaddr filesz memsz : Nat) : Prop where
  loaded : ∀ i, i < filesz → i < memsz → m'.byte (vaddr + i) = m.byte (image + offset + i)
  zeroed : ∀ a, vaddr + filesz ≤ a → a < vaddr + memsz → m'.byte a = some 0
  mapped : ∀ a, vaddr ≤ a → a < vaddr + memsz → (m'.byte a).isSome
  kept : ∀ a, a < vaddr ∨ vaddr + memsz ≤ a → (m.byte a).isSome →
    m'.translate a = m.translate a ∧ m'.byte a = m.byte a
  /-- Memory that is not behind the segment. -/
  others : ∀ q, (∀ a, vaddr ≤ a → a < vaddr + memsz → m'.translate a ≠ some q) →
    m'.physical q = m.physical q

/-- What it takes for a segment to be loaded. -/
structure SegmentReady (m : Machine) (vaddr filesz memsz : Nat) : Prop where
  /-- The page that ends the address space is not used. -/
  ends : vaddr + memsz ≤ lastPage
  /-- Every page has a frame of memory or there is a free one left for it. -/
  frames : ∀ a, vaddr ≤ a → a < vaddr + memsz →
    ∃ frame, m.frameFor (vaddr / frameSize) (a / frameSize) = some frame ∧
      frame < m.paging.framecount
  /-- The bytes behind those of the file are 0 already, in the frames that the pages will have. -/
  zeros : ∀ a, vaddr + filesz ≤ a → a < vaddr + memsz →
    ∀ frame, m.frameFor (vaddr / frameSize) (a / frameSize) = some frame →
      m.physical (frame * frameSize + a % frameSize) = 0
  /-- No page that is present with the frame number 0 has other bytes, too. -/
  whole : ∀ a, a < vaddr ∨ vaddr + memsz ≤ a → alignDown vaddr ≤ a →
    a / frameSize * frameSize < vaddr + memsz → (m.page (a / frameSize)).frame = 0 →
      m.translate a = none

/-- A program header of an image whose file range lies in the image and whose pages do not wrap or
meet it. -/
structure Placed (m : Machine) (image n seg offset vaddr filesz memsz : Nat) : Prop where
  buffer : m.Buffer image n
  covers : CoversHeader image n seg
  header : m.ProgramHeader seg offset vaddr filesz memsz
  inside : offset + filesz ≤ n
  noWrap : vaddr + memsz < uintWidth
  apart : image + n ≤ alignDown vaddr ∨ vaddr + memsz ≤ image

/-- The bytes of a segment are in the pages that are looped over. -/
theorem inPages (low : vaddr ≤ a) (high : a < vaddr + memsz) :
    alignDown vaddr ≤ a ∧ a / frameSize * frameSize < vaddr + memsz := by
  have page := Nat.div_mul_le_self a frameSize
  have below : alignDown vaddr ≤ vaddr := Nat.sub_le ..
  omega

section Placed

variable (sound : m.Sound) (placed : m.Placed image n seg offset vaddr filesz memsz)

include placed

/-- Addresses that are copied to. -/
theorem Placed.target {j : Nat} (less : j < copySize filesz memsz) :
    uadd vaddr j = vaddr + j := by
  have size := copySize_le filesz memsz
  have noWrap := placed.noWrap
  exact uadd_of_lt (by omega)

/-- Addresses that are copied from. -/
theorem Placed.source {j : Nat} (less : j < copySize filesz memsz) :
    uadd (uadd image offset) j = image + offset + j := by
  have size := copySize_le filesz memsz
  have inside := placed.inside
  have bound := placed.buffer.small
  simp only [uadd, uintWidth] at *
  omega

/-- When the loop over pages ends. -/
theorem Placed.ends : (∃ turns, (mapPages blocks (fun _ => some (vaddr + memsz)) turns
    (alignDown vaddr) m).isSome) ↔ vaddr + memsz ≤ lastPage := by
  have noWrap := placed.noWrap
  have aligned : alignDown vaddr % frameSize = 0 := by
    simp only [alignDown, frameSize]
    omega
  have inRange : alignDown vaddr < uintWidth := by
    have below : alignDown vaddr ≤ vaddr := Nat.sub_le ..
    omega
  rw [mapPages_isSome aligned inRange]
  simp only [alignDown, frameSize, lastPage, uintWidth] at *
  omega

include sound

/-- Pages and bytes. -/
theorem Placed.run : m.elfLoadSegment blocks turns image seg =
    (mapPages blocks (fun _ => some (vaddr + memsz)) turns (alignDown vaddr) m).bind fun m =>
      (memcpy vaddr (uadd image offset) (copySize filesz memsz) m).bind fun m =>
        some (m, segmentReads image seg offset filesz memsz) := by
  have size := copySize_le filesz memsz
  have apart := placed.apart
  rw [elfLoadSegment_of_apart sound placed.buffer placed.covers placed.header,
    uadd_of_lt placed.noWrap]
  intro j less here
  rw [placed.target less] at here
  have below : alignDown vaddr ≤ vaddr := Nat.sub_le ..
  unfold InBuffer at here
  omega

/-- A machine that has loaded a segment was ready for it. -/
theorem LoadsSegment.ready {reads : Reads}
    (ran : m.elfLoadSegment blocks turns image seg = some (m', reads))
    (loads : LoadsSegment m m' image offset vaddr filesz memsz) :
    SegmentReady m vaddr filesz memsz := by
  have size := copySize_le filesz memsz
  have noWrap := placed.noWrap
  rw [placed.run sound] at ran
  obtain ⟨m₁, maps, rest⟩ := Option.bind_eq_some_iff.mp ran
  obtain ⟨m₂, copied, done⟩ := Option.bind_eq_some_iff.mp rest
  cases done
  have last := placed.ends.mp ⟨turns, by rw [maps]; rfl⟩
  obtain ⟨grown, given, elsewhere⟩ := mapPages_segment sound last (by omega) maps
  have same := (memcpy_frame copied).same
  have behind (a : Nat) (low : vaddr ≤ a) (high : a < vaddr + memsz) :
      ∃ frame, m.frameFor (vaddr / frameSize) (a / frameSize) = some frame ∧
        frame < m.paging.framecount ∧
          m₁.translate a = some (frame * frameSize + a % frameSize) := by
    have pages := inPages low high
    have frame := (given a pages.1 pages.2).2
    have there := loads.mapped a low high
    rw [byte_isSome, same.translate, Option.isSome_iff_exists] at there
    obtain ⟨q, found⟩ := there
    have memory := grown.sound.translate_eq_some.mp found
    rw [frame, grown.framecount] at memory
    cases turn : m.frameFor (vaddr / frameSize) (a / frameSize) with
    | none =>
      rw [turn] at memory
      have small := sound.small
      simp only [missingFrame, frameNumbers, Option.getD_none] at *
      omega
    | some number =>
      rw [turn] at memory
      exact ⟨number, rfl, memory.2.1, found.trans (congrArg some memory.2.2)⟩
  refine ⟨last, fun a low high => ?_, fun a low high frame turn => ?_,
    fun a outside low high unmapped => ?_⟩
  · obtain ⟨frame, turn, memory, _⟩ := behind a low high
    exact ⟨frame, turn, memory⟩
  · obtain ⟨number, turn', _, found⟩ := behind a (by omega) high
    rw [turn] at turn'
    cases turn'
    have pages := inPages (by omega) high
    have byte := loads.zeroed a low high
    rw [memcpy_elsewhere grown.sound copied (.inl (given a pages.1 pages.2).1) fun j less => by
      rw [placed.target less]
      omega, Machine.byte, found, grown.physical] at byte
    exact Option.some.inj byte
  · by_contra there
    obtain ⟨q, found⟩ := Option.ne_none_iff_exists'.mp there
    have kept := (loads.kept a outside (by rw [byte_isSome, found]; rfl)).1
    rw [same.translate, found] at kept
    have first := (sound.translate_eq_some.mp found).2.2
    have second := (grown.sound.translate_eq_some.mp kept).2.2
    have nonzero := (given a low high).1
    rw [unmapped] at first
    simp only [frameSize] at first second nonzero
    omega

/-- A machine that is ready for a segment loads it. -/
theorem SegmentReady.loads (ready : SegmentReady m vaddr filesz memsz) :
    ∃ turns m' reads, m.elfLoadSegment blocks turns image seg = some (m', reads) ∧
      LoadsSegment m m' image offset vaddr filesz memsz := by
  have size := copySize_le filesz memsz
  have noWrap := placed.noWrap
  have inside := placed.inside
  have bound := placed.buffer.small
  have apart := placed.apart
  have buffer := placed.buffer
  have below : alignDown vaddr ≤ vaddr := Nat.sub_le ..
  have target {j : Nat} (less : j < copySize filesz memsz) := placed.target less
  have source {j : Nat} (less : j < copySize filesz memsz) := placed.source less
  obtain ⟨turns, ended⟩ := placed.ends.mpr ready.ends
  obtain ⟨m₁, maps⟩ := Option.isSome_iff_exists.mp ended
  obtain ⟨grown, given, elsewhere⟩ := mapPages_segment sound ready.ends (by omega) maps
  have behind (a : Nat) (low : vaddr ≤ a) (high : a < vaddr + memsz) :
      (m₁.page (a / frameSize)).frame ≠ 0 ∧
        ∃ frame, m.frameFor (vaddr / frameSize) (a / frameSize) = some frame ∧
          m₁.translate a = some (frame * frameSize + a % frameSize) := by
    have pages := inPages low high
    have page := given a pages.1 pages.2
    obtain ⟨frame, turn, memory⟩ := ready.frames a low high
    rw [turn] at page
    have number : (m₁.page (a / frameSize)).frame = frame := page.2
    have found := grown.sound.translate_of_frame page.1 (by rwa [number, grown.framecount])
    rw [number] at found
    exact ⟨page.1, frame, turn, found⟩
  have targets (j : Nat) (less : j < copySize filesz memsz) :
      (m₁.page (uadd vaddr j / frameSize)).frame ≠ 0 := by
    rw [target less]
    exact (behind (vaddr + j) (by omega) (by omega)).1
  have returns : (memcpy vaddr (uadd image offset) (copySize filesz memsz) m₁).isSome := by
    refine memcpy_isSome.mpr ⟨fun j less => ?_, (buffer.grown grown).mapped grown.sound
      fun j less => ?_⟩
    · obtain ⟨frame, _, found⟩ := (behind (vaddr + j) (by omega) (by omega)).2
      rw [target less, found]
      rfl
    · rw [source less]
      exact ⟨by omega, by omega⟩
  obtain ⟨m₂, copied⟩ := Option.isSome_iff_exists.mp returns
  have same := (memcpy_frame copied).same
  have inject {i a q : Nat} (less : i < copySize filesz memsz)
      (first : m₁.translate (uadd vaddr i) = some q) (second : m₁.translate a = some q) :
      uadd vaddr i = a := grown.sound.translate_inj (targets i less) first second
  have mapped (i : Nat) (less : i < copySize filesz memsz) :
      ∃ q, m₁.translate (uadd vaddr i) = some q :=
    Option.isSome_iff_exists.mp ((memcpy_isSome.mp returns).1 i less)
  refine ⟨turns, m₂, segmentReads image seg offset filesz memsz, ?_, ?_⟩
  · rw [placed.run sound, maps, Option.bind_some, copied]
    rfl
  refine ⟨fun i file memory => ?_, fun a low high => ?_, fun a low high => ?_,
    fun a outside there => ?_, fun q outside => ?_⟩
  · have less : i < copySize filesz memsz := by
      unfold copySize
      split
      · exact memory
      · exact file
    have stored := memcpy_stored copied (fun i less j less' equal => ?_)
      (fun i less j less' equal => ?_) less
    · rw [target less, source less] at stored
      rw [stored]
      exact grown.byte sound (buffer.held _ ⟨by omega, by omega⟩).1
    · obtain ⟨q, found⟩ := mapped i less
      have both := inject less found (equal.symm.trans found)
      rw [target less, target less'] at both
      omega
    · obtain ⟨q, found⟩ := mapped i less
      have both := inject less found (equal.symm.trans found)
      rw [target less, source less'] at both
      omega
  · obtain ⟨nonzero, frame, turn, found⟩ := behind a (by omega) high
    rw [memcpy_elsewhere grown.sound copied (.inl nonzero) fun j less => by
      rw [target less]
      omega, Machine.byte, found, grown.physical]
    exact congrArg some (ready.zeros a low high frame turn)
  · obtain ⟨_, frame, _, found⟩ := behind a low high
    rw [byte_isSome, same.translate, found]
    rfl
  · have page : m₁.page (a / frameSize) = m.page (a / frameSize) := by
      by_cases pages : alignDown vaddr ≤ a ∧ a / frameSize * frameSize < vaddr + memsz
      · refine grown.held _ fun unmapped => ?_
        rw [byte_isSome, ready.whole a outside pages.1 pages.2 unmapped] at there
        cases there
      · exact elsewhere a pages
    have translates := translate_congr sound grown.sound page grown.framecount
    refine ⟨(same.translate a).trans translates, ?_⟩
    rw [memcpy_elsewhere grown.sound copied (.inr targets) fun j less => by
      rw [target less]
      omega]
    exact byte_congr translates fun q _ => congrFun grown.physical q
  · rw [(memcpy_frame copied).kept q fun i less target' => ?_, grown.physical]
    refine outside (vaddr + i) (by omega) (by omega) ?_
    rw [same.translate, ← target less]
    exact target'

end Placed

/-- 128 KB of memory, of which the first page is mapped. -/
def smallBoot : Paging := ((Paging.empty 0x20000 1).makePage FirstPages.blocks 0 1 1 true).1

/-- The first page is mapped, and nothing else. -/
def firstMachine (physical : Bytes) : Machine :=
  { paging := smallBoot, directory := 1, physical }

/-- A machine after boot is sound. -/
theorem firstMachine_sound (physical : Bytes) : (firstMachine physical).Sound := by
  have start : pagingSystem.initial smallBoot :=
    ⟨0x20000, by decide, 1, FirstPages.blocks, 1, 0, by decide, rfl⟩
  have invariant := Paging.PagingInvariant.start start
  have fed : smallBoot.starved = false := by decide
  have live : 1 ∈ smallBoot.directory := by decide
  refine .of_fed invariant fed live fun n nonzero => ?_
  -- frame 0 is the only one in use
  have held := Paging.holds_eq_some.mpr ⟨nonzero, rfl⟩
  have marked := ((invariant.frames fed).owned.used_iff _).mpr (.inr ⟨_, held⟩)
  generalize ((firstMachine physical).page n).frame = frame at *
  have map : smallBoot.framemap = Function.update (fun _ => 0#32) 0 1#32 := rfl
  rw [Paging.marked, map, Function.update_apply] at marked
  split at marked
  · have bits : ∀ j < 32, (1#32).getLsbD j = true → j = 0 := by decide
    have bit := bits (frame % 32) (Nat.mod_lt _ (by decide)) marked
    omega
  · simp at marked

/-- A word, the lowest byte first. -/
def bytes32 (v : Nat) : List (BitVec 8) :=
  [BitVec.ofNat 8 v, BitVec.ofNat 8 (v / 256), BitVec.ofNat 8 (v / 65536),
    BitVec.ofNat 8 (v / 16777216)]

/-- An executable for this machine with one program header, of a type, and three bytes. -/
def smallImage (type vaddr filesz memsz : Nat) : List (BitVec 8) :=
  bytes32 0x464C457F ++ [1, 1, 1, 0, 0, 0, 0, 0, 0, 0, 0, 0] ++ [2, 0, 3, 0] ++ bytes32 1 ++
    bytes32 vaddr ++ bytes32 52 ++ bytes32 0 ++ bytes32 0 ++
    [52, 0, 32, 0, 1, 0, 0, 0, 0, 0, 0, 0] ++
    bytes32 type ++ bytes32 84 ++ bytes32 vaddr ++ bytes32 vaddr ++ bytes32 filesz ++
    bytes32 memsz ++ bytes32 7 ++ bytes32 4096 ++ [11, 12, 13]

/-- The machine with an image in a page at 0x1000. All other bytes of memory are 7. -/
def imageMachine (image : List (BitVec 8)) : Machine :=
  (firstMachine fun a => image.getD (a - 4096) 7).makePage FirstPages.blocks 4096

/-- The machine with an image is sound. -/
theorem imageMachine_sound (image : List (BitVec 8)) : (imageMachine image).Sound :=
  (firstMachine_sound _).makePage FirstPages.blocks (by decide)

/-- The page at 0x1000 holds a buffer. -/
theorem imageMachine_buffer (image : List (BitVec 8)) {n : Nat} (small : n ≤ frameSize) :
    (imageMachine image).Buffer 4096 n := by
  simp only [frameSize] at small
  refine ⟨?_, fun a inside => ?_⟩
  · simp only [uintWidth]
    omega
  · have page : a / frameSize = 1 := by
      unfold InBuffer at inside
      simp only [frameSize]
      omega
    have frame : ((smallBoot.makePage FirstPages.blocks 4096 userFlags 1 true).1.pageNo 1
        1).frame = 1 := by decide
    have number : ((imageMachine image).page 1).frame = 1 := frame
    have count : (imageMachine image).paging.framecount = 32 := rfl
    rw [page, number, count]
    exact ⟨by decide, by decide⟩

/-- The program header of the image has its place. -/
theorem imageMachine_placed {filesz memsz : Nat} (file : filesz ≤ 3) (memory : memsz ≤ 5)
    (header : (imageMachine (smallImage ptLoad 0x2000 filesz memsz)).ProgramHeader 4148 84 0x2000
      filesz memsz) :
    (imageMachine (smallImage ptLoad 0x2000 filesz memsz)).Placed 4096 87 4148 84 0x2000 filesz
      memsz := by
  refine ⟨imageMachine_buffer _ (by decide), ?_, header, by omega, by simp only [uintWidth]; omega,
    .inl (by decide)⟩
  unfold CoversHeader Covers InBuffer
  decide

/-- The program header of three bytes in the file and in memory. -/
theorem threeBytes_header :
    (imageMachine (smallImage ptLoad 0x2000 3 3)).ProgramHeader 4148 84 0x2000 3 3 :=
  ⟨by decide, by decide, by decide, by decide⟩

end Machine

end Nupkux
