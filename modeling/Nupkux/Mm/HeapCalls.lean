import Nupkux.Mm.HeapGrowth

/-!
# What a call does to the live blocks

`heap_malloc`, `heap_free` and `heap_realloc` exchange some live blocks for others: they make one,
give one back, or do both, and keep all the others with their bytes. The order of the index, which
decides which hole is taken, is no concern here.
-/

namespace Nupkux

open Tiling

namespace KernelHeap

variable {k k' : KernelHeap} {m m' : Bytes} {b x : Block}
  {left before middle after right blocks blocks' : List Block} {size ptr address start : Nat}
  {places : List (Nat × Block)} {place : Nat × Block}

/-! ## Live blocks are apart -/

/-- Two places do not overlap. -/
def Apart (place other : Nat × Block) : Prop :=
  place.1 + place.2.size ≤ other.1 ∨ other.1 + other.2.size ≤ place.1

/-- Live blocks do not overlap. -/
theorem live_apart (start : Nat) (blocks : List Block) : (live start blocks).Pairwise Apart := by
  induction blocks generalizing start with
  | nil => exact .nil
  | cons b blocks ih =>
    have rest := ih (start + b.size)
    unfold live at *
    rw [places, List.filter_cons]
    split
    · refine List.pairwise_cons.mpr ⟨fun place member => .inl ?_, rest⟩
      obtain ⟨_, _, _, here⟩ := mem_places.mp (List.mem_of_mem_filter member)
      show start + b.size ≤ place.1
      omega
    · exact rest

/-- Places apart are so in any order. -/
theorem apart_perm {places places' : List (Nat × Block)} (perm : places.Perm places') :
    places.Pairwise Apart ↔ places'.Pairwise Apart :=
  perm.pairwise_iff fun apart => apart.symm

/-- A place that is apart from others has another address. -/
theorem Apart.ne {other : Nat × Block} (apart : Apart place other) : place.1 ≠ other.1 := by
  have large := place.2.large
  have large' := other.2.large
  have some_size : 0 < headerSize + footerSize := by decide
  unfold Apart at apart
  omega

/-! ## The heap between two calls -/

/-- A heap as it should be between two calls. -/
structure Sound (k : KernelHeap) (blocks : List Block) : Prop where
  wellFormed : k.WellFormed blocks
  coalesced : Coalesced blocks
  pages : k.WholePages

/-- A call has exchanged some live blocks for others and has kept the rest with their bytes. -/
structure Exchanged (k k' : KernelHeap) (blocks blocks' : List Block)
    (gone made kept : List (Nat × Block)) : Prop where
  sound : k'.Sound blocks'
  start : k'.heap.start = k.heap.start
  before : (live k.heap.start blocks).Perm (gone ++ kept)
  after : (live k.heap.start blocks').Perm (made ++ kept)
  same : ∀ place ∈ kept, Bytes.Same place.1 (place.1 + place.2.size) k.memory k'.memory

/-! ## Allocation -/

/-- A block can be allocated: a hole is large enough, or the heap can grow and be extended. -/
def Serves (k : KernelHeap) (blocks : List Block) (size : Nat) : Prop :=
  1 ≤ size ∧ ((∃ hole ∈ blocks, hole.hole = true ∧ size + (headerSize + footerSize) ≤ hole.size) ∨
    NoneLarge blocks size ∧ k.CanGrow size ∧ k.CanExtend blocks size)

/-- A hole that is large enough is found. -/
theorem WellFormed.exists_found (wf : k.WellFormed blocks)
    (sufficient : ∃ hole ∈ blocks, hole.hole = true ∧
      size + (headerSize + footerSize) ≤ hole.size) :
    ∃ before hole after i, blocks = before ++ hole :: after ∧ hole.hole = true ∧
      size + (headerSize + footerSize) ≤ hole.size ∧ i < k.heap.entrycount ∧
      k.entry i = k.heap.start + total Block.size before ∧
      k.findSmallestHole (size + (headerSize + footerSize)) false = some i := by
  obtain ⟨hole, member, isHole, large⟩ := sufficient
  obtain ⟨before, after, rfl⟩ := List.append_of_mem member
  obtain ⟨j, inside, entry⟩ := wf.entry_of_hole isHole
  cases found : k.findSmallestHole (size + (headerSize + footerSize)) false with
  | none =>
    have small := findSmallestHole_none.mp found (k.entry j)
      (List.mem_map.mpr ⟨j, List.mem_range.mpr inside, rfl⟩)
    rw [suits_iff, entry, wf.tagged.size] at small
    exact absurd large small
  | some i =>
    obtain ⟨bound, suits, _⟩ := findSmallestHole_some found
    obtain ⟨before', other, after', here, isHole', entry'⟩ := wf.hole_of_entry bound
    have wf' : k.WellFormed (before' ++ other :: after') := by rwa [← here]
    rw [suits_iff, entry', wf'.tagged.size] at suits
    exact ⟨before', other, after', i, here, isHole', suits, bound, entry', rfl⟩

/-- What has been put into a hole fills it. -/
theorem Allocated.total_eq {hole : Block} {front rest : List Block} {result : Nat}
    (allocated : Allocated k k' size result before front hole b rest after)
    (wf : k.WellFormed (before ++ hole :: after)) :
    total Block.size (front ++ b :: rest) = hole.size := by
  have old := wf.tiles.stop_eq
  have new := allocated.wellFormed.tiles.stop_eq
  rw [allocated.start, allocated.end_, total_append, total_append] at new
  rw [total_append, total] at old
  omega

/-- The live blocks when a hole has been replaced by a block. -/
theorem Allocated.live_perm {hole : Block} {front rest : List Block} {result : Nat}
    (allocated : Allocated k k' size result before front hole b rest after)
    (wf : k.WellFormed (before ++ hole :: after)) (isHole : hole.hole = true) :
    (live k.heap.start (before ++ (front ++ b :: rest) ++ after)).Perm
      ((k.heap.start + total Block.size (before ++ front), b) ::
        live k.heap.start (before ++ hole :: after)) := by
  have stop : total Block.size (before ++ (front ++ b :: rest)) =
      total Block.size before + hole.size := by
    rw [total_append, allocated.total_eq wf]
  have skip : live (k.heap.start + total Block.size before) (hole :: after) =
      live (k.heap.start + total Block.size before + hole.size) after := by
    rw [live, places, List.filter_cons, if_neg (by rw [isHole]; decide)]
    rfl
  rw [live_append, live_append, live_append, live_of_atMostAHole allocated.inFront,
    List.nil_append, live_cons_of_block allocated.block, live_of_atMostAHole allocated.behind, stop,
    live_append, skip, ← Nat.add_assoc, List.append_assoc, total_append, ← Nat.add_assoc]
  exact List.perm_middle

/-- The other blocks keep their bytes when a hole has been replaced by a block. -/
theorem Allocated.same {hole : Block} {front rest : List Block} {result : Nat}
    (allocated : Allocated k k' size result before front hole b rest after)
    (wf : k.WellFormed (before ++ hole :: after)) (isHole : hole.hole = true) :
    ∀ place ∈ live k.heap.start (before ++ hole :: after),
      Bytes.Same place.1 (place.1 + place.2.size) k.memory k'.memory := by
  intro place member
  obtain ⟨first, _, last⟩ := tiles_middle.mp wf.tiles
  rw [live_append] at member
  rcases List.mem_append.mp member with member | member
  · obtain ⟨low, high⟩ := first.bounds (mem_live.mp (show (place.1, place.2) ∈ _ from member)).1
    exact allocated.low.mono low high
  · rw [live, places, List.filter_cons, if_neg (by rw [isHole]; decide)] at member
    obtain ⟨low, high⟩ := last.bounds (mem_live.mp (show (place.1, place.2) ∈ _ from member)).1
    exact allocated.high.mono low high

/-- An aligned address is on a page boundary. -/
theorem assertAlign_mod (value : Nat) : assertAlign value % frameSize = 0 := by
  unfold assertAlign
  split
  · simp only [uadd, frameSize, uintWidth]
    omega
  · omega

/-- `heap_malloc` when a block can be allocated. -/
theorem heapMalloc_exchanged (sound : k.Sound blocks) (serves : k.Serves blocks size) {depth : Nat}
    (served : heapMalloc depth size false k = some (k', ptr)) :
    ∃ blocks' address b, ptr = address + headerSize ∧ b.hole = false ∧
      size + (headerSize + footerSize) ≤ b.size ∧
      Exchanged k k' blocks blocks' [] [(address, b)] (live k.heap.start blocks) := by
  have wf := sound.wellFormed
  obtain ⟨positive, sufficient | ⟨none, can, extend⟩⟩ := serves
  · obtain ⟨before, hole, after, i, rfl, isHole, large, inside, entry, found⟩ :=
      wf.exists_found sufficient
    cases depth with
    | zero => cases served
    | succ depth =>
      have small := hole.small
      have widths : sizeWidth < uintWidth := by decide
      have newsize : uadd size (headerSize + footerSize) = size + (headerSize + footerSize) :=
        uadd_of_lt (by omega)
      have nonzero : size ≠ 0 := Nat.ne_of_gt positive
      rw [heapMalloc, newsize, if_neg nonzero, found, Option.some.injEq] at served
      have wf' : k.WellFormed (before ++ [hole] ++ after) := by rwa [← List.append_cons]
      obtain ⟨b, rest, allocated, _⟩ := carve_allocated wf' isHole inside entry large
      rw [served] at allocated
      obtain ⟨first, last, begins⟩ := sound.coalesced.behind isHole
      have pages : k'.WholePages := by
        have same : k'.heap.size = k.heap.size := by
          rw [Heap.size, allocated.start, allocated.end_]
          rfl
        exact ⟨by rw [same]; exact sound.pages.aligned, by rw [same]; exact sound.pages.atLeast⟩
      have sound' : k'.Sound (before ++ ([] ++ b :: rest) ++ after) :=
        ⟨allocated.wellFormed, coalesced_placed first last begins allocated.block allocated.behind,
          pages⟩
      exact ⟨_, _, b, allocated.result, allocated.block, allocated.enough, sound', allocated.start,
        .refl _, allocated.live_perm wf isHole, allocated.same wf isHole⟩
  · obtain ⟨_, left, tail, rfl, offers, fits⟩ := extend
    obtain ⟨k₁, result, blocks', served', extended, coalesced⟩ :=
      extended_coalesced_of_fits wf offers none positive can fits
    obtain ⟨size_eq, low, stop, enough, inRange⟩ := can.ends wf
    have same : (k₁, result) = (k', ptr) := by
      rcases depth with _ | _ | depth
      · cases served
      · obtain ⟨paging, _, grows⟩ := heapMalloc_grows wf none positive can
        rw [grows 0] at served
        cases served
      · exact Option.some.inj ((served' depth).symm.trans served)
    obtain ⟨rfl, rfl⟩ := Prod.mk.inj same
    obtain ⟨address, b, here, block, large, perm⟩ := extended.allocated
    have grown : k₁.heap.size = k.grownSize size := by
      rw [Heap.size, extended.start, extended.end_, ← stop]
      rw [← stop] at inRange
      rw [usub_of_le (Nat.le_add_right ..) inRange]
      exact Nat.add_sub_cancel_left ..
    have pages : k₁.WholePages := by
      have atLeast := sound.pages.atLeast
      refine ⟨?_, ?_⟩
      · rw [grown]
        exact assertAlign_mod _
      · rw [grown]
        exact Nat.le_trans atLeast (Nat.le_trans (Nat.le_add_right ..) can.whole)
    exact ⟨blocks', address, b, here, block, large,
      ⟨extended.wellFormed, coalesced sound.coalesced, pages⟩, extended.start, .refl _, perm,
      extended.others⟩

/-! ## Release -/

/-- The hole before a freed block can grow by it, or the block can be entered as a hole. There is
no hole behind it. -/
def CanMerge (k : KernelHeap) (left before : List Block) (b : Block) (after : List Block) : Prop :=
  after = [] ∧
  (before = [] → k.heap.entrycount < k.heap.maxentries ∧ (left = [] →
    ¬holeBefore (setFlag k.memory k.heap.start mmFlagHole) k.heap.start)) ∧
  (before ≠ [] → total Block.size (before ++ [b]) < sizeWidth)

/-- A live block can be given back, at the end of the heap or away from it. -/
def Releases (k : KernelHeap) (blocks : List Block) (ptr : Nat) : Prop :=
  ∃ left before b after right, blocks = left ++ (before ++ b :: after) ++ right ∧
    Neighbours left before b after right ∧
    ptr = k.heap.start + total Block.size (left ++ before) + headerSize ∧
    (right = [] → k.CanShrink left before b after) ∧ (right ≠ [] → k.CanMerge left before b after)

/-- Some neighbouring blocks have become one hole in a heap that is as it should be. -/
structure Merged (k k' : KernelHeap) (left middle right : List Block) : Prop where
  wellFormed : ∃ hole : Block, hole.hole = true ∧ k'.WellFormed (left ++ [hole] ++ right)
  start : k'.heap.start = k.heap.start
  end_ : k'.heap.end_ = k.heap.end_
  low : Bytes.Same k.heap.start (k.heap.start + total Block.size left) k.memory k'.memory
  high : Bytes.Same (k.heap.start + total Block.size (left ++ middle)) k.heap.end_ k.memory
    k'.memory

/-- A block behind a hole has been freed, away from the end of the heap. -/
theorem merged_behind {first : Block} (wf : k.WellFormed (left ++ [first, b] ++ right))
    (isHole : first.hole = true) (block : b.hole = false) (beginsInUse : BeginsInUse right)
    (inside : right ≠ []) (fits : first.size + b.size < sizeWidth) :
    Merged k (k.heapFree (k.heap.start + total Block.size left + first.size + headerSize)) left
      [first, b] right := by
  have wf₁ : k.WellFormed (left ++ first :: (b :: right)) := by
    rwa [List.append_assoc] at wf
  have wf₂ : k.WellFormed (left ++ [first] ++ b :: right) := by rwa [List.append_cons] at wf₁
  have last : total Block.size (left ++ [first, b]) =
      total Block.size left + (first.size + b.size) := total_append ..
  have next := wf₂.tagged
  rw [total_append, show total Block.size [first] = first.size from rfl, ← Nat.add_assoc] at next
  have below := wf.total_lt inside
  rw [last] at below
  have inRange := wf.inRange
  have large := b.large
  obtain ⟨m, freed, looks, only⟩ := heapFree_behind isHole wf₁.tagged next (by omega)
  have kept : Bytes.Same (k.heap.start + total Block.size left + first.size + b.size) k.heap.end_
      k.memory m := only.same (.inr (Nat.le_refl _))
  have settled := settle_of_beginsInUse wf inside beginsInUse (by rw [last]; omega) (by omega) kept
    (k.heap.start + total Block.size left)
  rw [freed, settled]
  have low : Bytes.Same k.heap.start (k.heap.start + total Block.size left) k.memory m :=
    only.same (.inl (Nat.le_refl _))
  have high : Bytes.Same (k.heap.start + total Block.size (left ++ [first, b])) k.heap.end_
      k.memory m := only.same (.inr (by omega))
  let hole := Block.free (first.size + b.size) (by omega) fits
  have size : hole.size = first.size + b.size := rfl
  have isHole' : hole.hole = true := rfl
  refine ⟨⟨hole, isHole', ?_⟩, rfl, rfl, low, high⟩
  apply wf.replace
  · rfl
  · exact wf.capacity
  · refine ⟨looks.tagged isHole', ?_⟩
    show k.heap.start + total Block.size left + hole.size = _
    rw [size, last, Nat.add_assoc]
  · exact low
  · exact high
  · rw [wf.index_setMemory only (Nat.le_add_right ..), holes_cons_of_hole isHole']
    have index := wf.index
    rwa [holes_append, holes_append, holes_cons_of_hole isHole, holes_cons_of_block block] at index

/-- A block has been freed away from the end of the heap. -/
theorem heapFree_merged (wf : k.WellFormed (left ++ (before ++ b :: after) ++ right))
    (neighbours : Neighbours left before b after right) (inside : right ≠ [])
    (can : k.CanMerge left before b after) :
    Merged k (k.heapFree (k.heap.start + total Block.size (left ++ before) + headerSize)) left
      (before ++ b :: after) right := by
  obtain ⟨rfl, alone, behind⟩ := can
  rcases neighbours.before with rfl | ⟨first, rfl, isHole⟩
  · obtain ⟨room, clear⟩ := alone rfl
    have wf' : k.WellFormed (left ++ b :: right) := by
      rwa [List.nil_append, ← List.append_cons] at wf
    obtain ⟨m, freed, looks, only⟩ := heapFree_between wf' (clear_of_left wf' neighbours.left clear)
      neighbours.right inside
    rw [List.append_nil, freed]
    let hole := Block.free b.size b.large b.small
    have isHole : hole.hole = true := rfl
    have entered := entered_alone wf neighbours.block isHole rfl looks only room
    exact ⟨⟨hole, isHole, entered.wellFormed⟩, entered.start, entered.end_, entered.low,
      entered.high⟩
  · have place : k.heap.start + total Block.size (left ++ [first]) + headerSize =
        k.heap.start + total Block.size left + first.size + headerSize := by
      rw [total_append, ← Nat.add_assoc]
      rfl
    rw [place]
    exact merged_behind wf isHole neighbours.block neighbours.right inside
      (behind (List.cons_ne_nil _ _))

/-! ## The end of the heap after a release -/

/-- The end of the heap is where it was, or where whole pages in use end. -/
def EndsAt (k k' : KernelHeap) : Prop :=
  k'.heap.end_ = k.heap.end_ ∨
    ∃ used < k.heap.size, k'.heap.end_ = uadd k.heap.start (keptSize used)

/-- `heap_free` gives back whole pages. -/
theorem shrink_endsAt (k : KernelHeap) (header : Nat) : k.EndsAt (k.shrink header) := by
  have contracted : k.EndsAt (k.contractHeap (usub header k.heap.start)).1 := by
    by_cases less : usub header k.heap.start < k.heap.size
    · exact .inr ⟨_, less, by rw [(contractHeap_eq less).2]⟩
    · exact .inl (by rw [(contractHeap_of_size_le (Nat.le_of_not_lt less)).2])
  rcases k.shrink_cases header with ⟨size, footer, stored⟩ | taken
  · rw [stored]
    exact contracted
  · unfold EndsAt
    rw [taken, heapDelEntry_heap]
    exact contracted

/-- Also when the hole behind the block has been joined. -/
theorem settle_endsAt (k : KernelHeap) (header footer : Nat) :
    k.EndsAt (k.settle header footer) := by
  have joined (tmpheader : Nat) : (k.joinAfter header tmpheader).1.heap = { k.heap with
      entrycount := (k.joinAfter header tmpheader).1.heap.entrycount } := by
    unfold joinAfter
    dsimp only
    rw [heapDelEntry_heap]
    rfl
  unfold settle
  dsimp only
  split
  · split
    · have shrunk := (k.joinAfter header (uadd footer footerSize)).1.shrink_endsAt header
      unfold EndsAt Heap.size at *
      rwa [joined] at shrunk
    · left
      rw [joined]
  · split
    · exact k.shrink_endsAt header
    · exact .inl rfl

/-- `heap_free` moves the end of the heap by whole pages. -/
theorem heapFree_endsAt (k : KernelHeap) (ptr : Nat) : k.EndsAt (k.heapFree ptr) := by
  have settled (m : Bytes) (header footer : Nat) :
      k.EndsAt ((k.setMemory m).settle header footer) := settle_endsAt (k.setMemory m) header footer
  have entered (k' : KernelHeap) (entry : Nat) (ends : k.EndsAt k') :
      k.EndsAt (k'.heapAddEntry entry) := by
    have same : (k'.heapAddEntry entry).heap.end_ = k'.heap.end_ := by rw [heapAddEntry_heap]
    unfold EndsAt
    rwa [same]
  unfold heapFree joinBefore
  dsimp only
  split
  · exact .inl rfl
  · split
    · exact .inl rfl
    · split
      · rw [setMemory_setMemory]
        exact settled ..
      · exact entered _ _ (settled ..)

/-- The heap has whole pages after a release. -/
theorem EndsAt.pages (ends : k.EndsAt k') (wf : k.WellFormed blocks) (pages : k.WholePages)
    (start : k'.heap.start = k.heap.start) (atLeast : mmKheapMin ≤ k'.heap.size) :
    k'.WholePages := by
  refine ⟨?_, atLeast⟩
  unfold Heap.size at *
  rw [start] at *
  rcases ends with same | ⟨used, less, ends⟩
  · rw [same]
    exact pages.aligned
  · have low := wf.start_ge
    have inRange := wf.inRange
    have stop := wf.tiles.stop_eq
    have size : k.heap.size = k.heap.end_ - k.heap.start := usub_of_le (by omega) inRange
    have page : frameSize = 4096 := rfl
    have width : uintWidth = 4294967296 := rfl
    obtain ⟨_, below, _⟩ := keptSize_bounds less pages.aligned pages.atLeast (by omega)
    have least : mmKheapMin % frameSize = 0 := rfl
    rw [ends, uadd_of_lt (by omega), usub_of_le (Nat.le_add_right ..) (by omega),
      Nat.add_sub_cancel_left]
    unfold keptSize
    rcases Nat.le_total (assertAlign used) mmKheapMin with small | large
    · rw [Nat.max_eq_right small]
      exact least
    · rw [Nat.max_eq_left large]
      exact assertAlign_mod _

/-- The live blocks around a block with the holes next to it. -/
theorem live_neighbours (neighbours : Neighbours left before b after right) (start : Nat) :
    live start (left ++ (before ++ b :: after) ++ right) =
      live start left ++ (start + total Block.size (left ++ before), b) ::
        live (start + total Block.size (left ++ (before ++ b :: after))) right := by
  have place : start + total Block.size left + total Block.size before =
      start + total Block.size (left ++ before) := by
    rw [total_append, Nat.add_assoc]
  rw [live_append, live_append, live_append, live_of_atMostAHole neighbours.before,
    List.nil_append, live_cons_of_block neighbours.block, live_of_atMostAHole neighbours.after,
    place, List.append_assoc]
  rfl

/-- `heap_free` of a block that can be given back. -/
theorem heapFree_exchanged (sound : k.Sound blocks) (releases : k.Releases blocks ptr) :
    ∃ blocks' address b kept, ptr = address + headerSize ∧
      Exchanged k (k.heapFree ptr) blocks blocks' [(address, b)] [] kept := by
  obtain ⟨left, before, b, after, right, rfl, neighbours, rfl, atEnd, away⟩ := releases
  obtain ⟨wf, coalesced, pages⟩ := sound
  have around := live_neighbours neighbours k.heap.start
  have ends := k.heapFree_endsAt (k.heap.start + total Block.size (left ++ before) + headerSize)
  obtain ⟨whole, last⟩ := tiles_append.mp wf.tiles
  obtain ⟨first, _⟩ := tiles_append.mp whole
  have perm : (live k.heap.start (left ++ (before ++ b :: after) ++ right)).Perm
      ([(k.heap.start + total Block.size (left ++ before), b)] ++ (live k.heap.start left ++
        live (k.heap.start + total Block.size (left ++ (before ++ b :: after))) right)) := by
    rw [around]
    exact List.perm_middle
  by_cases none : right = []
  · subst none
    rw [List.append_nil] at wf
    have shrunk : ∃ rest, Shrunk k
        (k.heapFree (k.heap.start + total Block.size (left ++ before) + headerSize)) left rest := by
      obtain ⟨clear, clear', alone, behind⟩ := atEnd rfl
      rcases neighbours.before with rfl | ⟨hole, rfl, isHole⟩
      · rw [List.append_nil] at clear' ⊢
        exact (shrinks_alone_iff wf pages neighbours.left neighbours.block neighbours.after).mpr
          ⟨clear, clear', alone rfl⟩
      · have place : k.heap.start + total Block.size (left ++ [hole]) + headerSize =
            k.heap.start + total Block.size left + hole.size + headerSize := by
          rw [total_append, ← Nat.add_assoc]
          rfl
        rw [place]
        exact (shrinks_behind_iff wf pages isHole neighbours.block neighbours.after).mpr
          ⟨clear, behind (List.cons_ne_nil _ _)⟩
    obtain ⟨rest, shrunk⟩ := shrunk
    have coalesced' : Coalesced (left ++ rest) := by
      rw [List.append_assoc] at coalesced
      refine List.isChain_append.mpr ⟨(List.isChain_append.mp coalesced).1, ?_, ?_⟩
      · rcases shrunk.remains with rfl | ⟨hole, rfl, _⟩
        · exact .nil
        · exact .singleton _
      · intro other member _ _ both
        rw [neighbours.left other member] at both
        exact Bool.false_ne_true both.1
    refine ⟨left ++ rest, _, b, _, rfl, ⟨shrunk.wellFormed, coalesced', ?_⟩, shrunk.start, perm, ?_,
      ?_⟩
    · exact ends.pages wf pages shrunk.start shrunk.atLeast
    · rw [live_append, live_of_atMostAHole shrunk.remains]
      exact .refl _
    · intro place member
      rw [show live _ ([] : List Block) = [] from rfl, List.append_nil] at member
      obtain ⟨low, high⟩ := first.bounds (mem_live.mp (show (place.1, place.2) ∈ _ from member)).1
      exact shrunk.low.mono low high
  · obtain ⟨⟨hole, isHole, wf'⟩, start, end_, low, high⟩ :=
      heapFree_merged wf neighbours none (away none)
    have pages' : (k.heapFree (k.heap.start + total Block.size (left ++ before) +
        headerSize)).WholePages := by
      apply ends.pages wf pages start
      rw [Heap.size, start, end_]
      exact pages.atLeast
    have stop : total Block.size (left ++ [hole]) =
        total Block.size (left ++ (before ++ b :: after)) := by
      have old := wf.tiles.stop_eq
      have new := wf'.tiles.stop_eq
      rw [start, end_, total_append (left ++ [hole])] at new
      rw [total_append (left ++ _)] at old
      omega
    refine ⟨left ++ [hole] ++ right, _, b, _, rfl, ⟨wf', coalesced_around coalesced neighbours.left
      neighbours.right, pages'⟩, start, perm, ?_, ?_⟩
    · rw [live_append, live_append, stop, live_of_atMostAHole (.inr ⟨hole, rfl, isHole⟩),
        List.append_nil]
      exact .refl _
    · intro place member
      rcases List.mem_append.mp member with member | member
      · obtain ⟨above, below⟩ :=
          first.bounds (mem_live.mp (show (place.1, place.2) ∈ _ from member)).1
        exact low.mono above below
      · obtain ⟨above, below⟩ :=
          last.bounds (mem_live.mp (show (place.1, place.2) ∈ _ from member)).1
        exact high.mono above below

/-! ## Stores into a payload -/

/-- The blocks of a heap are determined by its memory. -/
theorem WellFormed.unique (wf : k.WellFormed blocks) (wf' : k.WellFormed blocks') :
    blocks = blocks' :=
  Tiles.unique (tagged_decides _) (tagged_solid _) wf.tiles wf'.tiles

/-- A store into the payload of a live block keeps the heap and the other blocks. -/
theorem Sound.stored (sound : k.Sound blocks) {kept : List (Nat × Block)}
    (perm : (live k.heap.start blocks).Perm (place :: kept))
    (only : Bytes.OnlyIn (place.1 + headerSize) (place.1 + place.2.size - footerSize) k.memory m) :
    (k.setMemory m).Sound blocks ∧
      ∀ other ∈ kept, Bytes.Same other.1 (other.1 + other.2.size) k.memory m := by
  obtain ⟨address, b⟩ := place
  obtain ⟨wf, coalesced, pages⟩ := sound
  have large := b.large
  unfold headerSize footerSize at *
  dsimp only at only
  have wide : Bytes.OnlyIn address (address + b.size) k.memory m :=
    only.mono (Nat.le_add_right ..) (Nat.sub_le ..)
  constructor
  · obtain ⟨there, block⟩ := mem_live.mp (perm.mem_iff.mpr List.mem_cons_self)
    obtain ⟨before, after, rfl, rfl⟩ := mem_places.mp there
    have wf' : k.WellFormed (before ++ [b] ++ after) := by rwa [← List.append_cons]
    have last : total Block.size (before ++ [b]) = total Block.size before + b.size :=
      total_append ..
    have replaced : (k.setMemory m).WellFormed (before ++ [b] ++ after) := by
      apply wf'.replace
      · rfl
      · exact wf.capacity
      · refine ⟨wf.tagged.same (only.same (.inl (Nat.le_refl _))) (only.same (.inr ?_)), ?_⟩
        · exact Nat.le_refl _
        · rw [last]
          exact Nat.add_assoc ..
      · exact wide.same (.inl (Nat.le_refl _))
      · rw [last, ← Nat.add_assoc]
        exact wide.same (.inr (Nat.le_refl _))
      · rw [wf.index_setMemory wide (Nat.le_add_right ..)]
        have index := wf'.index
        rwa [holes_append, holes_append] at index
    rw [← List.append_cons] at replaced
    exact ⟨replaced, coalesced, ⟨pages.aligned, pages.atLeast⟩⟩
  · intro other member
    have apart := (apart_perm perm).mp (live_apart _ _)
    rcases (List.pairwise_cons.mp apart).1 other member with below | above
    · exact wide.same (.inr below)
    · exact wide.same (.inl above)

/-- A store into the block that a call has made. -/
theorem Exchanged.stored {gone kept : List (Nat × Block)}
    (exchanged : Exchanged k k' blocks blocks' gone [place] kept)
    (only : Bytes.OnlyIn (place.1 + headerSize) (place.1 + place.2.size - footerSize)
      k'.memory m) :
    Exchanged k (k'.setMemory m) blocks blocks' gone [place] kept := by
  obtain ⟨sound, start, before, after, same⟩ := exchanged
  rw [← start] at after
  obtain ⟨sound', same'⟩ := sound.stored after only
  rw [start] at after
  exact ⟨sound', start, before, after, fun other member => (same other member).trans
    (same' other member)⟩

/-! ## Change of size -/

/-- A live block is determined by its address. -/
theorem eq_of_apart {kept : List (Nat × Block)} (apart : places.Pairwise Apart)
    (perm : places.Perm (place :: kept)) {other : Nat × Block} (member : other ∈ places)
    (same : place.1 = other.1) : other = place := by
  have all := List.pairwise_cons.mp ((apart_perm perm).mp apart)
  rcases List.mem_cons.mp (perm.mem_iff.mp member) with same | member
  · exact same
  · exact absurd same (all.1 other member).ne

/-- Blocks are coalesced with two blocks in use in place of one. -/
theorem Coalesced.cut {first rest : Block} (coalesced : Coalesced (left ++ b :: right))
    (firstBlock : first.hole = false) (restBlock : rest.hole = false) :
    Coalesced (left ++ [first] ++ rest :: right) := by
  obtain ⟨front, rear, _⟩ := List.isChain_append.mp coalesced
  refine List.isChain_append.mpr ⟨List.isChain_append.mpr ⟨front, .singleton _, ?_⟩, ?_, ?_⟩
  · intro _ _ other member both
    rw [← Option.some.inj member, firstBlock] at both
    exact Bool.false_ne_true both.2
  · refine List.isChain_cons.mpr ⟨fun _ _ both => ?_, rear.tail⟩
    rw [restBlock] at both
    exact Bool.false_ne_true both.1
  · intro _ _ other member both
    rw [← Option.some.inj member, restBlock] at both
    exact Bool.false_ne_true both.2

/-- `heap_realloc` of a block to fewer bytes, with the second part of the block given back. -/
theorem cutBlock_exchanged {first rest : Block} (sound : k.Sound (left ++ b :: right))
    (parts : Parts b first rest size)
    (releases : (k.cut (k.heap.start + total Block.size left + headerSize) size).Releases
      (left ++ [first] ++ rest :: right)
      (k.heap.start + total Block.size (left ++ [first]) + headerSize)) :
    ∃ blocks' kept, Exchanged k
      (k.cutBlock (k.heap.start + total Block.size left + headerSize) size)
      (left ++ b :: right) blocks' [(k.heap.start + total Block.size left, b)]
      [(k.heap.start + total Block.size left, first)] kept ∧
      Bytes.Same (k.heap.start + total Block.size left + headerSize)
        (k.heap.start + total Block.size left + headerSize + size) k.memory
        (k.cutBlock (k.heap.start + total Block.size left + headerSize) size).memory := by
  obtain ⟨wf, coalesced, pages⟩ := sound
  have wf₁ := parts.wellFormed wf
  have cutOff := parts.cutOff wf
  have only := parts.only wf
  have room := parts.room
  have whole := parts.whole
  have single : total Block.size (left ++ [first]) = total Block.size left + first.size :=
    total_append ..
  have sound₁ : (k.cut (k.heap.start + total Block.size left + headerSize) size).Sound
      (left ++ [first] ++ rest :: right) :=
    ⟨wf₁, coalesced.cut parts.firstBlock parts.restBlock, pages.aligned, pages.atLeast⟩
  obtain ⟨blocks', address, x, kept, here, freed⟩ := heapFree_exchanged sound₁ releases
  have place : address = k.heap.start + total Block.size left + first.size := by omega
  have start : (k.cut (k.heap.start + total Block.size left + headerSize) size).heap.start =
      k.heap.start := rfl
  rw [parts.cutBlock_eq wf, start]
  generalize (k.cut (k.heap.start + total Block.size left + headerSize) size).heapFree
    (k.heap.start + total Block.size (left ++ [first]) + headerSize) = k₁ at *
  have lives : live k.heap.start (left ++ [first] ++ rest :: right) = live k.heap.start left ++
      (k.heap.start + total Block.size left, first) ::
        (k.heap.start + total Block.size left + first.size, rest) ::
          live (k.heap.start + total Block.size left + b.size) right := by
    rw [List.append_assoc, live_append, List.singleton_append, live_cons_of_block parts.firstBlock,
      live_cons_of_block parts.restBlock, Nat.add_assoc _ first.size, whole]
  have lives' : live k.heap.start (left ++ b :: right) = live k.heap.start left ++
      (k.heap.start + total Block.size left, b) ::
        live (k.heap.start + total Block.size left + b.size) right := by
    rw [live_append, live_cons_of_block parts.block]
  have gone := freed.before
  have kept_after := freed.after
  have same := freed.same
  rw [start] at gone kept_after
  -- The freed place is that of the second part.
  have rest_place : (k.heap.start + total Block.size left + first.size, rest) = (address, x) := by
    apply eq_of_apart (live_apart _ _) gone _ place
    rw [lives]
    exact List.mem_append_right _ (List.mem_cons_of_mem _ List.mem_cons_self)
  rw [lives, ← rest_place] at gone
  have others : kept.Perm ([(k.heap.start + total Block.size left, first)] ++
      (live k.heap.start left ++
        live (k.heap.start + total Block.size left + b.size) right)) := by
    have front : (live k.heap.start left ++ (k.heap.start + total Block.size left, first) ::
        (k.heap.start + total Block.size left + first.size, rest) ::
          live (k.heap.start + total Block.size left + b.size) right).Perm
        ((k.heap.start + total Block.size left + first.size, rest) ::
          ((k.heap.start + total Block.size left, first) :: (live k.heap.start left ++
            live (k.heap.start + total Block.size left + b.size) right))) :=
      List.perm_middle.trans ((List.perm_middle.cons _).trans (.swap ..))
    exact (gone.symm.trans front).cons_inv
  refine ⟨blocks', live k.heap.start left ++
    live (k.heap.start + total Block.size left + b.size) right, ?_, ?_⟩
  · refine ⟨freed.sound, freed.start, ?_, kept_after.trans others, fun other member => ?_⟩
    · rw [lives']
      exact List.perm_middle
    · have inside : other ∈ kept := others.mem_iff.mpr (List.mem_append_right _ member)
      refine Bytes.Same.trans ?_ (same other inside)
      obtain ⟨front, _, rear⟩ := tiles_middle.mp wf.tiles
      rcases List.mem_append.mp member with member | member
      · obtain ⟨_, below⟩ :=
          front.bounds (mem_live.mp (show (other.1, other.2) ∈ _ from member)).1
        exact only.same (.inl below)
      · obtain ⟨above, _⟩ :=
          rear.bounds (mem_live.mp (show (other.1, other.2) ∈ _ from member)).1
        exact only.same (.inr above)
  · have inside : (k.heap.start + total Block.size left, first) ∈ kept :=
      others.mem_iff.mpr List.mem_cons_self
    have bytes := same _ inside
    have payload := cutOff.payload
    unfold headerSize footerSize at *
    refine (payload.mono (Nat.le_refl _) (by omega)).trans (bytes.mono ?_ ?_)
    · exact Nat.le_add_right ..
    · show _ ≤ k.heap.start + total Block.size left + first.size
      omega

/-- The bytes of a copy that were there before are the ones that are copied, even if more is read
than that. -/
theorem copy_of_first {dest source count n i : Nat} (inside : i < n) (few : n ≤ count)
    (apart : source + n ≤ dest ∨ dest + n ≤ source) :
    Bytes.copy dest source count m (dest + i) = m (source + i) := by
  have split (n rest dest source : Nat) (m : Bytes) : Bytes.copy dest source (n + rest) m =
      Bytes.copy (dest + n) (source + n) rest (Bytes.copy dest source n m) := by
    induction n generalizing dest source m with
    | zero => rw [Nat.zero_add]; rfl
    | succ n ih =>
      have step : n + 1 + rest = (n + rest) + 1 := by omega
      rw [step, Bytes.copy, Bytes.copy, ih, Nat.add_assoc, Nat.add_comm 1 n, Nat.add_assoc,
        Nat.add_comm 1 n]
  obtain ⟨rest, rfl⟩ := Nat.exists_eq_add_of_le few
  rw [split, Bytes.copy_of_outside (.inl (by omega)), Bytes.copy_of_inside inside apart]

/-- `heap_realloc` of a block to more bytes: another block is allocated, and the old one given
back. -/
theorem moved_exchanged {k₁ : KernelHeap} {res depth : Nat} (sound : k.Sound blocks)
    (member : (address, b) ∈ live k.heap.start blocks) (serves : k.Serves blocks size)
    (served : heapMalloc depth size false k = some (k₁, res))
    (more : b.size < size + (headerSize + footerSize))
    (releases : ∃ blocks₂, (k₁.setMemory (Bytes.copy res (address + headerSize) size
      k₁.memory)).WellFormed blocks₂ ∧ (k₁.setMemory (Bytes.copy res (address + headerSize) size
        k₁.memory)).Releases blocks₂ (address + headerSize)) :
    ∃ blocks' address' b' kept, res = address' + headerSize ∧ b'.hole = false ∧
      size + (headerSize + footerSize) ≤ b'.size ∧
      Exchanged k ((k₁.setMemory (Bytes.copy res (address + headerSize) size
        k₁.memory)).heapFree (address + headerSize)) blocks blocks' [(address, b)]
        [(address', b')] kept ∧
      ∀ i < b.size - (headerSize + footerSize),
        ((k₁.setMemory (Bytes.copy res (address + headerSize) size k₁.memory)).heapFree
          (address + headerSize)).memory (res + i) = k.memory (address + headerSize + i) := by
  obtain ⟨blocks₁, address', b', rfl, block', enough, made⟩ :=
    heapMalloc_exchanged sound serves served
  have large := b.large
  have lives : (live k.heap.start blocks₁).Perm ((address', b') :: live k.heap.start blocks) :=
    made.after
  have both := (apart_perm lives).mp (live_apart _ _)
  have apart : Apart (address', b') (address, b) := (List.pairwise_cons.mp both).1 _ member
  have only : Bytes.OnlyIn (address' + headerSize) (address' + b'.size - footerSize) k₁.memory
      (Bytes.copy (address' + headerSize) (address + headerSize) size k₁.memory) := by
    intro other outside
    apply Bytes.copy_of_outside
    unfold headerSize footerSize at *
    omega
  have copied (i : Nat) (inside : i < b.size - (headerSize + footerSize)) :
      Bytes.copy (address' + headerSize) (address + headerSize) size k₁.memory
        (address' + headerSize + i) = k.memory (address + headerSize + i) := by
    unfold Apart at apart
    dsimp only at apart
    rw [copy_of_first inside (by omega) (by unfold headerSize footerSize at *; omega)]
    apply made.same _ member
    · show address ≤ _
      omega
    · show _ < address + b.size
      unfold headerSize footerSize at *
      omega
  have made' := made.stored only
  have memory : (k₁.setMemory (Bytes.copy (address' + headerSize) (address + headerSize) size
      k₁.memory)).memory = Bytes.copy (address' + headerSize) (address + headerSize) size
    k₁.memory := rfl
  generalize k₁.setMemory (Bytes.copy (address' + headerSize) (address + headerSize) size
    k₁.memory) = k₂ at *
  rw [← memory] at copied
  obtain ⟨blocks₂, wf₂, releases⟩ := releases
  obtain rfl := made'.sound.wellFormed.unique wf₂
  obtain ⟨blocks', gone, x, kept, here, freed⟩ := heapFree_exchanged made'.sound releases
  have before := freed.before
  have after := freed.after
  rw [made'.start] at before after
  obtain ⟨front, rear, split⟩ := List.append_of_mem member
  have same : (address, b) = (gone, x) := by
    apply eq_of_apart (live_apart _ _) before (lives.mem_iff.mpr (List.mem_cons_of_mem _ member))
    exact (Nat.add_right_cancel here).symm
  rw [← same] at before
  have others : kept.Perm ([(address', b')] ++ (front ++ rear)) := by
    have moved : ((address', b') :: live k.heap.start blocks).Perm
        ((address, b) :: (address', b') :: (front ++ rear)) := by
      rw [split]
      exact (List.perm_middle.cons _).trans (.swap ..)
    exact (before.symm.trans (lives.trans moved)).cons_inv
  refine ⟨blocks', address', b', front ++ rear, rfl, block', enough, ?_, fun i inside => ?_⟩
  · refine ⟨freed.sound, freed.start.trans made'.start, ?_, after.trans others,
      fun other inside => ?_⟩
    · rw [split]
      exact List.perm_middle
    · have old : other ∈ live k.heap.start blocks := by
        rw [split]
        rcases List.mem_append.mp inside with inside | inside
        · exact List.mem_append_left _ inside
        · exact List.mem_append_right _ (List.mem_cons_of_mem _ inside)
      exact (made'.same other old).trans
        (freed.same other (others.mem_iff.mpr (List.mem_append_right _ inside)))
  · rw [freed.same _ (others.mem_iff.mpr List.mem_cons_self)]
    · exact copied i inside
    · show address' ≤ _
      omega
    · show _ < address' + b'.size
      unfold headerSize footerSize at *
      omega

end KernelHeap

end Nupkux
