import Nupkux.Lib.Objects
import Nupkux.Mm.HeapCalls

/-!
# Runs of the kernel heap

`malloc`, `calloc`, `realloc` and `free` of `mm.c` one after the other, with stores into the blocks
they have returned in between. As long as each call is made where it works as it should, the heap
is an allocator of objects: the payload of each live block is one, whatever is done to other blocks.
-/

namespace Nupkux

open Tiling

namespace KernelHeap

variable {k k' : KernelHeap} {m m' : Bytes} {b : Block} {blocks blocks' : List Block}
  {size ptr address : Nat} {places : List (Nat × Block)} {place : Nat × Block}
  {o : Objects (BitVec 8)}

/-! ## Payloads -/

/-- The bytes of a payload. -/
def payload (m : Bytes) (place : Nat × Block) : List (BitVec 8) :=
  (List.range (place.2.size - (headerSize + footerSize))).map fun i =>
    m (place.1 + headerSize + i)

/-- The objects are the payloads of some places, by their addresses. -/
def Holds (m : Bytes) (places : List (Nat × Block)) (o : Objects (BitVec 8)) : Prop :=
  ∀ ptr cells, o ptr = some cells ↔
    ∃ place ∈ places, ptr = place.1 + headerSize ∧ cells = payload m place

/-- The size of a payload. -/
theorem length_payload (m : Bytes) (place : Nat × Block) :
    (payload m place).length = place.2.size - (headerSize + footerSize) := by
  unfold payload
  rw [List.length_map, List.length_range]

/-- A byte of a payload. -/
theorem getElem_payload {m : Bytes} {place : Nat × Block} {i : Nat}
    (inside : i < (payload m place).length) :
    (payload m place)[i] = m (place.1 + headerSize + i) := by
  simp only [payload, List.getElem_map, List.getElem_range]

/-- A payload is kept with the bytes of its block. -/
theorem payload_same (same : Bytes.Same place.1 (place.1 + place.2.size) m m') :
    payload m' place = payload m place := by
  refine List.map_congr_left fun i member => ?_
  have inside := List.mem_range.mp member
  apply same
  · omega
  · unfold headerSize footerSize at *
    omega

/-- The order of the places does not matter. -/
theorem Holds.perm (holds : Holds m places o) {places' : List (Nat × Block)}
    (perm : places.Perm places') : Holds m places' o := by
  intro ptr cells
  rw [holds ptr cells]
  exact ⟨fun ⟨place, member, found⟩ => ⟨place, perm.mem_iff.mp member, found⟩,
    fun ⟨place, member, found⟩ => ⟨place, perm.mem_iff.mpr member, found⟩⟩

/-- The objects are kept with the bytes of the blocks. -/
theorem Holds.same (holds : Holds m places o)
    (same : ∀ place ∈ places, Bytes.Same place.1 (place.1 + place.2.size) m m') :
    Holds m' places o := by
  intro ptr cells
  rw [holds ptr cells]
  constructor
  · rintro ⟨place, member, found, rfl⟩
    exact ⟨place, member, found, (payload_same (same place member)).symm⟩
  · rintro ⟨place, member, found, rfl⟩
    exact ⟨place, member, found, payload_same (same place member)⟩

/-- There is no object where a place that is apart from all others begins. -/
theorem Holds.free (holds : Holds m places o) (apart : (place :: places).Pairwise Apart) :
    o (place.1 + headerSize) = none := by
  cases there : o (place.1 + headerSize) with
  | none => rfl
  | some cells =>
    obtain ⟨other, member, same, _⟩ := (holds _ _).mp there
    exact absurd (Nat.add_right_cancel same) ((List.pairwise_cons.mp apart).1 other member).ne

/-- No object reaches into a place that is apart from all others. -/
theorem Holds.clear (holds : Holds m places o) (apart : (place :: places).Pairwise Apart) :
    o.Clear (place.1 + headerSize) (place.2.size - (headerSize + footerSize)) := by
  intro ptr cells there
  obtain ⟨other, member, rfl, rfl⟩ := (holds _ _).mp there
  have far : Apart place other := (List.pairwise_cons.mp apart).1 other member
  have large := place.2.large
  have large' := other.2.large
  rw [length_payload]
  unfold Apart at far
  unfold headerSize footerSize at *
  omega

/-- An object more. -/
theorem Holds.insert (holds : Holds m places o) (apart : (place :: places).Pairwise Apart) :
    Holds m (place :: places)
      (Function.update o (place.1 + headerSize) (some (payload m place))) := by
  intro ptr cells
  by_cases here : ptr = place.1 + headerSize
  · rw [here, Function.update_self, Option.some.injEq]
    constructor
    · rintro rfl
      exact ⟨place, List.mem_cons_self, rfl, rfl⟩
    · rintro ⟨other, member, same, rfl⟩
      rcases List.mem_cons.mp member with rfl | member
      · rfl
      · exact absurd (Nat.add_right_cancel same) ((List.pairwise_cons.mp apart).1 other member).ne
  · rw [Function.update_of_ne here, holds ptr cells]
    constructor
    · rintro ⟨other, member, found⟩
      exact ⟨other, List.mem_cons_of_mem _ member, found⟩
    · rintro ⟨other, member, same, found⟩
      rcases List.mem_cons.mp member with rfl | member
      · exact absurd same here
      · exact ⟨other, member, same, found⟩

/-- An object less. -/
theorem Holds.erase (holds : Holds m (place :: places) o)
    (apart : (place :: places).Pairwise Apart) :
    Holds m places (Function.update o (place.1 + headerSize) none) := by
  intro ptr cells
  by_cases here : ptr = place.1 + headerSize
  · rw [here, Function.update_self]
    refine ⟨(fun none => by cases none), ?_⟩
    rintro ⟨other, member, same, _⟩
    exact absurd (Nat.add_right_cancel same) ((List.pairwise_cons.mp apart).1 other member).ne
  · rw [Function.update_of_ne here, holds ptr cells]
    constructor
    · rintro ⟨other, member, same, found⟩
      rcases List.mem_cons.mp member with rfl | member
      · exact absurd same here
      · exact ⟨other, member, same, found⟩
    · rintro ⟨other, member, found⟩
      exact ⟨other, List.mem_cons_of_mem _ member, found⟩

/-! ## Calls -/

/-- `calloc`, with a bound for the calls of `heap_malloc`. -/
def calloc (depth num size : Nat) (k : KernelHeap) : Option (KernelHeap × Nat) := do
  let (k, res) ← heapMalloc depth (umul num size) false k
  some (if res = 0 then (k, 0) else (k.setMemory (k.memory.fill res 0 (umul num size)), res))

/-- The calls of the functions of the heap with what they return, and the stores in between. -/
inductive HeapCall
  | malloc (size ptr : Nat)
  | calloc (num size ptr : Nat)
  | realloc (ptr size result : Nat)
  | free (ptr : Nat)
  | store (ptr index : Nat) (value : BitVec 8)

/-- What a call is to do. -/
def HeapCall.request : HeapCall → Objects.Request (BitVec 8)
  | .malloc size ptr => .make [] size ptr
  | .calloc num size ptr => .make (List.replicate (num * size) 0) (num * size) ptr
  | .realloc ptr size result => .resize ptr size result
  | .free ptr => .free ptr
  | .store ptr index value => .set ptr index value

/-- What a call does. -/
inductive HeapStep : KernelHeap → HeapCall → KernelHeap → Prop
  | malloc {k k' : KernelHeap} {depth size ptr : Nat} :
      heapMalloc depth size false k = some (k', ptr) → HeapStep k (.malloc size ptr) k'
  | calloc {k k' : KernelHeap} {depth num size ptr : Nat} :
      calloc depth num size k = some (k', ptr) → HeapStep k (.calloc num size ptr) k'
  | realloc {k : KernelHeap} {out : Reallocated} {depth ptr size : Nat} :
      heapRealloc depth k ptr size = some out → HeapStep k (.realloc ptr size out.result) out.heap
  | free {k : KernelHeap} {ptr : Nat} : HeapStep k (.free ptr) (k.heapFree ptr)
  | store {k : KernelHeap} {ptr index : Nat} {value : BitVec 8} :
      HeapStep k (.store ptr index value)
        (k.setMemory (Function.update k.memory (ptr + index) value))

/-- The heap from `create_heap` on, with at least the least size and less than 2 GiB. -/
def heapSystem : TransitionSystem KernelHeap HeapCall where
  initial k := ∃ paging m start end_ memend pageflags,
    assertAlign start + mmIndexCount * 4 + mmKheapMin ≤ assertAlign end_ ∧
    assertAlign end_ < assertAlign start + mmIndexCount * 4 + sizeWidth ∧ end_ < uintWidth ∧
    k = createHeap paging m start end_ memend pageflags
  step := HeapStep

/-- A block can be allocated. -/
def CanMalloc (k : KernelHeap) (size : Nat) : Prop :=
  ∃ blocks, k.WellFormed blocks ∧ k.Serves blocks size

/-- The pointer is one to a live block, which can be given back. -/
def CanFree (k : KernelHeap) (ptr : Nat) : Prop :=
  ∃ blocks, k.WellFormed blocks ∧ k.Releases blocks ptr

/-- The pointer is one to a live block. Either that has the size already, or the part of it behind
the size has room for a header and a footer and can be given back, or a larger block can be
allocated and the old one can be given back afterwards. -/
def CanRealloc (k : KernelHeap) (ptr size : Nat) : Prop :=
  1 ≤ size ∧ ∃ blocks address b, k.WellFormed blocks ∧ (address, b) ∈ live k.heap.start blocks ∧
    ptr = address + headerSize ∧
    (size + (headerSize + footerSize) < b.size → size + 2 * (headerSize + footerSize) ≤ b.size ∧
      (k.cut ptr size).CanFree (ptr + size + (headerSize + footerSize))) ∧
    (b.size < size + (headerSize + footerSize) → k.CanMalloc size ∧
      ∀ depth k₁ res, heapMalloc depth size false k = some (k₁, res) →
        (k₁.setMemory (Bytes.copy res ptr size k₁.memory)).CanFree ptr)

/-- The pointer is one to a live block with an index in its payload. -/
def CanStore (k : KernelHeap) (ptr index : Nat) : Prop :=
  ∃ blocks address b, k.WellFormed blocks ∧ (address, b) ∈ live k.heap.start blocks ∧
    ptr = address + headerSize ∧ index < b.size - (headerSize + footerSize)

/-- The calls that are made where they work as they should. -/
def Allowed (k : KernelHeap) : HeapCall → Prop
  | .malloc size _ => k.CanMalloc size
  | .calloc num size _ => num * size < uintWidth ∧ k.CanMalloc (num * size)
  | .realloc ptr size _ => k.CanRealloc ptr size
  | .free ptr => k.CanFree ptr
  | .store ptr index _ => k.CanStore ptr index

/-! ## Runs -/

/-- The heap is as it should be, and the payloads of its live blocks are the objects. -/
def Represents (k : KernelHeap) (o : Objects (BitVec 8)) : Prop :=
  ∃ blocks, k.Sound blocks ∧ Holds k.memory (live k.heap.start blocks) o

/-- A heap that has just been made has no objects. -/
theorem represents_of_initial (initial : heapSystem.initial k) :
    k.Represents fun _ => none := by
  obtain ⟨paging, m, start, end_, memend, pageflags, atLeast, atMost, small, rfl⟩ := initial
  have again (value : Nat) : assertAlign (assertAlign value) = assertAlign value :=
    if_neg (not_not.mpr (assertAlign_mod value))
  have same : createHeap paging m start end_ memend pageflags =
      createHeap paging m (assertAlign start) (assertAlign end_) memend pageflags := by
    unfold createHeap Heap.create
    rw [again, again]
  have enough : headerSize + footerSize ≤ mmKheapMin := by decide
  let hole := Block.free (assertAlign end_ - (assertAlign start + mmIndexCount * 4)) (by omega)
    (by omega)
  have isHole : hole.hole = true := rfl
  have whole : assertAlign start + mmIndexCount * 4 + hole.size = assertAlign end_ := by
    show _ + (assertAlign end_ - (assertAlign start + mmIndexCount * 4)) = _
    omega
  have inRange := assertAlign_lt small
  obtain ⟨wf, _⟩ := createHeap_wellFormed paging m memend pageflags isHole whole inRange
    (assertAlign_mod start) (assertAlign_mod end_)
  obtain ⟨m', created, _⟩ := createHeap_eq paging m memend pageflags isHole whole inRange
    (assertAlign_mod start) (assertAlign_mod end_)
  rw [← same] at wf created
  have size : (createHeap paging m start end_ memend pageflags).heap.size =
      assertAlign end_ - (assertAlign start + mmIndexCount * 4) := by
    rw [created]
    exact usub_of_le (show assertAlign start + mmIndexCount * 4 ≤ assertAlign end_ by omega) inRange
  have pages : (createHeap paging m start end_ memend pageflags).WholePages := by
    refine ⟨?_, ?_⟩
    · rw [size]
      have aligned := assertAlign_mod start
      have aligned' := assertAlign_mod end_
      unfold frameSize mmIndexCount at *
      omega
    · rw [size]
      omega
  refine ⟨[hole], ⟨wf, .singleton _, pages⟩, fun ptr cells => ⟨(fun none => by cases none), ?_⟩⟩
  rintro ⟨place, member, _⟩
  rw [live_of_atMostAHole (.inr ⟨hole, rfl, isHole⟩)] at member
  cases member

/-- The first bytes of a payload are those of another one. -/
theorem payload_first {place' : Nat × Block} {n : Nat}
    (few : min n (place.2.size - (headerSize + footerSize)) ≤
      place'.2.size - (headerSize + footerSize))
    (same : ∀ i < min n (place.2.size - (headerSize + footerSize)),
      m' (place'.1 + headerSize + i) = m (place.1 + headerSize + i)) :
    (payload m place).take n <+: payload m' place' := by
  obtain ⟨rest, split⟩ := Nat.exists_eq_add_of_le few
  unfold payload
  rw [← List.map_take, List.take_range, split, List.range_add, List.map_append]
  have first : (List.range (min n (place.2.size - (headerSize + footerSize)))).map
      (fun i => m (place.1 + headerSize + i)) =
      (List.range (min n (place.2.size - (headerSize + footerSize)))).map
        fun i => m' (place'.1 + headerSize + i) :=
    List.map_congr_left fun i member => (same i (List.mem_range.mp member)).symm
  rw [first]
  exact List.prefix_append ..

/-- The objects after a call that has exchanged live blocks: the ones that were kept. -/
theorem Holds.kept {gone made kept : List (Nat × Block)} (holds : Holds k.memory kept o)
    (exchanged : Exchanged k k' blocks blocks' gone made kept) : Holds k'.memory kept o :=
  holds.same exchanged.same

/-- A call that makes a block makes an object. -/
theorem Exchanged.makes {kept : List (Nat × Block)} (holds : Holds k.memory kept o)
    {gone : List (Nat × Block)} (exchanged : Exchanged k k' blocks blocks' gone [place] kept) :
    k'.Represents (Function.update o (place.1 + headerSize) (some (payload k'.memory place))) ∧
      o (place.1 + headerSize) = none ∧
      o.Clear (place.1 + headerSize) (payload k'.memory place).length := by
  have after : (live k'.heap.start blocks').Perm (place :: kept) := by
    rw [exchanged.start]
    exact exchanged.after
  have apart := (apart_perm after).mp (live_apart _ _)
  have kept' := holds.same exchanged.same
  refine ⟨⟨blocks', exchanged.sound, (kept'.insert apart).perm after.symm⟩, kept'.free apart, ?_⟩
  rw [length_payload]
  exact kept'.clear apart

/-- A call that gives a block back gives the object back. -/
theorem Exchanged.erases {made kept : List (Nat × Block)}
    (holds : Holds k.memory (live k.heap.start blocks) o)
    (exchanged : Exchanged k k' blocks blocks' [place] made kept) :
    o (place.1 + headerSize) = some (payload k.memory place) ∧
      Holds k.memory kept (Function.update o (place.1 + headerSize) none) := by
  have before : (live k.heap.start blocks).Perm (place :: kept) := exchanged.before
  have apart := (apart_perm before).mp (live_apart _ _)
  exact ⟨(holds _ _).mpr ⟨place, before.mem_iff.mpr List.mem_cons_self, rfl, rfl⟩,
    (holds.perm before).erase apart⟩

/-- `malloc` makes an object. -/
theorem represents_malloc {depth : Nat} (represents : k.Represents o) (can : k.CanMalloc size)
    (served : heapMalloc depth size false k = some (k', ptr)) :
    ∃ o', Objects.Step o (.make [] size ptr) o' ∧ k'.Represents o' := by
  obtain ⟨blocks, sound, holds⟩ := represents
  obtain ⟨blocks₀, wf, serves⟩ := can
  obtain rfl := sound.wellFormed.unique wf
  obtain ⟨blocks', address, b, rfl, _, enough, exchanged⟩ :=
    heapMalloc_exchanged sound serves served
  obtain ⟨represents, free, clear⟩ := exchanged.makes holds
  refine ⟨_, .make List.nil_prefix ?_ free clear, represents⟩
  rw [length_payload]
  exact Nat.le_sub_of_add_le enough

/-- `calloc` makes an object that begins with zeros. -/
theorem represents_calloc {depth num : Nat} (represents : k.Represents o)
    (small : num * size < uintWidth) (can : k.CanMalloc (num * size))
    (served : calloc depth num size k = some (k', ptr)) :
    ∃ o', Objects.Step o (.make (List.replicate (num * size) 0) (num * size) ptr) o' ∧
      k'.Represents o' := by
  obtain ⟨blocks, sound, holds⟩ := represents
  obtain ⟨blocks₀, wf, serves⟩ := can
  obtain rfl := sound.wellFormed.unique wf
  have product : umul num size = num * size := Nat.mod_eq_of_lt small
  unfold calloc at served
  rw [product] at served
  obtain ⟨⟨k₁, res⟩, allocated, served⟩ := Option.bind_eq_some_iff.mp served
  obtain ⟨blocks', address, b, rfl, _, enough, exchanged⟩ :=
    heapMalloc_exchanged sound serves allocated
  have notNull : address + headerSize ≠ 0 := Nat.succ_ne_zero _
  dsimp only at served
  rw [if_neg notNull, Option.some.injEq] at served
  obtain ⟨rfl, rfl⟩ := Prod.mk.inj served
  have only : Bytes.OnlyIn (address + headerSize) (address + b.size - footerSize) k₁.memory
      (k₁.memory.fill (address + headerSize) 0 (num * size)) := by
    apply Bytes.onlyIn_fill _ (Nat.le_refl _)
    unfold headerSize footerSize at *
    omega
  obtain ⟨represents, free, clear⟩ := (exchanged.stored only).makes holds
  refine ⟨_, .make ?_ ?_ free clear, represents⟩
  · have room : num * size ≤ b.size - (headerSize + footerSize) := Nat.le_sub_of_add_le enough
    obtain ⟨rest, split⟩ := Nat.exists_eq_add_of_le room
    unfold payload
    dsimp only
    rw [split, List.range_add, List.map_append]
    have zeros : (List.range (num * size)).map (fun i => (k₁.setMemory (k₁.memory.fill
        (address + headerSize) 0 (num * size))).memory (address + headerSize + i)) =
        List.replicate (num * size) 0 := by
      refine List.eq_replicate_iff.mpr ⟨?_, fun value member => ?_⟩
      · rw [List.length_map, List.length_range]
      · obtain ⟨i, inside, rfl⟩ := List.mem_map.mp member
        have less := List.mem_range.mp inside
        exact if_pos ⟨Nat.le_add_right .., Nat.add_lt_add_left less _⟩
    rw [zeros]
    exact List.prefix_append ..
  · rw [length_payload]
    exact Nat.le_sub_of_add_le enough

/-- `free` gives an object back. -/
theorem represents_free (represents : k.Represents o) (can : k.CanFree ptr) :
    ∃ o', Objects.Step o (.free ptr) o' ∧ (k.heapFree ptr).Represents o' := by
  obtain ⟨blocks, sound, holds⟩ := represents
  obtain ⟨blocks₀, wf, releases⟩ := can
  obtain rfl := sound.wellFormed.unique wf
  obtain ⟨blocks', address, b, kept, rfl, exchanged⟩ := heapFree_exchanged sound releases
  obtain ⟨there, rest⟩ := exchanged.erases holds
  refine ⟨_, .free there, blocks', exchanged.sound, ?_⟩
  have after := exchanged.after
  rw [← exchanged.start, List.nil_append] at after
  exact (rest.kept exchanged).perm after.symm

/-- A call that makes one block of another gives the object another size. -/
theorem Exchanged.resizes {place' : Nat × Block} {kept : List (Nat × Block)}
    (holds : Holds k.memory (live k.heap.start blocks) o)
    (exchanged : Exchanged k k' blocks blocks' [place] [place'] kept)
    (enough : size + (headerSize + footerSize) ≤ place'.2.size)
    (same : ∀ i < min size (place.2.size - (headerSize + footerSize)),
      k'.memory (place'.1 + headerSize + i) = k.memory (place.1 + headerSize + i)) :
    ∃ o', Objects.Step o (.resize (place.1 + headerSize) size (place'.1 + headerSize)) o' ∧
      k'.Represents o' := by
  obtain ⟨there, rest⟩ := exchanged.erases holds
  obtain ⟨represents, free, clear⟩ := exchanged.makes rest
  have room : size ≤ place'.2.size - (headerSize + footerSize) := Nat.le_sub_of_add_le enough
  have begins := payload_first (Nat.le_trans (Nat.min_le_left ..) room) same
  rw [← length_payload k'.memory] at room
  exact ⟨_, .resize there begins room free clear, represents⟩

/-- `realloc` gives an object another size. -/
theorem represents_realloc {depth : Nat} {out : Reallocated} (represents : k.Represents o)
    (can : k.CanRealloc ptr size) (served : heapRealloc depth k ptr size = some out) :
    ∃ o', Objects.Step o (.resize ptr size out.result) o' ∧ out.heap.Represents o' := by
  obtain ⟨blocks, sound, holds⟩ := represents
  obtain ⟨asked, blocks₀, address, b, wf, member, rfl, less, more⟩ := can
  obtain rfl := sound.wellFormed.unique wf
  obtain ⟨there, block⟩ := mem_live.mp member
  obtain ⟨left, right, rfl, rfl⟩ := mem_places.mp there
  have inRange := Nat.lt_of_le_of_lt wf.block_le wf.inRange
  rw [heapRealloc_eq wf.tagged inRange asked depth] at served
  rcases Nat.lt_trichotomy (size + (headerSize + footerSize)) b.size with smaller | same | larger
  · rw [if_neg (Nat.ne_of_lt smaller), if_pos smaller, Option.some.injEq] at served
    obtain ⟨enough, blocks₁, wf₁, releases⟩ := less smaller
    obtain ⟨first, rest, parts⟩ := exists_parts block enough
    obtain rfl := (parts.wellFormed wf).unique wf₁
    have place : k.heap.start + total Block.size left + headerSize + size +
        (headerSize + footerSize) =
        k.heap.start + total Block.size (left ++ [first]) + headerSize := by
      have single : total Block.size (left ++ [first]) = total Block.size left + first.size :=
        total_append ..
      have room := parts.room
      omega
    rw [place] at releases
    obtain ⟨blocks', kept, exchanged, same⟩ := cutBlock_exchanged sound parts releases
    rw [← served]
    refine exchanged.resizes holds (Nat.le_of_eq parts.room.symm) fun i inside => ?_
    apply same
    · exact Nat.le_add_right ..
    · exact Nat.add_lt_add_left (Nat.lt_of_lt_of_le inside (Nat.min_le_left ..)) _
  · rw [if_pos same, Option.some.injEq] at served
    rw [← served]
    obtain ⟨front, rear, split⟩ := List.append_of_mem member
    have perm : (live k.heap.start (left ++ b :: right)).Perm
        ([(k.heap.start + total Block.size left, b)] ++ (front ++ rear)) := by
      rw [split]
      exact List.perm_middle
    have exchanged : Exchanged k k (left ++ b :: right) (left ++ b :: right)
        [(k.heap.start + total Block.size left, b)] [(k.heap.start + total Block.size left, b)]
        (front ++ rear) :=
      ⟨sound, rfl, perm, perm, fun other _ => Bytes.Same.refl other.1 _ k.memory⟩
    exact exchanged.resizes holds (Nat.le_of_eq same) fun _ _ => rfl
  · rw [if_neg (Nat.ne_of_gt larger), if_neg (Nat.not_lt.mpr (Nat.le_of_lt larger))] at served
    obtain ⟨⟨blocks₁, wf₁, serves⟩, frees⟩ := more larger
    obtain rfl := wf.unique wf₁
    obtain ⟨⟨k₁, res⟩, allocated, served⟩ := Option.bind_eq_some_iff.mp served
    obtain ⟨blocks', address', b', kept, rfl, block', enough, exchanged, same⟩ :=
      moved_exchanged sound member serves allocated larger (frees _ _ _ allocated)
    have notNull : address' + headerSize ≠ 0 := Nat.succ_ne_zero _
    dsimp only at served
    rw [if_neg notNull, Option.some.injEq] at served
    rw [← served]
    exact exchanged.resizes holds enough fun i inside =>
      same i (Nat.lt_of_lt_of_le inside (Nat.min_le_right ..))

/-- A store into a payload is one into its object. -/
theorem represents_store {index : Nat} (represents : k.Represents o) (can : k.CanStore ptr index)
    (value : BitVec 8) : ∃ o', Objects.Step o (.set ptr index value) o' ∧
      (k.setMemory (Function.update k.memory (ptr + index) value)).Represents o' := by
  obtain ⟨blocks, sound, holds⟩ := represents
  obtain ⟨blocks₀, address, b, wf, member, rfl, inside⟩ := can
  obtain rfl := sound.wellFormed.unique wf
  obtain ⟨front, rear, split⟩ := List.append_of_mem member
  have perm : (live k.heap.start blocks).Perm ((address, b) :: (front ++ rear)) := by
    rw [split]
    exact List.perm_middle
  have apart := (apart_perm perm).mp (live_apart _ _)
  have only : Bytes.OnlyIn (address + headerSize) (address + b.size - footerSize) k.memory
      (Function.update k.memory (address + headerSize + index) value) := by
    apply Bytes.onlyIn_update _ (Nat.le_add_right ..)
    unfold headerSize footerSize at *
    omega
  obtain ⟨sound', same⟩ := sound.stored perm only
  have there : o (address + headerSize) = some (payload k.memory (address, b)) :=
    (holds _ _).mpr ⟨_, member, rfl, rfl⟩
  have changed : payload (Function.update k.memory (address + headerSize + index) value)
      (address, b) = (payload k.memory (address, b)).set index value := by
    apply List.ext_getElem
    · rw [List.length_set, length_payload, length_payload]
    · intro i _ _
      rw [List.getElem_set, getElem_payload, getElem_payload]
      by_cases here : index = i
      · rw [if_pos here, here]
        exact Function.update_self ..
      · rw [if_neg here, Function.update_of_ne (by omega)]
  have inside' : index < (payload k.memory (address, b)).length := by rwa [length_payload]
  refine ⟨_, .set there inside', blocks, sound', ?_⟩
  have rest := ((holds.perm perm).erase apart).same same
  have whole := rest.insert apart
  rw [changed, Function.update_idem] at whole
  exact whole.perm perm.symm

/-- Each call is what it is to do. -/
theorem represents_step {call : HeapCall} (represents : k.Represents o) (allowed : k.Allowed call)
    (step : HeapStep k call k') : ∃ o', Objects.Step o call.request o' ∧ k'.Represents o' := by
  cases step with
  | malloc served => exact represents_malloc represents allowed served
  | calloc served => exact represents_calloc represents allowed.1 allowed.2 served
  | realloc served => exact represents_realloc represents allowed served
  | free => exact represents_free represents allowed
  | store => exact represents_store represents allowed _

/-- A heap of two megabytes as `create_heap` makes it. -/
def twoMegabytes : KernelHeap :=
  createHeap (.empty 0x400000 0) (fun _ => 0) 0x100000 0x302000 0x400000 kernelFlags

/-- The hole that it is. -/
def holeMegabytes : Block := Block.free 0x200000 (by decide) (by decide)

/-- A run begins with it. -/
theorem twoMegabytes_initial : heapSystem.initial twoMegabytes :=
  ⟨.empty 0x400000 0, fun _ => 0, 0x100000, 0x302000, 0x400000, kernelFlags, by decide, by decide,
    by decide, rfl⟩

/-- 100 bytes have been allocated from two megabytes. -/
def oneBlock : KernelHeap := ((heapMalloc 1 100 false twoMegabytes).getD (twoMegabytes, 0)).1

/-- And then 50. -/
def twoBlocks : KernelHeap := ((heapMalloc 1 50 false oneBlock).getD (oneBlock, 0)).1

/-- A byte is stored into the second block. -/
def storedInto : KernelHeap :=
  twoBlocks.setMemory (Function.update twoBlocks.memory (0x10207C + 3) 7)

/-- The second block has been given 20 bytes. -/
def madeSmaller : KernelHeap := storedInto.cutBlock 0x10207C 20

/-- The blocks of 100, 50 and 20 bytes, and what is cut off the second. -/
def block116 : Block := Block.inUse 116 (by decide) (by decide)

@[inherit_doc block116]
def block66 : Block := Block.inUse 66 (by decide) (by decide)

@[inherit_doc block116]
def block36 : Block := Block.inUse 36 (by decide) (by decide)

@[inherit_doc block116]
def block30 : Block := Block.inUse 30 (by decide) (by decide)

/-- The hole behind two blocks in two megabytes. -/
def holeBehind : Block := Block.free (0x200000 - 182) (by decide) (by decide)

/-- The hole behind the smaller blocks when the second megabyte has been given back. -/
def holeBehind' : Block := Block.free (0x100000 - 152) (by decide) (by decide)

/-- An allocation that is served is one of its heap and its pointer. -/
theorem heapMalloc_served {depth : Nat}
    (served : (heapMalloc depth size false k).map Prod.snd = some ptr) :
    heapMalloc depth size false k = some (((heapMalloc depth size false k).getD (k, 0)).1, ptr) := by
  obtain ⟨⟨k₁, res⟩, found, rfl⟩ := Option.map_eq_some_iff.mp served
  rw [found]
  rfl

/-- The second block is stored into, made smaller and freed. -/
theorem usesSecond {first : KernelHeap} {calls : List HeapCall}
    (path : heapSystem.Path Allowed first calls twoBlocks) :
    heapSystem.Path Allowed first (((calls ++ [.store 0x10207C 3 7]) ++
      [.realloc 0x10207C 20 0x10207C]) ++ [.free 0x10207C]) (madeSmaller.heapFree 0x10207C) := by
  have stores : twoBlocks.Allowed (.store 0x10207C 3 7) :=
    ⟨[block116, block66, holeBehind], 0x102074, block66, by decide +kernel, by decide +kernel,
      rfl, by decide⟩
  have wf : storedInto.WellFormed ([block116] ++ block66 :: [holeBehind]) := by decide +kernel
  have place : storedInto.heap.start + total Block.size [block116] + headerSize = 0x10207C := by
    decide +kernel
  have resized : heapRealloc 1 storedInto 0x10207C 20 =
      some { heap := madeSmaller, result := 0x10207C } := by
    have eq := heapRealloc_eq wf.tagged (Nat.lt_of_le_of_lt wf.block_le wf.inRange)
      (show 1 ≤ 20 by decide) 1
    rw [place, if_neg (by decide), if_pos (by decide)] at eq
    exact eq
  -- the part that is cut off joins the hole behind it, and a megabyte is given back
  have resizes : storedInto.Allowed (.realloc 0x10207C 20 0x10207C) := by
    refine ⟨by decide, [block116, block66, holeBehind], 0x102074, block66, wf, by decide +kernel,
      rfl, fun _ => ⟨by decide, [block116, block36, block30, holeBehind], by decide +kernel, ?_⟩,
      fun larger => absurd larger (by decide)⟩
    refine ⟨[block116, block36], [], block30, [holeBehind], [], rfl,
      ⟨rfl, .inl rfl, .inr ⟨_, rfl, rfl⟩, by unfold EndsInUse; decide, nofun⟩, by decide +kernel,
      fun _ => ⟨nofun, nofun, fun _ => ⟨by decide, nofun, .inl (by decide)⟩, absurd rfl⟩,
      absurd rfl⟩
  have frees : madeSmaller.Allowed (.free 0x10207C) := by
    refine ⟨[block116, block36, holeBehind'], by decide +kernel, ?_⟩
    refine ⟨[block116], [], block36, [holeBehind'], [], rfl,
      ⟨rfl, .inl rfl, .inr ⟨_, rfl, rfl⟩, by unfold EndsInUse; decide, nofun⟩, by decide +kernel,
      fun _ => ⟨nofun, nofun, fun _ => ⟨by decide, nofun, .inl (by decide)⟩, absurd rfl⟩,
      absurd rfl⟩
  exact ((path.snoc stores .store).snoc resizes (.realloc resized)).snoc frees .free

/-- There are objects that are the payloads of places apart from each other. -/
theorem exists_holds (m : Bytes) (apart : places.Pairwise Apart) : ∃ o, Holds m places o := by
  induction places with
  | nil =>
    refine ⟨fun _ => none, fun ptr cells => ⟨(fun none => by cases none), ?_⟩⟩
    rintro ⟨place, member, _⟩
    cases member
  | cons place places ih =>
    obtain ⟨o, holds⟩ := ih (List.pairwise_cons.mp apart).2
    exact ⟨_, holds.insert apart⟩

/-- The payload of a live block stays where it is and as it is as long as no call is about it. -/
theorem payload_kept {first last : KernelHeap} {calls : List HeapCall} (sound : first.Sound blocks)
    (member : (address, b) ∈ live first.heap.start blocks)
    (path : heapSystem.Path Allowed first calls last)
    (others : ∀ call ∈ calls, call.request.target ≠ some (address + headerSize)) :
    ∃ blocks' b', last.Sound blocks' ∧ (address, b') ∈ live last.heap.start blocks' ∧
      payload last.memory (address, b') = payload first.memory (address, b) := by
  obtain ⟨o, holds⟩ := exists_holds first.memory (live_apart first.heap.start blocks)
  have simulated : ∃ o', (Objects.system (BitVec 8)).Path TransitionSystem.Unrestricted o
      (calls.map HeapCall.request) o' ∧ last.Represents o' :=
    path.simulates Represents HeapCall.request
      (fun _ _ _ _ represents allowed step => represents_step represents allowed step)
      ⟨blocks, sound, holds⟩
  obtain ⟨o', path', blocks', sound', holds'⟩ := simulated
  have there : o (address + headerSize) = some (payload first.memory (address, b)) :=
    (holds _ _).mpr ⟨_, member, rfl, rfl⟩
  have kept : o' (address + headerSize) = some (payload first.memory (address, b)) := by
    refine Objects.kept_of_path path' there fun request asked => ?_
    obtain ⟨call, made, rfl⟩ := List.mem_map.mp asked
    exact others call made
  obtain ⟨⟨address', b'⟩, member', here, same⟩ := (holds' _ _).mp kept
  obtain rfl : address = address' := Nat.add_right_cancel here
  exact ⟨blocks', b', sound', member', same.symm⟩

/-- The first of two blocks is kept while the second is stored into, made smaller and freed. -/
theorem payload_kept_malloc :
    ∃ blocks' b', (madeSmaller.heapFree 0x10207C).Sound blocks' ∧
      (0x102000, b') ∈ live (madeSmaller.heapFree 0x10207C).heap.start blocks' ∧
      payload (madeSmaller.heapFree 0x10207C).memory (0x102000, b') =
        payload twoBlocks.memory (0x102000, block116) := by
  have wf : twoBlocks.WellFormed [block116, block66, holeBehind] := by decide +kernel
  have sound : twoBlocks.Sound [block116, block66, holeBehind] :=
    ⟨wf, by unfold Coalesced; decide, by decide +kernel, by decide +kernel⟩
  refine payload_kept sound (by decide +kernel) (usesSecond (.nil _)) fun call member => ?_
  simp only [List.nil_append, List.cons_append, List.mem_cons, List.not_mem_nil, or_false] at member
  rcases member with rfl | rfl | rfl <;> decide

end KernelHeap

end Nupkux
