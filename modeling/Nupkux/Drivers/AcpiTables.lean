import Mathlib.Data.List.Basic
import Nupkux.Lib.Words
import Nupkux.Types

/-!
# The tables of the firmware

`setup_ACPI` follows pointers to tables that begin with a signature and their length. What is
looked at is returned beside the value: a pointer into a table is kept as an offset, to be compared
with the length the table states.
-/

namespace Nupkux

/-- The bytes from an address on. Addresses wrap. -/
def tableAt (mem : Bytes) (table : Nat) : Bytes := fun offset => mem (uadd table offset)

/-- The offsets of a UINT. -/
def uintOffsets (offset : Nat) : List Nat := [offset, offset + 1, offset + 2, offset + 3]

/-- `memcmp` of a table from an offset on with a text, and the offsets that are looked at. -/
def memcmpTable (t : Bytes) : Nat → List (BitVec 8) → Int × List Nat
  | _, [] => (0, [])
  | offset, c :: text =>
    if t offset ≠ c then ((t offset).toNat - c.toNat, [offset])
    else
      let later := memcmpTable t (offset + 1) text
      (later.1, offset :: later.2)

/-- The loop of `acpiCheckHeader`. A negative `len` is counted down through the wrap, so it is taken
for a UINT. -/
def checkLoop (t : Bytes) : Nat → Nat → BitVec 8 → BitVec 8 × List Nat
  | 0, _, check => (check, [])
  | len + 1, checkPtr, check =>
    let later := checkLoop t len (checkPtr + 1) (check + t checkPtr)
    (later.1, checkPtr :: later.2)

/-- `acpiCheckHeader`. -/
def acpiCheckHeader (t : Bytes) (sig : List (BitVec 8)) : Int × List Nat :=
  let compared := memcmpTable t 0 sig
  if compared.1 = 0 then
    let len := t.word 4
    let summed := checkLoop t len 0 0
    (if summed.1 = 0 then 0 else -1, compared.2 ++ uintOffsets 4 ++ summed.2)
  else (-1, compared.2)

/-- `"_S5_"`. -/
def s5Name : List (BitVec 8) := [95, 83, 53, 95]

/-- The loop of `setup_ACPI` over the bytes of the DSDT: `dsdtLength` and `S5Addr` when it ends. -/
def searchS5 (d : Bytes) : Nat → Nat → Int × Nat × List Nat
  | 0, s5Addr => (-1, s5Addr, [])
  | dsdtLength + 1, s5Addr =>
    let compared := memcmpTable d s5Addr s5Name
    if compared.1 = 0 then (toInt dsdtLength, s5Addr, compared.2)
    else
      let later := searchS5 d dsdtLength (s5Addr + 1)
      (later.1, later.2.1, compared.2 ++ later.2.2)

/-- The test of the bytes before `S5Addr`. -/
def isNamed (d : Bytes) (s5Addr : Nat) : Bool × List Nat :=
  if d (s5Addr - 1) = 0x08 then (true, [s5Addr - 1])
  else if d (s5Addr - 2) = 0x08 then
    (d (s5Addr - 1) = 92, [s5Addr - 1, s5Addr - 2, s5Addr - 1])
  else (false, [s5Addr - 1, s5Addr - 2])

/-- The test that `S5Addr` is the name of a package. -/
def isPackage (d : Bytes) (s5Addr : Nat) : Bool × List Nat :=
  let named := isNamed d s5Addr
  if named.1 then (d (s5Addr + 4) = 0x12, named.2 ++ [s5Addr + 4]) else named

/-- A prefix of a byte is skipped. -/
def skipPrefix (d : Bytes) (s5Addr : Nat) : Nat := if d s5Addr = 0x0A then s5Addr + 1 else s5Addr

/-- The first element of the package, behind the bytes of its length and its count. -/
def firstElement (d : Bytes) (s5Addr : Nat) : Nat :=
  s5Addr + 5 + (((d (s5Addr + 5)).toNat &&& 0xC0) >>> 6) + 2

/-- `SLP_TYPa` and `SLP_TYPb`. -/
def sleepTypes (d : Bytes) (s5Addr : Nat) : (Nat × Nat) × List Nat :=
  let first := firstElement d s5Addr
  let a := skipPrefix d first
  let b := skipPrefix d (a + 1)
  (((d a).toNat <<< 10 % ushortWidth, (d b).toNat <<< 10 % ushortWidth),
    [s5Addr + 5, first, a, a + 1, b])

/-- What `setup_ACPI` does with a DSDT. -/
def s5Object (d : Bytes) : Option (Nat × Nat) × List Nat :=
  let search := searchS5 d (toUint ((d.word 4 : Int) - 36)) 36
  let dsdtLength := search.1
  let s5Addr := search.2.1
  let read := uintOffsets 4 ++ search.2.2
  if dsdtLength > 0 then
    let package := isPackage d s5Addr
    if package.1 then
      let types := sleepTypes d s5Addr
      (some types.1, read ++ package.2 ++ types.2)
    else (none, read ++ package.2)
  else (none, read)

/-- What `setup_ACPI` keeps. -/
structure Acpi where
  slpTypA : Nat
  slpTypB : Nat
  smiCmd : Nat
  acpiEnable : BitVec 8
  acpiDisable : BitVec 8
  pm1aCnt : Nat
  pm1bCnt : Nat
  pm1CntLen : BitVec 8
  slpEn : Nat
  sciEn : Nat

/-- What an entry of the RSDT is found to be: a FACP may have an object that can be used. -/
inductive Look where
  | other
  | facp (acpi : Option Acpi)

/-- The bytes of a table that are looked at. -/
def ofTable (table : Nat) (offsets : List Nat) : List (Nat × Nat) :=
  offsets.map fun offset => (table, offset)

/-- The signatures of the tables. -/
def facpSig : List (BitVec 8) := [70, 65, 67, 80]
def dsdtSig : List (BitVec 8) := [68, 83, 68, 84]
def rsdtSig : List (BitVec 8) := [82, 83, 68, 84]

/-- The DSDT a FACP points to. -/
def dsdtOf (mem : Bytes) (table : Nat) : Bytes := tableAt mem ((tableAt mem table).word 40)

/-- What `setup_ACPI` does with a FACP. -/
def lookAtFacp (mem : Bytes) (table : Nat) : Option Acpi × List (Nat × Nat) :=
  let facp := tableAt mem table
  let dsdt := facp.word 40
  let header := acpiCheckHeader (dsdtOf mem table) dsdtSig
  let read := ofTable table (uintOffsets 40) ++ ofTable dsdt header.2
  if header.1 = 0 then
    let object := s5Object (dsdtOf mem table)
    let read := read ++ ofTable dsdt object.2
    match object.1 with
    | some types =>
      let acpi :=
        { slpTypA := types.1
          slpTypB := types.2
          smiCmd := facp.word 48
          acpiEnable := facp 52
          acpiDisable := facp 53
          pm1aCnt := facp.word 64
          pm1bCnt := facp.word 68
          pm1CntLen := facp 89
          slpEn := 1 <<< 13
          sciEn := 1 }
      (some acpi, read ++
        ofTable table (uintOffsets 48 ++ [52, 53] ++ uintOffsets 64 ++ uintOffsets 68 ++ [89]))
    | none => (none, read)
  else (none, read)

/-- What `setup_ACPI` does with the table of an entry. -/
def lookAt (mem : Bytes) (table : Nat) : Look × List (Nat × Nat) :=
  let header := acpiCheckHeader (tableAt mem table) facpSig
  let read := ofTable table header.2
  if header.1 = 0 then
    let found := lookAtFacp mem table
    (.facp found.1, read ++ found.2)
  else (.other, read)

variable {t d mem : Bytes} {text sig : List (BitVec 8)} {offset bound table k : Nat}

/-- The text is at an offset. -/
def HasText (t : Bytes) : Nat → List (BitVec 8) → Prop
  | _, [] => True
  | offset, c :: text => t offset = c ∧ HasText t (offset + 1) text

/-- A text begins with its beginnings. -/
theorem HasText.take (has : HasText t offset text) (n : Nat) : HasText t offset (text.take n) := by
  induction text generalizing offset n with
  | nil =>
    rw [List.take_nil]
    exact trivial
  | cons c text ih =>
    cases n with
    | zero => exact trivial
    | succ n => exact ⟨has.1, ih has.2 n⟩

/-- `memcmp` returns 0 for equal bytes only. -/
theorem memcmpTable_eq_zero : (memcmpTable t offset text).1 = 0 ↔ HasText t offset text := by
  induction text generalizing offset with
  | nil => exact iff_of_true rfl trivial
  | cons c text ih =>
    rw [memcmpTable, HasText]
    by_cases same : t offset = c
    · rw [if_neg (not_not.mpr same), ih]
      exact (and_iff_right same).symm
    · rw [if_pos same]
      have differ : (t offset).toNat ≠ c.toNat := fun equal => same (BitVec.eq_of_toNat_eq equal)
      refine iff_of_false (fun zero => differ ?_) fun has => same has.1
      simp only at zero
      omega

/-- `memcmp` looks at the first byte. -/
theorem mem_memcmpTable (t : Bytes) (offset : Nat) (c : BitVec 8) (text : List (BitVec 8)) :
    offset ∈ (memcmpTable t offset (c :: text)).2 := by
  rw [memcmpTable]
  split
  · exact List.mem_singleton_self _
  · exact List.mem_cons_self

/-- `memcmp` leaves a table if and only if the table ends in a beginning of the text. -/
theorem memcmpTable_inside (begins : offset ≤ bound) :
    (∀ o ∈ (memcmpTable t offset text).2, o < bound) ↔
      offset + text.length ≤ bound ∨ ¬HasText t offset (text.take (bound - offset)) := by
  induction text generalizing offset with
  | nil => exact iff_of_true (fun o member => absurd member List.not_mem_nil) (.inl begins)
  | cons c text ih =>
    rcases Nat.eq_or_lt_of_le begins with rfl | before
    · rw [Nat.sub_self, List.take_zero, List.length_cons]
      refine iff_of_false (fun inside => ?_) (by simp [HasText])
      exact Nat.lt_irrefl _ (inside _ (mem_memcmpTable t offset c text))
    · obtain ⟨rest, rfl⟩ : ∃ rest, bound = offset + 1 + rest := Nat.exists_eq_add_of_le before
      have more : offset + 1 + rest - offset = rest + 1 := by omega
      rw [more, List.take_succ_cons, HasText, memcmpTable]
      by_cases same : t offset = c
      · rw [if_neg (not_not.mpr same), List.forall_mem_cons, ih before, and_iff_right before,
          and_iff_right same, List.length_cons, Nat.add_sub_cancel_left]
        refine or_congr_left ?_
        omega
      · rw [if_pos same, List.forall_mem_singleton]
        exact iff_of_true before (.inr fun has => same has.1)

/-- What the loop over a table adds up is inside the length. -/
theorem checkLoop_inside (t : Bytes) (len checkPtr : Nat) (check : BitVec 8) :
    ∀ o ∈ (checkLoop t len checkPtr check).2, o < checkPtr + len := by
  induction len generalizing checkPtr check with
  | zero => exact fun o member => absurd member List.not_mem_nil
  | succ len ih =>
    rw [checkLoop, List.forall_mem_cons]
    refine ⟨by omega, fun o member => ?_⟩
    have later := ih _ _ o member
    omega

/-- The bytes of a table that may be looked at: its signature and its length, and what the length
states. -/
def Within (t : Bytes) (offsets : List Nat) : Prop := ∀ o ∈ offsets, o < max 8 (t.word 4)

/-- Offsets of two lists. -/
theorem within_append {offsets more : List Nat} :
    Within t (offsets ++ more) ↔ Within t offsets ∧ Within t more := List.forall_mem_append

/-- A UINT is inside. -/
theorem within_uintOffsets : Within t (uintOffsets offset) ↔ offset + 4 ≤ max 8 (t.word 4) := by
  simp only [Within, uintOffsets, List.forall_mem_cons, List.not_mem_nil, false_imp_iff,
    implies_true, and_true]
  omega

/-- `acpiCheckHeader` stays inside any table. -/
theorem acpiCheckHeader_within (t : Bytes) (short : sig.length ≤ 8) :
    Within t (acpiCheckHeader t sig).2 := by
  have signature : Within t (memcmpTable t 0 sig).2 := by
    have inside : ∀ o ∈ (memcmpTable t 0 sig).2, o < 8 :=
      (memcmpTable_inside (Nat.zero_le 8)).mpr (.inl (by omega))
    exact fun o member => Nat.lt_of_lt_of_le (inside o member) (Nat.le_max_left _ _)
  rw [acpiCheckHeader]
  split
  · rw [within_append, within_append, within_uintOffsets]
    refine ⟨⟨signature, Nat.le_max_left _ _⟩, fun o member => ?_⟩
    have inside := checkLoop_inside t _ _ _ o member
    rw [Nat.zero_add] at inside
    exact Nat.lt_of_lt_of_le inside (Nat.le_max_right _ _)
  · exact signature

/-- `_S5_` is at an offset. -/
def IsS5 (d : Bytes) (k : Nat) : Prop := HasText d k s5Name

/-- `_S5_` is not at the offsets from one on up to another. -/
def NoS5 (d : Bytes) (start k : Nat) : Prop := ∀ j, start ≤ j → j < k → ¬IsS5 d j

/-- The first `_S5_` behind the header of a DSDT. -/
def FirstS5 (d : Bytes) (k : Nat) : Prop := 36 ≤ k ∧ k < d.word 4 ∧ NoS5 d 36 k ∧ IsS5 d k

/-- The bytes before a name say that it is one, in the root or not. -/
def NamedAt (d : Bytes) (k : Nat) : Prop := d (k - 1) = 0x08 ∨ d (k - 2) = 0x08 ∧ d (k - 1) = 92

instance (d : Bytes) (k : Nat) : Decidable (NamedAt d k) := inferInstanceAs (Decidable (_ ∨ _))

/-- The end of what has to be looked at of an object with the name at an offset. -/
def objectEnd (d : Bytes) (k : Nat) : Nat :=
  if NamedAt d k then
    if d (k + 4) = 0x12 then skipPrefix d (skipPrefix d (firstElement d k) + 1) + 1 else k + 5
  else k + 4

/-- A DSDT holds its header and the object, and does not end in the beginning of another name. The
search counts in an `int`. -/
structure DsdtFits (d : Bytes) : Prop where
  header : 36 ≤ d.word 4
  names : ∀ k, 36 ≤ k → k < d.word 4 → NoS5 d 36 k →
    k + 4 ≤ d.word 4 ∨ ¬HasText d k (s5Name.take (d.word 4 - k))
  object : ∀ k, FirstS5 d k → 0 < toInt (d.word 4 - k - 1 : Nat) → objectEnd d k ≤ d.word 4

/-- An object `setup_ACPI` can use: the first one with the name is a package. -/
def UsableS5 (d : Bytes) : Prop :=
  ∃ k, FirstS5 d k ∧ 0 < toInt (d.word 4 - k - 1 : Nat) ∧ NamedAt d k ∧ d (k + 4) = 0x12

variable {start turns : Nat}

/-- One offset more. -/
theorem noS5_succ (none : ¬IsS5 d start) : NoS5 d start k ↔ NoS5 d (start + 1) k := by
  constructor
  · exact fun before j low high => before j (Nat.le_of_succ_le low) high
  · intro before j low high
    rcases Nat.eq_or_lt_of_le low with rfl | later
    · exact none
    · exact before j later high

/-- What the search ends with. -/
theorem searchS5_spec (d : Bytes) (turns start : Nat) :
    (NoS5 d start (start + turns) ∧ (searchS5 d turns start).1 = -1) ∨
      ∃ k, start ≤ k ∧ k < start + turns ∧ NoS5 d start k ∧ IsS5 d k ∧
        (searchS5 d turns start).1 = toInt (start + turns - k - 1 : Nat) ∧
        (searchS5 d turns start).2.1 = k := by
  induction turns generalizing start with
  | zero => exact .inl ⟨fun j low high => absurd low (Nat.not_le.mpr high), rfl⟩
  | succ turns ih =>
    rw [searchS5]
    by_cases here : IsS5 d start
    · rw [if_pos (memcmpTable_eq_zero.mpr here)]
      refine .inr ⟨start, Nat.le_refl _, by omega, ?_, here, ?_, rfl⟩
      · exact fun j low high => absurd low (Nat.not_le.mpr high)
      · rw [show start + (turns + 1) - start - 1 = turns by omega]
    · rw [if_neg fun zero => here (memcmpTable_eq_zero.mp zero)]
      rcases ih (start + 1) with ⟨before, left⟩ | ⟨k, low, high, before, found, left, at_⟩
      · refine .inl ⟨?_, left⟩
        rw [show start + (turns + 1) = start + 1 + turns by omega]
        exact (noS5_succ here).mpr before
      · refine .inr ⟨k, by omega, by omega, (noS5_succ here).mpr before, found, ?_, at_⟩
        rw [show start + (turns + 1) = start + 1 + turns by omega]
        exact left

/-- What the search looks at is inside if the names up to the first one are. -/
theorem searchS5_inside (d : Bytes) (turns start : Nat) :
    (∀ o ∈ (searchS5 d turns start).2.2, o < bound) ↔
      ∀ k, start ≤ k → k < start + turns → NoS5 d start k →
        ∀ o ∈ (memcmpTable d k s5Name).2, o < bound := by
  induction turns generalizing start with
  | zero =>
    refine iff_of_true (fun o member => absurd member List.not_mem_nil) ?_
    intro k low high
    omega
  | succ turns ih =>
    have first : NoS5 d start start := fun j low high => absurd low (Nat.not_le.mpr high)
    rw [searchS5]
    by_cases here : IsS5 d start
    · rw [if_pos (memcmpTable_eq_zero.mpr here)]
      constructor
      · intro inside k low high before
        rcases Nat.eq_or_lt_of_le low with rfl | later
        · exact inside
        · exact absurd here (before start (Nat.le_refl _) later)
      · exact fun all => all start (Nat.le_refl _) (by omega) first
    · rw [if_neg fun zero => here (memcmpTable_eq_zero.mp zero), List.forall_mem_append, ih]
      constructor
      · rintro ⟨inside, later⟩ k low high before
        rcases Nat.eq_or_lt_of_le low with rfl | above
        · exact inside
        · exact later k above (by omega) ((noS5_succ here).mp before)
      · intro all
        refine ⟨all start (Nat.le_refl _) (by omega) first, fun k low high before => ?_⟩
        exact all k (by omega) (by omega) ((noS5_succ here).mpr before)

/-- The test of the bytes before a name. -/
theorem isNamed_iff : (isNamed d k).1 = true ↔ NamedAt d k := by
  unfold isNamed NamedAt
  by_cases name : d (k - 1) = 0x08
  · rw [if_pos name]
    exact iff_of_true rfl (.inl name)
  · rw [if_neg name, or_iff_right name]
    by_cases root : d (k - 2) = 0x08
    · rw [if_pos root, and_iff_right root]
      exact decide_eq_true_iff
    · rw [if_neg root]
      exact iff_of_false Bool.false_ne_true fun both => root both.1

/-- The bytes before a name. -/
theorem isNamed_before (behind : 2 ≤ k) : ∀ o ∈ (isNamed d k).2, o < k := by
  have before : k - 1 < k ∧ k - 2 < k := by omega
  unfold isNamed
  split_ifs <;> simp [before]

/-- The test for a package. -/
theorem isPackage_iff : (isPackage d k).1 = true ↔ NamedAt d k ∧ d (k + 4) = 0x12 := by
  rw [isPackage, ← isNamed_iff]
  by_cases named : (isNamed d k).1 = true
  · rw [if_pos named, and_iff_right named]
    exact decide_eq_true_iff
  · rw [if_neg named]
    exact iff_of_false named fun both => named both.1

/-- The test looks at the byte behind the name if it has seen one. -/
theorem isPackage_inside (behind : 2 ≤ k) (inside : k < bound) :
    (∀ o ∈ (isPackage d k).2, o < bound) ↔ (NamedAt d k → k + 5 ≤ bound) := by
  have before : ∀ o ∈ (isNamed d k).2, o < bound :=
    fun o member => Nat.lt_trans (isNamed_before behind o member) inside
  rw [isPackage, ← isNamed_iff]
  by_cases named : (isNamed d k).1 = true
  · rw [if_pos named, List.forall_mem_append, and_iff_right before, List.forall_mem_singleton]
    exact ⟨fun less _ => less, fun all => all named⟩
  · rw [if_neg named]
    exact iff_of_true before fun claimed => absurd claimed named

/-- A prefix is skipped forward. -/
theorem le_skipPrefix (d : Bytes) (k : Nat) : k ≤ skipPrefix d k := by
  unfold skipPrefix
  split <;> omega

/-- The elements are behind the name. -/
theorem le_firstElement (d : Bytes) (k : Nat) : k + 5 < firstElement d k := by
  unfold firstElement
  omega

/-- The elements of the package are inside if the last one is. -/
theorem sleepTypes_inside :
    (∀ o ∈ (sleepTypes d k).2, o < bound) ↔
      skipPrefix d (skipPrefix d (firstElement d k) + 1) < bound := by
  have start := le_firstElement d k
  have element := le_skipPrefix d (firstElement d k)
  have last := le_skipPrefix d (skipPrefix d (firstElement d k) + 1)
  simp only [sleepTypes, List.forall_mem_cons, List.not_mem_nil, false_imp_iff, implies_true,
    and_true]
  omega

/-- The count of the search. -/
theorem searchLength_eq (header : 36 ≤ d.word 4) :
    36 + toUint ((d.word 4 : Int) - 36) = d.word 4 := by
  have small := d.word_lt 4
  unfold toUint
  omega

/-- There is one first name. -/
theorem FirstS5.eq {k k' : Nat} (first : FirstS5 d k) (first' : FirstS5 d k') : k = k' := by
  rcases Nat.lt_trichotomy k k' with less | same | more
  · exact absurd first.2.2.2 (first'.2.2.1 k first.1 less)
  · exact same
  · exact absurd first'.2.2.2 (first.2.2.1 k' first'.1 more)

/-- The search ends at the first name, or without one. -/
theorem searchS5_first (header : 36 ≤ d.word 4) :
    ((∀ k, ¬FirstS5 d k) ∧ (searchS5 d (toUint ((d.word 4 : Int) - 36)) 36).1 = -1) ∨
      ∃ k, FirstS5 d k ∧
        (searchS5 d (toUint ((d.word 4 : Int) - 36)) 36).1 = toInt (d.word 4 - k - 1 : Nat) ∧
        (searchS5 d (toUint ((d.word 4 : Int) - 36)) 36).2.1 = k := by
  have spec := searchS5_spec d (toUint ((d.word 4 : Int) - 36)) 36
  rw [searchLength_eq header] at spec
  rcases spec with ⟨before, left⟩ | ⟨k, low, high, before, found, left, at_⟩
  · exact .inl ⟨fun k first => before k first.1 first.2.1 first.2.2.2, left⟩
  · exact .inr ⟨k, ⟨low, high, before, found⟩, left, at_⟩

/-- An object is found if and only if there is one. -/
theorem s5Object_isSome (header : 36 ≤ d.word 4) : (s5Object d).1.isSome ↔ UsableS5 d := by
  unfold s5Object
  rcases searchS5_first header with ⟨none, left⟩ | ⟨k, first, left, at_⟩
  · have ended : ¬(-1 : Int) > 0 := by decide
    simp only [left, if_neg ended]
    refine iff_of_false Bool.false_ne_true ?_
    rintro ⟨k, first, _⟩
    exact none k first
  · simp only [left, at_]
    by_cases more : 0 < toInt (d.word 4 - k - 1 : Nat)
    · rw [if_pos more]
      by_cases package : (isPackage d k).1 = true
      · rw [if_pos package]
        exact iff_of_true rfl ⟨k, first, more, isPackage_iff.mp package⟩
      · rw [if_neg package]
        refine iff_of_false Bool.false_ne_true ?_
        rintro ⟨k', first', _, named⟩
        exact package (isPackage_iff.mpr (first.eq first' ▸ named))
    · rw [if_neg more]
      refine iff_of_false Bool.false_ne_true ?_
      rintro ⟨k', first', positive, _⟩
      exact more (first.eq first' ▸ positive)

/-- The object is inside from its name on. -/
theorem object_inside (first : FirstS5 d k) (name : k + 4 ≤ d.word 4) :
    (∀ o ∈ (isPackage d k).2, o < d.word 4) ∧
        ((isPackage d k).1 = true → ∀ o ∈ (sleepTypes d k).2, o < d.word 4) ↔
      objectEnd d k ≤ d.word 4 := by
  have behind : 2 ≤ k := Nat.le_trans (by decide) first.1
  have start := le_firstElement d k
  have element := le_skipPrefix d (firstElement d k)
  have last := le_skipPrefix d (skipPrefix d (firstElement d k) + 1)
  rw [isPackage_inside behind first.2.1, isPackage_iff, sleepTypes_inside, objectEnd]
  by_cases named : NamedAt d k
  · rw [if_pos named]
    by_cases package : d (k + 4) = 0x12
    · rw [if_pos package]
      constructor
      · exact fun inside => inside.2 ⟨named, package⟩
      · exact fun inside => ⟨fun _ => by omega, fun _ => inside⟩
    · rw [if_neg package]
      constructor
      · exact fun inside => inside.1 named
      · exact fun inside => ⟨fun _ => inside, fun both => absurd both.2 package⟩
  · rw [if_neg named]
    exact iff_of_true ⟨fun claimed => absurd claimed named, fun both => absurd both.1 named⟩ name

/-- What is looked at in a DSDT, with what the search ends with. -/
theorem s5Object_within_iff {left : Int} {searched : List Nat}
    (search : searchS5 d (toUint ((d.word 4 : Int) - 36)) 36 = (left, k, searched)) :
    Within d (s5Object d).2 ↔ Within d searched ∧
      (0 < left → Within d (isPackage d k).2 ∧
        ((isPackage d k).1 = true → Within d (sleepTypes d k).2)) := by
  have length : Within d (uintOffsets 4) := within_uintOffsets.mpr (Nat.le_max_left _ _)
  simp only [s5Object, search]
  by_cases more : 0 < left
  · rw [if_pos more]
    by_cases package : (isPackage d k).1 = true
    · rw [if_pos package, within_append, within_append, within_append, and_iff_right length,
        and_assoc]
      exact and_congr_right' ⟨fun all _ => ⟨all.1, fun _ => all.2⟩,
        fun all => ⟨(all more).1, (all more).2 package⟩⟩
    · rw [if_neg package, within_append, within_append, and_iff_right length]
      exact and_congr_right' ⟨fun all _ => ⟨all, fun claimed => absurd claimed package⟩,
        fun all => (all more).1⟩
  · rw [if_neg more, within_append, and_iff_right length]
    exact (and_iff_left fun claimed => absurd claimed more).symm

/-- `setup_ACPI` stays inside a DSDT if and only if the DSDT fits. -/
theorem s5Object_within : Within d (s5Object d).2 ↔ DsdtFits d := by
  have before : NoS5 d 36 36 := fun j low high => absurd low (Nat.not_le.mpr high)
  by_cases header : 36 ≤ d.word 4
  · have most : max 8 (d.word 4) = d.word 4 := Nat.max_eq_right (Nat.le_trans (by decide) header)
    have names : Within d (searchS5 d (toUint ((d.word 4 : Int) - 36)) 36).2.2 ↔
        ∀ k, 36 ≤ k → k < d.word 4 → NoS5 d 36 k →
          k + 4 ≤ d.word 4 ∨ ¬HasText d k (s5Name.take (d.word 4 - k)) := by
      rw [Within, most, searchS5_inside, searchLength_eq header]
      exact forall_congr' fun k => forall_congr' fun low => forall_congr' fun high =>
        forall_congr' fun none => memcmpTable_inside (Nat.le_of_lt high)
    have name (k : Nat) (first : FirstS5 d k) (whole : k + 4 ≤ d.word 4 ∨
        ¬HasText d k (s5Name.take (d.word 4 - k))) : k + 4 ≤ d.word 4 :=
      whole.resolve_right (not_not.mpr (HasText.take first.2.2.2 _))
    rw [s5Object_within_iff rfl, names, Within, Within, most]
    rcases searchS5_first header with ⟨none, left⟩ | ⟨k, first, left, at_⟩
    · rw [left]
      constructor
      · exact fun all => ⟨header, all.1, fun k first => absurd first (none k)⟩
      · exact fun fits => ⟨fits.names, fun more => absurd more (by decide)⟩
    · rw [left, at_]
      constructor
      · rintro ⟨whole, object⟩
        refine ⟨header, whole, fun k' first' more => ?_⟩
        obtain rfl := first.eq first'
        exact (object_inside first (name k first (whole k first.1 first.2.1 first.2.2.1))).mp
          (object more)
      · intro fits
        refine ⟨fits.names, fun more => ?_⟩
        have whole := name k first (fits.names k first.1 first.2.1 first.2.2.1)
        exact (object_inside first whole).mpr (fits.object k first more)
  · refine iff_of_false (fun within => ?_) fun fits => header fits.header
    have inside := ((s5Object_within_iff rfl).mp within).1
    have turns : 0 < toUint ((d.word 4 : Int) - 36) := by
      unfold toUint
      omega
    have first := (searchS5_inside d _ 36).mp inside 36 (Nat.le_refl _) (by omega) before _
      (mem_memcmpTable d 36 _ _)
    omega

/-- The bytes of tables that are looked at are within their tables. -/
def AllWithin (mem : Bytes) (looked : List (Nat × Nat)) : Prop :=
  ∀ a ∈ looked, a.2 < max 8 ((tableAt mem a.1).word 4)

/-- Bytes of two lists. -/
theorem allWithin_append {looked more : List (Nat × Nat)} :
    AllWithin mem (looked ++ more) ↔ AllWithin mem looked ∧ AllWithin mem more :=
  List.forall_mem_append

/-- Bytes of one table. -/
theorem allWithin_ofTable {offsets : List Nat} :
    AllWithin mem (ofTable table offsets) ↔ Within (tableAt mem table) offsets :=
  List.forall_mem_map

/-- The table of an entry is a FACP. -/
abbrev IsFacp (mem : Bytes) (table : Nat) : Prop :=
  (acpiCheckHeader (tableAt mem table) facpSig).1 = 0

/-- A FACP points to a DSDT. -/
abbrev HasDsdt (mem : Bytes) (table : Nat) : Prop :=
  (acpiCheckHeader (dsdtOf mem table) dsdtSig).1 = 0

/-- A FACP with an object that can be used. -/
def UsableFacp (mem : Bytes) (table : Nat) : Prop :=
  IsFacp mem table ∧ HasDsdt mem table ∧ UsableS5 (dsdtOf mem table)

/-- A FACP holds the fields that are looked at, and its DSDT fits. -/
structure FacpFits (mem : Bytes) (table : Nat) : Prop where
  dsdt : 44 ≤ (tableAt mem table).word 4
  fits : HasDsdt mem table → DsdtFits (dsdtOf mem table)
  fields : UsableFacp mem table → 90 ≤ (tableAt mem table).word 4

/-- An object is found in a FACP if and only if there is one. -/
theorem lookAtFacp_isSome (fits : HasDsdt mem table → DsdtFits (dsdtOf mem table)) :
    (lookAtFacp mem table).1.isSome ↔ HasDsdt mem table ∧ UsableS5 (dsdtOf mem table) := by
  simp only [lookAtFacp]
  by_cases has : HasDsdt mem table
  · have usable := s5Object_isSome (fits has).header
    rw [and_iff_right has, ← usable, if_pos has]
    cases (s5Object (dsdtOf mem table)).1 with
    | none => exact Iff.rfl
    | some types => exact Iff.rfl
  · rw [if_neg has]
    exact iff_of_false Bool.false_ne_true fun both => has both.1

/-- `setup_ACPI` stays inside a FACP and its DSDT if and only if they fit. -/
theorem lookAtFacp_within (facp : IsFacp mem table) :
    AllWithin mem (lookAtFacp mem table).2 ↔ FacpFits mem table := by
  have checked : Within (dsdtOf mem table) (acpiCheckHeader (dsdtOf mem table) dsdtSig).2 :=
    acpiCheckHeader_within _ (by decide)
  have pointer : AllWithin mem (ofTable table (uintOffsets 40)) ↔
      44 ≤ (tableAt mem table).word 4 := by
    rw [allWithin_ofTable, within_uintOffsets]
    omega
  simp only [lookAtFacp]
  by_cases has : HasDsdt mem table
  · have object : AllWithin mem
        (ofTable ((tableAt mem table).word 40) (s5Object (dsdtOf mem table)).2) ↔
          DsdtFits (dsdtOf mem table) := by
      rw [allWithin_ofTable]
      exact s5Object_within
    have fields : AllWithin mem (ofTable table
        (uintOffsets 48 ++ [52, 53] ++ uintOffsets 64 ++ uintOffsets 68 ++ [89])) ↔
          90 ≤ (tableAt mem table).word 4 := by
      rw [allWithin_ofTable, within_append, within_append, within_append, within_append,
        within_uintOffsets, within_uintOffsets, within_uintOffsets]
      simp only [Within, List.forall_mem_cons, List.not_mem_nil, false_imp_iff, implies_true,
        and_true]
      omega
    have begins : AllWithin mem (ofTable ((tableAt mem table).word 40)
        (acpiCheckHeader (dsdtOf mem table) dsdtSig).2) := allWithin_ofTable.mpr checked
    have found : DsdtFits (dsdtOf mem table) →
        ((s5Object (dsdtOf mem table)).1.isSome ↔ UsableFacp mem table) := fun fits => by
      rw [s5Object_isSome fits.header, UsableFacp, and_iff_right facp, and_iff_right has]
    rw [if_pos has]
    cases usable : (s5Object (dsdtOf mem table)).1 with
    | some types =>
      rw [usable] at found
      simp only [allWithin_append, pointer, begins, object, fields, and_true]
      constructor
      · exact fun all => ⟨all.1.1, fun _ => all.1.2, fun _ => all.2⟩
      · intro fits
        exact ⟨⟨fits.dsdt, fits.fits has⟩, fits.fields ((found (fits.fits has)).mp rfl)⟩
    | none =>
      rw [usable] at found
      simp only [allWithin_append, pointer, begins, object, and_true]
      constructor
      · exact fun all => ⟨all.1, fun _ => all.2,
          fun claimed => absurd ((found all.2).mpr claimed) Bool.false_ne_true⟩
      · exact fun fits => ⟨fits.dsdt, fits.fits has⟩
  · rw [if_neg has, allWithin_append, pointer, allWithin_ofTable]
    constructor
    · exact fun both => ⟨both.1, fun claimed => absurd claimed has,
        fun usable => absurd usable.2.1 has⟩
    · exact fun fits => ⟨fits.dsdt, checked⟩

end Nupkux
