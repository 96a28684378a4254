import Nupkux.Drivers.AcpiTables

/-!
# The scan of the RSDT

`setup_ACPI` counts the entries of the RSDT down to zero and looks at each table. The count is taken
from the length of the RSDT, and set to a negative one when a FACP is found; the loop then goes on
if the FACP is of no use.
-/

namespace Nupkux

/-- `acpiCheckRSDPtr`. -/
def acpiCheckRSDPtr (mem : Bytes) (ptr : Nat) : Nat :=
  let rsdp := tableAt mem ptr
  if (memcmpTable rsdp 0 [82, 83, 68, 32, 80, 84, 82, 32]).1 ≠ 0 then 0
  else if (checkLoop rsdp 20 0 0).1 = 0 then rsdp.word 16
  else 0

/-- A loop of `acpiGetRSDPtr`, for a number of turns. -/
def searchRSDPtr (mem : Bytes) : Nat → Nat → Nat
  | 0, _ => 0
  | turns + 1, addr =>
    let rsdp := acpiCheckRSDPtr mem addr
    if rsdp ≠ 0 then rsdp else searchRSDPtr mem turns (addr + 16)

/-- `acpiGetRSDPtr`. -/
def acpiGetRSDPtr (mem : Bytes) : Nat :=
  let rsdp := searchRSDPtr mem 0x2000 0x000E0000
  if rsdp ≠ 0 then rsdp
  else
    let ebda := mem.half 0x40E * 0x10 &&& 0x000FFFFF
    searchRSDPtr mem 64 ebda

/-- What `setup_ACPI` returns and keeps, the entries and the bytes of tables it looks at. -/
structure Outcome where
  result : Int
  acpi : Option Acpi
  entries : List Nat
  looked : List (Nat × Nat)

/-- What is looked at first. -/
def Outcome.after (entries : List Nat) (looked : List (Nat × Nat)) (out : Outcome) : Outcome :=
  { out with entries := entries ++ out.entries, looked := looked ++ out.looked }

/-- What is looked at for an entry, and what it is found to be. -/
def lookAtEntry (mem : Bytes) (rsdt i : Nat) : Look × List (Nat × Nat) :=
  let found := lookAt mem ((tableAt mem rsdt).word (36 + 4 * i))
  (found.1, ofTable rsdt (uintOffsets (36 + 4 * i)) ++ found.2)

/-- The loop of `setup_ACPI` over the entries, for a number of tests. -/
def scanEntries (mem : Bytes) (rsdt : Nat) : Nat → Nat → Int → Option Outcome
  | 0, _, _ => none
  | tests + 1, i, entrys =>
    if entrys = 0 then some ⟨-1, none, [], []⟩
    else
      let entrys := toInt (entrys - 1)
      let entry := lookAtEntry mem rsdt i
      match entry.1 with
      | .facp (some acpi) => some ⟨0, some acpi, [i], entry.2⟩
      | .facp none => (scanEntries mem rsdt tests (i + 1) (-2)).map (Outcome.after [i] entry.2)
      | .other => (scanEntries mem rsdt tests (i + 1) entrys).map (Outcome.after [i] entry.2)

/-- `setup_ACPI`, with a number of tests of the loop. -/
def setupACPI (mem : Bytes) (tests : Nat) : Option Outcome :=
  let ptr := acpiGetRSDPtr mem
  let header := acpiCheckHeader (tableAt mem ptr) rsdtSig
  if ptr = 0 then some ⟨-1, none, [], []⟩
  else if header.1 ≠ 0 then some ⟨-1, none, [], ofTable ptr header.2⟩
  else
    let entrys := toInt ((tableAt mem ptr).word 4)
    let entrys := (toInt (entrys - 36)).tdiv 4
    (scanEntries mem ptr tests 0 entrys).map
      (Outcome.after [] (ofTable ptr (header.2 ++ uintOffsets 4)))

/-- The entries of a RSDT. -/
def entryCount (mem : Bytes) (rsdt : Nat) : Nat := ((tableAt mem rsdt).word 4 - 36) / 4

/-- The table an entry points to. -/
def entryTable (mem : Bytes) (rsdt i : Nat) : Nat := (tableAt mem rsdt).word (36 + 4 * i)

/-- `setup_ACPI` has looked at the entries of the RSDT, at each of them once at most and within its
table, and returns 0 only for an object that can be used. -/
structure OutcomeBounded (mem : Bytes) (rsdt : Nat) (out : Outcome) : Prop where
  count : out.entries.length ≤ entryCount mem rsdt
  once : out.entries.Nodup
  inside : ∀ i ∈ out.entries, i < entryCount mem rsdt
  within : AllWithin mem out.looked
  usable : out.result = 0 → ∃ i ∈ out.entries, UsableFacp mem (entryTable mem rsdt i)

/-- `setup_ACPI` ends, and its scan is bounded. -/
def ScanBounded (mem : Bytes) : Prop :=
  ∃ tests out, setupACPI mem tests = some out ∧ OutcomeBounded mem (acpiGetRSDPtr mem) out

/-- The first FACP that can be used is in the RSDT, and those up to it fit. -/
def UsableInside (mem : Bytes) (rsdt : Nat) : Prop :=
  ∃ j < entryCount mem rsdt, UsableFacp mem (entryTable mem rsdt j) ∧
    (∀ i < j, ¬UsableFacp mem (entryTable mem rsdt i)) ∧
    ∀ i ≤ j, IsFacp mem (entryTable mem rsdt i) → FacpFits mem (entryTable mem rsdt i)

/-- There is no FACP in a RSDT of which the length is no less than that of a header, but for a part
of an entry, and of which the entries can be counted in an `int`. -/
def NoFacpInside (mem : Bytes) (rsdt : Nat) : Prop :=
  33 ≤ (tableAt mem rsdt).word 4 ∧ (tableAt mem rsdt).word 4 < 2147483648 + 36 ∧
    ∀ i < entryCount mem rsdt, ¬IsFacp mem (entryTable mem rsdt i)

variable {mem : Bytes} {rsdt i j turns tests gap : Nat} {out out' : Outcome}

/-- An object is found for an entry. -/
def Finds (mem : Bytes) (rsdt i : Nat) : Prop :=
  ∃ acpi, (lookAtEntry mem rsdt i).1 = .facp (some acpi)

/-- The bytes looked at for some entries. -/
def lookedAt (mem : Bytes) (rsdt i n : Nat) : List (Nat × Nat) :=
  (List.range' i n).flatMap fun k => (lookAtEntry mem rsdt k).2

/-- An entry that is not a FACP is found to be none. -/
theorem lookAtEntry_other (other : ¬IsFacp mem (entryTable mem rsdt i)) :
    (lookAtEntry mem rsdt i).1 = .other := by
  have table : (lookAt mem (entryTable mem rsdt i)).1 = .other := by rw [lookAt, if_neg other]
  exact table

/-- What a FACP is found to be. -/
theorem lookAtEntry_facp (facp : IsFacp mem (entryTable mem rsdt i)) :
    (lookAtEntry mem rsdt i).1 = .facp (lookAtFacp mem (entryTable mem rsdt i)).1 := by
  have table : (lookAt mem (entryTable mem rsdt i)).1 =
      .facp (lookAtFacp mem (entryTable mem rsdt i)).1 := by rw [lookAt, if_pos facp]
  exact table

/-- An object is found for a FACP that fits if and only if there is one. -/
theorem finds_iff
    (fits : IsFacp mem (entryTable mem rsdt i) → FacpFits mem (entryTable mem rsdt i)) :
    Finds mem rsdt i ↔ UsableFacp mem (entryTable mem rsdt i) := by
  unfold Finds
  by_cases facp : IsFacp mem (entryTable mem rsdt i)
  · rw [UsableFacp, and_iff_right facp, ← lookAtFacp_isSome (fits facp).fits, lookAtEntry_facp facp,
      Option.isSome_iff_exists]
    simp only [Look.facp.injEq]
  · rw [lookAtEntry_other facp]
    exact iff_of_false (by simp) fun usable => facp usable.1

/-- What is looked at for an entry is within the tables if a FACP fits. -/
theorem lookAtEntry_within (inside : i < entryCount mem rsdt) :
    AllWithin mem (lookAtEntry mem rsdt i).2 ↔
      (IsFacp mem (entryTable mem rsdt i) → FacpFits mem (entryTable mem rsdt i)) := by
  have entry : AllWithin mem (ofTable rsdt (uintOffsets (36 + 4 * i))) := by
    rw [allWithin_ofTable, within_uintOffsets]
    unfold entryCount at inside
    omega
  have signature : AllWithin mem (ofTable (entryTable mem rsdt i)
      (acpiCheckHeader (tableAt mem (entryTable mem rsdt i)) facpSig).2) :=
    allWithin_ofTable.mpr (acpiCheckHeader_within _ (by decide))
  rw [lookAtEntry, allWithin_append, and_iff_right entry, ← entryTable, lookAt]
  by_cases facp : IsFacp mem (entryTable mem rsdt i)
  · rw [if_pos facp, allWithin_append, and_iff_right signature, lookAtFacp_within facp]
    exact ⟨fun fits _ => fits, fun fits => fits facp⟩
  · rw [if_neg facp]
    exact iff_of_true signature fun claimed => absurd claimed facp

/-- The count that is left after an entry. -/
def turnsAfter (mem : Bytes) (rsdt i turns : Nat) : Nat :=
  if IsFacp mem (entryTable mem rsdt i) then 4294967294 else turns

/-- The loop ends at 0. -/
theorem scanEntries_zero (tests i : Nat) :
    scanEntries mem rsdt (tests + 1) i (toInt (0 : Nat)) = some ⟨-1, none, [], []⟩ := rfl

/-- Counting down, also through the wrap. -/
theorem toInt_pred (small : turns + 1 < 4294967296) :
    toInt ((turns + 1 : Nat) : Int) ≠ 0 ∧
      toInt (toInt ((turns + 1 : Nat) : Int) - 1) = toInt turns := by
  unfold toInt
  omega

/-- The loop ends with an object. -/
theorem scanEntries_found (tests : Nat) (small : turns + 1 < 4294967296)
    (found : Finds mem rsdt i) :
    ∃ acpi, scanEntries mem rsdt (tests + 1) i (toInt (turns + 1 : Nat)) =
      some ⟨0, some acpi, [i], (lookAtEntry mem rsdt i).2⟩ := by
  obtain ⟨acpi, found⟩ := found
  refine ⟨acpi, ?_⟩
  rw [scanEntries, if_neg (toInt_pred small).1]
  simp only [found]

/-- The loop goes on after an entry without an object. -/
theorem scanEntries_next (small : turns + 1 < 4294967296) (passed : ¬Finds mem rsdt i) :
    scanEntries mem rsdt (tests + 1) i (toInt (turns + 1 : Nat)) =
      (scanEntries mem rsdt tests (i + 1) (toInt (turnsAfter mem rsdt i turns : Nat))).map
        (Outcome.after [i] (lookAtEntry mem rsdt i).2) := by
  rw [scanEntries, if_neg (toInt_pred small).1, (toInt_pred small).2, turnsAfter]
  by_cases facp : IsFacp mem (entryTable mem rsdt i)
  · have none : (lookAtFacp mem (entryTable mem rsdt i)).1 = none := by
      by_contra some
      obtain ⟨acpi, found⟩ := Option.ne_none_iff_exists'.mp some
      exact passed ⟨acpi, by rw [lookAtEntry_facp facp, found]⟩
    simp only [if_pos facp, lookAtEntry_facp facp, none]
    rfl
  · simp only [if_neg facp, lookAtEntry_other facp]

/-- More tests do not change how the loop ends. -/
theorem scanEntries_unique {tests' : Nat} {entrys : Int}
    (run : scanEntries mem rsdt tests i entrys = some out)
    (run' : scanEntries mem rsdt tests' i entrys = some out') : out = out' := by
  induction tests generalizing tests' i entrys out out' with
  | zero => exact absurd run (by simp [scanEntries])
  | succ tests ih =>
    cases tests' with
    | zero => exact absurd run' (by simp [scanEntries])
    | succ tests' =>
      rw [scanEntries] at run run'
      by_cases zero : entrys = 0
      · rw [if_pos zero] at run run'
        exact Option.some.inj (run.symm.trans run')
      · rw [if_neg zero] at run run'
        have next (entrys : Int) (looked : List (Nat × Nat))
            (later : (scanEntries mem rsdt tests (i + 1) entrys).map (Outcome.after [i] looked) =
              some out)
            (later' : (scanEntries mem rsdt tests' (i + 1) entrys).map (Outcome.after [i] looked) =
              some out') : out = out' := by
          obtain ⟨rest, ends, rfl⟩ := Option.map_eq_some_iff.mp later
          obtain ⟨rest', ends', rfl⟩ := Option.map_eq_some_iff.mp later'
          rw [ih ends ends']
        cases found : (lookAtEntry mem rsdt i).1 with
        | other =>
          simp only [found] at run run'
          exact next _ _ run run'
        | facp acpi =>
          cases acpi with
          | none =>
            simp only [found] at run run'
            exact next _ _ run run'
          | some acpi =>
            simp only [found] at run run'
            exact Option.some.inj (run.symm.trans run')

/-- What is looked at for one entry more. -/
theorem lookedAt_succ (mem : Bytes) (rsdt i n : Nat) :
    lookedAt mem rsdt i (n + 1) = (lookAtEntry mem rsdt i).2 ++ lookedAt mem rsdt (i + 1) n := by
  rw [lookedAt, List.range'_succ, List.flatMap_cons]
  rfl

/-- What holds of the entries from one on. -/
theorem forall_tail {P : Nat → Prop} (all : ∀ k < gap + 1, P (i + k)) :
    P i ∧ ∀ k < gap, P (i + 1 + k) := by
  refine ⟨all 0 (Nat.zero_lt_succ _), fun k low => ?_⟩
  have next := all (k + 1) (Nat.succ_lt_succ low)
  rwa [Nat.add_comm k 1, ← Nat.add_assoc] at next

/-- The count after an entry. -/
theorem turnsAfter_spec (small : turns + 1 < 4294967296) (more : gap < turns)
    (far : gap < 4294967294) :
    gap < turnsAfter mem rsdt i turns ∧ turnsAfter mem rsdt i turns < 4294967296 := by
  unfold turnsAfter
  split <;> omega

/-- The loop ends at the first object. -/
theorem scanEntries_usable (passed : ∀ k < gap, ¬Finds mem rsdt (i + k))
    (found : Finds mem rsdt (i + gap)) (more : gap < turns) (small : turns < 4294967296)
    (far : gap < 4294967294) :
    ∃ acpi, scanEntries mem rsdt (gap + 1) i (toInt turns) =
      some ⟨0, some acpi, List.range' i (gap + 1), lookedAt mem rsdt i (gap + 1)⟩ := by
  induction gap generalizing i turns with
  | zero =>
    obtain ⟨turns, rfl⟩ := Nat.exists_eq_succ_of_ne_zero (Nat.ne_of_gt more)
    rw [Nat.add_zero] at found
    obtain ⟨acpi, run⟩ := scanEntries_found 0 small found
    refine ⟨acpi, run.trans ?_⟩
    rw [lookedAt_succ, lookedAt, List.range'_zero, List.flatMap_nil, List.append_nil,
      List.range'_one]
  | succ gap ih =>
    obtain ⟨turns, rfl⟩ := Nat.exists_eq_succ_of_ne_zero (Nat.ne_of_gt (Nat.zero_lt_of_lt more))
    obtain ⟨here, later⟩ := forall_tail (P := fun k => ¬Finds mem rsdt k) passed
    obtain ⟨low, high⟩ :=
      turnsAfter_spec small (Nat.lt_of_succ_lt_succ more) (Nat.lt_of_succ_lt far)
    rw [Nat.add_comm gap 1, ← Nat.add_assoc] at found
    obtain ⟨acpi, run⟩ := ih later found low high (Nat.lt_of_succ_lt far)
    refine ⟨acpi, ?_⟩
    rw [scanEntries_next small here, run, lookedAt_succ mem rsdt i, List.range'_succ]
    rfl

/-- The loop ends at the first object from the first entry on. -/
theorem scanEntries_first (passed : ∀ k < gap, ¬Finds mem rsdt k) (found : Finds mem rsdt gap)
    (more : gap < turns) (small : turns < 4294967296) (far : gap < 4294967294) :
    ∃ acpi, scanEntries mem rsdt (gap + 1) 0 (toInt turns) =
      some ⟨0, some acpi, List.range' 0 (gap + 1), lookedAt mem rsdt 0 (gap + 1)⟩ := by
  refine scanEntries_usable (fun k low => ?_) ?_ more small far
  · rw [Nat.zero_add]
    exact passed k low
  · rwa [Nat.zero_add]

/-- The loop ends behind the last entry without a FACP. -/
theorem scanEntries_none (other : ∀ k < turns, ¬IsFacp mem (entryTable mem rsdt (i + k)))
    (small : turns < 4294967296) :
    scanEntries mem rsdt (turns + 1) i (toInt turns) =
      some ⟨-1, none, List.range' i turns, lookedAt mem rsdt i turns⟩ := by
  induction turns generalizing i with
  | zero => exact scanEntries_zero 0 i
  | succ turns ih =>
    obtain ⟨here, later⟩ := forall_tail (P := fun k => ¬IsFacp mem (entryTable mem rsdt k)) other
    have passed : ¬Finds mem rsdt i := by
      rintro ⟨acpi, found⟩
      rw [lookAtEntry_other here] at found
      exact Look.noConfusion found
    rw [scanEntries_next small passed, turnsAfter, if_neg here, ih later (Nat.lt_of_succ_lt small),
      lookedAt_succ mem rsdt i, List.range'_succ]
    rfl

/-- The loop goes on behind entries without an object if there is a FACP among them, or the count is
greater. -/
theorem scanEntries_beyond (run : scanEntries mem rsdt tests i (toInt turns) = some out)
    (passed : ∀ k < gap, ¬Finds mem rsdt (i + k)) (count : gap ≤ turns) (small : turns < 4294967296)
    (far : gap < 4294967294)
    (more : gap < turns ∨ ∃ k < gap, IsFacp mem (entryTable mem rsdt (i + k))) :
    i + gap ∈ out.entries := by
  induction gap generalizing tests i turns out with
  | zero =>
    have positive : 0 < turns := more.resolve_right fun ⟨k, low, _⟩ => Nat.not_lt_zero k low
    obtain ⟨turns, rfl⟩ := Nat.exists_eq_succ_of_ne_zero (Nat.ne_of_gt positive)
    cases tests with
    | zero => exact absurd run (by simp [scanEntries])
    | succ tests =>
      by_cases found : Finds mem rsdt i
      · obtain ⟨acpi, ends⟩ := scanEntries_found tests small found
        obtain rfl := Option.some.inj (ends.symm.trans run)
        exact List.mem_singleton_self i
      · rw [scanEntries_next small found] at run
        obtain ⟨rest, _, rfl⟩ := Option.map_eq_some_iff.mp run
        exact List.mem_cons_self
  | succ gap ih =>
    obtain ⟨turns, rfl⟩ := Nat.exists_eq_succ_of_ne_zero
      (Nat.ne_of_gt (Nat.lt_of_lt_of_le (Nat.zero_lt_succ gap) count))
    obtain ⟨here, later⟩ := forall_tail (P := fun k => ¬Finds mem rsdt k) passed
    cases tests with
    | zero => exact absurd run (by simp [scanEntries])
    | succ tests =>
      rw [scanEntries_next small here] at run
      obtain ⟨rest, ends, rfl⟩ := Option.map_eq_some_iff.mp run
      rw [Nat.add_comm gap 1, ← Nat.add_assoc]
      apply List.mem_cons_of_mem
      unfold turnsAfter at ends
      by_cases facp : IsFacp mem (entryTable mem rsdt i)
      · rw [if_pos facp] at ends
        exact ih ends later (by omega) (by decide) (by omega) (.inl (by omega))
      · rw [if_neg facp] at ends
        refine ih ends later (by omega) (by omega) (by omega) ?_
        rcases more with less | ⟨k, low, other⟩
        · exact .inl (Nat.lt_of_succ_lt_succ less)
        · cases k with
          | zero => exact absurd other facp
          | succ k =>
            rw [Nat.add_comm k 1, ← Nat.add_assoc] at other
            exact .inr ⟨k, Nat.lt_of_succ_lt_succ low, other⟩

/-- The count that is taken from the length of the RSDT. -/
theorem entrys_spec (length : Nat) (word : length < 4294967296) :
    ∃ turns : Nat, turns < 4294967296 ∧ (toInt (toInt length - 36)).tdiv 4 = toInt turns ∧
      (length - 36) / 4 ≤ turns ∧ (turns = (length - 36) / 4 ↔
        33 ≤ length ∧ length < 2147483648 + 36) := by
  have quotient (x : Int) : x.tdiv 4 = if 0 ≤ x then x / 4 else -(-x / 4) := by
    split
    · exact Int.tdiv_eq_ediv_of_nonneg ‹_›
    · rw [← Int.tdiv_eq_ediv_of_nonneg (by omega), Int.neg_tdiv, Int.neg_neg]
  refine ⟨toUint ((toInt (toInt length - 36)).tdiv 4), ?_⟩
  rw [quotient]
  unfold toUint toInt
  split <;> omega

/-- The entries are in the address space. -/
theorem entryCount_lt (mem : Bytes) (rsdt : Nat) : entryCount mem rsdt < 1073741824 := by
  have word := (tableAt mem rsdt).word_lt 4
  unfold entryCount
  omega

/-- What is looked at for some entries. -/
theorem allWithin_lookedAt {n : Nat} :
    AllWithin mem (lookedAt mem rsdt 0 n) ↔ ∀ k < n, AllWithin mem (lookAtEntry mem rsdt k).2 := by
  rw [AllWithin, lookedAt, List.forall_mem_flatMap]
  simp only [List.mem_range'_1, Nat.zero_le, true_and, Nat.zero_add]
  rfl

/-- An outcome that has looked at the first entries is bounded. -/
theorem outcomeBounded_range' {n : Nat} {result : Int} {acpi : Option Acpi}
    (inside : n ≤ entryCount mem rsdt)
    (fits : ∀ i < n, IsFacp mem (entryTable mem rsdt i) → FacpFits mem (entryTable mem rsdt i))
    (usable : result = 0 → ∃ i < n, UsableFacp mem (entryTable mem rsdt i)) :
    OutcomeBounded mem rsdt ⟨result, acpi, List.range' 0 n, lookedAt mem rsdt 0 n⟩ where
  count := by rwa [List.length_range']
  once := List.nodup_range'
  inside := fun i member => by
    have bound := (List.mem_range'_1.mp member).2
    omega
  within := allWithin_lookedAt.mpr fun i low =>
    (lookAtEntry_within (Nat.lt_of_lt_of_le low inside)).mpr (fits i low)
  usable := fun zero => by
    obtain ⟨i, low, found⟩ := usable zero
    exact ⟨i, List.mem_range'_1.mpr ⟨Nat.zero_le i, by omega⟩, found⟩

/-- The loop of `setup_ACPI` is bounded if and only if it comes to an object that can be used, or
there is no FACP and the count is that of the entries. -/
theorem scanEntries_iff (small : turns < 4294967296) (most : entryCount mem rsdt ≤ turns) :
    (∃ tests out, scanEntries mem rsdt tests 0 (toInt turns) = some out ∧
        OutcomeBounded mem rsdt out) ↔
      UsableInside mem rsdt ∨
        turns = entryCount mem rsdt ∧
          ∀ i < entryCount mem rsdt, ¬IsFacp mem (entryTable mem rsdt i) := by
  have far := entryCount_lt mem rsdt
  constructor
  · rintro ⟨tests, out, run, bounded⟩
    by_cases found : ∃ j, j < entryCount mem rsdt ∧ Finds mem rsdt j
    · -- the first entry for which an object is found
      classical
      obtain ⟨inside, finds⟩ := Nat.find_spec found
      have before (i : Nat) (low : i < Nat.find found) : ¬Finds mem rsdt i :=
        fun earlier => Nat.find_min found low ⟨Nat.lt_trans low inside, earlier⟩
      generalize Nat.find found = j at *
      obtain ⟨acpi, ends⟩ := scanEntries_first before finds (Nat.lt_of_lt_of_le inside most) small
        (by omega)
      obtain rfl := scanEntries_unique run ends
      have fits (i : Nat) (low : i ≤ j) := (lookAtEntry_within (Nat.lt_of_le_of_lt low inside)).mp
        (allWithin_lookedAt.mp bounded.within i (Nat.lt_succ_of_le low))
      have usable := (finds_iff (fits j (Nat.le_refl j))).mp finds
      refine .inl ⟨j, inside, usable, fun i low usable => ?_, fits⟩
      exact before i low ((finds_iff (fits i (Nat.le_of_lt low))).mpr usable)
    · have passed (k : Nat) (low : k < entryCount mem rsdt) : ¬Finds mem rsdt (0 + k) := by
        rw [Nat.zero_add]
        exact fun finds => found ⟨k, low, finds⟩
      have ends : ¬(entryCount mem rsdt < turns ∨
          ∃ k < entryCount mem rsdt, IsFacp mem (entryTable mem rsdt (0 + k))) := fun more => by
        have beyond := bounded.inside _ (scanEntries_beyond run passed most small (by omega) more)
        omega
      obtain ⟨exact_, none⟩ := not_or.mp ends
      refine .inr ⟨by omega, fun i low facp => none ⟨i, low, ?_⟩⟩
      rwa [Nat.zero_add]
  · rintro (⟨j, inside, usable, before, fits⟩ | ⟨rfl, other⟩)
    · have finds := (finds_iff (fits j (Nat.le_refl j))).mpr usable
      have passed (i : Nat) (low : i < j) : ¬Finds mem rsdt i :=
        fun earlier => before i low ((finds_iff (fits i (Nat.le_of_lt low))).mp earlier)
      obtain ⟨acpi, ends⟩ := scanEntries_first passed finds (Nat.lt_of_lt_of_le inside most) small
        (by omega)
      refine ⟨_, _, ends, outcomeBounded_range' inside ?_ ?_⟩
      · exact fun i low => fits i (Nat.le_of_lt_succ low)
      · exact fun _ => ⟨j, Nat.lt_succ_self j, usable⟩
    · have none (k : Nat) (low : k < entryCount mem rsdt) :
          ¬IsFacp mem (entryTable mem rsdt (0 + k)) := by
        rw [Nat.zero_add]
        exact other k low
      refine ⟨_, _, scanEntries_none none small, outcomeBounded_range' (Nat.le_refl _) ?_ ?_⟩
      · exact fun i low facp => absurd facp (other i low)
      · exact fun zero => absurd zero (by decide)

/-- What is looked at in the header. -/
theorem outcomeBounded_after {looked : List (Nat × Nat)} (header : AllWithin mem looked) :
    OutcomeBounded mem rsdt (out.after [] looked) ↔ OutcomeBounded mem rsdt out := by
  constructor
  · rintro ⟨count, once, inside, within, usable⟩
    exact ⟨count, once, inside, (allWithin_append.mp within).2, usable⟩
  · rintro ⟨count, once, inside, within, usable⟩
    exact ⟨count, once, inside, allWithin_append.mpr ⟨header, within⟩, usable⟩

/-- `setup_ACPI` is bounded for a checked RSDT if and only if its loop is. -/
theorem scanBounded_iff_scanEntries (found : acpiGetRSDPtr mem ≠ 0)
    (checked : (acpiCheckHeader (tableAt mem (acpiGetRSDPtr mem)) rsdtSig).1 = 0)
    (entrys :
      (toInt (toInt ((tableAt mem (acpiGetRSDPtr mem)).word 4) - 36)).tdiv 4 = toInt turns) :
    ScanBounded mem ↔ ∃ tests out,
      scanEntries mem (acpiGetRSDPtr mem) tests 0 (toInt turns) = some out ∧
        OutcomeBounded mem (acpiGetRSDPtr mem) out := by
  have header : AllWithin mem (ofTable (acpiGetRSDPtr mem)
      ((acpiCheckHeader (tableAt mem (acpiGetRSDPtr mem)) rsdtSig).2 ++ uintOffsets 4)) := by
    rw [allWithin_ofTable, within_append, within_uintOffsets]
    exact ⟨acpiCheckHeader_within _ (by decide), Nat.le_max_left _ _⟩
  have start (tests : Nat) : setupACPI mem tests =
      (scanEntries mem (acpiGetRSDPtr mem) tests 0 (toInt turns)).map (Outcome.after []
        (ofTable (acpiGetRSDPtr mem)
          ((acpiCheckHeader (tableAt mem (acpiGetRSDPtr mem)) rsdtSig).2 ++ uintOffsets 4))) := by
    simp only [setupACPI, if_neg found, checked, ne_eq, not_true, if_false, entrys]
  constructor
  · rintro ⟨tests, out, run, bounded⟩
    obtain ⟨rest, ends, rfl⟩ := Option.map_eq_some_iff.mp ((start tests).symm.trans run)
    exact ⟨tests, rest, ends, (outcomeBounded_after header).mp bounded⟩
  · rintro ⟨tests, out, ends, bounded⟩
    exact ⟨tests, _, (start tests).trans (congrArg _ ends),
      (outcomeBounded_after header).mpr bounded⟩

/-- `setup_ACPI` is bounded for a checked RSDT if and only if the first FACP with an object that can
be used is in the RSDT and the tables up to it fit, or the RSDT has no FACP and a length that can be
counted. -/
theorem scanBounded_iff (found : acpiGetRSDPtr mem ≠ 0)
    (checked : (acpiCheckHeader (tableAt mem (acpiGetRSDPtr mem)) rsdtSig).1 = 0) :
    ScanBounded mem ↔
      UsableInside mem (acpiGetRSDPtr mem) ∨ NoFacpInside mem (acpiGetRSDPtr mem) := by
  obtain ⟨turns, small, entrys, most, exactly⟩ :=
    entrys_spec _ ((tableAt mem (acpiGetRSDPtr mem)).word_lt 4)
  rw [scanBounded_iff_scanEntries found checked entrys, scanEntries_iff small most, NoFacpInside,
    ← and_assoc, ← exactly, entryCount]

/-- Blocks of bytes in a memory of zeros. -/
def firmware (blocks : List (Nat × List (BitVec 8))) : Bytes := fun a =>
  (blocks.findSome? fun block => if block.1 ≤ a then block.2[a - block.1]? else none).getD 0

/-- A pointer to a RSDT with one entry, and the RSDT. -/
def oneEntry : List (Nat × List (BitVec 8)) :=
  [(0xE0000, [82, 83, 68, 32, 80, 84, 82, 32, 209, 0, 0, 0, 0, 0, 0, 0, 0, 16, 0, 0]),
    (0x1000, rsdtSig ++ [40, 0, 0, 0, 1, 122] ++ List.replicate 26 0 ++ [0, 32, 0, 0])]

/-- A FACP without a DSDT. -/
def withoutDsdt : Bytes :=
  firmware (oneEntry ++ [(0x2000, facpSig ++ [44, 0, 0, 0, 1, 185] ++ List.replicate 34 0)])

/-- A FACP and a DSDT of which the object ends with the table. -/
def withDsdt : Bytes :=
  firmware (oneEntry ++
    [(0x2000, facpSig ++ [90, 0, 0, 0, 1, 91] ++ List.replicate 30 0 ++ [0, 48] ++
        List.replicate 48 0),
      (0x3000, dsdtSig ++ [48, 0, 0, 0, 1, 24] ++ List.replicate 26 0 ++
        [8, 95, 83, 53, 95, 18, 6, 4, 10, 5, 10, 5])])

instance (t : Bytes) (offset : Nat) (text : List (BitVec 8)) : Decidable (HasText t offset text) :=
  decidable_of_iff _ memcmpTable_eq_zero

/-- The object of the DSDT. -/
theorem firstS5_withDsdt : FirstS5 (dsdtOf withDsdt 0x2000) 37 := by
  refine ⟨by decide, by decide +kernel, fun j low high => ?_, ?_⟩
  · obtain rfl : j = 36 := by omega
    unfold IsS5
    decide +kernel
  · unfold IsS5
    decide +kernel

/-- The FACP and the DSDT fit. -/
theorem facpFits_withDsdt : FacpFits withDsdt 0x2000 := by
  have length : (dsdtOf withDsdt 0x2000).word 4 = 48 := by decide +kernel
  refine ⟨by decide +kernel, fun _ => ⟨by omega, fun k low high none => ?_, ?_⟩, fun _ => ?_⟩
  · have first := firstS5_withDsdt
    by_cases behind : 37 < k
    · exact absurd first.2.2.2 (none 37 (by decide) behind)
    · exact .inl (by omega)
  · intro k first _
    obtain rfl := first.eq firstS5_withDsdt
    decide +kernel
  · decide +kernel

/-- The object ends with the table. -/
theorem scanBounded_iff_withDsdt : ScanBounded withDsdt := by
  have rsdt : acpiGetRSDPtr withDsdt = 0x1000 := by decide +kernel
  have table : entryTable withDsdt 0x1000 0 = 0x2000 := by decide +kernel
  refine (scanBounded_iff (by decide +kernel) (by decide +kernel)).mpr (.inl ⟨0, ?_, ?_, ?_, ?_⟩)
  · decide +kernel
  · rw [rsdt, table]
    exact ⟨by decide +kernel, by decide +kernel, 37, firstS5_withDsdt, by decide +kernel⟩
  · exact fun i low => absurd low (Nat.not_lt_zero i)
  · intro i low _
    obtain rfl := Nat.le_zero.mp low
    rw [rsdt, table]
    exact facpFits_withDsdt

/-- The loop looks at an entry behind the RSDT after a FACP without a DSDT. -/
theorem scanBounded_not : ¬ScanBounded withoutDsdt := by
  have rsdt : acpiGetRSDPtr withoutDsdt = 0x1000 := by decide +kernel
  have table : entryTable withoutDsdt 0x1000 0 = 0x2000 := by decide +kernel
  have count : entryCount withoutDsdt 0x1000 = 1 := by decide +kernel
  have facp : IsFacp withoutDsdt (entryTable withoutDsdt 0x1000 0) := by decide +kernel
  have none : ¬HasDsdt withoutDsdt (entryTable withoutDsdt 0x1000 0) := by decide +kernel
  rw [scanBounded_iff_scanEntries (by decide +kernel) (by decide +kernel)
    (show _ = toInt (1 : Nat) by decide +kernel), rsdt,
    scanEntries_iff (by decide) (Nat.le_of_eq count), UsableInside, count]
  rintro (⟨j, low, usable, _⟩ | ⟨_, other⟩)
  · obtain rfl := Nat.lt_one_iff.mp low
    exact none usable.2.1
  · exact other 0 (by decide) facp

end Nupkux
