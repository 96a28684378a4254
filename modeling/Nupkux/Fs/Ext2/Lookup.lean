import Nupkux.Fs.Ext2.Directory

/-!
# Looking a name up in an ext2 directory

The scan of `ext2_lookup` takes the first record that `namei_nmatch` accepts, also a deleted one,
and one whose name the path goes beyond, if the byte behind the name does not end a name. It
takes off the size of the wrong record, so that without a match it reads behind the last one.
-/

namespace Nupkux

variable {data : Bytes} {records rest : List DirRecord} {r s : DirRecord} {path t : CString}
  {byteAt : Nat → Option (BitVec 8)} {a ent i k n size steps : Nat} {readSize : Int}

/-- `namei_nmatch` accepts a counted name for a path: it is the name the path starts with, or a
part of it, and the byte behind it is not the end of a name. -/
def Accepts (path t : CString) (next : Option (BitVec 8)) : Prop :=
  component path = component t ∨
    component t = t ∧ t <+: component path ∧ ∃ d, next = some d ∧ isEndByte d = false

/-- The end of a name is one whether it is tested in a string or in memory. -/
theorem isEndByte_toBitVec (c : UInt8) (s : CString) :
    isEndByte c.toBitVec = isEnd (c :: s) := by
  have same (d : UInt8) : (c.toBitVec == d.toBitVec) = (c == d) := by
    by_cases equal : c = d
    · simp [equal]
    · have other : c.toBitVec ≠ d.toBitVec := fun bits => equal (UInt8.toBitVec_inj.mp bits)
      rw [beq_false_of_ne equal, beq_false_of_ne other]
  show (c.toBitVec == (0 : UInt8).toBitVec || c.toBitVec == slash.toBitVec) = (c == 0 || c == slash)
  rw [same, same]

/-- A name whose first character is the end of one is empty. -/
theorem component_of_end {c : UInt8} {s : CString} (ends : isEnd (c :: s) = true) :
    component (c :: s) = [] := component_eq_nil.mpr ends

/-- When the path has no further character the rest of the name must have none either. -/
theorem nmatchEnd_eq (ended : component path = [])
    (letters : ∀ i < t.length, byteAt (a + i) = some (t.getD i 0).toBitVec) :
    nmatchEnd byteAt a t.length =
      if component path = component t then some true
      else if component t = t ∧ t <+: component path then
        (byteAt (a + t.length)).map fun d => !isEndByte d
      else some false := by
  cases t with
  | nil =>
    have both : component path = component [] := ended
    rw [if_pos both]
    rfl
  | cons d t =>
    have first : byteAt a = some d.toBitVec := letters 0 (Nat.succ_pos _)
    have longer : ¬(component (d :: t) = d :: t ∧ d :: t <+: component path) := by
      rw [ended]
      exact fun both => List.cons_ne_nil d t (List.prefix_nil.mp both.2)
    rw [if_neg longer, nmatchEnd, if_neg (by simp), first, Option.map_some,
      isEndByte_toBitVec d t, ended]
    cases last : isEnd (d :: t) with
    | true => rw [if_pos (component_of_end last).symm]
    | false =>
      rw [component_cons last]
      rfl

/-- What `namei_nmatch` returns for a counted name in memory. -/
theorem nameiNmatch_eq (letters : ∀ i < t.length, byteAt (a + i) = some (t.getD i 0).toBitVec) :
    nameiNmatch byteAt path a t.length =
      if component path = component t then some true
      else if component t = t ∧ t <+: component path then
        (byteAt (a + t.length)).map fun d => !isEndByte d
      else some false := by
  induction path generalizing t a with
  | nil => exact nmatchEnd_eq rfl letters
  | cons c path ih =>
    rw [nameiNmatch]
    cases ended : isEnd (c :: path) with
    | true => exact nmatchEnd_eq (component_of_end ended) letters
    | false =>
      rw [if_neg Bool.false_ne_true, component_cons ended]
      cases t with
      | nil =>
        have goes_on : c :: component path ≠ component [] := List.cons_ne_nil _ _
        have counted : component [] = [] ∧ [] <+: c :: component path := ⟨rfl, List.nil_prefix⟩
        rw [if_neg goes_on, if_pos counted, List.length_nil, Nat.add_zero]
        cases byteAt a with
        | none => rfl
        | some d =>
          show (if isEndByte d then some false else some true) = some (!isEndByte d)
          cases isEndByte d <;> rfl
      | cons d t =>
        have first : byteAt a = some d.toBitVec := letters 0 (Nat.succ_pos _)
        have more : ∀ i < t.length, byteAt (a + 1 + i) = some (t.getD i 0).toBitVec := by
          intro i below
          rw [show a + 1 + i = a + (i + 1) by omega]
          exact letters (i + 1) (Nat.succ_lt_succ below)
        simp only [first, isEndByte_toBitVec d t]
        cases last : isEnd (d :: t) with
        | true =>
          have short : component (d :: t) = [] := component_of_end last
          have cut : ¬([] = d :: t ∧ d :: t <+: c :: component path) :=
            fun both => List.cons_ne_nil d t both.1.symm
          rw [short, if_neg (List.cons_ne_nil _ _), if_neg cut, if_pos rfl]
        | false =>
          rw [component_cons last]
          by_cases same : c = d
          · subst same
            have behind : a + 1 + t.length = a + (c :: t).length := by
              rw [List.length_cons]
              omega
            rw [← behind]
            simpa [List.cons_prefix_cons] using ih more
          · have other : c.toBitVec ≠ d.toBitVec := fun bits => same (UInt8.toBitVec_inj.mp bits)
            simp [same, other, List.cons_prefix_cons, Ne.symm same]

/-- After a counted name, both the path and what follows the name in memory go on. -/
def BothGoOn (path t : CString) (next : BitVec 8) : Prop :=
  t <+: component path ∧ component path ≠ t ∧ isEndByte next = false

instance (path t : CString) (next : BitVec 8) : Decidable (BothGoOn path t next) :=
  inferInstanceAs (Decidable (_ ∧ _ ∧ _))

/-- `namei_nmatch` of a counted name that is followed by anything agrees with `namei_match` of the
name if and only if not both go on after it, and `namei_match` compares the names two paths start
with. -/
theorem nameiNmatch_agrees_iff {next : BitVec 8} (other : CString) (whole : NoNul t)
    (plain : slash ∉ t) (letters : ∀ i < t.length, byteAt (a + i) = some (t.getD i 0).toBitVec)
    (followed : byteAt (a + t.length) = some next) :
    (nameiNmatch byteAt path a t.length = some (nameiMatch path t) ↔ ¬BothGoOn path t next) ∧
      (nameiMatch path other = true ↔ component path = component other) := by
  refine ⟨?_, nameiMatch_iff path other⟩
  have name := component_of_name whole plain
  have verdict := nameiMatch_iff path t
  rw [nameiNmatch_eq letters, followed, Option.map_some]
  rw [name] at verdict ⊢
  by_cases same : component path = t
  · rw [if_pos same, verdict.mpr same]
    exact iff_of_true rfl fun both => both.2.1 same
  · have differ : nameiMatch path t = false := Bool.not_eq_true _ ▸ mt verdict.mp same
    rw [if_neg same, differ, BothGoOn]
    by_cases longer : t <+: component path
    · rw [if_pos ⟨rfl, longer⟩]
      simp [longer, same]
    · rw [if_neg fun both => longer both.2]
      simp [longer]

/-- Bytes at an address 0. -/
def storedText (bytes : CString) (a : Nat) : Option (BitVec 8) := bytes[a]?.map UInt8.toBitVec

/-- `"dev/tty"` and the first three bytes of `"devices"`. -/
theorem nameiNmatch_agrees_iff_dev :
    nameiNmatch (storedText [100, 101, 118, 105, 99, 101, 115])
        [100, 101, 118, 47, 116, 116, 121] 0 3 =
      some (nameiMatch [100, 101, 118, 47, 116, 116, 121] [100, 101, 118]) :=
  (nameiNmatch_agrees_iff (t := [100, 101, 118]) [] (by decide) (by decide) (by decide) rfl).1.mpr
    (by decide)

/-- `"device"` is matched by the first three bytes of `"devices"`. -/
theorem nameiNmatch_agrees_not :
    ¬nameiNmatch (storedText [100, 101, 118, 105, 99, 101, 115]) [100, 101, 118, 105, 99, 101] 0 3 =
      some (nameiMatch [100, 101, 118, 105, 99, 101] [100, 101, 118]) := by decide

/-- The scan accepts the record at an address. -/
def AcceptsAt (data : Bytes) (size : Nat) (path : CString) (ent : Nat) (r : DirRecord) : Prop :=
  Accepts path r.name (dataAt data size (ent + entryName + r.name.length))

section Record

variable (record : RecordAt data ent r) (fits : ent + r.recLen ≤ size)
include record fits

/-- The fields of a record of the data can be read. -/
theorem RecordAt.readable : wordAt (dataAt data size) ent = some r.inode ∧
    halfAt (dataAt data size) (ent + 4) = some r.recLen ∧
    dataAt data size (ent + 6) = some (data (ent + 6)) ∧
    ∀ i < r.name.length,
      dataAt data size (ent + entryName + i) = some (r.name.getD i 0).toBitVec := by
  have room := record.room
  have offset : entryName = 8 := rfl
  have inside {b : Nat} (below : b < size) : dataAt data size b = some (data b) := if_pos below
  refine ⟨?_, ?_, inside (by omega), fun i below => ?_⟩
  · rw [← record.inode]
    simp only [wordAt, halfAt, inside (show ent < size by omega),
      inside (show ent + 1 < size by omega), inside (show ent + 2 < size by omega),
      inside (show ent + 2 + 1 < size by omega), Option.bind_eq_bind, Option.bind_some, Bytes.word]
    rw [show ent + 2 + 1 = ent + 3 from rfl, Option.some_inj]
    omega
  · rw [← record.recLen]
    simp only [halfAt, inside (show ent + 4 < size by omega),
      inside (show ent + 4 + 1 < size by omega), Option.bind_eq_bind, Option.bind_some]
    rfl
  · rw [inside (by omega), record.name i below]

/-- The comparison of one pass. -/
theorem RecordAt.compared : ((dataAt data size (ent + 6)).bind fun nameLen =>
      nameiNmatch (dataAt data size) path (ent + entryName) nameLen.toNat) =
    if component path = component r.name then some true
    else if component r.name = r.name ∧ r.name <+: component path then
      (dataAt data size (ent + entryName + r.name.length)).map fun d => !isEndByte d
    else some false := by
  obtain ⟨-, -, nameLen, letters⟩ := record.readable fits
  rw [nameLen, Option.bind_some, record.nameLen, nameiNmatch_eq letters]

/-- It succeeds for a record that is accepted. -/
theorem RecordAt.compared_of_accepts (accepts : AcceptsAt data size path ent r) :
    ((dataAt data size (ent + 6)).bind fun nameLen =>
      nameiNmatch (dataAt data size) path (ent + entryName) nameLen.toNat) = some true := by
  rw [record.compared fits]
  by_cases same : component path = component r.name
  · exact if_pos same
  · obtain ⟨whole, part, d, next, goes_on⟩ := accepts.resolve_left same
    rw [if_neg same, if_pos ⟨whole, part⟩, next, Option.map_some, goes_on]
    rfl

/-- For another one it fails, or reads outside of the data behind the name. -/
theorem RecordAt.compared_of_refused (refused : ¬AcceptsAt data size path ent r) :
    ((dataAt data size (ent + 6)).bind fun nameLen =>
        nameiNmatch (dataAt data size) path (ent + entryName) nameLen.toNat) = some false ∨
      ((dataAt data size (ent + 6)).bind fun nameLen =>
        nameiNmatch (dataAt data size) path (ent + entryName) nameLen.toNat) = none ∧
      size ≤ ent + entryName + r.name.length := by
  obtain ⟨other, short⟩ := not_or.mp refused
  rw [record.compared fits, if_neg other]
  by_cases part : component r.name = r.name ∧ r.name <+: component path
  · rw [if_pos part]
    by_cases inside : ent + entryName + r.name.length < size
    · have next : dataAt data size (ent + entryName + r.name.length) =
          some (data (ent + entryName + r.name.length)) := if_pos inside
      rw [next, Option.map_some]
      cases last : isEndByte (data (ent + entryName + r.name.length)) with
      | true => exact Or.inl rfl
      | false => exact absurd ⟨part.1, part.2, _, next, last⟩ short
    · have next : dataAt data size (ent + entryName + r.name.length) = none := if_neg inside
      rw [next]
      exact Or.inr ⟨rfl, Nat.le_of_not_lt inside⟩
  · exact Or.inl (if_neg part)

/-- A record that is accepted is found. -/
theorem lookupLoop_of_accepts (positive : 0 < readSize)
    (accepts : AcceptsAt data size path ent r) :
    lookupLoop (dataAt data size) path (steps + 1) ent readSize = .found r.inode := by
  obtain ⟨inode, -⟩ := record.readable fits
  rw [lookupLoop, if_neg (Int.not_le.mpr positive), record.compared_of_accepts fits accepts]
  simp only [inode]

/-- A record that is not accepted is passed, if another one follows. -/
theorem lookupLoop_of_passes (positive : 0 < readSize)
    (refused : ¬AcceptsAt data size path ent r) (next : ent + r.recLen < size) :
    lookupLoop (dataAt data size) path (steps + 1) ent readSize =
      match halfAt (dataAt data size) (ent + r.recLen + 4) with
      | none => .outside
      | some nextLen =>
        lookupLoop (dataAt data size) path steps (ent + r.recLen) (readSize - nextLen) := by
  obtain ⟨-, recLen, -⟩ := record.readable fits
  have room := record.room
  have offset : entryName = 8 := rfl
  have positive_len : r.recLen ≠ 0 := by omega
  rcases record.compared_of_refused fits refused with passed | ⟨-, beyond⟩
  · rw [lookupLoop, if_neg (Int.not_le.mpr positive), passed]
    cases nextLen : halfAt (dataAt data size) (ent + r.recLen + 4) with
    | none => simp only [recLen, if_neg positive_len, nextLen]
    | some k => simp only [recLen, if_neg positive_len, nextLen]
  · omega

/-- At the last record the scan reads outside of the data. -/
theorem lookupLoop_of_last (positive : 0 < readSize)
    (refused : ¬AcceptsAt data size path ent r) (last : ent + r.recLen = size) :
    lookupLoop (dataAt data size) path (steps + 1) ent readSize = .outside := by
  obtain ⟨-, recLen, -⟩ := record.readable fits
  have room := record.room
  have offset : entryName = 8 := rfl
  have positive_len : r.recLen ≠ 0 := by omega
  have beyond : halfAt (dataAt data size) (ent + r.recLen + 4) = none := by
    have outside : dataAt data size (ent + r.recLen + 4) = none := if_neg (by omega)
    rw [halfAt, outside]
    rfl
  rw [lookupLoop, if_neg (Int.not_le.mpr positive)]
  rcases record.compared_of_refused fits refused with passed | ⟨cut, -⟩
  · rw [passed]
    simp only [recLen, if_neg positive_len, beyond]
  · rw [cut]

end Record

/-- The first record of a list that the scan accepts. -/
structure FirstAccepted (data : Bytes) (size : Nat) (path : CString) (a : Nat)
    (records : List DirRecord) (i : Nat) (r : DirRecord) : Prop where
  found : records[i]? = some r
  accepts : AcceptsAt data size path (a + recordOffset records i) r
  first : ∀ j < i, ∀ s, records[j]? = some s →
    ¬AcceptsAt data size path (a + recordOffset records j) s

/-- There is one first record. -/
theorem FirstAccepted.unique {j : Nat} (first : FirstAccepted data size path a records i r)
    (second : FirstAccepted data size path a records j s) : r = s := by
  rcases Nat.lt_trichotomy i j with before | same | behind
  · exact absurd first.accepts (second.first i before r first.found)
  · subst same
    exact Option.some.inj (first.found.symm.trans second.found)
  · exact absurd second.accepts (first.first j behind s second.found)

/-- Behind a record that is refused, the first one is that of the others. -/
theorem FirstAccepted.cons_iff (refused : ¬AcceptsAt data size path a r) :
    FirstAccepted data size path a (r :: rest) i s ↔
      ∃ j, i = j + 1 ∧ FirstAccepted data size path (a + r.recLen) rest j s := by
  constructor
  · rintro ⟨found, accepts, first⟩
    cases i with
    | zero =>
      cases found
      exact absurd accepts refused
    | succ j =>
      rw [recordOffset_cons, ← Nat.add_assoc] at accepts
      refine ⟨j, rfl, found, accepts, fun l before t there => ?_⟩
      have other := first (l + 1) (Nat.succ_lt_succ before) t there
      rwa [recordOffset_cons, ← Nat.add_assoc] at other
  · rintro ⟨j, rfl, found, accepts, first⟩
    refine ⟨found, ?_, fun l before t there => ?_⟩
    · rwa [recordOffset_cons, ← Nat.add_assoc]
    · cases l with
      | zero =>
        cases there
        exact refused
      | succ l =>
        rw [recordOffset_cons, ← Nat.add_assoc]
        exact first l (Nat.lt_of_succ_lt_succ before) t there

/-- A scan of records finds the first one that is accepted, or reads outside of the data. -/
theorem lookupLoop_laid (laid : Laid data a (r :: rest)) (positive : 0 < k)
    (fills : a + ((r :: rest).map (·.recLen)).sum = size) (enough : rest.length < steps) :
    (∃ i s, FirstAccepted data size path a (r :: rest) i s ∧
      lookupLoop (dataAt data size) path steps a (k + (rest.map (·.recLen)).sum : Nat) =
        .found s.inode) ∨
    (∀ i s, ¬FirstAccepted data size path a (r :: rest) i s) ∧
      lookupLoop (dataAt data size) path steps a (k + (rest.map (·.recLen)).sum : Nat) =
        .outside := by
  induction rest generalizing a r k steps with
  | nil =>
    obtain ⟨steps, rfl⟩ := Nat.exists_eq_add_of_lt enough
    have record : RecordAt data a r := laid.recordAt (i := 0) rfl
    have last : a + r.recLen = size := fills
    have some_left : (0 : Int) < (k + (([] : List DirRecord).map (·.recLen)).sum : Nat) :=
      Int.natCast_pos.mpr positive
    by_cases accepts : AcceptsAt data size path a r
    · refine Or.inl ⟨0, r, ⟨rfl, accepts, nofun⟩, ?_⟩
      exact lookupLoop_of_accepts record (Nat.le_of_eq last) some_left accepts
    · refine Or.inr ⟨fun i s first => ?_, ?_⟩
      · obtain ⟨j, -, first⟩ := (FirstAccepted.cons_iff accepts).mp first
        cases first.found
      · exact lookupLoop_of_last record (Nat.le_of_eq last) some_left accepts last
  | cons next rest ih =>
    cases steps with
    | zero => cases enough
    | succ steps =>
      have record : RecordAt data a r := laid.recordAt (i := 0) rfl
      have later : Laid data (a + r.recLen) (next :: rest) := laid.2
      have following : RecordAt data (a + r.recLen) next := later.recordAt (i := 0) rfl
      have room := following.room
      have offset : entryName = 8 := rfl
      rw [List.map_cons, List.sum_cons, List.map_cons, List.sum_cons] at fills
      have left : k + ((next :: rest).map (·.recLen)).sum =
          k + (rest.map (·.recLen)).sum + next.recLen := by
        rw [List.map_cons, List.sum_cons]
        omega
      have some_left : (0 : Int) < (k + ((next :: rest).map (·.recLen)).sum : Nat) := by omega
      by_cases accepts : AcceptsAt data size path a r
      · refine Or.inl ⟨0, r, ⟨rfl, accepts, nofun⟩, ?_⟩
        exact lookupLoop_of_accepts record (by omega) some_left accepts
      · have inside : a + r.recLen + next.recLen ≤ size := by omega
        have readable := following.readable inside
        have remaining : ((k + ((next :: rest).map (·.recLen)).sum : Nat) : Int) - next.recLen =
            (k + (rest.map (·.recLen)).sum : Nat) := by omega
        rw [lookupLoop_of_passes record (by omega) some_left accepts (by omega), readable.2.1]
        simp only [remaining]
        have rest_fills : a + r.recLen + ((next :: rest).map (·.recLen)).sum = size := by
          rw [List.map_cons, List.sum_cons]
          omega
        rcases ih later positive rest_fills (Nat.lt_of_succ_lt_succ enough) with
          ⟨i, s, first, found⟩ | ⟨none_first, outside⟩
        · exact Or.inl ⟨i + 1, s, (FirstAccepted.cons_iff accepts).mpr ⟨i, rfl, first⟩, found⟩
        · refine Or.inr ⟨fun i s first => ?_, outside⟩
          obtain ⟨j, -, first⟩ := (FirstAccepted.cons_iff accepts).mp first
          exact none_first j s first

/-- The loop ends at a record without a size. -/
theorem lookupLoop_of_zero (zero : halfAt byteAt (ent + 4) = some 0) :
    lookupLoop byteAt path (steps + 1) ent readSize ≠ .running := by
  rw [lookupLoop]
  split
  · nofun
  · split
    · nofun
    · split <;> nofun
    · rw [zero]
      nofun

/-- The loop ends, whatever it reads. -/
theorem lookupLoop_ends (enough : readSize.toNat + 1 < steps) :
    lookupLoop byteAt path steps ent readSize ≠ .running := by
  induction steps generalizing ent readSize with
  | zero => omega
  | succ steps ih =>
    rw [lookupLoop]
    split
    · nofun
    · rename_i positive
      split
      · nofun
      · split <;> nofun
      · split
        · nofun
        · split
          · nofun
          · split
            · nofun
            · rename_i nextLen next
              by_cases zero : nextLen = 0
              · obtain ⟨steps, rfl⟩ := Nat.exists_eq_add_of_lt (show 0 < steps by omega)
                rw [zero] at next
                exact lookupLoop_of_zero next
              · apply ih
                omega

/-- `ext2_lookup` ends for every content, also a corrupt one. -/
theorem ext2Lookup_ends (size : Nat) (read : Int) (byteAt : Nat → Option (BitVec 8))
    (path : CString) (size_lt : size < uintWidth) :
    ext2Lookup size read byteAt path ≠ .running := by
  unfold ext2Lookup
  split
  · nofun
  · apply lookupLoop_ends
    unfold toInt
    unfold uintWidth at size_lt
    omega

/-- The inode number of the file with a name. -/
def liveFind (records : List DirRecord) (name : CString) : Option Nat :=
  (records.find? fun r => r.inode ≠ 0 ∧ r.name = name).map (·.inode)

/-- `ext2_lookup` gives the inode number of the file whose name the path starts with, or 0 if
there is none, and reads the data of the directory only. -/
def LooksUp (data : Bytes) (size : Nat) (records : List DirRecord) (path : CString) : Prop :=
  ext2Lookup size (toInt size) (dataAt data size) path =
    match liveFind records (component path) with
    | none => .missing
    | some ino => .found ino

/-- Records are not more than the bytes they fill. -/
theorem Laid.length_le (laid : Laid data a records) :
    records.length ≤ (records.map (·.recLen)).sum := by
  induction records generalizing a with
  | nil => exact Nat.le_refl 0
  | cons r rest ih =>
    have room := laid.1.2.2.2.2
    have offset : entryName = 8 := rfl
    have later := ih laid.2
    rw [List.map_cons, List.sum_cons, List.length_cons]
    omega

/-- A lookup in a directory with records, whose size fits an `int`. -/
theorem looksUp_iff_of_small (content : DirContent data size records)
    (some_record : records ≠ []) (small : size < 2147483648) :
    LooksUp data size records path ↔ ∃ i r, FirstAccepted data size path 0 records i r ∧
      liveFind records (component path) = some r.inode := by
  obtain ⟨r, rest, rfl⟩ := List.exists_cons_of_ne_nil some_record
  obtain ⟨laid, fills⟩ := content
  have length := laid.length_le
  rw [List.map_cons, List.sum_cons] at fills length
  rw [List.length_cons] at length
  have room := laid.1.2.2.2.2
  have offset : entryName = 8 := rfl
  have number : toInt size = ((r.recLen + (rest.map (·.recLen)).sum : Nat) : Int) := by
    unfold toInt
    omega
  have past : ¬((r.recLen + (rest.map (·.recLen)).sum : Nat) : Int) ≤ 0 := by omega
  have total : 0 + ((r :: rest).map (·.recLen)).sum = size := by
    rw [List.map_cons, List.sum_cons, Nat.zero_add, fills]
  have first_long : 0 < r.recLen := by omega
  have enough : rest.length < size + 2 := by omega
  have walked := @lookupLoop_laid _ _ _ path _ _ _ _ laid first_long total enough
  rw [LooksUp, ext2Lookup, number, if_neg past]
  rcases walked with ⟨i, s, first, found⟩ | ⟨none_first, outside⟩
  · rw [found]
    constructor
    · intro same
      refine ⟨i, s, first, ?_⟩
      cases expected : liveFind (r :: rest) (component path) with
      | none =>
        rw [expected] at same
        cases same
      | some ino =>
        rw [expected] at same
        rw [LookupResult.found.inj same]
    · rintro ⟨j, t, second, expected⟩
      rw [expected, first.unique second]
  · rw [outside]
    refine iff_of_false (fun same => ?_) fun ⟨i, s, first, _⟩ => none_first i s first
    cases expected : liveFind (r :: rest) (component path) with
    | none =>
      rw [expected] at same
      cases same
    | some ino =>
      rw [expected] at same
      cases same

/-- A scan ends for every content. A lookup is right if the first record it accepts has the
inode number of the file with that name; when the directory is empty or its size does not fit
an `int`, if there is no such file. -/
theorem looksUp_iff (content : DirContent data size records) (size_lt : size < uintWidth) :
    (∀ read byteAt path, ext2Lookup size read byteAt path ≠ .running) ∧
    (LooksUp data size records path ↔
      if records ≠ [] ∧ size < 2147483648 then
        ∃ i r, FirstAccepted data size path 0 records i r ∧
          liveFind records (component path) = some r.inode
      else liveFind records (component path) = none) := by
  refine ⟨fun read byteAt path => ext2Lookup_ends size read byteAt path size_lt, ?_⟩
  split
  · rename_i scanned
    exact looksUp_iff_of_small content scanned.1 scanned.2
  · rename_i scanned
    have missing : ext2Lookup size (toInt size) (dataAt data size) path = .missing := by
      apply if_pos
      by_cases some_record : records = []
      · subst some_record
        have empty : size = 0 := content.fills.symm
        rw [empty]
        decide
      · have large : ¬size < 2147483648 := fun small => scanned ⟨some_record, small⟩
        unfold toInt
        unfold uintWidth at size_lt
        omega
    rw [LooksUp, missing]
    cases expected : liveFind records (component path) with
    | none => exact iff_of_true rfl rfl
    | some ino => exact iff_of_false nofun nofun

/-- The second of three files is found. -/
theorem looksUp_iff_three :
    LooksUp (threeRecords 12) 1024 (threeList 12) [98] ∧
    ext2Lookup 1024 1024 (dataAt (threeRecords 12) 1024) [98] = .found 12 := by
  have looked := @looksUp_iff (threeRecords 12) (threeList 12) [98] 1024 threeRecords_content.1
    (by decide)
  rw [if_pos ⟨by decide, by decide⟩] at looked
  refine ⟨looked.2.mpr ⟨1, ⟨12, 12, [98]⟩, ⟨rfl, Or.inl rfl, fun j before s found => ?_⟩, rfl⟩,
    by decide⟩
  have first : j = 0 := Nat.lt_one_iff.mp before
  subst first
  cases found
  rintro (same | ⟨-, part, -⟩)
  · exact absurd same (by decide)
  · exact absurd part (by decide)

/-- When it is deleted, its inode number 0 is looked up, and a name that is not there makes the
scan read outside of the data. -/
theorem looksUp_not : DirContent (threeRecords 0) 1024 (threeList 0) ∧
    ext2Lookup 1024 1024 (dataAt (threeRecords 0) 1024) [98] = .found 0 ∧
    ext2Lookup 1024 1024 (dataAt (threeRecords 0) 1024) [100] = .outside ∧
    ¬LooksUp (threeRecords 0) 1024 (threeList 0) [98] ∧
    ¬LooksUp (threeRecords 0) 1024 (threeList 0) [100] := by
  have deleted : ext2Lookup 1024 1024 (dataAt (threeRecords 0) 1024) [98] = .found 0 := by decide
  have absent : ext2Lookup 1024 1024 (dataAt (threeRecords 0) 1024) [100] = .outside := by decide
  refine ⟨threeRecords_content.2, deleted, absent, fun looked => ?_, fun looked => ?_⟩
  · have missing : ext2Lookup 1024 1024 (dataAt (threeRecords 0) 1024) [98] = .missing := looked
    rw [missing] at deleted
    cases deleted
  · have missing : ext2Lookup 1024 1024 (dataAt (threeRecords 0) 1024) [100] = .missing := looked
    rw [missing] at absent
    cases absent

end Nupkux
