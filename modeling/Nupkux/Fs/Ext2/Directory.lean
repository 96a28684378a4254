import Nupkux.Fs.Namei
import Nupkux.Fs.Ext2.Inode
import Nupkux.MemoryStrings

/-!
# Ext2 directories

`ext2_readdir` and `ext2_lookup` read all of a directory with `ext2_read` and walk its records.
They are given here with what that read has returned and left in the buffer. `ext2_lookup` is
given with the bytes it can read, `none` being a byte outside of the data, at which the scan
ends; a scan takes steps, and `running` is one that has not ended.

A well-formed directory is a list of records, laid one behind the other.
-/

namespace Nupkux

/-- `VFS_NAME_LEN`. -/
def vfsNameLen : Nat := 255

/-- `sizeof(struct dirent)`. -/
def direntSize : Nat := 268

/-- Where `d_name` starts in a `struct dirent`. -/
def direntName : Nat := 4

/-- Where `d_namlen` is in a `struct dirent`. -/
def direntNamlen : Nat := 260

/-- Where the name starts in an `ext2_d_entry`. -/
def entryName : Nat := 8

/-- The loop of `ext2_readdir`: so many records are passed. -/
def seekEntry (data : Bytes) : Nat → Nat → Int → Option Nat
  | 0, ent, _ => some ent
  | index + 1, ent, readSize =>
    let recLen := data.half (ent + 4)
    let readSize := readSize - recLen
    if readSize ≤ 0 ∨ recLen = 0 then none else seekEntry data index (ent + recLen) readSize

/-- The `struct dirent` at an address is filled from a record. -/
def fillDirent (data : Bytes) (ent buf : Nat) (m : Bytes) : Bytes :=
  let m := m.store buf (data.word ent)
  let m := strncpy data (buf + direntName) (ent + entryName) vfsNameLen m
  let m := m.store (buf + direntNamlen) (strlenAt m (buf + direntName))
  Function.update m (buf + direntName + (data (ent + 6)).toNat) 0

/-- `ext2_readdir`, where `read` is what `ext2_read` of the whole directory has returned and
left in the buffer. -/
def ext2Readdir (size : Nat) (read : Int × Bytes) (index buf : Nat) (m : Bytes) : Int × Bytes :=
  if read.1 ≤ 0 then (read.1, m)
  else
    match seekEntry read.2 index 0 (toInt size) with
    | none => (-EINVAL, m)
    | some ent =>
      if read.2.word ent = 0 then (-EINVAL, m) else (0, fillDirent read.2 ent buf m)

/-- `is_end_chr` of a byte in memory. -/
def isEndByte (d : BitVec 8) : Bool := d == 0 || d == slash.toBitVec

/-- The end of `namei_nmatch` when the path has no further character. -/
def nmatchEnd (byteAt : Nat → Option (BitVec 8)) (a s2len : Nat) : Option Bool :=
  if s2len = 0 then some true else (byteAt a).map isEndByte

/-- `namei_nmatch` of a path and the bytes at an address. -/
def nameiNmatch (byteAt : Nat → Option (BitVec 8)) : CString → Nat → Nat → Option Bool
  | [], a, s2len => nmatchEnd byteAt a s2len
  | c :: s, a, s2len =>
    if isEnd (c :: s) then nmatchEnd byteAt a s2len
    else
      match byteAt a with
      | none => none
      | some d =>
        if isEndByte d then some false
        else
          match s2len with
          | 0 => some true  -- s2len-- has passed below 0
          | s2len + 1 =>
            if c.toBitVec ≠ d then some false else nameiNmatch byteAt s (a + 1) s2len

/-- A half word of the bytes that can be read. -/
def halfAt (byteAt : Nat → Option (BitVec 8)) (a : Nat) : Option Nat := do
  let low ← byteAt a
  let high ← byteAt (a + 1)
  some (low.toNat + 256 * high.toNat)

/-- A word of the bytes that can be read. -/
def wordAt (byteAt : Nat → Option (BitVec 8)) (a : Nat) : Option Nat := do
  let low ← halfAt byteAt a
  let high ← halfAt byteAt (a + 2)
  some (low + 65536 * high)

/-- How a scan of `ext2_lookup` ends: with the inode number it gives to `iget`, with 0, with a
read outside of the data, or not yet. -/
inductive LookupResult where
  | found (ino : Nat)
  | missing
  | outside
  | running
  deriving DecidableEq, Repr

/-- The loop of `ext2_lookup`. -/
def lookupLoop (byteAt : Nat → Option (BitVec 8)) (name : CString) :
    Nat → Nat → Int → LookupResult
  | 0, _, _ => .running
  | steps + 1, ent, readSize =>
    if readSize ≤ 0 then .missing
    else
      match (byteAt (ent + 6)).bind fun nameLen =>
        nameiNmatch byteAt name (ent + entryName) nameLen.toNat with
      | none => .outside
      | some true =>
        match wordAt byteAt ent with
        | none => .outside
        | some ino => .found ino
      | some false =>
        match halfAt byteAt (ent + 4) with
        | none => .outside
        | some recLen =>
          if recLen = 0 then .missing
          else
            -- the size that is taken off is the one of the next record
            match halfAt byteAt (ent + recLen + 4) with
            | none => .outside
            | some nextLen => lookupLoop byteAt name steps (ent + recLen) (readSize - nextLen)

/-- `ext2_lookup`, where `read` is what `ext2_read` of the whole directory has returned. -/
def ext2Lookup (size : Nat) (read : Int) (byteAt : Nat → Option (BitVec 8)) (name : CString) :
    LookupResult :=
  if read ≤ 0 then .missing else lookupLoop byteAt name (size + 2) 0 (toInt size)

/-- The bytes of the data of a directory. -/
def dataAt (data : Bytes) (size a : Nat) : Option (BitVec 8) :=
  if a < size then some (data a) else none

/-- A record of a directory. -/
structure DirRecord where
  inode : Nat
  recLen : Nat
  name : CString
  deriving DecidableEq, Repr

/-- Records lie one behind the other from an address on, each with room for its name. -/
def Laid (data : Bytes) : Nat → List DirRecord → Prop
  | _, [] => True
  | a, r :: rest =>
    (data.word a = r.inode ∧ data.half (a + 4) = r.recLen ∧
      (data (a + 6)).toNat = r.name.length ∧
      (∀ i < r.name.length, data (a + entryName + i) = (r.name.getD i 0).toBitVec) ∧
      entryName + r.name.length ≤ r.recLen) ∧
    Laid data (a + r.recLen) rest

instance decidableLaid (data : Bytes) : (a : Nat) → (records : List DirRecord) →
    Decidable (Laid data a records)
  | _, [] => isTrue trivial
  | a, r :: rest =>
    have := decidableLaid data (a + r.recLen) rest
    inferInstanceAs (Decidable (_ ∧ _))

/-- Where a record starts. -/
def recordOffset (records : List DirRecord) (i : Nat) : Nat :=
  ((records.take i).map (·.recLen)).sum

/-- The content of a well-formed directory: its records fill it. -/
structure DirContent (data : Bytes) (size : Nat) (records : List DirRecord) : Prop where
  laid : Laid data 0 records
  fills : (records.map (·.recLen)).sum = size

/-- The records of files, which are not deleted. -/
def liveRecords (records : List DirRecord) : List DirRecord := records.filter (·.inode ≠ 0)

/-- The data of a directory with three records, one behind the other, of which the second has a
given inode number. -/
def threeRecords (inode : BitVec 8) : Bytes :=
  image [(0, 11), (4, 12), (6, 1), (8, 97), (12, inode), (16, 12), (18, 1), (20, 98), (24, 13),
    (28, 0xE8), (29, 3), (30, 1), (32, 99)]

/-- Its records, with the names `a`, `b` and `c`. -/
def threeList (inode : Nat) : List DirRecord :=
  [⟨11, 12, [97]⟩, ⟨inode, 12, [98]⟩, ⟨13, 1000, [99]⟩]

/-- They fill a block of 1 KiB. -/
theorem threeRecords_content :
    DirContent (threeRecords 12) 1024 (threeList 12) ∧
    DirContent (threeRecords 0) 1024 (threeList 0) :=
  ⟨⟨by decide, rfl⟩, ⟨by decide, rfl⟩⟩

variable {data : Bytes} {records rest : List DirRecord} {r : DirRecord} {a i size : Nat}

/-- What a record at an address is. -/
structure RecordAt (data : Bytes) (a : Nat) (r : DirRecord) : Prop where
  inode : data.word a = r.inode
  recLen : data.half (a + 4) = r.recLen
  nameLen : (data (a + 6)).toNat = r.name.length
  name : ∀ i < r.name.length, data (a + entryName + i) = (r.name.getD i 0).toBitVec
  room : entryName + r.name.length ≤ r.recLen

/-- The first record is at the start. -/
@[simp] theorem recordOffset_zero : recordOffset records 0 = 0 := rfl

/-- A record further on starts behind the first one. -/
@[simp] theorem recordOffset_cons :
    recordOffset (r :: rest) (i + 1) = r.recLen + recordOffset rest i := by
  simp [recordOffset]

/-- A record of a list that is laid out. -/
theorem Laid.recordAt (laid : Laid data a records) (found : records[i]? = some r) :
    RecordAt data (a + recordOffset records i) r := by
  induction records generalizing a i with
  | nil => cases found
  | cons first rest ih =>
    obtain ⟨⟨inode, recLen, nameLen, name, room⟩, later⟩ := laid
    cases i with
    | zero =>
      cases found
      exact ⟨inode, recLen, nameLen, name, room⟩
    | succ i =>
      rw [recordOffset_cons, ← Nat.add_assoc]
      exact ih later found

/-- The size of records that are laid out. -/
theorem Laid.sum_pos (laid : Laid data a records) (some_record : records ≠ []) :
    0 < (records.map (·.recLen)).sum := by
  cases records with
  | nil => exact absurd rfl some_record
  | cons r rest =>
    have room := laid.1.2.2.2.2
    rw [List.map_cons, List.sum_cons]
    unfold entryName at room
    omega

end Nupkux
