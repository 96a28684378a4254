import Nupkux.Fs.Ext2.Directory

/-!
# Listing an ext2 directory

`ext2_readdir` takes an index for the number of a record. A deleted record fails like the end of
the directory, so the listing stops at the first one. The name of a record is copied up to the
next NUL, which for a name that is not followed by one makes `d_namlen` too large, and with 255
characters and no NUL the zeros of `strncpy` overrun the `struct dirent`.
-/

namespace Nupkux

variable {data m m' : Bytes} {records rest : List DirRecord} {r s : DirRecord}
  {a buf ent i n size : Nat}

/-- The `struct dirent` at an address has been filled for a record, and nothing else stored. -/
structure Lists (r : DirRecord) (buf : Nat) (m m' : Bytes) : Prop where
  ino : m'.word buf = r.inode
  name : ∀ i < r.name.length, m' (buf + direntName + i) = (r.name.getD i 0).toBitVec
  ends : m' (buf + direntName + r.name.length) = 0
  length : m'.word (buf + direntNamlen) = r.name.length
  only : Bytes.OnlyIn buf (buf + direntSize) m m'

/-- The indices from 0 on list the records of files in their order, and the next one fails. -/
def ListsAll (data : Bytes) (size : Nat) (records : List DirRecord) : Prop :=
  ∀ buf m,
    (∀ i r, (liveRecords records)[i]? = some r →
      (ext2Readdir size (toInt size, data) i buf m).1 = 0 ∧
      Lists r buf m (ext2Readdir size (toInt size, data) i buf m).2) ∧
    (ext2Readdir size (toInt size, data) (liveRecords records).length buf m).1 ≠ 0

/-- A name without a NUL among its characters. -/
def Named (r : DirRecord) : Prop := ∀ i < r.name.length, (r.name.getD i 0).toBitVec ≠ 0

/-- The name of a record is short and followed by a NUL. -/
def NulBehind (data : Bytes) (ent : Nat) (r : DirRecord) : Prop :=
  r.name.length < vfsNameLen ∧ data (ent + entryName + r.name.length) = 0

/-- The loop passes records up to the last one. -/
theorem seekEntry_eq (laid : Laid data a records) :
    seekEntry data i a ((records.map (·.recLen)).sum : Nat) =
      if i = 0 ∨ i < records.length then some (a + recordOffset records i) else none := by
  induction i generalizing a records with
  | zero => rw [seekEntry, if_pos (Or.inl rfl), recordOffset_zero, Nat.add_zero]
  | succ i ih =>
    cases records with
    | nil =>
      have spent : (([] : List DirRecord).map (·.recLen)).sum = 0 := rfl
      have ended : ¬(i + 1 = 0 ∨ i + 1 < ([] : List DirRecord).length) := by simp
      rw [seekEntry, spent, if_neg ended]
      exact if_pos (Or.inl (by omega))
    | cons r rest =>
      obtain ⟨⟨inode, recLen, nameLen, name, room⟩, later⟩ := laid
      have positive : r.recLen ≠ 0 := by
        unfold entryName at room
        omega
      have left : ((((r :: rest).map (·.recLen)).sum : Nat) : Int) - r.recLen =
          ((rest.map (·.recLen)).sum : Nat) := by
        rw [List.map_cons, List.sum_cons]
        omega
      rw [seekEntry]
      simp only [recLen, left, positive, or_false]
      by_cases more : rest = []
      · subst more
        rw [if_pos (by simp), if_neg (by simp)]
      · have some_left := later.sum_pos more
        rw [if_neg (by omega), ih later, recordOffset_cons, Nat.add_assoc]
        have next : (i = 0 ∨ i < rest.length) ↔ (i + 1 = 0 ∨ i + 1 < (r :: rest).length) := by
          have length := List.length_pos_iff.mpr more
          rw [List.length_cons]
          omega
        rw [if_congr next rfl rfl]

/-- Where the fields of a `struct dirent` and of a record are. -/
theorem direntFields : direntName = 4 ∧ direntNamlen = 260 ∧ direntSize = 268 ∧
    vfsNameLen = 255 ∧ entryName = 8 := ⟨rfl, rfl, rfl, rfl, rfl⟩

/-- The characters of a name in the data. -/
theorem RecordAt.letter (record : RecordAt data ent r) (named : Named r) (i : Nat)
    (inside : i < r.name.length) : data (ent + entryName + i) ≠ 0 := by
  rw [record.name i inside]
  exact named i inside

/-- The memory after `strncpy` in `fillDirent`. -/
def nameCopied (data : Bytes) (ent buf : Nat) (m : Bytes) : Bytes :=
  strncpy data (buf + direntName) (ent + entryName) vfsNameLen (m.store buf (data.word ent))

/-- `fillDirent` in terms of it. -/
theorem fillDirent_eq (record : RecordAt data ent r) : fillDirent data ent buf m =
    Function.update ((nameCopied data ent buf m).store (buf + direntNamlen)
      (strlenAt (nameCopied data ent buf m) (buf + direntName)))
      (buf + direntName + r.name.length) 0 := by
  rw [← record.nameLen]
  rfl

/-- A name has at most 255 characters. -/
theorem RecordAt.name_le (record : RecordAt data ent r) : r.name.length ≤ vfsNameLen := by
  have bound := (data (ent + 6)).isLt
  rw [record.nameLen] at bound
  exact Nat.le_of_lt_succ bound

/-- The length that is stored. -/
theorem fillDirent_namlen (record : RecordAt data ent r) :
    (fillDirent data ent buf m).word (buf + direntNamlen) =
      strlenAt (nameCopied data ent buf m) (buf + direntName) % 4294967296 := by
  have name := record.name_le
  rw [fillDirent_eq record]
  have kept : Bytes.Same (buf + direntNamlen) (buf + direntNamlen + 4)
      ((nameCopied data ent buf m).store (buf + direntNamlen)
        (strlenAt (nameCopied data ent buf m) (buf + direntName)))
      (Function.update ((nameCopied data ent buf m).store (buf + direntNamlen)
        (strlenAt (nameCopied data ent buf m) (buf + direntName)))
        (buf + direntName + r.name.length) 0) := by
    intro b low _
    apply Function.update_of_ne
    unfold direntName direntNamlen vfsNameLen at *
    omega
  rw [Bytes.word_congr kept (Nat.le_refl _) (Nat.le_refl _), Bytes.word_store_self]

/-- A string that ends within the target is copied and the rest filled with zeros. -/
theorem nameCopied_of_nul (letters : ∀ i < n, data (ent + entryName + i) ≠ 0)
    (ends : data (ent + entryName + n) = 0) (inside : n ≤ vfsNameLen) :
    nameCopied data ent buf m =
      (((m.store buf (data.word ent)).blit (buf + direntName)
        (fun i => data (ent + entryName + i)) n).fill (buf + direntName + n) 0
          (vfsNameLen - n)) :=
  strncpy_of_nul letters ends inside

/-- The characters of such a string in the target. -/
theorem nameCopied_letter (letters : ∀ i < n, data (ent + entryName + i) ≠ 0)
    (ends : data (ent + entryName + n) = 0) (inside : n ≤ vfsNameLen) (i : Nat) (below : i < n) :
    nameCopied data ent buf m (buf + direntName + i) = data (ent + entryName + i) := by
  rw [nameCopied_of_nul letters ends inside, Bytes.fill, if_neg (by omega),
    Bytes.blit_of_inside below]

/-- What lies behind the target is kept. -/
theorem nameCopied_behind (letters : ∀ i < n, data (ent + entryName + i) ≠ 0)
    (ends : data (ent + entryName + n) = 0) (inside : n ≤ vfsNameLen) {b : Nat}
    (behind : buf + direntName + vfsNameLen ≤ b) : nameCopied data ent buf m b = m b := by
  have fields := direntFields
  rw [nameCopied_of_nul letters ends inside, Bytes.fill, if_neg (by omega),
    Bytes.blit_of_outside (Or.inr (by omega)), Bytes.store_of_outside _ _ (Or.inr (by omega))]

/-- The length of such a string in the target, if a NUL is left behind it. -/
theorem nameCopied_strlen (letters : ∀ i < n, data (ent + entryName + i) ≠ 0)
    (ends : data (ent + entryName + n) = 0) (inside : n ≤ vfsNameLen)
    (left : n < vfsNameLen ∨ m (buf + direntName + vfsNameLen) = 0) :
    strlenAt (nameCopied data ent buf m) (buf + direntName) = n := by
  apply strlenAt_eq
  · intro i below
    rw [nameCopied_letter letters ends inside i below]
    exact letters i below
  · by_cases short : n < vfsNameLen
    · rw [nameCopied_of_nul letters ends inside, Bytes.fill, if_pos (by omega)]
    · have whole : n = vfsNameLen := Nat.le_antisymm inside (Nat.le_of_not_lt short)
      rw [nameCopied_behind letters ends inside (by omega), whole]
      exact left.resolve_left short
  · exact Nat.lt_of_le_of_lt inside (by decide)

/-- A record whose name is short and followed by a NUL is listed. -/
theorem fillDirent_lists (record : RecordAt data ent r) (named : Named r)
    (behind : NulBehind data ent r) : Lists r buf m (fillDirent data ent buf m) := by
  obtain ⟨short, ends⟩ := behind
  have letters := record.letter named
  have inside := Nat.le_of_lt short
  have length : strlenAt (nameCopied data ent buf m) (buf + direntName) = r.name.length :=
    nameCopied_strlen letters ends inside (Or.inl short)
  have namlen : (fillDirent data ent buf m).word (buf + direntNamlen) =
      strlenAt (nameCopied data ent buf m) (buf + direntName) % 4294967296 :=
    fillDirent_namlen record
  have fields := direntFields
  rw [length] at namlen
  have copied : Bytes.OnlyIn (buf + direntName) (buf + direntName + vfsNameLen)
      (m.store buf (data.word ent)) (nameCopied data ent buf m) := by
    rw [nameCopied_of_nul letters ends inside]
    exact (Bytes.onlyIn_blit (Nat.le_refl _) (by omega)).trans
      (Bytes.onlyIn_fill 0 (by omega) (by omega))
  have filled : fillDirent data ent buf m =
      Function.update ((nameCopied data ent buf m).store (buf + direntNamlen)
        (strlenAt (nameCopied data ent buf m) (buf + direntName)))
        (buf + direntName + r.name.length) 0 :=
    fillDirent_eq record
  rw [length] at filled
  have only : Bytes.OnlyIn (buf + direntName) (buf + direntSize)
      (m.store buf (data.word ent)) (fillDirent data ent buf m) := by
    have name := copied.mono (Nat.le_refl _) (show _ ≤ buf + direntSize by omega)
    have namlen := Bytes.onlyIn_store (nameCopied data ent buf m) r.name.length
      (show buf + direntName ≤ buf + direntNamlen by omega)
      (show buf + direntNamlen + 4 ≤ buf + direntSize by omega)
    have nul := Bytes.onlyIn_update
      (m := (nameCopied data ent buf m).store (buf + direntNamlen) r.name.length) 0
      (show buf + direntName ≤ buf + direntName + r.name.length by omega)
      (show buf + direntName + r.name.length < buf + direntSize by omega)
    rw [filled]
    exact (name.trans namlen).trans nul
  constructor
  · rw [only.word (Or.inl (Nat.le_refl _)), Bytes.word_store_self, record.inode]
    exact Nat.mod_eq_of_lt (record.inode ▸ Bytes.word_lt data ent)
  · intro i below
    have kept : fillDirent data ent buf m (buf + direntName + i) =
        nameCopied data ent buf m (buf + direntName + i) := by
      rw [filled, Function.update_of_ne (by omega), Bytes.store_of_outside _ _ (Or.inl ?_)]
      omega
    rw [kept, nameCopied_letter letters ends inside i below, record.name i below]
  · rw [filled]
    exact Function.update_self ..
  · rw [namlen]
    omega
  · exact (Bytes.onlyIn_store _ _ (Nat.le_refl _) (by omega)).trans
      (only.mono (Nat.le_add_right _ _) (Nat.le_refl _))

/-- A string of more than 255 characters overruns the `struct dirent` with zeros. -/
theorem not_lists_of_long (record : RecordAt data ent r)
    (letters : ∀ i ≤ vfsNameLen, data (ent + entryName + i) ≠ 0) :
    ¬Lists r buf (fun _ => 1) (fillDirent data ent buf fun _ => 1) := by
  intro lists
  have fields := direntFields
  have name := record.name_le
  have behind := lists.only (buf + direntSize) (Or.inr (Nat.le_refl _))
  have zero : nameCopied data ent buf (fun _ => 1) (buf + direntSize) = 0 := by
    rw [nameCopied, strncpy_of_long letters, Bytes.fill, if_pos]
    unfold uintWidth
    omega
  rw [fillDirent_eq record, Function.update_of_ne (by omega),
    Bytes.store_of_outside _ _ (Or.inr (by omega)), zero] at behind
  cases behind

/-- A string that goes on behind the name makes `d_namlen` too large. -/
theorem not_lists_of_longer (record : RecordAt data ent r)
    (letters : ∀ i < n, data (ent + entryName + i) ≠ 0) (ends : data (ent + entryName + n) = 0)
    (inside : n ≤ vfsNameLen) (longer : n ≠ r.name.length) :
    ¬Lists r buf (fun _ => 0) (fillDirent data ent buf fun _ => 0) := by
  intro lists
  have fields := direntFields
  have length := lists.length
  rw [fillDirent_namlen record, nameCopied_strlen letters ends inside (Or.inr rfl)] at length
  omega

/-- A name of 255 characters runs into the byte behind `d_name`. -/
theorem not_lists_of_full (record : RecordAt data ent r) (named : Named r)
    (full : r.name.length = vfsNameLen) (ends : data (ent + entryName + r.name.length) = 0) :
    ¬Lists r buf (fun b => if b = buf + direntName + vfsNameLen then 1 else 0)
      (fillDirent data ent buf fun b => if b = buf + direntName + vfsNameLen then 1 else 0) := by
  intro lists
  have fields := direntFields
  have letters := record.letter named
  have inside : r.name.length ≤ vfsNameLen := Nat.le_of_eq full
  have length := lists.length
  have walked : strlenAt (nameCopied data ent buf fun b =>
      if b = buf + direntName + vfsNameLen then 1 else 0) (buf + direntName) = 256 := by
    apply strlenAt_eq
    · intro i below
      by_cases letter : i < r.name.length
      · rw [nameCopied_letter letters ends inside i letter]
        exact letters i letter
      · rw [nameCopied_behind letters ends inside (by omega), if_pos (by omega)]
        decide
    · rw [nameCopied_behind letters ends inside (by omega), if_neg (by omega)]
    · decide
  rw [fillDirent_namlen record, walked] at length
  omega

/-- Exactly such a record is listed whatever the `struct dirent` held before. -/
theorem fillDirent_lists_iff (record : RecordAt data ent r) (named : Named r) :
    (∀ m, Lists r buf m (fillDirent data ent buf m)) ↔ NulBehind data ent r := by
  constructor
  · intro lists
    by_cases long : ∀ i ≤ vfsNameLen, data (ent + entryName + i) ≠ 0
    · exact absurd (lists _) (not_lists_of_long record long)
    · have nul : ∃ i, i ≤ vfsNameLen ∧ data (ent + entryName + i) = 0 := by
        simpa only [not_forall, not_not, exists_prop] using long
      obtain ⟨inside, ends⟩ := Nat.find_spec nul
      have letters : ∀ i < Nat.find nul, data (ent + entryName + i) ≠ 0 := by
        intro i below zero
        exact Nat.find_min nul below ⟨Nat.le_trans (Nat.le_of_lt below) inside, zero⟩
      by_cases same : Nat.find nul = r.name.length
      · rw [same] at ends inside
        refine ⟨Nat.lt_of_le_of_ne inside fun full => ?_, ends⟩
        exact not_lists_of_full record named full ends (lists _)
      · exact absurd (lists _) (not_lists_of_longer record letters ends inside same)
  · intro behind m
    exact fillDirent_lists record named behind

/-- No record of a file lies behind a deleted one. -/
def LiveFirst (records : List DirRecord) : Prop :=
  records.Pairwise fun r s => r.inode = 0 → s.inode = 0

/-- Records of files are kept and others dropped. -/
theorem liveRecords_cons : liveRecords (r :: rest) =
    if r.inode = 0 then liveRecords rest else r :: liveRecords rest := by
  unfold liveRecords
  by_cases deleted : r.inode = 0
  · rw [List.filter_cons_of_neg (by simp [deleted]), if_pos deleted]
  · rw [List.filter_cons_of_pos (by simp [deleted]), if_neg deleted]

/-- Behind a deleted record there may be none of a file. -/
theorem liveRecords_eq_nil (later : ∀ s ∈ rest, s.inode = 0) : liveRecords rest = [] := by
  apply List.filter_eq_nil_iff.mpr
  intro s member
  simp [later s member]

/-- Records of which none is live are all deleted. -/
theorem deleted_of_none_live (none_live : liveRecords records = []) (member : r ∈ records) :
    r.inode = 0 := by
  have dropped := List.filter_eq_nil_iff.mp none_live r member
  simpa using dropped

/-- The records of files are the first ones. -/
theorem liveRecords_getElem (ordered : LiveFirst records) :
    (liveRecords records)[i]? = some r ↔ records[i]? = some r ∧ r.inode ≠ 0 := by
  induction records generalizing i with
  | nil => simp [liveRecords]
  | cons first rest ih =>
    obtain ⟨head, tail⟩ := List.pairwise_cons.mp ordered
    rw [liveRecords_cons]
    by_cases deleted : first.inode = 0
    · rw [if_pos deleted, liveRecords_eq_nil fun s member => head s member deleted]
      refine iff_of_false (by simp) fun both => ?_
      cases i with
      | zero =>
        cases both.1
        exact both.2 deleted
      | succ i => exact both.2 (head r (List.mem_of_getElem? both.1) deleted)
    · rw [if_neg deleted]
      cases i with
      | zero =>
        rw [List.getElem?_cons_zero, List.getElem?_cons_zero]
        refine ⟨fun same => ⟨same, ?_⟩, fun both => both.1⟩
        cases same
        exact deleted
      | succ i => exact ih tail

/-- They are if at every index below their number there is one. -/
theorem liveFirst_of_indices
    (listed : ∀ i < (liveRecords records).length, ∃ r, records[i]? = some r ∧ r.inode ≠ 0) :
    LiveFirst records := by
  induction records with
  | nil => exact List.Pairwise.nil
  | cons first rest ih =>
    rw [liveRecords_cons] at listed
    by_cases deleted : first.inode = 0
    · rw [if_pos deleted] at listed
      have none_live : liveRecords rest = [] := by
        by_contra some_live
        obtain ⟨r, found, live⟩ := listed 0 (List.length_pos_iff.mpr some_live)
        cases found
        exact live deleted
      have later : ∀ s ∈ rest, s.inode = 0 := fun s => deleted_of_none_live none_live
      refine List.pairwise_cons.mpr ⟨fun s member _ => later s member, ?_⟩
      exact List.pairwise_of_forall_mem_list fun s _ t member _ => later t member
    · rw [if_neg deleted] at listed
      refine List.pairwise_cons.mpr ⟨fun s _ zero => absurd zero deleted, ih fun i small => ?_⟩
      exact listed (i + 1) (Nat.succ_lt_succ small)

section Calls

variable (content : DirContent data size records) (small : size < 2147483648)
  (some_record : records ≠ [])
include content small some_record

/-- The read of a directory has returned its size. -/
theorem DirContent.readPast : ¬(size : Int) ≤ 0 ∧ toInt size = size := by
  have positive := content.laid.sum_pos some_record
  rw [content.fills] at positive
  unfold toInt
  omega

/-- The index of a record finds it. -/
theorem ext2Readdir_of_record (found : records[i]? = some r) :
    ext2Readdir size (toInt size, data) i buf m =
      if r.inode = 0 then (-EINVAL, m)
      else (0, fillDirent data (recordOffset records i) buf m) := by
  obtain ⟨past, number⟩ := content.readPast small some_record
  have inside : i < records.length := (List.getElem?_eq_some_iff.mp found).1
  have seek := seekEntry_eq (i := i) content.laid
  rw [content.fills, if_pos (Or.inr inside), Nat.zero_add] at seek
  have record := content.laid.recordAt found
  rw [Nat.zero_add] at record
  simp only [ext2Readdir, number, if_neg past, seek, record.inode]

/-- An index behind the records fails. -/
theorem ext2Readdir_of_end (behind : records.length ≤ i) :
    ext2Readdir size (toInt size, data) i buf m = (-EINVAL, m) := by
  obtain ⟨past, number⟩ := content.readPast small some_record
  have length := List.length_pos_iff.mpr some_record
  have seek := seekEntry_eq (i := i) content.laid
  rw [content.fills, if_neg (by omega)] at seek
  simp only [ext2Readdir, number, if_neg past, seek]

end Calls

/-- A directory whose size fits an `int`. -/
theorem listsAll_iff_of_small (content : DirContent data size records)
    (small : size < 2147483648) (some_record : records ≠ [])
    (named : ∀ r ∈ liveRecords records, Named r) : ListsAll data size records ↔
      LiveFirst records ∧
      ∀ i r, records[i]? = some r → r.inode ≠ 0 → NulBehind data (recordOffset records i) r := by
  have filled {i : Nat} {r : DirRecord} (found : records[i]? = some r) (live : r.inode ≠ 0)
      (buf : Nat) (m : Bytes) : ext2Readdir size (toInt size, data) i buf m =
        (0, fillDirent data (recordOffset records i) buf m) := by
    rw [ext2Readdir_of_record content small some_record found, if_neg live]
  have listed {i : Nat} {r : DirRecord} (found : records[i]? = some r) (live : r.inode ≠ 0) :
      (∀ buf m, Lists r buf m (fillDirent data (recordOffset records i) buf m)) ↔
        NulBehind data (recordOffset records i) r := by
    have record := content.laid.recordAt found
    rw [Nat.zero_add] at record
    have member : r ∈ liveRecords records :=
      List.mem_filter.mpr ⟨List.mem_of_getElem? found, by simp [live]⟩
    exact ⟨fun all => (fillDirent_lists_iff record (named r member)).mp (all 0),
      fun behind _ => (fillDirent_lists_iff record (named r member)).mpr behind⟩
  constructor
  · intro lists
    have ordered : LiveFirst records := by
      apply liveFirst_of_indices
      intro i below
      have success := ((lists 0 fun _ => 0).1 i _ (List.getElem?_eq_getElem below)).1
      by_cases inside : i < records.length
      · refine ⟨_, List.getElem?_eq_getElem inside, fun deleted => ?_⟩
        rw [ext2Readdir_of_record content small some_record (List.getElem?_eq_getElem inside),
          if_pos deleted] at success
        cases success
      · rw [ext2Readdir_of_end content small some_record (Nat.le_of_not_lt inside)] at success
        cases success
    refine ⟨ordered, fun i r found live => (listed found live).mp fun buf m => ?_⟩
    have fills := ((lists buf m).1 i r ((liveRecords_getElem ordered).mpr ⟨found, live⟩)).2
    rwa [filled found live] at fills
  · rintro ⟨ordered, behind⟩ buf m
    constructor
    · intro i r found
      obtain ⟨found, live⟩ := (liveRecords_getElem ordered).mp found
      rw [filled found live]
      exact ⟨rfl, (listed found live).mpr (behind i r found live) buf m⟩
    · have failed : ext2Readdir size (toInt size, data) (liveRecords records).length buf m =
          (-EINVAL, m) := by
        cases found : records[(liveRecords records).length]? with
        | none =>
          exact ext2Readdir_of_end content small some_record (List.getElem?_eq_none_iff.mp found)
        | some r =>
          have deleted : r.inode = 0 := by
            by_contra live
            have beyond := (liveRecords_getElem ordered).mpr ⟨found, live⟩
            rw [List.getElem?_eq_none (Nat.le_refl _)] at beyond
            cases beyond
          rw [ext2Readdir_of_record content small some_record found, if_pos deleted]
      rw [failed]
      show -EINVAL ≠ 0
      decide

/-- A directory whose size does not is not listed at all. -/
theorem listsAll_iff_of_large (large : ¬size < 2147483648) (size_lt : size < uintWidth) :
    ListsAll data size records ↔ liveRecords records = [] := by
  -- the int that `ext2_read` returns is negative
  have negative : toInt size < 0 := by
    unfold toInt
    unfold uintWidth at size_lt
    omega
  have failed (i buf : Nat) (m : Bytes) :
      ext2Readdir size (toInt size, data) i buf m = (toInt size, m) :=
    if_pos (Int.le_of_lt negative)
  constructor
  · intro lists
    by_contra some_live
    have success := ((lists 0 fun _ => 0).1 0 _
      (List.getElem?_eq_getElem (List.length_pos_iff.mpr some_live))).1
    rw [failed] at success
    exact absurd success (Int.ne_of_lt negative)
  · intro none_live buf m
    refine ⟨fun i r found => ?_, ?_⟩
    · rw [none_live] at found
      cases found
    · rw [failed]
      exact Int.ne_of_lt negative

/-- A directory is listed right if it has a record, its size fits an `int` or it has no file, no
record of a file lies behind a deleted one, and every name has at most 254 characters and is
followed by a NUL. -/
theorem listsAll_iff (content : DirContent data size records)
    (named : ∀ r ∈ liveRecords records, Named r) (size_lt : size < uintWidth) :
    ListsAll data size records ↔ records ≠ [] ∧
      (size < 2147483648 ∨ liveRecords records = []) ∧ LiveFirst records ∧
      ∀ i r, records[i]? = some r → r.inode ≠ 0 → NulBehind data (recordOffset records i) r := by
  by_cases some_record : records = []
  · refine iff_of_false (fun lists => ?_) fun right => right.1 some_record
    -- an empty directory succeeds at every index
    subst some_record
    have empty : size = 0 := content.fills.symm
    subst empty
    exact (lists 0 fun _ => 0).2 rfl
  rw [and_iff_right some_record]
  by_cases small : size < 2147483648
  · rw [and_iff_right (Or.inl small)]
    exact listsAll_iff_of_small content small some_record named
  · rw [or_iff_right small, listsAll_iff_of_large small size_lt]
    refine ⟨fun none_live => ⟨none_live, ?_, fun i r found live => ?_⟩, fun right => right.1⟩
    · exact List.pairwise_of_forall_mem_list fun _ _ _ member _ =>
        deleted_of_none_live none_live member
    · exact absurd (deleted_of_none_live none_live (List.mem_of_getElem? found)) live

/-- Three files are listed. -/
theorem listsAll_iff_three : ListsAll (threeRecords 12) 1024 (threeList 12) := by
  apply (listsAll_iff threeRecords_content.1 (by unfold Named; decide) (by decide)).mpr
  refine ⟨by decide, Or.inl (by decide), by unfold LiveFirst; decide, fun i r found _ => ?_⟩
  have inside : i < 3 := (List.getElem?_eq_some_iff.mp found).1
  have behind : ∀ i < 3, ∀ r ∈ (threeList 12)[i]?,
      r.name.length < vfsNameLen ∧
        threeRecords 12 (recordOffset (threeList 12) i + entryName + r.name.length) = 0 := by
    decide
  exact behind i inside r found

/-- When the second one is deleted, the listing ends before the third. -/
theorem listsAll_not : DirContent (threeRecords 0) 1024 (threeList 0) ∧
    (liveRecords (threeList 0)).length = 2 ∧
    (ext2Readdir 1024 (1024, threeRecords 0) 1 0 fun _ => 0).1 = -EINVAL ∧
    ¬ListsAll (threeRecords 0) 1024 (threeList 0) := by
  have failed : (ext2Readdir 1024 (1024, threeRecords 0) 1 0 fun _ => 0).1 = -EINVAL := by decide
  refine ⟨threeRecords_content.2, rfl, failed, fun lists => ?_⟩
  have success : (ext2Readdir 1024 (1024, threeRecords 0) 1 0 fun _ => 0).1 = 0 :=
    ((lists 0 fun _ => 0).1 1 _ rfl).1
  rw [success] at failed
  cases failed

end Nupkux
