import Nupkux.Tools.Mkinitrd

/-!
# The layout of an initrd

Where everything of a directory is in the image that `mkinitrd` writes: an entry in the directory
it is listed in, a record in the table of inodes, and the data. The inodes are numbered and the
data are placed in the order of a walk that goes through a directory before it goes on, so from
where the loop of `savedir` is, what is left of a listing has three ranges of the image to itself.
-/

namespace Nupkux

/-- The entries of a listing. -/
def Listing.length : Listing → Nat
  | .nil => 0
  | .file _ _ _ rest => rest.length + 1
  | .directory _ _ _ rest => rest.length + 1

/-- The files and directories of a listing, with what is in the directories. -/
def Listing.count : Listing → Nat
  | .nil => 0
  | .file _ _ _ rest => rest.count + 1
  | .directory _ _ entries rest => entries.count + rest.count + 1

/-- The bytes that the entries of a directory need. -/
def Listing.entriesSize (listing : Listing) : Nat := 68 * (listing.length + 2)

/-- The bytes that the data of a listing need, with those of the directories. -/
def Listing.space : Listing → Nat
  | .nil => 0
  | .file _ _ data rest => data.length + rest.space
  | .directory _ _ entries rest => entries.entriesSize + entries.space + rest.space

/-- The bytes of the image of a directory. -/
def Listing.imageSize (root : Listing) : Nat :=
  inodePlace (root.count + 1) + root.entriesSize + root.space

/-- The names of a listing. -/
def Listing.names : Listing → List CString
  | .nil => []
  | .file name _ _ rest => name :: rest.names
  | .directory name _ _ rest => name :: rest.names

/-- A name that a directory of the host may have and an entry has room for. -/
structure EntryName (name : CString) : Prop where
  noNul : NoNul name
  plain : slash ∉ name
  nonempty : name ≠ []
  not_dot : name ≠ dot
  not_dotdot : name ≠ dotdot
  short : name.length < initrdFilenameLen

/-- A listing whose names are different ones that entries have room for, in directories whose paths
the variable `filename` has room for. -/
def Listing.Packable : Listing → Nat → Prop
  | .nil, _ => True
  | .file name _ _ rest, path =>
    EntryName name ∧ path + 1 + name.length < 255 ∧ name ∉ rest.names ∧ rest.Packable path
  | .directory name _ entries rest, path =>
    EntryName name ∧ path + 1 + name.length < 255 ∧ name ∉ rest.names ∧
      entries.Packable (path + 1 + name.length) ∧ rest.Packable path

/-- An entry names an inode. -/
structure EntryAt (m : Bytes) (a ino : Nat) (name : CString) : Prop where
  number : m.word a = ino
  name : ∀ i ≤ name.length, m (a + 4 + i) = textByte name i

/-- The record of an inode. -/
structure InodeAt (m : Bytes) (ino flags : Nat) (stat : Stat) (offset size : Nat) : Prop where
  number : m.word (inodePlace ino) = ino
  offset : m.word (inodePlace ino + 4) = offset
  mode : m.word (inodePlace ino + 8) = stat.mode.toNat
  gid : m.word (inodePlace ino + 12) = stat.gid.toNat
  uid : m.word (inodePlace ino + 16) = stat.uid.toNat
  flags : (m (inodePlace ino + 20)).toNat = flags
  size : m.word (inodePlace ino + 24) = size

/-- A file with its data. -/
structure FileAt (m : Bytes) (ino : Nat) (stat : Stat) (data : List (BitVec 8)) (offset : Nat) :
    Prop where
  inode : InodeAt m ino fsFile stat offset data.length
  data : ∀ i < data.length, m (offset + i) = data.getD i 0

/-- A directory with its first two entries. -/
structure DirectoryAt (m : Bytes) (ino parent : Nat) (stat : Stat) (entries : Listing)
    (offset : Nat) : Prop where
  inode : InodeAt m ino fsDirectory stat offset entries.entriesSize
  dot : EntryAt m offset ino dot
  dotdot : EntryAt m (offset + 68) parent dotdot

/-- What is left of a listing from an entry of a directory on, with the number of the next inode
and the place of its data. -/
def Listing.Stored (m : Bytes) : Listing → (dir place i ino offset : Nat) → Prop
  | .nil, _, _, _, _, _ => True
  | .file name stat data rest, dir, place, i, ino, offset =>
    EntryAt m (place + 68 * i) ino name ∧ FileAt m ino stat data offset ∧
      rest.Stored m dir place (i + 1) (ino + 1) (offset + data.length)
  | .directory name stat entries rest, dir, place, i, ino, offset =>
    EntryAt m (place + 68 * i) ino name ∧
      DirectoryAt m ino dir stat entries offset ∧
      entries.Stored m ino offset 2 (ino + 1) (offset + entries.entriesSize) ∧
      rest.Stored m dir place (i + 1) (ino + 1 + entries.count)
        (offset + entries.entriesSize + entries.space)

/-- The image of a directory. -/
structure ImageOf (m : Bytes) (stat : Stat) (root : Listing) : Prop where
  magic : m.word 0 = initrdMagic
  inodecount : m.word 4 = root.count + 1
  directory : DirectoryAt m 0 0 stat root (inodePlace (root.count + 1))
  stored : root.Stored m 0 (inodePlace (root.count + 1)) 2 1
    (inodePlace (root.count + 1) + root.entriesSize)

variable {m m' : Bytes} {a b ino parent offset size flags place i dir path : Nat} {name : CString}
  {stat : Stat} {data : List (BitVec 8)} {listing entries root : Listing}

/-- Where the record of an inode is. -/
theorem inodePlace_eq (ino : Nat) : inodePlace ino = 12 + 28 * ino := rfl

/-! ## Ranges that a part depends on -/

/-- An entry depends on its bytes. -/
theorem EntryAt.congr (entry : EntryAt m a ino name)
    (same : Bytes.Same a (a + 4 + name.length + 1) m m') : EntryAt m' a ino name := by
  refine ⟨(Bytes.word_congr same (Nat.le_refl a) (by omega)).trans entry.number, fun i inside => ?_⟩
  rw [same _ (by omega) (by omega), entry.name i inside]

/-- An inode depends on its record. -/
theorem InodeAt.congr (inode : InodeAt m ino flags stat offset size)
    (same : Bytes.Same (inodePlace ino) (inodePlace (ino + 1)) m m') :
    InodeAt m' ino flags stat offset size := by
  have next : inodePlace (ino + 1) = inodePlace ino + 28 := rfl
  have word (i : Nat) (field : i + 4 ≤ 28) :
      m'.word (inodePlace ino + i) = m.word (inodePlace ino + i) :=
    Bytes.word_congr same (by omega) (by omega)
  refine ⟨(word 0 (by omega)).trans inode.number, (word 4 (by omega)).trans inode.offset,
    (word 8 (by omega)).trans inode.mode, (word 12 (by omega)).trans inode.gid,
    (word 16 (by omega)).trans inode.uid, ?_, (word 24 (by omega)).trans inode.size⟩
  rw [same _ (by omega) (by omega), inode.flags]

/-- A file depends on its record and its data. -/
theorem FileAt.congr (file : FileAt m ino stat data offset)
    (record : Bytes.Same (inodePlace ino) (inodePlace (ino + 1)) m m')
    (same : Bytes.Same offset (offset + data.length) m m') : FileAt m' ino stat data offset := by
  refine ⟨file.inode.congr record, fun i inside => ?_⟩
  rw [same _ (by omega) (by omega), file.data i inside]

/-- A directory depends on its record and its first two entries. -/
theorem DirectoryAt.congr (directory : DirectoryAt m ino parent stat entries offset)
    (record : Bytes.Same (inodePlace ino) (inodePlace (ino + 1)) m m')
    (same : Bytes.Same offset (offset + 136) m m') :
    DirectoryAt m' ino parent stat entries offset := by
  have names : Nupkux.dot.length = 1 ∧ Nupkux.dotdot.length = 2 := ⟨rfl, rfl⟩
  exact ⟨directory.inode.congr record, directory.dot.congr (same.mono (by omega) (by omega)),
    directory.dotdot.congr (same.mono (by omega) (by omega))⟩

/-- What is left of a listing depends on the rest of its directory, of the table and of the data. -/
theorem Listing.Stored.congr (packable : listing.Packable path)
    (stored : listing.Stored m dir place i ino offset)
    (inEntries : Bytes.Same (place + 68 * i)
      (place + 68 * (i + listing.length)) m m')
    (inTable : Bytes.Same (inodePlace ino) (inodePlace (ino + listing.count)) m m')
    (inData : Bytes.Same offset (offset + listing.space) m m') :
    listing.Stored m' dir place i ino offset := by
  induction listing generalizing path dir place i ino offset with
  | nil => trivial
  | file name stat data rest ih =>
    obtain ⟨entry, file, more⟩ := stored
    obtain ⟨named, _, _, further⟩ := packable
    have short := named.short
    simp only [Listing.length, Listing.count, Listing.space, inodePlace_eq, initrdFilenameLen]
      at *
    exact ⟨entry.congr (inEntries.mono (by omega) (by omega)),
      file.congr (inTable.mono (by rw [inodePlace_eq]) (by rw [inodePlace_eq]; omega))
        (inData.mono (by omega) (by omega)),
      ih further more (inEntries.mono (by omega) (by omega)) (inTable.mono (by omega) (by omega))
        (inData.mono (by omega) (by omega))⟩
  | directory name stat entries rest inner ih =>
    obtain ⟨entry, directory, below, more⟩ := stored
    obtain ⟨named, _, _, deeper, further⟩ := packable
    have short := named.short
    have size : entries.entriesSize = 68 * (entries.length + 2) := rfl
    simp only [Listing.length, Listing.count, Listing.space, inodePlace_eq, initrdFilenameLen]
      at *
    exact ⟨entry.congr (inEntries.mono (by omega) (by omega)),
      directory.congr (inTable.mono (by rw [inodePlace_eq]) (by rw [inodePlace_eq]; omega))
        (inData.mono (by omega) (by omega)),
      inner deeper below (inData.mono (by omega) (by omega)) (inTable.mono (by omega) (by omega))
        (inData.mono (by omega) (by omega)),
      ih further more (inEntries.mono (by omega) (by omega)) (inTable.mono (by omega) (by omega))
        (inData.mono (by omega) (by omega))⟩

/-! ## What the tool stores -/

/-- A byte of a range is stored, and words elsewhere are kept. -/
theorem word_update_of_apart (m : Bytes) (v : BitVec 8) (apart : b + 4 ≤ a ∨ a < b) :
    Bytes.word (Function.update m a v) b = m.word b :=
  Bytes.OnlyIn.word (Bytes.onlyIn_update v (Nat.le_refl a) (Nat.lt_succ_self a)) (by omega)

/-- A record is stored in its place only. -/
theorem InitrdInode.onlyIn_store (inode : InitrdInode) (m : Bytes) (a : Nat) :
    Bytes.OnlyIn a (a + 28) m (inode.store m a) := by
  intro b outside
  unfold InitrdInode.store
  rw [Bytes.store_of_outside _ _ (by omega), Function.update_of_ne (by omega),
    Bytes.store_of_outside _ _ (by omega), Bytes.store_of_outside _ _ (by omega),
    Bytes.store_of_outside _ _ (by omega), Bytes.store_of_outside _ _ (by omega),
    Bytes.store_of_outside _ _ (by omega)]

/-- The record that is stored. -/
theorem inodeAt_store (m : Bytes) (stat : Stat) (few : ino < uintWidth) (low : offset < uintWidth)
    (small : size < uintWidth) (flag : flags < 256) :
    InodeAt (InitrdInode.store ⟨ino, offset, stat.mode.toNat, stat.gid.toNat, stat.uid.toNat, flags,
      size⟩ m (inodePlace ino)) ino flags stat offset size := by
  have mode := stat.mode.isLt
  have gid := stat.gid.isLt
  have uid := stat.uid.isLt
  unfold uintWidth at *
  unfold InitrdInode.store
  constructor
  case flags =>
    rw [Bytes.store_of_outside _ _ (by omega), Function.update_self, BitVec.toNat_ofNat,
      Nat.mod_eq_of_lt flag]
  all_goals
    simp (disch := omega) only [Bytes.word_store_of_apart, word_update_of_apart,
      Bytes.word_store_self, Nat.mod_eq_of_lt]

namespace Mkinitrd

variable {w : Mkinitrd}

/-- An entry is stored in its place only. -/
theorem putName_of_outside (short : name.length < initrdFilenameLen)
    (outside : b < a ∨ a + 68 ≤ b) : (w.putName a name).filebuf b = w.filebuf b := by
  unfold initrdFilenameLen at short
  exact Bytes.blit_of_outside (by omega)

/-- A number is stored in its place only. -/
theorem putNumber_of_outside (outside : b < a ∨ a + 68 ≤ b) :
    (w.putNumber a ino).filebuf b = w.filebuf b := Bytes.store_of_outside _ _ (by omega)

/-- A name is cleared in its place only. -/
theorem clearName_of_outside (outside : b < a ∨ a + 68 ≤ b) :
    (w.clearName a).filebuf b = w.filebuf b := if_neg (by
  change ¬(a + 4 ≤ b ∧ b < a + 4 + 64)
  omega)

/-- The name of an entry that was stored. -/
theorem putName_name (i : Nat) (inside : i ≤ name.length) :
    (w.putName a name).filebuf (a + 4 + i) = textByte name i :=
  Bytes.blit_of_inside (Nat.lt_succ_of_le inside)

/-- One of the first two entries is stored, -/
theorem hardlink_entry (few : ino < uintWidth) : EntryAt (w.hardlink a ino name).filebuf a ino name := by
  constructor
  · have number : (w.putNumber a ino).filebuf.word a = ino := by
      unfold putNumber
      dsimp only
      rw [Bytes.word_store_self]
      exact Nat.mod_eq_of_lt few
    have kept : Bytes.OnlyIn (a + 4) (a + 4 + (name.length + 1)) (w.putNumber a ino).filebuf
        (w.hardlink a ino name).filebuf := Bytes.onlyIn_blit (Nat.le_refl _) (Nat.le_refl _)
    exact (kept.word (.inl (Nat.le_refl _))).trans number
  · exact fun i inside => putName_name i inside

/-- in its place only. -/
theorem hardlink_of_outside (short : name.length < initrdFilenameLen)
    (outside : b < a ∨ a + 68 ≤ b) : (w.hardlink a ino name).filebuf b = w.filebuf b :=
  (putName_of_outside short outside).trans (putNumber_of_outside outside)

/-- Both are stored. -/
theorem hardlink_hardlink (few : ino < uintWidth) (few' : parent < uintWidth) :
    let opened := (w.hardlink a ino dot).hardlink (a + 68) parent dotdot
    EntryAt opened.filebuf a ino dot ∧ EntryAt opened.filebuf (a + 68) parent dotdot ∧
      ∀ b, b < a ∨ a + 136 ≤ b → opened.filebuf b = w.filebuf b := by
  have length : dot.length = 1 := rfl
  have first : EntryAt (w.hardlink a ino dot).filebuf a ino dot := hardlink_entry few
  refine ⟨first.congr fun b low high => ?_, hardlink_entry few', fun b outside => ?_⟩
  · exact hardlink_of_outside (by decide) (by omega)
  · exact (hardlink_of_outside (by decide) (by omega)).trans
      (hardlink_of_outside (by decide) (by omega))

/-- `savefile` takes the next number, and stores the record of the file and its data. -/
structure SavesFile (w : Mkinitrd) (stat : Stat) (data : List (BitVec 8))
    (saved : Mkinitrd × Nat) : Prop where
  number : saved.2 = w.tmpInode
  filelen : saved.1.filelen = w.filelen + data.length
  tmpInode : saved.1.tmpInode = w.tmpInode + 1
  file : FileAt saved.1.filebuf w.tmpInode stat data w.filelen
  kept : ∀ b, (b < inodePlace w.tmpInode ∨ inodePlace (w.tmpInode + 1) ≤ b) →
    (b < w.filelen ∨ w.filelen + data.length ≤ b) → saved.1.filebuf b = w.filebuf b

/-- `savefile` of a file that there is room for. -/
theorem savefile_saves (stat : Stat) (data : List (BitVec 8))
    (inTable : inodePlace (w.tmpInode + 1) ≤ w.filelen)
    (fits : w.filelen + data.length < uintWidth) :
    SavesFile w stat data (w.savefile stat data) := by
  rw [inodePlace_eq] at inTable
  have length : data.length % uintWidth = data.length := Nat.mod_eq_of_lt (by omega)
  unfold savefile createinode countEntry expandInitrd putInode
  dsimp only
  rw [length, uadd_of_lt fits, uadd_of_lt (by omega)]
  refine ⟨rfl, rfl, rfl, ⟨inodeAt_store _ stat (by omega) (by omega) (by omega) (by decide),
    fun i inside => ?_⟩, fun b outTable outData => ?_⟩
  · refine (InitrdInode.onlyIn_store _ _ _ _ ?_).trans (Bytes.blit_of_inside inside)
    rw [inodePlace_eq]
    omega
  · refine (InitrdInode.onlyIn_store _ _ _ _ ?_).trans (Bytes.blit_of_outside outData)
    rw [inodePlace_eq] at outTable ⊢
    rw [inodePlace_eq] at outTable
    omega

/-- What the loop of `savedir` does from an entry on: it numbers and stores what is left of the
listing, in the rest of the directory, of the table and behind the end. -/
structure Saves (listing : Listing) (dir place i : Nat) (w w' : Mkinitrd) : Prop where
  filelen : w'.filelen = w.filelen + listing.space
  tmpInode : w'.tmpInode = w.tmpInode + listing.count
  stored : listing.Stored w'.filebuf dir place i w.tmpInode w.filelen
  kept : ∀ b, (b < place + 68 * i ∨ place + 68 * (i + listing.length) ≤ b) →
    (b < inodePlace w.tmpInode ∨ inodePlace (w.tmpInode + listing.count) ≤ b) →
    (b < w.filelen ∨ w.filelen + listing.space ≤ b) → w'.filebuf b = w.filebuf b

/-- There is room for the rest of a listing: in the table, in the directory and below the end of
the address space. -/
structure HasRoom (listing : Listing) (dir place i : Nat) (w : Mkinitrd) : Prop where
  numbered : dir < w.tmpInode
  inTable : inodePlace (w.tmpInode + listing.count) ≤ place
  inEntries : place + 68 * (i + listing.length) ≤ w.filelen
  fits : w.filelen + listing.space < uintWidth

/-- `savedir` takes the next number for the directory, and stores its record, its entries and what
they name. -/
structure SavesDirectory (w : Mkinitrd) (stat : Stat) (entries : Listing) (parent : Nat)
    (saved : Mkinitrd × Nat) : Prop where
  number : saved.2 = w.tmpInode
  filelen : saved.1.filelen = w.filelen + entries.entriesSize + entries.space
  tmpInode : saved.1.tmpInode = w.tmpInode + 1 + entries.count
  directory : DirectoryAt saved.1.filebuf w.tmpInode parent stat entries w.filelen
  stored : entries.Stored saved.1.filebuf w.tmpInode w.filelen 2 (w.tmpInode + 1)
    (w.filelen + entries.entriesSize)
  kept : ∀ b, (b < inodePlace w.tmpInode ∨ inodePlace (w.tmpInode + 1 + entries.count) ≤ b) →
    (b < w.filelen ∨ w.filelen + entries.entriesSize + entries.space ≤ b) →
    saved.1.filebuf b = w.filebuf b

end Mkinitrd

/-- `count_of_inodes` of a listing that is not too long. -/
theorem Listing.countOfInodes_flat (listing : Listing) (res : Nat)
    (small : res + listing.length < uintWidth) :
    listing.countOfInodes false res = res + listing.length := by
  induction listing generalizing res with
  | nil => rfl
  | file name stat data rest ih =>
    rw [Listing.length] at small ⊢
    rw [countOfInodes, uadd_of_lt (by omega), ih _ (by omega)]
    omega
  | directory name stat entries rest _ ih =>
    rw [Listing.length] at small ⊢
    rw [countOfInodes, if_neg Bool.false_ne_true, uadd_of_lt (by omega), ih _ (by omega)]
    omega

/-- The recursive `count_of_inodes`. -/
theorem Listing.countOfInodes_deep (listing : Listing) (res : Nat)
    (small : res + listing.count < uintWidth - 1) :
    listing.countOfInodes true res = res + listing.count := by
  induction listing generalizing res with
  | nil => rfl
  | file name stat data rest ih =>
    rw [count] at small ⊢
    rw [countOfInodes, uadd_of_lt (by omega), ih _ (by omega)]
    omega
  | directory name stat entries rest inner ih =>
    rw [count] at small ⊢
    have below : entries.countOfInodes true 0 = entries.count := by
      rw [inner 0 (by omega), Nat.zero_add]
    rw [countOfInodes, if_pos rfl, below]
    dsimp only
    rw [if_neg (by omega), uadd_of_lt (a := res) (by omega), uadd_of_lt (by omega), ih _ (by omega)]
    omega

namespace Mkinitrd

variable {w : Mkinitrd}

/-- `savedir` before its loop. -/
structure Begins (w : Mkinitrd) (stat : Stat) (entries : Listing) (parent : Nat)
    (begun : Mkinitrd × InitrdInode) : Prop where
  inode : begun.2 = ⟨w.tmpInode, w.filelen, stat.mode.toNat, stat.gid.toNat, stat.uid.toNat,
    fsDirectory, entries.entriesSize⟩
  filelen : begun.1.filelen = w.filelen + entries.entriesSize
  tmpInode : begun.1.tmpInode = w.tmpInode + 1
  self : EntryAt begun.1.filebuf w.filelen w.tmpInode dot
  up : EntryAt begun.1.filebuf (w.filelen + 68) parent dotdot
  kept : ∀ b, b < w.filelen ∨ w.filelen + 136 ≤ b → begun.1.filebuf b = w.filebuf b

/-- A directory that there is room for. -/
theorem beginDirectory_begins (stat : Stat) (numbered : parent < uintWidth)
    (few : w.tmpInode + 1 < uintWidth) (fits : w.filelen + entries.entriesSize < uintWidth) :
    Begins w stat entries (if parent = uintWidth - 1 then w.tmpInode else parent)
      (w.beginDirectory (entries.countOfInodes false 0) stat parent) := by
  have size : entries.entriesSize = 68 * (entries.length + 2) := rfl
  have length : umul initrdEntrySize (uadd (entries.countOfInodes false 0) hardlinks) =
      entries.entriesSize := by
    rw [Listing.countOfInodes_flat _ _ (by omega), Nat.zero_add, hardlinks,
      uadd_of_lt (by omega), initrdEntrySize, umul_of_lt (by omega)]
    rfl
  have above : (if parent = uintWidth - 1 then w.tmpInode else parent) < uintWidth := by
    split
    · omega
    · exact numbered
  unfold beginDirectory createinode countEntry expandInitrd
  dsimp only
  rw [length, uadd_of_lt few, uadd_of_lt fits]
  obtain ⟨self, up, kept⟩ := hardlink_hardlink (a := w.filelen) (Nat.lt_of_succ_lt few) above
  exact ⟨rfl, rfl, rfl, self, up, kept⟩

/-- `savedir` of a directory that there is room for, when its loop stores what is listed. -/
theorem savedir_saves (stat : Stat) (packable : entries.Packable path)
    (loop : Nat → Nat → Mkinitrd → Mkinitrd) (parent : Nat) (numbered : parent < uintWidth)
    (saves : ∀ dir place w, HasRoom entries dir place 2 w →
      Saves entries dir place 2 w (loop dir place w))
    (inTable : inodePlace (w.tmpInode + 1 + entries.count) ≤ w.filelen)
    (fits : w.filelen + entries.entriesSize + entries.space < uintWidth) :
    SavesDirectory w stat entries (if parent = uintWidth - 1 then w.tmpInode else parent)
      (w.savedir loop (entries.countOfInodes false 0) stat parent) := by
  have size : entries.entriesSize = 68 * (entries.length + 2) := rfl
  have table := inTable
  rw [inodePlace_eq] at table
  have begins : Begins w stat entries (if parent = uintWidth - 1 then w.tmpInode else parent)
      (w.beginDirectory (entries.countOfInodes false 0) stat parent) :=
    beginDirectory_begins stat numbered (by omega) (by omega)
  unfold savedir
  generalize w.beginDirectory (entries.countOfInodes false 0) stat parent = begun at begins ⊢
  obtain ⟨w₁, inode⟩ := begun
  obtain ⟨rfl, filelen, tmpInode, self, up, kept⟩ := begins
  dsimp only at *
  have loops := saves w.tmpInode w.filelen w₁ (by
    refine ⟨by omega, ?_, by omega, by omega⟩
    rwa [tmpInode])
  generalize loop w.tmpInode w.filelen w₁ = w₂ at loops ⊢
  obtain ⟨filelen', tmpInode', stored, kept'⟩ := loops
  rw [tmpInode] at tmpInode' stored kept'
  rw [filelen] at filelen' stored kept'
  simp only [inodePlace_eq] at kept'
  have record := InitrdInode.onlyIn_store ⟨w.tmpInode, w.filelen, stat.mode.toNat, stat.gid.toNat,
    stat.uid.toNat, fsDirectory, entries.entriesSize⟩ w₂.filebuf (inodePlace w.tmpInode)
  rw [inodePlace_eq] at record
  -- the loop and the record leave the first two entries
  have early : Bytes.Same w.filelen (w.filelen + 136) w₁.filebuf
      (w₂.putInode ⟨w.tmpInode, w.filelen, stat.mode.toNat, stat.gid.toNat, stat.uid.toNat,
        fsDirectory, entries.entriesSize⟩).filebuf := fun b low high =>
    (record b (by omega)).trans (kept' b (by omega) (by omega) (by omega))
  have names : dot.length = 1 ∧ dotdot.length = 2 := ⟨rfl, rfl⟩
  have few : w.tmpInode < uintWidth := by omega
  refine ⟨rfl, filelen', tmpInode', ⟨inodeAt_store _ stat few (by omega) (by omega) (by decide), self.congr (early.mono (by omega) (by omega)),
    up.congr (early.mono (by omega) (by omega))⟩, ?_, fun b outTable outData => ?_⟩
  · have apart (lo hi : Nat) (behind : 12 + 28 * (w.tmpInode + 1) ≤ lo) :
        Bytes.Same lo hi w₂.filebuf (w₂.putInode ⟨w.tmpInode, w.filelen, stat.mode.toNat,
          stat.gid.toNat, stat.uid.toNat, fsDirectory, entries.entriesSize⟩).filebuf :=
      record.same (by omega)
    exact stored.congr packable (apart _ _ (by omega)) (apart _ _ (Nat.le_refl _))
      (apart _ _ (by omega))
  · simp only [inodePlace_eq] at outTable
    refine (record b (by omega)).trans ((kept' b (by omega) (by omega) (by omega)).trans ?_)
    exact kept b (by omega)

/-- An entry has been stored with what it names, which has so many inodes and bytes. -/
structure StoresEntry (w : Mkinitrd) (entry : Nat) (name : CString) (inodes bytes : Nat)
    (w' : Mkinitrd) : Prop where
  filelen : w'.filelen = w.filelen + bytes
  tmpInode : w'.tmpInode = w.tmpInode + inodes
  named : EntryAt w'.filebuf entry w.tmpInode name
  kept : ∀ b, (b < entry ∨ entry + 68 ≤ b) →
    (b < inodePlace w.tmpInode ∨ inodePlace (w.tmpInode + inodes) ≤ b) →
    (b < w.filelen ∨ w.filelen + bytes ≤ b) → w'.filebuf b = w.filebuf b

/-- The name is stored before what the entry names, and the number after it. -/
theorem putNumber_stores (inodes bytes : Nat) {entry : Nat} {saved : Mkinitrd × Nat}
    (short : name.length < initrdFilenameLen) (few : w.tmpInode < uintWidth)
    (inTable : inodePlace (w.tmpInode + inodes) ≤ entry) (inEntries : entry + 68 ≤ w.filelen)
    (number : saved.2 = w.tmpInode) (filelen : saved.1.filelen = w.filelen + bytes)
    (tmpInode : saved.1.tmpInode = w.tmpInode + inodes)
    (kept : ∀ b, (b < inodePlace w.tmpInode ∨ inodePlace (w.tmpInode + inodes) ≤ b) →
      (b < w.filelen ∨ w.filelen + bytes ≤ b) →
      saved.1.filebuf b = ((w.clearName entry).putName entry name).filebuf b) :
    StoresEntry w entry name inodes bytes (saved.1.putNumber entry saved.2) := by
  have length : name.length < 64 := short
  refine ⟨filelen, tmpInode, ⟨?_, fun i inside => ?_⟩, fun b outEntry outTable outData => ?_⟩
  · rw [number]
    exact (Bytes.word_store_self _ _ _).trans (Nat.mod_eq_of_lt few)
  · have later : (saved.1.putNumber entry saved.2).filebuf (entry + 4 + i) =
        saved.1.filebuf (entry + 4 + i) := Bytes.store_of_outside _ _ (by omega)
    rw [later, kept _ (by omega) (by omega)]
    exact putName_name i inside
  · rw [putNumber_of_outside outEntry, kept b outTable outData, putName_of_outside short outEntry,
      clearName_of_outside outEntry]

/-- An entry and what it names leave the rest of a listing its room. -/
theorem StoresEntry.room {inodes bytes : Nat} {w' : Mkinitrd} {rest : Listing}
    (stores : StoresEntry w (place + 68 * i) name inodes bytes w') (numbered : dir < w.tmpInode)
    (inTable : inodePlace (w.tmpInode + inodes + rest.count) ≤ place)
    (inEntries : place + 68 * (i + 1 + rest.length) ≤ w.filelen)
    (fits : w.filelen + bytes + rest.space < uintWidth) : HasRoom rest dir place (i + 1) w' := by
  refine ⟨?_, ?_, ?_, ?_⟩
  · rw [stores.tmpInode]
    omega
  · rwa [stores.tmpInode]
  · rw [stores.filelen]
    omega
  · rwa [stores.filelen]

/-- What is stored for the rest of a listing leaves an entry and what it names. -/
theorem StoresEntry.early {inodes bytes : Nat} {w₁ w₂ : Mkinitrd} {rest : Listing}
    (stores : StoresEntry w (place + 68 * i) name inodes bytes w₁)
    (left : Saves rest dir place (i + 1) w₁ w₂)
    (inTable : inodePlace (w.tmpInode + inodes + rest.count) ≤ place)
    (inEntries : place + 68 * (i + 1 + rest.length) ≤ w.filelen)
    (own : b < inodePlace (w.tmpInode + inodes) ∨
      place + 68 * i ≤ b ∧ b < place + 68 * (i + 1) ∨ w.filelen ≤ b ∧ b < w.filelen + bytes) :
    w₂.filebuf b = w₁.filebuf b := by
  have kept := left.kept b
  rw [stores.tmpInode, stores.filelen] at kept
  simp only [inodePlace_eq] at *
  exact kept (by omega) (by omega) (by omega)

/-- An entry with what it names, and the rest of the listing. -/
theorem StoresEntry.saves {inodes bytes : Nat} {w₁ w₂ : Mkinitrd} {whole rest : Listing}
    (stores : StoresEntry w (place + 68 * i) name inodes bytes w₁)
    (left : Saves rest dir place (i + 1) w₁ w₂) (length : whole.length = rest.length + 1)
    (count : whole.count = inodes + rest.count) (space : whole.space = bytes + rest.space)
    (stored : whole.Stored w₂.filebuf dir place i w.tmpInode w.filelen) :
    Saves whole dir place i w w₂ := by
  obtain ⟨filelen, tmpInode, _, kept⟩ := left
  refine ⟨?_, ?_, stored, fun b outEntries outTable outData => ?_⟩
  · rw [filelen, stores.filelen, space, Nat.add_assoc]
  · rw [tmpInode, stores.tmpInode, count, Nat.add_assoc]
  · rw [stores.tmpInode, stores.filelen] at kept
    have own := stores.kept b
    simp only [inodePlace_eq] at *
    rw [kept b (by omega) (by omega) (by omega)]
    exact own (by omega) (by omega) (by omega)

/-- The loop of `savedir` stores what is left of a listing that there is room for. -/
theorem save_saves (packable : listing.Packable path) {w : Mkinitrd}
    (room : HasRoom listing dir place i w) :
    Saves listing dir place i w (listing.save dir place i w) := by
  induction listing generalizing path dir place i w with
  | nil => exact ⟨rfl, rfl, trivial, fun _ _ _ _ => rfl⟩
  | file name stat data rest ih =>
    obtain ⟨named, _, _, further⟩ := packable
    obtain ⟨numbered, inTable, inEntries, fits⟩ := room
    have short : name.length < 64 := named.short
    rw [Listing.count, inodePlace_eq] at inTable
    rw [Listing.length] at inEntries
    rw [Listing.space] at fits
    have saves := savefile_saves (w := (w.clearName (place + 68 * i)).putName (place + 68 * i) name)
      stat data (by
        change 12 + 28 * (w.tmpInode + 1) ≤ w.filelen
        omega) (by
        change w.filelen + data.length < uintWidth
        omega)
    have stores := putNumber_stores (w := w) 1 data.length named.short (by omega)
      (by rw [inodePlace_eq]; omega) (by omega) saves.number saves.filelen saves.tmpInode saves.kept
    have file : FileAt _ w.tmpInode stat data w.filelen := saves.file
    rw [Listing.save]
    dsimp only [initrdEntrySize]
    generalize ((w.clearName (place + 68 * i)).putName (place + 68 * i) name).savefile stat data =
      saved at *
    have left := ih further (stores.room numbered (by rw [inodePlace_eq]; omega) (by omega)
      (by omega))
    generalize rest.save dir place (i + 1) (saved.1.putNumber (place + 68 * i) saved.2) = w₂ at *
    have early {b : Nat} := stores.early left (b := b) (by rw [inodePlace_eq]; omega) (by omega)
    have stored := left.stored
    rw [stores.tmpInode, stores.filelen] at stored
    simp only [inodePlace_eq] at early
    refine stores.saves left rfl (Nat.add_comm _ _) rfl ⟨stores.named.congr fun b low high =>
      early (by omega), file.congr (fun b low high => ?_) (fun b low high => ?_), stored⟩
    · rw [inodePlace_eq] at high
      exact (early (by omega)).trans (putNumber_of_outside (by omega))
    · exact (early (by omega)).trans (putNumber_of_outside (by omega))
  | directory name stat entries rest inner ih =>
    obtain ⟨named, _, _, deeper, further⟩ := packable
    obtain ⟨numbered, inTable, inEntries, fits⟩ := room
    have short : name.length < 64 := named.short
    have size : entries.entriesSize = 68 * (entries.length + 2) := rfl
    rw [Listing.count, inodePlace_eq] at inTable
    rw [Listing.length] at inEntries
    rw [Listing.space] at fits
    have saves := savedir_saves (w := (w.clearName (place + 68 * i)).putName (place + 68 * i) name)
      stat deeper (fun dir place w => entries.save dir place hardlinks w) dir (by omega)
      (fun _ _ _ room => inner deeper room) (by
        change 12 + 28 * (w.tmpInode + 1 + entries.count) ≤ w.filelen
        omega) (by
        change w.filelen + entries.entriesSize + entries.space < uintWidth
        omega)
    rw [if_neg (by omega)] at saves
    have stores := putNumber_stores (w := w) (1 + entries.count)
      (entries.entriesSize + entries.space) named.short (by omega) (by rw [inodePlace_eq]; omega)
      (by omega) saves.number (saves.filelen.trans (Nat.add_assoc _ _ _))
      (saves.tmpInode.trans (Nat.add_assoc _ _ _)) (fun b outTable outData =>
        saves.kept b (by rwa [Nat.add_assoc]) (by rwa [Nat.add_assoc]))
    have directory : DirectoryAt _ w.tmpInode dir stat entries w.filelen := saves.directory
    have below : entries.Stored _ w.tmpInode w.filelen 2 (w.tmpInode + 1)
      (w.filelen + entries.entriesSize) := saves.stored
    rw [Listing.save]
    dsimp only [initrdEntrySize]
    generalize ((w.clearName (place + 68 * i)).putName (place + 68 * i) name).savedir _ _ stat dir =
      saved at *
    have left := ih further (stores.room numbered (by rw [inodePlace_eq]; omega) (by omega)
      (by omega))
    generalize rest.save dir place (i + 1) (saved.1.putNumber (place + 68 * i) saved.2) = w₂ at *
    have early {b : Nat} := stores.early left (b := b) (by rw [inodePlace_eq]; omega) (by omega)
    have stored := left.stored
    rw [stores.tmpInode, stores.filelen, ← Nat.add_assoc, ← Nat.add_assoc] at stored
    simp only [inodePlace_eq] at early
    -- the table up to the rest, and the data up to the rest, are as `savedir` left them
    have inTable' (lo hi : Nat) (before : hi ≤ 12 + 28 * (w.tmpInode + 1 + entries.count)) :
        Bytes.Same lo hi saved.1.filebuf w₂.filebuf := fun b low high =>
      (early (by omega)).trans (putNumber_of_outside (by omega))
    have inData' (lo hi : Nat) (behind : w.filelen ≤ lo)
        (before : hi ≤ w.filelen + entries.entriesSize + entries.space) :
        Bytes.Same lo hi saved.1.filebuf w₂.filebuf := fun b low high =>
      (early (by omega)).trans (putNumber_of_outside (by omega))
    refine stores.saves left rfl ?_ ?_ ⟨stores.named.congr fun b low high => early (by omega),
      directory.congr (inTable' _ _ ?_) (inData' _ _ (Nat.le_refl _) (by omega)),
      below.congr deeper (inData' _ _ (by omega) (by omega)) (inTable' _ _ ?_)
        (inData' _ _ (by omega) (by omega)), stored⟩
    · rw [Listing.count]
      omega
    · rw [Listing.space]
    · rw [inodePlace_eq]
      omega
    · rw [inodePlace_eq]

end Mkinitrd

/-- The header is stored before everything else. -/
theorem imageOf_header (packable : root.Packable path) (total : Nat)
    (few : root.count + 1 < uintWidth)
    (directory : DirectoryAt m 0 0 stat root (inodePlace (root.count + 1)))
    (stored : root.Stored m 0 (inodePlace (root.count + 1)) 2 1
      (inodePlace (root.count + 1) + root.entriesSize)) :
    ImageOf (((m.store 0 initrdMagic).store 4 (root.count + 1)).store 8 total) stat root := by
  have place : inodePlace (root.count + 1) = 12 + 28 * (root.count + 1) := rfl
  have behind (lo hi : Nat) (low : 12 ≤ lo) :
      Bytes.Same lo hi m (((m.store 0 initrdMagic).store 4 (root.count + 1)).store 8 total) := by
    intro a above _
    rw [Bytes.store_of_outside _ _ (by omega), Bytes.store_of_outside _ _ (by omega),
      Bytes.store_of_outside _ _ (by omega)]
  refine ⟨?_, ?_, directory.congr (behind _ _ (by decide)) (behind _ _ (by omega)),
    stored.congr packable (behind _ _ (by omega)) (behind _ _ (by decide)) (behind _ _ (by omega))⟩
  · rw [Bytes.word_store_of_apart _ _ (by omega), Bytes.word_store_of_apart _ _ (by omega),
      Bytes.word_store_self]
    decide
  · rw [Bytes.word_store_of_apart _ _ (by omega), Bytes.word_store_self]
    exact Nat.mod_eq_of_lt few

/-- The image of a directory, which the tool makes when it is shorter than the address space. -/
theorem mkinitrd_image (garbage : Bytes) (stat : Stat) (packable : root.Packable path)
    (fits : root.imageSize < uintWidth) :
    ∃ image, mkinitrd garbage stat root = some (image, root.imageSize) ∧
      ImageOf image stat root := by
  have size : root.entriesSize = 68 * (root.length + 2) := rfl
  rw [Listing.imageSize, inodePlace_eq] at fits
  have inodes : uadd (root.countOfInodes true 0) 1 = root.count + 1 := by
    rw [Listing.countOfInodes_deep _ _ (by omega), Nat.zero_add, uadd_of_lt (by omega)]
  have table : umul (root.count + 1) initrdInodeSize = 28 * (root.count + 1) := by
    rw [initrdInodeSize, umul_of_lt (by omega), Nat.mul_comm]
  have begins : uadd 0 (uadd initrdHeaderSize (28 * (root.count + 1))) =
      inodePlace (root.count + 1) := by
    rw [initrdHeaderSize, uadd_of_lt (a := 12) (by omega), uadd_of_lt (by omega), Nat.zero_add]
    rfl
  have saves := Mkinitrd.savedir_saves (w := ⟨garbage.fill initrdHeaderSize 0
    (28 * (root.count + 1)), inodePlace (root.count + 1), 0, 0⟩) stat packable
    (fun dir place w => root.save dir place hardlinks w) (uintWidth - 1) (by decide)
    (fun _ _ _ room => Mkinitrd.save_saves packable room) (by
      change 12 + 28 * (0 + 1 + root.count) ≤ 12 + 28 * (root.count + 1)
      omega) (by
      change 12 + 28 * (root.count + 1) + root.entriesSize + root.space < uintWidth
      omega)
  rw [if_pos rfl] at saves
  unfold mkinitrd Mkinitrd.expandInitrd
  dsimp only
  rw [inodes, if_neg (Nat.succ_ne_zero _), table, begins]
  refine ⟨_, congrArg some (Prod.ext rfl saves.filelen), ?_⟩
  exact imageOf_header packable _ (by omega) saves.directory saves.stored

end Nupkux
