import Mathlib.Data.List.GetD
import Nupkux.Fs.Ext2.Directory
import Nupkux.Fs.Mount
import Nupkux.Lib.Cursor
import Nupkux.Tools.InitrdLayout

/-!
# Mounting what `mkinitrd` has packed

The file system of an initrd reads the image where the boot loader has put it. A vnode is filled
from the record of its inode, `initrd_lookup` compares a name with the entries of a directory from
the last one on, and `initrd_readdir` copies an entry by its index. In the image of a directory of
the host, every walk by names leads the kernel to the inode of what it leads to on the host: its
mode, its owner, its data or its entries.
-/

namespace Nupkux

/-- The string at an address. -/
def stringAt (m : Bytes) (a : Nat) : CString :=
  (List.range (strlenAt m a)).map fun i => UInt8.ofBitVec (m (a + i))

/-- `&discr->initrd_inodes[ino]`. -/
def initrdInodeAt (location ino : Nat) : Nat := location + inodePlace ino

/-- The loop of `initrd_lookup`. -/
def initrdLookupLoop (m : Bytes) (entries : Nat) (name : CString) : Nat → Option Nat
  | 0 => none
  | i + 1 =>
    let entry := entries + initrdEntrySize * i
    if nameiMatch name (stringAt m (entry + 4)) then some (m.word entry)
    else initrdLookupLoop m entries name i

/-- `initrd_lookup` of the vnode with an inode, up to the number that `iget` is called with. -/
def initrdLookup (m : Bytes) (location inode : Nat) (name : CString) : Option Nat :=
  initrdLookupLoop m (uadd (inodeStart m inode) location) name
    (inodeLength m inode / initrdEntrySize)

/-- Where `d_type` is in a `struct dirent`. -/
def direntType : Nat := 264

/-- `initrd_readdir` of the vnode with an inode, into a buffer apart from the image. -/
def initrdReaddir (location inode index buf : Nat) (m : Bytes) : Int × Bytes :=
  let entry := uadd (inodeStart m inode) location + initrdEntrySize * index
  if inodeLength m inode / initrdEntrySize ≤ index then (-EINVAL, m)
  else
    let flags := m (initrdInodeAt location (m.word entry) + 20)
    let copied := strncpy m (buf + direntName) (entry + 4) initrdFilenameLen m
    let named : Bytes := Function.update copied (buf + direntName + (initrdFilenameLen - 1)) 0
    let measured : Bytes := named.store (buf + direntNamlen) (strlenAt named (buf + direntName))
    (0, (measured.store buf (m.word entry)).store (buf + direntType) flags.toNat)

/-- `initrd_read_inode`. -/
def initrdReadInode (m : Bytes) (location ino : Nat) (a : Attributes) : Attributes :=
  if m.word (location + 4) < ino then a
  else
    let inode := initrdInodeAt location ino
    { flags := (m (inode + 20)).toNat
      gid := m.word (inode + 12) % ushortWidth
      uid := m.word (inode + 16) % ushortWidth
      mode := m.word (inode + 8)
      size := inodeLength m inode
      lookup := some (initrdLookup m location (initrdInodeAt location (m.word inode))) }

/-- `initrd_s_ops`. -/
def initrdOperations (m : Bytes) (location : Nat) : SuperOperations := ⟨some (initrdReadInode m location)⟩

/-- `initrd_fs_type`, with `read_initrd_sb`. -/
def initrdFsType (m : Bytes) : FilesystemType where
  name := ascii "initrdfs"
  flags := 0
  readSuper data := if m.word data ≠ initrdMagic then none else some (initrdOperations m data, 0)

/-! ## The host -/

/-- A file or a directory of the host. -/
inductive HostNode where
  /-- What is not a directory. -/
  | file (stat : Stat) (data : List (BitVec 8))
  /-- A directory. -/
  | directory (stat : Stat) (entries : Listing)

/-- What a name stands for in a directory. -/
def Listing.find : Listing → CString → Option HostNode
  | .nil, _ => none
  | .file name stat data rest, wanted =>
    if name = wanted then some (.file stat data) else rest.find wanted
  | .directory name stat entries rest, wanted =>
    if name = wanted then some (.directory stat entries) else rest.find wanted

/-- The names of a listing with the types that `readdir` tells. -/
def Listing.types : Listing → List (CString × Nat)
  | .nil => []
  | .file name _ _ rest => (name, fsFile) :: rest.types
  | .directory name _ _ rest => (name, fsDirectory) :: rest.types

/-- A name other than `.` and `..`, before a slash or the end. -/
abbrev OtherName := { name : CString // component name ≠ dot ∧ component name ≠ dotdot }

/-- The move that a name asks for. -/
def moveOf (name : CString) : Move OtherName :=
  if inPlace : component name = dot then .stay
  else if upwards : component name = dotdot then .up
  else .down ⟨name, inPlace, upwards⟩

/-- The name that asks for a move. -/
def nameOf : Move OtherName → CString
  | .stay => dot
  | .up => dotdot
  | .down name => name.1

/-- What the names in a directory stand for. -/
def HostNode.children : HostNode → Option (OtherName → Option HostNode)
  | .file _ _ => none
  | .directory _ entries => some fun name => entries.find (component name.1)

/-- A walk on the host, by one name after another. -/
def hostWalk (stat : Stat) (root : Listing) (names : List CString) : Option (Cursor HostNode) :=
  names.foldlM (fun c name => c.move HostNode.children (moveOf name)) ⟨.directory stat root, []⟩

/-- One name is looked up by the number of an inode, which has to be that of a directory. -/
def initrdStep (m : Bytes) (location ino : Nat) (name : CString) : Option Nat :=
  let a := initrdReadInode m location ino {}
  if a.flags &&& 7 ≠ fsDirectory then none else a.lookup.bind fun lookup => lookup name

/-- A walk of the kernel, from the root inode. -/
def initrdWalk (m : Bytes) (location : Nat) (names : List CString) : Option Nat :=
  names.foldlM (initrdStep m location) 0

/-! ## Reading the image -/

/-- The image at a location. -/
def imageView (m : Bytes) (location : Nat) : Bytes := fun a => m (location + a)

variable {m : Bytes} {location a b i ino parent place dir offset size flags : Nat}
  {name wanted : CString} {stat : Stat} {data : List (BitVec 8)} {listing entries root : Listing}
  {node : HostNode}

/-- A word of the image. -/
theorem imageView_word (m : Bytes) (location a : Nat) :
    (imageView m location).word a = m.word (location + a) := rfl

/-- The characters of a string are no NULs, -/
theorem textByte_ne_zero (whole : NoNul name) (inside : i < name.length) : textByte name i ≠ 0 := by
  intro zero
  apply whole
  have nul : name.getD i 0 = 0 := UInt8.toBitVec_inj.mp zero
  rw [List.getD_eq_getElem _ _ inside] at nul
  exact nul ▸ List.getElem_mem inside

/-- and a NUL is behind them. -/
theorem textByte_length (name : CString) : textByte name name.length = 0 := by
  rw [textByte, List.getD_eq_default _ _ (Nat.le_refl _)]
  rfl

/-- A string that is stored is read. -/
theorem stringAt_eq (whole : NoNul name) (small : name.length < uintWidth)
    (stored : ∀ i ≤ name.length, m (a + i) = textByte name i) : stringAt m a = name := by
  have length : strlenAt m a = name.length := by
    refine strlenAt_eq (fun i inside => ?_) ?_ small
    · rw [stored i (Nat.le_of_lt inside)]
      exact textByte_ne_zero whole inside
    · rw [stored _ (Nat.le_refl _), textByte_length]
  rw [stringAt, length]
  apply List.ext_getElem
  · rw [List.length_map, List.length_range]
  · intro i inside inside'
    rw [List.getElem_map, List.getElem_range, stored i (Nat.le_of_lt inside'), textByte,
      List.getD_eq_getElem _ _ inside']

/-- The name of an entry. -/
theorem EntryAt.string (entry : EntryAt (imageView m location) a ino name) (whole : NoNul name)
    (short : name.length < uintWidth) : stringAt m (location + a + 4) = name := by
  refine stringAt_eq whole short fun i inside => ?_
  have letter := entry.name i inside
  rwa [imageView, ← Nat.add_assoc, ← Nat.add_assoc] at letter

/-- The number of an entry. -/
theorem EntryAt.word (entry : EntryAt (imageView m location) a ino name) :
    m.word (location + a) = ino := entry.number

/-- The number that a listing gives to what has a name, when its first inode has a number. -/
def Listing.numberOf : Listing → Nat → CString → Option Nat
  | .nil, _, _ => none
  | .file name _ _ rest, ino, wanted =>
    if name = wanted then some ino else rest.numberOf (ino + 1) wanted
  | .directory name _ entries rest, ino, wanted =>
    if name = wanted then some ino else rest.numberOf (ino + 1 + entries.count) wanted

/-- What is in no listing has no number. -/
theorem Listing.numberOf_of_not_mem (outside : wanted ∉ listing.names) :
    listing.numberOf ino wanted = none := by
  induction listing generalizing ino with
  | nil => rfl
  | file name stat data rest ih =>
    rw [numberOf, if_neg (List.ne_of_not_mem_cons outside).symm,
      ih (List.not_mem_of_not_mem_cons outside)]
  | directory name stat entries rest _ ih =>
    rw [numberOf, if_neg (List.ne_of_not_mem_cons outside).symm,
      ih (List.not_mem_of_not_mem_cons outside)]

/-- One turn of `initrd_lookup`. -/
theorem initrdLookupLoop_succ {E : Nat} (entry : EntryAt (imageView m location) a ino name)
    (whole : NoNul name) (plain : slash ∉ name) (short : name.length < initrdFilenameLen)
    (here : E + 68 * i = location + a) : initrdLookupLoop m E wanted (i + 1) =
      if name = component wanted then some ino else initrdLookupLoop m E wanted i := by
  have length : name.length < 64 := short
  have turn : initrdLookupLoop m E wanted (i + 1) =
      if nameiMatch wanted (stringAt m (E + 68 * i + 4)) then some (m.word (E + 68 * i))
      else initrdLookupLoop m E wanted i := rfl
  have compares : nameiMatch wanted name = true ↔ name = component wanted := by
    rw [nameiMatch_iff, component_of_name whole plain, eq_comm]
  rw [turn, here, entry.string whole (by unfold uintWidth; omega), entry.word]
  by_cases same : name = component wanted
  · rw [if_pos same, if_pos (compares.mpr same)]
  · rw [if_neg same, if_neg fun matched => same (compares.mp matched)]

/-- From the last entry on, `initrd_lookup` finds the number of a name in what is left of a listing,
or goes on with the entries before. -/
theorem initrdLookupLoop_stored {path : Nat} (packable : listing.Packable path)
    (stored : listing.Stored (imageView m location) dir place i ino offset) :
    initrdLookupLoop m (location + place) wanted (i + listing.length) =
      (listing.numberOf ino (component wanted)).or
        (initrdLookupLoop m (location + place) wanted i) := by
  induction listing generalizing path i ino offset with
  | nil => rfl
  | file name stat data rest ih =>
    obtain ⟨named, _, distinct, further⟩ := packable
    obtain ⟨entry, _, more⟩ := stored
    have rest_length : i + (Listing.file name stat data rest).length = i + 1 + rest.length :=
      (Nat.add_assoc i 1 _).trans (congrArg (i + ·) (Nat.add_comm 1 _)) |>.symm
    rw [rest_length, ih further more, initrdLookupLoop_succ entry named.noNul
      named.plain named.short (Nat.add_assoc _ _ _), Listing.numberOf]
    by_cases same : name = component wanted
    · rw [if_pos same, if_pos same, Listing.numberOf_of_not_mem (same ▸ distinct), Option.none_or,
        Option.some_or]
    · rw [if_neg same, if_neg same]
  | directory name stat entries rest _ ih =>
    obtain ⟨named, _, distinct, _, further⟩ := packable
    obtain ⟨entry, _, _, more⟩ := stored
    have rest_length : i + (Listing.directory name stat entries rest).length =
        i + 1 + rest.length :=
      (Nat.add_assoc i 1 _).trans (congrArg (i + ·) (Nat.add_comm 1 _)) |>.symm
    rw [rest_length, ih further more, initrdLookupLoop_succ entry named.noNul
      named.plain named.short (Nat.add_assoc _ _ _), Listing.numberOf]
    by_cases same : name = component wanted
    · rw [if_pos same, if_pos same, Listing.numberOf_of_not_mem (same ▸ distinct), Option.none_or,
        Option.some_or]
    · rw [if_neg same, if_neg same]

/-- The names of a listing are none of the first two entries of its directory. -/
theorem Listing.Packable.named {path : Nat} (packable : listing.Packable path)
    (member : name ∈ listing.names) : EntryName name := by
  induction listing with
  | nil => cases member
  | file other stat data rest ih =>
    obtain ⟨named, _, _, further⟩ := packable
    rcases List.mem_cons.mp member with rfl | member
    · exact named
    · exact ih further member
  | directory other stat entries rest _ ih =>
    obtain ⟨named, _, _, _, further⟩ := packable
    rcases List.mem_cons.mp member with rfl | member
    · exact named
    · exact ih further member

/-- A node is in the image at a location, which has so many inodes and bytes, under a number, in
the directory of another number. -/
inductive InImage (m : Bytes) (location inodes bytes : Nat) : HostNode → Nat → Nat → Prop
  | file {stat : Stat} {data : List (BitVec 8)} {parent ino offset : Nat} :
      FileAt (imageView m location) ino stat data offset → ino < inodes →
      offset + data.length ≤ bytes → InImage m location inodes bytes (.file stat data) parent ino
  | directory {stat : Stat} {entries : Listing} {parent ino offset first inner path : Nat} :
      DirectoryAt (imageView m location) ino parent stat entries offset → ino < inodes →
      offset + entries.entriesSize ≤ bytes → entries.Packable path →
      entries.Stored (imageView m location) ino offset 2 first inner →
      first + entries.count ≤ inodes → inner + entries.space ≤ bytes → parent < inodes →
      (imageView m location (inodePlace parent + 20)).toNat = fsDirectory →
      InImage m location inodes bytes (.directory stat entries) parent ino

/-- What a memory with an image at a location has. -/
structure HasImage (m : Bytes) (location inodes bytes : Nat) : Prop where
  inodecount : m.word (location + 4) = inodes
  below : location + bytes ≤ uintWidth

variable {inodes bytes : Nat}

/-- `initrd_read_inode` of a record. -/
theorem HasImage.readInode (image : HasImage m location inodes bytes)
    (record : InodeAt (imageView m location) ino flags stat offset size) (numbered : ino < inodes)
    (a : Attributes) : initrdReadInode m location ino a =
      { flags, gid := stat.gid.toNat % ushortWidth, uid := stat.uid.toNat % ushortWidth,
        mode := stat.mode.toNat, size,
        lookup := some (initrdLookup m location (initrdInodeAt location ino)) } := by
  have field (i : Nat) : m.word (initrdInodeAt location ino + i) =
      (imageView m location).word (inodePlace ino + i) := by
    rw [imageView_word, initrdInodeAt, Nat.add_assoc]
  have flag : m (initrdInodeAt location ino + 20) =
      imageView m location (inodePlace ino + 20) := by
    rw [imageView, initrdInodeAt, Nat.add_assoc]
  have number : m.word (initrdInodeAt location ino) = ino := (field 0).trans record.number
  unfold initrdReadInode inodeLength
  rw [if_neg (by rw [image.inodecount]; omega)]
  dsimp only
  rw [field, field, field, field, flag, record.flags, record.gid, record.uid, record.mode,
    record.size, number]

/-- Where the data of an inode begin. -/
theorem InodeAt.start (record : InodeAt (imageView m location) ino flags stat offset size) :
    inodeStart m (initrdInodeAt location ino) = offset := by
  rw [← record.offset, imageView_word, ← Nat.add_assoc]
  rfl

/-- How long the data of an inode are. -/
theorem InodeAt.length (record : InodeAt (imageView m location) ino flags stat offset size) :
    inodeLength m (initrdInodeAt location ino) = size := by
  rw [← record.size, imageView_word, ← Nat.add_assoc]
  rfl

/-- `initrd_lookup` in a directory: the entries of the listing come before `..` and `.`. -/
theorem initrdLookup_directory {first inner path : Nat}
    (directory : DirectoryAt (imageView m location) ino parent stat entries offset)
    (packable : entries.Packable path)
    (stored : entries.Stored (imageView m location) ino offset 2 first inner)
    (below : location + offset < uintWidth) (wanted : CString) :
    initrdLookup m location (initrdInodeAt location ino) wanted =
      (entries.numberOf first (component wanted)).or
        (if dotdot = component wanted then some parent
        else if dot = component wanted then some ino else none) := by
  have entry : uadd offset location = location + offset := by
    rw [uadd_of_lt (by omega), Nat.add_comm]
  have count : entries.entriesSize / initrdEntrySize = 2 + entries.length := by
    change 68 * (entries.length + 2) / 68 = _
    omega
  unfold initrdLookup
  rw [directory.inode.start, directory.inode.length, entry, count,
    initrdLookupLoop_stored packable stored,
    initrdLookupLoop_succ directory.dotdot (by decide) (by decide) (by decide) (by omega),
    initrdLookupLoop_succ directory.dot (by decide) (by decide) (by decide) (by omega)]
  rfl

/-- A name has a number in the listing of a directory if it has a node, which is in the image. -/
theorem Listing.Stored.find {path inner : Nat} (packable : listing.Packable path)
    (stored : listing.Stored (imageView m location) dir place i ino inner)
    (numbered : ino + listing.count ≤ inodes) (inside : inner + listing.space ≤ bytes)
    (known : dir < inodes) (type : (imageView m location (inodePlace dir + 20)).toNat = fsDirectory)
    (wanted : CString) : Option.Rel (fun node id => InImage m location inodes bytes node dir id)
      (listing.find wanted) (listing.numberOf ino wanted) := by
  induction listing generalizing path i ino inner with
  | nil => exact .none
  | file name stat data rest ih =>
    obtain ⟨_, _, _, further⟩ := packable
    obtain ⟨_, file, more⟩ := stored
    rw [count] at numbered
    rw [space] at inside
    rw [Listing.find, numberOf]
    by_cases same : name = wanted
    · rw [if_pos same, if_pos same]
      exact .some (.file file (by omega) (by omega))
    · rw [if_neg same, if_neg same]
      exact ih further more (by omega) (by omega)
  | directory name stat entries rest _ ih =>
    obtain ⟨_, _, _, deeper, further⟩ := packable
    obtain ⟨_, directory, below, more⟩ := stored
    rw [count] at numbered
    rw [space] at inside
    rw [Listing.find, numberOf]
    by_cases same : name = wanted
    · rw [if_pos same, if_pos same]
      exact .some (.directory directory (by omega) (by omega) deeper below (by omega) (by omega)
        known type)
    · rw [if_neg same, if_neg same]
      exact ih further more (by omega) (by omega)

/-- The entries of the numbers, by the moves of a walk. -/
def initrdEntry (m : Bytes) (location ino : Nat) (move : Move OtherName) : Option Nat :=
  initrdStep m location ino (nameOf move)

/-- A directory has the numbers that its lookup finds. -/
theorem HasImage.entry_directory (image : HasImage m location inodes bytes)
    (directory : DirectoryAt (imageView m location) ino parent stat entries offset)
    (numbered : ino < inodes) (move : Move OtherName) : initrdEntry m location ino move =
      initrdLookup m location (initrdInodeAt location ino) (nameOf move) := by
  unfold initrdEntry initrdStep
  rw [image.readInode directory.inode numbered]
  dsimp only
  rw [if_neg (by decide)]
  rfl

/-- The image is a table of the nodes of the host. -/
theorem HasImage.represents (image : HasImage m location inodes bytes) :
    Cursor.Represents HostNode.children (initrdEntry m location)
      (InImage m location inodes bytes) := by
  have below := image.below
  -- a directory, with what is looked up in it
  have looks {node : HostNode} {parent ino : Nat} {child : OtherName → Option HostNode}
      (here : InImage m location inodes bytes node parent ino)
      (inner : node.children = some child) : ∃ (stat : Stat) (entries : Listing) (first : Nat),
        (child = fun name => entries.find (component name.1)) ∧
        (∀ name ∈ entries.names, EntryName name) ∧
        (∀ wanted, Option.Rel (fun node' id => InImage m location inodes bytes node' ino id)
          (entries.find wanted) (entries.numberOf first wanted)) ∧
        ∀ move, initrdEntry m location ino move =
          (entries.numberOf first (component (nameOf move))).or
            (if dotdot = component (nameOf move) then some parent
            else if dot = component (nameOf move) then some ino else none) := by
    cases here with
    | file => cases inner
    | @directory stat entries _ _ offset first data path directory numbered inside packable stored
        few within above type =>
      have size : entries.entriesSize = 68 * (entries.length + 2) := rfl
      refine ⟨stat, entries, first, (Option.some.inj inner).symm, fun name => packable.named,
        stored.find packable few within numbered directory.inode.flags, fun move => ?_⟩
      rw [image.entry_directory directory numbered,
        initrdLookup_directory directory packable stored (by omega)]
  constructor
  · intro node parent ino move here leaf
    cases here with
    | file file numbered _ =>
      unfold initrdEntry initrdStep
      rw [image.readInode file.inode numbered]
      exact if_pos (show fsFile &&& 7 ≠ fsDirectory by decide)
    | directory => cases leaf
  · intro node parent ino child here inner
    obtain ⟨stat, entries, first, _, named, _, entry⟩ := looks here inner
    have outside : dot ∉ entries.names := fun member => (named _ member).not_dot rfl
    rw [entry, nameOf, show component dot = dot by decide, Listing.numberOf_of_not_mem outside]
    rfl
  · intro node parent ino child here inner
    obtain ⟨stat, entries, first, _, named, _, entry⟩ := looks here inner
    have outside : dotdot ∉ entries.names := fun member => (named _ member).not_dotdot rfl
    rw [entry, nameOf, show component dotdot = dotdot by decide,
      Listing.numberOf_of_not_mem outside]
    rfl
  · intro node parent ino child here inner name
    obtain ⟨stat, entries, first, rfl, _, found, entry⟩ := looks here inner
    rw [entry, nameOf, if_neg (Ne.symm name.2.2), if_neg (Ne.symm name.2.1), Option.or_none]
    exact found _

/-- The lookup of a name depends on the name before a slash. -/
theorem initrdLookupLoop_congr {name' : CString} (same : component name = component name')
    (E n : Nat) : initrdLookupLoop m E name n = initrdLookupLoop m E name' n := by
  have matches_same (s : CString) : nameiMatch name s = nameiMatch name' s := by
    rw [Bool.eq_iff_iff, nameiMatch_iff, nameiMatch_iff, same]
  induction n with
  | zero => rfl
  | succ n ih =>
    rw [initrdLookupLoop, initrdLookupLoop, ih, matches_same]

/-- The name that asks for the move of a name is the same one before a slash. -/
theorem component_nameOf (name : CString) : component (nameOf (moveOf name)) = component name := by
  unfold moveOf
  split
  · rename_i inPlace
    rw [inPlace]
    decide
  · split
    · rename_i upwards
      rw [upwards]
      decide
    · rfl

/-- The kernel makes the move that a name asks for. -/
theorem initrdStep_eq (m : Bytes) (location ino : Nat) (name : CString) :
    initrdStep m location ino name = initrdEntry m location ino (moveOf name) := by
  have looks (location' inode : Nat) : initrdLookup m location' inode name =
      initrdLookup m location' inode (nameOf (moveOf name)) :=
    initrdLookupLoop_congr (component_nameOf name).symm _ _
  unfold initrdEntry initrdStep initrdReadInode
  dsimp only
  split
  · rfl
  · rw [Option.bind_some, Option.bind_some, looks]

/-- A walk of the kernel leads to the number of the node that the walk on the host leads to, or both
lead nowhere. -/
theorem HasImage.walk (image : HasImage m location inodes bytes)
    (here : InImage m location inodes bytes (.directory stat root) 0 0) (names : List CString) :
    Option.Rel (Cursor.Located (InImage m location inodes bytes)) (hostWalk stat root names)
      (initrdWalk m location names) := by
  have walks := (Cursor.Located.root here).walk image.represents (names.map moveOf)
  rw [List.foldlM_map, List.foldlM_map] at walks
  unfold hostWalk initrdWalk
  rwa [show initrdStep m location = fun ino name => initrdEntry m location ino (moveOf name) from
    funext fun ino => funext (initrdStep_eq m location ino)]

/-! ## What a vnode serves -/

/-- A `struct dirent` has been filled. -/
structure FillsDirent (buf ino : Nat) (name : CString) (type : Nat) (m m' : Bytes) : Prop where
  ino : m'.word buf = ino
  text : stringAt m' (buf + direntName) = name
  length : m'.word (buf + direntNamlen) = name.length
  type : m'.word (buf + direntType) = type
  only : Bytes.OnlyIn buf (buf + direntSize) m m'

/-- The vnode of an inode has the mode and the owner of a node of the host and is of its kind. -/
structure HasAttributes (a : Attributes) (stat : Stat) (flags size : Nat) : Prop where
  flags : a.flags = flags
  mode : a.mode = stat.mode.toNat
  uid : a.uid = stat.uid.toNat % ushortWidth
  gid : a.gid = stat.gid.toNat % ushortWidth
  size : a.size = size

/-- The vnode of an inode, in an image of so many bytes, serves a node of the host: reads of a file
transfer its bytes, and the indices of a directory list its entries. -/
def Serves (m : Bytes) (location bytes ino : Nat) : HostNode → Prop
  | .file stat data =>
    HasAttributes (initrdReadInode m location ino {}) stat fsFile data.length ∧
      ∀ reads offset size buffer, Clamped data.length offset size → offset < uintWidth →
        size < uintWidth → buffer + clampedCount data.length offset size ≤ uintWidth →
        (buffer + clampedCount data.length offset size ≤ location ∨ location + bytes ≤ buffer) →
        let read := initrdRead location (initrdInodeAt location ino) offset size buffer ⟨m, reads⟩
        read.2 = clampedCount data.length offset size ∧
          bytesAt read.1.bytes buffer (clampedCount data.length offset size) =
            (data.drop offset).take size
  | .directory stat entries =>
    HasAttributes (initrdReadInode m location ino {}) stat fsDirectory entries.entriesSize ∧
      ∀ index buf, buf + direntSize ≤ location ∨ location + bytes ≤ buf →
        let listed := initrdReaddir location (initrdInodeAt location ino) index buf m
        (∀ name type,
          ((dot, fsDirectory) :: (dotdot, fsDirectory) :: entries.types)[index]? = some (name, type) →
          ∃ entry, initrdStep m location ino name = some entry ∧ listed.1 = 0 ∧
            FillsDirent buf entry name type m listed.2) ∧
        (entries.length + 2 ≤ index → listed = (-EINVAL, m))

variable {buf index number type count : Nat}

/-- The bytes of a range are a part of what the range holds. -/
theorem bytesAt_drop (stored : ∀ i < data.length, m (a + i) = data.getD i 0) (offset size : Nat) :
    bytesAt m (a + offset) (clampedCount data.length offset size) =
      (data.drop offset).take size := by
  apply List.ext_getElem
  · rw [bytesAt, List.length_map, List.length_range, List.length_take, List.length_drop]
    rfl
  · intro i inside inside'
    rw [List.length_take, List.length_drop] at inside'
    simp only [bytesAt, List.getElem_map, List.getElem_range, List.getElem_take, List.getElem_drop]
    rw [Nat.add_assoc, stored _ (by omega), List.getD_eq_getElem _ _ (by omega)]

/-- A file of the image serves that of the host. -/
theorem HasImage.serves_file (image : HasImage m location inodes bytes)
    (file : FileAt (imageView m location) ino stat data offset) (numbered : ino < inodes)
    (inside : offset + data.length ≤ bytes) :
    Serves m location bytes ino (.file stat data) := by
  have below := image.below
  have record := image.readInode file.inode numbered {}
  refine ⟨by rw [record]; exact ⟨rfl, rfl, rfl, rfl, rfl⟩, ?_⟩
  intro reads position size buffer clamped low small room apart
  have isFile : IsFile m location (initrdInodeAt location ino) (location + offset) data.length :=
    ⟨by rw [file.inode.start], file.inode.length.symm, by omega⟩
  have transfers : ReadsInitrd (location + offset) data.length position size buffer ⟨m, reads⟩ _ _ :=
    (initrdRead_iff isFile low small).mpr clamped
  refine ⟨transfers.returns, ?_⟩
  rw [(transfers.stored (by omega) room (by omega)).1]
  refine bytesAt_drop (fun i within => ?_) position size
  rw [Nat.add_assoc]
  exact file.data i within

/-- A `struct dirent` with a name in it, once the other fields are stored. -/
theorem fillsDirent_of_named {named : Bytes} (whole : NoNul name)
    (short : name.length < initrdFilenameLen) (few : number < uintWidth) (small : type < uintWidth)
    (text : ∀ i ≤ name.length, named (buf + direntName + i) = textByte name i)
    (only : Bytes.OnlyIn buf (buf + direntSize) m named) :
    FillsDirent buf number name type m
      (((Bytes.store named (buf + direntNamlen) (strlenAt named (buf + direntName))).store buf
        number).store (buf + direntType) type) := by
  have length : name.length < 64 := short
  have namlen : strlenAt named (buf + direntName) = name.length := by
    refine strlenAt_eq (fun i inside => ?_) ?_ (by unfold uintWidth; omega)
    · rw [text i (Nat.le_of_lt inside)]
      exact textByte_ne_zero whole inside
    · rw [text _ (Nat.le_refl _), textByte_length]
  unfold direntNamlen direntName direntType direntSize uintWidth at *
  rw [namlen]
  refine ⟨?_, stringAt_eq whole (by unfold uintWidth; omega) fun i inside => ?_, ?_, ?_,
    ((only.store _ (by omega) (by omega)).store _ (by omega) (by omega)).store _ (by omega)
      (by omega)⟩
  · rw [Bytes.word_store_of_apart _ _ (by omega), Bytes.word_store_self, Nat.mod_eq_of_lt few]
  · unfold direntName
    rw [Bytes.store_of_outside _ _ (by omega), Bytes.store_of_outside _ _ (by omega),
      Bytes.store_of_outside _ _ (by omega), text i inside]
  · unfold direntNamlen
    rw [Bytes.word_store_of_apart _ _ (by omega), Bytes.word_store_of_apart _ _ (by omega),
      Bytes.word_store_self, Nat.mod_eq_of_lt (by omega)]
  · exact (Bytes.word_store_self _ _ _).trans (Nat.mod_eq_of_lt small)

/-- An entry of a directory is copied into a `struct dirent`. -/
theorem initrdReaddir_entry (record : InodeAt (imageView m location) ino flags stat offset size)
    (entry : EntryAt (imageView m location) (offset + 68 * index) number name) (whole : NoNul name)
    (short : name.length < initrdFilenameLen)
    (type_eq : (imageView m location (inodePlace number + 20)).toNat = type)
    (within : index < size / initrdEntrySize) (below : location + offset < uintWidth) :
    let listed := initrdReaddir location (initrdInodeAt location ino) index buf m
    listed.1 = 0 ∧ FillsDirent buf number name type m listed.2 := by
  have length : name.length < 64 := short
  have start : uadd offset location + initrdEntrySize * index =
      location + (offset + 68 * index) := by
    rw [initrdEntrySize, uadd_of_lt (by omega), Nat.add_comm offset, Nat.add_assoc]
  have flag : (m (initrdInodeAt location number + 20)).toNat = type := by
    rw [← type_eq, imageView, initrdInodeAt, Nat.add_assoc]
  have letter (i : Nat) (inside : i ≤ name.length) :
      m (location + (offset + 68 * index) + 4 + i) = textByte name i := by
    have stored := entry.name i inside
    rwa [imageView, ← Nat.add_assoc, ← Nat.add_assoc] at stored
  have copied : strncpy m (buf + direntName) _ initrdFilenameLen m = _ := strncpy_of_nul
    (fun i inside => (letter i (Nat.le_of_lt inside)).symm ▸ textByte_ne_zero whole inside)
    ((letter _ (Nat.le_refl _)).trans (textByte_length name)) (Nat.le_of_lt length)
  have few : number < uintWidth := entry.number ▸ Bytes.word_lt _ _
  have small : type < uintWidth := by
    have bound := (m (initrdInodeAt location number + 20)).isLt
    unfold uintWidth
    omega
  unfold initrdReaddir
  dsimp only
  rw [record.start, record.length, if_neg (Nat.not_le.mpr within), start, entry.word, copied, flag]
  refine ⟨rfl, fillsDirent_of_named whole short few small (fun i inside => ?_) fun b outside => ?_⟩
  · by_cases last : i = initrdFilenameLen - 1
    · -- the last character is the NUL of a name of the greatest length
      have whole_name : i = name.length := by
        unfold initrdFilenameLen at last
        omega
      rw [last, Function.update_self, ← last, whole_name, textByte_length]
    · rw [Function.update_of_ne (by omega)]
      by_cases inName : i < name.length
      · rw [Bytes.fill, if_neg (by omega), Bytes.blit_of_inside inName, letter i inside]
      · have nul : i = name.length := by omega
        rw [nul, textByte_length, Bytes.fill, if_pos]
        unfold initrdFilenameLen
        omega
  · unfold direntSize direntName initrdFilenameLen at *
    rw [Function.update_of_ne (by omega), Bytes.fill, if_neg (by omega),
      Bytes.blit_of_outside (by omega)]

/-- The names of a listing are the ones whose types are told. -/
theorem Listing.names_eq (listing : Listing) : listing.names = listing.types.map Prod.fst := by
  induction listing with
  | nil => rfl
  | file name stat data rest ih => rw [names, types, List.map_cons, ih]
  | directory name stat entries rest _ ih => rw [names, types, List.map_cons, ih]

/-- There is a type for each entry. -/
theorem Listing.types_length (listing : Listing) : listing.types.length = listing.length := by
  induction listing with
  | nil => rfl
  | file name stat data rest ih => rw [types, List.length_cons, ih, length]
  | directory name stat entries rest _ ih => rw [types, List.length_cons, ih, length]

/-- A later entry has a name of its own. -/
theorem Listing.ne_of_later {rest : Listing} {other : CString} (distinct : other ∉ rest.names)
    (found : rest.types[index]? = some (name, type)) : other ≠ name := by
  rintro rfl
  apply distinct
  rw [names_eq]
  exact List.mem_map_of_mem (List.mem_of_getElem? found)

/-- What an index of a listing names. -/
theorem Listing.Stored.entryAt {path inner : Nat} (packable : listing.Packable path)
    (stored : listing.Stored m dir place i ino inner)
    (found : listing.types[index]? = some (name, type)) :
    EntryName name ∧ ∃ number, EntryAt m (place + 68 * (i + index)) number name ∧
      listing.numberOf ino name = some number ∧ (m (inodePlace number + 20)).toNat = type := by
  induction listing generalizing path i ino inner index with
  | nil => cases found
  | file other stat data rest ih =>
    obtain ⟨named, _, distinct, further⟩ := packable
    obtain ⟨entry, file, more⟩ := stored
    cases index with
    | zero =>
      obtain ⟨rfl, rfl⟩ := Prod.mk.inj (Option.some.inj found)
      exact ⟨named, ino, entry, if_pos rfl, file.inode.flags⟩
    | succ index =>
      have other_ne := Listing.ne_of_later distinct found
      obtain ⟨wanted, number, there, numbered, flags⟩ := ih further more found
      rw [Nat.add_assoc i, Nat.add_comm 1] at there
      exact ⟨wanted, number, there, (if_neg other_ne).trans numbered, flags⟩
  | directory other stat entries rest _ ih =>
    obtain ⟨named, _, distinct, _, further⟩ := packable
    obtain ⟨entry, directory, _, more⟩ := stored
    cases index with
    | zero =>
      obtain ⟨rfl, rfl⟩ := Prod.mk.inj (Option.some.inj found)
      exact ⟨named, ino, entry, if_pos rfl, directory.inode.flags⟩
    | succ index =>
      have other_ne := Listing.ne_of_later distinct found
      obtain ⟨wanted, number, there, numbered, flags⟩ := ih further more found
      rw [Nat.add_assoc i, Nat.add_comm 1] at there
      exact ⟨wanted, number, there, (if_neg other_ne).trans numbered, flags⟩

/-- A directory of the image serves that of the host. -/
theorem HasImage.serves_directory {first inner path : Nat}
    (image : HasImage m location inodes bytes)
    (directory : DirectoryAt (imageView m location) ino parent stat entries offset)
    (packable : entries.Packable path)
    (stored : entries.Stored (imageView m location) ino offset 2 first inner) (numbered : ino < inodes)
    (inside : offset + entries.entriesSize ≤ bytes)
    (type_eq : (imageView m location (inodePlace parent + 20)).toNat = fsDirectory) :
    Serves m location bytes ino (.directory stat entries) := by
  have below := image.below
  have size : entries.entriesSize = 68 * (entries.length + 2) := rfl
  have count : entries.entriesSize / initrdEntrySize = entries.length + 2 := by
    change 68 * (entries.length + 2) / 68 = _
    omega
  have record := image.readInode directory.inode numbered {}
  have step (name : CString) : initrdStep m location ino name =
      (entries.numberOf first (component name)).or
        (if dotdot = component name then some parent
        else if dot = component name then some ino else none) := by
    unfold initrdStep
    rw [record]
    dsimp only
    rw [if_neg (by decide)]
    exact initrdLookup_directory directory packable stored (by omega) name
  refine ⟨by rw [record]; exact ⟨rfl, rfl, rfl, rfl, rfl⟩, fun index buf _ => ⟨?_, ?_⟩⟩
  · intro name type found
    have outside (special : CString) (not_named : ¬EntryName special) :
        entries.numberOf first special = none :=
      Listing.numberOf_of_not_mem fun member => not_named (packable.named member)
    cases index with
    | zero =>
      obtain ⟨rfl, rfl⟩ := Prod.mk.inj (Option.some.inj found)
      refine ⟨ino, ?_, initrdReaddir_entry directory.inode directory.dot (by decide) (by decide)
        directory.inode.flags (by omega) (by omega)⟩
      rw [step, show component dot = dot by decide, outside dot fun named => named.not_dot rfl]
      rfl
    | succ index =>
      cases index with
      | zero =>
        obtain ⟨rfl, rfl⟩ := Prod.mk.inj (Option.some.inj found)
        refine ⟨parent, ?_, initrdReaddir_entry directory.inode directory.dotdot (by decide)
          (by decide) type_eq (by omega) (by omega)⟩
        rw [step, show component dotdot = dotdot by decide,
          outside dotdot fun named => named.not_dotdot rfl]
        rfl
      | succ index =>
        have found : entries.types[index]? = some (name, type) := found
        obtain ⟨named, number, there, numbers, flags⟩ := stored.entryAt packable found
        have within : index < entries.length :=
          entries.types_length ▸ (List.getElem?_eq_some_iff.mp found).1
        rw [Nat.add_comm 2 index] at there
        refine ⟨number, ?_, initrdReaddir_entry directory.inode there named.noNul named.short flags
          (by omega) (by omega)⟩
        rw [step, component_of_name named.noNul named.plain, numbers]
        rfl
  · intro behind
    unfold initrdReaddir
    dsimp only
    rw [directory.inode.length, if_pos (by omega)]

/-- A number in the image serves its node. -/
theorem HasImage.serves (image : HasImage m location inodes bytes)
    (here : InImage m location inodes bytes node parent ino) : Serves m location bytes ino node := by
  cases here with
  | file file numbered inside => exact image.serves_file file numbered inside
  | directory directory numbered inside packable stored _ _ _ type =>
    exact image.serves_directory directory packable stored numbered inside type

/-- An image depends on its bytes. -/
theorem ImageOf.congr {m' : Bytes} {path : Nat} (image : ImageOf m stat root)
    (packable : root.Packable path) (same : Bytes.Same 0 root.imageSize m m') :
    ImageOf m' stat root := by
  have size : root.entriesSize = 68 * (root.length + 2) := rfl
  have whole : root.imageSize = inodePlace (root.count + 1) + root.entriesSize + root.space := rfl
  have place := inodePlace_eq (root.count + 1)
  have part (lo hi : Nat) (inside : hi ≤ root.imageSize) : Bytes.Same lo hi m m' :=
    same.mono (Nat.zero_le _) inside
  obtain ⟨magic, inodecount, directory, stored⟩ := image
  refine ⟨(Bytes.word_congr same (Nat.le_refl _) (by omega)).trans magic,
    (Bytes.word_congr same (Nat.zero_le _) (by omega)).trans inodecount,
    directory.congr (part _ _ ?_) (part _ _ (by omega)),
    stored.congr packable (part _ _ (by omega)) (part _ _ ?_) (part _ _ (by omega))⟩
  · rw [inodePlace_eq]
    omega
  · rw [inodePlace_eq]
    omega

/-- What the kernel needs to know of an image that is in memory. -/
theorem ImageOf.loaded {path : Nat} (image : ImageOf (imageView m location) stat root)
    (packable : root.Packable path) (below : location + root.imageSize ≤ uintWidth) :
    HasImage m location (root.count + 1) root.imageSize ∧
      InImage m location (root.count + 1) root.imageSize (.directory stat root) 0 0 := by
  have whole : root.imageSize = inodePlace (root.count + 1) + root.entriesSize + root.space := rfl
  obtain ⟨_, inodecount, directory, stored⟩ := image
  exact ⟨⟨inodecount, below⟩, .directory directory (by omega) (by omega) packable stored (by omega)
    (by omega) (by omega) directory.inode.flags⟩

/-- A directory that is packed, and loaded anywhere in memory, is mounted as what it was: walks by
the same names lead on the host to a node and in the kernel to an inode that serves it, or both to
nothing. -/
theorem initrd_round_trip (path : Nat) (garbage : Bytes) (stat : Stat)
    (packable : root.Packable path) (fits : root.imageSize < uintWidth) :
    ∃ image, mkinitrd garbage stat root = some (image, root.imageSize) ∧
      ∀ m location, (∀ a < root.imageSize, m (location + a) = image a) →
        location + root.imageSize ≤ uintWidth →
          (initrdFsType m).readSuper location = some (initrdOperations m location, 0) ∧
          ∀ names, Option.Rel (fun c ino => Serves m location root.imageSize ino c.node)
            (hostWalk stat root names) (initrdWalk m location names) := by
  obtain ⟨image, made, stored⟩ := mkinitrd_image garbage stat packable fits
  refine ⟨image, made, fun m location loaded below => ?_⟩
  have view : ImageOf (imageView m location) stat root :=
    stored.congr packable fun a _ inside => loaded a inside
  obtain ⟨has, here⟩ := view.loaded packable below
  refine ⟨if_neg (not_not.mpr view.magic), fun names => ?_⟩
  have walks := has.walk here names
  generalize hostWalk stat root names = c at walks ⊢
  generalize initrdWalk m location names = ino at walks ⊢
  cases walks with
  | none => exact .none
  | some located =>
    obtain ⟨_, there⟩ := located.here
    exact .some (has.serves there)

namespace Packed

/-- What `stat` tells of everything here. -/
def anyone : Stat := ⟨0o755, 0, 0⟩

/-- A directory with a file in it, and a file of two bytes. -/
def files : Listing :=
  .directory (ascii "bin") anyone (.file (ascii "sh") anyone [127] .nil)
    (.file (ascii "motd") anyone [104, 105] .nil)

end Packed

open Packed in
/-- The directory is mounted as what it was, from any memory that its image is loaded into. -/
theorem initrd_round_trip_files :
    ∃ image, mkinitrd (fun _ => 0) anyone files = some (image, files.imageSize) ∧
      ∀ m location, (∀ a < files.imageSize, m (location + a) = image a) →
        location + files.imageSize ≤ uintWidth →
          (initrdFsType m).readSuper location = some (initrdOperations m location, 0) ∧
          ∀ names, Option.Rel (fun c ino => Serves m location files.imageSize ino c.node)
            (hostWalk anyone files names) (initrdWalk m location names) :=
  initrd_round_trip 6 (fun _ => 0) anyone
    ⟨⟨by decide, by decide, by decide, by decide, by decide, by decide⟩, by decide, by decide,
      ⟨⟨by decide, by decide, by decide, by decide, by decide, by decide⟩, by decide, by decide,
        trivial⟩,
      ⟨by decide, by decide, by decide, by decide, by decide, by decide⟩, by decide, by decide,
      trivial⟩ (by decide)

end Nupkux
