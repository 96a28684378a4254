import Nupkux.Fs.ReadWrite
import Nupkux.Fs.StackKept
import Nupkux.Kernel.ElfValidate

/-!
# Executing a program

`do_exec` reads the file into a block of kernel memory, builds the new stack, and only then asks
`load_elf` whether the file can be run. When it cannot, the program that called has its registers
and its files, but the arguments are on what was its stack. The path is a string and the memory
of the task a machine; the allocator of the kernel and the file systems are parameters, and their
hooks `open` and `close` are left out. `access_ok`, which always returns 1, is left out.
-/

namespace Nupkux

/-- `PAGE_FLAG_USERMODE`. -/
def pageFlagUser : Nat := 4

/-- `struct _registers`. -/
structure Registers where
  ds : Nat := 0
  edi : Nat := 0
  esi : Nat := 0
  ebp : Nat := 0
  esp : Nat := 0
  ebx : Nat := 0
  edx : Nat := 0
  ecx : Nat := 0
  eax : Nat := 0
  intNo : Nat := 0
  errCode : Nat := 0
  eip : Nat := 0
  cs : Nat := 0
  eflags : Nat := 0
  useresp : Nat := 0
  ss : Nat := 0
  deriving DecidableEq, Repr

namespace Machine

/-- The task may use a page. -/
def IsUser (m : Machine) (n : Nat) : Prop := (m.page n).flags &&& pageFlagUser ≠ 0

/-- The task has the same pages, and the same bytes in them. -/
structure SameUser (m m' : Machine) : Prop where
  pages : ∀ n, m.IsUser n ∨ m'.IsUser n → m'.page n = m.page n
  bytes : ∀ a, m.IsUser (a / frameSize) → m'.byte a = m.byte a

/-- `new_stack` and `make_new_stack` as `do_exec` calls them. -/
def buildStack (blocks : PageBlocks) (argv envp : Nat) (m : Machine) : Option (Nat × Machine) := do
  let m ← m.newStack blocks userStackPos userStackSize
  let (stack, m, _) ← makeNewStack argv envp userStackPos m
  some (stack, m)

/-- The address space of a task: there is no memory behind an address below the stack nor behind the
last address, and what is between the first of them and the stack belongs to the task. -/
structure Guarded (m : Machine) (g : Nat) : Prop where
  low : g < 0x7FFFF000
  free : m.translate g = none
  last : m.translate (uintWidth - 1) = none
  own : ∀ a, g < a → a < userStackPos → (m.translate a).isSome →
    m.IsUser (a / frameSize) ∧ (m.page (a / frameSize)).frame ≠ 0

/-- The stack that is built is there already: both pages, and the block of the two vectors. -/
structure StackThere (m : Machine) (argv envp : Nat) : Prop where
  mapped : ∀ n ∈ [0x80000, 0x7FFFF], (m.page n).frame ≠ 0
  block : m.BlockThere argv envp

/-- The first call of `load_elf` refuses an image. -/
def Refuses (m : Machine) (blocks : PageBlocks) (image : Nat) : Prop :=
  ∃ pages turns checked, m.loadElf blocks pages turns image true = some checked ∧
    checked.code ≠ .success

/-- The first call of `load_elf` refuses an image, or no range that it loads meets its buffer. Then
nothing has been loaded of an image that is refused. -/
def RefusesEarly (m : Machine) (blocks : PageBlocks) (image : Nat) : Prop :=
  m.Refuses blocks image ∨ ∃ size, m.HoldsImage image size

/-- The second call of `load_elf` refuses an image that the first one has accepted. -/
structure RefusesLate (m m' : Machine) (blocks : PageBlocks) (pages turns image : Nat) : Prop where
  accepted : ∃ checked, m.loadElf blocks pages turns image true = some checked ∧
    checked.code = .success
  refused : ∃ loaded, m.loadElf blocks pages turns image false = some loaded ∧
    loaded.code ≠ .success ∧ loaded.machine = m'

end Machine

/-- The loop of `do_exec` over the descriptors below one, the highest first. -/
def Kernel.closeMarked : Nat → Kernel → Kernel
  | 0, k => k
  | fd + 1, k => closeMarked fd
      (if k.current.files fd ≠ 0 ∧ k.current.closeOnExec &&& fdBit fd ≠ 0 then (k.sysClose fd).1
        else k)

/-- The parts of the kernel that `sys_execve` calls. -/
structure ExecServices where
  namei : PathResolver
  malloc : Nat → Machine → Nat × Machine
  free : Nat → Machine → Machine
  fOp : Nat → FileOperations Machine
  blocks : PageBlocks

/-- The kernel, the memory of the current task, and its saved registers if it is in a system
call. -/
structure ExecWorld where
  kernel : Kernel
  machine : Machine
  globRegs : Option Registers

namespace ExecWorld

/-- After `namei`. -/
def resolved (w : ExecWorld) (s : ExecServices) (file : CString) : ExecWorld :=
  { w with kernel := { w.kernel with vfs := (s.namei w.kernel.vfs w.kernel.current file).1 } }

/-- What `namei` returns: the vnode, null if there is none, and the error code. -/
def nodeAt (w : ExecWorld) (s : ExecServices) (file : CString) : Nat × Int :=
  (s.namei w.kernel.vfs w.kernel.current file).2

/-- `buf = malloc(node->size); read_fs(node, 0, node->size, buf)`. -/
def readImage (w : ExecWorld) (s : ExecServices) (node : Nat) : Nat × Machine :=
  let size := w.kernel.nodeSize node
  let (buf, m) := s.malloc size w.machine
  let t : Transfer := { mode := fmodeRead, node, offset := 0, size, buffer := buf }
  (buf, (readFs s.fOp w.kernel t m).1)

/-- `do_exec` once the stack is built: a stack that cannot be built and an image that is refused are
errors; else the files that are marked are closed, and the registers are those of the program. -/
def startImage (w : ExecWorld) (s : ExecServices) (pages turns buf stack : Nat) (m : Machine) :
    Option (ExecWorld × Int) :=
  if stack = stackNomem then some ({ w with machine := s.free buf m }, -EFAULT)
  else
    (m.loadImage s.blocks pages turns buf).map fun loaded =>
      let machine := s.free buf loaded.2
      match loaded.1 with
      | .error status => ({ w with machine }, status)
      | .ok entry =>
        let globRegs := w.globRegs.map fun r => { r with eip := entry, ebx := stack }
        ({ kernel := w.kernel.closeMarked nrOpen, machine, globRegs }, 0)

/-- `do_exec`. -/
def doExec (w : ExecWorld) (s : ExecServices) (pages turns node argv envp : Nat) :
    Option (ExecWorld × Int) :=
  let image := w.readImage s node
  (image.2.buildStack s.blocks argv envp).bind fun built =>
    w.startImage s pages turns image.1 built.1 built.2

/-- `iput(node)`. -/
def putNode (w : ExecWorld) (node : Nat) : ExecWorld :=
  { w with kernel := { w.kernel with vfs := w.kernel.vfs.iput node } }

/-- `sys_execve`. -/
def sysExecve (w : ExecWorld) (s : ExecServices) (pages turns : Nat) (file : CString)
    (argv envp : Nat) : Option (ExecWorld × Int) :=
  if (w.nodeAt s file).1 = 0 then some (w.resolved s file, (w.nodeAt s file).2)
  else
    ((w.resolved s file).doExec s pages turns (w.nodeAt s file).1 argv envp).map fun done =>
      (done.1.putNode (w.nodeAt s file).1, done.2)

/-- The calling task is as it was: its memory and its pages, its descriptors and the open files,
and its saved registers. -/
structure Unharmed (w w' : ExecWorld) : Prop where
  user : Machine.SameUser w.machine w'.machine
  tasks : w'.kernel.tasks = w.kernel.tasks
  currentTask : w'.kernel.currentTask = w.kernel.currentTask
  files : w'.kernel.file = w.kernel.file
  globRegs : w'.globRegs = w.globRegs

/-- When `sys_execve` returns an error, the calling task is as it was. -/
def FailsCleanly (w : ExecWorld) (s : ExecServices) (file : CString) (argv envp : Nat) : Prop :=
  ∀ pages turns w' status, w.sysExecve s pages turns file argv envp = some (w', status) →
    status ≠ 0 → Unharmed w w'

/-- There is no such file; or the stack that is built is there when the image has been read, and the
image is not refused late. -/
def ExecReady (w : ExecWorld) (s : ExecServices) (file : CString) (argv envp : Nat) : Prop :=
  (w.nodeAt s file).1 = 0 ∨
    ((w.resolved s file).readImage s (w.nodeAt s file).1).2.StackThere argv envp ∧
      ((w.resolved s file).readImage s (w.nodeAt s file).1).2.RefusesEarly s.blocks
        ((w.resolved s file).readImage s (w.nodeAt s file).1).1

/-- The allocator and the file system store in kernel memory only. -/
structure StoresInKernel (w : ExecWorld) (s : ExecServices) (node : Nat) : Prop where
  malloc : Machine.SameUser w.machine (s.malloc (w.kernel.nodeSize node) w.machine).2
  read : Machine.SameUser (s.malloc (w.kernel.nodeSize node) w.machine).2 (w.readImage s node).2
  free : ∀ buf m, Machine.SameUser m (s.free buf m)
  sound : (w.readImage s node).2.Sound

/-- A call of `do_exec` as there are: the vectors are 32-bit addresses, the task has a guarded stack,
and the image is not refused late once the stack is built. -/
structure Ordinary (w : ExecWorld) (s : ExecServices) (node argv envp : Nat) : Prop where
  argSmall : argv < uintWidth
  envSmall : envp < uintWidth
  guarded : ∃ g, (w.readImage s node).2.Guarded g
  early : ∀ stack m, (w.readImage s node).2.buildStack s.blocks argv envp = some (stack, m) →
    m.RefusesEarly s.blocks (w.readImage s node).1

end ExecWorld

namespace Machine

variable {m m' m'' : Machine} {blocks : PageBlocks} {n a argv envp image pages turns stack : Nat}

/-! ## The memory of a task -/

/-- Nothing changed. -/
theorem SameUser.refl (m : Machine) : SameUser m m := ⟨fun _ _ => rfl, fun _ _ => rfl⟩

/-- The same seen from the other side. -/
theorem SameUser.symm (same : SameUser m m') : SameUser m' m := by
  refine ⟨fun n user => (same.pages n user.symm).symm, fun a user => ?_⟩
  have page := same.pages _ (.inr user)
  unfold IsUser at user
  rw [page] at user
  exact (same.bytes a user).symm

/-- Two changes. -/
theorem SameUser.trans (first : SameUser m m') (second : SameUser m' m'') : SameUser m m'' := by
  have next (n : Nat) (user : m.IsUser n) : m'.IsUser n := by
    unfold IsUser
    rw [first.pages n (.inl user)]
    exact user
  refine ⟨fun n user => ?_, fun a user => ?_⟩
  · have there : m'.IsUser n := by
      rcases user with before | after
      · exact next n before
      · unfold IsUser at after
        rwa [second.pages n (.inr after)] at after
    exact (second.pages n (.inl there)).trans (first.pages n (.inr there))
  · exact (second.bytes a (next _ user)).trans (first.bytes a user)

/-! ## The stack -/

/-- What `new_stack` maps. -/
theorem buildStack_eq (blocks : PageBlocks) (m : Machine) :
    m.buildStack blocks argv envp =
      (makeNewStack argv envp userStackPos
        ((m.makePage blocks 0x80000000).makePage blocks 0x7FFFF000)).bind fun built =>
          some (built.1, built.2.1) := by
  rw [buildStack, newStack_eq]
  rfl

/-- The first page of the stack is an address. -/
theorem upperInRange : 0x80000000 < uintWidth := by decide

/-- So is the second. -/
theorem lowerInRange : 0x7FFFF000 < uintWidth := by decide

/-- The pages after the stack is built. -/
theorem buildStack_page (built : m.buildStack blocks argv envp = some (stack, m')) (n : Nat) :
    m'.page n =
    ((m.makePage blocks 0x80000000).makePage blocks 0x7FFFF000).page n := by
  rw [buildStack_eq] at built
  obtain ⟨⟨_, _, _⟩, stored, built⟩ := Option.bind_eq_some_iff.mp built
  cases built
  exact (makeNewStack_same stored).page n

section Build

variable (sound : m.Sound) (built : m.buildStack blocks argv envp = some (stack, m'))

include sound built

/-- The machine is sound after the stack is built. -/
theorem buildStack_sound : m'.Sound := by
  rw [buildStack_eq] at built
  obtain ⟨⟨_, _, _⟩, stored, built⟩ := Option.bind_eq_some_iff.mp built
  cases built
  exact (makeNewStack_same stored).sound
    ((sound.makePage blocks upperInRange).makePage blocks lowerInRange)

/-- A page of the stack that was not there belongs to the task afterwards. -/
theorem buildStack_fresh (member : n ∈ [0x80000, 0x7FFFF]) (unmapped : (m.page n).frame = 0) :
    m'.IsUser n ∧ (m'.page n).frame ≠ 0 := by
  have upper : 0x80000000 / frameSize = 0x80000 := by decide
  have lower : 0x7FFFF000 / frameSize = 0x7FFFF := by decide
  have sound₁ := sound.makePage blocks upperInRange
  have first := sound.makePage_page blocks upperInRange n
  have second := sound₁.makePage_page blocks lowerInRange n
  rw [upper] at first
  rw [lower] at second
  have given (m : Machine) (sound : m.Sound)
      (page : m'.page n = { flags := userFlags % pageFlags, frame := m.nextFrame }) :
      m'.IsUser n ∧ (m'.page n).frame ≠ 0 := by
    have user : userFlags % pageFlags &&& pageFlagUser ≠ 0 := by decide
    unfold IsUser
    rw [page]
    exact ⟨user, sound.nextFrame.1⟩
  rw [← buildStack_page built] at second
  by_cases top : n = 0x80000
  · rw [if_pos ⟨top, unmapped⟩] at first
    rw [first, if_neg fun both => sound.nextFrame.1 both.2] at second
    exact given m sound second
  · have bottom : n = 0x7FFFF := by simpa [top] using member
    rw [if_neg fun both => top both.1] at first
    rw [first, if_pos ⟨bottom, unmapped⟩] at second
    exact given _ sound₁ second

/-- If the memory of the task is the same, its stack had been mapped. -/
theorem SameUser.mapped (same : SameUser m m') :
    ∀ n ∈ [0x80000, 0x7FFFF], (m.page n).frame ≠ 0 := by
  intro n member unmapped
  obtain ⟨user, nonzero⟩ := buildStack_fresh sound built member unmapped
  rw [same.pages n (.inr user)] at nonzero
  exact nonzero unmapped

end Build

/-- A stack that is mapped is not mapped again. -/
theorem buildStack_of_mapped (sound : m.Sound)
    (mapped : ∀ n ∈ [0x80000, 0x7FFFF], (m.page n).frame ≠ 0) :
    m.buildStack blocks argv envp = (makeNewStack argv envp userStackPos m).bind fun built =>
      some (built.1, built.2.1) := by
  have upper : 0x80000000 / frameSize = 0x80000 := by decide
  have lower : 0x7FFFF000 / frameSize = 0x7FFFF := by decide
  have first : m.makePage blocks 0x80000000 = m :=
    sound.makePage_of_held blocks (upper ▸ mapped _ (by decide))
  have second : m.makePage blocks 0x7FFFF000 = m :=
    sound.makePage_of_held blocks (lower ▸ mapped _ (by decide))
  rw [buildStack_eq, first, second]

/-- A stack that is there is built without a change. -/
theorem StackThere.buildStack (there : m.StackThere argv envp) (sound : m.Sound) :
    ∃ stack, stack ≠ stackNomem ∧ m.buildStack blocks argv envp = some (stack, m) := by
  obtain ⟨stack, reads, proper, built⟩ := there.block.makeNewStack
  refine ⟨stack, proper, ?_⟩
  rw [buildStack_of_mapped sound there.mapped, built]
  rfl

/-- A stack that is built without a change to the memory of the task was there. -/
theorem Guarded.stackThere {g : Nat} (guarded : m.Guarded g) (sound : m.Sound)
    (argSmall : argv < uintWidth) (envSmall : envp < uintWidth)
    (built : m.buildStack blocks argv envp = some (stack, m')) (same : SameUser m m') :
    m' = m ∧ m.StackThere argv envp := by
  have mapped := SameUser.mapped sound built same
  rw [buildStack_of_mapped sound mapped] at built
  obtain ⟨⟨stack', m'', reads⟩, made, built⟩ := Option.bind_eq_some_iff.mp built
  simp only [Option.some.injEq, Prod.mk.injEq] at built
  obtain ⟨rfl, rfl⟩ := built
  obtain ⟨t, mem, follows, replays, rfl⟩ := makeNewStack_eq_some.mp ⟨reads, made⟩
  have absent {a : Nat} (none : m.translate a = none) (v : BitVec 8) : .store a v ∉ t := by
    intro member
    have behind := replays.placed a v member
    rw [none] at behind
    cases behind
  have low : g < userStackPos := Nat.lt_trans guarded.low (by decide)
  have once := makeNewStack_once (absent guarded.free) low (by decide) (by decide) follows
    (absent guarded.last)
  have quiet (a : Nat) (v : BitVec 8) (member : .store a v ∈ t) : m.byte a = some v := by
    obtain ⟨above, below, single⟩ := once a v member
    obtain ⟨q, place⟩ := Option.isSome_iff_exists.mp (replays.placed a v member)
    obtain ⟨user, nonzero⟩ := guarded.own a above below (Option.isSome_of_eq_some place)
    have stored := replays.stored member place fun b w other here => by
      obtain rfl := sound.translate_inj nonzero place here
      exact single w other
    rw [← same.bytes a user]
    show (m.translate a).map mem = some v
    rw [place, Option.map_some, stored]
  obtain ⟨rfl, sees⟩ := replays.quiet quiet
  have last : m.byte (uintWidth - 1) = none := congrArg (Option.map _) guarded.last
  exact ⟨rfl, mapped, blockThere_of_quiet last argSmall envSmall low (absent guarded.free) follows
    sees quiet⟩

/-- An image is refused by the first call, and nothing is loaded, or by the second. -/
theorem loadImage_error {status : Int}
    (ran : m.loadImage blocks pages turns image = some (.error status, m')) :
    m' = m ∧ m.Refuses blocks image ∨ m.RefusesLate m' blocks pages turns image := by
  unfold loadImage at ran
  obtain ⟨checked, first, ran⟩ := Option.bind_eq_some_iff.mp ran
  have still := loadElf_still first
  by_cases success : checked.code = .success
  · rw [if_neg (not_not.mpr success), still] at ran
    obtain ⟨loaded, second, ran⟩ := Option.bind_eq_some_iff.mp ran
    by_cases success' : loaded.code = .success
    · rw [if_neg (not_not.mpr success')] at ran
      cases ran
    · rw [if_pos success'] at ran
      cases ran
      exact .inr ⟨⟨checked, first, success⟩, loaded, second, success', rfl⟩
  · rw [if_pos success] at ran
    cases ran
    exact .inl ⟨still, pages, turns, checked, first, success⟩

/-- The second call refuses no image in a buffer that no loadable range meets. -/
theorem HoldsImage.not_late {size : Nat} (held : m.HoldsImage image size) (sound : m.Sound) :
    ¬m.RefusesLate m' blocks pages turns image := by
  rintro ⟨⟨checked, first, success⟩, loaded, second, failure, _⟩
  obtain ⟨⟨checked', first', codes, _⟩, _⟩ := held.agree sound second
  rw [first] at first'
  cases first'
  exact failure (codes.symm.trans success)

/-- An image that is refused early is not refused late. -/
theorem RefusesEarly.not_late (early : m.RefusesEarly blocks image) (sound : m.Sound) :
    ¬m.RefusesLate m' blocks pages turns image := by
  rcases early with ⟨pages', turns', checked, first, failure⟩ | ⟨size, held⟩
  · rintro ⟨⟨checked', first', success⟩, _⟩
    exact failure ((loadElf_unique first first').trans success)
  · exact held.not_late sound

/-- An image that the first call refuses is refused by the two calls, and nothing is loaded. -/
theorem Refuses.loadImage (refuses : m.Refuses blocks image) :
    ∃ pages turns, m.loadImage blocks pages turns image = some (.error (-ENOEXEC), m) := by
  obtain ⟨pages, turns, checked, first, failure⟩ := refuses
  refine ⟨pages, turns, ?_⟩
  have still := loadElf_still first
  rw [Machine.loadImage, first]
  change (if checked.code ≠ .success then _ else _) = _
  rw [if_pos failure, still]

end Machine

namespace ExecWorld

variable {w w' : ExecWorld} {s : ExecServices} {file : CString} {node argv envp : Nat}

/-- `do_exec` once the stack is built. -/
theorem doExec_of_built {stack : Nat} {m : Machine} (pages turns : Nat)
    (built : (w.readImage s node).2.buildStack s.blocks argv envp = some (stack, m)) :
    w.doExec s pages turns node argv envp =
      w.startImage s pages turns (w.readImage s node).1 stack m := by
  rw [doExec, built]
  rfl

/-- `do_exec` fails when the first call refuses the image. -/
theorem doExec_fails {stack : Nat} {m : Machine}
    (built : (w.readImage s node).2.buildStack s.blocks argv envp = some (stack, m))
    (enough : stack ≠ stackNomem) (refuses : m.Refuses s.blocks (w.readImage s node).1) :
    ∃ pages turns, w.doExec s pages turns node argv envp =
      some ({ w with machine := s.free (w.readImage s node).1 m }, -ENOEXEC) := by
  obtain ⟨pages, turns, refused⟩ := refuses.loadImage
  refine ⟨pages, turns, ?_⟩
  rw [doExec_of_built _ _ built, startImage, if_neg enough, refused]
  rfl

/-- When `do_exec` fails, but not late, memory is that with the stack. -/
theorem doExec_failed {pages turns : Nat} {status : Int} {stack : Nat} {m : Machine}
    (built : (w.readImage s node).2.buildStack s.blocks argv envp = some (stack, m))
    (sound : m.Sound) (early : m.RefusesEarly s.blocks (w.readImage s node).1)
    (ran : w.doExec s pages turns node argv envp = some (w', status)) (failed : status ≠ 0) :
    w' = { w with machine := s.free (w.readImage s node).1 m } := by
  rw [doExec_of_built _ _ built, startImage] at ran
  by_cases nomem : stack = stackNomem
  · rw [if_pos nomem] at ran
    cases ran
    rfl
  · rw [if_neg nomem] at ran
    obtain ⟨⟨result, m'⟩, loaded, ran⟩ := Option.map_eq_some_iff.mp ran
    cases result with
    | error status' =>
      cases ran
      rcases Machine.loadImage_error loaded with ⟨rfl, _⟩ | late
      · rfl
      · exact absurd late (early.not_late sound)
    | ok entry => exact absurd (congrArg Prod.snd ran).symm failed

/-- Up to the new stack the memory of the task is as it was. -/
theorem StoresInKernel.sameUser (stores : w.StoresInKernel s node) (buf : Nat) (m' : Machine) :
    Machine.SameUser w.machine (s.free buf m') ↔ Machine.SameUser (w.readImage s node).2 m' := by
  have before := stores.malloc.trans stores.read
  have after := stores.free buf m'
  exact ⟨fun same => (before.symm.trans same).trans after.symm,
    fun same => (before.trans same).trans after⟩

section Execve

variable (stores : (w.nodeAt s file).1 ≠ 0 →
  (w.resolved s file).StoresInKernel s (w.nodeAt s file).1)

include stores

/-- If the calling task is ready for that, a failed `sys_execve` leaves it as it was. -/
theorem ExecReady.failsCleanly (ready : w.ExecReady s file argv envp) :
    w.FailsCleanly s file argv envp := by
  intro pages turns w' status ran failed
  by_cases null : (w.nodeAt s file).1 = 0
  · rw [sysExecve, if_pos null] at ran
    cases ran
    exact ⟨.refl _, rfl, rfl, rfl, rfl⟩
  · obtain ⟨there, early⟩ := ready.resolve_left null
    have kernel := stores null
    rw [sysExecve, if_neg null] at ran
    obtain ⟨⟨w₁, status₁⟩, did, ran⟩ := Option.map_eq_some_iff.mp ran
    cases ran
    obtain ⟨stack, _, built⟩ := there.buildStack kernel.sound
    obtain rfl := doExec_failed built kernel.sound early did failed
    exact ⟨(kernel.sameUser _ _).mpr (.refl _), rfl, rfl, rfl, rfl⟩

/-- If a failed call leaves it as it was, it was ready. -/
theorem ExecReady.of_unharmed {pages turns : Nat} {status : Int}
    (ran : w.sysExecve s pages turns file argv envp = some (w', status)) (failed : status ≠ 0)
    (ordinary : (w.nodeAt s file).1 ≠ 0 →
      (w.resolved s file).Ordinary s (w.nodeAt s file).1 argv envp)
    (unharmed : Unharmed w w') : w.ExecReady s file argv envp := by
  by_cases null : (w.nodeAt s file).1 = 0
  · exact .inl null
  · have kernel := stores null
    obtain ⟨argSmall, envSmall, ⟨g, guarded⟩, early⟩ := ordinary null
    rw [sysExecve, if_neg null] at ran
    obtain ⟨⟨w₁, status₁⟩, did, ran⟩ := Option.map_eq_some_iff.mp ran
    cases ran
    obtain ⟨⟨stack, m⟩, built, _⟩ := Option.bind_eq_some_iff.mp did
    have sound := Machine.buildStack_sound kernel.sound built
    obtain rfl := doExec_failed built sound (early stack m built) did failed
    have same := (kernel.sameUser _ m).mp unharmed.user
    obtain ⟨rfl, there⟩ := guarded.stackThere kernel.sound argSmall envSmall built same
    exact .inr ⟨there, early stack _ built⟩

/-- A failed `sys_execve` leaves the calling task as it was if there is no such file or the stack that
is built was there and the image is not refused late; and in an ordinary call only then. -/
theorem sysExecve_failsCleanly_iff :
    (w.ExecReady s file argv envp → w.FailsCleanly s file argv envp) ∧
    ∀ pages turns w' status, w.sysExecve s pages turns file argv envp = some (w', status) →
      status ≠ 0 → ((w.nodeAt s file).1 ≠ 0 →
        (w.resolved s file).Ordinary s (w.nodeAt s file).1 argv envp) →
      (Unharmed w w' ↔ w.ExecReady s file argv envp) :=
  ⟨ExecReady.failsCleanly stores, fun pages turns w' status ran failed ordinary =>
    ⟨ExecReady.of_unharmed stores ran failed ordinary,
      fun ready => ready.failsCleanly stores pages turns w' status ran failed⟩⟩

end Execve

/-! ## A file that cannot be run -/

/-- A file of four zeros. -/
def zerosNode : Vnode := { ino := 1, count := 1, sb := 0, attributes := { size := 4 } }

/-- There is one file. -/
def zerosKernel : Kernel where
  tasks _ := {}
  vfs := { vnode := (∅ : Store Vnode).insert 1 zerosNode }

/-- Every path resolves to the file, which is read over four zeros. -/
def zerosServices : ExecServices where
  namei vfs _ _ := (vfs, 1, 0)
  malloc _ m := (512, m)
  free _ m := m
  fOp _ := { read := some fun _ size _ m => (m, size) }
  blocks := FirstPages.blocks

/-- A task that executes the file. -/
def zerosWorld (machine : Machine) : ExecWorld :=
  { kernel := zerosKernel, machine, globRegs := some {} }

/-- The file is read. -/
theorem zerosWorld_readImage (m : Machine) :
    (zerosWorld m).readImage zerosServices 1 = (512, m) := by
  have dir : ¬(zerosKernel.isDir 1 = true) := by decide
  unfold readImage readFs transferFs zerosWorld
  change (512, (if zerosKernel.isDir 1 = true then _ else _ : Machine × Int).1) = (512, m)
  rw [if_neg dir]
  rfl

/-- Four zeros are refused. -/
theorem loadElf_zeros {m : Machine} (found : m.field 512 eiMagic = some 0) (pages turns : Nat)
    (pretend : Bool) : m.loadElf FirstPages.blocks pages turns 512 pretend =
      some { code := .noelf, machine := m, reads := [eiMagic.span 512] } := by
  refine Machine.loadElf_of_fails (by decide) ?_ (by decide)
  rw [headerTests, Machine.testHeader, found]
  rfl

/-- The stack for an empty vector, in the frame of its second page. -/
def emptyStack : Bytes := fun a =>
  if a = 0x3FF4 then 0xFC else if a = 0x3FF5 ∨ a = 0x3FF6 then 0xFF else if a = 0x3FF7 then 0x7F
  else 0

/-- The allocator and the file system of the example store nothing. -/
theorem zerosWorld_stores {m : Machine} (sound : m.Sound) :
    ((zerosWorld m).resolved zerosServices []).StoresInKernel zerosServices 1 := by
  have read : ((zerosWorld m).resolved zerosServices []).readImage zerosServices 1 = (512, m) :=
    zerosWorld_readImage m
  refine ⟨.refl _, ?_, fun _ _ => .refl _, ?_⟩
  · rw [read]
    exact .refl _
  · rw [read]
    exact sound

/-- When the stack is all zeros, its bytes change and the file is refused. -/
theorem zerosWorld_fails : ∃ pages turns w', (zerosWorld (stackMachine fun _ => 0)).sysExecve
    zerosServices pages turns [] 4096 0 = some (w', -ENOEXEC) ∧
      ¬Unharmed (zerosWorld (stackMachine fun _ => 0)) w' := by
  have stored : ((stackMachine fun _ => 0).buildStack FirstPages.blocks 4096 0).map (fun built =>
      (built.1, built.2.field 512 eiMagic, built.2.byte 0x7FFFFFF4)) =
        some (0x7FFFFFF0, some 0, some 0xFC) := by decide
  have user : (stackMachine fun _ => 0).IsUser (0x7FFFFFF4 / frameSize) := by
    unfold Machine.IsUser
    decide
  have zero : (stackMachine fun _ => 0).byte 0x7FFFFFF4 = some 0 := by decide
  generalize stackMachine (fun _ => 0) = m at *
  obtain ⟨⟨stack, m'⟩, built, facts⟩ := Option.map_eq_some_iff.mp stored
  simp only [Prod.mk.injEq] at facts
  obtain ⟨rfl, magic, changed⟩ := facts
  have read : ((zerosWorld m).resolved zerosServices []).readImage zerosServices 1 = (512, m) :=
    zerosWorld_readImage m
  have refuses : m'.Refuses FirstPages.blocks 512 :=
    ⟨0, 0, _, loadElf_zeros magic 0 0 true, LoadElf.noConfusion⟩
  obtain ⟨pages, turns, ran⟩ := @doExec_fails ((zerosWorld m).resolved zerosServices []) zerosServices
    1 4096 0 _ m' (by rw [read]; exact built) (by decide) (by rw [read]; exact refuses)
  have step : (zerosWorld m).sysExecve zerosServices pages turns [] 4096 0 =
      (((zerosWorld m).resolved zerosServices []).doExec zerosServices pages turns 1 4096 0).map
        fun done => (done.1.putNode 1, done.2) := if_neg Nat.one_ne_zero
  rw [ran] at step
  refine ⟨pages, turns, _, step, fun unharmed => ?_⟩
  have same := unharmed.user.bytes _ user
  rw [read] at same
  have equal : m'.byte 0x7FFFFFF4 = m.byte 0x7FFFFFF4 := same
  rw [changed, zero] at equal
  revert equal
  decide

/-- A file of four zeros is executed on top of the stack of an earlier attempt, which stays as it is;
on top of zeros, the call is not ready for its failure. -/
theorem sysExecve_failsCleanly_iff_again :
    (zerosWorld (stackMachine emptyStack)).FailsCleanly zerosServices [] 4096 0 ∧
      ¬(zerosWorld (stackMachine fun _ => 0)).ExecReady zerosServices [] 4096 0 := by
  constructor
  · have sound := stackMachine_sound emptyStack
    refine (sysExecve_failsCleanly_iff fun _ => zerosWorld_stores sound).1 (.inr ?_)
    have read : ((zerosWorld (stackMachine emptyStack)).resolved zerosServices []).readImage
      zerosServices 1 = (512, stackMachine emptyStack) := zerosWorld_readImage _
    have words : (stackMachine emptyStack).VectorAt 4096 [] :=
      ⟨by decide, by decide, by unfold Machine.WordsAt; decide, by decide, by simp⟩
    have magic : (stackMachine emptyStack).field 512 eiMagic = some 0 := by decide
    change (Machine.StackThere (readImage _ _ 1).2 _ _) ∧
      Machine.RefusesEarly (readImage _ _ 1).2 _ (readImage _ _ 1).1
    rw [read]
    refine ⟨⟨by decide, some [], none, 0, words, rfl, by decide, by decide, ?_⟩, .inl ?_⟩
    · unfold Machine.HoldsAt
      decide
    · exact ⟨0, 0, _, loadElf_zeros magic 0 0 true, LoadElf.noConfusion⟩
  · obtain ⟨pages, turns, w', ran, harmed⟩ := zerosWorld_fails
    have sound := stackMachine_sound fun _ => 0
    refine fun ready => harmed (((sysExecve_failsCleanly_iff fun _ => zerosWorld_stores sound).2 pages
      turns w' _ ran (by decide) fun _ => ?_).mpr ready)
    have read : ((zerosWorld (stackMachine fun _ => 0)).resolved zerosServices []).readImage
      zerosServices 1 = (512, stackMachine fun _ => 0) := zerosWorld_readImage _
    have page : ((stackMachine fun _ => 0).page 0x7FFFF).flags &&& pageFlagUser ≠ 0 ∧
      ((stackMachine fun _ => 0).page 0x7FFFF).frame ≠ 0 := by decide
    have magic : ((stackMachine fun _ => 0).buildStack FirstPages.blocks 4096 0).map (fun built =>
      built.2.field 512 eiMagic) = some (some 0) := by decide
    refine ⟨by decide, by decide, ⟨0x7FFFEFFF, ?_⟩, fun stack m built => .inl ?_⟩
    · change Machine.Guarded (readImage _ _ 1).2 _
      rw [read]
      refine ⟨by decide, by decide, by decide, fun a low high _ => ?_⟩
      rw [show a / frameSize = 0x7FFFF by unfold userStackPos at high; unfold frameSize; omega]
      exact page
    · change Machine.buildStack _ _ _ (readImage _ _ 1).2 = _ at built
      change m.Refuses _ (readImage _ _ 1).1
      rw [read] at built ⊢
      have there : ((stackMachine fun _ => 0).buildStack FirstPages.blocks 4096 0) =
        some (stack, m) := built
      rw [there] at magic
      exact ⟨0, 0, _, loadElf_zeros (Option.some.inj magic) 0 0 true, LoadElf.noConfusion⟩

/-- A file of four zeros is refused, and a byte of the stack has changed. -/
theorem sysExecve_failsCleanly_not :
    ¬(zerosWorld (stackMachine fun _ => 0)).FailsCleanly zerosServices [] 4096 0 := by
  intro clean
  obtain ⟨pages, turns, w', ran, harmed⟩ := zerosWorld_fails
  exact harmed (clean pages turns w' _ ran (by decide))

end ExecWorld

end Nupkux
