import Mathlib.Algebra.Order.BigOperators.Group.Finset
import Egos.Apps.ReadErrors
import Egos.Tools.BootImage

/-!
# Commands

`app_spawn` looks up a command in `bin/` and loads the file that it finds there, block by block
through the file server. With the directories that `mkfs` writes, every command is found, and the
process that is started runs the binary that `mkfs` was given for it, whatever other processes do
while it is loaded.
-/

namespace Egos.Tools

open Egos.Earth Egos.Library Egos.Grass Egos.Apps
open Egos.File (Block StoreM FileMap Stores treeBlocks)

/-! ## The file system on the card -/

/-- The file system on the card has the contents of all inodes. -/
def OnCard (host : Host) (s : Sdc) : Prop :=
  ∃ fs F, (∀ off < fsNblocks, Sdc.fsBlock s.image off = fs off) ∧ Stores 2 fsNblocks fs F ∧
    ∀ ino, HoldsInode host F ino

variable {host : Host} {s : Sdc} {ino : ℕ}

/-- The output of `mkfs` is a card with the files of the host. -/
theorem Bootable.onCard {gh : ProgramHeader} {ph : ℕ → ProgramHeader} {out : Output}
    (h : Bootable host gh ph) (hout : main host = some out) (n : ℕ) :
    OnCard host ⟨out.image, n⟩ := by
  obtain ⟨out', hout', -, fs, F, hfs, hstores⟩ := main_spec h.binaries h.files (Host.fits h.space)
  obtain rfl : out = out' := Option.some.inj (hout.symm.trans hout')
  refine ⟨fs, F, fun off hoff => ?_, hstores⟩
  rw [Sdc.fsBlock, sdcStart_fsBlockNo (Nat.lt_trans hoff (by norm_num))]
  exact hfs off hoff

/-- A block that is read does not depend on what was in the buffer. -/
theorem treediskReadInto_of_null {σ : Type} {k : ℕ} {ts : File.TreediskState σ} {off : ℕ}
    {blk : Block} {t t' : σ} (h : File.treediskRead k ts ino off t = .ok (0, blk) t')
    (buf : Block) : File.treediskReadInto k ts ino off buf t = .ok (0, blk) t' := by
  simp only [File.treediskRead, File.treediskReadInto, bind, EStateM.bind] at h ⊢
  cases hsn : File.treediskGetSnapshot ts ino t with
  | error e t₁ =>
    rw [hsn] at h
    cases h
  | ok sn t₁ =>
    rw [hsn] at h
    cases sn with
    | none =>
      cases h
    | some sn =>
      dsimp only at h ⊢
      by_cases hoff : off ≥ sn.nblocks
      · rw [if_pos hoff] at h
        cases h
      · rw [if_neg hoff] at h ⊢
        exact h

/-- The file server returns the blocks of the inodes. -/
theorem OnCard.serverRead (h : OnCard host s) {off : ℕ} (hino : ino < ninode)
    (hoff : off < host.inodeBlocks ino) (hoff' : off < 2 ^ 32) (rest : Block) :
    ∃ blk s', serverRead noFailures rest ino off s = .ok (0, blk) s' ∧ OnCard host s' ∧
      ∀ j : Fin 512, host.isText ino ∨ 512 * off + j.val < (host.inodeBytes ino).length →
        blk j = (host.inodeBytes ino).getD (512 * off + j.val) 0 := by
  obtain ⟨fs, F, himage, hstores, hinodes⟩ := h
  have hino : ino < 128 := Nat.lt_trans hino (by decide)
  obtain ⟨s', hrun⟩ := treediskRead_fsDisk hstores himage hino hoff'
  obtain ⟨N, heads, hrep⟩ := hstores
  have hspec := File.treediskRead_spec (fsDiskArray fs) himage hrep (by norm_num) hino hoff'
  have hinv := (wp_ok hspec hrun).1
  rw [FileMap.read, (hinodes ino).size, if_pos hoff] at hrun
  exact ⟨F.block ino off, s', treediskReadInto_of_null hrun _,
    ⟨fs, F, hinv, ⟨N, heads, hrep⟩, hinodes⟩, (hinodes ino).bytes off hoff⟩

/-- Small numbers are themselves as `unsigned`. -/
theorem unsigned_natCast {n : ℕ} (h : n < 2 ^ 32) : unsigned n = n := by
  rw [unsigned, Int.emod_eq_of_lt (Int.natCast_nonneg n) (by omega), Int.toNat_natCast]

/-! ## `dir_lookup` -/

/-- A directory of the host has an entry, which is not hidden behind an inode number. -/
structure Lists (host : Host) (dir : ℕ) (name : List UInt8) (ino : ℕ) : Prop where
  dir_lt : dir < ninode
  text : host.isText dir
  entries : ∃ es, host.contents dir = dirText es ∧ numberFirst name es = none ∧
    entryIno name es = ino
  size : (host.contents dir).length < 512
  name_ne_nil : name ≠ []
  name_no_space : 32 ∉ name
  name_lt : name.length < (host.contents dir).length

/-- `dir_lookup` on the card finds what the directory lists. -/
theorem Lists.lookup {dir : ℕ} {name : List UInt8} (h : Lists host dir name ino)
    (hs : OnCard host s) (rest : Block) :
    ∃ s', dirLookupRun noFailures rest dir name s = .ok (ino : ℤ) s' ∧ OnCard host s' := by
  have hblocks : host.inodeBlocks dir = 1 := by
    rw [Host.inodeBlocks, if_pos h.dir_lt, if_pos h.text]
  have hdir : dir < 2 ^ 32 := Nat.lt_trans h.dir_lt (by decide)
  obtain ⟨blk, s', hread, hs', hbytes⟩ := hs.serverRead h.dir_lt
    (hblocks.symm ▸ Nat.one_pos) (by decide) rest
  refine ⟨s', ?_, hs'⟩
  rw [dirLookupRun_eq, unsigned_natCast hdir]
  apply map_ok_iff.2
  refine ⟨_, hread, ?_⟩
  have hblk : blk = textBlock (host.contents dir) := by
    funext j
    rw [hbytes j (Or.inl h.text), Host.inodeBytes, if_pos h.text, Nat.mul_zero, Nat.zero_add]
    rfl
  obtain ⟨es, hes, hfirst, hentry⟩ := h.entries
  have hlen := h.name_lt
  have hsize := h.size
  rw [hes] at hblk hlen hsize
  dsimp only
  rw [hblk, dirScan_dirText h.name_ne_nil h.name_no_space hlen (ofFn_textBlock _ hsize), hfirst]
  exact hentry

/-- The lookups of `app_spawn`: `app_ino` of a command. -/
def appIno (f : ReadFailures) (rest rest' : Block) (command : List UInt8) : StoreM Sdc ℤ := do
  let binIno ← dirLookupRun f rest 0 binDir
  dirLookupRun f rest' binIno command

/-- `app_ino` is the inode of the command in `bin/`. -/
theorem appIno_eq {bin : ℕ} {command : List UInt8} (hroot : Lists host 0 binDir bin)
    (hbin : Lists host bin command ino) (hs : OnCard host s) (rest rest' : Block) :
    ∃ s', appIno noFailures rest rest' command s = .ok (ino : ℤ) s' := by
  obtain ⟨s₁, hrun₁, hs₁⟩ := hroot.lookup hs rest
  obtain ⟨s₂, hrun₂, -⟩ := hbin.lookup hs₁ rest'
  refine ⟨s₂, ?_⟩
  simp only [appIno, bind, EStateM.bind]
  rw [show dirLookupRun noFailures rest 0 binDir s = .ok (bin : ℤ) s₁ from hrun₁]
  exact hrun₂

/-! ## `app_read` -/

/-- `app_read` as a reader for `elf_load`, on a card that does not fail; `rest` is what the request
for a block has behind its fields. -/
def appReader (image : ℕ → Block) (rest : ℤ → Block) (tail : ℕ → UInt8) (appIno : ℤ) : Reader :=
  blockReader (fun off => fileReadRun noFailures (rest off) appIno off) image tail

/-- The reader of `app_spawn` reads the executable. -/
theorem reads_appReader {image : ℕ → Block} (rest : ℤ → Block) (tail : ℕ → UInt8)
    (hs : OnCard host ⟨image, 0⟩) (hino : ino < ninode) (hfile : ¬ host.isText ino)
    (hlen : (host.inodeBytes ino).length ≤ 131072) :
    Reads (appReader image rest tail ino) (host.inodeBytes ino) := by
  apply reads_blockReader
  intro b hb
  have hblocks : b < host.inodeBlocks ino := by
    rw [Host.inodeBlocks, if_pos hino, if_neg hfile]
    omega
  have hb' : b < 2 ^ 32 := by omega
  obtain ⟨blk, s', hread, -, hbytes⟩ := hs.serverRead hino hblocks hb' (rest b)
  refine ⟨(0, blk), s', ?_, fun j hj => hbytes j (Or.inr hj)⟩
  rw [fileReadRun_eq, unsigned_natCast hb', unsigned_natCast (Nat.lt_trans hino (by decide))]
  exact map_ok_iff.2 ⟨_, hread, rfl⟩

/-! ## Starting a command -/

section

variable {σ Op : Type} {A : AddressSpaces σ ℤ Op} {M : PrivateMemories A} {t : Translation}

/-- A system that has booted finds a file for a command, and `elf_load` of it is a list of
operations that can be done if there are frames. When they are done, with anything that other
processes do in between, the process that is set ready runs the file with its arguments. -/
structure RunsCommand (L : PageLoader t M) (host : Host) (image : ℕ → Block) (s : σ)
    (command : List UInt8) (ino : ℕ) (ah : ProgramHeader) : Prop where
  found : ∀ n rest rest', ∃ s', appIno noFailures rest rest' command ⟨image, n⟩
    = .ok (ino : ℤ) s'
  loads : ∀ rest tail p argc argv, elfLoad t p (appReader image rest tail ino) argc argv = (do
    let _ ← runOps t p 0 (appOps (appReader image rest tail ino) argc argv ah)
    pure ())
  completes : ∀ rest tail {hart x x₁ p argc} argv, argc ≤ cmdNargs →
    Reach (memStep A) (MemOk M) (bootMem s hart) x → memStep A x .alloc = some x₁ →
    x₁.allocated = some p → ¬ Stops t p (L.mmu x₁.kernel.memory) (codePages ah + 2) →
    ∃ base x₂, Reach (loadStep L p) (LoadOk M)
      ⟨appOps (appReader image rest tail ino) argc argv ah, 0, x₁⟩ ⟨[], base, x₂⟩ ∧
      x₂.kernel.currPid = Grass.gpidProcess
  starts : ∀ {rest tail hart x x₁ x₂ p argc argv base}, argc ≤ cmdNargs →
    Reach (memStep A) (MemOk M) (bootMem s hart) x → memStep A x .alloc = some x₁ →
    x₁.allocated = some p →
    Reach (loadStep L p) (LoadOk M)
      ⟨appOps (appReader image rest tail ino) argc argv ah, 0, x₁⟩ ⟨[], base, x₂⟩ →
    x₂.kernel.currPid = Grass.gpidProcess →
    ∃ ready, memStep A x₂ (.setReady p) = some ready ∧ Started M x₁ p
      (HoldsProgram (segmentOf (host.inodeBytes ino) ah) ah argc argv) ready

/-- A command that is listed in `bin/` can be loaded once the kernel has booted. -/
theorem runsCommand_of_booted {L : PageLoader t M} {image : ℕ → Block} {s : σ} {reader : Reader}
    {ph ah : ProgramHeader} {bin : ℕ} {command : List UInt8} (hs : ∀ n, OnCard host ⟨image, n⟩)
    (hroot : Lists host 0 binDir bin) (hbin : Lists host bin command ino) (hino : ino < ninode)
    (hfile : ¬ host.isText ino) (hlen : (host.inodeBytes ino).length ≤ 131072)
    (hexe : Executable (host.inodeBytes ino) ah appsEntry) (hbooted : Booted L reader ph s) :
    RunsCommand L host image s command ino ah := by
  have hreads rest tail := reads_appReader rest tail (hs 0) hino hfile hlen
  refine ⟨fun n => appIno_eq hroot hbin (hs n), fun rest tail p argc argv => ?_, ?_, ?_⟩
  · exact elfLoad_eq_runOps argv ((hreads rest tail).appImage hexe)
  · intro rest tail hart x x₁ p argc argv hargc hreach halloc hpid henough
    exact loadStep_completes argv hbooted.boots hbooted.untouched hreach halloc hpid
      ((hreads rest tail).appImage hexe) (hexe.size_le hlen) hargc henough
  · intro rest tail hart x x₁ x₂ p argc argv base hargc hreach halloc hpid hload hcurr
    obtain ⟨ready, hready, hstarted⟩ := started_of_loadStep hbooted.boots hbooted.untouched hreach
      halloc hpid (hexe.size_le hlen) hargc hload hcurr
    refine ⟨ready, hready, hstarted.mono fun mem hprogram => ?_⟩
    exact hprogram.image_congr fun k hk => (hreads rest tail).segmentByte hexe hlen hk

end

/-! ## The commands of the release -/

/-- The bytes of a string without its null. -/
def ascii (s : String) : List UInt8 := s.toList.map fun c => UInt8.ofNat c.toNat

/-- `contents`. -/
def contents : ℕ → List UInt8
  | 0 => ascii "./   0 ../   0 home/   1 bin/   6 "
  | 1 => ascii "./   1 ../   0 yunhao/   2 rvr/   3 lorenzo/   4 "
  | 2 => ascii "./   2 ../   1 README   5 "
  | 3 => ascii "./   3 ../   1 "
  | 4 => ascii "./   4 ../   1 "
  | 5 => ascii "With only 2000 lines of code, egos-2000 implements boot loader, microSD driver, " ++
      (ascii "tty driver, memory paging, address translation, interrupt handling, process " ++
      (ascii "scheduling and messaging, system call, file system, shell, 7 user commands and " ++
      ascii "the `mkfs/mkrom` tools."))
  | 6 => ascii "./   6 ../   0 echo   7 cat   8 ls   9 cd  10 pwd  11 clock  12 crash1  13 " ++
      ascii "crash2  14 ult  15 "
  | 7 => ascii "#../build/release/echo.elf"
  | 8 => ascii "#../build/release/cat.elf"
  | 9 => ascii "#../build/release/ls.elf"
  | 10 => ascii "#../build/release/cd.elf"
  | 11 => ascii "#../build/release/pwd.elf"
  | 12 => ascii "#../build/release/clock.elf"
  | 13 => ascii "#../build/release/crash1.elf"
  | 14 => ascii "#../build/release/crash2.elf"
  | 15 => ascii "#../build/release/ult.elf"
  | _ => []

/-- An entry of a directory in `contents`. -/
def entryOf (name : String) (gap : ℕ) (num : String)
    (h : ascii name ≠ [] ∧ 32 ∉ ascii name ∧ 0 ∉ ascii name ∧ ascii num ≠ [] ∧
      ∀ c ∈ ascii num, 48 ≤ c ∧ c ≤ 57) : Entry where
  name := ascii name
  gap
  num := ascii num
  name_ne_nil := h.1
  name_no_space := h.2.1
  name_no_null := h.2.2.1
  num_ne_nil := h.2.2.2.1
  num_digits := h.2.2.2.2

/-- The commands in `bin/`. -/
def commands : List Entry :=
  [entryOf "echo" 2 "7" (by decide +kernel), entryOf "cat" 2 "8" (by decide +kernel),
   entryOf "ls" 2 "9" (by decide +kernel), entryOf "cd" 1 "10" (by decide +kernel),
   entryOf "pwd" 1 "11" (by decide +kernel), entryOf "clock" 1 "12" (by decide +kernel),
   entryOf "crash1" 1 "13" (by decide +kernel), entryOf "crash2" 1 "14" (by decide +kernel),
   entryOf "ult" 1 "15" (by decide +kernel)]

/-- The directory `bin/`. -/
def binEntries : List Entry :=
  entryOf "./" 2 "6" (by decide +kernel) :: entryOf "../" 2 "0" (by decide +kernel) :: commands

/-- The root directory lists `bin/`. -/
theorem lists_root (h : host.contents = contents) : Lists host 0 binDir 6 := by
  have htext : host.isText 0 := by
    rw [Host.isText, h]
    decide +kernel
  refine ⟨by decide, htext, ⟨rootEntries, ?_, rfl, rfl⟩, ?_, by decide, by decide, ?_⟩
  · rw [h]
    decide +kernel
  · rw [h]
    decide +kernel
  · rw [h]
    decide +kernel

/-- Every command is found in `bin/`, and its inode is a file. -/
theorem commands_checked : ∀ e ∈ commands, (numberFirst e.name binEntries).isNone ∧
    entryIno e.name binEntries = e.ino ∧ e.name.length < 94 ∧ e.ino < ninode ∧
    (contents e.ino).head? = some 35 := by
  decide +kernel

/-- The text of `bin/`. -/
theorem contents_bin : contents 6 = dirText binEntries ∧ (contents 6).length = 94 ∧
    (contents 6).head? = some 46 := by
  decide +kernel

/-- `bin/` lists the commands. -/
theorem lists_bin (h : host.contents = contents) {e : Entry} (he : e ∈ commands) :
    Lists host 6 e.name e.ino := by
  obtain ⟨htext, hsize, hfirst⟩ := contents_bin
  obtain ⟨hnone, hentry, hlen, -⟩ := commands_checked e he
  refine ⟨by decide, ?_, ⟨binEntries, ?_, Option.isNone_iff_eq_none.1 hnone, hentry⟩, ?_,
    e.name_ne_nil, e.name_no_space, ?_⟩
  · rw [Host.isText, h, hfirst]
    decide
  · rw [h, htext]
  · rw [h, hsize]
    decide
  · rw [h, hsize]
    exact hlen

section

variable {σ Op : Type} {A : AddressSpaces σ ℤ Op} {M : PrivateMemories A} {t : Translation}
  {gh : ProgramHeader} {ph ah : ℕ → ProgramHeader}

/-- The commands of a system that has booted. -/
theorem runsCommand_of_contents {L : PageLoader t M} {s : σ} {reader : Reader} {out : Output}
    (hhost : Bootable host gh ph) (hout : main host = some out) (h : host.contents = contents)
    (happs : ∀ e ∈ commands, Executable (host.inodeBytes e.ino) (ah e.ino) appsEntry)
    (hbooted : Booted L reader (ph 1) s) {e : Entry} (he : e ∈ commands) :
    RunsCommand L host out.image s e.name e.ino (ah e.ino) := by
  obtain ⟨-, -, -, hino, hhash⟩ := commands_checked e he
  have hfile : ¬ host.isText e.ino := by
    rw [Host.isText, h]
    exact not_not_intro hhash
  exact runsCommand_of_booted (hhost.onCard hout) (lists_root h) (lists_bin h he) hino hfile
    (hhost.files _ hino hfile) (happs e he) hbooted

/-- After boot, there are frames for a command that is not too large. -/
theorem not_stops_booted {L : PageLoader t M} {s : σ} {reader : Reader} {ph ah : ProgramHeader}
    {p : ℤ} (h : Booted L reader ph s) (hp : p < 32)
    (hsize : framesTaken t (codePages ph + 2) + framesTaken t (codePages ah + 2)
      ≤ framesAtEntry t) : ¬ Stops t p (L.mmu s) (codePages ah + 2) := by
  have hframes := h.frames
  rintro (hlt | ⟨-, hbig⟩)
  · omega
  · omega

/-- `GPID_PROCESS` can start a command at once. -/
theorem RunsCommand.first {L : PageLoader t M} {s : σ} {image : ℕ → Block} {command : List UInt8}
    {ah : ProgramHeader} (h : RunsCommand L host image s command ino ah)
    (henough : ¬ Stops t 2 (L.mmu s) (codePages ah + 2)) (hart : Context) :
    ∃ x₁ ready, memStep A (bootMem s hart) .alloc = some x₁ ∧ Started M x₁ 2
      (HoldsProgram (segmentOf (host.inodeBytes ino) ah) ah 0 none) ready := by
  obtain ⟨x₁, halloc, hpid, hmem⟩ : ∃ x₁, memStep A (bootMem s hart) .alloc = some x₁ ∧
      x₁.allocated = some 2 ∧ x₁.kernel.memory = s := ⟨_, rfl, rfl, rfl⟩
  rw [← hmem] at henough
  obtain ⟨base, x₂, hload, hcurr⟩ := h.completes (fun _ _ => 0) (fun _ => 0) none (Nat.zero_le _)
    .init halloc hpid henough
  obtain ⟨ready, -, hstarted⟩ := h.starts (Nat.zero_le _) .init halloc hpid hload hcurr
  exact ⟨x₁, ready, halloc, hstarted⟩

/-- With the software TLB, every command of the release runs its file. -/
theorem soft_tlb_runs_commands (hhost : Bootable host gh ph) (h : host.contents = contents)
    (happs : ∀ e ∈ commands, Executable (host.inodeBytes e.ino) (ah e.ino) appsEntry)
    (rest : ℕ → UInt8) (mem : Memory) :
    ∃ out s, main host = some out ∧
      bootMain .softTlb (kernelReader out.image rest 0) (kernelReader out.image rest 1)
        (Mmu.boot mem) = .ok () s ∧
      ∀ e ∈ commands, RunsCommand softTlbLoader host out.image s e.name e.ino (ah e.ino) := by
  obtain ⟨out, s, hout, -, hrun, hbooted, -⟩ := hhost.softTlb rest mem
  exact ⟨out, s, hout, hrun, fun e he => runsCommand_of_contents hhost hout h happs hbooted he⟩

/-- A text without null characters has no null bytes. -/
theorem null_not_mem_ascii {s : String}
    (h : (s.toList.all fun c => !(c.toNat % 256).beq 0) = true) : 0 ∉ ascii s := by
  intro hmem
  obtain ⟨c, hc, hzero⟩ := List.mem_map.1 hmem
  have hnat : c.toNat % 256 = 0 := by
    have := congrArg UInt8.toNat hzero
    rwa [UInt8.toNat_ofNat'] at this
  have hne := List.all_eq_true.1 h c hc
  rw [hnat] at hne
  cases hne

/-- The files of `mkfs.c` have no null bytes. -/
theorem null_not_mem_contents (ino : ℕ) : 0 ∉ contents ino := by
  unfold contents
  split
  all_goals first
    | exact List.not_mem_nil
    | (repeat' apply List.not_mem_append) <;> exact null_not_mem_ascii (by decide +kernel)

/-- A host with the table `contents`, on which all programs have one byte. -/
def releaseHost : Host where
  kernelProcesses := bootHost.kernelProcesses
  contents := contents
  file _ := oneByteFile 0x70
  buf := smallHost.buf
  null_not_mem := null_not_mem_contents

/-- Executables of one byte each make a bootable card. -/
theorem bootable_releaseHost :
    Bootable releaseHost ⟨512, grassEntry, 1, 1⟩ fun _ => ⟨512, appsEntry, 1, 1⟩ := by
  have hboot := bootable_bootHost
  have hfile : ∀ ino, ¬ releaseHost.isText ino → (releaseHost.inodeBytes ino).length = 513 := by
    intro ino htext
    rw [Host.inodeBytes, if_neg htext]
    exact length_oneByteFile 0x70
  refine ⟨hboot.binaries, fun ino _ htext => ?_, ?_, hboot.kernel, hboot.kernelSize,
    hboot.process⟩
  · rw [hfile ino htext]
    decide
  · -- a text has one block, and the other files have two and an indirect block
    have hblocks : ∀ ino ∈ Finset.range ninode,
        treeBlocks (releaseHost.inodeBlocks ino) ≤ 3 := by
      intro ino hino
      rw [Host.inodeBlocks, if_pos (Finset.mem_range.1 hino)]
      split
      · decide
      · rename_i htext
        rw [hfile ino htext]
        decide
    refine (Finset.sum_le_card_nsmul _ _ 3 hblocks).trans ?_
    decide

/-- All commands of that host are the same executable. -/
theorem inodeBytes_releaseHost {e : Entry} (he : e ∈ commands) :
    releaseHost.inodeBytes e.ino = oneByteFile 0x70 := by
  obtain ⟨-, -, -, -, hhash⟩ := commands_checked e he
  exact if_neg (not_not_intro hhash)

/-- The one segment of these executables. -/
def releaseHeader (_ : ℕ) : ProgramHeader := ⟨512, appsEntry, 1, 1⟩

/-- They are executables for applications. -/
theorem executable_releaseHost {e : Entry} (he : e ∈ commands) :
    Executable (releaseHost.inodeBytes e.ino) (releaseHeader e.ino) appsEntry := by
  rw [inodeBytes_releaseHost he]
  exact bootable_bootHost.process 1 le_rfl (by decide)

/-- `ls`. -/
def lsEntry : Entry := entryOf "ls" 2 "9" (by decide +kernel)

/-- `ls` is a command. -/
theorem lsEntry_mem : lsEntry ∈ commands := .tail _ (.tail _ (.head _))

/-- After boot, `ls` can be started with the byte of its file. -/
theorem started_ls {L : PageLoader t M} {s : σ} {image : ℕ → Block} {reader : Reader}
    (h : RunsCommand L releaseHost image s lsEntry.name lsEntry.ino (releaseHeader lsEntry.ino))
    (hbooted : Booted L reader (releaseHeader 1) s)
    (hsize : framesTaken t 6 + framesTaken t 6 ≤ framesAtEntry t) :
    ∃ x₁ ready, memStep A (bootMem s onStack) .alloc = some x₁ ∧
      Started M x₁ 2 (fun mem => mem appsEntry = 7) ready := by
  have hpages : ∀ n, codePages (releaseHeader n) + 2 = 6 := fun _ =>
    show codePages ⟨512, appsEntry, 1, 1⟩ + 2 = 6 by decide +kernel
  have henough : ¬ Stops t 2 (L.mmu s) (codePages (releaseHeader lsEntry.ino) + 2) := by
    apply not_stops_booted hbooted (by decide)
    rw [hpages, hpages]
    exact hsize
  obtain ⟨x₁, ready, halloc, hstarted⟩ := h.first henough onStack
  refine ⟨x₁, ready, halloc, hstarted.mono fun mem hprogram => ?_⟩
  have hbyte := hprogram.segment 0 Nat.one_pos
  rw [Nat.add_zero, inodeBytes_releaseHost lsEntry_mem] at hbyte
  refine hbyte.trans ?_
  decide +kernel

/-- `ls` is started with the byte of its file. -/
theorem soft_tlb_runs_commands_ls :
    ∃ out s x₁ ready, main releaseHost = some out ∧
      bootMain .softTlb (kernelReader out.image (fun _ => 0) 0)
        (kernelReader out.image (fun _ => 0) 1) (Mmu.boot fun _ => 0) = .ok () s ∧
      memStep softTlbSpaces (bootMem s onStack) .alloc = some x₁ ∧
      Started softTlbMemories x₁ 2 (fun mem => mem appsEntry = 7) ready := by
  obtain ⟨out, s, hout, hrun, hcommands⟩ := soft_tlb_runs_commands bootable_releaseHost rfl
    (fun e he => executable_releaseHost he) (fun _ => 0) fun _ => 0
  obtain ⟨out', s', hout', -, hrun', hbooted, -⟩ :=
    bootable_releaseHost.softTlb (fun _ => 0) fun _ => 0
  obtain rfl : out = out' := Option.some.inj (hout.symm.trans hout')
  obtain rfl : s = s' := by
    rw [hrun] at hrun'
    cases hrun'
    rfl
  obtain ⟨x₁, ready, hls⟩ := started_ls (hcommands lsEntry lsEntry_mem) hbooted (by decide)
  exact ⟨out, s, x₁, ready, hout, hrun, hls⟩

/-- With page tables, every command of the release runs its file. -/
theorem page_table_runs_commands (hhost : Bootable host gh ph) (h : host.contents = contents)
    (happs : ∀ e ∈ commands, Executable (host.inodeBytes e.ino) (ah e.ino) appsEntry)
    (rest : ℕ → UInt8) (mem : Memory) :
    ∃ out m, main host = some out ∧
      bootMain .pageTable (kernelReader out.image rest 0) (kernelReader out.image rest 1)
        (Mmu.boot mem) = .ok () m.mmu ∧
      ∀ e ∈ commands, RunsCommand pageTableLoader host out.image m e.name e.ino (ah e.ino) := by
  obtain ⟨out, m, hout, -, hrun, hbooted, -⟩ := hhost.pageTable rest mem
  exact ⟨out, m, hout, hrun, fun e he => runsCommand_of_contents hhost hout h happs hbooted he⟩

/-- `ls` is found as the file with inode 9. -/
theorem page_table_runs_commands_ls :
    ∃ out, ∃ m : Spaces, main releaseHost = some out ∧
      bootMain .pageTable (kernelReader out.image (fun _ => 0) 0)
        (kernelReader out.image (fun _ => 0) 1) (Mmu.boot fun _ => 0) = .ok () m.mmu ∧
      ∃ s', appIno noFailures (fun _ => 0) (fun _ => 0) (ascii "ls") ⟨out.image, 0⟩
        = .ok 9 s' := by
  obtain ⟨out, m, hout, hrun, hcommands⟩ := page_table_runs_commands bootable_releaseHost rfl
    (fun e he => executable_releaseHost he) (fun _ => 0) fun _ => 0
  have hls := hcommands lsEntry lsEntry_mem
  exact ⟨out, m, hout, hrun, hls.found 0 _ _⟩

end

end Egos.Tools
