import Egos.Grass.Boot
import Egos.Tools.DiskImage

/-!
# Booting from the image

What `mkfs` has written is what runs: the kernel in memory and the programs of the system processes
are the binaries that `mkfs` was given, in both translation modes.
-/

namespace Egos.Tools

open Egos.Earth Egos.Library Egos.Grass
open Egos.File (Block StoreM treeBlocks)

/-! ## Executables -/

/-- The bytes of a file. -/
def fileBytes (file : List UInt8) : Memory := fun k => file.getD k 0

/-- An executable with one nonempty program header. The headers are in the first block and the
segment starts with a block. -/
structure Executable (file : List UInt8) (ph : ProgramHeader) (vaddr : ℕ) : Prop where
  header : 64 ≤ file.length
  headers : (fileBytes file).readLE 32 8 + 56 * ePhnum (fileBytes file) ≤ min 512 file.length
  only : ∃ i, i < ePhnum (fileBytes file) ∧ programHeader (fileBytes file) i = ph ∧
    ∀ j, j < ePhnum (fileBytes file) → j ≠ i → (programHeader (fileBytes file) j).pMemsz = 0
  nonempty : ph.pMemsz ≠ 0
  vaddr : ph.pVaddr = vaddr
  aligned : ph.pOffset % 512 = 0
  inside : ph.pOffset + ph.pFilesz ≤ file.length

/-- The segment of an executable. -/
def segmentOf (file : List UInt8) (ph : ProgramHeader) : ℕ → UInt8 := fun k =>
  fileBytes file (ph.pOffset + k)

/-- A reader gives the bytes of a file, and anything behind its end. -/
def Reads (reader : Reader) (file : List UInt8) : Prop :=
  ∀ b j : ℕ, j < 512 → 512 * b + j < file.length → reader b j = fileBytes file (512 * b + j)

variable {reader : Reader} {file : List UInt8} {ph : ProgramHeader} {vaddr : ℕ}

/-- The fields of a program header are within its 56 bytes. -/
theorem programHeader_congr {buf buf' : Memory} (i : ℕ)
    (haddr : buf'.readLE 32 8 = buf.readLE 32 8)
    (h : ∀ x, x < buf.readLE 32 8 + 56 * (i + 1) → buf' x = buf x) :
    programHeader buf' i = programHeader buf i := by
  have hfield : ∀ o, o + 8 ≤ 56 → buf'.readLE (buf.readLE 32 8 + 56 * i + o) 8
      = buf.readLE (buf.readLE 32 8 + 56 * i + o) 8 := fun o ho =>
    Memory.readLE_congr fun x _ hx => h x (by omega)
  unfold programHeader
  simp only [haddr, hfield 8 (by omega), hfield 16 (by omega), hfield 32 (by omega),
    hfield 40 (by omega)]

section

variable (h : Reads reader file) (hexe : Executable file ph vaddr)

include h

/-- The first block is the start of the file. -/
theorem Reads.zero {x : ℕ} (hx : x < min 512 file.length) : reader 0 x = fileBytes file x := by
  have := h 0 x (by omega) (by omega)
  rwa [Nat.mul_zero, Nat.zero_add] at this

include hexe

/-- The reader sees the number of segments. -/
theorem Reads.ePhnum : ePhnum (reader 0) = ePhnum (fileBytes file) := by
  have hheader := hexe.header
  exact Memory.readLE_congr fun _ _ hx => h.zero (by omega)

/-- It sees their headers. -/
theorem Reads.programHeader {i : ℕ} (hi : i < Library.ePhnum (fileBytes file)) :
    programHeader (reader 0) i = programHeader (fileBytes file) i := by
  have hheader := hexe.header
  have hheaders := hexe.headers
  have haddr : Memory.readLE (reader 0) 32 8 = (fileBytes file).readLE 32 8 :=
    Memory.readLE_congr fun _ _ hx => h.zero (by omega)
  apply programHeader_congr i haddr
  intro x hx
  apply h.zero
  omega

/-- What `elf_load` finds in its buffer is what the file has. -/
theorem Reads.only : ∃ i, i < Library.ePhnum (reader 0) ∧ Library.programHeader (reader 0) i = ph ∧
    ∀ j, j < Library.ePhnum (reader 0) → j ≠ i →
      (Library.programHeader (reader 0) j).pMemsz = 0 := by
  obtain ⟨i, hi, hph, hothers⟩ := hexe.only
  rw [h.ePhnum hexe]
  refine ⟨i, hi, (h.programHeader hexe hi).trans hph, fun j hj hne => ?_⟩
  rw [h.programHeader hexe hj]
  exact hothers j hj hne

/-- It sees the bytes of a segment. -/
theorem Reads.segmentByte (hlen : file.length ≤ 131072) {k : ℕ} (hk : k < ph.pFilesz) :
    segmentByte reader ph k = segmentOf file ph k := by
  have hinside := hexe.inside
  have haligned := hexe.aligned
  have hmod : ((ph.pOffset / 512 + k / 512 : ℕ) : ℤ).bmod (2 ^ 32)
      = ((ph.pOffset / 512 + k / 512 : ℕ) : ℤ) := by
    apply Int.bmod_eq_of_le <;> omega
  have hpos : 512 * (ph.pOffset / 512 + k / 512) + k % 512 = ph.pOffset + k := by omega
  rw [Library.segmentByte, hmod, h _ _ (Nat.mod_lt _ (by decide)) (by omega), hpos]
  rfl

end

/-- An executable for applications is one for the loader. -/
theorem Reads.appImage (h : Reads reader file) (hexe : Executable file ph appsEntry) :
    AppImage reader ph := ⟨h.only hexe, hexe.nonempty, hexe.vaddr⟩

/-- So is the executable of the kernel. -/
theorem Reads.grassImage (h : Reads reader file) (hexe : Executable file ph grassEntry) :
    GrassImage reader ph := ⟨h.only hexe, hexe.nonempty, hexe.vaddr⟩

/-- An executable that fits on the card fits below the arguments. -/
theorem Executable.size_le (h : Executable file ph vaddr) (hlen : file.length ≤ 131072) :
    ph.pFilesz ≤ appsArg - appsEntry := by
  have hinside := h.inside
  change ph.pFilesz ≤ 868352
  omega

/-! ## The kernel binaries -/

/-- A function that reads a block from the card, as a reader for `elf_load`; `rest` is what follows
its buffer. -/
def blockReader (read : ℤ → StoreM Sdc (ℤ × Block)) (image : ℕ → Block) (rest : ℕ → UInt8) :
    Reader := fun blockNo off =>
  match read blockNo ⟨image, 0⟩ with
  | .ok r _ => if h : off < 512 then r.2 ⟨off, h⟩ else rest off
  | .error _ _ => rest off

/-- A reader of blocks reads the file if it reads all its blocks. -/
theorem reads_blockReader {read : ℤ → StoreM Sdc (ℤ × Block)} {image : ℕ → Block}
    {rest : ℕ → UInt8}
    (h : ∀ b : ℕ, 512 * b < file.length → ∃ r s', read b ⟨image, 0⟩ = .ok r s' ∧
      ∀ j : Fin 512, 512 * b + j.val < file.length → r.2 j = fileBytes file (512 * b + j.val)) :
    Reads (blockReader read image rest) file := by
  intro b j hj hlt
  obtain ⟨r, s', hread, hbytes⟩ := h b (by omega)
  rw [blockReader, hread]
  exact (dif_pos hj).trans (hbytes ⟨j, hj⟩ hlt)

/-- The reader that the `i`-th kernel binary is loaded with, for a card that does not fail. -/
def kernelReader (image : ℕ → Block) (rest : ℕ → UInt8) (i : ℕ) : Reader :=
  blockReader (kernelRead noFailures i) image rest

/-- The `i`-th kernel binary is read from where `mkfs` has put it. -/
theorem reads_kernelReader {image : ℕ → Block} {rest : ℕ → UInt8} {i : ℕ} (hi : i < 5)
    (hlen : file.length ≤ 131072)
    (himage : ∀ b, b < 256 → image (grassExecStart + grassExecSegment * i + b)
      = paddedBlock file b) : Reads (kernelReader image rest i) file := by
  apply reads_blockReader
  intro b hb
  have hb : b < 256 := by omega
  obtain ⟨s', hread⟩ := kernelRead_eq hi hb ⟨image, 0⟩
  refine ⟨_, s', hread, fun j _ => ?_⟩
  dsimp only
  rw [himage b hb]
  rfl

/-- What `mkfs` is given makes a system that boots: the binaries are executables for the kernel and
for programs, and everything fits. -/
structure Bootable (host : Host) (gh : ProgramHeader) (ph : ℕ → ProgramHeader) : Prop where
  binaries : ∀ i, i < nkernelProc → 1 ≤ (host.kernelProcesses i).length ∧
    (host.kernelProcesses i).length ≤ execSize
  files : ∀ ino, ino < ninode → ¬ host.isText ino → (host.inodeBytes ino).length ≤ execSize
  space : ∑ ino ∈ Finset.range ninode, treeBlocks (host.inodeBlocks ino) ≤ fsNblocks - 3
  kernel : Executable (host.kernelProcesses 0) gh grassEntry
  kernelSize : gh.pFilesz ≤ grassSize
  process : ∀ i, 1 ≤ i → i < nkernelProc →
    Executable (host.kernelProcesses i) (ph i) appsEntry

/-- The system that is on a card: the kernel and `GPID_PROCESS` are in memory, and whenever
`GPID_PROCESS` loads the binary of another system process, this process runs it. -/
structure BootsFrom {σ Op : Type} {A : AddressSpaces σ ℤ Op} {M : PrivateMemories A}
    {t : Translation} (L : PageLoader t M) (host : Host) (gh : ProgramHeader)
    (ph : ℕ → ProgramHeader) (readers : ℕ → Reader) (s : σ) : Prop where
  boots : Boots L (segmentOf (host.kernelProcesses 0) gh) gh
    (segmentOf (host.kernelProcesses 1) (ph 1)) (ph 1) s
  spawns : ∀ {i hart x x₁ p}, 2 ≤ i → i < nkernelProc →
    Reach (memStep A) (MemOk M) (bootMem s hart) x → memStep A x .alloc = some x₁ →
    x₁.allocated = some p →
    wp (elfLoad t p (readers i) 0 none)
      (fun _ m => ∃ x₂, L.mmu x₂.kernel.memory = m ∧
        (∀ q, q ≠ p → M.view x₂.kernel.memory q = M.view x₁.kernel.memory q) ∧ Started M x₁ p
        (HoldsProgram (segmentOf (host.kernelProcesses i) (ph i)) (ph i) 0 none) x₂)
      (fun _ _ => Stops t p (L.mmu x₁.kernel.memory) (codePages (ph i) + 2))
      (L.mmu x₁.kernel.memory)

section

variable {σ Op : Type} {A : AddressSpaces σ ℤ Op} {M : PrivateMemories A} {t : Translation}
  {L : PageLoader t M} {host : Host} {gh : ProgramHeader} {ph : ℕ → ProgramHeader}
  {readers : ℕ → Reader} {s : σ}

/-- A system that has booted with readers for the binaries. -/
theorem bootsFrom_of_booted (hhost : Bootable host gh ph)
    (hreads : ∀ i, i < nkernelProc → Reads (readers i) (host.kernelProcesses i))
    (hbooted : Booted L (readers 1) (ph 1) s)
    (hkernel : HoldsGrass (segmentByte (readers 0) gh) gh (L.mmu s).mem) :
    BootsFrom L host gh ph readers s := by
  have hlen : ∀ i, i < nkernelProc → (host.kernelProcesses i).length ≤ 131072 := fun i hi =>
    (hhost.binaries i hi).2
  have hsegment : ∀ i, 1 ≤ i → i < nkernelProc → ∀ k, k < (ph i).pFilesz →
      segmentByte (readers i) (ph i) k = segmentOf (host.kernelProcesses i) (ph i) k :=
    fun i hi hi' _ hk => (hreads i hi').segmentByte (hhost.process i hi hi') (hlen i hi') hk
  have h0 : 0 < nkernelProc := by decide
  have h1 : 1 < nkernelProc := by decide
  refine ⟨⟨hkernel.image_congr fun k hk => ?_, ?_, hbooted.frames, bootMem_kernel _,
    hbooted.boots.represented⟩, ?_⟩
  · exact (hreads 0 h0).segmentByte hhost.kernel (hlen 0 h0) hk
  · exact hbooted.program.image_congr (hsegment 1 le_rfl h1)
  · intro i hart x x₁ p hi hi' hreach halloc hpid
    have hi₁ : 1 ≤ i := by omega
    have hexe := hhost.process i hi₁ hi'
    refine wp_mono (started_of_elfLoad (L := L) none hbooted.boots hbooted.untouched hreach halloc
      hpid ((hreads i hi').appImage hexe) (hexe.size_le (hlen i hi')) (Nat.zero_le _)) ?_
      fun _ _ h => h
    rintro _ _ ⟨x₂, rfl, hothers, hstarted⟩
    refine ⟨x₂, rfl, hothers, hstarted.mono fun mem hprogram => ?_⟩
    exact hprogram.image_congr (hsegment i hi₁ hi')

end

/-! ## From `mkfs` to the first process -/

/-- What is on the card is read as the binaries. -/
theorem Bootable.reads {host : Host} {gh : ProgramHeader} {ph : ℕ → ProgramHeader}
    (h : Bootable host gh ph) (rest : ℕ → UInt8) : ∃ out, main host = some out ∧
      ∀ i, i < nkernelProc → Reads (kernelReader out.image rest i) (host.kernelProcesses i) := by
  obtain ⟨out, hout, hkernels, -⟩ := main_spec h.binaries h.files (Host.fits h.space)
  exact ⟨out, hout, fun i hi => reads_kernelReader hi (h.binaries i hi).2 (hkernels i hi)⟩

/-- The system boots with the software TLB. -/
theorem Bootable.softTlb {host : Host} {gh : ProgramHeader} {ph : ℕ → ProgramHeader}
    (hhost : Bootable host gh ph) (rest : ℕ → UInt8) (mem : Memory) :
    ∃ out s, main host = some out ∧
      (∀ i, i < nkernelProc → Reads (kernelReader out.image rest i) (host.kernelProcesses i)) ∧
      bootMain .softTlb (kernelReader out.image rest 0) (kernelReader out.image rest 1)
        (Mmu.boot mem) = .ok () s ∧
      Booted softTlbLoader (kernelReader out.image rest 1) (ph 1) s ∧
      HoldsGrass (segmentByte (kernelReader out.image rest 0) gh) gh s.mem := by
  obtain ⟨out, hout, hreads⟩ := hhost.reads rest
  have h0 : 0 < nkernelProc := by decide
  have h1 : 1 < nkernelProc := by decide
  have hprocess := hhost.process 1 le_rfl h1
  obtain ⟨s, hrun, hbooted⟩ := bootMain_softTlb mem ((hreads 0 h0).grassImage hhost.kernel)
    hhost.kernelSize ((hreads 1 h1).appImage hprocess) (hprocess.size_le (hhost.binaries 1 h1).2)
  exact ⟨out, s, hout, hreads, hrun, hbooted⟩

/-- The system boots with page tables. -/
theorem Bootable.pageTable {host : Host} {gh : ProgramHeader} {ph : ℕ → ProgramHeader}
    (hhost : Bootable host gh ph) (rest : ℕ → UInt8) (mem : Memory) :
    ∃ out m, main host = some out ∧
      (∀ i, i < nkernelProc → Reads (kernelReader out.image rest i) (host.kernelProcesses i)) ∧
      bootMain .pageTable (kernelReader out.image rest 0) (kernelReader out.image rest 1)
        (Mmu.boot mem) = .ok () m.mmu ∧
      Booted pageTableLoader (kernelReader out.image rest 1) (ph 1) m ∧
      HoldsGrass (segmentByte (kernelReader out.image rest 0) gh) gh m.mmu.mem := by
  obtain ⟨out, hout, hreads⟩ := hhost.reads rest
  have h0 : 0 < nkernelProc := by decide
  have h1 : 1 < nkernelProc := by decide
  have hprocess := hhost.process 1 le_rfl h1
  obtain ⟨m, hrun, hbooted⟩ := bootMain_pageTable mem ((hreads 0 h0).grassImage hhost.kernel)
    hhost.kernelSize ((hreads 1 h1).appImage hprocess) (hprocess.size_le (hhost.binaries 1 h1).2)
  exact ⟨out, m, hout, hreads, hrun, hbooted⟩

/-- With the software TLB, the image that `mkfs` makes boots. -/
theorem soft_tlb_boots_image {host : Host} {gh : ProgramHeader} {ph : ℕ → ProgramHeader}
    (hhost : Bootable host gh ph) (rest : ℕ → UInt8) (mem : Memory) :
    ∃ out s, main host = some out ∧
      bootMain .softTlb (kernelReader out.image rest 0) (kernelReader out.image rest 1)
        (Mmu.boot mem) = .ok () s ∧
      BootsFrom softTlbLoader host gh ph (kernelReader out.image rest) s := by
  obtain ⟨out, s, hout, hreads, hrun, hbooted, hkernel⟩ := hhost.softTlb rest mem
  exact ⟨out, s, hout, hrun, bootsFrom_of_booted hhost hreads hbooted hkernel⟩

/-- An executable of one byte, for the address `0x40020000` with `page` as its second byte. -/
def oneByteFile (page : UInt8) : List UInt8 :=
  let zeros (n : ℕ) : List UInt8 := List.replicate n 0
  -- `e_phoff`, `e_phnum`, and the fields of the program header
  zeros 32 ++ [64] ++ zeros 23 ++ [1] ++ zeros 16 ++ [2] ++ zeros 7 ++ [page, 2, 0x40] ++
    zeros 12 ++ [1] ++ zeros 7 ++ [1] ++ zeros 407 ++ [7]

/-- A file with a header and one byte. -/
theorem length_oneByteFile (page : UInt8) : (oneByteFile page).length = 513 := by
  simp only [oneByteFile, List.length_append, List.length_replicate, List.length_cons,
    List.length_nil]

/-- What has to be checked of it. -/
structure OneHeader (file : List UInt8) (vaddr : ℕ) : Prop where
  addr : (fileBytes file).readLE 32 8 = 64
  count : ePhnum (fileBytes file) = 1
  offset : (fileBytes file).readLE 72 8 = 512
  vaddr : (fileBytes file).readLE 80 8 = vaddr
  filesz : (fileBytes file).readLE 96 8 = 1
  memsz : (fileBytes file).readLE 104 8 = 1

/-- It is an executable, with one segment of one byte. -/
theorem executable_oneByteFile {page : UInt8} (h : OneHeader (oneByteFile page) vaddr) :
    Executable (oneByteFile page) ⟨512, vaddr, 1, 1⟩ vaddr := by
  have hlen := length_oneByteFile page
  have hheader : programHeader (fileBytes (oneByteFile page)) 0 = ⟨512, vaddr, 1, 1⟩ := by
    rw [← h.vaddr, ← h.offset]
    unfold programHeader
    rw [h.addr]
    exact congrArg₂ (ProgramHeader.mk _ _) h.filesz h.memsz
  refine ⟨?_, ?_, ⟨0, ?_, hheader, fun j hj hne => ?_⟩, Nat.one_ne_zero, rfl,
    Nat.mod_self 512, ?_⟩
  · rw [hlen]
    decide
  · rw [h.addr, h.count, hlen]
    decide
  · rw [h.count]
    decide
  · rw [h.count] at hj
    omega
  · rw [hlen]
    exact Nat.le_refl 513

/-- The host `smallHost` with binaries that are executables. -/
def bootHost : Host where
  kernelProcesses i := oneByteFile (if i = 0 then 0x40 else 0x70)
  contents := smallHost.contents
  file := smallHost.file
  buf := smallHost.buf
  null_not_mem := smallHost.null_not_mem

/-- A host with such binaries makes a system that boots. -/
theorem bootable_bootHost :
    Bootable bootHost ⟨512, grassEntry, 1, 1⟩ fun _ => ⟨512, appsEntry, 1, 1⟩ := by
  refine ⟨fun i _ => ?_, ?_, ?_, ?_, by decide, fun i hi _ => ?_⟩
  · rw [bootHost]
    dsimp only
    rw [length_oneByteFile]
    decide
  · decide +kernel
  · decide +kernel
  · exact executable_oneByteFile ⟨by decide +kernel, by decide +kernel, by decide +kernel,
      by decide +kernel, by decide +kernel, by decide +kernel⟩
  · rw [bootHost]
    dsimp only
    rw [if_neg (by omega)]
    exact executable_oneByteFile ⟨by decide +kernel, by decide +kernel, by decide +kernel,
      by decide +kernel, by decide +kernel, by decide +kernel⟩

/-- The byte of the kernel is at `GRASS_ENTRY`. -/
theorem soft_tlb_boots_image_one_byte :
    ∃ out s, main bootHost = some out ∧
      bootMain .softTlb (kernelReader out.image (fun _ => 0) 0)
        (kernelReader out.image (fun _ => 0) 1) (Mmu.boot fun _ => 0) = .ok () s ∧
      s.mem grassEntry = 7 := by
  obtain ⟨out, s, hout, hrun, hboots⟩ := soft_tlb_boots_image bootable_bootHost (fun _ => 0)
    fun _ => 0
  have hbyte := hboots.boots.kernel.segment 0 Nat.one_pos
  rw [Nat.add_zero] at hbyte
  refine ⟨out, s, hout, hrun, hbyte.trans ?_⟩
  decide +kernel

/-- With page tables, the image that `mkfs` makes boots. -/
theorem page_table_boots_image {host : Host} {gh : ProgramHeader} {ph : ℕ → ProgramHeader}
    (hhost : Bootable host gh ph) (rest : ℕ → UInt8) (mem : Memory) :
    ∃ out m, main host = some out ∧
      bootMain .pageTable (kernelReader out.image rest 0) (kernelReader out.image rest 1)
        (Mmu.boot mem) = .ok () m.mmu ∧
      BootsFrom pageTableLoader host gh ph (kernelReader out.image rest) m := by
  obtain ⟨out, m, hout, hreads, hrun, hbooted, hkernel⟩ := hhost.pageTable rest mem
  exact ⟨out, m, hout, hrun, bootsFrom_of_booted hhost hreads hbooted hkernel⟩

/-- The byte of `GPID_PROCESS` is at `APPS_ENTRY` of its memory. -/
theorem page_table_boots_image_one_byte :
    ∃ out m, main bootHost = some out ∧
      bootMain .pageTable (kernelReader out.image (fun _ => 0) 0)
        (kernelReader out.image (fun _ => 0) 1) (Mmu.boot fun _ => 0) = .ok () m.mmu ∧
      pageTableMemories.view m Grass.gpidProcess appsEntry = 7 := by
  obtain ⟨out, m, hout, hrun, hboots⟩ := page_table_boots_image bootable_bootHost (fun _ => 0)
    fun _ => 0
  have hbyte := hboots.boots.program.segment 0 Nat.one_pos
  rw [Nat.add_zero] at hbyte
  refine ⟨out, m, hout, hrun, hbyte.trans ?_⟩
  decide +kernel

end Egos.Tools
