import Egos.Earth.Mmu

/-!
# The ELF loader

Translation of `library/elf/elf.c`. A reader gives the 512 bytes of a block of the executable. The
headers are read from the first block; what a program header past its end would be read from is not
known, and the bytes that a reader gives past 512 stand for it.
-/

namespace Egos.Library

open Egos.Earth

/-- `BLOCK_SIZE`. -/
abbrev blockSize : ℕ := 512

/-- `APPS_ENTRY`. -/
abbrev appsEntry : ℕ := grassEntry + grassSize

/-- `APPS_SIZE`. -/
abbrev appsSize : ℕ := 16 * 1024

/-- `APPS_ARG`, at the start of the 8K below the kernel stack. -/
abbrev appsArg : ℕ := grassStackBottom - 6 * 1024 - 1024 - 1024

/-- `CMD_NARGS`. -/
abbrev cmdNargs : ℕ := 16

/-- `CMD_ARG_LEN`. -/
abbrev cmdArgLen : ℕ := 32

/-- `elf_reader`: the bytes of a block. -/
abbrev Reader : Type := ℤ → ℕ → UInt8

/-- `reader(block_no, dst)`; the block number is passed as an `int`. -/
def Reader.read (reader : Reader) (blockNo dst : ℕ) (s : Mmu) : Mmu :=
  { s with mem := s.mem.blit dst blockSize (reader ((blockNo : ℤ).bmod (2 ^ 32))) }

/-! ## Headers -/

/-- The fields of `struct elf64_program_header` that the loader reads. -/
structure ProgramHeader where
  pOffset : ℕ
  pVaddr : ℕ
  pFilesz : ℕ
  pMemsz : ℕ

/-- `header->e_phnum`. -/
def ePhnum (buf : Memory) : ℕ := buf.readLE 56 2

/-- `pheader[i]`; a program header has 56 bytes. -/
def programHeader (buf : Memory) (i : ℕ) : ProgramHeader :=
  let addr := buf.readLE 32 8 + 56 * i
  { pOffset := buf.readLE (addr + 8) 8
    pVaddr := buf.readLE (addr + 16) 8
    pFilesz := buf.readLE (addr + 32) 8
    pMemsz := buf.readLE (addr + 40) 8 }

/-! ## Loading -/

/-- The loop of `load_grass` with `n` blocks to go. -/
def loadGrassBlocks (reader : Reader) : ℕ → ℕ → ℕ → MmuM Unit
  | 0, _, _ => pure ()
  | n + 1, blockOffset, off => do
    modify (reader.read blockOffset (grassEntry + off))
    loadGrassBlocks reader n (blockOffset + 1) (off + blockSize)

/-- The number of blocks that hold `size` bytes. -/
def blocksFor (size : ℕ) : ℕ := (size + 511) / 512

/-- `load_grass`. -/
def loadGrass (reader : Reader) (ph : ProgramHeader) : MmuM Unit := do
  loadGrassBlocks reader (blocksFor ph.pFilesz) (ph.pOffset / blockSize) 0
  modify fun s => { s with
    mem := s.mem.memset (grassEntry + ph.pFilesz) 0 ((grassSize + 2 ^ 64 - ph.pFilesz) % 2 ^ 64) }

/-- `earth->mmu_alloc(&frame_no, &base); earth->mmu_map(pid, page_no, frame_no)`. -/
def mapNext (translation : Translation) (pid : ℤ) (pageNo : ℕ) : MmuM ℕ := do
  let (frameNo, base) ← mmuAlloc
  mmuMap translation pid pageNo frameNo
  pure base

section loadApp

variable (translation : Translation) (pid : ℤ) (reader : Reader)

/-- One round of the first loop of `load_app`: the next page if the last one is full. It returns
`code_start` and `base`. -/
def loadAppPage (off codeStart base : ℕ) : MmuM (ℕ × ℕ) :=
  if off % pageSize = 0 then do
    let base ← mapNext translation pid codeStart
    pure (codeStart + 1, base)
  else pure (codeStart, base)

/-- The first loop of `load_app` with `n` blocks to go. -/
def loadAppBlocks : ℕ → ℕ → ℕ → ℕ → ℕ → MmuM (ℕ × ℕ)
  | 0, _, _, codeStart, base => pure (codeStart, base)
  | n + 1, blockOffset, off, codeStart, base => do
    let (codeStart, base) ← loadAppPage translation pid off codeStart base
    modify (reader.read blockOffset (base + off % pageSize))
    loadAppBlocks n (blockOffset + 1) (off + blockSize) codeStart base

/-- The second loop of `load_app`, which maps pages of zeros, with `n` pages to go. -/
def loadAppZeros : ℕ → ℕ → MmuM Unit
  | 0, _ => pure ()
  | n + 1, codeStart => do
    let base ← mapNext translation pid codeStart
    modify fun s => { s with mem := s.mem.memset base 0 pageSize }
    loadAppZeros n (codeStart + 1)

/-- The loop of `load_app` that sets `argv[i]` and those after it, with `n` to go. -/
def loadAppArgv (argvAddr : ℕ) : ℕ → ℕ → MmuM Unit
  | 0, _ => pure ()
  | n + 1, i => do
    modify fun s => { s with
      mem := s.mem.writeLE (argvAddr + 8 * i) 8 (appsArg + 4 + 8 * cmdNargs + i * cmdArgLen) }
    loadAppArgv argvAddr n (i + 1)

/-- `load_app`; `argv` is the array of argument strings, or a null pointer. -/
def loadApp (argc : ℕ) (argv : Option (ℕ → UInt8)) (ph : ProgramHeader) : MmuM Unit := do
  let (codeStart, base) ← loadAppBlocks translation pid reader (blocksFor ph.pFilesz)
    (ph.pOffset / blockSize) 0 (appsEntry >>> 12) 0
  modify fun s =>
    if ph.pFilesz % pageSize ≠ 0 then
      let filled := ph.pFilesz % pageSize
      { s with mem := s.mem.memset (base + filled) 0 (pageSize - filled) }
    else s
  loadAppZeros translation pid (((appsEntry + appsSize) >>> 12) - codeStart) codeStart
  let base ← mapNext translation pid (appsArg >>> 12)
  modify fun s => { s with mem := s.mem.writeLE base 4 argc }
  modify fun s =>
    match argv with
    | some args => { s with
        mem := s.mem.blit (base + 4 + 8 * cmdNargs) (argc * cmdArgLen) args }
    | none => s
  loadAppArgv (base + 4) argc 0
  let _ ← mapNext translation pid ((appsArg >>> 12) + 1)
  pure ()

/-- `"%.8x"` of the low 32 bits of a number. -/
def hex8 (n : ℕ) : String :=
  let digits := Nat.toDigits 16 (n % 2 ^ 32)
  String.ofList (List.replicate (8 - digits.length) '0' ++ digits)

/-- One round of the loop of `elf_load`. The message shows the address of the first program
header. -/
def elfLoadSegment (argc : ℕ) (argv : Option (ℕ → UInt8)) (buf : Memory) (i : ℕ) : MmuM Unit :=
  if (programHeader buf i).pMemsz = 0 then pure ()
  else if (programHeader buf i).pVaddr = grassEntry then loadGrass reader (programHeader buf i)
  else if (programHeader buf i).pVaddr = appsEntry then
    loadApp translation pid reader argc argv (programHeader buf i)
  else throw ("elf_load: Invalid p_vaddr: 0x" ++ hex8 (programHeader buf 0).pVaddr)

/-- The loop of `elf_load` from program header `i` on, with `n` to go. -/
def elfLoadSegments (argc : ℕ) (argv : Option (ℕ → UInt8)) (buf : Memory) : ℕ → ℕ → MmuM Unit
  | 0, _ => pure ()
  | n + 1, i => do
    elfLoadSegment translation pid reader argc argv buf i
    elfLoadSegments argc argv buf n (i + 1)

/-- `elf_load`. -/
def elfLoad (argc : ℕ) (argv : Option (ℕ → UInt8)) : MmuM Unit :=
  elfLoadSegments translation pid reader argc argv (reader 0) (ePhnum (reader 0)) 0

end loadApp

end Egos.Library
