import Egos.Common.Memory
import Egos.Earth.Disk
import Egos.File.Append

/-!
# Making the disk image

Translation of `tools/mkfs.c`, a program of the host. It makes a file system in memory, and writes
the disk image: an area for paging, the kernel binaries in segments of 128K, and the file system.
Files of the host are lists of bytes, and every `read` and `write` transfers what it is asked to.
-/

namespace Egos.Tools

open Egos.File Egos.Earth

/-- `GRASS_EXEC_START`. -/
abbrev grassExecStart : ℕ := 2048

/-- `GRASS_EXEC_SEGMENT`. -/
abbrev grassExecSegment : ℕ := 256

/-- `GRASS_EXEC_SIZE / GRASS_NEXEC`. -/
abbrev execSize : ℕ := 131072

/-- `GRASS_NEXEC`. -/
abbrev grassNexec : ℕ := 8

/-- `PAGING_DEV_SIZE`. -/
abbrev pagingDevSize : ℕ := 1048576

/-- `FS_DISK_SIZE`. -/
abbrev fsDiskSize : ℕ := 2097152

/-- `NKERNEL_PROC`. -/
abbrev nkernelProc : ℕ := 5

/-- `NINODE`. -/
abbrev ninode : ℕ := 16

/-- `NINODES`. -/
abbrev ninodes : ℕ := 128

/-- What `mkfs` takes from outside: the kernel binaries, the strings in `contents`, the files of the
host by their name, and what is in a buffer that is not initialised. -/
structure Host where
  kernelProcesses : ℕ → List UInt8
  contents : ℕ → List UInt8
  file : List UInt8 → List UInt8
  buf : Memory
  null_not_mem : ∀ ino, 0 ∉ contents ino

/-! ## Buffers -/

/-- The loop `while (nread < st.st_size) nread += read(0, buf + nread, size - nread)`. -/
def readLoop (file : List UInt8) (size : ℕ) : ℕ → ℕ → Memory → Memory
  | 0, _, buf => buf
  | fuel + 1, nread, buf =>
    if nread < file.length then
      let chunk := (file.drop nread).take (size - nread)
      readLoop file size fuel (nread + chunk.length)
        (buf.blit nread chunk.length fun j => chunk.getD j 0)
    else buf

/-- Read a file into a buffer; every round of the loop but the last reads something. -/
def readFile (file : List UInt8) (size : ℕ) (buf : Memory) : Memory :=
  readLoop file size file.length 0 buf

/-- `strncpy(buf, s, n)` for a string without its null. -/
def strncpy (buf : Memory) (s : List UInt8) (n : ℕ) : Memory := buf.blit 0 n fun j => s.getD j 0

/-- The block at `buf + a`. -/
def blockAt (buf : Memory) (a : ℕ) : Block := fun j => buf (a + j.val)

/-! ## The file system -/

/-- The loop that writes the blocks of a file of `size` bytes, from block `b` on. -/
def writeBlocks (treedisk : ℕ × TreediskState Disk) (ino size : ℕ) (buf : Memory) :
    ℕ → ℕ → StoreM Disk Unit
  | 0, _ => return
  | fuel + 1, b => do
    if b * blockSize < size then
      let _ ← treediskWrite treedisk.1 treedisk.2 ino b (blockAt buf (b * blockSize))
      writeBlocks treedisk ino size buf fuel (b + 1)

/-- An inode has the text in `contents`, unless this is the name of a file after a `#`. -/
def Host.isText (host : Host) (ino : ℕ) : Prop := (host.contents ino).head? ≠ some 35

instance (host : Host) (ino : ℕ) : Decidable (host.isText ino) :=
  inferInstanceAs (Decidable (_ ≠ _))

/-- One round of the loop of `mkfs`; `buf` is passed along. -/
def loadInode (host : Host) (treedisk : ℕ × TreediskState Disk) (ino : ℕ) (buf : Memory) :
    StoreM Disk Memory :=
  if host.isText ino then do
    let buf := strncpy buf (host.contents ino) blockSize
    let _ ← treediskWrite treedisk.1 treedisk.2 ino 0 (blockAt buf 0)
    return buf
  else do
    let file := host.file (host.contents ino).tail
    let buf := readFile file file.length buf
    writeBlocks treedisk ino file.length buf file.length 0
    return buf

/-- The loop of `mkfs` from an inode on, with `n` to go. -/
def loadInodes (host : Host) (treedisk : ℕ × TreediskState Disk) :
    ℕ → ℕ → Memory → StoreM Disk Unit
  | 0, _, _ => return
  | n + 1, ino, buf => do
    let buf ← loadInode host treedisk ino buf
    loadInodes host treedisk n (ino + 1) buf

/-- `mkfs`. -/
def mkfs (host : Host) : StoreM Disk Unit := do
  let ramdisk := arrayStore fsNblocks
  if (← treediskCreate ramdisk 0 ninodes) < 0 then throw "Assertion failed"
  loadInodes host (treediskInit 0 ramdisk 0) ninode 0 host.buf

/-! ## The image -/

/-- What has been written to `disk.img`. -/
structure Output where
  bytes : Memory
  size : ℕ

/-- `write(1, p, n)`. -/
def Output.write (out : Output) (p : Memory) (n : ℕ) : Output :=
  ⟨out.bytes.blit out.size n p, out.size + n⟩

/-- The array `exec` when it is all null bytes. -/
def clearedExec : Memory := fun _ => 0

/-- The array `fs` that the blocks of the ramdisk are in. -/
def fsBytes (fs : Disk) : Memory := fun k => fs (k / 512) ⟨k % 512, Nat.mod_lt k (by omega)⟩

/-- One round of the loop over the kernel binaries; nothing if the assertion fails. -/
def writeKernel (file : List UInt8) (out : Output) : Option Output :=
  if 0 < file.length ∧ file.length ≤ execSize then
    let out := out.write (readFile file execSize clearedExec) file.length
    some (out.write clearedExec (execSize - file.length))
  else none

/-- The loop over the kernel binaries from the `i`-th on, with `n` to go. -/
def writeKernels (host : Host) : ℕ → ℕ → Output → Option Output
  | 0, _, out => some out
  | n + 1, i, out => do
    let out ← writeKernel (host.kernelProcesses i) out
    writeKernels host n (i + 1) out

/-- The writes of `main`, with the file system that `mkfs` has made. -/
def writeImage (host : Host) (fs : Disk) : Option Output := do
  let out := Output.write ⟨fun _ => 0, 0⟩ clearedExec pagingDevSize
  let out ← writeKernels host nkernelProc 0 out
  let out := out.write clearedExec ((grassNexec - nkernelProc) * execSize)
  return out.write (fsBytes fs) fsDiskSize

/-- `main`: the image, or nothing if the program stops before it is complete. -/
def main (host : Host) : Option Output :=
  match mkfs host fun _ => nullBlock with
  | .ok _ fs => writeImage host fs
  | .error _ _ => none

/-- The blocks of an image on the SD card. -/
def Output.image (out : Output) (start : ℕ) : Block := blockAt out.bytes (512 * start)

/-! ## The readers of the kernel -/

/-- `SYS_PROC_EXEC_START`, `SYS_FILE_EXEC_START`, `SYS_DIR_EXEC_START` and `SYS_SHELL_EXEC_START`
are the segments after `GRASS_EXEC_START`. -/
abbrev sysProcExecStart : ℕ := grassExecStart + grassExecSegment
/-- `SYS_FILE_EXEC_START`. -/
abbrev sysFileExecStart : ℕ := grassExecStart + grassExecSegment * 2
/-- `SYS_DIR_EXEC_START`. -/
abbrev sysDirExecStart : ℕ := grassExecStart + grassExecSegment * 3
/-- `SYS_SHELL_EXEC_START`. -/
abbrev sysShellExecStart : ℕ := grassExecStart + grassExecSegment * 4

/-- `grass_read` of `earth.c`. -/
def grassRead (f : ReadFailures) (blockNo : ℤ) : StoreM Sdc (ℤ × Block) :=
  diskRead f (grassExecStart + blockNo)

/-- `sys_proc_read` of `sys_proc.c`, for a program that starts at `sys_proc_base`. -/
def sysProcRead (f : ReadFailures) (sysProcBase blockNo : ℤ) : StoreM Sdc (ℤ × Block) :=
  diskRead f (sysProcBase + blockNo)

/-- The reader that the `i`-th kernel binary is loaded with. -/
def kernelRead (f : ReadFailures) : ℕ → ℤ → StoreM Sdc (ℤ × Block)
  | 0 => grassRead f
  | 1 => sysProcRead f sysProcExecStart
  | 2 => sysProcRead f sysFileExecStart
  | 3 => sysProcRead f sysDirExecStart
  | _ => sysProcRead f sysShellExecStart

end Egos.Tools
