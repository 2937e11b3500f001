import Egos.Tools.Mkfs
import Mathlib.Data.List.GetD

/-!
# The image that is made is the image that is read

`mkfs` of the host and the kernel on the board do not share code for the layout of the disk. What
one writes is read back by the other: the kernel binaries block by block, and the inodes of the file
system by `treedisk_read` over the disk.
-/

namespace Egos.Tools

open Egos.File Egos.Earth

/-- The contents of an inode. -/
def Host.inodeBytes (host : Host) (ino : ℕ) : List UInt8 :=
  if host.isText ino then host.contents ino else host.file (host.contents ino).tail

/-- The length of an inode in blocks: a text has one block. -/
def Host.inodeBlocks (host : Host) (ino : ℕ) : ℕ :=
  if ino < ninode then
    if host.isText ino then 1 else ((host.inodeBytes ino).length + 511) / 512
  else 0

/-- The `b`-th block of a list of bytes, with null bytes behind its end. -/
def paddedBlock (bytes : List UInt8) (b : ℕ) : Block := fun j => bytes.getD (512 * b + j.val) 0

/-! ## Buffers -/

/-- A file that fits is read as a whole. -/
theorem readFile_eq {file : List UInt8} {size : ℕ} (hsize : file.length ≤ size) (buf : Memory) :
    readFile file size buf = buf.blit 0 file.length fun j => file.getD j 0 := by
  cases file with
  | nil =>
    funext a
    simp [readFile, readLoop, Memory.blit]
  | cons c file =>
    have hchunk : ((c :: file).drop 0).take (size - 0) = c :: file :=
      List.take_of_length_le (by simpa using hsize)
    rw [readFile, List.length_cons, readLoop, if_pos (by simp), hchunk]
    cases file with
    | nil => rfl
    | cons d file => rw [List.length_cons, readLoop, if_neg (by simp)]; rfl

/-- The bytes of a file that has been read, and its blocks. -/
theorem blockAt_readFile {file : List UInt8} {size b : ℕ} {j : Fin 512} (hsize : file.length ≤ size)
    (buf : Memory) (hj : 512 * b + j.val < file.length) :
    blockAt (readFile file size buf) (b * 512) j = file.getD (512 * b + j.val) 0 := by
  rw [readFile_eq hsize, blockAt, Memory.blit, if_pos (by omega)]
  congr 1
  omega

/-- A text that has been copied fills a block. -/
theorem blockAt_strncpy (buf : Memory) (s : List UInt8) :
    blockAt (strncpy buf s 512) 0 = paddedBlock s 0 := by
  funext j
  have hj : j.val < 512 := j.isLt
  rw [blockAt, strncpy, Memory.blit, if_pos (by omega), paddedBlock]
  rfl

/-! ## The file system -/

/-- The ramdisk is an array of blocks. -/
def ramdisk : TotalBlockArray (arrayStore fsNblocks) 0 fsNblocks :=
  arrayStoreArray 0 fsNblocks (by norm_num)

theorem ramdisk_inv (fs : Disk) : ramdisk.inv fs := trivial

theorem ramdisk_view (fs : Disk) : ramdisk.view fs = fs := rfl

/-- The files hold the contents of an inode. Behind the end of a file that is not a text, the last
block holds whatever was in the buffer. -/
structure HoldsInode (host : Host) (F : FileMap) (ino : ℕ) : Prop where
  size : F.size ino = host.inodeBlocks ino
  bytes : ∀ b < host.inodeBlocks ino, ∀ j : Fin 512,
    host.isText ino ∨ 512 * b + j.val < (host.inodeBytes ino).length →
      F.block ino b j = (host.inodeBytes ino).getD (512 * b + j.val) 0

/-- There are blocks for files of these sizes. -/
def Fits (sz : ℕ → ℕ) : Prop := (nodesFor 2 sz).ncard ≤ 4093

/-- Smaller files fit too. -/
theorem Fits.mono {sz sz' : ℕ → ℕ} (h : Fits sz') (hle : ∀ ino, sz ino ≤ sz' ino) : Fits sz :=
  (Set.ncard_le_ncard (nodesFor_mono hle) (nodesFor_finite 2 sz')).trans h

variable {host : Host} {F : FileMap} {s : Disk} {ino : ℕ}

/-- `treedisk->write` of the next block of an inode. -/
theorem append_spec (h : HoldsDense ramdisk 2 F s) (hi : ino < 128) (blk : Block)
    (hfits : Fits (Function.update F.size ino (F.size ino + 1))) (hoff : F.size ino + 1 < 2 ^ 32) :
    wp (treediskWrite 7 ⟨arrayStore fsNblocks, 0⟩ ino (F.size ino) blk)
      (fun _ s' => HoldsDense ramdisk 2 (F.write ino (F.size ino) blk) s')
      (fun _ _ => False) s := by
  refine wp_mono (treediskWrite_append_spec ramdisk h hi hoff blk ?_) ?_ fun _ _ h => h
  · rw [F.append_size]
    exact hfits
  · rintro _ s' ⟨-, h'⟩
    exact h'

/-- The loop writes the blocks of the buffer one after the other. -/
theorem writeBlocks_spec {size : ℕ} (buf : Memory) (hi : ino < 128) (hsize : size ≤ 131072) :
    ∀ (fuel b : ℕ) (F : FileMap) (s : Disk), HoldsDense ramdisk 2 F s → F.size ino = b →
      b ≤ (size + 511) / 512 → (size + 511) / 512 ≤ b + fuel →
      Fits (Function.update F.size ino ((size + 511) / 512)) →
      wp (writeBlocks (7, ⟨arrayStore fsNblocks, 0⟩) ino size buf fuel b)
        (fun _ s' => ∃ F', HoldsDense ramdisk 2 F' s' ∧
          F'.size = Function.update F.size ino ((size + 511) / 512) ∧
          (∀ j, j ≠ ino → F'.block j = F.block j) ∧
          (∀ c < b, F'.block ino c = F.block ino c) ∧
          ∀ c, b ≤ c → c < (size + 511) / 512 → F'.block ino c = blockAt buf (c * 512))
        (fun _ _ => False) s := by
  intro fuel
  induction fuel with
  | zero =>
    intro b F s h hb hle hge _
    obtain rfl : b = (size + 511) / 512 := by omega
    refine ⟨F, h, ?_, fun _ _ => rfl, fun _ _ => rfl, fun c hc hc' => absurd hc' (by omega)⟩
    rw [← hb, Function.update_eq_self]
  | succ fuel ih =>
    intro b F s h hb hle hge hfits
    rw [writeBlocks]
    have hcond : b * blockSize < size ↔ b < (size + 511) / 512 := by
      change b * 512 < size ↔ _
      omega
    by_cases hlt : b * blockSize < size
    · rw [if_pos hlt]
      have hlt' := hcond.1 hlt
      subst hb
      refine wp_seq (append_spec h hi _ (hfits.mono fun j => ?_) (by omega)) fun _ s' h' => ?_
      · by_cases hj : j = ino
        · rw [hj, Function.update_self, Function.update_self]
          omega
        · rw [Function.update_of_ne hj, Function.update_of_ne hj]
      · refine wp_mono (ih (F.size ino + 1) _ s' h' ?_ (by omega) (by omega) ?_) ?_ fun _ _ h => h
        · rw [F.append_size, Function.update_self]
        · rwa [F.append_size, Function.update_idem]
        · rintro _ s'' ⟨F', hdense, hF', hother, hlow, hhigh⟩
          rw [F.append_size, Function.update_idem] at hF'
          refine ⟨F', hdense, hF', fun j hj => ?_, fun c hc => ?_, fun c hc hc' => ?_⟩
          · rw [hother j hj]
            exact Function.update_of_ne hj _ _
          · rw [hlow c (by omega), FileMap.write_block, if_neg (by omega)]
          · rcases Nat.eq_or_lt_of_le hc with rfl | hlt''
            · rw [hlow _ (Nat.lt_succ_self _), FileMap.write_block, if_pos ⟨rfl, rfl⟩]
            · exact hhigh c hlt'' hc'
    · rw [if_neg hlt]
      obtain rfl : b = (size + 511) / 512 := by omega
      refine ⟨F, h, ?_, fun _ _ => rfl, fun _ _ => rfl, fun c hc hc' => absurd hc' (by omega)⟩
      rw [← hb, Function.update_eq_self]

/-- One inode is loaded. -/
theorem loadInode_spec (buf : Memory) (h : HoldsDense ramdisk 2 F s) (hi : ino < ninode)
    (hzero : F.size ino = 0)
    (hfile : ¬ host.isText ino → (host.inodeBytes ino).length ≤ 131072)
    (hfits : Fits (Function.update F.size ino (host.inodeBlocks ino))) :
    wp (loadInode host (7, ⟨arrayStore fsNblocks, 0⟩) ino buf)
      (fun _ s' => ∃ F', HoldsDense ramdisk 2 F' s' ∧
        F'.size = Function.update F.size ino (host.inodeBlocks ino) ∧
        (∀ j, j ≠ ino → F'.block j = F.block j) ∧ HoldsInode host F' ino)
      (fun _ _ => False) s := by
  rw [loadInode]
  by_cases htext : host.isText ino
  · have hblocks : host.inodeBlocks ino = 1 := by
      rw [Host.inodeBlocks, if_pos hi, if_pos htext]
    rw [if_pos htext]
    have hwrite := append_spec h (Nat.lt_trans hi (by norm_num))
      (blockAt (strncpy buf (host.contents ino) blockSize) 0)
      (by rwa [hzero, Nat.zero_add, ← hblocks])
      (by rw [hzero]; norm_num)
    rw [hzero] at hwrite
    refine wp_seq hwrite fun _ s' h' => ?_
    rw [wp_pure]
    have hsize : (F.write ino 0 (blockAt (strncpy buf (host.contents ino) blockSize) 0)).size
        = Function.update F.size ino (host.inodeBlocks ino) := by
      rw [FileMap.write, hzero, hblocks]
      rfl
    refine ⟨_, h', hsize, fun j hj => Function.update_of_ne hj _ _, ?_, fun b hb j _ => ?_⟩
    · rw [hsize, Function.update_self]
    · obtain rfl : b = 0 := by omega
      rw [FileMap.write_block, if_pos ⟨rfl, rfl⟩, blockAt_strncpy, paddedBlock, Host.inodeBytes,
        if_pos htext]
  · have hbytes : host.inodeBytes ino = host.file (host.contents ino).tail := by
      rw [Host.inodeBytes, if_neg htext]
    have hblocks : host.inodeBlocks ino = ((host.inodeBytes ino).length + 511) / 512 := by
      rw [Host.inodeBlocks, if_pos hi, if_neg htext]
    rw [if_neg htext, ← hbytes]
    rw [hblocks] at hfits
    refine wp_seq (writeBlocks_spec (readFile (host.inodeBytes ino)
      (host.inodeBytes ino).length buf)
      (Nat.lt_trans hi (by norm_num)) (hfile htext) (host.inodeBytes ino).length 0 F s h hzero
      (Nat.zero_le _) (by omega) hfits) ?_
    rintro _ s' ⟨F', h', hsize, hother, -, hblock⟩
    rw [wp_pure]
    rw [← hblocks] at hsize hblock
    refine ⟨F', h', hsize, hother, by rw [hsize, Function.update_self], fun b hb j hj => ?_⟩
    rw [hblock b (Nat.zero_le b) hb]
    exact blockAt_readFile le_rfl buf (hj.resolve_left htext)

/-- The inodes are loaded one after the other. -/
theorem loadInodes_spec (hfile : ∀ ino < ninode, ¬ host.isText ino →
      (host.inodeBytes ino).length ≤ 131072) (hfits : Fits host.inodeBlocks) :
    ∀ (n ino : ℕ) (F : FileMap) (s : Disk) (buf : Memory), ino + n = ninode →
      HoldsDense ramdisk 2 F s → (∀ j < ino, HoldsInode host F j) → (∀ j, ino ≤ j → F.size j = 0) →
      wp (loadInodes host (7, ⟨arrayStore fsNblocks, 0⟩) n ino buf)
        (fun _ s' => ∃ F', HoldsDense ramdisk 2 F' s' ∧ ∀ j, HoldsInode host F' j)
        (fun _ _ => False) s := by
  intro n
  induction n with
  | zero =>
    intro ino F s buf hn h hdone hrest
    refine ⟨F, h, fun j => ?_⟩
    rcases Nat.lt_or_ge j ino with hlt | hge
    · exact hdone j hlt
    · have hnone : host.inodeBlocks j = 0 := if_neg (by omega)
      exact ⟨by rw [hrest j hge, hnone], fun b hb => absurd hb (by omega)⟩
  | succ n ih =>
    intro ino F s buf hn h hdone hrest
    rw [loadInodes]
    refine wp_seq (loadInode_spec buf h (by omega) (hrest ino le_rfl) (hfile ino (by omega))
      (hfits.mono fun j => ?_)) ?_
    · by_cases hj : j = ino
      · rw [hj, Function.update_self]
      · rw [Function.update_of_ne hj]
        rcases Nat.lt_or_ge j ino with hlt | hge
        · exact (hdone j hlt).size.le
        · rw [hrest j hge]
          exact Nat.zero_le _
    · rintro buf' s' ⟨F', h', hsize, hother, hino⟩
      refine ih (ino + 1) F' s' buf' (by omega) h' (fun j hj => ?_) fun j hj => ?_
      · by_cases hji : j = ino
        · exact hji ▸ hino
        · obtain ⟨hs, hb⟩ := hdone j (by omega)
          refine ⟨?_, ?_⟩
          · rw [hsize, Function.update_of_ne hji, hs]
          · rw [hother j hji]
            exact hb
      · rw [hsize, Function.update_of_ne (by omega)]
        exact hrest j (by omega)

/-- `mkfs` returns with a file system that has the contents of all inodes. -/
theorem mkfs_spec (hfresh : (s 0).nInodeblocks = 0) (hfile : ∀ ino < ninode, ¬ host.isText ino →
      (host.inodeBytes ino).length ≤ 131072) (hfits : Fits host.inodeBlocks) :
    wp (mkfs host) (fun _ fs => ∃ F, Stores 2 fsNblocks fs F ∧ ∀ ino, HoldsInode host F ino)
      (fun _ _ => False) s := by
  rw [← ramdisk_view s] at hfresh
  have hcreate := treediskCreate_spec ramdisk (ramdisk_inv _) hfresh (by norm_num : 1 ≤ ninodes)
    (by norm_num)
  rw [mkfs]
  refine wp_seq hcreate ?_
  rintro r fs ⟨-, ⟨-, hsmall, -⟩ | ⟨rfl, -, -, heads, hrep⟩⟩
  · exact absurd hsmall (by norm_num)
  rw [if_neg (lt_irrefl 0)]
  have hdense : HoldsDense ramdisk 2 FileMap.empty fs :=
    ⟨ramdisk_inv fs, ⟨_, heads, hrep, dense_empty 2⟩, by norm_num, by norm_num⟩
  refine wp_mono (loadInodes_spec hfile hfits ninode 0 _ fs host.buf (Nat.zero_add _) hdense
    (fun j hj => absurd hj (Nat.not_lt_zero j)) fun _ _ => rfl) ?_ fun _ _ h => h
  rintro _ fs' ⟨F, ⟨-, ⟨N, heads', hrep', -⟩, -, -⟩, hinodes⟩
  exact ⟨F, ⟨N, heads', hrep'⟩, hinodes⟩

/-! ## The image -/

/-- What has been written stays. -/
theorem Output.write_below {out : Output} {p : Memory} {n k : ℕ} (hk : k < out.size) :
    (out.write p n).bytes k = out.bytes k := if_neg (by omega)

/-- What is written comes behind it. -/
theorem Output.write_at {out : Output} {p : Memory} {n k : ℕ} (hk : k < n) :
    (out.write p n).bytes (out.size + k) = p k :=
  (if_pos (by omega)).trans (congrArg p (Nat.add_sub_cancel_left ..))

/-- A kernel binary is written with null bytes behind it, up to the next segment. -/
theorem writeKernel_spec {file : List UInt8} (hpos : 0 < file.length) (hlen : file.length ≤ 131072)
    (out : Output) :
    ∃ out', writeKernel file out = some out' ∧ out'.size = out.size + 131072 ∧
      (∀ k < out.size, out'.bytes k = out.bytes k) ∧
      ∀ k < 131072, out'.bytes (out.size + k) = file.getD k 0 := by
  set out₁ := out.write (readFile file execSize clearedExec) file.length with hout₁
  have hsize₁ : out₁.size = out.size + file.length := rfl
  refine ⟨out₁.write clearedExec (execSize - file.length), if_pos ⟨hpos, hlen⟩, ?_, fun k hk => ?_,
    fun k hk => ?_⟩
  · change out₁.size + (131072 - file.length) = _
    omega
  · rw [Output.write_below (by omega), Output.write_below hk]
  · rcases Nat.lt_or_ge k file.length with hlt | hge
    · rw [Output.write_below (by omega), hout₁, Output.write_at hlt, readFile_eq hlen,
        Memory.blit, if_pos (by omega), Nat.sub_zero]
    · have hk' : out.size + k = out₁.size + (k - file.length) := by omega
      have hlt : k - file.length < execSize - file.length := by
        change _ < 131072 - _
        omega
      rw [hk', Output.write_at hlt, List.getD_eq_default _ _ hge]
      rfl

/-- The kernel binaries are written one segment after the other. -/
theorem writeKernels_spec (hkernel : ∀ i < nkernelProc, 0 < (host.kernelProcesses i).length ∧
      (host.kernelProcesses i).length ≤ 131072) :
    ∀ (n i : ℕ) (out : Output), i + n = nkernelProc →
      ∃ out', writeKernels host n i out = some out' ∧ out'.size = out.size + n * 131072 ∧
        (∀ k < out.size, out'.bytes k = out.bytes k) ∧
        ∀ j < n, ∀ k < 131072,
          out'.bytes (out.size + j * 131072 + k) = (host.kernelProcesses (i + j)).getD k 0 := by
  intro n
  induction n with
  | zero =>
    intro i out _
    exact ⟨out, rfl, by omega, fun _ _ => rfl, fun j hj => absurd hj (Nat.not_lt_zero j)⟩
  | succ n ih =>
    intro i out hi
    obtain ⟨hpos, hlen⟩ := hkernel i (by omega)
    obtain ⟨out₁, hrun₁, hsize₁, hlow₁, hbytes₁⟩ := writeKernel_spec hpos hlen out
    obtain ⟨out₂, hrun₂, hsize₂, hlow₂, hbytes₂⟩ := ih (i + 1) out₁ (by omega)
    refine ⟨out₂, ?_, by omega, fun k hk => ?_, fun j hj k hk => ?_⟩
    · rw [writeKernels, hrun₁]
      exact hrun₂
    · rw [hlow₂ k (by omega), hlow₁ k hk]
    · cases j with
      | zero =>
        rw [Nat.zero_mul, Nat.add_zero, Nat.add_zero, hlow₂ _ (by omega), hbytes₁ k hk]
      | succ j =>
        have := hbytes₂ j (by omega) k hk
        rw [hsize₁] at this
        rw [show out.size + (j + 1) * 131072 + k = out.size + 131072 + j * 131072 + k by omega,
          this]
        congr 2
        omega

/-- The layout of the image. -/
theorem writeImage_spec (hkernel : ∀ i < nkernelProc, 0 < (host.kernelProcesses i).length ∧
      (host.kernelProcesses i).length ≤ 131072) (fs : Disk) :
    ∃ out, writeImage host fs = some out ∧ out.size = 4 * 1024 * 1024 ∧
      (∀ i < nkernelProc, ∀ b < grassExecSegment,
        out.image (grassExecStart + grassExecSegment * i + b)
          = paddedBlock (host.kernelProcesses i) b) ∧
      ∀ off < fsNblocks, out.image (grassFsStart + off) = fs off := by
  set out₀ := Output.write ⟨fun _ => 0, 0⟩ clearedExec pagingDevSize with hout₀
  have hsize₀ : out₀.size = 1048576 := rfl
  obtain ⟨out₁, hrun, hsize₁, -, hkernels⟩ := writeKernels_spec hkernel nkernelProc 0 out₀ rfl
  set out₂ := out₁.write clearedExec ((grassNexec - nkernelProc) * execSize) with hout₂
  have hsize₂ : out₂.size = 2097152 := by
    change out₁.size + (8 - 5) * 131072 = 2097152
    change out₁.size = out₀.size + 5 * 131072 at hsize₁
    omega
  refine ⟨out₂.write (fsBytes fs) fsDiskSize, ?_, ?_, fun i hi b hb => ?_, fun off hoff => ?_⟩
  · rw [writeImage, ← hout₀, hrun]
    rfl
  · change out₂.size + 2097152 = _
    omega
  · funext j
    have hj : j.val < 512 := j.isLt
    have hi' : i < 5 := hi
    have hb' : b < 256 := hb
    have hbyte := hkernels i hi (512 * b + j.val) (by omega)
    have haddr : 512 * (grassExecStart + grassExecSegment * i + b) + j.val
        = out₀.size + i * 131072 + (512 * b + j.val) := by
      change 512 * (2048 + 256 * i + b) + j.val = _
      omega
    rw [Output.image, blockAt, haddr, Output.write_below (by omega), hout₂,
      Output.write_below (by omega), hbyte, Nat.zero_add, paddedBlock]
  · funext j
    have hj : j.val < 512 := j.isLt
    have hoff' : off < 4096 := hoff
    have haddr : 512 * (grassFsStart + off) + j.val = out₂.size + (512 * off + j.val) := by
      change 512 * (4096 + off) + j.val = _
      omega
    have hlt : 512 * off + j.val < fsDiskSize := by
      change _ < 2097152
      omega
    rw [Output.image, blockAt, haddr, Output.write_at hlt, fsBytes]
    congr 1
    · rw [show (512 * off + j.val) / 512 = off by omega]
    · exact Fin.ext (by simp only; omega)

/-! ## Reading it back -/

/-- On an SD card with the file system `fs`, the disk reads as the blocks of `fs`. Behind the end
of the disk nothing is said of it, and a write panics. -/
def fsDiskArray (fs : Disk) :
    BlockArray (fsDisk noFailures) 0 fsNblocks fun e _ => e = "Write op not yet implemented" where
  inv s := ∀ off < fsNblocks, Sdc.fsBlock s.image off = fs off
  view _ := fs
  getsize_spec s h := ⟨by norm_num, h, rfl⟩
  read_spec s off h hoff := by
    rw [wp, fsDisk_read]
    exact ⟨le_rfl, h off hoff, h, rfl⟩
  write_spec s off b h _ := rfl

/-- `treedisk_read` over the disk returns what the file system stores. -/
theorem treediskRead_fsDisk {fs : Disk} {F : FileMap} (hstores : Stores 2 fsNblocks fs F) {s : Sdc}
    (himage : ∀ off < fsNblocks, Sdc.fsBlock s.image off = fs off) {ino off : ℕ} (hi : ino < 128)
    (hoff : off < 2 ^ 32) :
    ∃ s', treediskRead 7 ⟨fsDisk noFailures, 0⟩ ino off s
      = .ok (readResult (F.read ino off)) s' := by
  obtain ⟨N, heads, hrep⟩ := hstores
  have hspec := treediskRead_spec (fsDiskArray fs) himage hrep (by norm_num) hi hoff
  have hreturns : wp (treediskRead 7 ⟨fsDisk noFailures, 0⟩ ino off) _ _ s :=
    treediskReadInto_spec s.reads ino off nullBlock
  obtain ⟨r, s', hrun, -⟩ := wp_returns hreturns
  refine ⟨s', ?_⟩
  rw [← (wp_ok hspec hrun).2.2]
  exact hrun

/-- Inodes that are not among the first 128 do not exist. -/
theorem treediskRead_none {fs : Disk} {F : FileMap} (hstores : Stores 2 fsNblocks fs F) {s : Sdc}
    (himage : ∀ off < fsNblocks, Sdc.fsBlock s.image off = fs off) {ino : ℕ} (hi : ¬ ino < 128)
    (off : ℕ) :
    ∃ s', treediskRead 7 ⟨fsDisk noFailures, 0⟩ ino off s = .ok (-1, nullBlock) s' := by
  obtain ⟨N, heads, hrep⟩ := hstores
  have hdown : ¬ Accepted noFailures s.image s.reads ino off := by
    rintro ⟨hino, -⟩
    rw [noFailures_block, himage 0 (by norm_num), hrep.stored.layout.super] at hino
    exact hi hino
  have hreturns : wp (treediskRead 7 ⟨fsDisk noFailures, 0⟩ ino off) _ _ s :=
    treediskReadInto_spec s.reads ino off nullBlock
  obtain ⟨r, s', hrun, -, hout⟩ := wp_returns hreturns
  obtain rfl := hout hdown
  exact ⟨s', hrun⟩

/-- A read from a card that does not fail. -/
theorem diskRead_eq {blockNo : ℕ} (h : blockNo < 2 ^ 31) (s : Sdc) :
    ∃ s', diskRead noFailures blockNo s = .ok (0, s.image blockNo) s' := by
  have hstart : sdcStart blockNo = blockNo := by
    rw [sdcStart, Int.emod_eq_of_lt (Int.natCast_nonneg _) (by omega), Int.toNat_natCast]
  refine ⟨{ s with reads := s.reads + 1 }, ?_⟩
  simp only [diskRead, mmcBread, noFailures, hstart, bind, EStateM.bind, pure, EStateM.pure,
    Bool.false_eq_true, if_false]

/-- The readers of the kernel binaries read the segments of the image. -/
theorem kernelRead_eq {i b : ℕ} (hi : i < 5) (hb : b < 256) (s : Sdc) :
    ∃ s', kernelRead noFailures i b s
      = .ok (0, s.image (grassExecStart + grassExecSegment * i + b)) s' := by
  have hread := diskRead_eq (show 2048 + 256 * i + b < 2 ^ 31 by omega) s
  push_cast at hread
  interval_cases i <;> exact hread

/-! ## The image that is made is the image that is read -/

theorem treeBlocks_zero : treeBlocks 0 = 0 := by decide

/-- The files fit if their trees have no more blocks than there are. -/
theorem Host.fits {host : Host}
    (h : ∑ ino ∈ Finset.range ninode, treeBlocks (host.inodeBlocks ino) ≤ 4093) :
    Fits host.inodeBlocks := by
  rw [Fits, nodesFor_ncard]
  refine le_trans (le_of_eq ?_) h
  symm
  refine Finset.sum_subset (Finset.range_mono (by norm_num)) fun ino _ hino => ?_
  rw [Host.inodeBlocks, if_neg (by simpa using hino), treeBlocks_zero]

/-- `main` returns with the kernel binaries and a file system with the contents of all inodes. -/
theorem main_spec {host : Host}
    (hkernel : ∀ i < nkernelProc, 1 ≤ (host.kernelProcesses i).length ∧
      (host.kernelProcesses i).length ≤ execSize)
    (hfile : ∀ ino < ninode, ¬ host.isText ino → (host.inodeBytes ino).length ≤ execSize)
    (hfits : Fits host.inodeBlocks) :
    ∃ out, main host = some out ∧
      (∀ i < nkernelProc, ∀ b < grassExecSegment,
        out.image (grassExecStart + grassExecSegment * i + b)
          = paddedBlock (host.kernelProcesses i) b) ∧
      ∃ fs F, (∀ off < fsNblocks, out.image (grassFsStart + off) = fs off) ∧
        Stores 2 fsNblocks fs F ∧ ∀ ino, HoldsInode host F ino := by
  -- the array `fs` is cleared at first; a name for it keeps it from being evaluated
  obtain ⟨fs₀, hfs₀⟩ : ∃ fs₀ : Disk, fs₀ = fun _ => nullBlock := ⟨_, rfl⟩
  have hfresh : (fs₀ 0).nInodeblocks = 0 := by
    rw [hfs₀, Block.nInodeblocks, Block.word_nullBlock]
  obtain ⟨_, fs, hmkfs, F, hstores, hinodes⟩ := wp_returns (mkfs_spec hfresh hfile hfits)
  obtain ⟨out, hout, -, hkernels, hfs⟩ := writeImage_spec hkernel fs
  refine ⟨out, ?_, hkernels, fs, F, hfs, hstores, hinodes⟩
  rw [main, ← hfs₀, hmkfs]
  exact hout

/-- The image that `mkfs` makes from binaries and contents that fit is complete, and the kernel
reads it back: each block of a segment is the block of the binary, with null bytes behind its end,
and `treedisk_read` of a block of an inode returns 0 with the contents of the inode, and `-1` behind
the last block. A text fills a block of its own with null bytes; what is behind the end of another
file in its last block is not said. -/
theorem mkfs_image_read_back (host : Host)
    (hkernel : ∀ i < nkernelProc, 1 ≤ (host.kernelProcesses i).length ∧
      (host.kernelProcesses i).length ≤ execSize)
    (htext : ∀ ino < ninode, host.isText ino → (host.contents ino).length < blockSize)
    (hfile : ∀ ino < ninode, ¬ host.isText ino → (host.inodeBytes ino).length ≤ execSize)
    (hfits : ∑ ino ∈ Finset.range ninode, treeBlocks (host.inodeBlocks ino) ≤ fsNblocks - 3) :
    ∃ out, main host = some out ∧
      (∀ i b n, i < nkernelProc → b < grassExecSegment → ∃ s',
        kernelRead noFailures i b ⟨out.image, n⟩
          = .ok (0, paddedBlock (host.kernelProcesses i) b) s') ∧
      (∀ ino < ninode, (host.inodeBytes ino).length ≤ blockSize * host.inodeBlocks ino) ∧
      ∀ ino off n, off < 2 ^ 32 → ∃ blk s',
        treediskRead (treediskInit 0 (fsDisk noFailures) 0).1
            (treediskInit 0 (fsDisk noFailures) 0).2 ino off ⟨out.image, n⟩
          = .ok (if off < host.inodeBlocks ino then 0 else -1, blk) s' ∧
        (off < host.inodeBlocks ino → ∀ j : Fin 512,
          host.isText ino ∨ 512 * off + j.val < (host.inodeBytes ino).length →
            blk j = (host.inodeBytes ino).getD (512 * off + j.val) 0) := by
  obtain ⟨out, hout, hkernels, fs, F, hfs, hstores, hinodes⟩ :=
    main_spec hkernel hfile (Host.fits hfits)
  have himage : ∀ off < fsNblocks, Sdc.fsBlock out.image off = fs off := by
    intro off hoff
    rw [Sdc.fsBlock, sdcStart_fsBlockNo (Nat.lt_trans hoff (by norm_num)), hfs off hoff]
  refine ⟨out, hout, fun i b n hi hb => ?_, fun ino hi => ?_, fun ino off n hoff => ?_⟩
  · obtain ⟨s', hread⟩ := kernelRead_eq hi hb ⟨out.image, n⟩
    refine ⟨s', hread.trans ?_⟩
    simp only [hkernels i hi b hb]
  · rw [Host.inodeBlocks, if_pos hi]
    change _ ≤ 512 * _
    split
    next h =>
      have hlen : (host.contents ino).length < 512 := htext ino hi h
      rw [Host.inodeBytes, if_pos h]
      omega
    next => omega
  · have hhandle : treediskInit 0 (fsDisk noFailures) 0 = (7, ⟨fsDisk noFailures, 0⟩) := by
      simp [treediskInit, logRpbLoop_eq]
    rw [hhandle]
    by_cases hi : ino < 128
    · obtain ⟨s', hread⟩ := treediskRead_fsDisk (s := ⟨out.image, n⟩) hstores himage hi hoff
      rw [FileMap.read, (hinodes ino).size] at hread
      by_cases hlt : off < host.inodeBlocks ino
      · rw [if_pos hlt] at hread ⊢
        exact ⟨_, s', hread, fun _ j hj => (hinodes ino).bytes off hlt j hj⟩
      · rw [if_neg hlt] at hread ⊢
        exact ⟨_, s', hread, fun h => absurd h hlt⟩
    · obtain ⟨s', hread⟩ := treediskRead_none (s := ⟨out.image, n⟩) hstores himage hi off
      have hnone : host.inodeBlocks ino = 0 := if_neg fun h => hi (Nat.lt_trans h (by norm_num))
      rw [hnone, if_neg (Nat.not_lt_zero off)]
      exact ⟨_, s', hread, fun h => absurd h (Nat.not_lt_zero off)⟩

/-- A host whose kernel binaries have one byte; inode 1 is a file of 600 bytes, and the others are
texts. -/
def smallHost : Host where
  kernelProcesses i := [UInt8.ofNat i]
  contents ino := if ino = 1 then [35, 120] else [46, 47]
  file _ := List.replicate 600 9
  buf _ := 1
  null_not_mem ino := by split <;> decide

/-- The second kernel binary and the second block of inode 1 are read back from the image. -/
theorem mkfs_image_read_back_small :
    ∃ out, main smallHost = some out ∧
      (∃ s', kernelRead noFailures 1 0 ⟨out.image, 0⟩ = .ok (0, paddedBlock [1] 0) s') ∧
      ∃ blk s', treediskRead 7 ⟨fsDisk noFailures, 0⟩ 1 1 ⟨out.image, 0⟩ = .ok (0, blk) s' ∧
        blk 0 = 9 := by
  obtain ⟨out, hout, hkernel, -, hinode⟩ := mkfs_image_read_back smallHost
    (fun _ _ => ⟨le_rfl, by norm_num [smallHost]⟩) (by decide) (by decide +kernel)
    (by decide +kernel)
  obtain ⟨blk, s', hread, hblk⟩ := hinode 1 1 0 (by norm_num)
  have hlt : 1 < smallHost.inodeBlocks 1 := by decide +kernel
  rw [if_pos hlt] at hread
  refine ⟨out, hout, hkernel 1 0 0 (by decide) (by decide), blk, s', hread, ?_⟩
  rw [hblk hlt 0 (Or.inr (by decide +kernel))]
  decide +kernel

end Egos.Tools
