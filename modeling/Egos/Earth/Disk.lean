import Egos.File.TreediskRead
import Mathlib.Tactic.NormNum

/-!
# The disk

Translation of `earth/dev_disk.c` and `library/file/disk.c`. The driver of the SD card, `mmc_bread`,
is not part of the model; what is assumed of it is that a read of one block returns 1 with the block
in the buffer, or fails with 0 and leaves anything there. Every read asks for one block.
-/

namespace Egos.Earth

open Egos.File

/-- `GRASS_FS_START`. -/
abbrev grassFsStart : ℕ := 4096

/-- `FS_DISK_SIZE / BLOCK_SIZE`. -/
abbrev fsNblocks : ℕ := 4096

/-- The SD card, and the number of reads that the driver has been asked for. -/
structure Sdc where
  image : ℕ → Block
  reads : ℕ

/-- Which reads fail, and what they leave in the buffer. -/
structure ReadFailures where
  fails : ℕ → Bool
  buffer : ℕ → Block

/-- No read fails. -/
def noFailures : ReadFailures := ⟨fun _ => false, fun _ => nullBlock⟩

/-- `mmc_bread` of one block: its result and the buffer. -/
def mmcBread (f : ReadFailures) (start : ℕ) : StoreM Sdc (ℕ × Block) := fun s =>
  .ok (if f.fails s.reads then (0, f.buffer s.reads) else (1, s.image start))
    { s with reads := s.reads + 1 }

/-- The block that `mmc_bread` reads for an `int`; the argument is an `unsigned long`. -/
def sdcStart (blockNo : ℤ) : ℕ := (blockNo % 2 ^ 64).toNat

/-- `disk_read` of `dev_disk.c`. The result of `mmc_bread` is not looked at. -/
def diskRead (f : ReadFailures) (blockNo : ℤ) : StoreM Sdc (ℤ × Block) := do
  let (_, dst) ← mmcBread f (sdcStart blockNo)
  return (0, dst)

/-- `disk_write` of `dev_disk.c`. -/
def diskWrite (_blockNo : ℤ) (_src : Block) : StoreM Sdc ℤ := throw "Write op not yet implemented"

/-- The block number that `disk.c` passes on: an unsigned sum as an `int`. -/
def fsBlockNo (offset : ℕ) : ℤ := ((grassFsStart + offset : ℕ) : ℤ).bmod (2 ^ 32)

/-- The store of `fs_disk_init`. -/
def fsDisk (f : ReadFailures) : InodeStore Sdc where
  getsize _ := pure fsNblocks
  setsize _ _ := throw "disk: cannot set the size"
  read _ offset := diskRead f (fsBlockNo offset)
  write _ offset block := diskWrite (fsBlockNo offset) block

/-- A block of the file system. -/
def Sdc.fsBlock (image : ℕ → Block) (offset : ℕ) : Block := image (sdcStart (fsBlockNo offset))

/-- Where a block of the file system is on the card. -/
theorem sdcStart_fsBlockNo {offset : ℕ} (h : offset < 2 ^ 30) :
    sdcStart (fsBlockNo offset) = grassFsStart + offset := by
  have hint : fsBlockNo offset = ((grassFsStart + offset : ℕ) : ℤ) := by
    refine Int.bmod_eq_of_le ?_ ?_
    · norm_num
      omega
    · norm_num
      omega
  rw [sdcStart, hint, Int.emod_eq_of_lt (Int.natCast_nonneg _), Int.toNat_natCast]
  push_cast
  omega

/-- What read number `i` of the device leaves in the buffer, when it is made for a block of the file
system. -/
def ReadFailures.block (f : ReadFailures) (image : ℕ → Block) (i offset : ℕ) : Block :=
  if f.fails i then f.buffer i else Sdc.fsBlock image offset

/-- A read that does not fail leaves the block. -/
theorem ReadFailures.block_of_ok {f : ReadFailures} {i : ℕ} (h : f.fails i = false)
    (image : ℕ → Block) (offset : ℕ) : f.block image i offset = Sdc.fsBlock image offset := by
  rw [block, h]
  rfl

theorem noFailures_block (image : ℕ → Block) (i offset : ℕ) :
    noFailures.block image i offset = Sdc.fsBlock image offset := rfl

/-- A read of the file system never gives an error. -/
theorem fsDisk_read (f : ReadFailures) (bino offset : ℕ) (s : Sdc) :
    (fsDisk f).read bino offset s
      = .ok (0, f.block s.image s.reads offset) { s with reads := s.reads + 1 } := by
  simp only [fsDisk, diskRead, mmcBread, ReadFailures.block, Sdc.fsBlock, bind, EStateM.bind, pure,
    EStateM.pure]
  split <;> rfl

/-- Run a read of the file system. -/
theorem wp_fsDisk_read {f : ReadFailures} {α : Type} {g : ℤ × Block → StoreM Sdc α} {s : Sdc}
    {Q : α → Sdc → Prop} {E : String → Sdc → Prop} (bino offset : ℕ)
    (h : wp (g (0, f.block s.image s.reads offset)) Q E { s with reads := s.reads + 1 }) :
    wp ((fsDisk f).read bino offset >>= g) Q E s := by
  rw [wp_bind, wp, fsDisk_read]
  exact h

/-! ## Reading a treedisk from the disk

The reads of a request are numbered: read `n` is that of the superblock, read `n + 1` that of the
inode block, and those of the blocks on the way to the offset follow. -/

/-- `treedisk_read` does not turn a request down: the superblock has the inode, and the inode has
the offset, in the blocks as they are read. -/
def Accepted (f : ReadFailures) (image : ℕ → Block) (n ino offset : ℕ) : Prop :=
  ino < (f.block image n 0).nInodeblocks * inodesPerBlock ∧
    offset < (f.block image (n + 1) (1 + ino / inodesPerBlock)).inodeNblocks (ino % inodesPerBlock)

instance (f : ReadFailures) (image : ℕ → Block) (n ino offset : ℕ) :
    Decidable (Accepted f image n ino offset) :=
  inferInstanceAs (Decidable (_ ∧ _))

/-- The number of blocks of a tree on the way from block `b`, with some levels left, to an offset.
The way ends at a hole. -/
def blocksToOffset (image : ℕ → Block) (offset : ℕ) : ℕ → ℕ → ℕ
  | levels, b =>
    if b = 0 then 0
    else match levels with
      | 0 => 1
      | levels + 1 => 1 + blocksToOffset image offset levels
          ((Sdc.fsBlock image b).word (logShiftR offset (levels * 7) % refsPerBlock))

/-- The number of blocks that a request is about: the superblock, the inode block, and those on the
way to the offset. -/
def blocksFor (image : ℕ → Block) (ino offset : ℕ) : ℕ :=
  let inodes := Sdc.fsBlock image (1 + ino / inodesPerBlock)
  2 + blocksToOffset image offset (nlevelsOf 7 (inodes.inodeNblocks (ino % inodesPerBlock)))
    (inodes.inodeRoot (ino % inodesPerBlock))

/-- The block at the end of the way to an offset, with all blocks as they are read from read `i`
on. -/
def blockAtOffset (f : ReadFailures) (image : ℕ → Block) (offset : ℕ) : ℕ → ℕ → ℕ → Block
  | levels, b, i =>
    if b = 0 then nullBlock
    else match levels with
      | 0 => f.block image i b
      | levels + 1 => blockAtOffset f image offset levels
          ((f.block image i b).word (logShiftR offset (levels * 7) % refsPerBlock)) (i + 1)

/-- The block that a request gives, with all blocks as they are read. -/
def blockRead (f : ReadFailures) (image : ℕ → Block) (n ino offset : ℕ) : Block :=
  let inodes := f.block image (n + 1) (1 + ino / inodesPerBlock)
  blockAtOffset f image offset (nlevelsOf 7 (inodes.inodeNblocks (ino % inodesPerBlock)))
    (inodes.inodeRoot (ino % inodesPerBlock)) (n + 2)

/-- No read from `i` up to `j` fails. -/
def ReadFailures.Clean (f : ReadFailures) (i j : ℕ) : Prop := ∀ k, i ≤ k → k < j → f.fails k = false

variable {f : ReadFailures} {image : ℕ → Block}

/-- Fewer reads do not fail. -/
theorem ReadFailures.Clean.mono {i j i' j' : ℕ} (h : f.Clean i j) (hi : i ≤ i') (hj : j' ≤ j) :
    f.Clean i' j' := fun k hk hk' => h k (le_trans hi hk) (lt_of_lt_of_le hk' hj)

/-- The walk of `treedisk_read` gives the block at the end of the way as it is read. Whether none of
the reads it makes fails, or none of as many as the way has blocks, there are as many reads as
blocks. -/
theorem readWalk_fsDisk (offset levels b : ℕ) (s : Sdc) :
    wp (readWalk ⟨fsDisk f, 0⟩ 7 offset levels b)
      (fun r s' => r = (0, blockAtOffset f s.image offset levels b s.reads) ∧ s.reads ≤ s'.reads ∧
        (f.Clean s.reads s'.reads ∨
            f.Clean s.reads (s.reads + blocksToOffset s.image offset levels b) →
          s'.reads = s.reads + blocksToOffset s.image offset levels b))
      (fun _ _ => False) s := by
  induction levels generalizing b s with
  | zero =>
    rw [readWalk, blockAtOffset, blocksToOffset]
    split
    · exact ⟨rfl, le_rfl, fun _ => rfl⟩
    · refine wp_fsDisk_read 0 b ?_
      exact ⟨rfl, Nat.le_succ _, fun _ => rfl⟩
  | succ levels ih =>
    rw [readWalk, blockAtOffset, blocksToOffset]
    split
    · exact ⟨rfl, le_rfl, fun _ => rfl⟩
    · refine wp_fsDisk_read 0 b ?_
      refine wp_mono (ih _ _) ?_ fun _ _ h => h
      rintro r s' ⟨hr, hle, hreads⟩
      simp only at hr hle hreads ⊢
      refine ⟨hr, by omega, fun hclean => ?_⟩
      -- the read of this block is among those that do not fail
      have hok : f.fails s.reads = false :=
        hclean.elim (fun h => h _ le_rfl (by omega)) fun h => h _ le_rfl (by omega)
      rw [f.block_of_ok hok] at hreads
      rw [hreads (hclean.imp (·.mono (by omega) le_rfl) (·.mono (by omega) (by omega)))]
      omega

/-- A request that is not turned down gives the block as it is read, and 0. Whether none of the
reads it makes fails, or none of as many as it is about blocks, there are as many reads as blocks.
A request that is turned down leaves the buffer as it is. -/
theorem treediskReadInto_spec (n ino offset : ℕ) (block : Block) :
    wp (treediskReadInto 7 ⟨fsDisk f, 0⟩ ino offset block)
      (fun r s' =>
        (Accepted f image n ino offset → r = (0, blockRead f image n ino offset) ∧
          (f.Clean n s'.reads ∨ f.Clean n (n + blocksFor image ino offset) →
            s'.reads = n + blocksFor image ino offset)) ∧
        (¬ Accepted f image n ino offset → r = (-1, block)))
      (fun _ _ => False) ⟨image, n⟩ := by
  unfold treediskReadInto treediskGetSnapshot
  rw [bind_assoc]
  refine wp_fsDisk_read 0 0 ?_
  simp only [lt_self_iff_false, if_false]
  by_cases hino : ino ≥ (f.block image n 0).nInodeblocks * inodesPerBlock
  · rw [if_pos hino]
    exact ⟨fun h => absurd h.1 (Nat.not_lt.2 hino), fun _ => rfl⟩
  · rw [if_neg hino, bind_assoc]
    refine wp_fsDisk_read 0 _ ?_
    simp only [lt_self_iff_false, if_false, pure_bind]
    split
    next hoff => exact ⟨fun h => absurd h.2 (Nat.not_lt.2 hoff), fun _ => rfl⟩
    next hoff =>
      have hacc : Accepted f image n ino offset := ⟨Nat.lt_of_not_le hino, Nat.lt_of_not_le hoff⟩
      refine wp_mono (readWalk_fsDisk _ _ _ _) ?_ fun _ _ h => h
      rintro r s' ⟨hr, hle, hreads⟩
      refine ⟨fun _ => ⟨hr, fun hclean => ?_⟩, fun h => absurd hacc h⟩
      simp only at hle hreads
      have hok : f.fails (n + 1) = false :=
        hclean.elim (fun h => h _ (by omega) (by omega)) fun h =>
          h _ (by omega) (by simp only [blocksFor]; omega)
      simp only [Snapshot.nblocks, Snapshot.root, f.block_of_ok hok] at hreads
      rw [hreads (hclean.imp (·.mono (by omega) le_rfl)
        (·.mono (by omega) (by simp only [blocksFor]; omega)))]
      simp only [blocksFor]
      omega

end Egos.Earth
