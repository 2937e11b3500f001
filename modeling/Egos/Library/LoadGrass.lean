import Egos.Library.ProgramLoading

/-!
# Loading the kernel

`main` of `earth.c` loads the grass layer with `elf_load`, which copies its segment to `GRASS_ENTRY`
and fills the rest of `GRASS_SIZE` with null bytes. The kernel then loads programs. Their pages are
above it, in both translation modes, so that it stays as it was loaded.
-/

namespace Egos.Library

open Egos.Earth

/-- An executable whose only nonempty program header is `ph`, which is for `GRASS_ENTRY`. -/
structure GrassImage (reader : Reader) (ph : ProgramHeader) : Prop where
  only : ∃ i, i < ePhnum (reader 0) ∧ programHeader (reader 0) i = ph ∧
    ∀ j, j < ePhnum (reader 0) → j ≠ i → (programHeader (reader 0) j).pMemsz = 0
  nonempty : ph.pMemsz ≠ 0
  vaddr : ph.pVaddr = grassEntry

/-- A memory with the kernel: its segment, and zeros. -/
structure HoldsGrass (image : ℕ → UInt8) (ph : ProgramHeader) (mem : Memory) : Prop where
  segment : ∀ k, k < ph.pFilesz → mem (grassEntry + k) = image k
  zeros : ∀ k, ph.pFilesz ≤ k → k < grassSize → mem (grassEntry + k) = 0

variable {t : Translation} {pid : ℤ} {reader : Reader} {ph : ProgramHeader} {argc : ℕ}
  {argv : Option (ℕ → UInt8)} {s s' : Mmu} {image : ℕ → UInt8} {mem mem' : Memory}

/-- The kernel is below the programs. -/
theorem HoldsGrass.congr (h : HoldsGrass image ph mem) (hsize : ph.pFilesz ≤ grassSize)
    (hsame : ∀ a, a < appsEntry → mem' a = mem a) : HoldsGrass image ph mem' := by
  have hlow : ∀ k, k < grassSize → mem' (grassEntry + k) = mem (grassEntry + k) := fun k hk =>
    hsame _ (Nat.add_lt_add_left hk _)
  refine ⟨fun k hk => ?_, fun k hk hk' => ?_⟩
  · rw [hlow k (hk.trans_le hsize)]
    exact h.segment k hk
  · rw [hlow k hk']
    exact h.zeros k hk hk'

/-- Only the bytes of the segment count. -/
theorem HoldsGrass.image_congr {image' : ℕ → UInt8} (h : HoldsGrass image ph mem)
    (hsame : ∀ k, k < ph.pFilesz → image k = image' k) : HoldsGrass image' ph mem :=
  ⟨fun k hk => (h.segment k hk).trans (hsame k hk), h.zeros⟩

/-! ## `load_grass` -/

/-- Byte `x` of the blocks from block `b` on. -/
def blockByte (reader : Reader) (b x : ℕ) : UInt8 :=
  reader (((b + x / 512 : ℕ) : ℤ).bmod (2 ^ 32)) (x % 512)

/-- A byte of the first block. -/
theorem blockByte_zero {b x : ℕ} (hx : x < 512) :
    blockByte reader b x = reader ((b : ℤ).bmod (2 ^ 32)) x := by
  rw [blockByte, Nat.div_eq_of_lt hx, Nat.mod_eq_of_lt hx, Nat.add_zero]

/-- A byte of a later block. -/
theorem blockByte_succ {b x : ℕ} (hx : 512 ≤ x) :
    blockByte reader b x = blockByte reader (b + 1) (x - 512) := by
  have hdiv : b + x / 512 = b + 1 + (x - 512) / 512 := by omega
  have hmod : x % 512 = (x - 512) % 512 := by omega
  rw [blockByte, hdiv, hmod, blockByte]

/-- The loop reads consecutive blocks to consecutive addresses. -/
theorem loadGrassBlocks_eq (n b off : ℕ) (s : Mmu) : loadGrassBlocks reader n b off s
    = .ok () { s with mem := s.mem.blit (grassEntry + off) (512 * n) (blockByte reader b) } := by
  induction n generalizing b off s with
  | zero =>
    rw [Nat.mul_zero, Memory.blit_zero]
    rfl
  | succ n ih =>
    have hrun : loadGrassBlocks reader (n + 1) b off s
        = loadGrassBlocks reader n (b + 1) (off + 512) (reader.read b (grassEntry + off) s) := rfl
    have hbytes : (fun x => if x < 512 then reader ((b : ℤ).bmod (2 ^ 32)) x
        else blockByte reader (b + 1) (x - 512)) = blockByte reader b := by
      funext x
      split
      · exact (blockByte_zero ‹_›).symm
      · exact (blockByte_succ (by omega)).symm
    rw [hrun, ih, Reader.read, ← Nat.add_assoc, Memory.blit_append, hbytes, Nat.mul_succ,
      Nat.add_comm 512]

/-- `load_grass` writes the kernel, and nothing else. -/
theorem loadGrass_eq (hsize : ph.pFilesz ≤ grassSize) (s : Mmu) : loadGrass reader ph s
    = .ok () { s with mem := s.mem.blit grassEntry grassSize fun k =>
      if k < ph.pFilesz then segmentByte reader ph k else 0 } := by
  have hrun : loadGrass reader ph s = .ok () { s with
      mem := (s.mem.blit grassEntry (512 * blocksFor ph.pFilesz) (segmentByte reader ph)).memset
        (grassEntry + ph.pFilesz) 0 ((grassSize + 2 ^ 64 - ph.pFilesz) % 2 ^ 64) } := by
    simp only [loadGrass, bind, EStateM.bind, loadGrassBlocks_eq]
    rfl
  have hgrass : grassSize = 12288 := rfl
  rw [hgrass] at hsize
  have hlen : (grassSize + 2 ^ 64 - ph.pFilesz) % 2 ^ 64 = 12288 - ph.pFilesz := by
    rw [hgrass]
    omega
  have hblocks : ph.pFilesz ≤ 512 * blocksFor ph.pFilesz ∧ 512 * blocksFor ph.pFilesz ≤ 12288 := by
    unfold blocksFor
    omega
  rw [hrun, hlen, hgrass]
  congr 2
  funext a
  simp only [Memory.memset, Memory.blit]
  by_cases hzero : grassEntry + ph.pFilesz ≤ a ∧ a < grassEntry + ph.pFilesz + (12288 - ph.pFilesz)
  · rw [if_pos hzero, if_pos (by omega), if_neg (by omega)]
  · rw [if_neg hzero]
    by_cases hseg : grassEntry ≤ a ∧ a < grassEntry + ph.pFilesz
    · rw [if_pos (by omega), if_pos (by omega), if_pos (by omega)]
    · rw [if_neg (by omega), if_neg (by omega)]

/-- `elf_load` of the kernel. -/
theorem elfLoad_grass (himage : GrassImage reader ph) (hsize : ph.pFilesz ≤ grassSize) (s : Mmu) :
    wp (elfLoad t pid reader argc argv)
      (fun _ s' => s' = { s with mem := s'.mem } ∧ HoldsGrass (segmentByte reader ph) ph s'.mem ∧
        ∀ a, ¬ (grassEntry ≤ a ∧ a < appsEntry) → s'.mem a = s.mem a)
      (fun _ _ => False) s := by
  obtain ⟨i, hi, hph, hothers⟩ := himage.only
  rw [elfLoad_eq_segment hi hothers, elfLoadSegment, hph, if_neg himage.nonempty,
    if_pos himage.vaddr, wp, loadGrass_eq hsize]
  refine ⟨rfl, ⟨fun k hk => ?_, fun k hk hk' => ?_⟩, fun a ha => if_neg ha⟩
  · dsimp only
    rw [Memory.blit, if_pos ⟨Nat.le_add_right _ _, Nat.add_lt_add_left (hk.trans_le hsize) _⟩,
      Nat.add_sub_cancel_left, if_pos hk]
  · dsimp only
    rw [Memory.blit, if_pos ⟨Nat.le_add_right _ _, Nat.add_lt_add_left hk' _⟩,
      Nat.add_sub_cancel_left, if_neg (not_lt.2 hk)]

/-! ## The kernel stays -/

/-- Loading a program and switching to it changes nothing below the programs. -/
theorem Loading.switch_low {no : ℕ → ℕ} {n a : ℕ} {c : ℕ → Memory}
    (h : Loading t pid s no n c s') (hfresh : Fresh t pid s) (hlayout : Loading.Layout no n)
    (hlow : ∀ k, k < n → 0x40027 ≤ no k) (ha : a < appsEntry) :
    (mmuSwitch t pid s').mem a = s.mem a := by
  have ha : a < 1073901568 := ha
  have hout : ∀ i, ¬ InFrame i a := by
    rintro i ⟨hi, -⟩
    rw [pagingRead_eq] at hi
    omega
  have hmem : s'.mem a = s.mem a := h.mem a fun i _ => hout i
  cases t with
  | pageTable =>
    change (pageTableSwitch pid s').mem a = _
    rw [pageTableSwitch]
    split
    · exact hmem
    · exact hmem
  | softTlb =>
    have hne : pid ≠ s'.softTlbPid := fun he => hfresh.2 (h.vmPid.symm.trans he.symm)
    change (softTlbSwitch pid s').mem a = _
    rw [softTlbSwitch_mem hne, Memory.copyAll_of_not_mem fun j _ hj => ?_]
    · refine (Memory.copyAll_of_not_mem fun j _ _ hin => ?_).trans hmem
      exact hout j hin
    · obtain ⟨k, hk, rfl⟩ := h.pages.only j hj
      have hpage := hlow k hk
      have haddr := pageAddr_eq (hlayout.window hk).1
      rw [h.pages.page k hk]
      dsimp only
      omega

end Egos.Library
