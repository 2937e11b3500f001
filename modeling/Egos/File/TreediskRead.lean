import Egos.File.FileMap

/-!
# Reading a treedisk

On a store that behaves as a block array, `treedisk_read` returns what the disk stores: it takes the
number of levels from the size in the inode, and its walk visits the positions above the offset.
-/

namespace Egos.File

variable {σ : Type} {below : InodeStore σ} {bino nblocks : ℕ} {fails : String → σ → Prop}

/-- A snapshot copies the superblock and the block of the inode. -/
theorem treediskGetSnapshot_spec (A : BlockArray below bino nblocks fails) {s : σ} {nIb : ℕ}
    (hinv : A.inv s) (hsuper : (A.view s 0).nInodeblocks = nIb) (hn : nIb < nblocks) (ino : ℕ) :
    wp (treediskGetSnapshot ⟨below, bino⟩ ino)
      (fun r s' => A.inv s' ∧ A.view s' = A.view s ∧
        r = if ino < 64 * nIb then
          some ⟨A.view s 0, A.view s (1 + ino / 64), 1 + ino / 64, ino % 64⟩ else none)
      fails s := by
  unfold treediskGetSnapshot
  refine wp_seq (A.read_spec s 0 hinv (by omega)) ?_
  rintro ⟨r, blk⟩ s1 ⟨h0, rfl, hinv1, hv1⟩
  simp only at h0 ⊢
  rw [if_neg (by omega), hsuper, show nIb * inodesPerBlock = 64 * nIb from Nat.mul_comm _ _]
  by_cases hi : ino < 64 * nIb
  · rw [if_neg (by omega), if_pos hi]
    refine wp_seq (A.read_spec s1 (1 + ino / 64) hinv1 (by omega)) ?_
    rintro ⟨r', blk'⟩ s2 ⟨h0', rfl, hinv2, hv2⟩
    simp only at h0' ⊢
    rw [if_neg (by omega), wp_pure, hv1]
    exact ⟨hinv2, hv2.trans hv1, rfl⟩
  · rw [if_pos (by omega), if_neg hi, wp_pure]
    exact ⟨hinv1, hv1, rfl⟩

theorem div_pow_succ (x ℓ : ℕ) : x / 128 ^ (ℓ + 1) = x / 128 ^ ℓ / 128 := by
  rw [Nat.pow_succ, Nat.div_div_eq_div_mul]

variable {nIb : ℕ} {D : Disk} {lv : ℕ → ℕ} {N : Pos → ℕ} {heads : List ℕ} {limbo : ℕ → Prop}

/-- Below a hole there are only holes. -/
theorem Forest.hole_below (h : Forest nIb D lv N) {ino off : ℕ} :
    ∀ ℓ, ℓ ≤ lv ino → N ⟨ino, ℓ, off / 128 ^ ℓ⟩ = 0 → N ⟨ino, 0, off⟩ = 0
  | 0, _, hz => by simpa using hz
  | ℓ + 1, hℓ, hz => by
    refine h.hole_below ℓ (by omega) (h.hole ino ℓ _ hℓ ?_)
    rw [← div_pow_succ]
    exact hz

/-- One step of a walk: the reference to follow leads to the next position above the offset. -/
theorem Forest.next (h : Forest nIb D lv N) {ino off ℓ : ℕ} (hℓ : ℓ < lv ino)
    (hne : N ⟨ino, ℓ + 1, off / 128 ^ (ℓ + 1)⟩ ≠ 0) :
    (D (N ⟨ino, ℓ + 1, off / 128 ^ (ℓ + 1)⟩)).word (off / 128 ^ ℓ % 128)
      = N ⟨ino, ℓ, off / 128 ^ ℓ⟩ := by
  have := h.child ino ℓ (off / 128 ^ (ℓ + 1)) (off / 128 ^ ℓ % 128) hℓ (by omega) hne
  rw [← this, div_pow_succ, Nat.div_add_mod]

/-- The walk of `treedisk_read` from a position above the offset. -/
theorem readWalk_spec (A : BlockArray below bino nblocks fails) {ino off : ℕ}
    (hoff : off < 2 ^ 32) :
    ∀ (ℓ : ℕ) (s : σ), A.inv s → Layout nIb nblocks (A.view s) lv N heads limbo → ℓ ≤ lv ino →
      wp (readWalk ⟨below, bino⟩ 7 off ℓ (N ⟨ino, ℓ, off / 128 ^ ℓ⟩))
        (fun r s' => A.inv s' ∧ A.view s' = A.view s ∧
          r = (0, leafBlock (A.view s) (N ⟨ino, 0, off⟩))) fails s := by
  intro ℓ
  induction ℓ with
  | zero =>
    intro s hinv hl _
    rw [Nat.pow_zero, Nat.div_one, readWalk]
    by_cases hz : N ⟨ino, 0, off⟩ = 0
    · rw [if_pos hz, wp_pure, leafBlock, if_pos hz]
      exact ⟨hinv, rfl, rfl⟩
    · rw [if_neg hz]
      refine wp_seq (A.read_spec s _ hinv (hl.node_range _ hz).2) ?_
      rintro ⟨r, blk⟩ s1 ⟨h0, rfl, hinv1, hv1⟩
      simp only at h0 ⊢
      rw [if_neg (by omega), wp_pure, leafBlock, if_neg hz]
      exact ⟨hinv1, hv1, rfl⟩
  | succ ℓ ih =>
    intro s hinv hl hℓ
    rw [readWalk]
    by_cases hz : N ⟨ino, ℓ + 1, off / 128 ^ (ℓ + 1)⟩ = 0
    · rw [if_pos hz, wp_pure, leafBlock, if_pos (hl.forest.hole_below _ hℓ hz)]
      exact ⟨hinv, rfl, rfl⟩
    · rw [if_neg hz]
      refine wp_seq (A.read_spec s _ hinv (hl.node_range _ hz).2) ?_
      rintro ⟨r, blk⟩ s1 ⟨h0, rfl, hinv1, hv1⟩
      simp only at h0 ⊢
      rw [if_neg (by omega), logShiftR_eq hoff, hl.forest.next hℓ hz]
      refine wp_mono (ih s1 hinv1 (by rw [hv1]; exact hl) (by omega)) ?_ (fun _ _ h => h)
      rintro r' s2 ⟨hinv2, hv2, hr⟩
      rw [hv1] at hv2 hr
      exact ⟨hinv2, hv2, hr⟩

/-- The result of `treedisk_read` for what the file map has at an offset. -/
def readResult : Option Block → ℤ × Block
  | some b => (0, b)
  | none => (-1, nullBlock)

/-- `treedisk_read` reads the file map that the disk stores. -/
theorem treediskRead_spec (A : BlockArray below bino nblocks fails) {s : σ} {F : FileMap}
    (hinv : A.inv s) (hrep : Rep nIb nblocks (A.view s) F N heads limbo) (hn : nIb < nblocks)
    {ino off : ℕ} (hi : ino < 64 * nIb) (hoff : off < 2 ^ 32) :
    wp (treediskRead 7 ⟨below, bino⟩ ino off)
      (fun r s' => A.inv s' ∧ A.view s' = A.view s ∧ r = readResult (F.read ino off)) fails s := by
  unfold treediskRead treediskReadInto
  refine wp_seq (treediskGetSnapshot_spec A hinv hrep.stored.layout.super hn ino) ?_
  rintro r s1 ⟨hinv1, hv1, rfl⟩
  rw [if_pos hi]
  simp only
  have hsize : (A.view s (1 + ino / 64)).inodeNblocks (ino % 64) = F.size ino := hrep.size ino hi
  have hlt : F.size ino < 2 ^ 32 := by
    rw [← hrep.size ino hi]
    exact nblocksOf_lt _ _
  have hroot := hrep.stored.layout.forest.root ino hi
  simp only [Snapshot.nblocks, Snapshot.root, hsize, nlevelsOf_eq hlt]
  by_cases hof : off < F.size ino
  · rw [if_neg (by omega), FileMap.read, if_pos hof]
    have hlay : Layout nIb nblocks (A.view s1) (fun j => levels (F.size j)) N heads limbo := by
      rw [hv1]
      exact hrep.stored.layout
    have hw : wp (readWalk _ 7 off _ (N ⟨ino, levels (F.size ino), _⟩)) _ _ s1 :=
      readWalk_spec A hoff (levels (F.size ino)) s1 hinv1 hlay (le_refl _)
    rw [div_levels hof, hroot, hv1] at hw
    refine wp_mono hw ?_ (fun _ _ h => h)
    rintro r s2 ⟨hinv2, hv2, hr⟩
    rw [hrep.stored.content] at hr
    exact ⟨hinv2, hv2, hr⟩
  · rw [if_pos (by omega), FileMap.read, if_neg hof, wp_pure]
    exact ⟨hinv1, hv1, rfl⟩

/-- `treedisk_getsize` returns the size of the file as an `int`. -/
theorem treediskGetsize_spec (A : BlockArray below bino nblocks fails) {s : σ} {F : FileMap}
    (hinv : A.inv s) (hrep : Rep nIb nblocks (A.view s) F N heads limbo) (hn : nIb < nblocks)
    {ino : ℕ} (hi : ino < 64 * nIb) :
    wp (treediskGetsize ⟨below, bino⟩ ino)
      (fun r s' => A.inv s' ∧ A.view s' = A.view s ∧
        r = if F.size ino < 2 ^ 31 then (F.size ino : ℤ) else F.size ino - 2 ^ 32) fails s := by
  unfold treediskGetsize
  refine wp_seq (treediskGetSnapshot_spec A hinv hrep.stored.layout.super hn ino) ?_
  rintro r s1 ⟨hinv1, hv1, rfl⟩
  rw [if_pos hi]
  have hsize : (A.view s (1 + ino / 64)).inodeNblocks (ino % 64) = F.size ino := hrep.size ino hi
  simp only [Snapshot.nblocks, hsize, wp_pure, and_true]
  exact ⟨hinv1, hv1⟩

end Egos.File
