import Egos.File.TreediskRuns

/-!
# The size of a file

`treedisk_getsize` returns the 32-bit field `nblocks` of the inode as an `int`. The field is one
more than the largest offset written as long as no offset is `2 ^ 32 - 1`; at that offset the sum
wraps to 0 and the file is empty again. The result is the field when it is below `2 ^ 31`, and else
negative.
-/

namespace Egos.File

variable {σ : Type} {below : InodeStore σ} {bino nblocks : ℕ} {fails : String → σ → Prop} {nIb : ℕ}

/-- The size of a file to which the given offsets were written. -/
def sizeOfOffsets (offsets : List ℕ) : ℕ :=
  match offsets.max? with
  | none => 0
  | some o => o + 1

/-- An offset is within the size if a later one was written. -/
theorem lt_sizeOfOffsets {offsets : List ℕ} {off : ℕ} :
    off < sizeOfOffsets offsets ↔ ∃ o ∈ offsets, off ≤ o := by
  unfold sizeOfOffsets
  cases hmax : offsets.max? with
  | none =>
    rw [List.max?_eq_none_iff] at hmax
    simp [hmax]
  | some m =>
    obtain ⟨hmem, hle⟩ := List.max?_eq_some_iff.1 hmax
    constructor
    · exact fun h => ⟨m, hmem, Nat.lt_succ_iff.1 h⟩
    · rintro ⟨o, ho, hoff⟩
      exact Nat.lt_succ_of_le (le_trans hoff (hle o ho))

/-- The files after a list of calls end after the largest offset. -/
theorem filesAfter_size {ninodes ino : ℕ} (hi : ino < ninodes) (ops : List TreediskOp) :
    (filesAfter ninodes ops).size ino = sizeOfOffsets (offsetsWritten ops ino) := by
  have hlt : ∀ off, off < (filesAfter ninodes ops).size ino ↔
      off < sizeOfOffsets (offsetsWritten ops ino) := fun off =>
    ((filesAfter_spec hi ops).1 off).trans lt_sizeOfOffsets.symm
  exact le_antisymm (Nat.le_of_not_lt fun h => absurd ((hlt _).1 h) (lt_irrefl _))
    (Nat.le_of_not_lt fun h => absurd ((hlt _).2 h) (lt_irrefl _))

/-- After any run of writes on a created store in which `offset + 1` does not wrap,
`treedisk_getsize` of a valid inode returns the largest offset written to it plus one, or 0 if there
is none, exactly if all offsets written to the inode are below `2 ^ 31 - 1`; else the result is
negative. -/
theorem treedisk_size_largest_offset (A : TotalBlockArray below bino nblocks) {s₀ s₁ s₂ : σ}
    {ninodes logRpb : ℕ} (hinv : A.inv s₀) (hfresh : (A.view s₀ 0).nInodeblocks = 0)
    (hn : 1 ≤ ninodes) (hn32 : ninodes < 2 ^ 32)
    (hcreate : treediskCreate below bino ninodes s₀ = .ok 0 s₁)
    (hlog : logRpb = 0 ∨ logRpb = logRpbLoop 32 0) (ops : List TreediskOp)
    (hops : ∀ op ∈ ops, op.OffsetOk) {h : ℕ × TreediskState σ}
    (hrun : runOps (treediskInit logRpb below bino) ops s₁ = .ok h s₂) {ino : ℕ}
    (hi : ino < (A.view s₁ 0).nInodeblocks * inodesPerBlock) :
    ∃ (r : ℤ) (s₃ : σ), treediskGetsize h.2 ino s₂ = .ok r s₃ ∧
      (r = sizeOfOffsets (offsetsWritten ops ino) ↔
        ∀ o ∈ offsetsWritten ops ino, o < 2 ^ 31 - 1) ∧
      ((∃ o ∈ offsetsWritten ops ino, 2 ^ 31 - 1 ≤ o) → r < 0) := by
  have hopen := open_of_create A hinv hfresh hn hn32 hcreate hlog
  obtain ⟨rfl, hinv2, ⟨N, heads, hrep⟩, -, hsize, -⟩ := wp_ok (runOps_spec A ops hopen hops) hrun
  rw [Nat.mul_comm] at hi
  obtain ⟨r, s₃, hgetsize, -, -, hr⟩ := wp_returns (treediskGetsize_spec A hinv2 hrep hsize hi)
  have hfiles : (ops.foldl (FileMap.apply (64 * (A.view s₁ 0).nInodeblocks)) FileMap.empty).size ino
      = sizeOfOffsets (offsetsWritten ops ino) := filesAfter_size hi ops
  have hlt : sizeOfOffsets (offsetsWritten ops ino) < 2 ^ 32 := by
    rw [← hfiles, ← hrep.size ino hi]
    exact nblocksOf_lt _ _
  rw [hfiles] at hr
  have hlarge : ¬ sizeOfOffsets (offsetsWritten ops ino) < 2 ^ 31 ↔
      ∃ o ∈ offsetsWritten ops ino, 2 ^ 31 - 1 ≤ o := by
    rw [← lt_sizeOfOffsets]
    omega
  refine ⟨r, s₃, hgetsize, ⟨fun heq o ho => ?_, fun hall => ?_⟩, fun hex => ?_⟩
  · by_contra hge
    rw [if_neg (hlarge.2 ⟨o, ho, Nat.le_of_not_lt hge⟩)] at hr
    omega
  · rw [hr]
    refine if_pos (not_not.1 fun hge => ?_)
    obtain ⟨o, ho, hoff⟩ := hlarge.1 hge
    exact absurd (hall o ho) (Nat.not_lt.2 hoff)
  · rw [hr, if_neg (hlarge.2 hex)]
    omega

/-- After a run on a disk of twelve blocks, the size is one more than the largest offset, though it
was not the last one written; and it is 0 for an inode that was not written. -/
theorem treedisk_size_largest_offset_growing :
    ∃ (s₁ s₂ : Disk) (h : ℕ × TreediskState Disk),
      treediskCreate (arrayStore 12) 0 1 (fun _ => nullBlock) = .ok 0 s₁ ∧
      runOps (treediskInit 0 (arrayStore 12) 0) growingOps s₁ = .ok h s₂ ∧
      (∃ s₃, treediskGetsize h.2 3 s₂ = .ok 129 s₃) ∧
      ∃ s₃, treediskGetsize h.2 4 s₂ = .ok 0 s₃ := by
  obtain ⟨s₁, s₂, h, hcreate, hrun, hs₁, -⟩ := run_growing
  have hi {ino : ℕ} (hino : ino < 64) : ino < (s₁ 0).nInodeblocks * inodesPerBlock := by
    rw [hs₁]
    exact hino
  have hsize (ino : ℕ) (hino : ino < 64) :=
    treedisk_size_largest_offset (arrayStoreArray 0 12 (by norm_num)) trivial rfl (le_refl 1)
      (by norm_num) hcreate (Or.inl rfl) _ offsetOk_growingOps hrun (hi hino)
  obtain ⟨r, s₃, hsize3, hr, -⟩ := hsize 3 (by norm_num)
  obtain rfl : r = 129 := hr.2 (by simp [growingOps, offsetsWritten])
  obtain ⟨r', s₄, hsize4, hr', -⟩ := hsize 4 (by norm_num)
  obtain rfl : r' = 0 := hr'.2 (by simp [growingOps, offsetsWritten])
  exact ⟨s₁, s₂, h, hcreate, hrun, ⟨s₃, hsize3⟩, s₄, hsize4⟩

/-- On a disk of eight blocks, a write at the last offset returns 0 and leaves the size at 0. -/
theorem treedisk_size_wraps :
    ∃ s₁ s₂ s₃ : Disk,
      treediskCreate (arrayStore 8) 0 1 (fun _ => nullBlock) = .ok 0 s₁ ∧
      treediskWrite 7 ⟨arrayStore 8, 0⟩ 0 (2 ^ 32 - 1) nullBlock s₁ = .ok 0 s₂ ∧
      treediskGetsize ⟨arrayStore 8, 0⟩ 0 s₂ = .ok 0 s₃ := by
  have hreturns : wp (treediskCreate (arrayStore 8) 0 1)
      (fun r s₁ => r = 0 ∧
        wp (treediskWrite 7 ⟨arrayStore 8, 0⟩ 0 (2 ^ 32 - 1) nullBlock)
          (fun r s₂ => r = 0 ∧ wp (treediskGetsize ⟨arrayStore 8, 0⟩ 0) (fun r _ => r = 0)
            (fun _ _ => False) s₂) (fun _ _ => False) s₁)
      (fun _ _ => False) (fun _ => nullBlock) := by decide +kernel
  obtain ⟨_, s₁, hcreate, rfl, hwrite⟩ := wp_returns hreturns
  obtain ⟨_, s₂, hwrite, rfl, hsize⟩ := wp_returns hwrite
  obtain ⟨_, s₃, hsize, rfl⟩ := wp_returns hsize
  exact ⟨s₁, s₂, s₃, hcreate, hwrite, hsize⟩

end Egos.File
