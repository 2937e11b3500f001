import Egos.File.Failures

/-!
# Creating a treedisk again

`treedisk_create` takes a superblock with `n_inodeblocks ≠ 0` as the sign that the disk has been
created, but it writes the superblock before it clears the inode blocks. If one of the latter writes
fails, the call returns `-1`, and the next one finds the sign, does nothing and returns 0: the
inodes are whatever was on the disk. When only other writes fail, a call that returns 0 leaves empty
inodes.
-/

namespace Egos.File

variable {nblocks bino : ℕ} {pattern : Pattern} {s s' : Flaky}

/-- Call `treedisk_create` with each number of inodes in turn, whatever it returns. -/
def createAll (below : InodeStore Flaky) (bino : ℕ) : List ℕ → StoreM Flaky Unit
  | [] => return ()
  | ninodes :: rest => do
    let _ ← treediskCreate below bino ninodes
    createAll below bino rest

/-- Only writes fail, and no write of one of the `ninodes` inodes does. -/
structure WritesInodes (pattern : Pattern) (ninodes : ℕ) : Prop where
  read : ∀ s off, pattern s (.read off) = none
  write : ∀ s off, 1 ≤ off → off ≤ (ninodes + 63) / 64 → pattern s (.write off) = none

/-- A disk that has been created has null inode blocks. -/
def InodesNull (disk : Disk) : Prop :=
  ∀ b, 1 ≤ b → b ≤ (disk 0).nInodeblocks → disk b = nullBlock

/-- A disk without inode blocks has no inodes that are not null. -/
theorem inodesNull_of_fresh {disk : Disk} (h : (disk 0).nInodeblocks = 0) : InodesNull disk :=
  fun b hb hle => absurd hle (by omega)

/-- Blocks are put on the free list in ascending order. -/
theorem fillRefs_next (nblocks : ℕ) :
    ∀ (room i nextFree : ℕ) (data : Block), nextFree ≤ (fillRefs nblocks room i nextFree data).2.2
  | 0, _, _, _ => le_refl _
  | room + 1, i, nextFree, data => by
    rw [fillRefs]
    split
    · exact le_trans (Nat.le_succ _) (fillRefs_next nblocks room (i + 1) (nextFree + 1) _)
    · exact le_refl _

/-- `setup_freelist` writes no block below the first free one. -/
theorem setupFreelistLoop_flaky {start nb : ℕ} :
    ∀ (fuel next f : ℕ) (data : Block) (s : Flaky), start ≤ next →
      wp (setupFreelistLoop (flakyStore nblocks pattern) bino nb fuel next f data)
        (fun _ s' => ∀ b, b < start → s'.disk b = s.disk b) (fun _ _ => True) s := by
  intro fuel
  induction fuel with
  | zero => exact fun next f data s _ b _ => rfl
  | succ fuel ih =>
    intro next f data s hle
    rw [setupFreelistLoop]
    split
    · dsimp only
      refine wp_seq (P := fun _ s1 => ∀ b, b < start → s1.disk b = s.disk b) ?_ ?_
      · unfold writeOrPanic
        refine wp_flakyWrite _ _ ?_ fun r hr _ => ?_
        · rw [if_neg (lt_irrefl 0)]
          exact fun b hb => Function.update_of_ne (by omega) _ _
        · rw [if_pos hr]
          trivial
      rintro - s1 h1
      have hnext := fillRefs_next nb (refsPerBlock - 1) 1 (next + 1) (data.setWord 0 f)
      refine wp_mono (ih _ _ _ s1 (le_trans (by omega) hnext)) (fun _ s2 h2 b hb => ?_)
        fun _ _ _ => trivial
      rw [h2 b hb, h1 b hb]
    · exact fun b _ => rfl

/-- The loop that clears the inode blocks, if none of its writes fails. -/
theorem clearInodeblocks_flaky :
    ∀ (n i : ℕ) (s : Flaky), (∀ s off, i ≤ off → off < i + n → pattern s (.write off) = none) →
      wp (clearInodeblocks (flakyStore nblocks pattern) bino n i)
        (fun r s' => r = true ∧
          ∀ b, s'.disk b = if i ≤ b ∧ b < i + n then nullBlock else s.disk b) (fun _ _ => True) s
  | 0, i, s, _ => ⟨rfl, fun b => by rw [if_neg (by omega)]⟩
  | n + 1, i, s, hwrites => by
    rw [clearInodeblocks]
    refine wp_flakyWrite i nullBlock ?_ fun r _ hfails => ?_
    · rw [if_neg (lt_irrefl 0)]
      refine wp_mono (clearInodeblocks_flaky n (i + 1) _ fun s off h1 h2 =>
        hwrites s off (by omega) (by omega)) ?_ fun _ _ _ => trivial
      rintro r s2 ⟨rfl, hdisk⟩
      simp only [Flaky.store_disk, Flaky.record_disk] at hdisk
      refine ⟨rfl, fun b => ?_⟩
      rw [hdisk]
      by_cases hb : b = i
      · rw [hb, if_neg (by omega), Function.update_self, if_pos (by omega)]
      · rw [Function.update_of_ne hb]
        split_ifs <;> first | rfl | omega
    · rw [hwrites s i (le_refl _) (by omega)] at hfails
      cases hfails

/-- A call of `treedisk_create` leaves null inode blocks on a disk that has been created, and has
created the disk if it returns 0. -/
theorem treediskCreate_flaky {ninodes : ℕ} (hn : 1 ≤ ninodes) (hn32 : ninodes < 2 ^ 32)
    (hpat : WritesInodes pattern ninodes) (h : InodesNull s.disk) :
    wp (treediskCreate (flakyStore nblocks pattern) bino ninodes)
      (fun r s' => InodesNull s'.disk ∧ (r = 0 → (s'.disk 0).nInodeblocks ≠ 0)) (fun _ _ => True)
      s := by
  unfold treediskCreate
  simp only [show ninodes + inodesPerBlock - 1 = ninodes + 63 from rfl,
    show inodesPerBlock = 64 from rfl]
  set nIb := (ninodes + 63) / 64 with hnIb
  refine wp_seq (P := fun _ s1 => s1 = s) rfl ?_
  rintro r s1 rfl
  split
  · exact ⟨h, fun hr => by cases hr⟩
  refine wp_flakyRead 0 (fun _ => ?_) fun r b _ hfails => ?_
  swap
  · rw [hpat.read] at hfails
    cases hfails
  dsimp only
  rw [if_neg (lt_irrefl 0)]
  split
  swap
  · rename_i hused
    exact ⟨h, fun _ => hused⟩
  rename_i hfresh
  refine wp_seq (setupFreelistLoop_flaky _ (nIb + 1) 0 nullBlock _ (le_refl _)) ?_
  intro f s2 hkeep
  refine wp_flakyWrite 0 _ ?_ fun r hr _ => ?_
  · -- the superblock is written: the loop that follows clears the inode blocks
    rw [if_neg (lt_irrefl 0)]
    refine wp_seq (clearInodeblocks_flaky nIb 1 _ fun s off h1 h2 =>
      hpat.write s off h1 (by omega)) ?_
    rintro - s3 ⟨rfl, hdisk⟩
    simp only [Flaky.store_disk, Flaky.record_disk] at hdisk
    have hsuper : (s3.disk 0).nInodeblocks = nIb := by
      rw [hdisk, if_neg (by omega), Function.update_self, Block.nInodeblocks,
        Block.word_setWord_ne _ _ (by omega), Block.word_setWord_self _ (by omega) (by omega)]
    rw [if_pos rfl, wp_pure]
    refine ⟨fun b hb hle => ?_, fun _ => by omega⟩
    rw [hdisk, if_pos (by omega)]
  · rw [if_pos hr]
    refine ⟨inodesNull_of_fresh ?_, fun h0 => by omega⟩
    rw [Flaky.record_disk, hkeep 0 (by omega)]
    exact hfresh

/-- So does any number of calls. -/
theorem createAll_flaky (ns : List ℕ) (hns : ∀ n ∈ ns, 1 ≤ n ∧ n < 2 ^ 32)
    (hpat : ∀ n ∈ ns, WritesInodes pattern n) :
    ∀ {s : Flaky}, InodesNull s.disk →
      wp (createAll (flakyStore nblocks pattern) bino ns) (fun _ s' => InodesNull s'.disk)
        (fun _ _ => True) s := by
  induction ns with
  | nil => exact fun h => h
  | cons n ns ih =>
    intro s h
    obtain ⟨hn, hn32⟩ := hns n (by simp)
    rw [createAll]
    refine wp_seq (treediskCreate_flaky hn hn32 (hpat n (by simp)) h) ?_
    rintro - s1 ⟨h1, -⟩
    exact ih (fun k hk => hns k (by simp [hk])) (fun k hk => hpat k (by simp [hk])) h1

/-- On a disk without reads that fail, the size of an inode in a null block is 0. -/
theorem treediskGetsize_flaky (hread : ∀ s off, pattern s (.read off) = none)
    (h : InodesNull s.disk) {ino : ℕ} (hi : ino < (s.disk 0).nInodeblocks * inodesPerBlock) :
    wp (treediskGetsize ⟨flakyStore nblocks pattern, bino⟩ ino) (fun r _ => r = 0)
      (fun _ _ => False) s := by
  have hsnapshot : wp (treediskGetSnapshot ⟨flakyStore nblocks pattern, bino⟩ ino)
      (fun r _ => ∃ sn, r = some sn ∧ sn.nblocks = 0) (fun _ _ => False) s := by
    have hno : ∀ s off, ¬ (pattern s (.read off)).isSome := fun s off hs => by
      rw [hread] at hs
      cases hs
    unfold treediskGetSnapshot
    refine wp_flakyRead 0 (fun _ => ?_) fun r b _ hfails => absurd hfails (hno _ _)
    dsimp only
    rw [if_neg (lt_irrefl 0), if_neg (Nat.not_le.2 hi)]
    refine wp_flakyRead _ (fun _ => ?_) fun r b _ hfails => absurd hfails (hno _ _)
    dsimp only
    rw [if_neg (lt_irrefl 0), wp_pure]
    refine ⟨_, rfl, ?_⟩
    have hi64 : ino < (s.disk 0).nInodeblocks * 64 := hi
    rw [Snapshot.nblocks, Flaky.record_disk,
      h (1 + ino / 64) (by omega) (by omega), Block.inodeNblocks, Block.word_nullBlock]
  unfold treediskGetsize
  refine wp_seq hsnapshot ?_
  rintro r s1 ⟨sn, rfl, hsn⟩
  dsimp only
  rw [hsn, wp_pure]
  rfl

/-- A disk on which `treedisk_create` has failed can be created after all: whatever the disk held
besides a superblock without inode blocks, after any number of calls and one that returns 0 every
inode has size 0, if only writes failed and none of them was that of an inode block. -/
theorem treedisk_create_retry {s₀ s₁ s₂ : Flaky} (ns : List ℕ) {ninodes : ℕ} (logRpb : ℕ)
    (hns : ∀ n ∈ ninodes :: ns, 1 ≤ n ∧ n < 2 ^ 32)
    (hpat : ∀ n ∈ ninodes :: ns, WritesInodes pattern n)
    (hfresh : (s₀.disk 0).nInodeblocks = 0)
    (hcalls : createAll (flakyStore nblocks pattern) bino ns s₀ = .ok () s₁)
    (hcreate : treediskCreate (flakyStore nblocks pattern) bino ninodes s₁ = .ok 0 s₂) (ino : ℕ)
    (hi : ino < (s₂.disk 0).nInodeblocks * inodesPerBlock) :
    0 < (s₂.disk 0).nInodeblocks ∧
      ∃ s₃, treediskGetsize (treediskInit logRpb (flakyStore nblocks pattern) bino).2 ino s₂
        = .ok 0 s₃ := by
  have h1 := wp_ok (createAll_flaky ns (fun n hn => hns n (by simp [hn]))
    (fun n hn => hpat n (by simp [hn])) (inodesNull_of_fresh hfresh)) hcalls
  obtain ⟨hn, hn32⟩ := hns ninodes (by simp)
  have h0 := hpat ninodes (by simp)
  obtain ⟨h2, hcreated⟩ := wp_ok (treediskCreate_flaky hn hn32 h0 h1) hcreate
  obtain ⟨_, s₃, hsize, rfl⟩ := wp_returns (treediskGetsize_flaky h0.read h2 hi)
  exact ⟨Nat.pos_of_ne_zero (hcreated rfl), s₃, hsize⟩

/-- The first write of block `off` fails, and no other call does. -/
def firstWriteFails (off : ℕ) : Pattern := fun s call =>
  if call = .write off ∧ ∀ e ∈ s.trace, e.call ≠ .write off then some ⟨0, nullBlock⟩ else none

/-- On a disk of three blocks, the write of the superblock fails at first; the second call creates
the disk. -/
theorem treedisk_create_retry_superblock :
    ∃ (disk : Disk) (s₁ s₂ s₃ : Flaky),
      (disk 1).inodeNblocks 0 = 5 ∧
      treediskCreate (flakyStore 3 (firstWriteFails 0)) 0 1 ⟨disk, []⟩ = .ok (-1) s₁ ∧
      treediskCreate (flakyStore 3 (firstWriteFails 0)) 0 1 s₁ = .ok 0 s₂ ∧
      treediskGetsize ⟨flakyStore 3 (firstWriteFails 0), 0⟩ 0 s₂ = .ok 0 s₃ := by
  have hreturns : wp (treediskCreate (flakyStore 3 (firstWriteFails 0)) 0 1)
      (fun r s₁ => r = -1 ∧ wp (treediskCreate (flakyStore 3 (firstWriteFails 0)) 0 1)
        (fun r s₂ => r = 0 ∧ (s₂.disk 0).nInodeblocks = 1) (fun _ _ => False) s₁)
      (fun _ _ => False)
      ⟨fun off => if off = 1 then nullBlock.setWord 1 5 else nullBlock, []⟩ := by decide +kernel
  obtain ⟨_, s₁, hfirst, rfl, hreturns⟩ := wp_returns hreturns
  obtain ⟨_, s₂, hsecond, rfl, hsuper⟩ := wp_returns hreturns
  have hcalls : createAll (flakyStore 3 (firstWriteFails 0)) 0 [1]
      ⟨fun off => if off = 1 then nullBlock.setWord 1 5 else nullBlock, []⟩ = .ok () s₁ := by
    simp only [createAll, bind, EStateM.bind, hfirst]
    rfl
  have hpat : WritesInodes (firstWriteFails 0) 1 := by
    refine ⟨fun s off => if_neg fun h => ?_, fun s off hoff _ => if_neg fun h => ?_⟩
    · cases h.1
    · cases h.1
      omega
  obtain ⟨-, s₃, hsize⟩ := treedisk_create_retry [1] 0 (by simp) (by simpa using hpat) rfl hcalls
    hsecond 0 (by rw [hsuper]; decide)
  exact ⟨_, s₁, s₂, s₃, rfl, hfirst, hsecond, hsize⟩

/-- On a disk of three blocks, the write of the inode block fails; the second call returns 0, and
inode 0 has the size that was on the disk. -/
theorem treedisk_create_retry_inodes :
    ∃ (disk : Disk) (s₁ s₂ s₃ : Flaky),
      (disk 0).nInodeblocks = 0 ∧
      treediskCreate (flakyStore 3 (firstWriteFails 1)) 0 1 ⟨disk, []⟩ = .ok (-1) s₁ ∧
      treediskCreate (flakyStore 3 (firstWriteFails 1)) 0 1 s₁ = .ok 0 s₂ ∧
      treediskGetsize ⟨flakyStore 3 (firstWriteFails 1), 0⟩ 0 s₂ = .ok 5 s₃ := by
  have hreturns : wp (treediskCreate (flakyStore 3 (firstWriteFails 1)) 0 1)
      (fun r s₁ => r = -1 ∧ wp (treediskCreate (flakyStore 3 (firstWriteFails 1)) 0 1)
        (fun r s₂ => r = 0 ∧ wp (treediskGetsize ⟨flakyStore 3 (firstWriteFails 1), 0⟩ 0)
          (fun r _ => r = 5) (fun _ _ => False) s₂) (fun _ _ => False) s₁)
      (fun _ _ => False)
      ⟨fun off => if off = 1 then nullBlock.setWord 1 5 else nullBlock, []⟩ := by decide +kernel
  obtain ⟨_, s₁, hfirst, rfl, hreturns⟩ := wp_returns hreturns
  obtain ⟨_, s₂, hsecond, rfl, hreturns⟩ := wp_returns hreturns
  obtain ⟨_, s₃, hsize, rfl⟩ := wp_returns hreturns
  exact ⟨_, s₁, s₂, s₃, rfl, hfirst, hsecond, hsize⟩

end Egos.File
