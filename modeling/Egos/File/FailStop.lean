import Egos.File.Failures

/-!
# When `treedisk_write` is fail-stop

`treedisk_write` checks the results of all its calls but one: `treedisk_alloc_block` does not look
at the result of its read of the free list, and goes on to write whatever the buffer then holds. All
other reads are of the superblock, of an inode block or of an indirect block. On a disk that is in
order none of these is the head of the free list, so that a run is fail-stop exactly if none of its
reads of the head of the free list fails.

Each function has two lemmas: that a run which went on after such a read stays `Broken`, and that
from a run without a failure it gets to a broken one, to one without a failure, or stops.
-/

namespace Egos.File

variable {nblocks bino : ℕ} {pattern : Pattern} {s : Flaky} {clear : Prop}

/-! ## `treedisk_alloc_block` -/

/-- `treedisk_alloc_block` after a read of the free list that failed. -/
theorem keeps_broken_allocBlock (sn : Snapshot) :
    Keeps Broken (treediskAllocBlock ⟨flakyStore nblocks pattern, bino⟩ sn) := by
  unfold treediskAllocBlock
  dsimp only
  split
  · exact Keeps.throw _
  · refine keeps_broken_read _ fun r => ?_
    split
    · exact Keeps.bind (keeps_broken_writeOrPanic _ _ _) fun _ => Keeps.pure _
    · exact Keeps.bind (keeps_broken_writeOrPanic _ _ _) fun _ => Keeps.pure _

/-- An allocation pops the free list; or its read fails, and it writes all the same. -/
theorem treediskAllocBlock_flaky (h : Clean s) {sn : Snapshot} (hsn : sn.superblock = s.disk 0) :
    wp (treediskAllocBlock ⟨flakyStore nblocks pattern, bino⟩ sn)
      (fun r s' => Broken s' ∨ Clean s' ∧ (s.disk 0).freeList ≠ 0 ∧
        s'.disk = (popFree s.disk).2 ∧
        r = ((popFree s.disk).1, { sn with superblock := s'.disk 0 }))
      (fun _ s' => Broken s' ∨ Halted clear s') s := by
  unfold treediskAllocBlock
  rw [hsn]
  dsimp only
  by_cases hz : (s.disk 0).freeList = 0
  · rw [if_pos hz]
    exact .inr h.halted
  rw [if_neg hz]
  refine wp_flakyRead _ (fun _ => ?_) fun r b _ _ => ?_
  · have hclean := h.record (.read (s.disk 0).freeList)
    simp only [popFree, show refsPerBlock - 1 = 127 from rfl]
    by_cases hi : scanRefs (s.disk (s.disk 0).freeList) 127 = 0
    · rw [if_pos hi, if_pos hi]
      refine wp_seq (writeOrPanic_flaky hclean _ _ _) ?_
      rintro - s2 ⟨hclean2, hdisk2⟩
      refine .inr ⟨hclean2, hz, hdisk2, ?_⟩
      rw [hdisk2, Function.update_self]
    · rw [if_neg hi, if_neg hi]
      refine wp_seq (writeOrPanic_flaky hclean _ _ _) ?_
      rintro - s2 ⟨hclean2, hdisk2⟩
      refine .inr ⟨hclean2, hz, hdisk2, ?_⟩
      rw [hdisk2, Function.update_of_ne (Ne.symm hz), Flaky.record_disk, ← hsn]
  -- the result of the read is not looked at
  · dsimp only
    split
    · exact wp_call (writeOrPanic_missed hz _ _ _) (fun _ _ h => .inl h) fun _ _ h => .inl h
    · exact wp_call (writeOrPanic_missed hz _ _ _) (fun _ _ h => .inl h) fun _ _ h => .inl h

/-- The block that is taken from the free list is not the superblock. -/
theorem popFree_ne_zero {D : Disk} (hne : (D 0).freeList ≠ 0) : (popFree D).1 ≠ 0 := by
  rw [popFree]
  rcases scanRefs_spec (D (D 0).freeList) 127 with ⟨h0, -⟩ | ⟨h1, -, hword⟩
  · rw [if_pos h0]
    exact hne
  · rw [if_neg (by omega)]
    exact hword

/-- Its number is an `unsigned`. -/
theorem popFree_lt (D : Disk) : (popFree D).1 < 2 ^ 32 := by
  rw [popFree]
  split
  · exact Block.word_lt _ _
  · exact Block.word_lt _ _

/-! ## Disks on which no other read is of the free list -/

/-- The free list is in order, and its blocks lie past the inode blocks. -/
def FreeAbove (nIb : ℕ) (D : Disk) : Prop :=
  ∃ heads, FreeListOk D heads ∧ ∀ b, OnFreeList D heads b → nIb < b

/-- Block `b` has just been inserted above a root: it is off the free list, and there is at most one
reference in it, the first one. -/
structure NewRoot (nIb : ℕ) (D : Disk) (b : ℕ) : Prop where
  above : nIb < b
  not_head : b ≠ (D 0).freeList
  hole : ∀ i ≠ 0, (D b).word i = 0

/-- The indirect blocks on the way from block `b` to an offset, with some levels left, are neither
inode blocks nor the head of the free list. -/
def PathClear (nIb logRpb offset : ℕ) (D : Disk) : ℕ → ℕ → Prop
  | 0, _ => True
  | n + 1, b => b ≠ 0 → nIb < b ∧ b ≠ (D 0).freeList ∧
      PathClear nIb logRpb offset D n ((D b).word (logShiftR offset (n * logRpb) % refsPerBlock))

variable {nIb logRpb offset : ℕ} {D : Disk}

/-- Below a hole there is nothing on the way. -/
theorem PathClear.zero (n : ℕ) : PathClear nIb logRpb offset D n 0 := by
  cases n with
  | zero => trivial
  | succ n => exact fun h => absurd rfl h

/-- The inode blocks are not on the way. -/
theorem PathClear.update_inodeblock {P : ℕ} (x : Block) (hP0 : P ≠ 0) (hP : P ≤ nIb) :
    ∀ {n b : ℕ}, PathClear nIb logRpb offset D n b →
      PathClear nIb logRpb offset (Function.update D P x) n b
  | 0, _, _ => trivial
  | n + 1, b, h => fun hne => by
    obtain ⟨habove, hhead, hrest⟩ := h hne
    rw [Function.update_of_ne (Ne.symm hP0), Function.update_of_ne (by omega : b ≠ P)]
    exact ⟨habove, hhead, hrest.update_inodeblock x hP0 hP⟩

/-- A block that is taken off the free list and written. -/
theorem FreeAbove.pop (h : FreeAbove nIb D) (hne : (D 0).freeList ≠ 0) (root : ℕ) :
    FreeAbove nIb (Function.update (popFree D).2 (popFree D).1 (nullBlock.setWord 0 root)) ∧
      NewRoot nIb (Function.update (popFree D).2 (popFree D).1 (nullBlock.setWord 0 root))
        (popFree D).1 := by
  obtain ⟨heads, hok, habove⟩ := h
  obtain ⟨heads', hp, hmem⟩ := popFree_spec hok hne
  have hb0 := popFree_ne_zero hne
  have hsame : ∀ x ∈ heads', Function.update (popFree D).2 (popFree D).1
      (nullBlock.setWord 0 root) x = (popFree D).2 x := fun x hx =>
    Function.update_of_ne (fun he : x = (popFree D).1 => hp.not_mem (.inl (he ▸ hx))) _ _
  refine ⟨⟨heads', hp.ok.congr ?_ hsame, fun b hb => ?_⟩, habove _ hmem, fun hhead => ?_,
    fun i hi0 => ?_⟩
  · rw [Function.update_of_ne (Ne.symm hb0)]
  · exact habove b ((hp.mem b).2 (.inl ((onFreeList_congr hsame b).1 hb)))
  · rw [Function.update_of_ne (Ne.symm hb0)] at hhead
    have hhead' := hp.ok.head_mem (hhead ▸ hb0)
    exact hp.not_mem (.inl (hhead ▸ hhead'))
  · rw [Function.update_self, Block.word_setWord_ne _ _ hi0, Block.word_nullBlock]

/-- Below a new root there is a hole on the way to an offset that the old tree did not reach. -/
theorem NewRoot.pathClear {b : ℕ} (h : NewRoot nIb D b) (hoff : offset < 2 ^ 32)
    (hlv : levels (offset + 1) ≠ 0) : PathClear nIb 7 offset D (levels (offset + 1)) b := by
  obtain ⟨n, hn⟩ := Nat.exists_eq_succ_of_ne_zero hlv
  rw [hn, PathClear]
  refine fun _ => ⟨h.above, h.not_head, ?_⟩
  -- the number of levels is the least one, so that the first index on the way is not 0
  have hle : 128 ^ n ≤ offset := lt_levels_iff.1 (by omega)
  have hlt : offset < 128 ^ n * 128 := by
    have hdiv := div_levels (Nat.lt_succ_self offset)
    rw [hn, Nat.pow_succ] at hdiv
    exact (Nat.div_eq_zero_iff_lt (by positivity)).1 hdiv
  have hindex : offset / 128 ^ n % 128 ≠ 0 := by
    have hpos : 0 < offset / 128 ^ n := Nat.div_pos hle (by positivity)
    have hsmall : offset / 128 ^ n < 128 := Nat.div_lt_of_lt_mul hlt
    omega
  rw [logShiftR_eq hoff, show refsPerBlock = 128 from rfl,
    h.hole _ hindex]
  exact PathClear.zero n

section

variable {total : ℕ} {F : FileMap} {N : Pos → ℕ} {heads : List ℕ} {limbo : ℕ → Prop}

/-- On a disk that stores files the free blocks are behind the inode blocks. -/
theorem Rep.freeAbove (h : Rep nIb total D F N heads limbo) : FreeAbove nIb D :=
  ⟨heads, h.stored.layout.free, fun b hb => (h.stored.layout.free_range b hb).1⟩

/-- The way to an offset in a tree is clear. -/
theorem Rep.pathClear (h : Rep nIb total D F N heads limbo) (ino : ℕ) (hoff : offset < 2 ^ 32) :
    ∀ ℓ ≤ levels (F.size ino), PathClear nIb 7 offset D ℓ (N ⟨ino, ℓ, offset / 128 ^ ℓ⟩)
  | 0, _ => trivial
  | ℓ + 1, hℓ => fun hne => by
    refine ⟨(h.stored.layout.node_range _ hne).1, fun hhead => ?_, ?_⟩
    · have hmem := h.stored.layout.free.head_mem (hhead ▸ hne)
      exact h.stored.layout.free_not_node _ (.inl hmem) _ hhead
    · have hslot : Slot nIb (fun j => levels (F.size j)) N ⟨ino, ℓ, offset / 128 ^ ℓ⟩ _ _ :=
        Slot.under hℓ hne
      rw [logShiftR_eq hoff, show refsPerBlock = 128 from rfl, hslot.word h.stored.layout.forest]
      exact h.pathClear ino hoff ℓ (by omega)

end

/-! ## `treedisk_write` -/

/-- What the functions behind `treedisk_write` keep: the snapshot has the superblock of the disk. -/
structure InStep (s : Flaky) (sn : Snapshot) : Prop where
  clean : Clean s
  superblock : sn.superblock = s.disk 0

/-- A block other than the superblock is written. -/
theorem InStep.update {s' : Flaky} {sn : Snapshot} {off : ℕ} {b : Block} (h : InStep s sn)
    (hclean : Clean s') (hdisk : s'.disk = Function.update s.disk off b) (hoff : off ≠ 0) :
    InStep s' sn :=
  ⟨hclean, by rw [hdisk, Function.update_of_ne (Ne.symm hoff), h.superblock]⟩

/-- A snapshot is of the disk, or there is none and no more calls follow. -/
theorem treediskGetSnapshot_flaky (h : Clean s) (ino : ℕ)
    (hclear : clear → ino < 64 * (s.disk 0).nInodeblocks → (s.disk 0).freeList ≠ 0 →
      1 + ino / 64 ≠ (s.disk 0).freeList) :
    wp (treediskGetSnapshot ⟨flakyStore nblocks pattern, bino⟩ ino)
      (fun r s' => (Halted clear s' ∧ r = none) ∨
        (Clean s' ∧ s'.disk = s.disk ∧ ino < 64 * (s.disk 0).nInodeblocks ∧
          r = some ⟨s.disk 0, s.disk (1 + ino / 64), 1 + ino / 64, ino % 64⟩))
      (fun _ s' => Broken s' ∨ Halted clear s') s := by
  unfold treediskGetSnapshot
  refine wp_flakyRead 0 (fun _ => ?_) fun r b hr _ => ?_
  · have h1 := h.record (.read 0)
    dsimp only
    rw [if_neg (lt_irrefl 0)]
    split
    next => exact .inl ⟨h1.halted, rfl⟩
    next hino =>
      rw [show inodesPerBlock = 64 from rfl, Nat.mul_comm, not_le] at hino
      refine wp_flakyRead _ (fun _ => ?_) fun r b hr _ => ?_
      · dsimp only
        rw [if_neg (lt_irrefl 0)]
        exact .inr ⟨h1.record _, rfl, hino, rfl⟩
      · dsimp only
        rw [if_pos hr]
        refine .inl ⟨h1.fail fun hc hne heq => hclear hc hino hne ?_, rfl⟩
        exact BelowCall.read.inj heq
  · dsimp only
    rw [if_pos hr]
    exact .inl ⟨h.fail fun _ hne heq => hne (BelowCall.read.inj heq).symm, rfl⟩

/-- The loop that adds levels, after a read of the free list that failed. -/
theorem keeps_broken_growLevels :
    ∀ (n : ℕ) (sn : Snapshot), Keeps Broken (growLevels ⟨flakyStore nblocks pattern, bino⟩ n sn)
  | 0, _ => Keeps.pure _
  | n + 1, sn => by
    rw [growLevels]
    exact Keeps.bind (keeps_broken_allocBlock sn) fun _ =>
      Keeps.bind (keeps_broken_writeOrPanic _ _ _) fun _ => keeps_broken_growLevels n _

/-- The loop that inserts indirect blocks leaves a new root. -/
theorem growLevels_flaky (nIb : ℕ) :
    ∀ (n : ℕ) {s : Flaky} {sn : Snapshot}, InStep s sn → sn.inode < 64 →
      (clear → FreeAbove nIb s.disk) →
      wp (growLevels ⟨flakyStore nblocks pattern, bino⟩ n sn)
        (fun sn' s' => Broken s' ∨ InStep s' sn' ∧ sn'.inodeBlockno = sn.inodeBlockno ∧
          (n = 0 → sn' = sn ∧ s' = s) ∧ (clear → n ≠ 0 → NewRoot nIb s'.disk sn'.root))
        (fun _ s' => Broken s' ∨ Halted clear s') s
  | 0, _, _, h, _, _ => .inr ⟨h, rfl, fun _ => ⟨rfl, rfl⟩, fun _ h => absurd rfl h⟩
  | n + 1, s, sn, h, hinode, hfree => by
    rw [growLevels]
    refine wp_seq (treediskAllocBlock_flaky h.clean h.superblock) ?_
    rintro ⟨indir, sn1⟩ s1 (hbroken | ⟨hclean1, hne, hdisk1, hr⟩)
    · exact wp_mono (Keeps.bind (keeps_broken_writeOrPanic _ _ _)
        (fun _ => keeps_broken_growLevels n _) s1 hbroken) (fun _ _ h => .inl h) fun _ _ h => .inl h
    cases hr
    refine wp_seq (writeOrPanic_flaky hclean1 _ _ _) ?_
    rintro - s2 ⟨hclean2, hdisk2⟩
    have hstep : InStep s1 ({ sn with superblock := s1.disk 0 } : Snapshot) := ⟨hclean1, rfl⟩
    have h2 := hstep.update hclean2 hdisk2 (popFree_ne_zero hne)
    rw [hdisk1] at hdisk2
    have hroot : ((({ sn with superblock := s1.disk 0 } : Snapshot).setRoot
        (popFree s.disk).1)).root = (popFree s.disk).1 :=
      Block.word_setWord_self _ (show 2 * sn.inode < 128 by omega) (popFree_lt _)
    have hpop (hc : clear) := (hfree hc).pop hne sn.root
    refine wp_mono (growLevels_flaky nIb n ⟨hclean2, h2.superblock⟩ hinode fun hc => ?_) ?_
      fun _ _ h => h
    · rw [hdisk2]
      exact (hpop hc).1
    · rintro sn' s' (hbroken | ⟨h', hP, hsame, hnew⟩)
      · exact .inl hbroken
      · refine .inr ⟨h', hP, fun h0 => absurd h0 (Nat.succ_ne_zero n), fun hc _ => ?_⟩
        by_cases hn : n = 0
        · obtain ⟨rfl, rfl⟩ := hsame hn
          rw [hroot, hdisk2]
          exact (hpop hc).2
        · exact hnew hc hn

/-- The walk down, after a read of the free list that failed. -/
theorem keeps_broken_writeWalk (logRpb offset : ℕ) :
    ∀ (nlevels : ℕ) (sn : Snapshot) (parentOff : ℕ) (parentBlock : Block) (idx : ℕ),
      Keeps Broken (writeWalk ⟨flakyStore nblocks pattern, bino⟩ logRpb offset nlevels sn parentOff
        parentBlock idx)
  | 0, sn, parentOff, parentBlock, idx => by
    rw [writeWalk]
    split
    · exact Keeps.bind (keeps_broken_allocBlock sn) fun _ =>
        Keeps.bind (keeps_broken_writeOrPanic _ _ _) fun _ => Keeps.pure _
    · exact Keeps.pure _
  | nlevels + 1, sn, parentOff, parentBlock, idx => by
    rw [writeWalk]
    split
    · exact Keeps.bind (keeps_broken_allocBlock sn) fun _ =>
        Keeps.bind (keeps_broken_writeOrPanic _ _ _) fun _ =>
          keeps_broken_writeWalk logRpb offset nlevels _ _ _ _
    · refine keeps_broken_read _ fun r => ?_
      dsimp only
      split
      · exact Keeps.throw _
      · exact keeps_broken_writeWalk logRpb offset nlevels _ _ _ _

/-- The walk to an offset goes through, or stops at the first call that fails. -/
theorem writeWalk_flaky (logRpb offset : ℕ) :
    ∀ (nlevels : ℕ) {s : Flaky} {sn : Snapshot} {parentOff : ℕ} {parentBlock : Block} {idx : ℕ},
      InStep s sn → parentOff ≠ 0 →
      (clear → PathClear nIb logRpb offset s.disk nlevels (parentBlock.word idx)) →
      wp (writeWalk ⟨flakyStore nblocks pattern, bino⟩ logRpb offset nlevels sn parentOff
        parentBlock idx) (fun _ s' => Broken s' ∨ Clean s')
        (fun _ s' => Broken s' ∨ Halted clear s') s := by
  intro nlevels
  induction nlevels with
  | zero =>
    intro s sn parentOff parentBlock idx h hoff hpath
    rw [writeWalk]
    split
    · refine wp_seq (treediskAllocBlock_flaky h.clean h.superblock) ?_
      rintro ⟨b, sn1⟩ s1 (hbroken | ⟨hclean1, -⟩)
      · exact wp_mono (Keeps.bind (keeps_broken_writeOrPanic _ _ _) (fun _ => Keeps.pure b) s1
          hbroken) (fun _ _ h => .inl h) fun _ _ h => .inl h
      · refine wp_seq (writeOrPanic_flaky hclean1 _ _ _) ?_
        rintro - s2 ⟨hclean2, -⟩
        exact .inr hclean2
    · exact .inr h.clean
  | succ nlevels ih =>
    intro s sn parentOff parentBlock idx h hoff hpath
    rw [writeWalk]
    split
    · refine wp_seq (treediskAllocBlock_flaky h.clean h.superblock) ?_
      rintro ⟨b, sn1⟩ s1 (hbroken | ⟨hclean1, hne, hdisk1, hr⟩)
      · exact wp_mono (Keeps.bind (keeps_broken_writeOrPanic _ _ _)
          (fun _ => keeps_broken_writeWalk logRpb offset nlevels _ _ _ _) s1 hbroken)
          (fun _ _ h => .inl h) fun _ _ h => .inl h
      cases hr
      refine wp_seq (writeOrPanic_flaky hclean1 _ _ _) ?_
      rintro - s2 ⟨hclean2, hdisk2⟩
      have hstep : InStep s1 ({ sn with superblock := s1.disk 0 } : Snapshot) := ⟨hclean1, rfl⟩
      refine ih (hstep.update hclean2 hdisk2 hoff) (popFree_ne_zero hne) fun _ => ?_
      -- from a hole on there is nothing to read
      rw [Block.word_nullBlock]
      exact PathClear.zero nlevels
    next hne =>
      refine wp_flakyRead _ (fun _ => ?_) fun r b hr _ => ?_
      · dsimp only
        rw [if_neg (lt_irrefl 0)]
        exact ih ⟨h.clean.record _, h.superblock⟩ hne fun hc => (hpath hc hne).2.2
      · dsimp only
        rw [if_pos hr]
        exact .inr (h.clean.fail fun hc _ heq => (hpath hc hne).2.1 (BelowCall.read.inj heq))

/-- The walk and the write of the data, after a read of the free list that failed. -/
theorem keeps_broken_writeWalk_data (logRpb offset nlevels : ℕ) (block : Block) (sn : Snapshot) :
    Keeps Broken (do
      let b ← writeWalk ⟨flakyStore nblocks pattern, bino⟩ logRpb offset nlevels sn
        sn.inodeBlockno sn.inodeblock (2 * sn.inode)
      writeOrPanic (flakyStore nblocks pattern) bino b block "treedisk_write: data block"
      return (0 : ℤ)) :=
  Keeps.bind (keeps_broken_writeWalk logRpb offset nlevels sn _ _ _) fun _ =>
    Keeps.bind (keeps_broken_writeOrPanic _ _ _) fun _ => Keeps.pure _

/-- The end of `treedisk_write`: the walk and the write of the data. -/
theorem writeWalk_data_flaky (logRpb offset nlevels : ℕ) (block : Block) {sn : Snapshot}
    (h : InStep s sn) (hP : sn.inodeBlockno ≠ 0)
    (hpath : clear → PathClear nIb logRpb offset s.disk nlevels sn.root) :
    wp (do
        let b ← writeWalk ⟨flakyStore nblocks pattern, bino⟩ logRpb offset nlevels sn
          sn.inodeBlockno sn.inodeblock (2 * sn.inode)
        writeOrPanic (flakyStore nblocks pattern) bino b block "treedisk_write: data block"
        return (0 : ℤ))
      (fun _ s' => Broken s' ∨ Clean s') (fun _ s' => Broken s' ∨ Halted clear s') s := by
  refine wp_seq (writeWalk_flaky logRpb offset _ h hP hpath) ?_
  rintro b s4 (hbroken | hclean4)
  · exact wp_mono (Keeps.bind (keeps_broken_writeOrPanic _ _ _) (fun _ => Keeps.pure 0) s4 hbroken)
      (fun _ _ h => .inl h) fun _ _ h => .inl h
  · refine wp_seq (writeOrPanic_flaky hclean4 _ _ _) ?_
    rintro - s5 ⟨hclean5, -⟩
    exact .inr hclean5

/-- What `treedisk_write` computes from a snapshot: the snapshot with the new size, the number of
indirect blocks to insert, and the number of levels of the tree in the end. -/
@[irreducible] def growth (logRpb offset : ℕ) (sn : Snapshot) : Snapshot × ℕ × ℕ :=
  let nlevels := nlevelsOf logRpb sn.nblocks
  let grows := decide (offset ≥ sn.nblocks)
  let sn' := if grows then sn.setNblocks ((offset + 1) % 2 ^ 32) else sn
  let nlevelsAfter := if grows then levelsFor logRpb offset else nlevels
  (sn', if sn'.nblocks = 0 then 0 else nlevelsAfter - nlevels,
    if sn'.nblocks = 0 then nlevelsAfter else max nlevels nlevelsAfter)

/-- New levels leave the superblock and the place of the inode. -/
theorem growth_keeps (logRpb offset : ℕ) (sn : Snapshot) :
    (growth logRpb offset sn).1.superblock = sn.superblock ∧
      (growth logRpb offset sn).1.inodeBlockno = sn.inodeBlockno ∧
      (growth logRpb offset sn).1.inode = sn.inode := by
  simp only [growth]
  split <;> exact ⟨rfl, rfl, rfl⟩

/-- On a disk that stores files, the way is clear when no block is inserted; and when blocks are,
the number of levels is the least one for the offset. -/
theorem Rep.growth_clear {total : ℕ} {F : FileMap} {N : Pos → ℕ} {heads : List ℕ}
    {limbo : ℕ → Prop} (h : Rep nIb total D F N heads limbo) {ino : ℕ} (hi : ino < 64 * nIb)
    (hoff : offset + 1 < 2 ^ 32) {sn : Snapshot}
    (hsn : sn = ⟨D 0, D (1 + ino / 64), 1 + ino / 64, ino % 64⟩) :
    ((growth 7 offset sn).2.1 = 0 →
      PathClear nIb 7 offset D (growth 7 offset sn).2.2 (growth 7 offset sn).1.root) ∧
    ((growth 7 offset sn).2.1 ≠ 0 →
      (growth 7 offset sn).2.2 = levels (offset + 1) ∧ levels (offset + 1) ≠ 0) := by
  have hsize : sn.nblocks = F.size ino := by
    rw [hsn]
    exact h.size ino hi
  have hlt : F.size ino < 2 ^ 32 := by
    rw [← h.size ino hi]
    exact nblocksOf_lt _ _
  have hroot : sn.root = N ⟨ino, levels (F.size ino), 0⟩ := by
    rw [h.stored.layout.forest.root ino hi, hsn]
    rfl
  have hpath := h.pathClear ino (by omega : offset < 2 ^ 32) _ le_rfl
  have hlv := nlevelsOf_eq hlt
  by_cases hgrow : F.size ino ≤ offset
  · have hinode : 2 * sn.inode + 1 < 128 := by
      rw [hsn]
      dsimp only
      omega
    have hset : (sn.setNblocks (offset + 1)).nblocks = offset + 1 :=
      Block.word_setWord_self _ hinode hoff
    have hkeep : (sn.setNblocks (offset + 1)).root = sn.root := Block.word_setWord_ne _ _ (by omega)
    have hmono : levels (F.size ino) ≤ levels (offset + 1) := levels_mono (by omega)
    simp only [growth, hsize, decide_eq_true hgrow, if_true, Nat.mod_eq_of_lt hoff, hset, hkeep,
      if_neg (Nat.succ_ne_zero offset), hlv, levelsFor_eq (by omega : offset < 2 ^ 32),
      max_eq_right hmono]
    refine ⟨fun h0 => ?_, fun h0 => ⟨trivial, by omega⟩⟩
    have heq : levels (F.size ino) = levels (offset + 1) := by omega
    rw [heq, div_levels (Nat.lt_succ_self offset), ← heq, ← hroot, heq] at hpath
    exact hpath
  · have hne : F.size ino ≠ 0 := by omega
    simp only [growth, hsize, decide_eq_false hgrow, Bool.false_eq_true, if_false, if_neg hne, hlv,
      Nat.sub_self, max_self]
    rw [div_levels (by omega), ← hroot] at hpath
    exact ⟨fun _ => hpath, fun h0 => absurd rfl h0⟩

/-- `treedisk_write` from the snapshot on. -/
def writeSnapshot {σ : Type} (logRpb : ℕ) (ts : TreediskState σ) (offset : ℕ) (block : Block)
    (grows : Bool) (g : Snapshot × ℕ × ℕ) : StoreM σ ℤ := do
  let sn ← growLevels ts g.2.1 g.1
  if grows || decide (g.2.1 > 0) then
    writeOrPanic ts.below ts.belowIno sn.inodeBlockno sn.inodeblock "treedisk_write: inode block"
  let b ← writeWalk ts logRpb offset g.2.2 sn sn.inodeBlockno sn.inodeblock (2 * sn.inode)
  writeOrPanic ts.below ts.belowIno b block "treedisk_write: data block"
  return 0

/-- Run `treedisk_write`: take the snapshot, and go on from there. -/
theorem wp_treediskWrite {σ : Type} {logRpb : ℕ} {ts : TreediskState σ} {ino offset : ℕ}
    {block : Block} {P : Option Snapshot → σ → Prop} {Q : ℤ → σ → Prop} {E : String → σ → Prop}
    {s : σ} (hsnap : wp (treediskGetSnapshot ts ino) P E s)
    (hnone : ∀ s', P none s' → Q (-1) s')
    (hsome : ∀ sn s', P (some sn) s' → wp (writeSnapshot logRpb ts offset block
      (decide (offset ≥ sn.nblocks)) (growth logRpb offset sn)) Q E s') :
    wp (treediskWrite logRpb ts ino offset block) Q E s := by
  unfold treediskWrite
  refine wp_seq hsnap fun r s' h => ?_
  cases r with
  | none => exact hnone s' h
  | some sn =>
    have hrest := hsome sn s' h
    simp only [writeSnapshot, growth] at hrest
    exact hrest

/-- From a snapshot on, if the way is clear after the blocks have been inserted. -/
theorem writeSnapshot_flaky (nIb : ℕ) (block : Block) (grows : Bool) {g : Snapshot × ℕ × ℕ}
    (h : InStep s g.1) (hinode : g.1.inode < 64) (hP0 : g.1.inodeBlockno ≠ 0)
    (hfree : clear → FreeAbove nIb s.disk) (hP : clear → g.1.inodeBlockno ≤ nIb)
    (hnone : clear → g.2.1 = 0 → PathClear nIb logRpb offset s.disk g.2.2 g.1.root)
    (hsome : clear → g.2.1 ≠ 0 →
      ∀ D b, NewRoot nIb D b → PathClear nIb logRpb offset D g.2.2 b) :
    wp (writeSnapshot logRpb ⟨flakyStore nblocks pattern, bino⟩ offset block grows g)
      (fun _ s' => Broken s' ∨ Clean s') (fun _ s' => Broken s' ∨ Halted clear s') s := by
  unfold writeSnapshot
  refine wp_seq (growLevels_flaky nIb g.2.1 h hinode hfree) ?_
  rintro sn s2 (hbroken | ⟨h2, hblockno, hsame, hnew⟩)
  · split
    · exact wp_mono (Keeps.bind (keeps_broken_writeOrPanic _ _ _)
        (fun _ => keeps_broken_writeWalk_data logRpb offset g.2.2 block sn) s2 hbroken)
        (fun _ _ h => .inl h) fun _ _ h => .inl h
    · exact wp_mono (keeps_broken_writeWalk_data logRpb offset g.2.2 block sn s2 hbroken)
        (fun _ _ h => .inl h) fun _ _ h => .inl h
  rw [← hblockno] at hP0 hP
  have hpath (hc : clear) : PathClear nIb logRpb offset s2.disk g.2.2 sn.root := by
    by_cases hmissing : g.2.1 = 0
    · obtain ⟨rfl, rfl⟩ := hsame hmissing
      exact hnone hc hmissing
    · exact hsome hc hmissing _ _ (hnew hc hmissing)
  split
  · refine wp_seq (writeOrPanic_flaky h2.clean _ _ _) ?_
    rintro - s3 ⟨hclean3, hdisk3⟩
    have hpath3 (hc : clear) : PathClear nIb logRpb offset s3.disk g.2.2 sn.root := by
      rw [hdisk3]
      exact (hpath hc).update_inodeblock _ hP0 (hP hc)
    exact writeWalk_data_flaky logRpb offset _ block (h2.update hclean3 hdisk3 hP0) hP0 hpath3
  · exact writeWalk_data_flaky logRpb offset _ block h2 hP0 hpath

/-- Every run of `treedisk_write` either goes on after its read of the free list has failed, or
stops at the first call that fails, which is of something else if the disk is in order. -/
theorem treediskWrite_flaky (clear : Prop) (nIb : ℕ) (disk : Disk) (ino : ℕ) (block : Block)
    (hclear : clear → logRpb = 7 ∧ offset + 1 < 2 ^ 32 ∧
      ∃ total F N heads limbo, Rep nIb total disk F N heads limbo) :
    wp (treediskWrite logRpb ⟨flakyStore nblocks pattern, bino⟩ ino offset block)
      (fun r s => Broken s ∨ Clean s ∨ (Halted clear s ∧ r = -1))
      (fun _ s => Broken s ∨ Halted clear s) ⟨disk, []⟩ := by
  have hstart : Clean ⟨disk, []⟩ := fun e he => by cases he
  refine wp_treediskWrite (treediskGetSnapshot_flaky hstart ino fun hc hino hne heq => ?_) ?_ ?_
  · obtain ⟨-, -, total, F, N, heads, limbo, hrep⟩ := hclear hc
    have hhead := hrep.stored.layout.head_gt (hrep.stored.layout.free.head_mem hne)
    rw [hrep.stored.layout.super] at hino
    have hle := inodeblock_le hino
    dsimp only at heq
    omega
  · rintro s1 (⟨hhalted, -⟩ | ⟨-, -, -, hr⟩)
    · exact .inr (.inr ⟨hhalted, rfl⟩)
    · cases hr
  rintro sn s1 (⟨-, hr⟩ | ⟨hclean1, hdisk1, hino, hr⟩)
  · cases hr
  dsimp only at hdisk1 hino hr
  have hsn := Option.some.inj hr
  obtain ⟨hsuper, hblockno, hinode⟩ := growth_keeps logRpb offset sn
  refine wp_mono (writeSnapshot_flaky nIb block _ ⟨hclean1, ?_⟩ ?_ ?_ ?_ ?_ ?_ ?_)
    (fun _ _ h => h.imp_right .inl) fun _ _ h => h
  · rw [hsuper, hdisk1, hsn]
  · rw [hinode, hsn]
    exact Nat.mod_lt _ (by norm_num)
  · rw [hblockno, hsn]
    exact Nat.succ_ne_zero _ ∘ (Nat.add_comm _ _).trans
  · intro hc
    obtain ⟨-, -, total, F, N, heads, limbo, hrep⟩ := hclear hc
    rw [hdisk1]
    exact hrep.freeAbove
  · intro hc
    obtain ⟨-, -, total, F, N, heads, limbo, hrep⟩ := hclear hc
    rw [hrep.stored.layout.super] at hino
    rw [hblockno, hsn]
    exact inodeblock_le hino
  · intro hc hmissing
    obtain ⟨rfl, hoff, total, F, N, heads, limbo, hrep⟩ := hclear hc
    rw [hrep.stored.layout.super] at hino
    rw [hdisk1]
    exact (hrep.growth_clear hino hoff hsn).1 hmissing
  · intro hc hmissing D b hnew
    obtain ⟨rfl, hoff, total, F, N, heads, limbo, hrep⟩ := hclear hc
    rw [hrep.stored.layout.super] at hino
    obtain ⟨hlv, hlv0⟩ := (hrep.growth_clear hino hoff hsn).2 hmissing
    rw [hlv]
    exact hnew.pathClear (by omega) hlv0

/-- No call has failed, or the result is `-1`. -/
def ErrorReturned (r : ℤ) (s : Flaky) : Prop := (∃ e ∈ s.trace, e.failed = true) → r = -1

/-- Without failures any result will do. -/
theorem Clean.errorReturned (h : Clean s) (r : ℤ) : ErrorReturned r s := by
  rintro ⟨e, he, hfailed⟩
  rw [h e he] at hfailed
  cases hfailed

/-- `treedisk_write` is fail-stop on every disk whatsoever, for every pattern of failures, in a run
in which no read of the block at the head of the free list fails: after a call that failed it makes
no write, and returns `-1` or panics. On a disk that was created and written to, it is fail-stop in
no other run. -/
theorem treedisk_write_fail_stop (pattern : Pattern) :
    (∀ (disk : Disk) (nblocks bino logRpb ino offset : ℕ) (block : Block),
      wp (treediskWrite logRpb ⟨flakyStore nblocks pattern, bino⟩ ino offset block)
        (fun r s => ¬ Missed s → FailStop s.trace ∧ ErrorReturned r s)
        (fun _ s => ¬ Missed s → FailStop s.trace) ⟨disk, []⟩) ∧
    ∀ {nblocks bino ninodes logRpb : ℕ} {s₀ s₁ s₂ : Disk} {ops : List TreediskOp}
      {h : ℕ × TreediskState Disk}, nblocks < 2 ^ 32 → s₀ 0 = nullBlock → 1 ≤ ninodes →
      ninodes < 2 ^ 32 → treediskCreate (arrayStore nblocks) bino ninodes s₀ = .ok 0 s₁ →
      (logRpb = 0 ∨ logRpb = logRpbLoop 32 0) → (∀ op ∈ ops, op.OffsetOk) →
      runOps (treediskInit logRpb (arrayStore nblocks) bino) ops s₁ = .ok h s₂ →
      ∀ (ino offset : ℕ) (block : Block), offset < 2 ^ 32 - 1 →
        wp (treediskWrite h.1 ⟨flakyStore nblocks pattern, bino⟩ ino offset block)
          (fun r s => (FailStop s.trace ∧ ErrorReturned r s) ↔ ¬ Missed s)
          (fun _ s => FailStop s.trace ↔ ¬ Missed s) ⟨s₂, []⟩ := by
  constructor
  · intro disk nblocks bino logRpb ino offset block
    refine wp_mono (treediskWrite_flaky False 0 disk ino block False.elim) ?_ ?_
    · rintro r s (hbroken | hclean | ⟨hhalted, rfl⟩) hmissed
      · exact absurd hbroken.1 hmissed
      · exact ⟨hclean.failStop, hclean.errorReturned r⟩
      · exact ⟨hhalted.1.failStop, fun _ => rfl⟩
    · rintro - s (hbroken | hhalted) hmissed
      · exact absurd hbroken.1 hmissed
      · exact hhalted.1.failStop
  · intro nblocks bino ninodes logRpb s₀ s₁ s₂ ops h hn hzero hpos hn32 hcreate hlog hops hrun ino
      offset block hoff
    have hfresh : (s₀ 0).nInodeblocks = 0 := by
      rw [hzero, Block.nInodeblocks, Block.word_nullBlock]
    have hopen := open_of_create (arrayStoreArray bino nblocks hn) trivial hfresh hpos
      hn32 hcreate hlog
    obtain ⟨rfl, -, ⟨N, heads, hrep⟩, -, -, -⟩ := wp_ok (runOps_spec _ ops hopen hops) hrun
    refine wp_mono (treediskWrite_flaky True _ s₂ ino block fun _ =>
      ⟨rfl, by omega, nblocks, _, N, heads, _, hrep⟩) ?_ ?_
    · rintro r s (hbroken | hclean | ⟨hhalted, rfl⟩)
      · exact iff_of_false (fun h => hbroken.2 h.1) (not_not.2 hbroken.1)
      · exact iff_of_true ⟨hclean.failStop, hclean.errorReturned r⟩ hclean.not_missed
      · exact iff_of_true ⟨hhalted.1.failStop, fun _ => rfl⟩ (hhalted.2 trivial)
    · rintro - s (hbroken | hhalted)
      · exact iff_of_false hbroken.2 (not_not.2 hbroken.1)
      · exact iff_of_true hhalted.1.failStop (hhalted.2 trivial)

/-- Every write fails and no read does. -/
def writesFail : Pattern := fun _ call =>
  match call with
  | .read _ => none
  | .write _ => some ⟨0, nullBlock⟩

/-- On a created disk of three blocks, a write panics at its first write. -/
theorem treedisk_write_fail_stop_writesFail :
    ∃ (s₁ : Disk) (e : String) (s₂ : Flaky),
      treediskCreate (arrayStore 3) 0 1 (fun _ => nullBlock) = .ok 0 s₁ ∧
      treediskWrite 7 ⟨flakyStore 3 writesFail, 0⟩ 0 0 nullBlock ⟨s₁, []⟩ = .error e s₂ ∧
      ⟨.write 1, true, 2⟩ ∈ s₂.trace ∧ ¬ Missed s₂ ∧ FailStop s₂.trace := by
  have hreturns : wp (treediskCreate (arrayStore 3) 0 1)
      (fun r s₁ => r = 0 ∧ wp (treediskWrite 7 ⟨flakyStore 3 writesFail, 0⟩ 0 0 nullBlock)
        (fun _ _ => False)
        (fun _ s₂ => ⟨.write 1, true, 2⟩ ∈ s₂.trace ∧ ∀ e ∈ s₂.trace, ¬ e.MissesFreeList)
        ⟨s₁, []⟩)
      (fun _ _ => False) (fun _ => nullBlock) := by decide +kernel
  obtain ⟨_, s₁, hcreate, rfl, hwrite⟩ := wp_returns hreturns
  obtain ⟨e, s₂, hwrite, hmem, hnone⟩ := wp_panics hwrite
  have hmissed : ¬ Missed s₂ := fun ⟨e, he, hmiss⟩ => hnone e he hmiss
  have hiff := wp_error ((treedisk_write_fail_stop writesFail).2 (by norm_num) rfl (le_refl 1)
    (by norm_num) hcreate (.inl rfl) (by simp) (rfl : runOps _ [] s₁ = _) 0 0 nullBlock
    (by norm_num)) hwrite
  exact ⟨s₁, e, s₂, hcreate, hwrite, hmem, hmissed, hiff.2 hmissed⟩

/-- Reads of block 2 fail, with the number 1 as the first reference in the buffer. -/
def freeListFails : Pattern := fun _ call =>
  if call = .read 2 then some ⟨0, nullBlock.setWord 1 1⟩ else none

/-- On a created disk of three blocks, the read of the free list fails and `treedisk_write` goes on
to write three times: it returns 0, with the data in the place of the inode block. -/
theorem treedisk_write_not_fail_stop :
    ∃ (s₁ : Disk) (s₂ : Flaky),
      treediskCreate (arrayStore 3) 0 1 (fun _ => nullBlock) = .ok 0 s₁ ∧
      treediskWrite 7 ⟨flakyStore 3 freeListFails, 0⟩ 0 0 (nullBlock.setWord 0 7) ⟨s₁, []⟩
        = .ok 0 s₂ ∧
      s₂.trace = [⟨.write 1, false, 2⟩, ⟨.write 1, false, 2⟩, ⟨.write 2, false, 2⟩,
        ⟨.read 2, true, 2⟩, ⟨.write 1, false, 2⟩, ⟨.read 1, false, 2⟩, ⟨.read 0, false, 2⟩] ∧
      (s₂.disk 1).word 0 = 7 ∧ ¬ FailStop s₂.trace := by
  have hreturns : wp (treediskCreate (arrayStore 3) 0 1)
      (fun r s₁ => r = 0 ∧
        wp (treediskWrite 7 ⟨flakyStore 3 freeListFails, 0⟩ 0 0 (nullBlock.setWord 0 7))
          (fun r s₂ => (r = 0 ∧ (s₂.disk 1).word 0 = 7) ∧
            s₂.trace = [⟨.write 1, false, 2⟩, ⟨.write 1, false, 2⟩, ⟨.write 2, false, 2⟩,
              ⟨.read 2, true, 2⟩, ⟨.write 1, false, 2⟩, ⟨.read 1, false, 2⟩, ⟨.read 0, false, 2⟩])
          (fun _ _ => False) ⟨s₁, []⟩)
      (fun _ _ => False) (fun _ => nullBlock) := by decide +kernel
  obtain ⟨_, s₁, hcreate, rfl, hwrite⟩ := wp_returns hreturns
  obtain ⟨_, s₂, hwrite, ⟨rfl, hword⟩, htrace⟩ := wp_returns hwrite
  refine ⟨s₁, s₂, hcreate, hwrite, htrace, hword, fun h => ?_⟩
  exact h [⟨.write 1, false, 2⟩, ⟨.write 1, false, 2⟩, ⟨.write 2, false, 2⟩] ⟨.read 2, true, 2⟩ _
    htrace rfl ⟨.write 1, false, 2⟩ (by simp) 1 rfl

end Egos.File
