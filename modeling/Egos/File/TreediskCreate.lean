import Egos.File.TreediskWrite

/-!
# Creating a treedisk

`treedisk_create` on a block array whose superblock is not in use writes the free list, the
superblock and null inode blocks; the disk then stores the empty files. On a superblock that is in
use it changes nothing.
-/

namespace Egos.File

variable {σ : Type} {below : InodeStore σ} {bino nblocks : ℕ} {fails : String → σ → Prop}
variable {nIb : ℕ} {D : Disk} {heads : List ℕ}

/-! ## The blocks of the free list -/

/-- `fillRefs` writes consecutive block numbers from index `i` on, as far as there are blocks and
room. -/
theorem fillRefs_spec (hn : nblocks ≤ 2 ^ 32) :
    ∀ (room i nextFree : ℕ) (data : Block), i + room ≤ 128 → nextFree ≤ nblocks →
      (fillRefs nblocks room i nextFree data).2.1 = i + min room (nblocks - nextFree) ∧
      (fillRefs nblocks room i nextFree data).2.2 = nextFree + min room (nblocks - nextFree) ∧
      ∀ j, j < 128 → (fillRefs nblocks room i nextFree data).1.word j =
        if i ≤ j ∧ j < i + min room (nblocks - nextFree) then nextFree + (j - i)
        else data.word j
  | 0, i, nextFree, data, _, _ => by
    refine ⟨by simp [fillRefs], by simp [fillRefs], fun j _ => ?_⟩
    rw [if_neg (by omega), fillRefs]
  | room + 1, i, nextFree, data, hroom, hle => by
    rw [fillRefs]
    by_cases hlt : nextFree < nblocks
    · obtain ⟨h1, h2, h3⟩ := fillRefs_spec hn room (i + 1) (nextFree + 1)
        (data.setWord i nextFree) (by omega) (by omega)
      rw [if_pos hlt]
      refine ⟨by omega, by omega, fun j hj => ?_⟩
      rw [h3 j hj, Block.word_setWord _ (by omega) (by omega)]
      split_ifs <;> omega
    · rw [if_neg hlt]
      refine ⟨by simp only; omega, by simp only; omega, fun j _ => ?_⟩
      rw [if_neg (by omega)]

/-- `clearRefs` writes zeroes from index `i` on. -/
theorem clearRefs_spec :
    ∀ (room i : ℕ) (data : Block), i + room ≤ 128 → ∀ j, j < 128 →
      (clearRefs room i data).word j = if i ≤ j ∧ j < i + room then 0 else data.word j
  | 0, i, data, _, j, _ => by rw [if_neg (by omega), clearRefs]
  | room + 1, i, data, hroom, j, hj => by
    rw [clearRefs, clearRefs_spec room (i + 1) _ (by omega) j hj,
      Block.word_setWord _ (by omega) (by omega)]
    split_ifs <;> omega

/-- Pushing block `n`, whose references are fresh, on the free list that starts at `f`. -/
theorem FreeListFrom.push {f n : ℕ} {d : Block} (h : FreeListFrom D f heads) (hn : n ≠ 0)
    (hfresh : ¬ OnFreeList D heads n) (hlink : d.word 0 = f)
    (hrefs : ∀ i j, 1 ≤ i → i < 128 → 1 ≤ j → j < 128 → d.word i ≠ 0 → d.word i = d.word j → i = j)
    (hnew : ∀ i, 1 ≤ i → i < 128 → d.word i ≠ 0 → d.word i ≠ n ∧ ¬ OnFreeList D heads (d.word i)) :
    FreeListFrom (Function.update D n d) n (n :: heads) := by
  have hne : ∀ x ∈ heads, x ≠ n := fun x hx he => hfresh (Or.inl (he ▸ hx))
  have hsame : ∀ x ∈ heads, Function.update D n d x = D x := fun x hx =>
    Function.update_of_ne (hne x hx) _ _
  have hself : Function.update D n d n = d := Function.update_self _ _ _
  refine ⟨.cons hn ?_, List.nodup_cons.mpr ⟨fun hx => hne n hx rfl, h.nodup⟩, ?_, ?_⟩
  · rw [hself, hlink]
    exact h.chain.congr hsame
  · intro x hxn y hyn i j hi1 hi2 hj1 hj2 hnz heq
    rcases List.mem_cons.mp hxn with hx | hx <;> rcases List.mem_cons.mp hyn with hy | hy
    · rw [hx, hself] at hnz heq
      rw [hy, hself] at heq
      exact ⟨hx.trans hy.symm, hrefs i j hi1 hi2 hj1 hj2 hnz heq⟩
    · rw [hx, hself] at hnz heq
      rw [hsame y hy] at heq
      exact absurd (Or.inr ⟨y, hy, j, hj1, hj2, heq.symm, hnz⟩) (hnew i hi1 hi2 hnz).2
    · rw [hy, hself, hsame x hx] at heq
      rw [hsame x hx, heq] at hnz
      exact absurd (Or.inr ⟨x, hx, i, hi1, hi2, heq, hnz⟩) (hnew j hj1 hj2 hnz).2
    · rw [hsame x hx] at hnz heq
      rw [hsame y hy] at heq
      exact h.ref_inj x hx y hy i j hi1 hi2 hj1 hj2 hnz heq
  · intro x hx i hi1 hi2 hmem
    have hnz : (Function.update D n d x).word i ≠ 0 := by
      rcases List.mem_cons.mp hmem with he | hmem
      · rw [he]
        exact hn
      · exact h.chain.ne_zero _ hmem
    rcases List.mem_cons.mp hx with rfl | hx
    · rw [hself] at hmem hnz
      obtain ⟨h1, h2⟩ := hnew i hi1 hi2 hnz
      rcases List.mem_cons.mp hmem with he | hmem
      · exact h1 he
      · exact h2 (Or.inl hmem)
    · rw [hsame x hx] at hmem hnz
      rcases List.mem_cons.mp hmem with he | hmem
      · exact hfresh (he ▸ Or.inr ⟨x, hx, i, hi1, hi2, rfl, hnz⟩)
      · exact h.ref_not_head x hx i hi1 hi2 hmem

/-- What is on the free list after a push. -/
theorem onFreeList_push {n : ℕ} {d : Block} (hfresh : n ∉ heads) (b : ℕ) :
    OnFreeList (Function.update D n d) (n :: heads) b ↔
      OnFreeList D heads b ∨ b = n ∨ ∃ i, 1 ≤ i ∧ i < 128 ∧ d.word i = b ∧ b ≠ 0 := by
  have hsame : ∀ x ∈ heads, Function.update D n d x = D x := fun x hx =>
    Function.update_of_ne (fun he : x = n => hfresh (he ▸ hx)) _ _
  rw [← onFreeList_congr hsame b, OnFreeList, OnFreeList]
  simp only [List.mem_cons, exists_eq_or_imp, Function.update_self]
  constructor
  · rintro ((hb | hb) | hb | hb)
    · exact Or.inr (Or.inl hb)
    · exact Or.inl (Or.inl hb)
    · exact Or.inr (Or.inr hb)
    · exact Or.inl (Or.inr hb)
  · rintro ((hb | hb) | hb | hb)
    · exact Or.inl (Or.inr hb)
    · exact Or.inr (Or.inr hb)
    · exact Or.inl (Or.inl hb)
    · exact Or.inr (Or.inl hb)

/-! ## Setting up the free list -/

/-- The block that a round of `setup_freelist` writes at `n`: a link to the free list so far and the
numbers of the blocks after `n`. -/
structure FreelistBlock (nblocks n f : ℕ) (d : Block) : Prop where
  link : d.word 0 = f
  ref : ∀ i, 1 ≤ i → i < 128 → d.word i = if n + i < nblocks then n + i else 0

/-- The two inner loops of a round. -/
theorem freelistBlock_round {n f : ℕ} (hn : n < nblocks) (hnb : nblocks ≤ 2 ^ 32) (hf : f < 2 ^ 32)
    (data : Block) :
    let r := fillRefs nblocks 127 1 (n + 1) (data.setWord 0 f)
    FreelistBlock nblocks n f (clearRefs (128 - r.2.1) r.2.1 r.1) ∧
      r.2.2 = min (n + 128) nblocks := by
  intro r
  obtain ⟨h1, h2, h3⟩ := fillRefs_spec hnb 127 1 (n + 1) (data.setWord 0 f) (by omega) (by omega)
  change r.2.1 = _ at h1
  change r.2.2 = _ at h2
  have hword : ∀ j, j < 128 → (clearRefs (128 - r.2.1) r.2.1 r.1).word j
      = if r.2.1 ≤ j then 0 else r.1.word j := by
    intro j hj
    rw [clearRefs_spec _ _ _ (by omega) j hj]
    split_ifs <;> first | rfl | omega
  refine ⟨⟨?_, fun i hi1 hi2 => ?_⟩, by omega⟩
  · rw [hword 0 (by omega), if_neg (by omega), h3 0 (by omega), if_neg (by omega),
      Block.word_setWord_self _ (by omega) hf]
  · rw [hword i hi2, h3 i hi2, Block.word_setWord_ne _ _ (by omega)]
    split_ifs <;> omega

/-- The state of `setup_freelist`: the blocks from `start` up to `next` are on the list from `f`. -/
structure SetUp (start next f : ℕ) (D : Disk) (heads : List ℕ) : Prop where
  list : FreeListFrom D f heads
  mem : ∀ b, OnFreeList D heads b ↔ start ≤ b ∧ b < next

/-- One round of the loop. -/
theorem SetUp.round {start next f : ℕ} {d : Block} (h : SetUp start next f D heads)
    (hstart : 1 ≤ start) (hle : start ≤ next) (hlt : next < nblocks)
    (hd : FreelistBlock nblocks next f d) :
    SetUp start (min (next + 128) nblocks) next (Function.update D next d) (next :: heads) := by
  have hfresh : ¬ OnFreeList D heads next := by
    rw [h.mem]
    omega
  have hval : ∀ i, 1 ≤ i → i < 128 → d.word i ≠ 0 → d.word i = next + i ∧ next + i < nblocks := by
    intro i hi1 hi2 hnz
    rw [hd.ref i hi1 hi2] at hnz ⊢
    split_ifs at hnz ⊢ with hc
    · exact ⟨rfl, hc⟩
    · exact absurd rfl hnz
  refine ⟨h.list.push (by omega) hfresh hd.link ?_ ?_, fun b => ?_⟩
  · intro i j hi1 hi2 hj1 hj2 hnz heq
    have hi := hval i hi1 hi2 hnz
    have hj := hval j hj1 hj2 (heq ▸ hnz)
    omega
  · intro i hi1 hi2 hnz
    have hi := hval i hi1 hi2 hnz
    rw [h.mem]
    omega
  · rw [onFreeList_push (fun hm => hfresh (Or.inl hm)), h.mem]
    constructor
    · rintro (hb | rfl | ⟨i, hi1, hi2, hw, hb⟩)
      · omega
      · omega
      · have hi := hval i hi1 hi2 (hw ▸ hb)
        omega
    · rintro ⟨hb1, hb2⟩
      by_cases hlow : b < next
      · exact Or.inl ⟨hb1, hlow⟩
      by_cases hn : b = next
      · exact Or.inr (Or.inl hn)
      · refine Or.inr (Or.inr ⟨b - next, by omega, by omega, ?_, by omega⟩)
        rw [hd.ref _ (by omega) (by omega), if_pos (by omega)]
        omega

/-- The loop of `setup_freelist` puts all blocks up to `nb` on the list and keeps the others. -/
theorem setupFreelistLoop_spec (A : BlockArray below bino nblocks fails) {start nb : ℕ}
    (hstart : 1 ≤ start) (hnb : nb ≤ nblocks) (hn : nblocks ≤ 2 ^ 32) :
    ∀ (fuel next f : ℕ) (data : Block) (s : σ) (heads : List ℕ), A.inv s → start ≤ next →
      next ≤ nb → nb - next ≤ fuel → f < 2 ^ 32 → SetUp start next f (A.view s) heads →
      wp (setupFreelistLoop below bino nb fuel next f data)
        (fun f' s' => A.inv s' ∧ f' < 2 ^ 32 ∧ (∃ heads', SetUp start nb f' (A.view s') heads') ∧
          ∀ b, b < next ∨ nb ≤ b → A.view s' b = A.view s b) fails s := by
  intro fuel
  induction fuel with
  | zero =>
    intro next f data s heads hinv _ hle hfuel hf h
    obtain rfl : next = nb := by omega
    rw [setupFreelistLoop, wp_pure]
    exact ⟨hinv, hf, ⟨heads, h⟩, fun _ _ => rfl⟩
  | succ fuel ih =>
    intro next f data s heads hinv hsn hle hfuel hf h
    rw [setupFreelistLoop]
    by_cases hlt : next < nb
    · rw [if_pos hlt]
      obtain ⟨hd, hnext⟩ := freelistBlock_round hlt (by omega) hf data
      simp only [show refsPerBlock - 1 = 127 from rfl, show refsPerBlock = 128 from rfl, hnext]
      refine wp_seq (writeOrPanic_spec A _ _ hinv (by omega)) ?_
      rintro - s1 ⟨hinv1, hv1⟩
      have hround := h.round hstart hsn hlt hd
      rw [← hv1] at hround
      refine wp_mono (ih _ _ _ s1 _ hinv1 (by omega) (by omega) (by omega) (by omega) hround) ?_
        (fun _ _ h => h)
      rintro f' s2 ⟨hinv2, hf', hset, hkeep⟩
      refine ⟨hinv2, hf', hset, fun b hb => ?_⟩
      rw [hkeep b (by omega), hv1, Function.update_of_ne (by omega)]
    · obtain rfl : next = nb := by omega
      rw [if_neg hlt, wp_pure]
      exact ⟨hinv, hf, ⟨heads, h⟩, fun _ _ => rfl⟩

/-- `setup_freelist` puts the blocks from `nextFree` up to `nb` on a free list. -/
theorem setupFreelist_spec (A : BlockArray below bino nblocks fails) {nextFree nb : ℕ} {s : σ}
    (hinv : A.inv s) (hnext : 1 ≤ nextFree) (hle : nextFree ≤ nb) (hnb : nb ≤ nblocks)
    (hn : nblocks ≤ 2 ^ 32) :
    wp (setupFreelist below bino nextFree nb)
      (fun f s' => A.inv s' ∧ f < 2 ^ 32 ∧ (∃ heads, SetUp nextFree nb f (A.view s') heads) ∧
        ∀ b, b < nextFree ∨ nb ≤ b → A.view s' b = A.view s b) fails s := by
  refine setupFreelistLoop_spec A hnext hnb hn _ nextFree 0 _ s [] hinv (le_refl _) hle (le_refl _)
    (by omega) ⟨⟨.nil, List.nodup_nil, by simp, by simp⟩, fun b => ?_⟩
  simp only [OnFreeList, List.not_mem_nil, false_and, exists_false, or_self, false_iff]
  omega

/-! ## The whole of `treedisk_create` -/

/-- The loop that clears the inode blocks. -/
theorem clearInodeblocks_spec (A : BlockArray below bino nblocks fails) :
    ∀ (n i : ℕ) (s : σ), A.inv s → i + n ≤ nblocks →
      wp (clearInodeblocks below bino n i)
        (fun r s' => r = true ∧ A.inv s' ∧
          ∀ b, A.view s' b = if i ≤ b ∧ b < i + n then nullBlock else A.view s b) fails s
  | 0, i, s, hinv, _ => by
    rw [clearInodeblocks, wp_pure]
    exact ⟨rfl, hinv, fun b => by rw [if_neg (by omega)]⟩
  | n + 1, i, s, hinv, hle => by
    rw [clearInodeblocks]
    refine wp_seq (A.write_spec s i nullBlock hinv (by omega)) ?_
    rintro r s1 ⟨h0, hinv1, hv1⟩
    rw [if_neg (by omega)]
    refine wp_mono (clearInodeblocks_spec A n (i + 1) s1 hinv1 (by omega)) ?_ (fun _ _ h => h)
    rintro r s2 ⟨rfl, hinv2, hv2⟩
    refine ⟨rfl, hinv2, fun b => ?_⟩
    rw [hv2, hv1]
    by_cases hb : b = i
    · rw [hb, if_neg (by omega), Function.update_self, if_pos (by omega)]
    · rw [Function.update_of_ne hb]
      split_ifs <;> first | rfl | omega

/-- A disk with null inode blocks and all other blocks on the free list stores the empty files. -/
theorem SetUp.rep (h : SetUp (nIb + 1) nblocks (D 0).freeList D heads)
    (hsuper : (D 0).nInodeblocks = nIb) (hnull : ∀ b, 1 ≤ b → b ≤ nIb → D b = nullBlock) :
    Rep nIb nblocks D FileMap.empty (fun _ => 0) heads (fun _ => False) := by
  have hinode : ∀ ino, ino < 64 * nIb → D (1 + ino / 64) = nullBlock := fun ino hi =>
    hnull _ (by omega) (inodeblock_le hi)
  have hforest : Forest nIb D (fun ino => levels (FileMap.empty.size ino)) (fun _ => 0) :=
    { root := fun ino hi => by
        rw [rootOf, hinode ino hi, Block.inodeRoot, Block.word_nullBlock]
      child := fun _ _ _ _ _ _ hne => absurd rfl hne
      hole := fun _ _ _ _ _ => rfl
      inside := fun _ hne => absurd rfl hne
      inj := fun _ _ hne _ => absurd rfl hne }
  have hlayout : Layout nIb nblocks D (fun ino => levels (FileMap.empty.size ino)) (fun _ => 0)
      heads (fun _ => False) :=
    { super := hsuper
      forest := hforest
      free := h.list
      node_range := fun _ hne => absurd rfl hne
      free_range := fun b hb => (h.mem b).1 hb
      limbo_range := fun _ hl => hl.elim
      free_not_node := fun b hb _ he => OnFreeList.ne_zero h.list hb he.symm
      limbo_not_node := fun _ hl => hl.elim
      limbo_not_free := fun _ hl => hl.elim
      cover := fun b hb1 hb2 => Or.inl ((h.mem b).2 ⟨hb1, hb2⟩) }
  refine ⟨⟨hlayout, fun _ _ => if_pos rfl⟩, fun ino hi => ?_⟩
  rw [nblocksOf, hinode ino hi, Block.inodeNblocks, Block.word_nullBlock]
  rfl

/-- `treedisk_create` does not touch a disk that is in use. -/
theorem treediskCreate_used_spec (A : BlockArray below bino nblocks fails) {s : σ} (ninodes : ℕ)
    (hinv : A.inv s) (hused : (A.view s 0).nInodeblocks ≠ 0) :
    wp (treediskCreate below bino ninodes) (fun _ s' => A.inv s' ∧ A.view s' = A.view s)
      fails s := by
  unfold treediskCreate
  refine wp_seq (A.getsize_spec s hinv) ?_
  rintro r s1 ⟨hr, hinv1, hv1⟩
  rw [hr, Int.toNat_natCast]
  dsimp only
  split
  · exact ⟨hinv1, hv1⟩
  · rename_i hlarge
    refine wp_seq (A.read_spec s1 0 hinv1 (Nat.lt_of_lt_of_le (Nat.succ_pos _)
      (Nat.le_of_not_lt hlarge))) ?_
    rintro ⟨r', blk⟩ s2 ⟨h0, rfl, hinv2, hv2⟩
    simp only at h0 ⊢
    rw [if_neg (by omega), hv1, if_neg hused, wp_pure]
    exact ⟨hinv2, hv2.trans hv1⟩

/-- `treedisk_create` on a disk that is not in use returns `-1` with nothing changed if the disk is
too small, and else 0 with the empty files stored, in no blocks at all. -/
theorem treediskCreate_spec (A : BlockArray below bino nblocks fails) {s : σ} {ninodes : ℕ}
    (hinv : A.inv s) (hfresh : (A.view s 0).nInodeblocks = 0) (hn : 1 ≤ ninodes)
    (hn32 : ninodes < 2 ^ 32) :
    wp (treediskCreate below bino ninodes)
      (fun r s' => A.inv s' ∧
        ((r = -1 ∧ nblocks < (ninodes + 63) / 64 + 2 ∧ A.view s' = A.view s) ∨
          (r = 0 ∧ (ninodes + 63) / 64 + 2 ≤ nblocks ∧ nblocks < 2 ^ 32 ∧
            ∃ heads, Rep ((ninodes + 63) / 64) nblocks (A.view s') FileMap.empty (fun _ => 0) heads
              (fun _ => False)))) fails s := by
  unfold treediskCreate
  refine wp_seq (A.getsize_spec s hinv) ?_
  rintro r s1 ⟨hr, hinv1, hv1⟩
  have hn32' : nblocks < 2 ^ 32 := by
    have := Int.emod_lt_of_pos r (by norm_num : (0 : ℤ) < 2 ^ 32)
    omega
  rw [hr, Int.toNat_natCast]
  simp only [show ninodes + inodesPerBlock - 1 = ninodes + 63 from rfl,
    show inodesPerBlock = 64 from rfl]
  set nIb := (ninodes + 63) / 64 with hnIb
  by_cases hsmall : nblocks < nIb + 2
  · rw [if_pos hsmall]
    exact ⟨hinv1, Or.inl ⟨rfl, hsmall, hv1⟩⟩
  · rw [if_neg hsmall]
    refine wp_seq (A.read_spec s1 0 hinv1 (by omega)) ?_
    rintro ⟨r', blk⟩ s2 ⟨h0, rfl, hinv2, hv2⟩
    simp only at h0 ⊢
    rw [if_neg (by omega), hv1, if_pos hfresh]
    refine wp_seq (setupFreelist_spec A hinv2 (by omega) (by omega) (le_refl _) (by omega)) ?_
    rintro f s3 ⟨hinv3, hf, ⟨heads, hset⟩, hkeep⟩
    refine wp_seq (A.write_spec s3 0 _ hinv3 (by omega)) ?_
    rintro r'' s4 ⟨h0', hinv4, hv4⟩
    rw [if_neg (by omega)]
    refine wp_seq (clearInodeblocks_spec A nIb 1 s4 hinv4 (by omega)) ?_
    rintro - s5 ⟨rfl, hinv5, hv5⟩
    rw [if_pos rfl, wp_pure]
    refine ⟨hinv5, Or.inr ⟨rfl, by omega, hn32', heads, ?_⟩⟩
    have hzero : A.view s5 0 = (nullBlock.setWord 0 nIb).setWord 1 f := by
      rw [hv5, if_neg (by omega), hv4, Function.update_self]
    have hfl : (A.view s5 0).freeList = f := by
      rw [hzero, Block.freeList, Block.word_setWord_self _ (by omega) hf]
    have hsame : ∀ b, nIb < b → A.view s5 b = A.view s3 b := by
      intro b hb
      rw [hv5, if_neg (by omega), hv4, Function.update_of_ne (by omega)]
    have hheads : ∀ x ∈ heads, A.view s5 x = A.view s3 x := by
      intro x hx
      have := (hset.mem x).1 (Or.inl hx)
      exact hsame x (by omega)
    refine SetUp.rep ⟨?_, fun b => ?_⟩ ?_ fun b hb1 hb2 => ?_
    · rw [hfl]
      exact hset.list.congr hheads
    · rw [onFreeList_congr hheads, hset.mem]
    · rw [hzero, Block.nInodeblocks, Block.word_setWord_ne _ _ (by omega),
        Block.word_setWord_self _ (by omega) (by omega)]
    · rw [hv5, if_pos (by omega)]

end Egos.File
