import Egos.File.TreediskRuns
import Mathlib.Algebra.BigOperators.Group.Finset.Basic
import Mathlib.Order.Interval.Finset.Nat
import Mathlib.Tactic.Ring

/-!
# Files that are written from the start on

A file whose blocks are written in order has a block at each position above one of its blocks, and
at no other. Together with the free list these are all the blocks past the inode blocks, so that it
can be said beforehand how many blocks some files take, and that a write within this number does not
run out of blocks.
-/

namespace Egos.File

variable {nIb nblocks : ℕ} {D : Disk} {F : FileMap} {N N' : Pos → ℕ} {heads : List ℕ}

/-! ## The positions above the blocks of a file -/

/-- The positions above the blocks of files of sizes `sz`. -/
def nodesFor (nIb : ℕ) (sz : ℕ → ℕ) : Set Pos :=
  {p | p.ino < 64 * nIb ∧ p.level ≤ levels (sz p.ino) ∧ p.index * 128 ^ p.level < sz p.ino}

/-- How many blocks a file of `n` blocks takes, with those above its data. -/
def treeBlocks (n : ℕ) : ℕ :=
  ∑ ℓ ∈ Finset.range (levels n + 1), (n + (128 ^ ℓ - 1)) / 128 ^ ℓ

/-- The subtrees of `d` blocks that a file with `n` blocks has. -/
theorem mul_lt_iff_lt_div {k d n : ℕ} (hd : 0 < d) : k * d < n ↔ k < (n + (d - 1)) / d := by
  rw [← Nat.succ_le_iff (n := (n + (d - 1)) / d), Nat.le_div_iff_mul_le hd, Nat.succ_mul]
  omega

/-- Larger files have all the positions of smaller ones. -/
theorem nodesFor_mono {sz sz' : ℕ → ℕ} (h : ∀ ino, sz ino ≤ sz' ino) :
    nodesFor nIb sz ⊆ nodesFor nIb sz' := fun p ⟨hi, hℓ, hk⟩ =>
  ⟨hi, hℓ.trans (levels_mono (h p.ino)), hk.trans_le (h p.ino)⟩

/-- The positions, as a finite set of numbers of inodes, levels and indices. -/
def nodesFinset (nIb : ℕ) (sz : ℕ → ℕ) : Finset (Σ _ : ℕ, Σ _ : ℕ, ℕ) :=
  (Finset.range (64 * nIb)).sigma fun ino => (Finset.range (levels (sz ino) + 1)).sigma fun ℓ =>
    Finset.range ((sz ino + (128 ^ ℓ - 1)) / 128 ^ ℓ)

/-- A position from its inode, level and index. -/
def toPos (x : Σ _ : ℕ, Σ _ : ℕ, ℕ) : Pos := ⟨x.1, x.2.1, x.2.2⟩

theorem toPos_injective : Function.Injective toPos := by
  rintro ⟨_, _, _⟩ ⟨_, _, _⟩ heq
  simpa [toPos] using heq

/-- The positions that sizes need, as a finite set. -/
theorem nodesFor_eq (nIb : ℕ) (sz : ℕ → ℕ) :
    nodesFor nIb sz = toPos '' ↑(nodesFinset nIb sz) := by
  ext ⟨ino, ℓ, k⟩
  simp only [Set.mem_image, nodesFinset, Finset.mem_coe, Finset.mem_sigma, Finset.mem_range,
    Nat.lt_succ_iff, Sigma.exists, toPos, Pos.mk.injEq]
  constructor
  · rintro ⟨hi, hℓ, hk⟩
    exact ⟨ino, ℓ, k, ⟨hi, hℓ, (mul_lt_iff_lt_div (by positivity)).1 hk⟩, rfl, rfl, rfl⟩
  · rintro ⟨_, _, _, ⟨hi, hℓ, hk⟩, rfl, rfl, rfl⟩
    exact ⟨hi, hℓ, (mul_lt_iff_lt_div (by positivity)).2 hk⟩

/-- They are finitely many. -/
theorem nodesFor_finite (nIb : ℕ) (sz : ℕ → ℕ) : (nodesFor nIb sz).Finite := by
  rw [nodesFor_eq]
  exact (Finset.finite_toSet _).image _

/-- How many positions there are. -/
theorem nodesFor_ncard (nIb : ℕ) (sz : ℕ → ℕ) :
    (nodesFor nIb sz).ncard = ∑ ino ∈ Finset.range (64 * nIb), treeBlocks (sz ino) := by
  rw [nodesFor_eq, Set.InjOn.ncard_image toPos_injective.injOn, Set.ncard_coe_finset, nodesFinset,
    Finset.card_sigma]
  refine Finset.sum_congr rfl fun ino _ => ?_
  simp only [Finset.card_sigma, Finset.card_range, treeBlocks]

/-! ## Dense trees -/

/-- The trees have a block at just the positions above the blocks of their files. -/
def Dense (nIb : ℕ) (F : FileMap) (N : Pos → ℕ) : Prop := ∀ p, N p ≠ 0 ↔ p ∈ nodesFor nIb F.size

/-- Empty files need no blocks. -/
theorem dense_empty (nIb : ℕ) : Dense nIb FileMap.empty fun _ => 0 := by
  intro p
  refine iff_of_false (not_not.2 rfl) ?_
  rintro ⟨-, -, hk⟩
  exact absurd hk (Nat.not_lt_zero _)

/-- The positions above the next block of a file. -/
theorem append_iff (off ℓ k : ℕ) :
    (ℓ ≤ levels off ∧ k * 128 ^ ℓ < off) ∨
        (ℓ ≤ levels (off + 1) ∧ ((k = 0 ∧ levels off < ℓ) ∨ k = off / 128 ^ ℓ)) ↔
      ℓ ≤ levels (off + 1) ∧ k * 128 ^ ℓ < off + 1 := by
  have hpow : 0 < 128 ^ ℓ := by positivity
  constructor
  · rintro (⟨hℓ, hk⟩ | ⟨hℓ, ⟨rfl, -⟩ | rfl⟩)
    · exact ⟨hℓ.trans (levels_mono (Nat.le_succ off)), by omega⟩
    · exact ⟨hℓ, by omega⟩
    · exact ⟨hℓ, Nat.lt_succ_of_le (Nat.div_mul_le_self off _)⟩
  · rintro ⟨hℓ, hk⟩
    rcases Nat.lt_or_ge (levels off) ℓ with hlt | hle
    · refine Or.inr ⟨hℓ, Or.inl ⟨?_, hlt⟩⟩
      -- the old tree is lower, so its blocks are all under the first position
      have hoff : off ≤ 128 ^ levels off := Nat.le_pow_clog (by omega) off
      have hup : 128 ^ levels off < 128 ^ ℓ := Nat.pow_lt_pow_right (by omega) hlt
      by_contra hne
      have := Nat.le_mul_of_pos_left (128 ^ ℓ) (Nat.pos_of_ne_zero hne)
      omega
    · rcases Nat.lt_or_eq_of_le (Nat.lt_succ_iff.1 hk) with hlt | heq
      · exact Or.inl ⟨hle, hlt⟩
      · exact Or.inr ⟨hℓ, Or.inr (Nat.div_eq_of_eq_mul_left hpow heq.symm).symm⟩

/-- Writing the next block of a file keeps the trees dense. -/
theorem Dense.append {ino : ℕ} (h : Dense nIb F N) (hi : ino < 64 * nIb)
    (hadded : Extends N N' (F.added ino (F.size ino))) (blk : Block) :
    Dense nIb (F.write ino (F.size ino) blk) N' := by
  rintro ⟨j, ℓ, k⟩
  rw [hadded.ne_zero_iff, h]
  by_cases hj : j = ino
  · subst hj
    have hiff := append_iff (F.size j) ℓ k
    rw [FileMap.added_iff, max_eq_right (Nat.le_succ _)]
    change (j < 64 * nIb ∧ ℓ ≤ _ ∧ _) ∨ _ ↔ j < 64 * nIb ∧ ℓ ≤ levels ((F.write _ _ _).size j) ∧
      k * 128 ^ ℓ < (F.write _ _ _).size j
    rw [FileMap.write_size, if_pos rfl, max_eq_right (Nat.le_succ _), ← hiff]
    simp only [hi, true_and]
  · change (j < 64 * nIb ∧ _) ∨ _ ↔ j < 64 * nIb ∧ ℓ ≤ levels ((F.write _ _ _).size j) ∧
      k * 128 ^ ℓ < (F.write _ _ _).size j
    rw [FileMap.write_size, if_neg hj]
    exact or_iff_left fun hnew => hj (FileMap.added_iff.1 hnew).1

/-! ## Counting blocks -/

/-- Every block past the inode blocks is free or at a position. -/
theorem Rep.freeCount_add (h : Rep nIb nblocks D F N heads fun _ => False) :
    freeCount D heads + {p | N p ≠ 0}.ncard = nblocks - nIb - 1 := by
  have hl := h.stored.layout
  have hinj : Set.InjOn N {p | N p ≠ 0} := fun p hp q _ heq => hl.forest.inj p q hp heq
  have hall : {b | OnFreeList D heads b} ∪ N '' {p | N p ≠ 0} = ↑(Finset.Ioo nIb nblocks) := by
    ext b
    simp only [Set.mem_union, Set.mem_image, Finset.coe_Ioo, Set.mem_Ioo]
    constructor
    · rintro (hb | ⟨p, hp, rfl⟩)
      · exact hl.free_range b hb
      · exact hl.node_range p hp
    · rintro ⟨hb, hbn⟩
      rcases hl.cover b hb hbn with hfree | ⟨p, rfl⟩ | hc
      · exact Or.inl hfree
      · exact Or.inr ⟨p, Nat.ne_of_gt (Nat.zero_lt_of_lt hb), rfl⟩
      · exact hc.elim
  have hdisjoint : Disjoint {b | OnFreeList D heads b} (N '' {p | N p ≠ 0}) := by
    rw [Set.disjoint_left]
    rintro _ hfree ⟨p, -, rfl⟩
    exact hl.free_not_node _ hfree p rfl
  have hfin := Finset.finite_toSet (Finset.Ioo nIb nblocks)
  rw [← hall] at hfin
  rw [← Set.InjOn.ncard_image hinj, freeCount,
    ← Set.ncard_union_eq hdisjoint (hfin.subset Set.subset_union_left)
      (hfin.subset Set.subset_union_right), hall, Set.ncard_coe_finset, Nat.card_Ioo]

/-- The way to an offset has finitely many positions. -/
theorem onPath_finite (ino off ℓ : ℕ) : {p | OnPath ino off ℓ p}.Finite := by
  refine ((Finset.range (ℓ + 1)).finite_toSet.image fun j => (⟨ino, j, off / 128 ^ j⟩ : Pos)).subset
    ?_
  rintro ⟨j, m, k⟩ ⟨hj, hm, hk⟩
  simp only at hj hm hk
  exact ⟨m, by simpa [Nat.lt_succ_iff] using hm, by rw [hj, hk]⟩

/-- The holes on a way are positions on it. -/
theorem holes_eq_ncard (N : Pos → ℕ) (ino off ℓ : ℕ) :
    holes N ino off ℓ = {p | N p = 0 ∧ OnPath ino off ℓ p}.ncard := by
  induction ℓ with
  | zero =>
    rw [holes, pow_zero, Nat.div_one]
    simp only [onPath_zero]
    split
    next hz =>
      rw [show {p | N p = 0 ∧ p = ⟨ino, 0, off⟩} = {⟨ino, 0, off⟩} from
        Set.ext fun p => and_iff_right_of_imp fun hp => hp ▸ hz, Set.ncard_singleton]
    next hne =>
      rw [show {p | N p = 0 ∧ p = ⟨ino, 0, off⟩} = ∅ from
        Set.eq_empty_of_forall_notMem fun p hp => hne (hp.2 ▸ hp.1), Set.ncard_empty]
  | succ ℓ ih =>
    set q : Pos := ⟨ino, ℓ + 1, off / 128 ^ (ℓ + 1)⟩ with hq
    rw [holes, ih, ← hq]
    simp only [onPath_succ, ← hq]
    split
    next hz =>
      have hset : {p | N p = 0 ∧ (p = q ∨ OnPath ino off ℓ p)}
          = insert q {p | N p = 0 ∧ OnPath ino off ℓ p} := by
        ext p
        simp only [Set.mem_insert_iff]
        constructor
        · exact fun hp => hp.2.imp_right fun hon => ⟨hp.1, hon⟩
        · rintro (he | hp)
          · exact ⟨he ▸ hz, Or.inl he⟩
          · exact ⟨hp.1, Or.inr hp.2⟩
      have hnot : q ∉ {p | N p = 0 ∧ OnPath ino off ℓ p} := by
        rintro ⟨-, -, hle, -⟩
        simp only [hq] at hle
        omega
      rw [hset, Set.ncard_insert_of_notMem hnot
        ((onPath_finite ino off ℓ).subset fun p hp => hp.2)]
    next hne =>
      rw [Nat.add_zero]
      congr 1
      ext p
      exact and_congr_right fun h0 => (or_iff_right fun he : p = q => hne (he ▸ h0)).symm

/-- As many positions are inserted as there are new levels. -/
theorem inserted_ncard (ino lo n : ℕ) :
    {p | Inserted ino lo n p}.Finite ∧ {p | Inserted ino lo n p}.ncard = n := by
  have himage : {p | Inserted ino lo n p}
      = (fun i => (⟨ino, lo + 1 + i, 0⟩ : Pos)) '' ↑(Finset.range n) := by
    ext ⟨j, m, k⟩
    simp only [Set.mem_image, Finset.coe_range, Set.mem_Iio, Pos.mk.injEq]
    constructor
    · rintro ⟨hj, hk, hlo, hhi⟩
      simp only at hj hk hlo hhi
      exact ⟨m - (lo + 1), by omega, hj.symm, by omega, hk.symm⟩
    · rintro ⟨i, hi, rfl, rfl, rfl⟩
      exact ⟨rfl, rfl, by simp only; omega, by simp only; omega⟩
  have hinj : Function.Injective fun i => (⟨ino, lo + 1 + i, 0⟩ : Pos) := by
    intro i j heq
    simpa using heq
  rw [himage]
  refine ⟨(Finset.finite_toSet _).image _, ?_⟩
  rw [Set.InjOn.ncard_image hinj.injOn, Set.ncard_coe_finset, Finset.card_range]

/-- The positions after the next block of a file is written: the old ones and those it adds. -/
theorem Dense.append_ncard {ino : ℕ} (h : Dense nIb F N) (hi : ino < 64 * nIb) (blk : Block) :
    (nodesFor nIb (F.write ino (F.size ino) blk).size).ncard
      = {p | N p ≠ 0}.ncard + {p | N p = 0 ∧ F.added ino (F.size ino) p}.ncard := by
  obtain ⟨N', hadded⟩ := exists_extends N (F.added ino (F.size ino))
  have hnew := h.append hi hadded blk
  have hset : nodesFor nIb (F.write ino (F.size ino) blk).size
      = {p | N p ≠ 0} ∪ {p | N p = 0 ∧ F.added ino (F.size ino) p} := by
    ext p
    rw [← hnew p, hadded.ne_zero_iff]
    change _ ↔ N p ≠ 0 ∨ (N p = 0 ∧ _)
    tauto
  have hdisjoint : Disjoint {p | N p ≠ 0} {p | N p = 0 ∧ F.added ino (F.size ino) p} :=
    Set.disjoint_left.2 fun p hp hp' => hp hp'.1
  have hfin := nodesFor_finite nIb (F.write ino (F.size ino) blk).size
  rw [hset] at hfin ⊢
  exact Set.ncard_union_eq hdisjoint (hfin.subset Set.subset_union_left)
    (hfin.subset Set.subset_union_right)

/-- A write that does not have enough blocks adds more positions than there are free blocks. -/
theorem TooFew.lt_ncard {k ino off lo n : ℕ} (h : TooFew N k ino off lo n)
    (habove : ∀ ℓ i, lo < ℓ → N ⟨ino, ℓ, i⟩ = 0) :
    k < {p | N p = 0 ∧ Added ino off lo n p}.ncard := by
  obtain ⟨N', hext, hk⟩ := h
  have hzero (p : Pos) : N' p = 0 ↔ N p = 0 ∧ ¬ Inserted ino lo n p := by
    have := hext.ne_zero_iff p
    tauto
  have hins {p : Pos} (hp : Inserted ino lo n p) : N p = 0 := by
    obtain ⟨j, m, i⟩ := p
    obtain ⟨rfl, -, hlo, -⟩ := hp
    exact habove m i hlo
  have hset : {p | N p = 0 ∧ Added ino off lo n p}
      = {p | Inserted ino lo n p} ∪ {p | N' p = 0 ∧ OnPath ino off (lo + n) p} := by
    ext p
    simp only [Set.mem_union]
    change N p = 0 ∧ (Inserted ino lo n p ∨ _) ↔ Inserted ino lo n p ∨ (N' p = 0 ∧ _)
    have := @hins p
    rw [hzero]
    tauto
  have hdisjoint : Disjoint {p | Inserted ino lo n p}
      {p | N' p = 0 ∧ OnPath ino off (lo + n) p} := by
    rw [Set.disjoint_left]
    rintro p hp ⟨hz, -⟩
    exact ((hzero p).1 hz).2 hp
  obtain ⟨hfin, hn⟩ := inserted_ncard ino lo n
  rw [hset, Set.ncard_union_eq hdisjoint hfin ((onPath_finite _ _ _).subset fun p hp => hp.2), hn,
    ← holes_eq_ncard]
  exact hk

/-! ## Writing the next block -/

section Writing

variable {σ : Type} {below : InodeStore σ} {bino : ℕ}

/-- The store holds the files `F`, in dense trees. -/
structure HoldsDense (A : TotalBlockArray below bino nblocks) (nIb : ℕ) (F : FileMap) (s : σ) :
    Prop where
  inv : A.inv s
  rep : ∃ N heads, Rep nIb nblocks (A.view s) F N heads (fun _ => False) ∧ Dense nIb F N
  size : nIb < nblocks
  small : nblocks ≤ 2 ^ 32

/-- A write of the next block of a file returns, if there are blocks for all the files. -/
theorem treediskWrite_append_spec (A : TotalBlockArray below bino nblocks) {s : σ}
    (h : HoldsDense A nIb F s) {ino : ℕ} (hi : ino < 64 * nIb) (hoff : F.size ino + 1 < 2 ^ 32)
    (blk : Block)
    (hfits : (nodesFor nIb (F.write ino (F.size ino) blk).size).ncard ≤ nblocks - nIb - 1) :
    wp (treediskWrite 7 ⟨below, bino⟩ ino (F.size ino) blk)
      (fun r s' => r = 0 ∧ HoldsDense A nIb (F.write ino (F.size ino) blk) s')
      (fun _ _ => False) s := by
  obtain ⟨hinv, ⟨N, heads, hrep, hdense⟩, hsize, hsmall⟩ := h
  refine wp_mono (treediskWrite_nodes_spec A hinv hrep hsize hsmall hi hoff blk) ?_ ?_
  · rintro r s' ⟨hr, hinv', N', heads', hrep', hadded⟩
    exact ⟨hr, hinv', ⟨N', heads', hrep', hdense.append hi hadded blk⟩, hsize, hsmall⟩
  · rintro e s' (⟨-, hfew, -⟩ | hc)
    · -- the positions of the write are among those of the files after it
      have hlt := hfew.lt_ncard fun ℓ i hℓ => hrep.stored.layout.forest.hole_above hℓ
      have hcount := hrep.freeCount_add
      have hnodes := hdense.append_ncard hi blk
      change freeCount (A.view s) heads < {p | N p = 0 ∧ F.added ino (F.size ino) p}.ncard at hlt
      omega
    · exact hc

end Writing

end Egos.File
