import Egos.File.Ownership
import Mathlib.Data.Set.Card
import Mathlib.Order.Interval.Finset.Nat

/-!
# Indirect blocks without references

A write inserts indirect blocks above the root of a tree that is too low, and a reference to the old
root in the first of them. The case meant for empty files, which have no old root, is not taken,
because the size in the snapshot has been set by then: the first write to an inode at an offset
past the first indirect block leaves one whose references are all 0. In every run whose first writes
are at lower offsets, every indirect block has a reference.
-/

namespace Egos.File

variable {nIb nblocks : ℕ} {D D' : Disk} {F : FileMap} {N N' : Pos → ℕ} {heads heads' : List ℕ}

/-! ## The trees of a disk -/

/-- Every indirect block that is reached from an inode has a reference to a block. -/
def NoUselessBlocks (D : Disk) : Prop :=
  ∀ ino (path : List ℕ), ino < (D 0).nInodeblocks * inodesPerBlock →
    path.length < nlevelsOf (logRpbLoop 32 0) (nblocksOf D ino) → (∀ j ∈ path, j < refsPerBlock) →
    treeBlock D ino path ≠ 0 → ∃ i < refsPerBlock, treeBlock D ino (i :: path) ≠ 0

/-- The same, of the positions of the blocks. -/
def Useful (F : FileMap) (N : Pos → ℕ) : Prop :=
  ∀ ino ℓ k, ℓ < levels (F.size ino) → N ⟨ino, ℓ + 1, k⟩ ≠ 0 →
    ∃ i < 128, N ⟨ino, ℓ, 128 * k + i⟩ ≠ 0

/-- The files that are not empty are those with a root. -/
def Rooted (F : FileMap) (N : Pos → ℕ) : Prop :=
  ∀ ino, N ⟨ino, levels (F.size ino), 0⟩ ≠ 0 ↔ 0 < F.size ino

/-- The levels of a file on a disk that stores it. -/
theorem Rep.nlevels (h : Rep nIb nblocks D F N heads fun _ => False) {ino : ℕ}
    (hi : ino < 64 * nIb) :
    nlevelsOf (logRpbLoop 32 0) (nblocksOf D ino) = levels (F.size ino) := by
  rw [logRpbLoop_eq, nlevelsOf_eq (nblocksOf_lt _ _), h.size ino hi]

/-- The position of a reference of the block at a position. -/
theorem posAt_cons (lv : ℕ → ℕ) {ino ℓ : ℕ} {path : List ℕ} (hℓ : path.length + ℓ + 1 = lv ino)
    (i : ℕ) :
    posAt lv ino path = ⟨ino, ℓ + 1, Nat.ofDigits 128 path⟩ ∧
      posAt lv ino (i :: path) = ⟨ino, ℓ, 128 * Nat.ofDigits 128 path + i⟩ := by
  rw [posAt, posAt, List.length_cons, Nat.ofDigits_cons, Nat.add_comm i, ← hℓ,
    show path.length + ℓ + 1 - path.length = ℓ + 1 by omega,
    show path.length + ℓ + 1 - (path.length + 1) = ℓ by omega]
  exact ⟨rfl, rfl⟩

/-- The blocks on the disk are useful if those of the positions are. -/
theorem Rep.noUselessBlocks_iff (h : Rep nIb nblocks D F N heads fun _ => False) :
    NoUselessBlocks D ↔ Useful F N := by
  have hsuper := h.stored.layout.super
  have hforest := h.stored.layout.forest
  constructor
  · intro huse ino ℓ k hℓ hne
    have hi : ino < 64 * nIb := (hforest.inside _ hne).1
    obtain ⟨path, hlen, hlt, rfl⟩ :=
      hforest.exists_path (levels (F.size ino) - (ℓ + 1)) (ℓ + 1) k (by omega) hne
    have hpos := posAt_cons (fun j => levels (F.size j))
      (show path.length + ℓ + 1 = levels (F.size ino) by omega)
    obtain ⟨i, hi128, hchild⟩ := huse ino path (by rw [hsuper, Nat.mul_comm]; exact hi)
      (by rw [h.nlevels hi]; omega) hlt (by
        rw [hforest.treeBlock hi path (by omega) hlt, (hpos 0).1]
        exact hne)
    refine ⟨i, hi128, ?_⟩
    rwa [hforest.treeBlock hi _ (by rw [List.length_cons]; omega)
      (by simpa using ⟨hi128, hlt⟩), (hpos i).2] at hchild
  · intro huse ino path hi hlen hlt hne
    rw [hsuper, Nat.mul_comm] at hi
    rw [h.nlevels hi] at hlen
    obtain ⟨ℓ, hℓ⟩ : ∃ ℓ, path.length + ℓ + 1 = levels (F.size ino) :=
      ⟨levels (F.size ino) - path.length - 1, by omega⟩
    have hpos := posAt_cons (fun j => levels (F.size j)) hℓ
    rw [hforest.treeBlock hi path (by omega) hlt, (hpos 0).1] at hne
    obtain ⟨i, hi128, hchild⟩ := huse ino ℓ _ (by omega) hne
    refine ⟨i, hi128, ?_⟩
    rwa [hforest.treeBlock hi _ (by rw [List.length_cons]; omega)
      (by simpa using ⟨hi128, hlt⟩), (hpos i).2]

/-! ## What a write adds -/

/-- A file has a root once it is written. -/
theorem Rooted.write {ino off : ℕ} {blk : Block} (h : Rooted F N)
    (hadded : Extends N N' (F.added ino off)) : Rooted (F.write ino off blk) N' := by
  intro j
  by_cases hj : j = ino
  · subst hj
    rw [F.levels_write]
    refine iff_of_true ((hadded.ne_zero_iff _).2 (Or.inr ?_)) ?_
    · exact FileMap.added_iff.2 ⟨rfl, le_rfl, Or.inr (div_levels (by omega)).symm⟩
    · rw [FileMap.write_size, if_pos rfl]
      omega
  · rw [FileMap.write_size, if_neg hj, hadded.ne_zero_iff, ← h j]
    exact or_iff_left fun hnew => hj (FileMap.added_iff.1 hnew).1

/-- A tree of an empty file has no blocks. -/
theorem Rooted.empty (h : Rooted F N) (hrep : Rep nIb nblocks D F N heads fun _ => False) {p : Pos}
    (hsize : F.size p.ino = 0) : N p = 0 := by
  obtain ⟨ino, ℓ, k⟩ := p
  by_contra hne
  have hin := (hrep.stored.layout.forest.inside _ hne).2
  have hroot := h ino
  simp only [hsize, show levels 0 = 0 by decide] at hin hroot
  obtain ⟨rfl, rfl⟩ : ℓ = 0 ∧ k = 0 := by omega
  exact absurd (hroot.1 hne) (lt_irrefl 0)

/-- A write keeps every indirect block useful, unless it is the first to its file and at an offset
that the first indirect block does not reach. -/
theorem Useful.write {ino off : ℕ} {blk : Block}
    (hrep : Rep nIb nblocks D F N heads fun _ => False) (hroot : Rooted F N) (h : Useful F N)
    (hadded : Extends N N' (F.added ino off)) (hlow : F.size ino = 0 → off < 128) :
    Useful (F.write ino off blk) N' := by
  intro j ℓ k hℓ hne
  -- a position of the old tree or of the write
  have hchild {i : ℕ} (hi : i < 128)
      (hc : N ⟨j, ℓ, 128 * k + i⟩ ≠ 0 ∨ F.added ino off ⟨j, ℓ, 128 * k + i⟩) :
      ∃ i < 128, N' ⟨j, ℓ, 128 * k + i⟩ ≠ 0 := ⟨i, hi, (hadded.ne_zero_iff _).2 hc⟩
  rcases (hadded.ne_zero_iff _).1 hne with hold | hnew
  · have hin := (hrep.stored.layout.forest.inside _ hold).2
    simp only at hin
    obtain ⟨i, hi, hc⟩ := h j ℓ k (by omega) hold
    exact hchild hi (Or.inl hc)
  · obtain ⟨rfl, hle, ⟨hk, hlo⟩ | hk⟩ := FileMap.added_iff.1 hnew
    · -- a block inserted above the old root
      simp only at hle hk hlo
      subst hk
      rcases Nat.lt_or_eq_of_le (Nat.lt_succ_iff.1 hlo) with hlt | rfl
      · exact hchild (by omega : 0 < 128)
          (Or.inr (FileMap.added_iff.2 ⟨rfl, by simp only; omega, Or.inl ⟨rfl, hlt⟩⟩))
      · rcases Nat.eq_zero_or_pos (F.size j) with hz | hpos
        · refine hchild (hlow hz)
            (Or.inr (FileMap.added_iff.2 ⟨rfl, by simp only; omega, Or.inr ?_⟩))
          simp only [hz, show levels 0 = 0 by decide]
          omega
        · exact hchild (by omega : 0 < 128) (Or.inl ((hroot j).2 hpos))
    · -- a block on the way to the offset
      simp only at hle hk
      refine hchild (Nat.mod_lt (off / 128 ^ ℓ) (by omega))
        (Or.inr (FileMap.added_iff.2 ⟨rfl, by simp only; omega, Or.inr ?_⟩))
      rw [hk, div_pow_succ]
      exact Nat.div_add_mod _ _

/-- The first write to a file at another offset leaves a useless indirect block. -/
theorem not_useful_write {ino off : ℕ} {blk : Block}
    (hrep : Rep nIb nblocks D F N heads fun _ => False) (hroot : Rooted F N)
    (hadded : Extends N N' (F.added ino off)) (hsize : F.size ino = 0) (hoff : 128 ≤ off) :
    ¬ Useful (F.write ino off blk) N' := by
  intro huse
  have hlev : 1 < levels (max (F.size ino) (off + 1)) := by
    rw [hsize, Nat.zero_max, lt_levels_iff]
    omega
  have hins : N' ⟨ino, 1, 0⟩ ≠ 0 := by
    refine (hadded.ne_zero_iff _).2 (Or.inr (FileMap.added_iff.2 ⟨rfl, hlev.le, Or.inl ⟨rfl, ?_⟩⟩))
    rw [hsize]
    exact (by decide : levels 0 < 1)
  obtain ⟨i, hi, hc⟩ := huse ino 0 0 (by rw [F.levels_write]; omega) hins
  rcases (hadded.ne_zero_iff _).1 hc with hold | hnew
  · exact hold (hroot.empty hrep hsize)
  · obtain ⟨-, -, ⟨-, hlo⟩ | hk⟩ := FileMap.added_iff.1 hnew
    · exact absurd hlo (Nat.not_lt_zero _)
    · simp only [pow_zero, Nat.div_one] at hk
      omega

/-! ## The blocks that a write takes -/

/-- The blocks on the free list. -/
def freeBlocks (D : Disk) : Set ℕ :=
  {b | b ≠ 0 ∧ ∃ p : Place, p.Valid D ∧ p.path = none ∧ p.ref D = b}

/-- The free blocks are those behind the inode blocks at no position. -/
theorem Rep.mem_freeBlocks (h : Rep nIb nblocks D F N heads fun _ => False) {b : ℕ} :
    b ∈ freeBlocks D ↔ (nIb < b ∧ b < nblocks) ∧ ∀ p, N p ≠ b := by
  have hl := h.stored.layout
  constructor
  · rintro ⟨hne, p, hp, hpath, rfl⟩
    have hfree := h.place_free hp hpath hne
    exact ⟨hl.free_range _ hfree, hl.free_not_node _ hfree⟩
  · rintro ⟨⟨hb, hbn⟩, hnode⟩
    obtain ⟨p, hp, rfl⟩ := h.exists_place hb hbn id
    refine ⟨by omega, p, hp, ?_, rfl⟩
    cases hpath : p.path with
    | none => rfl
    | some x =>
      obtain ⟨hr, hi, hlen, hlt⟩ := h.place_tree hp hpath
      exact absurd (hr.trans (hl.forest.treeBlock hi _ hlen hlt)).symm (hnode _)

/-- The blocks that leave the free list are those at the positions that a write adds. -/
theorem Rep.taken_ncard {G : FileMap} {new : Pos → Prop}
    (h : Rep nIb nblocks D F N heads fun _ => False)
    (h' : Rep nIb nblocks D' G N' heads' fun _ => False) (hadded : Extends N N' new) :
    (freeBlocks D \ freeBlocks D').ncard = {p | N p = 0 ∧ new p}.ncard := by
  have himage : freeBlocks D \ freeBlocks D' = N' '' {p | N p = 0 ∧ new p} := by
    ext b
    rw [Set.mem_sdiff, h.mem_freeBlocks, h'.mem_freeBlocks]
    constructor
    · rintro ⟨⟨hb, hold⟩, hnot⟩
      obtain ⟨p, rfl⟩ : ∃ p, N' p = b := by
        by_contra hno
        exact hnot ⟨hb, fun p hp => hno ⟨p, hp⟩⟩
      have hp : N p = 0 := by
        by_contra hne
        exact hold p (hadded.keeps p hne).symm
      exact ⟨p, ⟨hp, ((hadded.ne_zero_iff p).1 (by omega)).resolve_left (not_not.2 hp)⟩, rfl⟩
    · rintro ⟨p, ⟨hp, hnew⟩, rfl⟩
      have hne := (hadded.ne_zero_iff p).2 (Or.inr hnew)
      refine ⟨⟨h'.stored.layout.node_range p hne, fun q hq => ?_⟩, fun hfree => hfree.2 p rfl⟩
      have hqne : N q ≠ 0 := by omega
      have hpq := h'.stored.layout.forest.inj p q hne (by rw [hadded.keeps q hqne, hq])
      exact hqne (hpq ▸ hp)
  rw [himage, Set.InjOn.ncard_image]
  rintro p ⟨-, hp⟩ q - heq
  exact h'.stored.layout.forest.inj p q ((hadded.ne_zero_iff p).2 (Or.inr hp)) heq

/-- The first write to a file adds the way to the offset, and the first position of each level
above the data blocks. -/
theorem added_ncard {ino off : ℕ} (hsize : F.size ino = 0) :
    {p | F.added ino off p}.ncard = levels (off + 1) + 1 + (levels (off + 1) - 1) := by
  set L := levels (off + 1) with hL
  let way : ℕ → Pos := fun ℓ => ⟨ino, ℓ, off / 128 ^ ℓ⟩
  let first : ℕ → Pos := fun ℓ => ⟨ino, ℓ, 0⟩
  have hzero {ℓ : ℕ} : off / 128 ^ ℓ = 0 ↔ L ≤ ℓ := by
    rw [Nat.div_eq_zero_iff_lt (by positivity), ← not_lt (a := ℓ), hL, lt_levels_iff, not_le]
  have hset : {p | F.added ino off p}
      = ↑((Finset.range (L + 1)).image way ∪ (Finset.Ico 1 L).image first) := by
    ext ⟨j, ℓ, k⟩
    simp only [Finset.coe_union, Finset.coe_image, Set.mem_union, Set.mem_image, Finset.coe_range,
      Finset.coe_Ico, Set.mem_Iio, Set.mem_Ico, way, first, Pos.mk.injEq]
    refine FileMap.added_iff.trans ?_
    simp only [hsize, Nat.zero_max, show levels 0 = 0 by decide, ← hL]
    constructor
    · rintro ⟨rfl, hle, ⟨rfl, hpos⟩ | rfl⟩
      · rcases Nat.lt_or_eq_of_le hle with hlt | rfl
        · exact Or.inr ⟨ℓ, ⟨hpos, hlt⟩, rfl, rfl, rfl⟩
        · exact Or.inl ⟨L, by omega, rfl, rfl, hzero.2 le_rfl⟩
      · exact Or.inl ⟨ℓ, by omega, rfl, rfl, rfl⟩
    · rintro (⟨ℓ, hlt, rfl, rfl, rfl⟩ | ⟨ℓ, ⟨hpos, hlt⟩, rfl, rfl, rfl⟩)
      · exact ⟨rfl, by omega, Or.inr rfl⟩
      · exact ⟨rfl, by omega, Or.inl ⟨rfl, hpos⟩⟩
  have hdisjoint : Disjoint ((Finset.range (L + 1)).image way) ((Finset.Ico 1 L).image first) := by
    rw [Finset.disjoint_left]
    simp only [Finset.mem_image, Finset.mem_range, Finset.mem_Ico, way, first, not_exists, not_and]
    rintro p ⟨ℓ, -, rfl⟩ ℓ' ⟨-, hlt⟩ heq
    simp only [Pos.mk.injEq, true_and] at heq
    obtain ⟨rfl, heq⟩ := heq
    have := hzero.1 heq.symm
    omega
  rw [hset, Set.ncard_coe_finset, Finset.card_union_of_disjoint hdisjoint,
    Finset.card_image_of_injective, Finset.card_image_of_injective, Finset.card_range,
    Nat.card_Ico]
  · exact fun _ _ heq => congrArg Pos.level heq
  · exact fun _ _ heq => congrArg Pos.level heq

/-! ## Runs -/

section Runs

variable {σ : Type} {below : InodeStore σ} {bino : ℕ} {fails : String → σ → Prop}

/-- The first write to each inode is at an offset that one indirect block reaches. -/
def FirstWritesLow (ninodes : ℕ) (ops : List TreediskOp) : Prop :=
  ∀ pre ino off blk post, ops = pre ++ .write ino off blk :: post → ino < ninodes →
    offsetsWritten pre ino = [] → off < refsPerBlock

/-- The condition on a run holds of its first part. -/
theorem FirstWritesLow.pre {ninodes : ℕ} {pre post : List TreediskOp}
    (h : FirstWritesLow ninodes (pre ++ post)) : FirstWritesLow ninodes pre := by
  rintro pre' ino off blk post' rfl
  exact h pre' ino off blk (post' ++ post) (by simp)

/-- Some operations, and then others. -/
theorem runOps_append (pre post : List TreediskOp) (h : ℕ × TreediskState σ) :
    runOps h (pre ++ post) = runOps h pre >>= fun h => runOps h post := by
  induction pre generalizing h with
  | nil => rfl
  | cons op pre ih => simp only [List.cons_append, runOps, ih, bind_assoc]

/-- A run of a list returns if a run of a longer one does. -/
theorem runOps_pre {pre post : List TreediskOp} {h h' : ℕ × TreediskState σ} {s s' : σ}
    (hrun : runOps h (pre ++ post) s = .ok h' s') :
    ∃ h₁ s₁, runOps h pre s = .ok h₁ s₁ ∧ runOps h₁ post s₁ = .ok h' s' := by
  rw [runOps_append] at hrun
  change EStateM.bind _ _ s = _ at hrun
  unfold EStateM.bind at hrun
  split at hrun
  · exact ⟨_, _, ‹_›, hrun⟩
  · cases hrun

/-- The last call of a run. -/
theorem runOps_last {ops : List TreediskOp} {op : TreediskOp} {h h' : ℕ × TreediskState σ}
    {s s' : σ} (hrun : runOps h (ops ++ [op]) s = .ok h' s') :
    ∃ h₁ s₁, runOps h ops s = .ok h₁ s₁ ∧ runOp h₁ op s₁ = .ok h' s' := by
  obtain ⟨h₁, s₁, hpre, hlast⟩ := runOps_pre hrun
  refine ⟨h₁, s₁, hpre, ?_⟩
  simpa only [runOps, bind_pure] using hlast

/-- The empty files are those never written to. -/
theorem filesAfter_size_eq_zero {ninodes ino : ℕ} (hi : ino < ninodes) (ops : List TreediskOp) :
    (filesAfter ninodes ops).size ino = 0 ↔ offsetsWritten ops ino = [] := by
  have h := (filesAfter_spec hi ops).1 0
  rw [← Nat.le_zero, ← Nat.not_lt, h]
  simp [List.eq_nil_iff_forall_not_mem]

/-- In every run the files that are not empty have a root, and if the first writes are low, every
indirect block is useful. -/
theorem runOps_useful (A : BlockArray below bino nblocks fails) {h : ℕ × TreediskState σ} {s : σ}
    (ho : OpenAt A nIb FileMap.empty (fun _ => 0) h s) (ops : List TreediskOp)
    (hops : ∀ op ∈ ops, op.OffsetOk) {h' : ℕ × TreediskState σ} {s' : σ}
    (hrun : runOps h ops s = .ok h' s') :
    ∃ N, OpenAt A nIb (filesAfter (64 * nIb) ops) N h' s' ∧ Rooted (filesAfter (64 * nIb) ops) N ∧
      (FirstWritesLow (64 * nIb) ops → Useful (filesAfter (64 * nIb) ops) N) := by
  induction ops using List.reverseRecOn generalizing h' s' with
  | nil =>
    cases hrun
    exact ⟨_, ho, fun _ => iff_of_false (not_not.2 rfl) (lt_irrefl 0),
      fun _ _ _ _ _ hne => absurd rfl hne⟩
  | append_singleton ops op ih =>
    obtain ⟨h₁, s₁, hpre, hlast⟩ := runOps_last hrun
    obtain ⟨N, hat, hroot, huse⟩ := ih (fun op' hop' => hops op' (by simp [hop'])) hpre
    obtain ⟨N', hat', hstep⟩ := wp_ok (runOp_nodes_spec A hat (hops op (by simp))) hlast
    rw [filesAfter_append_one]
    refine ⟨N', hat', ?_⟩
    have hsame (hN : N' = N) : Rooted (filesAfter (64 * nIb) ops) N' ∧
        (FirstWritesLow (64 * nIb) (ops ++ [op]) → Useful (filesAfter (64 * nIb) ops) N') :=
      hN ▸ ⟨hroot, fun hlow => huse hlow.pre⟩
    cases op with
    | write ino off blk =>
      rw [FileMap.apply]
      by_cases hi : ino < 64 * nIb
      · rw [NodesStep, if_pos hi] at hstep
        rw [if_pos hi]
        obtain ⟨heads, hrep⟩ := hat.stores
        refine ⟨hroot.write hstep, fun hlow => (huse hlow.pre).write hrep hroot hstep fun hz => ?_⟩
        exact hlow ops ino off blk [] rfl hi ((filesAfter_size_eq_zero hi ops).1 hz)
      · rw [NodesStep, if_neg hi] at hstep
        rw [if_neg hi]
        exact hsame hstep
    | create n => exact hsame hstep
    | init => exact hsame hstep

/-- The first write to an inode at another offset leaves a useless block. -/
theorem runOps_useless (A : BlockArray below bino nblocks fails) {h : ℕ × TreediskState σ} {s : σ}
    (ho : OpenAt A nIb FileMap.empty (fun _ => 0) h s) {ops : List TreediskOp} {ino off : ℕ}
    {blk : Block} (hops : ∀ op ∈ ops ++ [.write ino off blk], op.OffsetOk) (hi : ino < 64 * nIb)
    (hfirst : offsetsWritten ops ino = []) (hoff : 128 ≤ off) {h' : ℕ × TreediskState σ} {s' : σ}
    (hrun : runOps h (ops ++ [.write ino off blk]) s = .ok h' s') :
    ¬ NoUselessBlocks (A.view s') := by
  obtain ⟨h₁, s₁, hpre, hlast⟩ := runOps_last hrun
  obtain ⟨N, hat, hroot, -⟩ := runOps_useful A ho ops (fun op hop => hops op (by simp [hop])) hpre
  obtain ⟨N', hat', hstep⟩ := wp_ok (runOp_nodes_spec A hat (hops _ (by simp))) hlast
  obtain ⟨heads, hrep⟩ := hat.stores
  obtain ⟨heads', hrep'⟩ := hat'.stores
  rw [FileMap.apply, if_pos hi] at hrep'
  rw [NodesStep, if_pos hi] at hstep
  rw [hrep'.noUselessBlocks_iff]
  exact not_useful_write hrep hroot hstep ((filesAfter_size_eq_zero hi ops).2 hfirst) hoff

/-- The first write to an inode takes one block for each level and one for the data, and one more
for each level between the first and the last. -/
theorem first_write_taken (A : BlockArray below bino nblocks fails) {h : ℕ × TreediskState σ}
    {s : σ} (hat : OpenAt A nIb F N h s) (hroot : Rooted F N) {ino off : ℕ} {blk : Block} {s' : σ}
    (hi : ino < 64 * nIb) (hempty : nblocksOf (A.view s) ino = 0) (hoff : off < 2 ^ 32 - 1)
    (hwrite : treediskWrite h.1 h.2 ino off blk s = .ok 0 s') :
    nlevelsOf (logRpbLoop 32 0) (nblocksOf (A.view s') ino) = levels (off + 1) ∧
    (freeBlocks (A.view s) \ freeBlocks (A.view s')).ncard
      = levels (off + 1) + 1 + (levels (off + 1) - 1) := by
  obtain ⟨rfl, hinv, ⟨heads, hrep⟩, -, hsize, hsmall⟩ := hat
  obtain ⟨-, -, N', heads', hrep', hadded⟩ :=
    wp_ok (treediskWrite_nodes_spec A hinv hrep hsize hsmall hi (by omega) blk) hwrite
  have hz : F.size ino = 0 := by rw [← hrep.size ino hi, hempty]
  have hall : {p | N p = 0 ∧ F.added ino off p} = {p | F.added ino off p} :=
    Set.ext fun p => and_iff_right_of_imp fun hp =>
      hroot.empty hrep ((FileMap.added_iff.1 hp).1 ▸ hz)
  constructor
  · rw [hrep'.nlevels hi, F.levels_write, hz, Nat.zero_max]
  · rw [hrep.taken_ncard hrep' hadded, ← added_ncard hz, ← hall]
    rfl

/-- In a run of writes on a created store, every indirect block reached from an inode has a nonzero
reference in every state of the run exactly if the first write to each inode is at an offset below
`REFS_PER_BLOCK`; and a write to an empty inode takes exactly one block for each level of the
resulting tree and one for the data exactly if its offset is below `REFS_PER_BLOCK`. -/
theorem indirect_blocks_useful_iff (A : TotalBlockArray below bino nblocks) {s₀ s₁ s₂ : σ}
    {ninodes logRpb : ℕ} (hinv : A.inv s₀) (hfresh : (A.view s₀ 0).nInodeblocks = 0)
    (hn : 1 ≤ ninodes) (hn32 : ninodes < 2 ^ 32)
    (hcreate : treediskCreate below bino ninodes s₀ = .ok 0 s₁)
    (hlog : logRpb = 0 ∨ logRpb = logRpbLoop 32 0) (ops : List TreediskOp)
    (hops : ∀ op ∈ ops, op.OffsetOk) {h : ℕ × TreediskState σ}
    (hrun : runOps (treediskInit logRpb below bino) ops s₁ = .ok h s₂) :
    ((∀ pre post h' s, ops = pre ++ post →
        runOps (treediskInit logRpb below bino) pre s₁ = .ok h' s → NoUselessBlocks (A.view s)) ↔
      FirstWritesLow ((A.view s₁ 0).nInodeblocks * inodesPerBlock) ops) ∧
    ∀ ino off blk s₃, ino < (A.view s₁ 0).nInodeblocks * inodesPerBlock →
      nblocksOf (A.view s₂) ino = 0 → off < 2 ^ 32 - 1 →
      treediskWrite h.1 h.2 ino off blk s₂ = .ok 0 s₃ →
      ((freeBlocks (A.view s₂) \ freeBlocks (A.view s₃)).ncard
          = nlevelsOf (logRpbLoop 32 0) (nblocksOf (A.view s₃) ino) + 1 ↔
        off < refsPerBlock) := by
  have hopen := openAt_of_ninodes A hinv hfresh hn hn32 hcreate hlog
  obtain ⟨heads, hrep⟩ := hopen.stores
  rw [hrep.stored.layout.super, Nat.mul_comm]
  refine ⟨⟨fun hall => ?_, fun hlow => ?_⟩, fun ino off blk s₃ hi hempty hoff hwrite => ?_⟩
  · rintro pre ino off blk post rfl hi hfirst
    by_contra hge
    have hsplit : pre ++ .write ino off blk :: post = (pre ++ [.write ino off blk]) ++ post := by
      simp
    rw [hsplit] at hops
    obtain ⟨h', s, hpre, -⟩ := runOps_pre (hsplit ▸ hrun)
    exact runOps_useless A hopen (fun op hop => hops op (List.mem_append_left _ hop)) hi hfirst
      (Nat.le_of_not_lt hge) hpre (hall _ _ h' s hsplit hpre)
  · rintro pre post h' s rfl hpre
    obtain ⟨N, hat, -, huse⟩ :=
      runOps_useful A hopen pre (fun op hop => hops op (by simp [hop])) hpre
    obtain ⟨heads, hrep⟩ := hat.stores
    exact hrep.noUselessBlocks_iff.2 (huse hlow.pre)
  · obtain ⟨N, hat, hroot, -⟩ := runOps_useful A hopen ops hops hrun
    obtain ⟨hlev, hcard⟩ := first_write_taken A hat hroot hi hempty hoff hwrite
    rw [hlev, hcard]
    have hlow : 1 < levels (off + 1) ↔ 128 ≤ off := lt_levels_iff
    change _ ↔ off < 128
    omega

theorem firstWritesLow_growingOps (ninodes : ℕ) : FirstWritesLow ninodes growingOps := by
  intro pre ino off blk post heq _ hfirst
  have hpre : pre = growingOps.take pre.length := by
    rw [heq]
    simp
  have hop : growingOps[pre.length]? = some (.write ino off blk) := by
    rw [heq]
    simp
  have hlt : pre.length < 7 := (List.getElem?_eq_some_iff.1 hop).1
  generalize pre.length = n at hpre hop hlt
  subst hpre
  interval_cases n <;> simp [growingOps, offsetsWritten] at hop hfirst <;>
    obtain ⟨rfl, rfl, rfl⟩ := hop <;> first | decide | exact absurd hfirst (by decide)

/-- In a run on a disk of twelve blocks the first writes are low. It leaves two levels of indirect
blocks, and none of them is useless. -/
theorem indirect_blocks_useful_growing :
    ∃ (s₁ s₂ : Disk) (h : ℕ × TreediskState Disk),
      treediskCreate (arrayStore 12) 0 1 (fun _ => nullBlock) = .ok 0 s₁ ∧
      runOps (treediskInit 0 (arrayStore 12) 0) growingOps s₁ = .ok h s₂ ∧
      nlevelsOf (logRpbLoop 32 0) (nblocksOf s₂ 3) = 2 ∧ NoUselessBlocks s₂ := by
  obtain ⟨s₁, s₂, h, hcreate, hrun, -, -, hsize⟩ := run_growing
  have huse := (indirect_blocks_useful_iff (arrayStoreArray 0 12 (by norm_num)) trivial rfl
    (le_refl 1) (by norm_num) hcreate (Or.inl rfl) _ offsetOk_growingOps hrun).1.2
  refine ⟨s₁, s₂, h, hcreate, hrun, by rw [hsize]; decide, ?_⟩
  exact huse (firstWritesLow_growingOps _) _ [] h s₂ (by simp) hrun

/-- On a disk of eight blocks, the first write to inode 0 at offset 128 takes four blocks, of which
the first of two indirect blocks below the root has no reference. -/
theorem indirect_block_useless :
    ∃ s₁ s₂ : Disk,
      treediskCreate (arrayStore 8) 0 1 (fun _ => nullBlock) = .ok 0 s₁ ∧
      treediskWrite 7 ⟨arrayStore 8, 0⟩ 0 128 nullBlock s₁ = .ok 0 s₂ ∧
      ¬ NoUselessBlocks s₂ ∧
      nlevelsOf (logRpbLoop 32 0) (nblocksOf s₂ 0) = 2 ∧
      (freeBlocks s₁ \ freeBlocks s₂).ncard = 4 := by
  have hreturns : wp (treediskCreate (arrayStore 8) 0 1)
      (fun r s₁ => (r = 0 ∧ nblocksOf s₁ 0 = 0) ∧
        wp (treediskWrite 7 ⟨arrayStore 8, 0⟩ 0 128 nullBlock)
          (fun r s₂ => r = 0 ∧ 0 < (s₂ 0).nInodeblocks * inodesPerBlock ∧
            nlevelsOf (logRpbLoop 32 0) (nblocksOf s₂ 0) = 2 ∧
            treeBlock s₂ 0 [0] ≠ 0 ∧ ∀ i < 128, treeBlock s₂ 0 [i, 0] = 0)
          (fun _ _ => False) s₁)
      (fun _ _ => False) (fun _ => nullBlock) := by decide +kernel
  obtain ⟨_, s₁, hcreate, ⟨rfl, hempty⟩, hwrite⟩ := wp_returns hreturns
  obtain ⟨_, s₂, hwrite, rfl, hi, hlevels, hne, hnone⟩ := wp_returns hwrite
  have hopen := openAt_of_ninodes (arrayStoreArray 0 8 (by norm_num)) trivial rfl (le_refl 1)
    (by norm_num) hcreate (Or.inl rfl)
  have htaken := (first_write_taken _ hopen (fun _ => iff_of_false (not_not.2 rfl) (lt_irrefl 0))
    (by norm_num) hempty (by norm_num) hwrite).2
  refine ⟨s₁, s₂, hcreate, hwrite, fun huse => ?_, hlevels, htaken.trans (by decide)⟩
  obtain ⟨i, hlt, hchild⟩ := huse 0 [0] hi (by rw [hlevels]; decide) (by decide) hne
  exact hchild (hnone i hlt)

end Runs

end Egos.File
