import Egos.File.Layout
import Mathlib.Data.Nat.Log

/-!
# What a treedisk stores

`FileMap` is what a treedisk is for: every inode is a file, a size and a block at every offset, and
a write sets one block and extends the size to cover it. `Rep` relates a disk to the file map it
stores, and `Stored` is the part of it that holds in the middle of a write, when the number of
levels of one tree is ahead of the size in its inode.
-/

namespace Egos.File

/-! ## Files -/

/-- The files of an inode store: sizes in blocks, and a block at every offset. -/
structure FileMap where
  size : ℕ → ℕ
  block : ℕ → ℕ → Block

namespace FileMap

/-- Every file exists and is empty. -/
def empty : FileMap := ⟨fun _ => 0, fun _ _ => nullBlock⟩

/-- Replace one block of one file. -/
def setBlock (blk : ℕ → ℕ → Block) (ino off : ℕ) (x : Block) : ℕ → ℕ → Block :=
  Function.update blk ino (Function.update (blk ino) off x)

/-- Writing a block extends the file to cover it. -/
def write (F : FileMap) (ino off : ℕ) (x : Block) : FileMap :=
  ⟨Function.update F.size ino (max (F.size ino) (off + 1)), setBlock F.block ino off x⟩

/-- Reading a block: `none` at or past the end of the file. -/
def read (F : FileMap) (ino off : ℕ) : Option Block :=
  if off < F.size ino then some (F.block ino off) else none

/-- The blocks after one is set. -/
theorem setBlock_apply (blk : ℕ → ℕ → Block) (ino off : ℕ) (x : Block) (j o : ℕ) :
    setBlock blk ino off x j o = if j = ino ∧ o = off then x else blk j o := by
  unfold setBlock
  by_cases hj : j = ino
  · subst hj
    rw [Function.update_self]
    by_cases ho : o = off
    · rw [ho, Function.update_self, if_pos ⟨rfl, rfl⟩]
    · rw [Function.update_of_ne ho, if_neg fun hc => ho hc.2]
  · rw [Function.update_of_ne hj, if_neg fun hc => hj hc.1]

/-- A write makes its file as long as needed, and leaves the others. -/
theorem write_size (F : FileMap) (ino off : ℕ) (x : Block) (j : ℕ) :
    (F.write ino off x).size j = if j = ino then max (F.size ino) (off + 1) else F.size j := by
  simp only [write]
  by_cases hj : j = ino
  · rw [hj, Function.update_self, if_pos rfl]
  · rw [Function.update_of_ne hj, if_neg hj]

/-- A write changes one block. -/
theorem write_block (F : FileMap) (ino off : ℕ) (x : Block) (j o : ℕ) :
    (F.write ino off x).block j o = if j = ino ∧ o = off then x else F.block j o :=
  setBlock_apply _ _ _ _ _ _

/-- Writing behind the end makes a file longer by one block. -/
theorem append_size (F : FileMap) (ino : ℕ) (x : Block) :
    (F.write ino (F.size ino) x).size = Function.update F.size ino (F.size ino + 1) := by
  rw [write, max_eq_right (Nat.le_succ _)]

end FileMap

/-! ## Levels -/

/-- The number of levels of a tree for a file of `size` blocks. -/
def levels (size : ℕ) : ℕ := Nat.clog 128 size

/-- A block has 128 references. -/
theorem logRpbLoop_eq : logRpbLoop 32 0 = 7 := by decide

/-- Shifting a `block_no` by `n` times `log_rpb` is dividing it by the `n`-th power of 128. -/
theorem logShiftR_eq {x : ℕ} (hx : x < 2 ^ 32) (n : ℕ) : logShiftR x (n * 7) = x / 128 ^ n := by
  have hpow : 128 ^ n = 2 ^ (n * 7) := by rw [Nat.mul_comm n 7, Nat.pow_mul]
  rw [hpow, logShiftR]
  split
  · rename_i hn
    have : 2 ^ 32 ≤ 2 ^ (n * 7) := Nat.pow_le_pow_right (by omega) hn
    rw [Nat.div_eq_of_lt (by omega)]
  · exact Nat.shiftRight_eq_div_pow x (n * 7)

/-- The loop that counts levels counts those of an offset. -/
theorem countLevels_eq {x : ℕ} (hx : x < 2 ^ 32) (fuel n : ℕ) (hn : n ≤ levels (x + 1))
    (hfuel : levels (x + 1) ≤ n + fuel) : countLevels 7 x fuel n = levels (x + 1) := by
  induction fuel generalizing n with
  | zero => exact (by omega : n = levels (x + 1))
  | succ fuel ih =>
    have hiff : x / 128 ^ n ≠ 0 ↔ n < levels (x + 1) := by
      rw [levels, Nat.lt_clog_iff_pow_lt (by omega), Nat.lt_succ_iff, Ne, Nat.div_eq_zero_iff]
      have : 0 < 128 ^ n := Nat.pow_pos (by omega)
      omega
    rw [countLevels, logShiftR_eq hx]
    split
    · rename_i hne
      exact ih (n + 1) (hiff.mp hne) (by omega)
    · rename_i hz
      exact (by have := mt hiff.mpr hz; omega : n = levels (x + 1))

/-- Five levels are enough for all offsets. -/
theorem levels_le {x : ℕ} (hx : x < 2 ^ 32) : levels (x + 1) ≤ 5 := by
  rw [levels, Nat.clog_le_iff_le_pow (by omega)]
  omega

/-- The loop of the source computes the number of levels. -/
theorem levelsFor_eq {x : ℕ} (hx : x < 2 ^ 32) : levelsFor 7 x = levels (x + 1) := by
  have := levels_le hx
  exact countLevels_eq hx 32 0 (Nat.zero_le _) (by omega)

/-- The levels that `treedisk_read` and `treedisk_write` count. -/
theorem nlevelsOf_eq {n : ℕ} (hn : n < 2 ^ 32) : nlevelsOf 7 n = levels n := by
  unfold nlevelsOf
  split
  · rw [levelsFor_eq (by omega), Nat.sub_add_cancel (by omega)]
  · rw [show n = 0 by omega]
    rfl

theorem levels_mono {m n : ℕ} (h : m ≤ n) : levels m ≤ levels n := Nat.clog_mono_right _ h

/-- Offsets below the size fit in the tree. -/
theorem div_levels {size off : ℕ} (h : off < size) : off / 128 ^ levels size = 0 := by
  have := Nat.le_pow_clog (b := 128) (by omega) size
  exact Nat.div_eq_of_lt (lt_of_lt_of_le h this)

/-- A level is needed when its subtrees are too small for the offset. -/
theorem lt_levels_iff {off ℓ : ℕ} : ℓ < levels (off + 1) ↔ 128 ^ ℓ ≤ off := by
  rw [levels, Nat.lt_clog_iff_pow_lt (by omega), Nat.lt_succ_iff]

/-! ## The stored blocks -/

/-- The contents behind a reference: a hole reads as null bytes. -/
def leafBlock (D : Disk) (b : ℕ) : Block := if b = 0 then nullBlock else D b

/-- A disk with a layout whose data blocks are `blk`. -/
structure Stored (nIb nblocks : ℕ) (D : Disk) (lv : ℕ → ℕ) (N : Pos → ℕ) (heads : List ℕ)
    (limbo : ℕ → Prop) (blk : ℕ → ℕ → Block) : Prop where
  layout : Layout nIb nblocks D lv N heads limbo
  content : ∀ ino off, leafBlock D (N ⟨ino, 0, off⟩) = blk ino off

/-- A disk that stores the files `F`. -/
structure Rep (nIb nblocks : ℕ) (D : Disk) (F : FileMap) (N : Pos → ℕ) (heads : List ℕ)
    (limbo : ℕ → Prop) : Prop where
  stored : Stored nIb nblocks D (fun ino => levels (F.size ino)) N heads limbo F.block
  size : ∀ ino, ino < 64 * nIb → nblocksOf D ino = F.size ino

/-- A disk that stores the files `F`, for some layout without blocks in limbo. -/
def Stores (nIb nblocks : ℕ) (D : Disk) (F : FileMap) : Prop :=
  ∃ N heads, Rep nIb nblocks D F N heads (fun _ => False)

variable {nIb nblocks : ℕ} {D : Disk} {lv : ℕ → ℕ} {N : Pos → ℕ} {heads : List ℕ}
  {limbo : ℕ → Prop} {blk : ℕ → ℕ → Block}

/-- The slot of a position: the word of an inode block or indirect block that holds its number. -/
inductive Slot (nIb : ℕ) (lv : ℕ → ℕ) (N : Pos → ℕ) : Pos → ℕ → ℕ → Prop
  | root {ino : ℕ} : ino < 64 * nIb →
      Slot nIb lv N ⟨ino, lv ino, 0⟩ (1 + ino / 64) (2 * (ino % 64))
  | node {ino ℓ k : ℕ} : ℓ < lv ino → N ⟨ino, ℓ + 1, k / 128⟩ ≠ 0 →
      Slot nIb lv N ⟨ino, ℓ, k⟩ (N ⟨ino, ℓ + 1, k / 128⟩) (k % 128)

/-- A slot holds the number of the block at its position. -/
theorem Slot.word (hF : Forest nIb D lv N) {p : Pos} {P idx : ℕ} (h : Slot nIb lv N p P idx) :
    (D P).word idx = N p := by
  cases h with
  | root hi => exact (hF.root _ hi).symm
  | node hℓ hne =>
    rename_i ino ℓ k
    have := hF.child ino ℓ (k / 128) (k % 128) hℓ (by omega) hne
    rw [← this, show 128 * (k / 128) + k % 128 = k by omega]

/-- The block of a slot is not the superblock, not in limbo, not a free-list block and not a block
at a level at or below the slot's position. -/
theorem Slot.block_ne (h : Layout nIb nblocks D lv N heads limbo) {p : Pos} {P idx : ℕ}
    (hs : Slot nIb lv N p P idx) :
    P ≠ 0 ∧ P < nblocks + 1 + nIb ∧ ¬ limbo P ∧ P ∉ heads ∧
      ∀ q, q.level ≤ p.level → N q ≠ 0 → N q ≠ P := by
  cases hs with
  | root hi =>
    have hle := inodeblock_le hi
    refine ⟨by omega, by omega, ?_, ?_, ?_⟩
    · exact fun hl => by have := (h.limbo_range _ hl).1; omega
    · exact fun hl => by have := h.head_gt hl; omega
    · exact fun q _ hq he => by have := (h.node_range q hq).1; omega
  | node hℓ hne =>
    have := h.node_range _ hne
    refine ⟨hne, by omega, ?_, ?_, ?_⟩
    · exact fun hl => h.limbo_not_node _ hl _ rfl
    · exact fun hl => h.free_not_node _ (Or.inl hl) _ rfl
    · intro q hq hq0 he
      rw [h.forest.inj q _ hq0 he] at hq
      simp at hq

/-- Linking a block into the slot of a hole keeps the forest in order. -/
theorem Slot.link (h : Layout nIb nblocks D lv N heads limbo) {p : Pos} {P idx b : ℕ}
    (hs : Slot nIb lv N p P idx) (hhole : N p = 0) (hb : limbo b) (hbw : b < 2 ^ 32)
    (hzero : 1 ≤ p.level → ∀ i, i < 128 → (D b).word i = 0) :
    Forest nIb (Function.update D P ((D P).setWord idx b)) lv (Function.update N p b) := by
  have hr := h.limbo_range b hb
  have hgt : ∀ q, N q ≠ 0 → nIb < N q := fun q hq => (h.node_range q hq).1
  cases hs with
  | root hi =>
    exact h.forest.link_root (h.limbo_not_node b hb) (by omega) hbw hr.1 hi hhole hzero hgt
  | node hℓ hne =>
    exact h.forest.link_node (h.limbo_not_node b hb) (by omega) hbw hℓ hne hhole hzero hgt

/-- Popping a block keeps what is stored. -/
theorem Stored.pop (h : Stored nIb nblocks D lv N heads limbo blk) (hne : (D 0).freeList ≠ 0) :
    ∃ heads', PopSpec D (popFree D).2 heads heads' (popFree D).1 ∧
      OnFreeList D heads (popFree D).1 ∧
      Stored nIb nblocks (popFree D).2 lv N heads' (fun x => limbo x ∨ x = (popFree D).1) blk := by
  obtain ⟨heads', hp, hmem, hl⟩ := h.layout.pop hne
  refine ⟨heads', hp, hmem, hl, ?_⟩
  intro ino off
  rw [← h.content ino off]
  unfold leafBlock
  split
  · rfl
  · rename_i hne0
    exact hp.off _ hne0 fun hx => h.layout.free_not_node _ (Or.inl hx) _ rfl

/-- Attaching a block from limbo, with contents `x`, at the slot of a hole. An indirect block comes
with no references, so only a data block changes what is stored. -/
theorem Stored.attach (h : Stored nIb nblocks D lv N heads limbo blk) {p : Pos} {P idx b : ℕ}
    {x : Block} (hs : Slot nIb lv N p P idx) (hhole : N p = 0) (hb : limbo b) (hbw : b < 2 ^ 32)
    (hx : 1 ≤ p.level → x = nullBlock) :
    Stored nIb nblocks (Function.update (Function.update D P ((D P).setWord idx b)) b x) lv
      (Function.update N p b) heads (fun y => limbo y ∧ y ≠ b)
      (if p.level = 0 then FileMap.setBlock blk p.ino p.index x else blk) := by
  obtain ⟨hP0, -, hPl, hPh, hPn⟩ := hs.block_ne h.layout
  have hbP : b ≠ P := fun he => hPl (he ▸ hb)
  have hb0 : b ≠ 0 := by
    have := h.layout.limbo_range b hb
    omega
  have h1 := h.layout.update_limbo x hb
  have hDP : Function.update D b x P = D P := Function.update_of_ne (Ne.symm hbP) _ _
  rw [Function.update_comm (Ne.symm hbP), ← hDP]
  refine ⟨h1.relink hb hhole ?_ ?_ ?_, ?_⟩
  · refine hs.link h1 hhole hb hbw fun hp i _ => ?_
    rw [Function.update_self, hx hp, Block.word_nullBlock]
  · exact Function.update_of_ne (Ne.symm hP0) _ _
  · exact fun y hy => Function.update_of_ne (fun he : y = P => hPh (he ▸ hy)) _ _
  · intro ino off
    by_cases hp : (⟨ino, 0, off⟩ : Pos) = p
    · subst hp
      rw [Function.update_self, leafBlock, if_neg hb0, Function.update_of_ne hbP,
        Function.update_self, if_pos rfl, FileMap.setBlock_apply, if_pos ⟨rfl, rfl⟩]
    · have hblk : (if p.level = 0 then FileMap.setBlock blk p.ino p.index x else blk) ino off
          = blk ino off := by
        split
        · rename_i hl
          rw [FileMap.setBlock_apply, if_neg]
          rintro ⟨rfl, rfl⟩
          exact hp (by cases p; simp_all)
        · rfl
      rw [Function.update_of_ne hp, hblk, ← h.content ino off]
      unfold leafBlock
      split
      · rfl
      · rename_i hne0
        rw [Function.update_of_ne (hPn _ (Nat.zero_le _) hne0),
          Function.update_of_ne (h.layout.limbo_not_node b hb _)]

/-- Overwriting a data block. -/
theorem Stored.overwrite (h : Stored nIb nblocks D lv N heads limbo blk) {ino off : ℕ} (x : Block)
    (hne : N ⟨ino, 0, off⟩ ≠ 0) :
    Stored nIb nblocks (Function.update D (N ⟨ino, 0, off⟩) x) lv N heads limbo
      (FileMap.setBlock blk ino off x) := by
  refine ⟨h.layout.update_data x hne, fun j o => ?_⟩
  rw [FileMap.setBlock_apply]
  by_cases hjo : j = ino ∧ o = off
  · obtain ⟨rfl, rfl⟩ := hjo
    rw [if_pos ⟨rfl, rfl⟩, leafBlock, if_neg hne, Function.update_self]
  · rw [if_neg hjo, ← h.content j o]
    unfold leafBlock
    split
    · rfl
    · rename_i hne0
      rw [Function.update_of_ne]
      intro he
      have := h.layout.forest.inj _ _ hne0 he
      injection this with h1 _ h3
      exact hjo ⟨h1, h3⟩

/-- Inserting an indirect block above the root. -/
theorem Stored.grow (h : Stored nIb nblocks D lv N heads limbo blk) {b ino : ℕ} (hb : limbo b)
    (hbw : b < 2 ^ 32) (hi : ino < 64 * nIb) :
    Stored nIb nblocks
      (setRootOf (Function.update D b (nullBlock.setWord 0 (rootOf D ino))) ino b)
      (Function.update lv ino (lv ino + 1)) (Function.update N ⟨ino, lv ino + 1, 0⟩ b) heads
      (fun y => limbo y ∧ y ≠ b) blk := by
  have hr := h.layout.limbo_range b hb
  have hle := inodeblock_le hi
  have h1 := h.layout.update_limbo (nullBlock.setWord 0 (rootOf D ino)) hb
  have hroot : rootOf (Function.update D b (nullBlock.setWord 0 (rootOf D ino))) ino
      = rootOf D ino := rootOf_update _ hr.1 hi
  have hhole : N ⟨ino, lv ino + 1, 0⟩ = 0 := by
    by_contra hne
    have := (h.layout.forest.inside _ hne).2
    simp only at this
    omega
  have hoff : ∀ y, nIb < y →
      setRootOf (Function.update D b (nullBlock.setWord 0 (rootOf D ino))) ino b y
        = Function.update D b (nullBlock.setWord 0 (rootOf D ino)) y := fun y hy =>
    Function.update_of_ne (by omega) _ _
  refine ⟨h1.relink hb hhole ?_ ?_ ?_, ?_⟩
  · refine h1.forest.grow (h.layout.limbo_not_node b hb) (by omega) hbw hr.1 hi ?_
      fun q hq => (h.layout.node_range q hq).1
    intro i hi'
    rw [Function.update_self, hroot, Block.word_setWord nullBlock hi' (rootOf_lt D ino),
      Block.word_nullBlock]
  · exact Function.update_of_ne (by omega) _ _
  · exact fun y hy => hoff y (h1.head_gt hy)
  · intro j o
    rw [Function.update_of_ne (by intro he; injection he with _ h2 _; omega), ← h.content j o]
    unfold leafBlock
    split
    · rfl
    · rename_i hne0
      rw [hoff _ (h.layout.node_range _ hne0).1,
        Function.update_of_ne (h.layout.limbo_not_node b hb _)]

end Egos.File
