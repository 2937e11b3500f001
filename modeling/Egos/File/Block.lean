import Mathlib.Data.Fintype.Pi
import Mathlib.Tactic.IntervalCases
import Mathlib.Tactic.Ring

/-!
# Disk blocks

A block is `BLOCK_SIZE` = 512 bytes (`disk.h`). `union treedisk_block` (`file.h`) lays records of
32-bit words over the same bytes: a superblock is words 0 and 1, an inode is two consecutive words,
a free-list or indirect block is `REFS_PER_BLOCK` = 128 words. `Block.word` and `Block.setWord` are
the little-endian accesses behind these records.
-/

namespace Egos.File

/-- `BLOCK_SIZE`. -/
abbrev blockSize : ℕ := 512

/-- `REFS_PER_BLOCK`, that is `BLOCK_SIZE / sizeof(block_no)`. -/
abbrev refsPerBlock : ℕ := 128

/-- `INODES_PER_BLOCK`, that is `BLOCK_SIZE / sizeof(struct treedisk_inode)`. -/
abbrev inodesPerBlock : ℕ := 64

/-- `block_t`: the bytes of a block. -/
abbrev Block : Type := Fin blockSize → UInt8

/-- The block filled with null bytes (`null_block`). -/
def nullBlock : Block := fun _ => 0

namespace Block

/-- Byte `j` of a block, `0` past its end. -/
def byte (b : Block) (j : ℕ) : ℕ := if h : j < blockSize then (b ⟨j, h⟩).toNat else 0

/-- The 32-bit word `i` of a block. -/
def word (b : Block) (i : ℕ) : ℕ :=
  b.byte (4 * i) + 2 ^ 8 * b.byte (4 * i + 1) + 2 ^ 16 * b.byte (4 * i + 2)
    + 2 ^ 24 * b.byte (4 * i + 3)

/-- Store the 32-bit word `v` at index `i`. -/
def setWord (b : Block) (i v : ℕ) : Block := fun j =>
  if j.val / 4 = i then UInt8.ofNat (v / 2 ^ (8 * (j.val % 4))) else b j

/-- Bytes are small. -/
theorem byte_lt (b : Block) (j : ℕ) : b.byte j < 256 := by
  unfold byte
  split
  · exact UInt8.toNat_lt _
  · omega

/-- A word is a `block_no`, an unsigned 32-bit number. -/
theorem word_lt (b : Block) (i : ℕ) : b.word i < 2 ^ 32 := by
  have h0 := b.byte_lt (4 * i)
  have h1 := b.byte_lt (4 * i + 1)
  have h2 := b.byte_lt (4 * i + 2)
  have h3 := b.byte_lt (4 * i + 3)
  unfold word
  omega

@[simp] theorem byte_nullBlock (j : ℕ) : nullBlock.byte j = 0 := by
  unfold byte nullBlock
  split <;> rfl

@[simp] theorem word_nullBlock (i : ℕ) : nullBlock.word i = 0 := by
  simp [word]

/-- The bytes after a word is set. -/
theorem byte_setWord (b : Block) (i v j : ℕ) (hj : j < 512) :
    (b.setWord i v).byte j = if j / 4 = i then v / 2 ^ (8 * (j % 4)) % 256 else b.byte j := by
  simp only [byte, setWord, hj, dite_true]
  split <;> simp

/-- Reading back the word just stored. -/
theorem word_setWord_self (b : Block) {i v : ℕ} (hi : i < 128) (hv : v < 2 ^ 32) :
    (b.setWord i v).word i = v := by
  unfold word
  rw [byte_setWord _ _ _ _ (by omega), byte_setWord _ _ _ _ (by omega),
    byte_setWord _ _ _ _ (by omega), byte_setWord _ _ _ _ (by omega),
    if_pos (by omega), if_pos (by omega), if_pos (by omega), if_pos (by omega),
    show 4 * i % 4 = 0 by omega, show (4 * i + 1) % 4 = 1 by omega,
    show (4 * i + 2) % 4 = 2 by omega, show (4 * i + 3) % 4 = 3 by omega]
  omega

/-- Storing a word leaves the other words alone. -/
theorem word_setWord_ne (b : Block) {i j : ℕ} (v : ℕ) (hij : j ≠ i) :
    (b.setWord i v).word j = b.word j := by
  have hbyte : ∀ k, k / 4 = j → (b.setWord i v).byte k = b.byte k := by
    intro k hk
    by_cases hlt : k < blockSize
    · rw [byte_setWord _ _ _ _ hlt, if_neg (by omega)]
    · simp [byte, hlt]
  unfold word
  rw [hbyte _ (by omega), hbyte _ (by omega), hbyte _ (by omega), hbyte _ (by omega)]

/-- Storing a word, read back at any index below the end of the block. -/
theorem word_setWord (b : Block) {i j v : ℕ} (hj : j < 128) (hv : v < 2 ^ 32) :
    (b.setWord i v).word j = if j = i then v else b.word j := by
  split
  · subst j
    exact b.word_setWord_self hj hv
  · exact b.word_setWord_ne v (by assumption)

/-- A block whose words are all 0 is the null block. -/
theorem eq_nullBlock {b : Block} (h : ∀ i, i < 128 → b.word i = 0) : b = nullBlock := by
  funext j
  have hj : j.val < 512 := j.isLt
  have hw := h (j.val / 4) (by omega)
  have hb : b.byte j.val = 0 := by
    unfold word at hw
    rcases (by omega : j.val % 4 = 0 ∨ j.val % 4 = 1 ∨ j.val % 4 = 2 ∨ j.val % 4 = 3)
      with hm | hm | hm | hm
    · rw [show j.val = 4 * (j.val / 4) by omega]
      omega
    · rw [show j.val = 4 * (j.val / 4) + 1 by omega]
      omega
    · rw [show j.val = 4 * (j.val / 4) + 2 by omega]
      omega
    · rw [show j.val = 4 * (j.val / 4) + 3 by omega]
      omega
  simp only [byte, hj, dite_true] at hb
  exact UInt8.toNat_inj.mp hb

end Block

end Egos.File
