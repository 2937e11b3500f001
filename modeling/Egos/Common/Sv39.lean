import Egos.Common.Memory
import Mathlib.Tactic.Ring

/-!
# Address translation with Sv39 page tables

The walk of the RISC-V privileged architecture: a virtual address has a 39-bit part with three
9-bit indices, each level of tables has 512 entries of 8 bytes, and an entry is invalid, points to
the next table or is a leaf. A walk that gives `none` is a page fault. Leaves with the accessed or
the dirty bit clear fault too, as they may on access.
-/

namespace Egos.Sv39

variable {mem : Memory} {va a : ℕ}

/-! ## Entries -/

/-- Bit `i` of an entry: `0` valid, `1` read, `2` write, `3` execute, `4` user, `5` global,
`6` accessed, `7` dirty. -/
def bit (pte i : ℕ) : Bool := pte / 2 ^ i % 2 = 1

/-- The physical page number of an entry. -/
def ppn (pte : ℕ) : ℕ := pte / 2 ^ 10 % 2 ^ 44

/-- The index of an address at a level of tables. -/
def vpn (va level : ℕ) : ℕ := va / 2 ^ (12 + 9 * level) % 2 ^ 9

/-- An index is that of one of 512 entries. -/
theorem vpn_lt (va level : ℕ) : vpn va level < 512 := Nat.mod_lt _ (by decide)

/-- The bits above the 39-bit part repeat its highest bit. -/
def Canonical (va : ℕ) : Prop := va / 2 ^ 38 = 0 ∨ va / 2 ^ 38 = 2 ^ 26 - 1

instance (va : ℕ) : Decidable (Canonical va) := inferInstanceAs (Decidable (_ ∨ _))

/-- An entry that can be read or executed is a leaf. -/
def isLeaf (pte : ℕ) : Bool := bit pte 1 || bit pte 3

/-- An entry that is not valid, or whose encoding is reserved. -/
def faults (pte : ℕ) : Bool :=
  !bit pte 0 || (!bit pte 1 && bit pte 2) || pte / 2 ^ 54 != 0 ||
    (!isLeaf pte && (bit pte 4 || bit pte 6 || bit pte 7)) ||
    (isLeaf pte && !(bit pte 6 && bit pte 7))

/-! ## The walk -/

/-- Where a page is and whether user code can access it. -/
structure Leaf where
  pa : ℕ
  user : Bool
  deriving DecidableEq

/-- The entry of a table that translates an address. -/
def entry (mem : Memory) (va level table : ℕ) : ℕ := mem.readLE (table + 8 * vpn va level) 8

/-- The page that a leaf at a level gives; a superpage has to be aligned. -/
def leafPage (va level pte : ℕ) : Option Leaf :=
  if ppn pte % 2 ^ (9 * level) = 0 then
    some ⟨(ppn pte + va / 2 ^ 12 % 2 ^ (9 * level)) * 2 ^ 12, bit pte 4⟩
  else none

/-- What an entry leads to; `next` is the walk from the table of the next level. -/
def resolve (va level pte : ℕ) (next : ℕ → Option Leaf) : Option Leaf :=
  if faults pte then none
  else if isLeaf pte then leafPage va level pte
  else next (ppn pte * 2 ^ 12)

/-- The walk from a table at a level. -/
def walk (mem : Memory) (va : ℕ) : ℕ → ℕ → Option Leaf
  | 0, table => resolve va 0 (entry mem va 0 table) fun _ => none
  | l + 1, table => resolve va (l + 1) (entry mem va (l + 1) table) (walk mem va l)

/-- The tables that the walk reads. -/
def tables (mem : Memory) (va : ℕ) : ℕ → ℕ → List ℕ
  | 0, table => [table]
  | l + 1, table =>
    table ::
      if faults (entry mem va (l + 1) table) || isLeaf (entry mem va (l + 1) table) then []
      else tables mem va l (ppn (entry mem va (l + 1) table) * 2 ^ 12)

/-- The translation of an address with a root table. -/
def translate (mem : Memory) (root va : ℕ) : Option Leaf :=
  if Canonical va then walk mem va 2 root else none

/-! ## The entries that software builds -/

section entries

variable {n : ℕ}

/-- A pointer to the table in page `n`. -/
def pointer (n : ℕ) : ℕ := n * 2 ^ 10 + 1

/-- A leaf for page `n`, accessed and dirty, with all permissions. -/
def leaf (n : ℕ) (user : Bool) : ℕ := n * 2 ^ 10 + if user then 0xDF else 0xCF

/-- The null entry is invalid. -/
theorem faults_zero : faults 0 = true := by decide

/-- A pointer fits into an entry. -/
theorem pointer_lt (hn : n < 2 ^ 44) : pointer n < 256 ^ 8 := by
  unfold pointer
  omega

/-- A leaf fits into an entry. -/
theorem leaf_lt (hn : n < 2 ^ 44) (user : Bool) : leaf n user < 256 ^ 8 := by
  unfold leaf
  split <;> omega

/-- The table that a pointer is for. -/
theorem ppn_pointer (hn : n < 2 ^ 44) : ppn (pointer n) = n := by
  unfold ppn pointer
  omega

/-- The page that a leaf is for. -/
theorem ppn_leaf (hn : n < 2 ^ 44) (user : Bool) : ppn (leaf n user) = n := by
  unfold ppn leaf
  split <;> omega

/-- The flags of an entry are in its low 10 bits. -/
theorem bit_add {f i : ℕ} (hi : i ≤ 9) : bit (n * 2 ^ 10 + f) i = bit f i := by
  have hsplit : n * 2 ^ 10 + f = f + 2 ^ i * (2 * (n * 2 ^ (9 - i))) := by
    have hpow : (2 : ℕ) ^ 10 = 2 ^ i * (2 * 2 ^ (9 - i)) := by
      rw [← Nat.pow_succ', ← Nat.pow_add]
      congr 1
      omega
    rw [hpow]
    ring
  rw [bit, bit, hsplit, Nat.add_mul_div_left _ _ (Nat.two_pow_pos i), Nat.add_mul_mod_self_left]

/-- A pointer is not a leaf. -/
theorem isLeaf_pointer : isLeaf (pointer n) = false := by
  rw [isLeaf, pointer, bit_add (by omega), bit_add (by omega)]
  decide

/-- A leaf is one. -/
theorem isLeaf_leaf (user : Bool) : isLeaf (leaf n user) = true := by
  rw [isLeaf, leaf, bit_add (by omega), bit_add (by omega)]
  cases user <;> decide

/-- A pointer does not fault. -/
theorem faults_pointer (hn : n < 2 ^ 44) : faults (pointer n) = false := by
  have hhigh : (pointer n / 2 ^ 54 != 0) = false := by
    unfold pointer
    rw [bne_eq_false_iff_eq]
    omega
  rw [faults, isLeaf_pointer, hhigh]
  simp only [pointer, bit_add (show 0 ≤ 9 by omega), bit_add (show 1 ≤ 9 by omega),
    bit_add (show 2 ≤ 9 by omega), bit_add (show 4 ≤ 9 by omega), bit_add (show 6 ≤ 9 by omega),
    bit_add (show 7 ≤ 9 by omega)]
  decide

/-- A leaf does not fault. -/
theorem faults_leaf (hn : n < 2 ^ 44) (user : Bool) : faults (leaf n user) = false := by
  have hhigh : (leaf n user / 2 ^ 54 != 0) = false := by
    unfold leaf
    rw [bne_eq_false_iff_eq]
    split <;> omega
  rw [faults, isLeaf_leaf, hhigh]
  simp only [leaf, bit_add (show 0 ≤ 9 by omega), bit_add (show 1 ≤ 9 by omega),
    bit_add (show 2 ≤ 9 by omega), bit_add (show 4 ≤ 9 by omega), bit_add (show 6 ≤ 9 by omega),
    bit_add (show 7 ≤ 9 by omega)]
  cases user <;> decide

/-! ## Steps of the walk -/

/-- The walk stops at a null entry. -/
theorem walk_null {level : ℕ} (h : entry mem va level a = 0) : walk mem va level a = none := by
  cases level <;> rw [walk, h, resolve, if_pos faults_zero]

/-- At a pointer it goes on in the next table. -/
theorem walk_pointer {l : ℕ} (h : entry mem va (l + 1) a = pointer n) (hn : n < 2 ^ 44) :
    walk mem va (l + 1) a = walk mem va l (n * 2 ^ 12) := by
  rw [walk, h, resolve, faults_pointer hn, isLeaf_pointer, ppn_pointer hn]
  rfl

/-- At a leaf it has found the page. -/
theorem walk_leaf {user : Bool} (h : entry mem va 0 a = leaf n user) (hn : n < 2 ^ 44) :
    walk mem va 0 a = some ⟨n * 2 ^ 12, user⟩ := by
  have hu : bit (leaf n user) 4 = user := by
    rw [leaf, bit_add (by omega)]
    cases user <;> decide
  rw [walk, h, resolve, faults_leaf hn, isLeaf_leaf, leafPage, ppn_leaf hn, hu]
  simp [Nat.mod_one]

/-- The walk has read the table with the null entry. -/
theorem tables_null {l : ℕ} (h : entry mem va (l + 1) a = 0) : tables mem va (l + 1) a = [a] := by
  rw [tables, h, faults_zero]
  rfl

/-- The tables that the walk reads, one after the other. -/
theorem tables_pointer {l : ℕ} (h : entry mem va (l + 1) a = pointer n) (hn : n < 2 ^ 44) :
    tables mem va (l + 1) a = a :: tables mem va l (n * 2 ^ 12) := by
  rw [tables, h, faults_pointer hn, isLeaf_pointer, ppn_pointer hn]
  rfl

end entries

end Egos.Sv39
