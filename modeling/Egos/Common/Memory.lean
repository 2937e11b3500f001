import Mathlib.Algebra.Order.Ring.Int
import Mathlib.Data.List.Basic
import Mathlib.Data.Nat.Basic
import Mathlib.Tactic.Common

/-!
# Byte-addressed memory

A memory is a function from addresses to bytes, with the block operations of C (`memset`, `memcpy`)
and little-endian integers of any width. Each operation has a lemma that reads back what it wrote
and one for the addresses it leaves alone.
-/

namespace Egos

/-- The contents of a memory. -/
abbrev Memory : Type := ℕ → UInt8

namespace Memory

variable (mem mem' : Memory) {ι : Type}

/-- `memset(dst, c, n)`. -/
def memset (dst : ℕ) (c : UInt8) (n : ℕ) : Memory := fun a =>
  if dst ≤ a ∧ a < dst + n then c else mem a

/-- `memcpy(dst, src, n)` for regions that do not overlap. -/
def memcpy (dst src n : ℕ) : Memory := fun a =>
  if dst ≤ a ∧ a < dst + n then mem (src + (a - dst)) else mem a

/-- Write `n` bytes from `dst` on. -/
def blit (dst n : ℕ) (bytes : ℕ → UInt8) : Memory := fun a =>
  if dst ≤ a ∧ a < dst + n then bytes (a - dst) else mem a

/-- The little-endian integer in the `n` bytes from `a` on. -/
def readLE : ℕ → ℕ → ℕ
  | _, 0 => 0
  | a, n + 1 => (mem a).toNat + 256 * readLE (a + 1) n

/-- Store the integer `w` in the `n` bytes from `a` on. -/
def writeLE (a n w : ℕ) : Memory := fun x =>
  if a ≤ x ∧ x < a + n then UInt8.ofNat (w / 256 ^ (x - a)) else mem x

/-! ## Integers -/

/-- Only the bytes of the integer count. -/
theorem readLE_congr {mem mem' : Memory} :
    ∀ {n a : ℕ}, (∀ x, a ≤ x → x < a + n → mem x = mem' x) → mem.readLE a n = mem'.readLE a n
  | 0, _, _ => rfl
  | n + 1, a, h => by
    rw [readLE, readLE, h a (le_refl a) (by omega),
      readLE_congr fun x hx hx' => h x (by omega) (by omega)]

/-- Reading the digits of an integer to the base 256. -/
theorem readLE_digits {mem : Memory} : ∀ {n a w : ℕ},
    (∀ j, j < n → mem (a + j) = UInt8.ofNat (w / 256 ^ j)) → mem.readLE a n = w % 256 ^ n
  | 0, _, w, _ => by rw [readLE, Nat.pow_zero, Nat.mod_one]
  | n + 1, a, w, h => by
    have hhead : (mem a).toNat = w % 256 := by
      rw [show mem a = UInt8.ofNat w by simpa using h 0 (by omega)]
      exact UInt8.toNat_ofNat' ..
    have htail : mem.readLE (a + 1) n = w / 256 % 256 ^ n := by
      refine readLE_digits fun j hj => ?_
      rw [Nat.div_div_eq_div_mul, ← Nat.pow_succ', ← h (j + 1) (by omega)]
      congr 1
      omega
    rw [readLE, hhead, htail, Nat.pow_succ', Nat.mod_mul]

/-- An integer that was stored is read back. -/
theorem readLE_writeLE_self (a n : ℕ) {w : ℕ} (hw : w < 256 ^ n) :
    (mem.writeLE a n w).readLE a n = w := by
  rw [readLE_digits fun j hj => ?_, Nat.mod_eq_of_lt hw]
  rw [writeLE, if_pos (by omega), Nat.add_sub_cancel_left]

/-- Storing an integer leaves the other bytes. -/
theorem writeLE_of_not_mem {a n x : ℕ} (w : ℕ) (hx : ¬ (a ≤ x ∧ x < a + n)) :
    mem.writeLE a n w x = mem x := if_neg hx

/-- Storing an integer leaves those beside it alone. -/
theorem readLE_writeLE_of_disjoint {a b n m : ℕ} (w : ℕ) (h : a + n ≤ b ∨ b + m ≤ a) :
    (mem.writeLE a n w).readLE b m = mem.readLE b m :=
  readLE_congr fun _ _ _ => mem.writeLE_of_not_mem w (by omega)

/-! ## Blocks -/

/-- `memset` leaves the other bytes. -/
theorem memset_of_not_mem {dst n x : ℕ} (c : UInt8) (hx : ¬ (dst ≤ x ∧ x < dst + n)) :
    mem.memset dst c n x = mem x := if_neg hx

/-- An integer in a region of null bytes is 0. -/
theorem readLE_memset_zero {dst n a m : ℕ} (ha : dst ≤ a) (ham : a + m ≤ dst + n) :
    (mem.memset dst 0 n).readLE a m = 0 := by
  rw [readLE_digits (w := 0) fun j hj => ?_, Nat.zero_mod]
  rw [memset, if_pos (by omega), Nat.zero_div]
  rfl

/-- `memset` leaves the integers elsewhere. -/
theorem readLE_memset_of_disjoint {dst n a m : ℕ} (c : UInt8) (h : dst + n ≤ a ∨ a + m ≤ dst) :
    (mem.memset dst c n).readLE a m = mem.readLE a m :=
  readLE_congr fun _ _ _ => mem.memset_of_not_mem c (by omega)

/-- The bytes that `memcpy` has copied. -/
theorem memcpy_apply {dst src n : ℕ} {off : ℕ} (h : off < n) :
    mem.memcpy dst src n (dst + off) = mem (src + off) := by
  rw [memcpy, if_pos (by omega), Nat.add_sub_cancel_left]

/-- `memcpy` leaves the other bytes. -/
theorem memcpy_of_not_mem {dst n x : ℕ} (src : ℕ) (hx : ¬ (dst ≤ x ∧ x < dst + n)) :
    mem.memcpy dst src n x = mem x := if_neg hx

/-- Writing no bytes changes nothing. -/
theorem blit_zero (a : ℕ) (f : ℕ → UInt8) : mem.blit a 0 f = mem := by
  funext x
  exact if_neg (by omega)

/-- The last byte of a blit is written on its own. -/
theorem blit_succ (a n : ℕ) (f : ℕ → UInt8) :
    mem.blit a (n + 1) f = Function.update (mem.blit a n f) (a + n) (f n) := by
  funext x
  by_cases hx : x = a + n
  · subst hx
    rw [Function.update_self, blit, if_pos (by omega), Nat.add_sub_cancel_left]
  · rw [Function.update_of_ne hx, blit, blit]
    exact if_congr (by omega) rfl rfl

/-- Two blits one behind the other. -/
theorem blit_append (a n m : ℕ) (f g : ℕ → UInt8) :
    (mem.blit a n f).blit (a + n) m g
      = mem.blit a (n + m) fun x => if x < n then f x else g (x - n) := by
  funext x
  simp only [blit]
  by_cases hlow : a ≤ x ∧ x < a + n
  · rw [if_neg (by omega), if_pos hlow, if_pos (by omega), if_pos (by omega)]
  · rw [if_neg hlow]
    by_cases hhigh : a + n ≤ x ∧ x < a + n + m
    · rw [if_pos hhigh, if_pos (by omega), if_neg (by omega), Nat.sub_add_eq]
    · rw [if_neg hhigh, if_neg (by omega)]

/-! ## Regions of a memory as memories of their own -/

section region

variable {base a n o : ℕ}

/-- `memset` within a region, seen from its start. -/
theorem memset_region (c : UInt8) :
    mem.memset (base + a) c n (base + o) = memset (fun o => mem (base + o)) a c n o := by
  simp only [memset, Nat.add_le_add_iff_left, Nat.add_assoc, Nat.add_lt_add_iff_left]

/-- Writing bytes within a region, seen from its start. -/
theorem blit_region (bytes : ℕ → UInt8) :
    mem.blit (base + a) n bytes (base + o) = blit (fun o => mem (base + o)) a n bytes o := by
  simp only [blit, Nat.add_le_add_iff_left, Nat.add_assoc, Nat.add_lt_add_iff_left,
    Nat.add_sub_add_left]

/-- Storing an integer within a region, seen from its start. -/
theorem writeLE_region (w : ℕ) :
    mem.writeLE (base + a) n w (base + o) = writeLE (fun o => mem (base + o)) a n w o := by
  simp only [writeLE, Nat.add_le_add_iff_left, Nat.add_assoc, Nat.add_lt_add_iff_left,
    Nat.add_sub_add_left]

end region

/-! ## Loops that copy blocks -/

/-- A loop that copies the block of each index that meets `P`. -/
def copyAll (P : ι → Prop) [DecidablePred P] (dst src : ι → ℕ) (n : ℕ) (l : List ι) : Memory :=
  l.foldl (fun mem i => if P i then mem.memcpy (dst i) (src i) n else mem) mem

variable {P : ι → Prop} [DecidablePred P] {dst src : ι → ℕ} {n : ℕ}

/-- The loop changes nothing outside its destinations. -/
theorem copyAll_of_not_mem {x : ℕ} : ∀ {l : List ι} {mem : Memory},
    (∀ i ∈ l, P i → ¬ (dst i ≤ x ∧ x < dst i + n)) → mem.copyAll P dst src n l x = mem x
  | [], _, _ => rfl
  | i :: l, mem, h => by
    rw [copyAll, List.foldl_cons]
    refine (copyAll_of_not_mem fun j hj => h j (by simp [hj])).trans ?_
    split
    · exact mem.memcpy_of_not_mem _ (h i (by simp) ‹_›)
    · rfl

/-- When destinations are apart from each other and from the sources, the loop copies every
block. -/
theorem copyAll_apply {i : ι} {off : ℕ} (hP : P i) (hoff : off < n)
    (hdst : ∀ j, P j → j ≠ i → dst i + n ≤ dst j ∨ dst j + n ≤ dst i)
    (hsrc : ∀ j, P j → src i + n ≤ dst j ∨ dst j + n ≤ src i) : ∀ {l : List ι} {mem : Memory},
    i ∈ l → mem.copyAll P dst src n l (dst i + off) = mem (src i + off)
  | j :: l, mem, hi => by
    rw [copyAll, List.foldl_cons]
    by_cases hil : i ∈ l
    · refine (copyAll_apply hP hoff hdst hsrc hil).trans ?_
      split
      · exact mem.memcpy_of_not_mem _ (by have := hsrc j ‹_›; omega)
      · rfl
    · obtain rfl : i = j := (List.mem_cons.1 hi).resolve_right hil
      rw [if_pos hP]
      refine (copyAll_of_not_mem fun k hk hPk => ?_).trans (mem.memcpy_apply hoff)
      have := hdst k hPk fun he => hil (he ▸ hk)
      omega

end Memory

end Egos
