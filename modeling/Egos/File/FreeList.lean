import Egos.File.Treedisk
import Mathlib.Data.Set.Card
import Mathlib.Logic.Function.Basic

/-!
# The free list of a treedisk

The free list is stored in the blocks it hands out: each free-list block links to the next one by
its word 0 and refers to free blocks by its other words. `FreeListOk` describes it by the list
`heads` of its free-list blocks and by conditions on single words, and `popFree_spec` says what
taking a block off the list does to that description.
-/

namespace Egos.File

/-- A disk, block by block. -/
abbrev Disk : Type := ℕ → Block

/-! ## The list and its blocks -/

/-- The free-list blocks from `b` on, in the order of their links. -/
inductive FreeChain (D : Disk) : ℕ → List ℕ → Prop
  | nil : FreeChain D 0 []
  | cons {b : ℕ} {hs : List ℕ} : b ≠ 0 → FreeChain D ((D b).word 0) hs → FreeChain D b (b :: hs)

/-- Block `b` is on the free list: as a free-list block, or as a nonzero reference of one. -/
def OnFreeList (D : Disk) (heads : List ℕ) (b : ℕ) : Prop :=
  b ∈ heads ∨ ∃ h ∈ heads, ∃ i, 1 ≤ i ∧ i < 128 ∧ (D h).word i = b ∧ b ≠ 0

/-- The free list that starts at block `f`, with no block on it twice. -/
structure FreeListFrom (D : Disk) (f : ℕ) (heads : List ℕ) : Prop where
  chain : FreeChain D f heads
  nodup : heads.Nodup
  ref_inj : ∀ h ∈ heads, ∀ h' ∈ heads, ∀ i j, 1 ≤ i → i < 128 → 1 ≤ j → j < 128 →
    (D h).word i ≠ 0 → (D h).word i = (D h').word j → h = h' ∧ i = j
  ref_not_head : ∀ h ∈ heads, ∀ i, 1 ≤ i → i < 128 → (D h).word i ∉ heads

/-- The free list of the superblock. -/
abbrev FreeListOk (D : Disk) (heads : List ℕ) : Prop := FreeListFrom D (D 0).freeList heads

/-- The superblock is not in the chain. -/
theorem FreeChain.ne_zero {D : Disk} {b : ℕ} {hs : List ℕ} (h : FreeChain D b hs) :
    ∀ x ∈ hs, x ≠ 0 := by
  induction h with
  | nil => simp
  | cons hb _ ih => simpa using ⟨hb, ih⟩

/-- The chain only depends on the blocks in it. -/
theorem FreeChain.congr {D D' : Disk} {b : ℕ} {hs : List ℕ} (h : FreeChain D b hs)
    (heq : ∀ x ∈ hs, D' x = D x) : FreeChain D' b hs := by
  induction h with
  | nil => exact .nil
  | cons hb _ ih =>
    refine .cons hb ?_
    rw [heq _ (by simp)]
    exact ih fun x hx => heq x (by simp [hx])

/-- Nor is it on the free list. -/
theorem OnFreeList.ne_zero {D : Disk} {f : ℕ} {heads : List ℕ} (h : FreeListFrom D f heads) {b : ℕ}
    (hb : OnFreeList D heads b) : b ≠ 0 := by
  rcases hb with hb | ⟨_, _, _, _, _, _, hb⟩
  · exact h.chain.ne_zero b hb
  · exact hb

/-- The free list only depends on its own blocks. -/
theorem FreeListFrom.congr {D D' : Disk} {f : ℕ} {heads : List ℕ} (h : FreeListFrom D f heads)
    (heq : ∀ x ∈ heads, D' x = D x) : FreeListFrom D' f heads := by
  refine ⟨h.chain.congr heq, h.nodup, ?_, ?_⟩
  · intro x hx y hy
    rw [heq x hx, heq y hy]
    exact h.ref_inj x hx y hy
  · intro x hx
    rw [heq x hx]
    exact h.ref_not_head x hx

/-- The free list is in its heads and in the superblock. -/
theorem FreeListOk.congr {D D' : Disk} {heads : List ℕ} (h : FreeListOk D heads)
    (h0 : (D' 0).freeList = (D 0).freeList) (heq : ∀ x ∈ heads, D' x = D x) :
    FreeListOk D' heads := by
  rw [FreeListOk, h0]
  exact FreeListFrom.congr h heq

/-- The blocks on the free list are in its heads. -/
theorem onFreeList_congr {D D' : Disk} {heads : List ℕ} (heq : ∀ x ∈ heads, D' x = D x) (b : ℕ) :
    OnFreeList D' heads b ↔ OnFreeList D heads b := by
  have hiff : ∀ h ∈ heads, ((∃ i, 1 ≤ i ∧ i < 128 ∧ (D' h).word i = b ∧ b ≠ 0) ↔
      ∃ i, 1 ≤ i ∧ i < 128 ∧ (D h).word i = b ∧ b ≠ 0) := by
    intro h hh
    rw [heq h hh]
  unfold OnFreeList
  constructor
  · rintro (hb | ⟨h, hh, hb⟩)
    · exact Or.inl hb
    · exact Or.inr ⟨h, hh, (hiff h hh).mp hb⟩
  · rintro (hb | ⟨h, hh, hb⟩)
    · exact Or.inl hb
    · exact Or.inr ⟨h, hh, (hiff h hh).mpr hb⟩

/-! ## Taking a block off the free list -/

/-- What `treedisk_alloc_block` does to a disk whose free list is not empty: the block it returns,
and the disk it leaves. -/
def popFree (D : Disk) : ℕ × Disk :=
  let b := (D 0).freeList
  let i := scanRefs (D b) 127
  if i = 0 then (b, Function.update D 0 ((D 0).setWord 1 ((D b).word 0)))
  else ((D b).word i, Function.update D b ((D b).setWord i 0))

/-- The scan stops at the last nonzero reference, or at 0 when there is none. -/
theorem scanRefs_spec (b : Block) (n : ℕ) :
    (scanRefs b n = 0 ∧ ∀ i, 1 ≤ i → i ≤ n → b.word i = 0) ∨
      (1 ≤ scanRefs b n ∧ scanRefs b n ≤ n ∧ b.word (scanRefs b n) ≠ 0) := by
  induction n with
  | zero => exact Or.inl ⟨rfl, fun i h1 h2 => by omega⟩
  | succ n ih =>
    rw [scanRefs]
    split
    · rename_i hne
      exact Or.inr ⟨by omega, le_refl _, hne⟩
    · rename_i hz
      have hz : b.word (n + 1) = 0 := not_not.mp hz
      rcases ih with ⟨h0, hall⟩ | ⟨h1, h2, h3⟩
      · refine Or.inl ⟨h0, fun i hi1 hi2 => ?_⟩
        rcases Nat.lt_or_ge n i with hlt | hge
        · rw [show i = n + 1 by omega]
          exact hz
        · exact hall i hi1 hge
      · exact Or.inr ⟨h1, by omega, h3⟩

/-- What a pop does to the free list: it stays well formed, and it loses exactly the block
returned. -/
structure PopSpec (D D' : Disk) (heads heads' : List ℕ) (b : ℕ) : Prop where
  ok : FreeListOk D' heads'
  mem : ∀ x, OnFreeList D heads x ↔ OnFreeList D' heads' x ∨ x = b
  not_mem : ¬ OnFreeList D' heads' b
  sub : ∀ x ∈ heads', x ∈ heads
  off : ∀ x, x ≠ 0 → x ∉ heads → D' x = D x
  off_inodeblocks : (D' 0).nInodeblocks = (D 0).nInodeblocks

/-- A free-list block without references is handed out itself. -/
theorem popFree_head {D : Disk} {b : ℕ} {hs : List ℕ} (h : FreeListOk D (b :: hs))
    (hfl : (D 0).freeList = b) (hz : ∀ i, 1 ≤ i → i ≤ 127 → (D b).word i = 0) :
    PopSpec D (Function.update D 0 ((D 0).setWord 1 ((D b).word 0))) (b :: hs) hs b := by
  have hb0 : b ≠ 0 := h.chain.ne_zero b (by simp)
  have hnd : b ∉ hs := (List.nodup_cons.mp h.nodup).1
  have htail : FreeChain D ((D b).word 0) hs := by
    have hc := h.chain
    rw [hfl] at hc
    cases hc with
    | cons _ hc => exact hc
  have hD : ∀ x ∈ hs, Function.update D 0 ((D 0).setWord 1 ((D b).word 0)) x = D x := by
    intro x hx
    exact Function.update_of_ne (htail.ne_zero x hx) _ _
  refine ⟨⟨?_, (List.nodup_cons.mp h.nodup).2, ?_, ?_⟩, ?_, ?_, ?_, ?_, ?_⟩
  · rw [Function.update_self, Block.freeList,
      Block.word_setWord_self _ (by omega) (Block.word_lt _ _)]
    exact htail.congr hD
  · intro x hx y hy
    rw [hD x hx, hD y hy]
    exact h.ref_inj x (by simp [hx]) y (by simp [hy])
  · intro x hx i h1 h2 hmem
    rw [hD x hx] at hmem
    exact h.ref_not_head x (by simp [hx]) i h1 h2 (by simp [hmem])
  · intro x
    rw [onFreeList_congr hD]
    constructor
    · rintro (hx | ⟨y, hy, i, h1, h2, hw, hx⟩)
      · rcases List.mem_cons.mp hx with rfl | hx
        · exact Or.inr rfl
        · exact Or.inl (Or.inl hx)
      · rcases List.mem_cons.mp hy with rfl | hy
        · exact absurd (hw.symm.trans (hz i h1 (by omega))) hx
        · exact Or.inl (Or.inr ⟨y, hy, i, h1, h2, hw, hx⟩)
    · rintro ((hx | ⟨y, hy, i, h1, h2, hw, hx⟩) | rfl)
      · exact Or.inl (by simp [hx])
      · exact Or.inr ⟨y, by simp [hy], i, h1, h2, hw, hx⟩
      · exact Or.inl (by simp)
  · rw [onFreeList_congr hD]
    rintro (hx | ⟨y, hy, i, h1, h2, hw, -⟩)
    · exact hnd hx
    · exact h.ref_not_head y (by simp [hy]) i h1 h2 (by simp [hw])
  · intro x hx
    simp [hx]
  · intro x hx _
    exact Function.update_of_ne hx _ _
  · rw [Function.update_self, Block.nInodeblocks, Block.word_setWord_ne _ _ (by omega)]
    rfl

/-- A reference of a free-list block is handed out and cleared. -/
theorem popFree_ref {D : Disk} {b i : ℕ} {hs : List ℕ} (h : FreeListOk D (b :: hs))
    (hi1 : 1 ≤ i) (hi2 : i ≤ 127) (hw : (D b).word i ≠ 0) :
    PopSpec D (Function.update D b ((D b).setWord i 0)) (b :: hs) (b :: hs) ((D b).word i) := by
  have hb0 : b ≠ 0 := h.chain.ne_zero b (by simp)
  have hnd : b ∉ hs := (List.nodup_cons.mp h.nodup).1
  set D' := Function.update D b ((D b).setWord i 0) with hD'
  have hne : ∀ x, x ≠ b → D' x = D x := fun x hx => Function.update_of_ne hx _ _
  -- a reference that is still there after the pop was there before it, at the same place
  have hword : ∀ x j, 1 ≤ j → j < 128 → (D' x).word j ≠ 0 →
      (D' x).word j = (D x).word j ∧ ¬ (x = b ∧ j = i) := by
    intro x j hj1 hj2 hne0
    by_cases hx : x = b
    · subst hx
      rw [hD', Function.update_self] at hne0 ⊢
      by_cases hji : j = i
      · subst hji
        rw [Block.word_setWord_self _ hj2 (by omega)] at hne0
        exact absurd rfl hne0
      · rw [Block.word_setWord_ne _ _ hji]
        exact ⟨rfl, fun hc => hji hc.2⟩
    · rw [hne x hx]
      exact ⟨rfl, fun hc => hx hc.1⟩
  have hkeep : ∀ x j, ¬ (x = b ∧ j = i) → (D' x).word j = (D x).word j := by
    intro x j hxj
    by_cases hx : x = b
    · subst hx
      rw [hD', Function.update_self, Block.word_setWord_ne _ _ fun hji => hxj ⟨rfl, hji⟩]
    · rw [hne x hx]
  refine ⟨⟨?_, h.nodup, ?_, ?_⟩, ?_, ?_, fun x hx => hx, ?_, ?_⟩
  · have hfl : (D' 0).freeList = (D 0).freeList := by rw [hne 0 (Ne.symm hb0)]
    rw [hfl]
    have hc := h.chain
    generalize (D 0).freeList = f at hc ⊢
    cases hc with
    | cons hb hc =>
      refine .cons hb ?_
      rw [hkeep b 0 fun hc => by omega]
      exact hc.congr fun x hx => hne x (fun he => hnd (he ▸ hx))
  · intro x hx y hy j k hj1 hj2 hk1 hk2 hnz heq
    obtain ⟨hxj, -⟩ := hword x j hj1 hj2 hnz
    obtain ⟨hyk, -⟩ := hword y k hk1 hk2 (heq ▸ hnz)
    exact h.ref_inj x hx y hy j k hj1 hj2 hk1 hk2 (hxj ▸ hnz) (by rw [← hxj, ← hyk, heq])
  · intro x hx j hj1 hj2 hmem
    have hnz : (D' x).word j ≠ 0 := h.chain.ne_zero _ hmem
    rw [(hword x j hj1 hj2 hnz).1] at hmem
    exact h.ref_not_head x hx j hj1 hj2 hmem
  · intro x
    constructor
    · rintro (hx | ⟨y, hy, j, h1, h2, hyj, hx⟩)
      · exact Or.inl (Or.inl hx)
      · by_cases hc : y = b ∧ j = i
        · obtain ⟨rfl, rfl⟩ := hc
          exact Or.inr hyj.symm
        · exact Or.inl (Or.inr ⟨y, hy, j, h1, h2, by rw [hkeep y j hc, hyj], hx⟩)
    · rintro ((hx | ⟨y, hy, j, h1, h2, hyj, hx⟩) | rfl)
      · exact Or.inl hx
      · obtain ⟨he, -⟩ := hword y j h1 h2 (hyj ▸ hx)
        exact Or.inr ⟨y, hy, j, h1, h2, by rw [← he, hyj], hx⟩
      · exact Or.inr ⟨b, by simp, i, hi1, by omega, rfl, hw⟩
  · rintro (hx | ⟨y, hy, j, h1, h2, hyj, hx⟩)
    · exact h.ref_not_head b (by simp) i hi1 (by omega) hx
    · obtain ⟨he, hc⟩ := hword y j h1 h2 (hyj ▸ hx)
      exact hc (h.ref_inj y hy b (by simp) j i h1 h2 hi1 (by omega) (by rw [← he, hyj]; exact hx)
        (by rw [← he, hyj]))
  · intro x _ hx
    exact hne x (fun he => hx (he ▸ List.mem_cons_self))
  · rw [hne 0 (Ne.symm hb0)]

/-- Popping a nonempty free list. -/
theorem popFree_spec {D : Disk} {heads : List ℕ} (h : FreeListOk D heads)
    (hne : (D 0).freeList ≠ 0) :
    ∃ heads', PopSpec D (popFree D).2 heads heads' (popFree D).1 ∧
      OnFreeList D heads (popFree D).1 := by
  obtain ⟨b, hs, rfl, hfl⟩ : ∃ b hs, heads = b :: hs ∧ (D 0).freeList = b := by
    have hc := h.chain
    generalize (D 0).freeList = f at hc hne
    cases hc with
    | nil => exact absurd rfl hne
    | cons hb hc => exact ⟨_, _, rfl, rfl⟩
  have key : ∃ heads', PopSpec D (popFree D).2 (b :: hs) heads' (popFree D).1 := by
    simp only [popFree, hfl]
    rcases scanRefs_spec (D b) 127 with ⟨h0, hz⟩ | ⟨h1, h2, h3⟩
    · rw [if_pos h0]
      exact ⟨hs, popFree_head h hfl hz⟩
    · rw [if_neg (by omega)]
      exact ⟨b :: hs, popFree_ref h h1 h2 h3⟩
  obtain ⟨heads', hp⟩ := key
  exact ⟨heads', hp, (hp.mem _).mpr (Or.inr rfl)⟩

/-! ## The number of free blocks -/

/-- How many blocks are on the free list. -/
noncomputable def freeCount (D : Disk) (heads : List ℕ) : ℕ := {b | OnFreeList D heads b}.ncard

/-- So is their number. -/
theorem freeCount_congr {D D' : Disk} {heads : List ℕ} (heq : ∀ x ∈ heads, D' x = D x) :
    freeCount D' heads = freeCount D heads := by
  simp only [freeCount, onFreeList_congr heq]

/-- There are no blocks on an empty free list. -/
theorem FreeListFrom.freeCount_eq_zero {D : Disk} {heads : List ℕ} (h : FreeListFrom D 0 heads) :
    freeCount D heads = 0 := by
  have hnil : heads = [] := by
    cases h.chain with
    | nil => rfl
    | cons hb _ => exact absurd rfl hb
  subst hnil
  simp [freeCount, OnFreeList]

/-- A pop takes one block. -/
theorem PopSpec.freeCount_eq {D D' : Disk} {heads heads' : List ℕ} {b n : ℕ}
    (hp : PopSpec D D' heads heads' b) (hrange : ∀ x, OnFreeList D heads x → x < n) :
    freeCount D heads = freeCount D' heads' + 1 := by
  have hset : {x | OnFreeList D heads x} = insert b {x | OnFreeList D' heads' x} := by
    ext x
    exact (hp.mem x).trans or_comm
  have hfin : {x | OnFreeList D' heads' x}.Finite :=
    (Set.finite_lt_nat n).subset fun x hx => hrange x ((hp.mem x).2 (.inl hx))
  have hnot : b ∉ {x | OnFreeList D' heads' x} := hp.not_mem
  rw [freeCount, hset, Set.ncard_insert_of_notMem hnot hfin, freeCount]

end Egos.File
