import Egos.File.FreeList

/-!
# The on-disk layout of a treedisk

`Layout` says what the blocks of a treedisk are for. It is a flat description: `N p` is the block at
position `p` of the forest (an inode, a level, an index at that level) or `0` for a hole, `heads`
are the free-list blocks in list order, and `limbo` are the blocks that are neither, such as a block
that has been taken off the free list and is not linked yet. Every condition is about one block and
its parent, so an update of one block is checked against the conditions that name it, and no
recursion over the tree is needed.
-/

namespace Egos.File

/-- The root recorded in inode `ino`. -/
def rootOf (D : Disk) (ino : ℕ) : ℕ := (D (1 + ino / 64)).inodeRoot (ino % 64)

/-- The size recorded in inode `ino`. -/
def nblocksOf (D : Disk) (ino : ℕ) : ℕ := (D (1 + ino / 64)).inodeNblocks (ino % 64)

theorem rootOf_lt (D : Disk) (ino : ℕ) : rootOf D ino < 2 ^ 32 := Block.word_lt _ _

theorem nblocksOf_lt (D : Disk) (ino : ℕ) : nblocksOf D ino < 2 ^ 32 := Block.word_lt _ _

/-- A position in the forest of trees: level 0 are the data blocks, and the children of index `k`
are the indices `128 * k + i` one level below. -/
structure Pos where
  ino : ℕ
  level : ℕ
  index : ℕ
deriving DecidableEq

/-- The trees of the inodes: `lv ino` is the number of levels of the tree of `ino`. -/
structure Forest (nIb : ℕ) (D : Disk) (lv : ℕ → ℕ) (N : Pos → ℕ) : Prop where
  root : ∀ ino, ino < 64 * nIb → N ⟨ino, lv ino, 0⟩ = rootOf D ino
  child : ∀ ino ℓ k i, ℓ < lv ino → i < 128 → N ⟨ino, ℓ + 1, k⟩ ≠ 0 →
    N ⟨ino, ℓ, 128 * k + i⟩ = (D (N ⟨ino, ℓ + 1, k⟩)).word i
  hole : ∀ ino ℓ k, ℓ < lv ino → N ⟨ino, ℓ + 1, k / 128⟩ = 0 → N ⟨ino, ℓ, k⟩ = 0
  inside : ∀ p, N p ≠ 0 →
    p.ino < 64 * nIb ∧ (p.level < lv p.ino ∨ (p.level = lv p.ino ∧ p.index = 0))
  inj : ∀ p q, N p ≠ 0 → N p = N q → p = q

/-- What each block of a treedisk with `nIb` inode blocks and `nblocks` blocks in all is for. -/
structure Layout (nIb nblocks : ℕ) (D : Disk) (lv : ℕ → ℕ) (N : Pos → ℕ) (heads : List ℕ)
    (limbo : ℕ → Prop) : Prop where
  super : (D 0).nInodeblocks = nIb
  forest : Forest nIb D lv N
  free : FreeListOk D heads
  node_range : ∀ p, N p ≠ 0 → nIb < N p ∧ N p < nblocks
  free_range : ∀ b, OnFreeList D heads b → nIb < b ∧ b < nblocks
  limbo_range : ∀ b, limbo b → nIb < b ∧ b < nblocks
  free_not_node : ∀ b, OnFreeList D heads b → ∀ p, N p ≠ b
  limbo_not_node : ∀ b, limbo b → ∀ p, N p ≠ b
  limbo_not_free : ∀ b, limbo b → ¬ OnFreeList D heads b
  cover : ∀ b, nIb < b → b < nblocks → OnFreeList D heads b ∨ (∃ p, N p = b) ∨ limbo b

variable {nIb nblocks : ℕ} {D : Disk} {lv : ℕ → ℕ} {N : Pos → ℕ} {heads : List ℕ} {limbo : ℕ → Prop}

/-- An inode block is not past the inode blocks. -/
theorem inodeblock_le {ino : ℕ} (h : ino < 64 * nIb) : 1 + ino / 64 ≤ nIb := by omega

/-- The forest only depends on the inode blocks' roots and on the indirect blocks. -/
theorem Forest.congr {D' : Disk} (h : Forest nIb D lv N)
    (hroot : ∀ ino, ino < 64 * nIb → rootOf D' ino = rootOf D ino)
    (heq : ∀ p, N p ≠ 0 → 1 ≤ p.level → D' (N p) = D (N p)) : Forest nIb D' lv N := by
  refine ⟨?_, ?_, h.hole, h.inside, h.inj⟩
  · intro ino hi
    rw [hroot ino hi]
    exact h.root ino hi
  · intro ino ℓ k i hℓ hi hne
    rw [heq _ hne (by simp)]
    exact h.child ino ℓ k i hℓ hi hne

/-- Updating a block past the inode blocks does not change the inodes. -/
theorem rootOf_update {b ino : ℕ} (x : Block) (hb : nIb < b) (hi : ino < 64 * nIb) :
    rootOf (Function.update D b x) ino = rootOf D ino := by
  have := inodeblock_le hi
  rw [rootOf, rootOf, Function.update_of_ne (by omega)]

/-- Data and indirect blocks do not hold sizes. -/
theorem nblocksOf_update {b ino : ℕ} (x : Block) (hb : nIb < b) (hi : ino < 64 * nIb) :
    nblocksOf (Function.update D b x) ino = nblocksOf D ino := by
  have := inodeblock_le hi
  rw [nblocksOf, nblocksOf, Function.update_of_ne (by omega)]

/-- A layout survives any change that keeps the superblock, the roots, the free-list blocks and the
indirect blocks. -/
theorem Layout.congr {D' : Disk} (h : Layout nIb nblocks D lv N heads limbo)
    (h0 : D' 0 = D 0) (hroot : ∀ ino, ino < 64 * nIb → rootOf D' ino = rootOf D ino)
    (hheads : ∀ x ∈ heads, D' x = D x)
    (hnodes : ∀ p, N p ≠ 0 → 1 ≤ p.level → D' (N p) = D (N p)) :
    Layout nIb nblocks D' lv N heads limbo where
  super := by rw [h0]; exact h.super
  forest := h.forest.congr hroot hnodes
  free := h.free.congr (by rw [h0]) hheads
  node_range := h.node_range
  free_range b hb := h.free_range b ((onFreeList_congr hheads b).mp hb)
  limbo_range := h.limbo_range
  free_not_node b hb := h.free_not_node b ((onFreeList_congr hheads b).mp hb)
  limbo_not_node := h.limbo_not_node
  limbo_not_free b hb hf := h.limbo_not_free b hb ((onFreeList_congr hheads b).mp hf)
  cover b h1 h2 := by
    rw [onFreeList_congr hheads]
    exact h.cover b h1 h2

/-- The free-list blocks lie past the inode blocks. -/
theorem Layout.head_gt (h : Layout nIb nblocks D lv N heads limbo) {x : ℕ} (hx : x ∈ heads) :
    nIb < x :=
  (h.free_range x (Or.inl hx)).1

/-- The contents of a data block or of a block in limbo do not matter to the layout. -/
theorem Layout.update_inert (h : Layout nIb nblocks D lv N heads limbo) {b : ℕ} (x : Block)
    (hb : nIb < b) (hheads : b ∉ heads) (hnodes : ∀ p, 1 ≤ p.level → N p ≠ b) :
    Layout nIb nblocks (Function.update D b x) lv N heads limbo := by
  refine h.congr ?_ ?_ ?_ ?_
  · exact Function.update_of_ne (by omega) _ _
  · exact fun ino hi => rootOf_update x hb hi
  · exact fun y hy => Function.update_of_ne (fun he : y = b => hheads (he ▸ hy)) _ _
  · exact fun p _ hp => Function.update_of_ne (hnodes p hp) _ _

/-- A data block is inert. -/
theorem Layout.update_data (h : Layout nIb nblocks D lv N heads limbo) {ino off : ℕ} (x : Block)
    (hne : N ⟨ino, 0, off⟩ ≠ 0) :
    Layout nIb nblocks (Function.update D (N ⟨ino, 0, off⟩) x) lv N heads limbo := by
  refine h.update_inert x (h.node_range _ hne).1 ?_ ?_
  · exact fun hmem => h.free_not_node _ (Or.inl hmem) _ rfl
  · intro p hp heq
    have := h.forest.inj _ _ hne heq.symm
    rw [← this] at hp
    simp at hp

/-- A block in limbo is inert. -/
theorem Layout.update_limbo (h : Layout nIb nblocks D lv N heads limbo) {b : ℕ} (x : Block)
    (hb : limbo b) : Layout nIb nblocks (Function.update D b x) lv N heads limbo :=
  h.update_inert x (h.limbo_range b hb).1 (fun hmem => h.limbo_not_free b hb (Or.inl hmem))
    fun p _ => h.limbo_not_node b hb p

/-! ## Allocation -/

/-- A popped block goes into limbo. -/
theorem Layout.pop (h : Layout nIb nblocks D lv N heads limbo) (hne : (D 0).freeList ≠ 0) :
    ∃ heads', PopSpec D (popFree D).2 heads heads' (popFree D).1 ∧
      OnFreeList D heads (popFree D).1 ∧
      Layout nIb nblocks (popFree D).2 lv N heads' (fun x => limbo x ∨ x = (popFree D).1) := by
  obtain ⟨heads', hp, hmem⟩ := popFree_spec h.free hne
  set b := (popFree D).1
  set D' := (popFree D).2
  have hroot : ∀ ino, ino < 64 * nIb → rootOf D' ino = rootOf D ino := by
    intro ino hi
    have hle := inodeblock_le hi
    have hnot : 1 + ino / 64 ∉ heads := fun hx => by
      have := h.head_gt hx
      omega
    rw [rootOf, rootOf, hp.off _ (by omega) hnot]
  have hnodes : ∀ p, N p ≠ 0 → 1 ≤ p.level → D' (N p) = D (N p) := fun p hpn _ =>
    hp.off _ hpn fun hx => h.free_not_node _ (Or.inl hx) p rfl
  refine ⟨heads', hp, hmem, ?_⟩
  constructor
  case super => rw [hp.off_inodeblocks]; exact h.super
  case forest => exact h.forest.congr hroot hnodes
  case free => exact hp.ok
  case node_range => exact h.node_range
  case free_range => exact fun x hx => h.free_range x ((hp.mem x).mpr (Or.inl hx))
  case limbo_range =>
    rintro x (hx | rfl)
    · exact h.limbo_range x hx
    · exact h.free_range _ hmem
  case free_not_node => exact fun x hx => h.free_not_node x ((hp.mem x).mpr (Or.inl hx))
  case limbo_not_node =>
    rintro x (hx | rfl)
    · exact h.limbo_not_node x hx
    · exact h.free_not_node _ hmem
  case limbo_not_free =>
    rintro x (hx | rfl) hf
    · exact h.limbo_not_free x hx ((hp.mem x).mpr (Or.inl hf))
    · exact hp.not_mem hf
  case cover =>
    intro x h1 h2
    rcases h.cover x h1 h2 with hx | hx | hx
    · rcases (hp.mem x).mp hx with hx | rfl
      · exact Or.inl hx
      · exact Or.inr (Or.inr (Or.inr rfl))
    · exact Or.inr (Or.inl hx)
    · exact Or.inr (Or.inr (Or.inl hx))

/-! ## Updating inodes -/

/-- The disk with the root of inode `ino` replaced. -/
def setRootOf (D : Disk) (ino b : ℕ) : Disk :=
  Function.update D (1 + ino / 64) ((D (1 + ino / 64)).setWord (2 * (ino % 64)) b)

/-- The disk with the size of inode `ino` replaced. -/
def setNblocksOf (D : Disk) (ino n : ℕ) : Disk :=
  Function.update D (1 + ino / 64) ((D (1 + ino / 64)).setWord (2 * (ino % 64) + 1) n)

/-- The roots after one is set. -/
theorem rootOf_setRootOf {ino b : ℕ} (hb : b < 2 ^ 32) (j : ℕ) :
    rootOf (setRootOf D ino b) j = if j = ino then b else rootOf D j := by
  unfold rootOf setRootOf Block.inodeRoot
  by_cases hblk : 1 + j / 64 = 1 + ino / 64
  · rw [hblk, Function.update_self, Block.word_setWord _ (by omega) hb]
    by_cases hj : j = ino
    · rw [if_pos hj, if_pos (by rw [hj])]
    · rw [if_neg hj, if_neg (by omega)]
  · rw [Function.update_of_ne hblk, if_neg (by rintro rfl; exact hblk rfl)]

/-- Setting a size leaves the roots. -/
theorem rootOf_setNblocksOf (ino n j : ℕ) : rootOf (setNblocksOf D ino n) j = rootOf D j := by
  unfold rootOf setNblocksOf Block.inodeRoot
  by_cases hblk : 1 + j / 64 = 1 + ino / 64
  · rw [hblk, Function.update_self, Block.word_setWord_ne _ _ (by omega)]
  · rw [Function.update_of_ne hblk]

/-- The sizes after one is set. -/
theorem nblocksOf_setNblocksOf {ino n : ℕ} (hn : n < 2 ^ 32) (j : ℕ) :
    nblocksOf (setNblocksOf D ino n) j = if j = ino then n else nblocksOf D j := by
  unfold nblocksOf setNblocksOf Block.inodeNblocks
  by_cases hblk : 1 + j / 64 = 1 + ino / 64
  · rw [hblk, Function.update_self, Block.word_setWord _ (by omega) hn]
    by_cases hj : j = ino
    · rw [if_pos hj, if_pos (by rw [hj])]
    · rw [if_neg hj, if_neg (by omega)]
  · rw [Function.update_of_ne hblk, if_neg (by rintro rfl; exact hblk rfl)]

/-- The sizes in the inodes do not matter to the layout. -/
theorem Layout.setNblocksOf (h : Layout nIb nblocks D lv N heads limbo) {ino : ℕ} (n : ℕ)
    (hi : ino < 64 * nIb) :
    Layout nIb nblocks (Egos.File.setNblocksOf D ino n) lv N heads limbo := by
  have hle := inodeblock_le hi
  have hoff : ∀ x, nIb < x → Egos.File.setNblocksOf D ino n x = D x := fun x hx =>
    Function.update_of_ne (by omega) _ _
  refine h.congr ?_ ?_ ?_ ?_
  · exact Function.update_of_ne (by omega) _ _
  · exact fun j _ => rootOf_setNblocksOf ino n j
  · exact fun x hx => hoff x (h.head_gt hx)
  · exact fun p hp _ => hoff _ (h.node_range p hp).1

/-! ## Linking a block into a tree -/

/-- A block in limbo may take a hole's place once the forest with it is in order. -/
theorem Layout.relink {D' : Disk} {lv' : ℕ → ℕ} {b : ℕ} {p : Pos}
    (h : Layout nIb nblocks D lv N heads limbo) (hb : limbo b) (hp : N p = 0)
    (hF : Forest nIb D' lv' (Function.update N p b)) (h0 : D' 0 = D 0)
    (hheads : ∀ x ∈ heads, D' x = D x) :
    Layout nIb nblocks D' lv' (Function.update N p b) heads (fun x => limbo x ∧ x ≠ b) := by
  have hfree := onFreeList_congr hheads
  have hnode : ∀ x, x ≠ b → (∀ q, N q ≠ x) → ∀ q, Function.update N p b q ≠ x := by
    intro x hxb hx q
    by_cases hq : q = p
    · subst hq
      rw [Function.update_self]
      exact fun he => hxb he.symm
    · rw [Function.update_of_ne hq]
      exact hx q
  constructor
  case super => rw [h0]; exact h.super
  case forest => exact hF
  case free => exact h.free.congr (by rw [h0]) hheads
  case node_range =>
    intro q hq
    by_cases hqp : q = p
    · subst hqp
      rw [Function.update_self]
      exact h.limbo_range b hb
    · rw [Function.update_of_ne hqp] at hq ⊢
      exact h.node_range q hq
  case free_range => exact fun x hx => h.free_range x ((hfree x).mp hx)
  case limbo_range => exact fun x hx => h.limbo_range x hx.1
  case free_not_node =>
    intro x hx
    rw [hfree] at hx
    exact hnode x (fun he => h.limbo_not_free b hb (he ▸ hx)) (h.free_not_node x hx)
  case limbo_not_node => exact fun x hx => hnode x hx.2 (h.limbo_not_node x hx.1)
  case limbo_not_free => exact fun x hx hf => h.limbo_not_free x hx.1 ((hfree x).mp hf)
  case cover =>
    intro x h1 h2
    by_cases hxb : x = b
    · exact Or.inr (Or.inl ⟨p, by rw [Function.update_self, hxb]⟩)
    · rcases h.cover x h1 h2 with hx | ⟨q, hq⟩ | hx
      · exact Or.inl ((hfree x).mpr hx)
      · refine Or.inr (Or.inl ⟨q, ?_⟩)
        rw [Function.update_of_ne fun he : q = p => by rw [he, hp] at hq; omega, hq]
      · exact Or.inr (Or.inr ⟨hx, hxb⟩)

/-- Positions stay injective when a new block takes a hole's place. -/
theorem Forest.inj_update (h : Forest nIb D lv N) {b : ℕ} {p : Pos} (hnew : ∀ q, N q ≠ b)
    (q r : Pos) (hq : Function.update N p b q ≠ 0)
    (heq : Function.update N p b q = Function.update N p b r) : q = r := by
  by_cases hqp : q = p
  · by_cases hrp : r = p
    · rw [hqp, hrp]
    · rw [hqp, Function.update_self, Function.update_of_ne hrp] at heq
      exact absurd heq.symm (hnew r)
  · rw [Function.update_of_ne hqp] at hq heq
    by_cases hrp : r = p
    · rw [hrp, Function.update_self] at heq
      exact absurd heq (hnew q)
    · rw [Function.update_of_ne hrp] at heq
      exact h.inj q r hq heq

/-- Linking a block `b` below an indirect block. -/
theorem Forest.link_node {b ino ℓ k : ℕ} (h : Forest nIb D lv N) (hnew : ∀ q, N q ≠ b)
    (hb0 : b ≠ 0) (hbw : b < 2 ^ 32) (hℓ : ℓ < lv ino) (hpar : N ⟨ino, ℓ + 1, k / 128⟩ ≠ 0)
    (hhole : N ⟨ino, ℓ, k⟩ = 0) (hzero : 1 ≤ ℓ → ∀ i, i < 128 → (D b).word i = 0)
    (hgt : ∀ q, N q ≠ 0 → nIb < N q) :
    Forest nIb
      (Function.update D (N ⟨ino, ℓ + 1, k / 128⟩)
        ((D (N ⟨ino, ℓ + 1, k / 128⟩)).setWord (k % 128) b))
      lv (Function.update N ⟨ino, ℓ, k⟩ b) := by
  set P := N ⟨ino, ℓ + 1, k / 128⟩ with hP
  set D' := Function.update D P ((D P).setWord (k % 128) b) with hD'
  have hbP : b ≠ P := fun he => hnew _ he.symm
  constructor
  case root =>
    intro j hj
    rw [hD', rootOf_update _ (hgt _ hpar) hj, Function.update_of_ne]
    · exact h.root j hj
    · rintro he
      injection he with h1 h2 h3
      subst h1
      omega
  case child =>
    intro j m kk i hm hi hne
    by_cases hself : (⟨j, m + 1, kk⟩ : Pos) = ⟨ino, ℓ, k⟩
    · -- the parent is the new block: its children are holes and its words are null
      injection hself with h1 h2 h3
      subst h1 h3
      rw [← h2, Function.update_self, Function.update_of_ne (by simp), hD',
        Function.update_of_ne hbP, hzero (by omega) i hi]
      refine h.hole j m _ hm ?_
      rw [show (128 * kk + i) / 128 = kk by omega, h2]
      exact hhole
    · rw [Function.update_of_ne hself] at hne ⊢
      by_cases hpp : (⟨j, m + 1, kk⟩ : Pos) = ⟨ino, ℓ + 1, k / 128⟩
      · -- the parent is the block written: one of its words changed
        injection hpp with h1 h2 h3
        obtain rfl : m = ℓ := by omega
        subst h1 h3
        rw [← hP, hD', Function.update_self, Block.word_setWord _ hi hbw]
        by_cases hik : i = k % 128
        · rw [if_pos hik, show 128 * (k / 128) + i = k by omega, Function.update_self]
        · rw [if_neg hik, Function.update_of_ne, hP]
          · exact h.child j m _ i hm hi hpar
          · intro he
            injection he with _ _ h3
            omega
      · have hneP : N ⟨j, m + 1, kk⟩ ≠ P := fun he => hpp (h.inj _ _ hne he)
        rw [hD', Function.update_of_ne hneP, Function.update_of_ne]
        · exact h.child j m kk i hm hi hne
        · intro he
          injection he with h1 h2 h3
          exact hpp (by rw [h1, h2, ← h3, show (128 * kk + i) / 128 = kk by omega])
  case hole =>
    intro j m kk hm hz
    by_cases hself : (⟨j, m + 1, kk / 128⟩ : Pos) = ⟨ino, ℓ, k⟩
    · rw [hself, Function.update_self] at hz
      exact absurd hz hb0
    · rw [Function.update_of_ne hself] at hz
      rw [Function.update_of_ne]
      · exact h.hole j m kk hm hz
      · intro he
        injection he with h1 h2 h3
        subst h1 h2 h3
        exact hpar hz
  case inside =>
    intro q hq
    by_cases hqp : q = ⟨ino, ℓ, k⟩
    · subst hqp
      exact ⟨(h.inside _ hpar).1, Or.inl hℓ⟩
    · rw [Function.update_of_ne hqp] at hq
      exact h.inside q hq
  case inj => exact h.inj_update hnew

/-- Linking a block `b` as the root of an empty tree. -/
theorem Forest.link_root {b ino : ℕ} (h : Forest nIb D lv N) (hnew : ∀ q, N q ≠ b)
    (hb0 : b ≠ 0) (hbw : b < 2 ^ 32) (hbn : nIb < b) (hi : ino < 64 * nIb)
    (hhole : N ⟨ino, lv ino, 0⟩ = 0) (hzero : 1 ≤ lv ino → ∀ i, i < 128 → (D b).word i = 0)
    (hgt : ∀ q, N q ≠ 0 → nIb < N q) :
    Forest nIb (setRootOf D ino b) lv (Function.update N ⟨ino, lv ino, 0⟩ b) := by
  have hle := inodeblock_le hi
  have hoff : ∀ x, nIb < x → setRootOf D ino b x = D x := fun x hx =>
    Function.update_of_ne (by omega) _ _
  constructor
  case root =>
    intro j hj
    rw [rootOf_setRootOf hbw]
    by_cases hji : j = ino
    · subst hji
      rw [if_pos rfl, Function.update_self]
    · rw [if_neg hji, Function.update_of_ne]
      · exact h.root j hj
      · intro he
        injection he with h1 _ _
        exact hji h1
  case child =>
    intro j m kk i hm hi' hne
    rw [Function.update_of_ne (a := (⟨j, m, 128 * kk + i⟩ : Pos))
      (by intro he; injection he with h1 h2 _; subst h1; omega)]
    by_cases hself : (⟨j, m + 1, kk⟩ : Pos) = ⟨ino, lv ino, 0⟩
    · rw [hself, Function.update_self, hoff b hbn]
      injection hself with h1 h2 h3
      subst h1 h3
      rw [hzero (by omega) i hi']
      refine h.hole j m _ hm ?_
      rw [show (128 * 0 + i) / 128 = 0 by omega, h2]
      exact hhole
    · rw [Function.update_of_ne hself] at hne ⊢
      rw [hoff _ (hgt _ hne)]
      exact h.child j m kk i hm hi' hne
  case hole =>
    intro j m kk hm hz
    rw [Function.update_of_ne (by intro he; injection he with h1 h2 _; subst h1; omega)]
    by_cases hself : (⟨j, m + 1, kk / 128⟩ : Pos) = ⟨ino, lv ino, 0⟩
    · rw [hself, Function.update_self] at hz
      exact absurd hz hb0
    · rw [Function.update_of_ne hself] at hz
      exact h.hole j m kk hm hz
  case inside =>
    intro q hq
    by_cases hqp : q = ⟨ino, lv ino, 0⟩
    · subst hqp
      exact ⟨hi, Or.inr ⟨rfl, rfl⟩⟩
    · rw [Function.update_of_ne hqp] at hq
      exact h.inside q hq
  case inj => exact h.inj_update hnew

/-- Inserting an indirect block `b` above the root: the old root becomes its first child. -/
theorem Forest.grow {b ino : ℕ} (h : Forest nIb D lv N) (hnew : ∀ q, N q ≠ b)
    (hb0 : b ≠ 0) (hbw : b < 2 ^ 32) (hbn : nIb < b) (hi : ino < 64 * nIb)
    (hword : ∀ i, i < 128 → (D b).word i = if i = 0 then rootOf D ino else 0)
    (hgt : ∀ q, N q ≠ 0 → nIb < N q) :
    Forest nIb (setRootOf D ino b) (Function.update lv ino (lv ino + 1))
      (Function.update N ⟨ino, lv ino + 1, 0⟩ b) := by
  have hle := inodeblock_le hi
  have hoff : ∀ x, nIb < x → setRootOf D ino b x = D x := fun x hx =>
    Function.update_of_ne (by omega) _ _
  have hlv : ∀ j, Function.update lv ino (lv ino + 1) j = if j = ino then lv ino + 1 else lv j := by
    intro j
    by_cases hj : j = ino
    · rw [hj, Function.update_self, if_pos rfl]
    · rw [Function.update_of_ne hj, if_neg hj]
  -- positions at or above the old root level that are not the old root are holes
  have htop : ∀ m kk, lv ino ≤ m → ¬ (m = lv ino ∧ kk = 0) → N ⟨ino, m, kk⟩ = 0 := by
    intro m kk hm hc
    by_contra hne
    rcases (h.inside _ hne).2 with hlt | heq
    · exact absurd hlt (by simpa using hm)
    · exact hc heq
  constructor
  case root =>
    intro j hj
    rw [rootOf_setRootOf hbw, hlv]
    by_cases hji : j = ino
    · subst hji
      rw [if_pos rfl, if_pos rfl, Function.update_self]
    · rw [if_neg hji, if_neg hji, Function.update_of_ne]
      · exact h.root j hj
      · intro he
        injection he with h1 _ _
        exact hji h1
  case child =>
    intro j m kk i hm hi' hne
    rw [hlv] at hm
    rw [Function.update_of_ne (a := (⟨j, m, 128 * kk + i⟩ : Pos))
      (by intro he; injection he with h1 h2 _; rw [if_pos h1] at hm; omega)]
    by_cases hself : (⟨j, m + 1, kk⟩ : Pos) = ⟨ino, lv ino + 1, 0⟩
    · rw [hself, Function.update_self, hoff b hbn, hword i hi']
      injection hself with h1 h2 h3
      obtain rfl : m = lv ino := by omega
      subst h1 h3
      by_cases hi0 : i = 0
      · rw [if_pos hi0, hi0]
        exact h.root j hi
      · rw [if_neg hi0]
        exact htop _ _ (le_refl _) (by omega)
    · rw [Function.update_of_ne hself] at hne ⊢
      rw [hoff _ (hgt _ hne)]
      refine h.child j m kk i ?_ hi' hne
      rcases (h.inside _ hne).2 with hlt | ⟨heq, -⟩
      · exact Nat.lt_of_succ_lt hlt
      · simp only at heq
        omega
  case hole =>
    intro j m kk hm hz
    rw [hlv] at hm
    rw [Function.update_of_ne
      (by intro he; injection he with h1 h2 _; rw [if_pos h1] at hm; omega)]
    by_cases hself : (⟨j, m + 1, kk / 128⟩ : Pos) = ⟨ino, lv ino + 1, 0⟩
    · rw [hself, Function.update_self] at hz
      exact absurd hz hb0
    · rw [Function.update_of_ne hself] at hz
      by_cases hji : j = ino
      · subst hji
        rw [if_pos rfl] at hm
        by_cases hml : m = lv j
        · subst hml
          exact htop _ _ (le_refl _) fun hc => hself (by rw [hc.2])
        · exact h.hole j m kk (by omega) hz
      · rw [if_neg hji] at hm
        exact h.hole j m kk hm hz
  case inside =>
    intro q hq
    rw [hlv]
    by_cases hqp : q = ⟨ino, lv ino + 1, 0⟩
    · subst hqp
      exact ⟨hi, Or.inr ⟨by rw [if_pos rfl], rfl⟩⟩
    · rw [Function.update_of_ne hqp] at hq
      obtain ⟨h1, h2⟩ := h.inside q hq
      refine ⟨h1, ?_⟩
      split
      · rename_i hqi
        rw [hqi] at h2
        omega
      · exact h2
  case inj => exact h.inj_update hnew

end Egos.File
