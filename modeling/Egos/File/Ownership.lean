import Egos.File.TreediskRuns
import Mathlib.Data.List.GetD
import Mathlib.Data.Nat.Digits.Defs

/-!
# Who owns a block

A place is where a block number is stored on a treedisk: in the free list, or in the tree of an
inode. Places are read off the disk by following the links of the free list and the references of
the trees; in every disk that a run reaches, each block past the inode blocks is in exactly one
place.
-/

namespace Egos.File

variable {nIb nblocks : ℕ} {D : Disk} {lv : ℕ → ℕ} {N : Pos → ℕ} {heads : List ℕ} {limbo : ℕ → Prop}

/-! ## Places -/

/-- The `k`-th free-list block of the list that starts at `f`; 0 past the end. -/
def chainBlock (D : Disk) (f : ℕ) : ℕ → ℕ
  | 0 => f
  | k + 1 => if chainBlock D f k = 0 then 0 else (D (chainBlock D f k)).word 0

/-- The block number at the end of a path in the tree of an inode: the root in the inode, then one
reference at a time, with the last one first in the list. -/
def treeBlock (D : Disk) (ino : ℕ) : List ℕ → ℕ
  | [] => rootOf D ino
  | i :: path => if treeBlock D ino path = 0 then 0 else (D (treeBlock D ino path)).word i

/-- A place where a block number is stored. -/
inductive Place
  /-- the free list, as its `k`-th block -/
  | freeBlock (k : ℕ)
  /-- the free list, as reference `i` of its `k`-th block -/
  | freeRef (k i : ℕ)
  /-- the root of an inode -/
  | root (ino : ℕ)
  /-- reference `i` of the indirect block at the end of a path -/
  | indirectRef (ino : ℕ) (path : List ℕ) (i : ℕ)

namespace Place

/-- The place exists: references are within their block, inodes within the inode blocks, and a path
stays above the data blocks, with the number of levels that the code computes from the inode. -/
def Valid (D : Disk) : Place → Prop
  | freeBlock _ => True
  | freeRef _ i => 1 ≤ i ∧ i < refsPerBlock
  | root ino => ino < (D 0).nInodeblocks * inodesPerBlock
  | indirectRef ino path i => ino < (D 0).nInodeblocks * inodesPerBlock ∧
      path.length < nlevelsOf (logRpbLoop 32 0) (nblocksOf D ino) ∧
      (∀ j ∈ path, j < refsPerBlock) ∧ i < refsPerBlock

/-- The block number stored at a place; 0 for none. -/
def ref (D : Disk) : Place → ℕ
  | freeBlock k => chainBlock D (D 0).freeList k
  | freeRef k i =>
    if chainBlock D (D 0).freeList k = 0 then 0
    else (D (chainBlock D (D 0).freeList k)).word i
  | root ino => rootOf D ino
  | indirectRef ino path i => treeBlock D ino (i :: path)

end Place

/-- No block is on the free list. -/
def FreeListEmpty (D : Disk) : Prop :=
  ∀ k i, (Place.freeBlock k).ref D = 0 ∧ (Place.freeRef k i).ref D = 0

/-! ## Places of the free list -/

/-- The blocks of a chain, one by one. -/
theorem chainBlock_succ {f : ℕ} (hf : f ≠ 0) (k : ℕ) :
    chainBlock D f (k + 1) = chainBlock D ((D f).word 0) k := by
  induction k with
  | zero => simp [chainBlock, hf]
  | succ k ih => rw [chainBlock, ih, chainBlock]

/-- A chain that has ended. -/
theorem chainBlock_zero (k : ℕ) : chainBlock D 0 k = 0 := by
  induction k with
  | zero => rfl
  | succ k ih => rw [chainBlock, if_pos ih]

/-- The chain of the free list is the list of its blocks. -/
theorem FreeChain.chainBlock {f : ℕ} (h : FreeChain D f heads) (k : ℕ) :
    chainBlock D f k = heads.getD k 0 := by
  induction h generalizing k with
  | nil => rw [chainBlock_zero, List.getD_nil]
  | cons hb _ ih =>
    cases k with
    | zero => rfl
    | succ k => rw [chainBlock_succ hb, ih, List.getD_cons_succ]

/-- The blocks of the chain are the heads. -/
theorem FreeChain.mem {f k : ℕ} (h : FreeChain D f heads) (hne : Egos.File.chainBlock D f k ≠ 0) :
    Egos.File.chainBlock D f k ∈ heads := by
  rw [h.chainBlock] at hne ⊢
  rcases Nat.lt_or_ge k heads.length with hlt | hge
  · rw [List.getD_eq_getElem _ _ hlt]
    exact List.getElem_mem hlt
  · exact absurd (List.getD_eq_default _ _ hge) hne

/-- Every head is in the chain. -/
theorem FreeChain.index {f b : ℕ} (h : FreeChain D f heads) (hb : b ∈ heads) :
    ∃ k, Egos.File.chainBlock D f k = b := by
  obtain ⟨k, hk, rfl⟩ := List.getElem_of_mem hb
  exact ⟨k, by rw [h.chainBlock, List.getD_eq_getElem _ _ hk]⟩

/-- A block is at one index of the chain only. -/
theorem FreeListFrom.chain_inj {f k k' : ℕ} (h : FreeListFrom D f heads)
    (hne : chainBlock D f k ≠ 0) (heq : chainBlock D f k = chainBlock D f k') : k = k' := by
  have hlt : ∀ j, chainBlock D f j ≠ 0 → j < heads.length := by
    intro j hj
    by_contra hge
    exact hj (by rw [h.chain.chainBlock, List.getD_eq_default _ _ (by omega)])
  have hk := hlt k hne
  have hk' := hlt k' (heq ▸ hne)
  rw [h.chain.chainBlock, h.chain.chainBlock, List.getD_eq_getElem _ _ hk,
    List.getD_eq_getElem _ _ hk'] at heq
  exact (h.nodup.getElem_inj_iff).1 heq

/-! ## Places of the trees -/

/-- The position at the end of a path. -/
def posAt (lv : ℕ → ℕ) (ino : ℕ) (path : List ℕ) : Pos :=
  ⟨ino, lv ino - path.length, Nat.ofDigits 128 path⟩

/-- Following a path leads to the block at its position. -/
theorem Forest.treeBlock (h : Forest nIb D lv N) {ino : ℕ} (hi : ino < 64 * nIb) :
    ∀ path : List ℕ, path.length ≤ lv ino → (∀ j ∈ path, j < 128) →
      treeBlock D ino path = N (posAt lv ino path)
  | [], _, _ => (h.root ino hi).symm
  | i :: path, hlen, hlt => by
    have ih := h.treeBlock hi path (by simp at hlen; omega) fun j hj => hlt j (by simp [hj])
    have hl : lv ino - path.length = lv ino - (path.length + 1) + 1 := by
      simp at hlen
      omega
    have hpos : posAt lv ino path
        = ⟨ino, lv ino - (path.length + 1) + 1, Nat.ofDigits 128 path⟩ := by
      rw [posAt, hl]
    have hpos' : posAt lv ino (i :: path)
        = ⟨ino, lv ino - (path.length + 1), 128 * Nat.ofDigits 128 path + i⟩ := by
      rw [posAt, List.length_cons, Nat.ofDigits_cons, Nat.add_comm i]
    have hi128 := hlt i (by simp)
    rw [Egos.File.treeBlock, ih, hpos, hpos']
    split
    · rename_i hz
      refine (h.hole ino _ _ (by simp at hlen; omega) ?_).symm
      rw [show (128 * Nat.ofDigits 128 path + i) / 128 = Nat.ofDigits 128 path by omega]
      exact hz
    · rename_i hz
      exact (h.child ino _ _ i (by simp at hlen; omega) hi128 hz).symm

/-- Every block of a tree is at the end of a path. -/
theorem Forest.exists_path (h : Forest nIb D lv N) {ino : ℕ} :
    ∀ (d ℓ k : ℕ), ℓ + d = lv ino → N ⟨ino, ℓ, k⟩ ≠ 0 →
      ∃ path : List ℕ, path.length = d ∧ (∀ j ∈ path, j < 128) ∧ Nat.ofDigits 128 path = k
  | 0, ℓ, k, hd, hne => by
    have := (h.inside _ hne).2
    simp only at this
    exact ⟨[], rfl, by simp, by simp; omega⟩
  | d + 1, ℓ, k, hd, hne => by
    have hparent : N ⟨ino, ℓ + 1, k / 128⟩ ≠ 0 := fun hz => hne (h.hole ino ℓ k (by omega) hz)
    obtain ⟨path, hlen, hlt, hk⟩ := h.exists_path d (ℓ + 1) (k / 128) (by omega) hparent
    refine ⟨k % 128 :: path, by simp [hlen], ?_, ?_⟩
    · simpa using ⟨Nat.mod_lt _ (by omega), hlt⟩
    · rw [Nat.ofDigits_cons, hk, Nat.add_comm]
      exact Nat.div_add_mod k 128

/-- A block is at the end of one path only. -/
theorem Forest.path_inj (h : Forest nIb D lv N) {ino ino' : ℕ} {path path' : List ℕ}
    (hi : ino < 64 * nIb) (hi' : ino' < 64 * nIb) (hlen : path.length ≤ lv ino)
    (hlen' : path'.length ≤ lv ino') (hlt : ∀ j ∈ path, j < 128) (hlt' : ∀ j ∈ path', j < 128)
    (hne : Egos.File.treeBlock D ino path ≠ 0)
    (heq : Egos.File.treeBlock D ino path = Egos.File.treeBlock D ino' path') :
    ino = ino' ∧ path = path' := by
  rw [h.treeBlock hi path hlen hlt] at hne heq
  rw [h.treeBlock hi' path' hlen' hlt'] at heq
  have hpos := h.inj _ _ hne heq
  simp only [posAt, Pos.mk.injEq] at hpos
  obtain ⟨rfl, hl, hk⟩ := hpos
  exact ⟨rfl, Nat.ofDigits_inj_of_len_eq (by omega) (by omega) hlt hlt' hk⟩

/-! ## One place for each block -/

/-- The path to a place in a tree. -/
def Place.path : Place → Option (ℕ × List ℕ)
  | root ino => some (ino, [])
  | indirectRef ino path i => some (ino, i :: path)
  | freeBlock _ => none
  | freeRef _ _ => none

/-- Places are told apart by their paths. -/
theorem Place.path_inj {p q : Place} {x : ℕ × List ℕ} (hp : p.path = some x)
    (hq : q.path = some x) : p = q := by
  cases p <;> cases q <;> grind [Place.path]

variable {F : FileMap}

/-- A place in a tree is at the end of a path of the forest. -/
theorem Rep.place_tree (h : Rep nIb nblocks D F N heads limbo) {p : Place} (hp : p.Valid D)
    {ino : ℕ} {path : List ℕ} (hpath : p.path = some (ino, path)) :
    p.ref D = treeBlock D ino path ∧ ino < 64 * nIb ∧ path.length ≤ levels (F.size ino) ∧
      ∀ j ∈ path, j < 128 := by
  have hsuper := h.stored.layout.super
  have hlevels : ∀ j, j < 64 * nIb →
      nlevelsOf (logRpbLoop 32 0) (nblocksOf D j) = levels (F.size j) := by
    intro j hj
    rw [logRpbLoop_eq, nlevelsOf_eq (nblocksOf_lt _ _), h.size j hj]
  cases p with
  | root j =>
    cases hpath
    rw [Place.Valid, hsuper, Nat.mul_comm] at hp
    exact ⟨rfl, hp, Nat.zero_le _, by simp⟩
  | indirectRef j pre i =>
    cases hpath
    obtain ⟨hj, hlen, hpre, hi⟩ := hp
    rw [hsuper, Nat.mul_comm] at hj
    rw [hlevels _ hj] at hlen
    exact ⟨rfl, hj, hlen, by simpa using ⟨hi, hpre⟩⟩
  | freeBlock k => cases hpath
  | freeRef k i => cases hpath

/-- A place of the free list holds a block that is on it. -/
theorem Rep.place_free (h : Rep nIb nblocks D F N heads limbo) {p : Place} (hp : p.Valid D)
    (hpath : p.path = none) (hne : p.ref D ≠ 0) : OnFreeList D heads (p.ref D) := by
  have hchain := h.stored.layout.free.chain
  cases p with
  | freeBlock k => exact Or.inl (hchain.mem hne)
  | freeRef k i =>
    rw [Place.ref] at hne ⊢
    split at hne
    · exact absurd rfl hne
    · rename_i hk
      rw [if_neg hk]
      exact Or.inr ⟨_, hchain.mem hk, i, hp.1, hp.2, rfl, hne⟩
  | root j => cases hpath
  | indirectRef j pre i => cases hpath

/-- The free list has one place for each block on it. -/
theorem Rep.place_free_inj (h : Rep nIb nblocks D F N heads limbo) {p q : Place} (hp : p.Valid D)
    (hq : q.Valid D) (hpp : p.path = none) (hqp : q.path = none) (hne : p.ref D ≠ 0)
    (heq : p.ref D = q.ref D) : p = q := by
  have hfree := h.stored.layout.free
  -- the references are at indices of blocks of the chain
  have href : ∀ {k i : ℕ}, (Place.freeRef k i).ref D ≠ 0 →
      chainBlock D (D 0).freeList k ≠ 0 ∧
        (Place.freeRef k i).ref D = (D (chainBlock D (D 0).freeList k)).word i := by
    intro k i hr
    rw [Place.ref] at hr ⊢
    split at hr
    · exact absurd rfl hr
    · rename_i hk
      rw [if_neg hk]
      exact ⟨hk, rfl⟩
  have hnotHead : ∀ {k k' i : ℕ}, (Place.freeRef k' i).Valid D →
      (Place.freeRef k' i).ref D ≠ 0 →
      chainBlock D (D 0).freeList k ≠ (Place.freeRef k' i).ref D := by
    intro k k' i hv hr he
    obtain ⟨hk', hw⟩ := href hr
    have hmem := hfree.chain.mem (k := k) (by rw [he]; exact hr)
    rw [he, hw] at hmem
    exact hfree.ref_not_head _ (hfree.chain.mem hk') i hv.1 hv.2 hmem
  cases p with
  | freeBlock k =>
    cases q with
    | freeBlock k' => rw [hfree.chain_inj hne heq]
    | freeRef k' i => exact absurd heq (hnotHead hq (heq ▸ hne))
    | root j => cases hqp
    | indirectRef j pre i => cases hqp
  | freeRef k i =>
    cases q with
    | freeBlock k' => exact absurd heq.symm (hnotHead hp hne)
    | freeRef k' i' =>
      obtain ⟨hk, hw⟩ := href hne
      obtain ⟨hk', hw'⟩ := href (heq ▸ hne)
      rw [hw] at hne heq
      rw [hw'] at heq
      obtain ⟨hkk, rfl⟩ := hfree.ref_inj _ (hfree.chain.mem hk) _ (hfree.chain.mem hk') i i' hp.1
        hp.2 hq.1 hq.2 hne heq
      rw [hfree.chain_inj hk hkk]
    | root j => cases hqp
    | indirectRef j pre i' => cases hqp
  | root j => cases hpp
  | indirectRef j pre i => cases hpp

/-- No block is in two places. -/
theorem Rep.place_inj (h : Rep nIb nblocks D F N heads limbo) {p q : Place} (hp : p.Valid D)
    (hq : q.Valid D) (hne : p.ref D ≠ 0) (heq : p.ref D = q.ref D) : p = q := by
  have hforest := h.stored.layout.forest
  -- a block is not both on the free list and in a tree
  have hmixed : ∀ {p q : Place} {x : ℕ × List ℕ}, p.Valid D → q.Valid D → p.path = none →
      q.path = some x → p.ref D ≠ 0 → p.ref D ≠ q.ref D := by
    rintro p q ⟨ino, path⟩ hp hq hpp hqp hne heq
    obtain ⟨hr, hi, hlen, hlt⟩ := h.place_tree hq hqp
    rw [hforest.treeBlock hi path hlen hlt] at hr
    exact h.stored.layout.free_not_node _ (h.place_free hp hpp hne) _ (by rw [heq, hr])
  cases hpp : p.path with
  | none =>
    cases hqp : q.path with
    | none => exact h.place_free_inj hp hq hpp hqp hne heq
    | some x => exact absurd heq (hmixed hp hq hpp hqp hne)
  | some x =>
    cases hqp : q.path with
    | none => exact absurd heq.symm (hmixed hq hp hqp hpp (heq ▸ hne))
    | some y =>
      obtain ⟨ino, path⟩ := x
      obtain ⟨ino', path'⟩ := y
      obtain ⟨hr, hi, hlen, hlt⟩ := h.place_tree hp hpp
      obtain ⟨hr', hi', hlen', hlt'⟩ := h.place_tree hq hqp
      rw [hr] at hne heq
      rw [hr'] at heq
      obtain ⟨rfl, rfl⟩ := hforest.path_inj hi hi' hlen hlen' hlt hlt' hne heq
      exact Place.path_inj hpp hqp

/-- A block number at a place is that of a block past the inode blocks. -/
theorem Rep.place_range (h : Rep nIb nblocks D F N heads limbo) {p : Place} (hp : p.Valid D)
    (hne : p.ref D ≠ 0) : nIb < p.ref D ∧ p.ref D < nblocks := by
  cases hpp : p.path with
  | none => exact h.stored.layout.free_range _ (h.place_free hp hpp hne)
  | some x =>
    obtain ⟨hr, hi, hlen, hlt⟩ := h.place_tree hp hpp
    rw [h.stored.layout.forest.treeBlock hi _ hlen hlt] at hr
    rw [hr] at hne ⊢
    exact h.stored.layout.node_range _ hne

/-- Every block past the inode blocks that is not in limbo is at a place. -/
theorem Rep.exists_place (h : Rep nIb nblocks D F N heads limbo) {b : ℕ} (hb : nIb < b)
    (hbn : b < nblocks) (hlimbo : ¬ limbo b) : ∃ p : Place, p.Valid D ∧ p.ref D = b := by
  have hl := h.stored.layout
  rcases hl.cover b hb hbn with (hmem | ⟨x, hx, i, hi1, hi2, hw, hb0⟩) | ⟨⟨ino, ℓ, k⟩, hp⟩ | hc
  · obtain ⟨k, hk⟩ := hl.free.chain.index hmem
    exact ⟨.freeBlock k, trivial, hk⟩
  · obtain ⟨k, hk⟩ := hl.free.chain.index hx
    refine ⟨.freeRef k i, ⟨hi1, hi2⟩, ?_⟩
    rw [Place.ref, hk, if_neg (hl.free.chain.ne_zero x hx), hw]
  · have hne : N ⟨ino, ℓ, k⟩ ≠ 0 := by omega
    obtain ⟨hi, hlev⟩ := hl.forest.inside _ hne
    simp only at hi hlev
    obtain ⟨path, hlen, hlt, hk⟩ := hl.forest.exists_path (levels (F.size ino) - ℓ) ℓ k
      (by omega) hne
    have hblock := hl.forest.treeBlock hi path (by omega) hlt
    have hpos : posAt (fun ino => levels (F.size ino)) ino path = ⟨ino, ℓ, k⟩ := by
      rw [posAt, hlen, hk, show levels (F.size ino) - (levels (F.size ino) - ℓ) = ℓ by omega]
    rw [hpos, hp] at hblock
    have hi' : ino < (D 0).nInodeblocks * inodesPerBlock := by
      rw [hl.super, Nat.mul_comm]
      exact hi
    cases path with
    | nil => exact ⟨.root ino, hi', hblock⟩
    | cons i path =>
      refine ⟨.indirectRef ino path i, ⟨hi', ?_, ?_, hlt i (by simp)⟩, hblock⟩
      · rw [logRpbLoop_eq, nlevelsOf_eq (nblocksOf_lt _ _), h.size ino hi]
        simp only [List.length_cons] at hlen
        omega
      · exact fun j hj => hlt j (by simp [hj])
  · exact absurd hc hlimbo

/-- A free list without a head is empty. -/
theorem freeListEmpty_of_zero (hz : (D 0).freeList = 0) : FreeListEmpty D := by
  intro k i
  simp only [Place.ref, hz, chainBlock_zero, if_true, and_self]

/-! ## Ownership in every run -/

section Runs

variable {σ : Type} {below : InodeStore σ} {bino : ℕ}

/-- In every disk that a run of writes reaches from a created store, each block past the inode
blocks is in exactly one place, on the free list or in a tree, and no other block is in any; and
`treedisk_alloc_block`, called with a snapshot of that disk or from within a further write, panics
for lack of blocks only when no block is on the free list. -/
theorem treedisk_block_ownership (A : TotalBlockArray below bino nblocks) {s₀ s₁ s₂ : σ}
    {ninodes logRpb : ℕ} (hinv : A.inv s₀) (hfresh : (A.view s₀ 0).nInodeblocks = 0)
    (hn : 1 ≤ ninodes) (hn32 : ninodes < 2 ^ 32)
    (hcreate : treediskCreate below bino ninodes s₀ = .ok 0 s₁)
    (hlog : logRpb = 0 ∨ logRpb = logRpbLoop 32 0) (ops : List TreediskOp)
    (hops : ∀ op ∈ ops, op.OffsetOk) {h : ℕ × TreediskState σ}
    (hrun : runOps (treediskInit logRpb below bino) ops s₁ = .ok h s₂) :
    (∀ b, (A.view s₂ 0).nInodeblocks + 1 ≤ b → b < nblocks →
      ∃! p : Place, p.Valid (A.view s₂) ∧ p.ref (A.view s₂) = b) ∧
    (∀ p : Place, p.Valid (A.view s₂) → p.ref (A.view s₂) ≠ 0 →
      (A.view s₂ 0).nInodeblocks < p.ref (A.view s₂) ∧ p.ref (A.view s₂) < nblocks) ∧
    (∀ ino sn s₃ s₄, treediskGetSnapshot h.2 ino s₂ = .ok (some sn) s₃ →
      treediskAllocBlock h.2 sn s₃ = .error fullMsg s₄ → FreeListEmpty (A.view s₄)) ∧
    (∀ ino off blk s₃, off < 2 ^ 32 - 1 →
      treediskWrite h.1 h.2 ino off blk s₂ = .error fullMsg s₃ → FreeListEmpty (A.view s₃)) := by
  have hopen := open_of_create A hinv hfresh hn hn32 hcreate hlog
  obtain ⟨rfl, hinv2, ⟨N, heads, hrep⟩, -, hsize, hsmall⟩ :=
    wp_ok (runOps_spec A ops hopen hops) hrun
  have hlay := hrep.stored.layout
  have hsuper := hlay.super
  rw [← hsuper] at hrep hsize
  refine ⟨fun b hb hbn => ?_, fun p hp hne => hrep.place_range hp hne, ?_, ?_⟩
  · obtain ⟨p, hp, hpb⟩ := hrep.exists_place hb hbn id
    refine ⟨p, ⟨hp, hpb⟩, ?_⟩
    rintro q ⟨hq, hqb⟩
    exact hrep.place_inj hq hp (by omega) (hqb.trans hpb.symm)
  · intro ino sn s₃ s₄ hsn halloc
    obtain ⟨hinv3, hv3, hsome⟩ := wp_ok (treediskGetSnapshot_spec A hinv2 rfl hsize ino) hsn
    split at hsome
    · cases hsome
      have hfree : FreeListOk (A.view s₃) heads := by
        rw [hv3]
        exact hlay.free
      have hsuper : (⟨A.view s₂ 0, A.view s₂ (1 + ino / 64), 1 + ino / 64, ino % 64⟩ :
          Snapshot).superblock = A.view s₃ 0 := (congrFun hv3 0).symm
      have hspec := treediskAllocBlock_spec A hinv3 hsuper hfree
        (by rw [hv3]; exact fun b hb => (hlay.free_range b hb).2)
      rcases wp_error hspec halloc with ⟨-, hz, rfl⟩ | hc
      · exact freeListEmpty_of_zero hz
      · exact hc.elim
    · cases hsome
  · intro ino off blk s₃ hoff hwrite
    by_cases hi : ino < 64 * (A.view s₂ 0).nInodeblocks
    · rcases wp_error (treediskWrite_spec A hinv2 hrep hsize hsmall hi (by omega) blk) hwrite with
        ⟨-, -, hz, -⟩ | hc
      · exact freeListEmpty_of_zero hz
      · exact hc.elim
    · exact (wp_error (treediskWrite_none_spec A hinv2 rfl hsize hi off blk) hwrite).elim

/-- After a run on a disk of twelve blocks, in which two trees have been built, each block from 2 on
is in one place. -/
theorem treedisk_block_ownership_growing :
    ∃ (s₁ s₂ : Disk) (h : ℕ × TreediskState Disk),
      treediskCreate (arrayStore 12) 0 1 (fun _ => nullBlock) = .ok 0 s₁ ∧
      runOps (treediskInit 0 (arrayStore 12) 0) growingOps s₁ = .ok h s₂ ∧
      ∀ b, 2 ≤ b → b < 12 → ∃! p : Place, p.Valid s₂ ∧ p.ref s₂ = b := by
  obtain ⟨s₁, s₂, h, hcreate, hrun, -, hsuper, -⟩ := run_growing
  have hown := (treedisk_block_ownership (arrayStoreArray 0 12 (by norm_num)) trivial rfl
    (le_refl 1) (by norm_num) hcreate (Or.inl rfl) _ offsetOk_growingOps hrun).1
  refine ⟨s₁, s₂, h, hcreate, hrun, fun b hb hlt => hown b ?_ hlt⟩
  change (s₂ 0).nInodeblocks + 1 ≤ b
  omega

end Runs

end Egos.File
