import Egos.File.TreediskCreate

/-!
# Handing out a new free list

The free list that `setup_freelist` writes is stored in the blocks that it hands out. A user takes
blocks off it one by one and overwrites those it has; `drain_spec` says that it gets every block
once, and that the call after the last block panics.
-/

namespace Egos.File

variable {σ : Type} {below : InodeStore σ} {bino nblocks nextFree nb : ℕ}

/-! ## The user of a free list -/

/-- What the user of a free list does: call `treedisk_alloc_block`, overwrite a block, or read the
superblock again as `treedisk_get_snapshot` does. -/
inductive BlockUse
  | alloc
  | overwrite (b : ℕ) (block : Block)
  | snapshot

/-- The number of calls of `treedisk_alloc_block`. -/
def allocs : List BlockUse → ℕ
  | [] => 0
  | .alloc :: uses => allocs uses + 1
  | .overwrite _ _ :: uses => allocs uses
  | .snapshot :: uses => allocs uses

/-- A run of allocations only. -/
theorem allocs_replicate (n : ℕ) : allocs (List.replicate n .alloc) = n := by
  induction n with
  | zero => rfl
  | succ n ih => rw [List.replicate_succ, allocs, ih]

/-- The blocks that a user gets, after those in `returned`; only these are overwritten. -/
def useBlocks (ts : TreediskState σ) : List BlockUse → Snapshot → List ℕ → StoreM σ (List ℕ)
  | [], _, returned => return returned
  | .alloc :: uses, sn, returned => do
    let (b, sn) ← treediskAllocBlock ts sn
    useBlocks ts uses sn (returned ++ [b])
  | .overwrite b block :: uses, sn, returned => do
    if b ∈ returned then
      let _ ← ts.below.write ts.belowIno b block
      useBlocks ts uses sn returned
    else useBlocks ts uses sn returned
  | .snapshot :: uses, sn, returned => do
    let (_, superblock) ← ts.below.read ts.belowIno 0
    useBlocks ts uses { sn with superblock } returned

/-- Set up a free list, store it in the superblock and use it. -/
def drain (below : InodeStore σ) (bino nextFree nb : ℕ) (sn : Snapshot) (uses : List BlockUse) :
    StoreM σ (List ℕ) := do
  let freeList ← setupFreelist below bino nextFree nb
  let sn := { sn with superblock := sn.superblock.setWord 1 freeList }
  let _ ← below.write bino 0 sn.superblock
  useBlocks ⟨below, bino⟩ uses sn []

/-! ## What is left on the list -/

/-- The blocks in `rest` are on the free list, and with those in `returned` they are the blocks from
`nextFree` up to `nb`. -/
structure Draining (nextFree nb : ℕ) (returned rest heads : List ℕ) (D : Disk) (sn : Snapshot) :
    Prop where
  superblock : sn.superblock = D 0
  list : FreeListOk D heads
  mem : ∀ b, OnFreeList D heads b ↔ b ∈ rest
  perm : (returned ++ rest).Perm (List.range' nextFree (nb - nextFree))

namespace Draining

variable {returned rest heads : List ℕ} {D : Disk} {sn : Snapshot}

/-- No block is returned twice. -/
theorem nodup (h : Draining nextFree nb returned rest heads D sn) : (returned ++ rest).Nodup :=
  h.perm.nodup_iff.2 List.nodup_range'

/-- The blocks are those behind the inode blocks. -/
theorem range (h : Draining nextFree nb returned rest heads D sn) {b : ℕ}
    (hb : b ∈ returned ++ rest) : nextFree ≤ b ∧ b < nb := by
  have hmem := List.mem_range'_1.1 (h.perm.mem_iff.1 hb)
  omega

/-- All of them are returned or left. -/
theorem length (h : Draining nextFree nb returned rest heads D sn) :
    returned.length + rest.length = nb - nextFree := by
  rw [← List.length_append, h.perm.length_eq, List.length_range']

/-- Free blocks are blocks of the disk. -/
theorem free_lt (h : Draining nextFree nb returned rest heads D sn) {b : ℕ}
    (hb : OnFreeList D heads b) : b < nb :=
  (h.range (List.mem_append_right _ ((h.mem b).1 hb))).2

/-- An empty list has handed out every block. -/
theorem rest_eq_nil (h : Draining nextFree nb returned rest heads D sn)
    (hempty : (D 0).freeList = 0) : rest = [] := by
  have hlist := h.list
  rw [FreeListOk, hempty] at hlist
  have hheads : heads = [] := by
    cases hlist.chain with
    | nil => rfl
    | cons hb _ => exact absurd rfl hb
  refine List.eq_nil_iff_forall_not_mem.2 fun b hb => ?_
  have hon := (h.mem b).2 hb
  rw [hheads] at hon
  simp [OnFreeList] at hon

/-- Taking a block off the list. -/
theorem pop (h : Draining nextFree nb returned rest heads D sn) (hne : (D 0).freeList ≠ 0) :
    ∃ rest' heads', Draining nextFree nb (returned ++ [(popFree D).1]) rest' heads' (popFree D).2
      { sn with superblock := (popFree D).2 0 } := by
  obtain ⟨heads', hpop, hon⟩ := popFree_spec h.list hne
  have hrest := (h.mem _).1 hon
  refine ⟨rest.erase (popFree D).1, heads', rfl, hpop.ok, fun b => ?_, ?_⟩
  · -- a block is still on the list when it was before and is not the one handed out
    rw [(List.nodup_append.1 h.nodup).2.1.mem_erase_iff, ← h.mem, hpop.mem]
    constructor
    · exact fun hb => ⟨fun he => hpop.not_mem (he ▸ hb), Or.inl hb⟩
    · rintro ⟨hb, hb' | hb'⟩
      · exact hb'
      · exact absurd hb' hb
  · rw [List.append_assoc]
    exact ((List.perm_cons_erase hrest).symm.append_left returned).trans h.perm

/-- A block that has been handed out is not part of the list. -/
theorem overwrite (h : Draining nextFree nb returned rest heads D sn) (hnext : 1 ≤ nextFree) {b : ℕ}
    (hb : b ∈ returned) (block : Block) :
    Draining nextFree nb returned rest heads (Function.update D b block) sn := by
  have hb0 : b ≠ 0 := by
    have hrange := h.range (List.mem_append_left rest hb)
    omega
  -- the free-list blocks are on the list themselves, so `b` is none of them
  have hsame : ∀ x ∈ heads, Function.update D b block x = D x := by
    intro x hx
    refine Function.update_of_ne (fun he => ?_) _ _
    exact (List.nodup_append.1 h.nodup).2.2 b hb x ((h.mem x).1 (Or.inl hx)) he.symm
  have hsuper : Function.update D b block 0 = D 0 := Function.update_of_ne hb0.symm _ _
  refine ⟨h.superblock.trans hsuper.symm, h.list.congr (congrArg _ hsuper) hsame, fun x => ?_,
    h.perm⟩
  rw [onFreeList_congr hsame, h.mem]

end Draining

/-! ## Runs -/

/-- The user gets blocks until there are none left. -/
theorem useBlocks_spec (A : TotalBlockArray below bino nblocks) (hnext : 1 ≤ nextFree)
    (hnb : nb ≤ nblocks) (hpos : 0 < nblocks) (uses : List BlockUse) {sn : Snapshot}
    {returned rest heads : List ℕ} {s : σ} (hinv : A.inv s)
    (h : Draining nextFree nb returned rest heads (A.view s) sn) :
    wp (useBlocks ⟨below, bino⟩ uses sn returned)
      (fun out _ => out.length = returned.length + allocs uses ∧
        ∃ rest, (out ++ rest).Perm (List.range' nextFree (nb - nextFree)))
      (fun e _ => e = fullMsg ∧ nb - nextFree < returned.length + allocs uses) s := by
  induction uses generalizing sn returned rest heads s with
  | nil =>
    rw [useBlocks, wp_pure]
    exact ⟨rfl, rest, h.perm⟩
  | cons use uses ih =>
    cases use with
    | alloc =>
      rw [useBlocks]
      have hcount : returned.length + allocs (.alloc :: uses)
          = returned.length + 1 + allocs uses := by
        rw [allocs]
        omega
      rw [hcount]
      refine wp_call (treediskAllocBlock_spec A hinv h.superblock h.list
        fun b hb => (h.free_lt hb).trans_le hnb) ?_ ?_
      · rintro e s' (⟨rfl, hempty, rfl⟩ | hfalse)
        · -- every block has been handed out, and this call asks for one more
          have hlen := h.length
          rw [h.rest_eq_nil hempty, List.length_nil] at hlen
          exact ⟨rfl, by omega⟩
        · exact hfalse.elim
      · rintro ⟨b, sn'⟩ s' ⟨hne, hinv', hview, rfl, rfl⟩
        obtain ⟨rest', heads', hpop⟩ := h.pop hne
        rw [← hview] at hpop
        have hrun := ih hinv' hpop
        rwa [List.length_append, List.length_singleton] at hrun
    | overwrite b block =>
      rw [useBlocks, allocs]
      split_ifs with hb
      · have hlt := (h.range (List.mem_append_left rest hb)).2
        refine wp_call (A.write_spec s b block hinv (by omega)) (fun _ _ hfalse => hfalse.elim) ?_
        rintro - s' ⟨-, hinv', hview⟩
        have hover := h.overwrite hnext hb block
        rw [← hview] at hover
        exact ih hinv' hover
      · exact ih hinv h
    | snapshot =>
      rw [useBlocks, allocs]
      refine wp_call (A.read_spec s 0 hinv hpos) (fun _ _ hfalse => hfalse.elim) ?_
      rintro ⟨r, superblock⟩ s' ⟨-, rfl, hinv', hview⟩
      refine @ih _ _ rest heads _ hinv' ?_
      rw [hview]
      exact ⟨rfl, h.list, h.mem, h.perm⟩

/-- `setup_freelist` also when there are no blocks for the list. -/
theorem setupFreelist_any (A : TotalBlockArray below bino nblocks) {s : σ} (hinv : A.inv s)
    (hnext : 1 ≤ nextFree) (hnb : nb ≤ nblocks) (hn : nblocks ≤ 2 ^ 32) :
    wp (setupFreelist below bino nextFree nb)
      (fun f s' => A.inv s' ∧ f < 2 ^ 32 ∧ ∃ heads, SetUp nextFree nb f (A.view s') heads)
      (fun _ _ => False) s := by
  rcases Nat.lt_or_ge nb nextFree with hlt | hle
  · rw [setupFreelist, Nat.sub_eq_zero_of_le hlt.le, setupFreelistLoop, wp_pure]
    refine ⟨hinv, by decide, [], ⟨.nil, List.nodup_nil, by simp, by simp⟩, fun b => ?_⟩
    simp only [OnFreeList, List.not_mem_nil, false_and, exists_false, or_self, false_iff]
    omega
  · exact wp_mono (setupFreelist_spec A hinv hnext hle hnb hn)
      (fun _ _ hr => ⟨hr.1, hr.2.1, hr.2.2.1⟩) fun _ _ hfalse => hfalse

/-- The list is in the superblock. -/
theorem SetUp.draining {f : ℕ} {heads : List ℕ} {D : Disk} (h : SetUp nextFree nb f D heads)
    (hf : f < 2 ^ 32) (sn : Snapshot) :
    Draining nextFree nb [] (List.range' nextFree (nb - nextFree)) heads
      (Function.update D 0 (sn.superblock.setWord 1 f))
      { sn with superblock := sn.superblock.setWord 1 f } := by
  have hsame : ∀ x ∈ heads, Function.update D 0 (sn.superblock.setWord 1 f) x = D x :=
    fun x hx => Function.update_of_ne (h.list.chain.ne_zero x hx) _ _
  refine ⟨?_, ?_, fun b => ?_, List.Perm.refl _⟩
  · rw [Function.update_self]
  · rw [FreeListOk, Function.update_self, Block.freeList,
      Block.word_setWord_self _ (by omega) hf]
    exact h.list.congr hsame
  · rw [onFreeList_congr hsame, h.mem, List.mem_range'_1]
    omega

/-- A user of a new free list gets different blocks from `nextFree` up to `nb`, one for each call,
and panics when it has called more often than there are such blocks. -/
theorem drain_spec (A : TotalBlockArray below bino nblocks) (hpos : 0 < nblocks)
    (hn : nblocks ≤ 2 ^ 32) (hnext : 1 ≤ nextFree) (hnb : nb ≤ nblocks) (sn : Snapshot)
    (uses : List BlockUse) {s : σ} (hinv : A.inv s) :
    wp (drain below bino nextFree nb sn uses)
      (fun returned _ => allocs uses ≤ nb - nextFree ∧ returned.length = allocs uses ∧
        ∃ rest, (returned ++ rest).Perm (List.range' nextFree (nb - nextFree)))
      (fun e _ => e = fullMsg ∧ nb - nextFree < allocs uses) s := by
  unfold drain
  refine wp_call (setupFreelist_any A hinv hnext hnb hn) (fun _ _ hfalse => hfalse.elim) ?_
  rintro f s₁ ⟨hinv₁, hf, heads, hset⟩
  refine wp_call (A.write_spec s₁ 0 _ hinv₁ hpos) (fun _ _ hfalse => hfalse.elim) ?_
  rintro - s₂ ⟨-, hinv₂, hview⟩
  have hdrain := hset.draining hf sn
  rw [← hview] at hdrain
  refine wp_mono (useBlocks_spec A hnext hnb hpos uses hinv₂ hdrain) ?_ ?_
  · rintro returned - ⟨hlen, rest, hperm⟩
    have htotal := hperm.length_eq
    rw [List.length_append, List.length_range'] at htotal
    rw [List.length_nil, Nat.zero_add] at hlen
    exact ⟨by omega, hlen, rest, hperm⟩
  · rintro e - ⟨he, hlt⟩
    rw [List.length_nil, Nat.zero_add] at hlt
    exact ⟨he, hlt⟩

/-- A list of two full blocks and one with a single block. -/
theorem drain_spec_257 :
    wp (drain (arrayStore 300) 0 43 300 ⟨nullBlock, nullBlock, 0, 0⟩
        (List.replicate 257 .alloc))
      (fun returned _ => returned.Perm (List.range' 43 257)) (fun _ _ => False)
      fun _ => nullBlock := by
  have hcount := allocs_replicate 257
  generalize List.replicate 257 BlockUse.alloc = uses at hcount ⊢
  have hdrain := drain_spec (arrayStoreArray 0 300 (by decide)) (by decide) (by decide)
    (show 1 ≤ 43 by decide) (show 300 ≤ 300 by decide) ⟨nullBlock, nullBlock, 0, 0⟩ uses
    (s := fun _ => nullBlock) trivial
  rw [hcount] at hdrain
  refine wp_mono hdrain ?_ fun _ _ hfull => absurd hfull.2 (by decide)
  rintro returned - ⟨-, hlen, rest, hperm⟩
  have htotal := hperm.length_eq
  rw [List.length_append, List.length_range', hlen] at htotal
  have hrest : rest = [] := List.eq_nil_of_length_eq_zero (by omega)
  rwa [hrest, List.append_nil] at hperm

end Egos.File
