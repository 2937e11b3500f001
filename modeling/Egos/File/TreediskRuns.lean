import Egos.File.TreediskCreate

/-!
# Runs of a treedisk

A client opens a treedisk, writes blocks, and may call `treedisk_create` and `treedisk_init` again.
A run that does not panic refines the run of the same calls on a `FileMap`, in which creating and
opening do nothing; what the file map holds is then said in terms of the list of calls.
-/

namespace Egos.File

/-- A call of a client. -/
inductive TreediskOp
  | write (ino off : ℕ) (blk : Block)
  | create (ninodes : ℕ)
  | init

variable {σ : Type}

/-- Run a call; the static `log_rpb` and the opened store are passed along. -/
def runOp (h : ℕ × TreediskState σ) : TreediskOp → StoreM σ (ℕ × TreediskState σ)
  | .write ino off blk => do
    let _ ← treediskWrite h.1 h.2 ino off blk
    return h
  | .create ninodes => do
    let _ ← treediskCreate h.2.below h.2.belowIno ninodes
    return h
  | .init => return treediskInit h.1 h.2.below h.2.belowIno

/-- Run a list of calls. -/
def runOps : ℕ × TreediskState σ → List TreediskOp → StoreM σ (ℕ × TreediskState σ)
  | h, [] => return h
  | h, op :: ops => do
    let h ← runOp h op
    runOps h ops

/-- The offset of a call fits in a file: `off + 1` does not wrap. -/
def TreediskOp.OffsetOk : TreediskOp → Prop
  | .write _ off _ => off < 2 ^ 32 - 1
  | _ => True

/-! ## The calls on a file map -/

/-- A call on a file map with `ninodes` files. -/
def FileMap.apply (ninodes : ℕ) (F : FileMap) : TreediskOp → FileMap
  | .write ino off blk => if ino < ninodes then F.write ino off blk else F
  | .create _ => F
  | .init => F

/-- The files after a list of calls. -/
def filesAfter (ninodes : ℕ) (ops : List TreediskOp) : FileMap :=
  ops.foldl (FileMap.apply ninodes) FileMap.empty

/-- The offsets written to an inode. -/
def offsetsWritten (ops : List TreediskOp) (ino : ℕ) : List ℕ :=
  ops.filterMap fun
    | .write i o _ => if i = ino then some o else none
    | _ => none

/-- The block of the last write to an offset of an inode. -/
def lastWrite (ops : List TreediskOp) (ino off : ℕ) : Option Block :=
  (ops.filterMap fun
    | .write i o blk => if i = ino ∧ o = off then some blk else none
    | _ => none).getLast?

/-- One more operation. -/
theorem filesAfter_append_one (ninodes : ℕ) (ops : List TreediskOp) (op : TreediskOp) :
    filesAfter ninodes (ops ++ [op]) = FileMap.apply ninodes (filesAfter ninodes ops) op := by
  simp [filesAfter, List.foldl_append]

/-- The files after a list of calls hold the last writes, and end at the largest offset. -/
theorem filesAfter_spec {ninodes ino : ℕ} (hi : ino < ninodes) (ops : List TreediskOp) :
    (∀ off, off < (filesAfter ninodes ops).size ino ↔ ∃ o ∈ offsetsWritten ops ino, off ≤ o) ∧
      ∀ off, (filesAfter ninodes ops).block ino off = (lastWrite ops ino off).getD nullBlock := by
  induction ops using List.reverseRecOn with
  | nil => simp [filesAfter, offsetsWritten, lastWrite, FileMap.empty]
  | append_singleton ops op ih =>
    obtain ⟨ihs, ihb⟩ := ih
    rw [filesAfter_append_one]
    -- a call that is not a write to `ino` leaves the file and the lists of its writes as they are
    have hskip (hs : (FileMap.apply ninodes (filesAfter ninodes ops) op).size ino
          = (filesAfter ninodes ops).size ino)
        (hb : (FileMap.apply ninodes (filesAfter ninodes ops) op).block ino
          = (filesAfter ninodes ops).block ino)
        (ho : offsetsWritten (ops ++ [op]) ino = offsetsWritten ops ino)
        (hl : ∀ off, lastWrite (ops ++ [op]) ino off = lastWrite ops ino off) :
        (∀ off, off < (FileMap.apply ninodes (filesAfter ninodes ops) op).size ino ↔
            ∃ o ∈ offsetsWritten (ops ++ [op]) ino, off ≤ o) ∧
          ∀ off, (FileMap.apply ninodes (filesAfter ninodes ops) op).block ino off
            = (lastWrite (ops ++ [op]) ino off).getD nullBlock := by
      rw [hs, hb, ho]
      exact ⟨ihs, fun off => by rw [hl]; exact ihb off⟩
    cases op with
    | write i o blk =>
      by_cases hio : i = ino
      · subst hio
        rw [FileMap.apply, if_pos hi]
        constructor
        · intro off
          rw [FileMap.write_size, if_pos rfl, lt_max_iff, ihs off]
          simp only [offsetsWritten, List.filterMap_append, List.mem_append, or_and_right,
            exists_or, List.filterMap_cons, List.filterMap_nil, if_true, List.mem_singleton,
            exists_eq_left, Nat.lt_succ_iff]
        · intro off
          simp only [FileMap.write, FileMap.setBlock_apply, true_and, lastWrite,
            List.filterMap_append, List.filterMap_cons, List.filterMap_nil]
          by_cases ho : o = off
          · rw [if_pos ho.symm, if_pos ho]
            simp
          · rw [if_neg (Ne.symm ho), if_neg ho, ihb off]
            simp [lastWrite]
      · refine hskip ?_ ?_ (by simp [offsetsWritten, hio]) (by simp [lastWrite, hio])
        · rw [FileMap.apply]
          split
          · rw [FileMap.write_size, if_neg (Ne.symm hio)]
          · rfl
        · rw [FileMap.apply]
          split
          · exact Function.update_of_ne (Ne.symm hio) _ _
          · rfl
    | create n => exact hskip rfl rfl (by simp [offsetsWritten]) (by simp [lastWrite])
    | init => exact hskip rfl rfl (by simp [offsetsWritten]) (by simp [lastWrite])

/-- What `treedisk_read` returns for the files after a list of calls. -/
theorem readResult_filesAfter {ninodes ino : ℕ} (hi : ino < ninodes) (ops : List TreediskOp)
    (off : ℕ) : readResult ((filesAfter ninodes ops).read ino off)
      = if ∃ o ∈ offsetsWritten ops ino, off ≤ o then (0, (lastWrite ops ino off).getD nullBlock)
        else (-1, nullBlock) := by
  obtain ⟨hlen, hblk⟩ := filesAfter_spec hi ops
  rw [FileMap.read]
  by_cases hc : ∃ o ∈ offsetsWritten ops ino, off ≤ o
  · rw [if_pos hc, if_pos ((hlen off).2 hc), hblk, readResult]
  · rw [if_neg hc, if_neg fun hlt => hc ((hlen off).1 hlt), readResult]

/-! ## Runs refine the file map -/

variable {below : InodeStore σ} {bino nblocks : ℕ} {fails : String → σ → Prop} {nIb : ℕ}

/-- What holds between the calls of a client: the store is open, and its blocks are as `S` says. -/
structure Opened (A : BlockArray below bino nblocks fails) (nIb : ℕ) (S : (ℕ → Block) → Prop)
    (h : ℕ × TreediskState σ) (s : σ) : Prop where
  handle : h = (7, ⟨below, bino⟩)
  inv : A.inv s
  stores : S (A.view s)
  pos : 1 ≤ nIb
  size : nIb < nblocks
  small : nblocks ≤ 2 ^ 32

/-- The store is open, and the disk stores `F`. -/
abbrev Open (A : BlockArray below bino nblocks fails) (nIb : ℕ) (F : FileMap) :
    ℕ × TreediskState σ → σ → Prop :=
  Opened A nIb fun view => Stores nIb nblocks view F

/-- The same, where the blocks of the trees are at the positions `N`. -/
abbrev OpenAt (A : BlockArray below bino nblocks fails) (nIb : ℕ) (F : FileMap) (N : Pos → ℕ) :
    ℕ × TreediskState σ → σ → Prop :=
  Opened A nIb fun view => ∃ heads, Rep nIb nblocks view F N heads fun _ => False

/-- What is known of the disk may be weakened. -/
theorem Opened.imp {A : BlockArray below bino nblocks fails} {S T : (ℕ → Block) → Prop}
    {h : ℕ × TreediskState σ} {s : σ} (ho : Opened A nIb S h s)
    (hST : S (A.view s) → T (A.view s)) : Opened A nIb T h s :=
  ⟨ho.handle, ho.inv, hST ho.stores, ho.pos, ho.size, ho.small⟩

/-- Where the blocks are may be forgotten. -/
theorem OpenAt.toOpen {A : BlockArray below bino nblocks fails} {F : FileMap} {N : Pos → ℕ}
    {h : ℕ × TreediskState σ} {s : σ} (ho : OpenAt A nIb F N h s) : Open A nIb F h s :=
  ho.imp fun hrep => ⟨N, hrep⟩

/-- The blocks are somewhere. -/
theorem Open.openAt {A : BlockArray below bino nblocks fails} {F : FileMap}
    {h : ℕ × TreediskState σ} {s : σ} (ho : Open A nIb F h s) : ∃ N, OpenAt A nIb F N h s := by
  obtain ⟨N, hrep⟩ := ho.stores
  exact ⟨N, ho.imp fun _ => hrep⟩

/-- The positions that a write to a file of a file map adds. -/
def FileMap.added (F : FileMap) (ino off : ℕ) : Pos → Prop :=
  Added ino off (levels (F.size ino))
    (levels (max (F.size ino) (off + 1)) - levels (F.size ino))

/-- The levels of a file after a write. -/
theorem FileMap.levels_write (F : FileMap) (ino off : ℕ) (blk : Block) :
    levels ((F.write ino off blk).size ino) = levels (max (F.size ino) (off + 1)) := by
  rw [FileMap.write_size, if_pos rfl]

/-- The positions that a write adds. -/
theorem FileMap.added_iff {F : FileMap} {ino off : ℕ} {p : Pos} :
    F.added ino off p ↔ p.ino = ino ∧ p.level ≤ levels (max (F.size ino) (off + 1)) ∧
      ((p.index = 0 ∧ levels (F.size ino) < p.level) ∨ p.index = off / 128 ^ p.level) := by
  have hle : levels (F.size ino) ≤ levels (max (F.size ino) (off + 1)) :=
    levels_mono (le_max_left _ _)
  rw [FileMap.added, Added, Inserted, OnPath, Nat.add_sub_cancel' hle]
  tauto

/-- What a call does to the positions of the blocks. -/
def NodesStep (ninodes : ℕ) (F : FileMap) (N N' : Pos → ℕ) : TreediskOp → Prop
  | .write ino off _ => if ino < ninodes then Extends N N' (F.added ino off) else N' = N
  | .create _ => N' = N
  | .init => N' = N

/-- A write to an inode that does not exist returns `-1`. -/
theorem treediskWrite_none_spec (A : BlockArray below bino nblocks fails) {s : σ} {ino : ℕ}
    (hinv : A.inv s) (hsuper : (A.view s 0).nInodeblocks = nIb) (hn : nIb < nblocks)
    (hi : ¬ ino < 64 * nIb) (off : ℕ) (blk : Block) :
    wp (treediskWrite 7 ⟨below, bino⟩ ino off blk)
      (fun r s' => r = -1 ∧ A.inv s' ∧ A.view s' = A.view s) fails s := by
  unfold treediskWrite
  refine wp_seq (treediskGetSnapshot_spec A hinv hsuper hn ino) ?_
  rintro r s1 ⟨hinv1, hv1, rfl⟩
  rw [if_neg hi]
  exact ⟨rfl, hinv1, hv1⟩

/-- A call that does not panic is the call on the file map, and adds the blocks of its write. -/
theorem runOp_nodes_spec (A : BlockArray below bino nblocks fails) {F : FileMap} {N : Pos → ℕ}
    {h : ℕ × TreediskState σ} {s : σ} (ho : OpenAt A nIb F N h s) {op : TreediskOp}
    (hop : op.OffsetOk) :
    wp (runOp h op) (fun h' s' => ∃ N', OpenAt A nIb (F.apply (64 * nIb) op) N' h' s' ∧
      NodesStep (64 * nIb) F N N' op) (fun _ _ => True) s := by
  obtain ⟨rfl, hinv, ⟨heads, hrep⟩, hpos, hsize, hsmall⟩ := ho
  have hsuper := hrep.stored.layout.super
  cases op with
  | write ino off blk =>
    have hoff : off + 1 < 2 ^ 32 := by
      have : off < 2 ^ 32 - 1 := hop
      omega
    rw [runOp, FileMap.apply]
    by_cases hi : ino < 64 * nIb
    · rw [if_pos hi]
      refine wp_call (treediskWrite_nodes_spec A hinv hrep hsize hsmall hi hoff blk)
        (fun _ _ _ => trivial) ?_
      rintro - s' ⟨-, hinv', N', heads', hrep', hadded⟩
      refine ⟨N', ⟨rfl, hinv', ⟨heads', hrep'⟩, hpos, hsize, hsmall⟩, ?_⟩
      rw [NodesStep, if_pos hi]
      exact hadded
    · rw [if_neg hi]
      refine wp_call (treediskWrite_none_spec A hinv hsuper hsize hi off blk)
        (fun _ _ _ => trivial) ?_
      rintro - s' ⟨-, hinv', hv'⟩
      refine ⟨N, ⟨rfl, hinv', ⟨heads, hv' ▸ hrep⟩, hpos, hsize, hsmall⟩, ?_⟩
      rw [NodesStep, if_neg hi]
  | create n =>
    rw [runOp, FileMap.apply]
    refine wp_call (treediskCreate_used_spec A n hinv (by omega)) (fun _ _ _ => trivial) ?_
    rintro - s' ⟨hinv', hv'⟩
    exact ⟨N, ⟨rfl, hinv', ⟨heads, hv' ▸ hrep⟩, hpos, hsize, hsmall⟩, rfl⟩
  | init => exact ⟨N, ⟨rfl, hinv, ⟨heads, hrep⟩, hpos, hsize, hsmall⟩, rfl⟩

/-- A call that does not panic is the call on the file map. -/
theorem runOp_spec (A : BlockArray below bino nblocks fails) {F : FileMap}
    {h : ℕ × TreediskState σ} {s : σ} (ho : Open A nIb F h s) {op : TreediskOp}
    (hop : op.OffsetOk) :
    wp (runOp h op) (fun h' s' => Open A nIb (F.apply (64 * nIb) op) h' s')
      (fun _ _ => True) s := by
  obtain ⟨N, hat⟩ := ho.openAt
  refine wp_mono (runOp_nodes_spec A hat hop) ?_ fun _ _ h => h
  rintro h' s' ⟨N', hat', -⟩
  exact hat'.toOpen

/-- A run that does not panic is the run on the file map. -/
theorem runOps_spec (A : BlockArray below bino nblocks fails) :
    ∀ (ops : List TreediskOp) {F : FileMap} {h : ℕ × TreediskState σ} {s : σ},
      Open A nIb F h s → (∀ op ∈ ops, op.OffsetOk) →
      wp (runOps h ops) (fun h' s' => Open A nIb (ops.foldl (FileMap.apply (64 * nIb)) F) h' s')
        (fun _ _ => True) s
  | [], _, _, _, ho, _ => ho
  | op :: ops, F, h, s, ho, hops => by
    rw [runOps]
    refine wp_seq (runOp_spec A ho (hops op (by simp))) ?_
    intro h' s' ho'
    exact runOps_spec A ops ho' fun op' hop' => hops op' (by simp [hop'])

/-- A store that `treedisk_create` has built for `ninodes` inodes, once opened, has no blocks in its
trees. -/
theorem openAt_of_ninodes (A : BlockArray below bino nblocks fails) {s₀ s₁ : σ}
    {ninodes logRpb : ℕ} (hinv : A.inv s₀) (hfresh : (A.view s₀ 0).nInodeblocks = 0)
    (hn : 1 ≤ ninodes) (hn32 : ninodes < 2 ^ 32)
    (hcreate : treediskCreate below bino ninodes s₀ = .ok 0 s₁)
    (hlog : logRpb = 0 ∨ logRpb = logRpbLoop 32 0) :
    OpenAt A ((ninodes + 63) / 64) FileMap.empty (fun _ => 0) (treediskInit logRpb below bino)
      s₁ := by
  obtain ⟨hinv1, ⟨h1, -⟩ | ⟨-, hle, hsmall, hrep⟩⟩ :=
    wp_ok (treediskCreate_spec A hinv hfresh hn hn32) hcreate
  · exact absurd h1 (by norm_num)
  refine ⟨?_, hinv1, hrep, by omega, by omega, by omega⟩
  rcases hlog with rfl | rfl <;> simp [treediskInit, logRpbLoop_eq]

/-- A store that `treedisk_create` has built for `ninodes` inodes, once opened. -/
theorem open_of_ninodes (A : BlockArray below bino nblocks fails) {s₀ s₁ : σ}
    {ninodes logRpb : ℕ} (hinv : A.inv s₀) (hfresh : (A.view s₀ 0).nInodeblocks = 0)
    (hn : 1 ≤ ninodes) (hn32 : ninodes < 2 ^ 32)
    (hcreate : treediskCreate below bino ninodes s₀ = .ok 0 s₁)
    (hlog : logRpb = 0 ∨ logRpb = logRpbLoop 32 0) :
    Open A ((ninodes + 63) / 64) FileMap.empty (treediskInit logRpb below bino) s₁ :=
  (openAt_of_ninodes A hinv hfresh hn hn32 hcreate hlog).toOpen

/-- A store that `treedisk_create` has built, once opened. -/
theorem open_of_create (A : BlockArray below bino nblocks fails) {s₀ s₁ : σ}
    {ninodes logRpb : ℕ} (hinv : A.inv s₀) (hfresh : (A.view s₀ 0).nInodeblocks = 0)
    (hn : 1 ≤ ninodes) (hn32 : ninodes < 2 ^ 32)
    (hcreate : treediskCreate below bino ninodes s₀ = .ok 0 s₁)
    (hlog : logRpb = 0 ∨ logRpb = logRpbLoop 32 0) :
    Open A (A.view s₁ 0).nInodeblocks FileMap.empty (treediskInit logRpb below bino) s₁ := by
  have hopen := open_of_ninodes A hinv hfresh hn hn32 hcreate hlog
  obtain ⟨N, heads, hrep⟩ := hopen.stores
  rwa [hrep.stored.layout.super]

/-- A treedisk is a map of files: after `treedisk_create` on a block array with a null superblock
and any run of writes, in which `treedisk_create` and `treedisk_init` may be called again at any
point, `treedisk_read` returns `-1` past the largest offset written to the inode, and else 0 with
the block last written to the offset, or null bytes if there is none. `log_rpb` is 0 until the first
`treedisk_init` of the program. -/
theorem treedisk_refines_fileMap (A : TotalBlockArray below bino nblocks) {s₀ s₁ s₂ : σ}
    {ninodes logRpb : ℕ} (hinv : A.inv s₀) (hzero : A.view s₀ 0 = nullBlock) (hn : 1 ≤ ninodes)
    (hn32 : ninodes < 2 ^ 32) (hcreate : treediskCreate below bino ninodes s₀ = .ok 0 s₁)
    (hlog : logRpb = 0 ∨ logRpb = logRpbLoop 32 0) (ops : List TreediskOp)
    (hops : ∀ op ∈ ops, op.OffsetOk) {h : ℕ × TreediskState σ}
    (hrun : runOps (treediskInit logRpb below bino) ops s₁ = .ok h s₂) {ino off : ℕ}
    (hi : ino < (A.view s₁ 0).nInodeblocks * inodesPerBlock) (hoff : off < 2 ^ 32) :
    ∃ s₃, treediskRead h.1 h.2 ino off s₂ = .ok
      (if ∃ o ∈ offsetsWritten ops ino, off ≤ o then (0, (lastWrite ops ino off).getD nullBlock)
        else (-1, nullBlock)) s₃ := by
  have hfresh : (A.view s₀ 0).nInodeblocks = 0 := by
    rw [hzero, Block.nInodeblocks, Block.word_nullBlock]
  have hopen := open_of_create A hinv hfresh hn hn32 hcreate hlog
  obtain ⟨rfl, hinv2, ⟨N, heads, hrep⟩, -, hsize, -⟩ := wp_ok (runOps_spec A ops hopen hops) hrun
  rw [Nat.mul_comm] at hi
  obtain ⟨r, s₃, hread, -, -, rfl⟩ := wp_returns (treediskRead_spec A hinv2 hrep hsize hi hoff)
  refine ⟨s₃, hread.trans ?_⟩
  rw [← readResult_filesAfter hi ops, filesAfter]

/-- Inode 3 grows to two levels of indirect blocks, and its first block is written twice; inode 5
starts with one level. In between, the disk is created and opened once more. -/
def growingOps : List TreediskOp :=
  [.write 3 0 (nullBlock.setWord 0 7), .write 3 1 (nullBlock.setWord 0 8), .create 100, .init,
    .write 5 1 (nullBlock.setWord 0 9), .write 3 128 (nullBlock.setWord 0 10),
    .write 3 0 (nullBlock.setWord 0 11)]

theorem offsetOk_growingOps : ∀ op ∈ growingOps, op.OffsetOk := by
  simp [growingOps, TreediskOp.OffsetOk]

/-- These calls return on a disk of twelve blocks. -/
theorem run_growing :
    ∃ (s₁ s₂ : Disk) (h : ℕ × TreediskState Disk),
      treediskCreate (arrayStore 12) 0 1 (fun _ => nullBlock) = .ok 0 s₁ ∧
      runOps (treediskInit 0 (arrayStore 12) 0) growingOps s₁ = .ok h s₂ ∧
      (s₁ 0).nInodeblocks = 1 ∧ (s₂ 0).nInodeblocks = 1 ∧ nblocksOf s₂ 3 = 129 := by
  have hreturns : wp (treediskCreate (arrayStore 12) 0 1)
      (fun r s₁ => (r = 0 ∧ (s₁ 0).nInodeblocks = 1) ∧
        wp (runOps (treediskInit 0 (arrayStore 12) 0) growingOps)
          (fun _ s₂ => (s₂ 0).nInodeblocks = 1 ∧ nblocksOf s₂ 3 = 129) (fun _ _ => False) s₁)
      (fun _ _ => False) (fun _ => nullBlock) := by decide +kernel
  obtain ⟨r, s₁, hcreate, ⟨rfl, hs₁⟩, hrun⟩ := wp_returns hreturns
  obtain ⟨h, s₂, hrun, hs₂⟩ := wp_returns hrun
  exact ⟨s₁, s₂, h, hcreate, hrun, hs₁, hs₂⟩

/-- After this run, the last block written at an offset is read back, also two levels down, and
zeros are read from a hole. -/
theorem treedisk_refines_fileMap_growing :
    ∃ (s₁ s₂ : Disk) (h : ℕ × TreediskState Disk),
      treediskCreate (arrayStore 12) 0 1 (fun _ => nullBlock) = .ok 0 s₁ ∧
      runOps (treediskInit 0 (arrayStore 12) 0) growingOps s₁ = .ok h s₂ ∧
      (∃ s₃, treediskRead h.1 h.2 3 0 s₂ = .ok (0, nullBlock.setWord 0 11) s₃) ∧
      (∃ s₃, treediskRead h.1 h.2 3 128 s₂ = .ok (0, nullBlock.setWord 0 10) s₃) ∧
      (∃ s₃, treediskRead h.1 h.2 5 0 s₂ = .ok (0, nullBlock) s₃) ∧
      ∃ s₃, treediskRead h.1 h.2 5 2 s₂ = .ok (-1, nullBlock) s₃ := by
  obtain ⟨s₁, s₂, h, hcreate, hrun, hs₁, -⟩ := run_growing
  have hi {ino : ℕ} (hino : ino < 64) : ino < (s₁ 0).nInodeblocks * inodesPerBlock := by
    rw [hs₁]
    exact hino
  have hread {ino off : ℕ} (hino : ino < 64) (hoff : off < 2 ^ 32) :=
    treedisk_refines_fileMap (arrayStoreArray 0 12 (by norm_num)) trivial rfl (le_refl 1)
      (by norm_num) hcreate (Or.inl rfl) _ offsetOk_growingOps hrun (hi hino) hoff
  exact ⟨s₁, s₂, h, hcreate, hrun, hread (by norm_num) (by norm_num),
    hread (by norm_num) (by norm_num), hread (by norm_num) (by norm_num),
    hread (by norm_num) (by norm_num)⟩

end Egos.File
