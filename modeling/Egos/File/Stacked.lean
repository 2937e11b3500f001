import Egos.File.Sizes

/-!
# A treedisk in an inode of a treedisk

An inode of a treedisk behaves as an array of blocks as long as it is only written below its size,
whatever happens to the other inodes in the meantime: its holes fill up with blocks of the disk
below as they are written, and the array is none the wiser. So a second treedisk can be created in
it, and the results about a treedisk on a block array apply to both of them.
-/

namespace Egos.File

variable {σ : Type} {below : InodeStore σ} {bino nblocks nIb : ℕ} {fails : String → σ → Prop}

/-! ## One file among the others -/

/-- The files of `G`, with another file at inode `k`. -/
def FileMap.withFile (G : FileMap) (k size : ℕ) (blocks : ℕ → Block) : FileMap :=
  ⟨Function.update G.size k size, Function.update G.block k blocks⟩

/-- A file with its own blocks. -/
theorem FileMap.withFile_self (G : FileMap) (k : ℕ) : G.withFile k (G.size k) (G.block k) = G := by
  rw [withFile, Function.update_eq_self, Function.update_eq_self]

@[simp] theorem FileMap.withFile_size (G : FileMap) (k size : ℕ) (blocks : ℕ → Block) :
    (G.withFile k size blocks).size k = size := Function.update_self ..

@[simp] theorem FileMap.withFile_block (G : FileMap) (k size : ℕ) (blocks : ℕ → Block) :
    (G.withFile k size blocks).block k = blocks := Function.update_self ..

/-- A write below the size of the file changes its blocks only. -/
theorem FileMap.withFile_write {G : FileMap} {k size off : ℕ} {blocks : ℕ → Block} (b : Block)
    (hoff : off < size) : (G.withFile k size blocks).write k off b
      = G.withFile k size (Function.update blocks off b) := by
  simp only [withFile, write, setBlock, Function.update_self, Function.update_idem,
    max_eq_left (Nat.succ_le_of_lt hoff)]

/-- A write to another file. -/
theorem FileMap.withFile_write_ne {G : FileMap} {k size j : ℕ} {blocks : ℕ → Block} (off : ℕ)
    (b : Block) (hj : j ≠ k) : (G.withFile k size blocks).write j off b
      = (G.write j off b).withFile k size blocks := by
  simp only [withFile, write, setBlock, Function.update_of_ne hj, Function.update_comm hj]

/-- A read of another file. -/
theorem FileMap.withFile_read_ne {G : FileMap} {k size j : ℕ} {blocks : ℕ → Block} (off : ℕ)
    (hj : j ≠ k) : (G.withFile k size blocks).read j off = G.read j off := by
  simp only [read, withFile, Function.update_of_ne hj]

/-! ## The view of an inode -/

/-- What `treedisk_read` leaves in the buffer for each offset of inode `k`. -/
def inodeView (ts : TreediskState σ) (k : ℕ) (s : σ) : Disk := fun off =>
  match treediskRead 7 ts k off s with
  | .ok r _ => r.2
  | .error _ _ => nullBlock

/-- The blocks of a file, and null blocks past its end. -/
def clip (size : ℕ) (blocks : ℕ → Block) : Disk := fun off =>
  if off < size then blocks off else nullBlock

/-- A write within a file. -/
theorem clip_update {size off : ℕ} {blocks : ℕ → Block} (b : Block) (hoff : off < size) :
    clip size (Function.update blocks off b) = Function.update (clip size blocks) off b := by
  funext o
  by_cases ho : o = off
  · rw [ho, Function.update_self, clip, if_pos hoff, Function.update_self]
  · rw [Function.update_of_ne ho, clip, clip, Function.update_of_ne ho]

/-- A read past the end of the file returns `-1`. -/
theorem treediskRead_past_spec (A : BlockArray below bino nblocks fails) {s : σ} {F : FileMap}
    (hinv : A.inv s) (hstores : Stores nIb nblocks (A.view s) F) (hn : nIb < nblocks)
    {ino off : ℕ} (hi : ino < 64 * nIb) (hoff : F.size ino ≤ off) :
    wp (treediskRead 7 ⟨below, bino⟩ ino off)
      (fun r s' => A.inv s' ∧ A.view s' = A.view s ∧ r = (-1, nullBlock)) fails s := by
  obtain ⟨N, heads, hrep⟩ := hstores
  unfold treediskRead treediskReadInto
  refine wp_seq (treediskGetSnapshot_spec A hinv hrep.stored.layout.super hn ino) ?_
  rintro r s1 ⟨hinv1, hv1, rfl⟩
  rw [if_pos hi]
  have hsize : (A.view s (1 + ino / 64)).inodeNblocks (ino % 64) = F.size ino := hrep.size ino hi
  simp only [Snapshot.nblocks, hsize]
  rw [if_pos hoff, wp_pure]
  exact ⟨hinv1, hv1, rfl⟩

/-- The sizes of stored files are `unsigned`s. -/
theorem Stores.size_lt {D : Disk} {F : FileMap} (h : Stores nIb nblocks D F) {ino : ℕ}
    (hi : ino < 64 * nIb) : F.size ino < 2 ^ 32 := by
  obtain ⟨N, heads, hrep⟩ := h
  rw [← hrep.size ino hi]
  exact nblocksOf_lt _ _

/-- A read of a valid inode at any offset. -/
theorem treediskRead_clip_spec (A : BlockArray below bino nblocks fails) {s : σ} {F : FileMap}
    (hinv : A.inv s) (hstores : Stores nIb nblocks (A.view s) F) (hn : nIb < nblocks)
    {ino : ℕ} (hi : ino < 64 * nIb) (off : ℕ) :
    wp (treediskRead 7 ⟨below, bino⟩ ino off)
      (fun r s' => A.inv s' ∧ A.view s' = A.view s ∧ r.2 = clip (F.size ino) (F.block ino) off ∧
        (off < F.size ino → r.1 = 0)) fails s := by
  by_cases hoff : off < F.size ino
  · have hlt := hstores.size_lt hi
    obtain ⟨N, heads, hrep⟩ := hstores
    refine wp_mono (treediskRead_spec A hinv hrep hn hi (by omega)) ?_ fun _ _ h => h
    rintro r s1 ⟨hinv1, hv1, rfl⟩
    rw [FileMap.read, if_pos hoff, clip, if_pos hoff]
    exact ⟨hinv1, hv1, rfl, fun _ => rfl⟩
  · refine wp_mono (treediskRead_past_spec A hinv hstores hn hi (by omega)) ?_ fun _ _ h => h
    rintro r s1 ⟨hinv1, hv1, rfl⟩
    rw [clip, if_neg hoff]
    exact ⟨hinv1, hv1, rfl, fun h => absurd h hoff⟩

/-- What a store on a file sees of a disk that stores files. -/
theorem inodeView_eq (A : TotalBlockArray below bino nblocks) {s : σ} {F : FileMap}
    (hinv : A.inv s) (hstores : Stores nIb nblocks (A.view s) F) (hn : nIb < nblocks)
    {k : ℕ} (hk : k < 64 * nIb) :
    inodeView ⟨below, bino⟩ k s = clip (F.size k) (F.block k) := by
  funext off
  obtain ⟨r, s', hread, -, -, hr, -⟩ := wp_returns (treediskRead_clip_spec A hinv hstores hn hk off)
  rw [inodeView, hread]
  exact hr

/-! ## An inode as a block array -/

/-- What holds while inode `k` is used as an array of `size` blocks: the other files are those of
`G`. -/
structure HoldsInode (A : BlockArray below bino nblocks fails) (nIb k size : ℕ) (G : FileMap)
    (s : σ) : Prop where
  inv : A.inv s
  stores : ∃ blocks, Stores nIb nblocks (A.view s) (G.withFile k size blocks)

/-- What it sees of its own file. -/
theorem HoldsInode.view {A : TotalBlockArray below bino nblocks} {k size : ℕ} {G : FileMap}
    {s : σ} {blocks : ℕ → Block} (hinv : A.inv s)
    (hstores : Stores nIb nblocks (A.view s) (G.withFile k size blocks)) (hn : nIb < nblocks)
    (hk : k < 64 * nIb) : inodeView ⟨below, bino⟩ k s = clip size blocks := by
  rw [inodeView_eq A hinv hstores hn hk, FileMap.withFile_size, FileMap.withFile_block]

/-- Inode `k` of a treedisk is a block array. Writes may panic for lack of blocks. -/
def inodeArray (A : TotalBlockArray below bino nblocks) {k : ℕ} (hn : nIb < nblocks)
    (hsmall : nblocks ≤ 2 ^ 32) (hk : k < 64 * nIb) (size : ℕ) (G : FileMap) :
    BlockArray (treediskStore 7 ⟨below, bino⟩) k size (fun _ _ => True) where
  inv := HoldsInode A nIb k size G
  view := inodeView ⟨below, bino⟩ k
  getsize_spec s h := by
    obtain ⟨hinv, blocks, hstores⟩ := h
    have hlt := hstores.size_lt hk
    rw [FileMap.withFile_size] at hlt
    obtain ⟨N, heads, hrep⟩ := id hstores
    refine wp_mono (treediskGetsize_spec A hinv hrep hn hk) ?_ fun _ _ _ => trivial
    rintro r s1 ⟨hinv1, hv1, rfl⟩
    rw [← hv1] at hstores
    refine ⟨?_, ⟨hinv1, blocks, hstores⟩, ?_⟩
    · rw [FileMap.withFile_size]
      split <;> omega
    · rw [HoldsInode.view hinv1 hstores hn hk, HoldsInode.view hinv (hv1 ▸ hstores) hn hk]
  read_spec s off h hoff := by
    obtain ⟨hinv, blocks, hstores⟩ := h
    refine wp_mono (treediskRead_clip_spec A hinv hstores hn hk off) ?_ fun _ _ _ => trivial
    rintro r s1 ⟨hinv1, hv1, hr, hr0⟩
    have hview := HoldsInode.view hinv hstores hn hk
    rw [← hv1] at hstores
    refine ⟨(hr0 (by rwa [FileMap.withFile_size])).ge, ?_, ⟨hinv1, blocks, hstores⟩, ?_⟩
    · rw [hr, hview, FileMap.withFile_size, FileMap.withFile_block]
    · rw [HoldsInode.view hinv1 hstores hn hk, hview]
  write_spec s off b h hoff := by
    obtain ⟨hinv, blocks, hstores⟩ := h
    have hlt := hstores.size_lt hk
    rw [FileMap.withFile_size] at hlt
    have hview := HoldsInode.view hinv hstores hn hk
    obtain ⟨N, heads, hrep⟩ := hstores
    refine wp_mono (treediskWrite_spec A hinv hrep hn hsmall hk (by omega) b) ?_
      fun _ _ _ => trivial
    rintro r s1 ⟨rfl, hinv1, hstores1⟩
    rw [FileMap.withFile_write b hoff] at hstores1
    refine ⟨le_refl 0, ⟨hinv1, _, hstores1⟩, ?_⟩
    rw [HoldsInode.view hinv1 hstores1 hn hk, hview, clip_update b hoff]

/-! ## Reads return -/

/-- If the reads below return, so does `treedisk_read`. -/
theorem treediskRead_returns {I : σ → Prop} (hread : ∀ off s, I s →
      wp (below.read bino off) (fun _ s' => I s') (fun _ _ => False) s)
    (logRpb ino off : ℕ) {s : σ} (hs : I s) :
    wp (treediskRead logRpb ⟨below, bino⟩ ino off) (fun _ s' => I s') (fun _ _ => False) s := by
  have hwalk : ∀ n b s, I s → wp (readWalk ⟨below, bino⟩ logRpb off n b) (fun _ s' => I s')
      (fun _ _ => False) s := by
    intro n
    induction n with
    | zero =>
      intro b s hs
      rw [readWalk]
      split
      · exact hs
      · refine wp_seq (hread b s hs) fun r s1 hs1 => ?_
        dsimp only
        split <;> exact hs1
    | succ n ih =>
      intro b s hs
      rw [readWalk]
      split
      · exact hs
      · refine wp_seq (hread b s hs) fun r s1 hs1 => ?_
        dsimp only
        split
        · exact hs1
        · exact ih _ s1 hs1
  have hsnapshot : wp (treediskGetSnapshot ⟨below, bino⟩ ino) (fun _ s' => I s')
      (fun _ _ => False) s := by
    unfold treediskGetSnapshot
    refine wp_seq (hread 0 s hs) fun r s1 hs1 => ?_
    dsimp only
    split
    · exact hs1
    split
    · exact hs1
    refine wp_seq (hread _ s1 hs1) fun r s2 hs2 => ?_
    split <;> exact hs2
  unfold treediskRead treediskReadInto
  refine wp_seq hsnapshot fun r s1 hs1 => ?_
  cases r with
  | none => exact hs1
  | some sn =>
    dsimp only
    split
    · exact hs1
    · exact hwalk _ _ s1 hs1

/-! ## Two treedisks -/

/-- A call of the client of the upper treedisk, or of one of the lower. -/
inductive StackOp
  | upper (op : TreediskOp)
  | lower (op : TreediskOp)

/-- The stores that are open: the lower treedisk and the upper one. -/
structure Stack (σ : Type) where
  lower : ℕ × TreediskState σ
  upper : ℕ × TreediskState σ

/-- Run the calls on their stores. -/
def runStack : Stack σ → List StackOp → StoreM σ (Stack σ)
  | h, [] => return h
  | h, .upper op :: ops => do
    let upper ← runOp h.upper op
    runStack ⟨h.lower, upper⟩ ops
  | h, .lower op :: ops => do
    let lower ← runOp h.lower op
    runStack ⟨lower, h.upper⟩ ops

/-- The calls of the client of the upper treedisk. -/
def upperOps : List StackOp → List TreediskOp
  | [] => []
  | .upper op :: ops => op :: upperOps ops
  | .lower _ :: ops => upperOps ops

/-- The calls of the clients of the lower treedisk. -/
def lowerOps : List StackOp → List TreediskOp
  | [] => []
  | .upper _ :: ops => lowerOps ops
  | .lower op :: ops => op :: lowerOps ops

/-- The call does not write to inode `k`. -/
def TreediskOp.Spares (k : ℕ) : TreediskOp → Prop
  | .write ino _ _ => ino ≠ k
  | _ => True

/-- What the clients may do: no offset wraps, and the inode of the upper treedisk is left alone. -/
def StackOp.Ok (k : ℕ) : StackOp → Prop
  | .upper op => op.OffsetOk
  | .lower op => op.OffsetOk ∧ op.Spares k

/-- Operations on other files leave the file. -/
theorem FileMap.withFile_apply {G : FileMap} {k size ninodes : ℕ} {blocks : ℕ → Block}
    {op : TreediskOp} (hop : op.Spares k) :
    (G.withFile k size blocks).apply ninodes op = (G.apply ninodes op).withFile k size blocks := by
  cases op with
  | write ino off b =>
    simp only [FileMap.apply]
    split
    · exact withFile_write_ne off b hop
    · rfl
  | create n => rfl
  | init => rfl

section Stacked

variable (A : TotalBlockArray below bino nblocks) {k size nIbU : ℕ} (hn : nIb < nblocks)
  (hsmall : nblocks ≤ 2 ^ 32) (hk : k < 64 * nIb)

/-- What holds between the calls: the upper treedisk stores `F`, and the lower one `G` besides. -/
structure OpenStack (size nIbU : ℕ) (G F : FileMap) (h : Stack σ) (s : σ) : Prop where
  lower : h.lower = (7, ⟨below, bino⟩)
  upper : Open (inodeArray A hn hsmall hk size G) nIbU F h.upper s

variable {A hn hsmall hk}

/-- A call on the lower treedisk that spares inode `k` leaves the upper one as it is. -/
theorem OpenStack.runOp_lower {G F : FileMap} {h : Stack σ} {s : σ}
    (ho : OpenStack A hn hsmall hk size nIbU G F h s) {op : TreediskOp}
    (hoff : op.OffsetOk) (hop : op.Spares k) :
    wp (runOp h.lower op) (fun lower s' =>
        OpenStack A hn hsmall hk size nIbU (G.apply (64 * nIb) op) F ⟨lower, h.upper⟩ s')
      (fun _ _ => True) s := by
  obtain ⟨hlower, hhandle, ⟨hinv, blocks, hstores⟩, hupper, hpos, hsize, hsm⟩ := ho
  have hopen : Open A nIb (G.withFile k size blocks) h.lower s :=
    ⟨hlower, hinv, hstores, by omega, hn, hsmall⟩
  refine wp_mono (runOp_spec A hopen hoff) ?_ fun _ _ h => h
  rintro lower s' ⟨hlower', hinv', hstores', -⟩
  rw [FileMap.withFile_apply hop] at hstores'
  have hview : inodeView ⟨below, bino⟩ k s' = inodeView ⟨below, bino⟩ k s := by
    rw [HoldsInode.view hinv' hstores' hn hk, HoldsInode.view hinv hstores hn hk]
  refine ⟨hlower', hhandle, ⟨hinv', blocks, hstores'⟩, ?_, hpos, hsize, hsm⟩
  change Stores nIbU size (inodeView ⟨below, bino⟩ k s') F
  rw [hview]
  exact hupper

/-- A run of operations on both levels, by induction on the operations. -/
theorem OpenStack.run (ops : List StackOp) {G F : FileMap} {h : Stack σ} {s : σ}
    (ho : OpenStack A hn hsmall hk size nIbU G F h s) (hops : ∀ op ∈ ops, op.Ok k) :
    wp (runStack h ops) (fun h' s' =>
        OpenStack A hn hsmall hk size nIbU
          ((lowerOps ops).foldl (FileMap.apply (64 * nIb)) G)
          ((upperOps ops).foldl (FileMap.apply (64 * nIbU)) F) h' s')
      (fun _ _ => True) s := by
  induction ops generalizing G F h s with
  | nil => exact ho
  | cons op ops ih =>
    have hrest : ∀ op ∈ ops, op.Ok k := fun op hop => hops op (List.mem_cons_of_mem _ hop)
    have hop := hops op List.mem_cons_self
    cases op with
    | upper op =>
      rw [runStack]
      refine wp_seq (runOp_spec _ ho.upper hop) fun upper s' h' => ?_
      exact ih ⟨ho.lower, h'⟩ hrest
    | lower op =>
      rw [runStack]
      refine wp_seq (ho.runOp_lower hop.1 hop.2) fun lower s' h' => ?_
      exact ih h' hrest

/-- `treedisk_read` of the upper treedisk returns what it stores. -/
theorem OpenStack.read_upper {G F : FileMap} {h : Stack σ} {s : σ}
    (ho : OpenStack A hn hsmall hk size nIbU G F h s) {ino off : ℕ} (hi : ino < 64 * nIbU)
    (hoff : off < 2 ^ 32) :
    ∃ s', treediskRead h.upper.1 h.upper.2 ino off s = .ok (readResult (F.read ino off)) s' := by
  obtain ⟨-, hhandle, hinv, ⟨N, heads, hrep⟩, -, hsize, -⟩ := ho
  rw [hhandle]
  -- the array of the inode may panic, but not when it is read
  have hread : ∀ off s, HoldsInode A nIb k size G s →
      wp ((treediskStore 7 ⟨below, bino⟩).read k off)
        (fun _ s' => HoldsInode A nIb k size G s') (fun _ _ => False) s := by
    rintro off s ⟨hinv, blocks, hstores⟩
    refine wp_mono (treediskRead_clip_spec A hinv hstores hn hk off) ?_ fun _ _ h => h
    rintro r s' ⟨hinv', hv', -⟩
    exact ⟨hinv', blocks, hv' ▸ hstores⟩
  obtain ⟨r, s', hrun, -⟩ := wp_returns (treediskRead_returns hread 7 ino off hinv)
  obtain ⟨-, -, rfl⟩ := wp_ok (treediskRead_spec _ hinv hrep hsize hi hoff) hrun
  exact ⟨s', hrun⟩

/-- `treedisk_read` of an inode of the lower treedisk other than `k` returns what it stores. -/
theorem OpenStack.read_lower {G F : FileMap} {h : Stack σ} {s : σ}
    (ho : OpenStack A hn hsmall hk size nIbU G F h s) {j off : ℕ} (hj : j < 64 * nIb) (hjk : j ≠ k)
    (hoff : off < 2 ^ 32) :
    ∃ s', treediskRead h.lower.1 h.lower.2 j off s = .ok (readResult (G.read j off)) s' := by
  obtain ⟨hlower, -, ⟨hinv, blocks, N, heads, hrep⟩, -⟩ := ho
  obtain ⟨r, s', hrun, -, -, rfl⟩ := wp_returns (treediskRead_spec A hinv hrep hn hj hoff)
  refine ⟨s', ?_⟩
  rw [hlower, hrun, FileMap.withFile_read_ne off hjk]

/-- `treedisk_getsize` of inode `k`. -/
theorem OpenStack.getsize {G F : FileMap} {h : Stack σ} {s : σ}
    (ho : OpenStack A hn hsmall hk size nIbU G F h s) :
    ∃ s', treediskGetsize h.lower.2 k s
      = .ok (if size < 2 ^ 31 then (size : ℤ) else size - 2 ^ 32) s' := by
  obtain ⟨hlower, -, ⟨hinv, blocks, N, heads, hrep⟩, -⟩ := ho
  obtain ⟨r, s', hrun, -, -, rfl⟩ := wp_returns (treediskGetsize_spec A hinv hrep hn hk)
  refine ⟨s', ?_⟩
  rw [hlower, hrun, FileMap.withFile_size]

end Stacked

/-- A treedisk in an inode of a treedisk is a treedisk, and disturbs none of the other inodes: after
any run of calls on the two in which no offset wraps and the inode of the upper treedisk is not
written directly, both read as last written through them, and the inode has kept its size. -/
theorem treedisk_stacks (A : TotalBlockArray below bino nblocks) {s₀ s₁ s₂ s₃ s₄ t t' : σ}
    {ninodes logRpb : ℕ} (hinv : A.inv s₀) (hfresh : (A.view s₀ 0).nInodeblocks = 0)
    (hn : 1 ≤ ninodes) (hn32 : ninodes < 2 ^ 32)
    (hcreate : treediskCreate below bino ninodes s₀ = .ok 0 s₁)
    (hlog : logRpb = 0 ∨ logRpb = logRpbLoop 32 0) (before : List TreediskOp)
    (hbefore : ∀ op ∈ before, op.OffsetOk) {hT : ℕ × TreediskState σ}
    (hrun : runOps (treediskInit logRpb below bino) before s₁ = .ok hT s₂) {k : ℕ} {size : ℤ}
    (hk : k < (A.view s₁ 0).nInodeblocks * inodesPerBlock)
    (hsize : treediskGetsize hT.2 k s₂ = .ok size t)
    (hzero : treediskRead hT.1 hT.2 k 0 s₂ = .ok (0, nullBlock) t')
    {n : ℕ} (hn1 : 1 ≤ n) (hn2 : n < 2 ^ 32)
    (hupper : treediskCreate (treediskStore hT.1 hT.2) k n s₂ = .ok 0 s₃)
    (ops : List StackOp) (hops : ∀ op ∈ ops, op.Ok k) {h : Stack σ}
    (hstack : runStack ⟨hT, treediskInit hT.1 (treediskStore hT.1 hT.2) k⟩ ops s₃ = .ok h s₄) :
    (∀ ino off, ino < (n + inodesPerBlock - 1) / inodesPerBlock * inodesPerBlock → off < 2 ^ 32 →
      ∃ s₅, treediskRead h.upper.1 h.upper.2 ino off s₄ = .ok
        (if ∃ o ∈ offsetsWritten (upperOps ops) ino, off ≤ o then
          (0, (lastWrite (upperOps ops) ino off).getD nullBlock) else (-1, nullBlock)) s₅) ∧
    (∀ j off, j ≠ k → j < (A.view s₁ 0).nInodeblocks * inodesPerBlock → off < 2 ^ 32 →
      ∃ s₅, treediskRead h.lower.1 h.lower.2 j off s₄ = .ok
        (if ∃ o ∈ offsetsWritten (before ++ lowerOps ops) j, off ≤ o then
          (0, (lastWrite (before ++ lowerOps ops) j off).getD nullBlock) else (-1, nullBlock)) s₅) ∧
    ∃ s₅, treediskGetsize h.lower.2 k s₄ = .ok size s₅ := by
  have hopen := open_of_create A hinv hfresh hn hn32 hcreate hlog
  obtain ⟨rfl, hinv2, hstores, hpos, hsz, hsmall⟩ :=
    wp_ok (runOps_spec A before hopen hbefore) hrun
  rw [Nat.mul_comm] at hk
  set nIb := (A.view s₁ 0).nInodeblocks
  have hG : before.foldl (FileMap.apply (64 * nIb)) FileMap.empty
      = filesAfter (64 * nIb) before := rfl
  rw [hG] at hstores
  set G := filesAfter (64 * nIb) before with hGdef
  -- the inode as an array, at the moment the upper treedisk is created
  have hholds : HoldsInode A nIb k (G.size k) G s₂ :=
    ⟨hinv2, G.block k, by rwa [FileMap.withFile_self]⟩
  have hview : (inodeView ⟨below, bino⟩ k s₂ 0).nInodeblocks = 0 := by
    rw [inodeView, hzero]
    exact Block.word_nullBlock 0
  have hopenU : Open (inodeArray A hsz hsmall hk (G.size k) G) ((n + 63) / 64) FileMap.empty
      (treediskInit 7 (treediskStore 7 ⟨below, bino⟩) k) s₃ :=
    open_of_ninodes _ hholds hview hn1 hn2 hupper (Or.inr logRpbLoop_eq.symm)
  have hstart : OpenStack A hsz hsmall hk (G.size k) ((n + 63) / 64) G FileMap.empty
      ⟨(7, ⟨below, bino⟩), treediskInit 7 (treediskStore 7 ⟨below, bino⟩) k⟩ s₃ := ⟨rfl, hopenU⟩
  have hend := wp_ok (OpenStack.run ops hstart hops) hstack
  refine ⟨fun ino off hi hoff => ?_, fun j off hjk hj hoff => ?_, ?_⟩
  · rw [Nat.mul_comm] at hi
    obtain ⟨s₅, hread⟩ := hend.read_upper hi hoff
    exact ⟨s₅, hread.trans (congrArg (EStateM.Result.ok · s₅) (readResult_filesAfter hi _ off))⟩
  · rw [Nat.mul_comm] at hj
    obtain ⟨s₅, hread⟩ := hend.read_lower hj hjk hoff
    refine ⟨s₅, hread.trans ?_⟩
    rw [← readResult_filesAfter hj, hGdef, filesAfter, filesAfter, List.foldl_append]
  · obtain ⟨N, heads, hrep⟩ := hstores
    obtain ⟨-, -, rfl⟩ := wp_ok (treediskGetsize_spec A hinv2 hrep hsz hk) hsize
    exact hend.getsize

set_option synthInstance.maxSize 1000 in
set_option maxRecDepth 4000 in
/-- A disk of 130 blocks whose inode 1 holds a treedisk of as many blocks: a block written to the
upper treedisk, and then one to the lower, both read back. -/
theorem treedisk_stacks_writes :
    ∃ (s₁ s₂ s₃ s₄ s₅ s₆ : Disk) (hT : ℕ × TreediskState Disk) (h : Stack Disk),
      treediskCreate (arrayStore 130) 0 1 (fun _ => nullBlock) = .ok 0 s₁ ∧
      runOps (treediskInit 0 (arrayStore 130) 0) [.write 1 129 nullBlock] s₁ = .ok hT s₂ ∧
      treediskCreate (treediskStore hT.1 hT.2) 1 1 s₂ = .ok 0 s₃ ∧
      runStack ⟨hT, treediskInit hT.1 (treediskStore hT.1 hT.2) 1⟩
        [.upper (.write 5 0 (nullBlock.setWord 0 7)), .lower (.write 0 0 (nullBlock.setWord 0 9))]
        s₃ = .ok h s₄ ∧
      treediskRead h.upper.1 h.upper.2 5 0 s₄ = .ok (0, nullBlock.setWord 0 7) s₅ ∧
      treediskRead h.lower.1 h.lower.2 0 0 s₄ = .ok (0, nullBlock.setWord 0 9) s₆ := by
  have hreturns : wp (treediskCreate (arrayStore 130) 0 1)
      (fun r s₁ => (r = 0 ∧ (s₁ 0).nInodeblocks = 1) ∧
        wp (runOps (treediskInit 0 (arrayStore 130) 0) [.write 1 129 nullBlock])
          (fun hT s₂ =>
            wp (treediskGetsize hT.2 1) (fun r _ => r = 130) (fun _ _ => False) s₂ ∧
            wp (treediskRead hT.1 hT.2 1 0) (fun r _ => r.1 = 0 ∧ ∀ j, r.2 j = 0)
              (fun _ _ => False) s₂ ∧
            wp (treediskCreate (treediskStore hT.1 hT.2) 1 1)
              (fun r s₃ => r = 0 ∧
                wp (runStack ⟨hT, treediskInit hT.1 (treediskStore hT.1 hT.2) 1⟩
                    [.upper (.write 5 0 (nullBlock.setWord 0 7)),
                      .lower (.write 0 0 (nullBlock.setWord 0 9))])
                  (fun _ _ => True) (fun _ _ => False) s₃)
              (fun _ _ => False) s₂)
          (fun _ _ => False) s₁)
      (fun _ _ => False) (fun _ => nullBlock) := by decide +kernel
  obtain ⟨_, s₁, hcreate, ⟨rfl, hs₁⟩, hreturns⟩ := wp_returns hreturns
  obtain ⟨hT, s₂, hrun, hsize, hzero, hreturns⟩ := wp_returns hreturns
  obtain ⟨_, t, hsize, rfl⟩ := wp_returns hsize
  obtain ⟨⟨_, b⟩, t', hzero, rfl, hb⟩ := wp_returns hzero
  obtain rfl : b = nullBlock := funext hb
  obtain ⟨_, s₃, hupper, rfl, hreturns⟩ := wp_returns hreturns
  obtain ⟨h, s₄, hstack, -⟩ := wp_returns hreturns
  have hninodes : (s₁ 0).nInodeblocks * inodesPerBlock = 64 := by rw [hs₁, one_mul]
  obtain ⟨hread, hread', -⟩ := treedisk_stacks (arrayStoreArray 0 130 (by norm_num)) trivial rfl
    (le_refl 1) (by norm_num) hcreate (Or.inl rfl) _ (by simp [TreediskOp.OffsetOk]) hrun
    (by rw [arrayStoreArray, hninodes]; norm_num) hsize hzero (le_refl 1) (by norm_num) hupper _
    (by simp [StackOp.Ok, TreediskOp.OffsetOk, TreediskOp.Spares]) hstack
  obtain ⟨s₅, hread⟩ := hread 5 0 (by norm_num) (by norm_num)
  obtain ⟨s₆, hread'⟩ := hread' 0 0 (by norm_num) (by rw [arrayStoreArray, hninodes]; norm_num)
    (by norm_num)
  exact ⟨s₁, s₂, s₃, s₄, s₅, s₆, hT, h, hcreate, hrun, hupper, hstack, hread, hread'⟩

set_option synthInstance.maxSize 1000 in
set_option maxRecDepth 4000 in
/-- A disk of 130 blocks whose inode 1 holds a treedisk of three blocks: a block written to inode 0
at the last offset cannot be read, since the size wraps to 0. -/
theorem treedisk_stacks_wraps :
    ∃ (s₁ s₂ t t' s₃ s₄ s₅ : Disk) (hT : ℕ × TreediskState Disk) (b : Block),
      treediskCreate (arrayStore 130) 0 1 (fun _ => nullBlock) = .ok 0 s₁ ∧
      runOps (treediskInit 0 (arrayStore 130) 0) [.write 1 2 nullBlock] s₁ = .ok hT s₂ ∧
      treediskGetsize hT.2 1 s₂ = .ok 3 t ∧
      treediskRead hT.1 hT.2 1 0 s₂ = .ok (0, nullBlock) t' ∧
      treediskCreate (treediskStore hT.1 hT.2) 1 1 s₂ = .ok 0 s₃ ∧
      treediskWrite hT.1 hT.2 0 (2 ^ 32 - 1) nullBlock s₃ = .ok 0 s₄ ∧
      treediskRead hT.1 hT.2 0 (2 ^ 32 - 1) s₄ = .ok (-1, b) s₅ := by
  have hreturns : wp (treediskCreate (arrayStore 130) 0 1)
      (fun r s₁ => r = 0 ∧
        wp (runOps (treediskInit 0 (arrayStore 130) 0) [.write 1 2 nullBlock])
          (fun hT s₂ =>
            wp (treediskGetsize hT.2 1) (fun r _ => r = 3) (fun _ _ => False) s₂ ∧
            wp (treediskRead hT.1 hT.2 1 0) (fun r _ => r.1 = 0 ∧ ∀ j, r.2 j = 0)
              (fun _ _ => False) s₂ ∧
            wp (treediskCreate (treediskStore hT.1 hT.2) 1 1)
              (fun r s₃ => r = 0 ∧
                wp (treediskWrite hT.1 hT.2 0 (2 ^ 32 - 1) nullBlock)
                  (fun r s₄ => r = 0 ∧
                    wp (treediskRead hT.1 hT.2 0 (2 ^ 32 - 1)) (fun r _ => r.1 = -1)
                      (fun _ _ => False) s₄)
                  (fun _ _ => False) s₃)
              (fun _ _ => False) s₂)
          (fun _ _ => False) s₁)
      (fun _ _ => False) (fun _ => nullBlock) := by decide +kernel
  obtain ⟨_, s₁, hcreate, rfl, hreturns⟩ := wp_returns hreturns
  obtain ⟨hT, s₂, hrun, hsize, hzero, hreturns⟩ := wp_returns hreturns
  obtain ⟨_, t, hsize, rfl⟩ := wp_returns hsize
  obtain ⟨⟨_, b⟩, t', hzero, rfl, hb⟩ := wp_returns hzero
  obtain rfl : b = nullBlock := funext hb
  obtain ⟨_, s₃, hupper, rfl, hreturns⟩ := wp_returns hreturns
  obtain ⟨_, s₄, hwrite, rfl, hreturns⟩ := wp_returns hreturns
  obtain ⟨⟨_, b⟩, s₅, hread, rfl⟩ := wp_returns hreturns
  exact ⟨s₁, s₂, t, t', s₃, s₄, s₅, hT, b, hcreate, hrun, hsize, hzero, hupper, hwrite, hread⟩

end Egos.File
