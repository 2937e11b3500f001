import Egos.File.TreediskRead

/-!
# Writing a treedisk

A write changes several blocks, and what is on the disk in between is not always what the program
means: the indirect blocks of `growLevels` hang below a root that is only in the snapshot, and a
freshly linked indirect block holds stale bytes until its first reference is stored. The proofs
therefore follow the disk with one block replaced by its copy in memory, the inode block in
`growLevels_spec` and the parent block in `writeWalk_spec`: that disk stores the files at all times.

When the free list runs out, `LeftFull` says what the panic leaves on the disk itself.
-/

namespace Egos.File

variable {σ : Type} {below : InodeStore σ} {bino nblocks : ℕ} {fails : String → σ → Prop}
variable {nIb : ℕ} {D : Disk} {lv : ℕ → ℕ} {N : Pos → ℕ} {heads : List ℕ} {limbo : ℕ → Prop}
  {F : FileMap}

/-! ## Allocation -/

/-- The message of a panic for lack of free blocks. -/
def fullMsg : String := "treedisk_alloc_block: inode store is full\n"

/-- A write that is checked returns with the block replaced. -/
theorem writeOrPanic_spec (A : BlockArray below bino nblocks fails) {s : σ} {off : ℕ}
    (b : Block) (msg : String) (hinv : A.inv s) (hoff : off < nblocks) :
    wp (writeOrPanic below bino off b msg)
      (fun _ s' => A.inv s' ∧ A.view s' = Function.update (A.view s) off b) fails s := by
  unfold writeOrPanic
  refine wp_seq (A.write_spec s off b hinv hoff) ?_
  rintro r s' ⟨h0, hinv', hv⟩
  rw [if_neg (by omega), wp_pure]
  exact ⟨hinv', hv⟩

/-- A nonempty free list starts with a free-list block. -/
theorem FreeListOk.head_mem (h : FreeListOk D heads) (hne : (D 0).freeList ≠ 0) :
    (D 0).freeList ∈ heads := by
  have hc := h.chain
  generalize (D 0).freeList = f at hc hne
  cases hc with
  | nil => exact absurd rfl hne
  | cons _ _ => exact List.mem_cons_self

/-- `treedisk_alloc_block` pops the free list, or panics and changes nothing when it is empty. -/
theorem treediskAllocBlock_spec (A : BlockArray below bino nblocks fails) {s : σ} {sn : Snapshot}
    (hinv : A.inv s) (hsn : sn.superblock = A.view s 0) (hfree : FreeListOk (A.view s) heads)
    (hrange : ∀ b, OnFreeList (A.view s) heads b → b < nblocks) :
    wp (treediskAllocBlock ⟨below, bino⟩ sn)
      (fun r s' => (A.view s 0).freeList ≠ 0 ∧ A.inv s' ∧ A.view s' = (popFree (A.view s)).2 ∧
        r.1 = (popFree (A.view s)).1 ∧ r.2 = { sn with superblock := A.view s' 0 })
      (fun e s' => (e = fullMsg ∧ (A.view s 0).freeList = 0 ∧ s' = s) ∨ fails e s') s := by
  unfold treediskAllocBlock
  rw [hsn]
  dsimp only
  by_cases hz : (A.view s 0).freeList = 0
  · rw [if_pos hz, wp_throw]
    exact Or.inl ⟨rfl, hz, rfl⟩
  · have hlt := hrange _ (Or.inl (hfree.head_mem hz))
    rw [if_neg hz]
    refine wp_call (A.read_spec s _ hinv hlt) (fun e s' h => Or.inr h) ?_
    rintro ⟨r, blk⟩ s1 ⟨-, rfl, hinv1, hv1⟩
    simp only [popFree, show refsPerBlock - 1 = 127 from rfl]
    by_cases hi : scanRefs (A.view s (A.view s 0).freeList) 127 = 0
    · rw [if_pos hi, if_pos hi]
      refine wp_call (writeOrPanic_spec A _ _ hinv1 (by omega)) (fun e s' h => Or.inr h) ?_
      rintro - s2 ⟨hinv2, hv2⟩
      rw [wp_pure]
      refine ⟨hz, hinv2, ?_, rfl, ?_⟩
      · rw [hv2, hv1]
      · rw [hv2, Function.update_self]
    · rw [if_neg hi, if_neg hi]
      refine wp_call (writeOrPanic_spec A _ _ hinv1 hlt) (fun e s' h => Or.inr h) ?_
      rintro - s2 ⟨hinv2, hv2⟩
      rw [wp_pure]
      refine ⟨hz, hinv2, ?_, rfl, ?_⟩
      · rw [hv2, hv1]
      · rw [hv2, Function.update_of_ne (Ne.symm hz), hv1, ← hsn]

/-- A block that is not part of the free list may be replaced before or after a pop. -/
theorem popFree_update {P : ℕ} (B : Block) (h0 : P ≠ 0) (hP : P ≠ (D 0).freeList) :
    popFree (Function.update D P B) = ((popFree D).1, Function.update (popFree D).2 P B) := by
  simp only [popFree, Function.update_of_ne (Ne.symm h0), Function.update_of_ne (Ne.symm hP)]
  split
  · rw [Function.update_comm h0]
  · rw [Function.update_comm hP]

/-- The last block of the free list is a free-list block that holds null bytes only. -/
theorem popFree_last (hne : (D 0).freeList ≠ 0) (hlast : ((popFree D).2 0).freeList = 0) :
    (popFree D).2 (popFree D).1 = nullBlock := by
  rcases scanRefs_spec (D (D 0).freeList) 127 with ⟨h0, hz⟩ | ⟨h1, h2, h3⟩
  · simp only [popFree, h0, if_true] at hlast ⊢
    rw [Function.update_self, Block.freeList,
      Block.word_setWord_self _ (by omega) (Block.word_lt _ _)] at hlast
    rw [Function.update_of_ne hne]
    refine Block.eq_nullBlock fun i hi => ?_
    rcases Nat.eq_zero_or_pos i with rfl | hpos
    · exact hlast
    · exact hz i hpos (by omega)
  · simp only [popFree, if_neg (by omega : scanRefs (D (D 0).freeList) 127 ≠ 0),
      Function.update_of_ne (Ne.symm hne)] at hlast
    exact absurd hlast hne

/-! ## Popping and limbo in a stored file map -/

/-- A pop does not touch the inode blocks. -/
theorem PopSpec.inodeblock {D' : Disk} {heads' : List ℕ} {b : ℕ}
    (hp : PopSpec D D' heads heads' b) (h : Layout nIb nblocks D lv N heads limbo) {x : ℕ}
    (hx0 : x ≠ 0) (hx : x ≤ nIb) : D' x = D x :=
  hp.off x hx0 fun hmem => by
    have := h.head_gt hmem
    omega

/-- Taking a block from the free list leaves the files, and the block in limbo. -/
theorem Rep.pop (h : Rep nIb nblocks D F N heads limbo) (hne : (D 0).freeList ≠ 0) :
    ∃ heads', PopSpec D (popFree D).2 heads heads' (popFree D).1 ∧
      OnFreeList D heads (popFree D).1 ∧
      Rep nIb nblocks (popFree D).2 F N heads' (fun x => limbo x ∨ x = (popFree D).1) := by
  obtain ⟨heads', hp, hmem, hs⟩ := h.stored.pop hne
  refine ⟨heads', hp, hmem, hs, fun ino hi => ?_⟩
  have hle := inodeblock_le hi
  rw [nblocksOf, hp.inodeblock h.stored.layout (by omega) hle]
  exact h.size ino hi

/-- A block in limbo may be written to. -/
theorem Rep.update_limbo (h : Rep nIb nblocks D F N heads limbo) {b : ℕ} (x : Block)
    (hb : limbo b) : Rep nIb nblocks (Function.update D b x) F N heads limbo := by
  have hr := h.stored.layout.limbo_range b hb
  refine ⟨⟨h.stored.layout.update_limbo x hb, fun ino off => ?_⟩, fun ino hi => ?_⟩
  · rw [← h.stored.content ino off]
    unfold leafBlock
    split
    · rfl
    · rw [Function.update_of_ne (h.stored.layout.limbo_not_node b hb _)]
  · rw [nblocksOf_update x hr.1 hi]
    exact h.size ino hi

/-- Taking a block off the free list and out of limbo again leaves limbo as it was. -/
theorem Layout.limbo_cancel (h : Layout nIb nblocks D lv N heads limbo) {b : ℕ}
    (hb : OnFreeList D heads b) : (fun y => (limbo y ∨ y = b) ∧ y ≠ b) = limbo := by
  funext y
  refine propext ⟨?_, fun hy => ⟨Or.inl hy, ?_⟩⟩
  · rintro ⟨hy | hy, hne⟩
    · exact hy
    · exact absurd hy hne
  · rintro rfl
    exact h.limbo_not_free y hy hb

/-! ## Positions that a write adds -/

/-- `N'` has the blocks of `N`, and other blocks just at the positions `new`. -/
structure Extends (N N' : Pos → ℕ) (new : Pos → Prop) : Prop where
  keeps : ∀ p, N p ≠ 0 → N' p = N p
  ne_zero_iff : ∀ p, N' p ≠ 0 ↔ N p ≠ 0 ∨ new p

/-- Nothing is added. -/
theorem Extends.refl (N : Pos → ℕ) : Extends N N fun _ => False :=
  ⟨fun _ _ => rfl, fun _ => (or_false _).symm.to_iff⟩

/-- One block is added, at a position that was a hole. -/
theorem Extends.update {p : Pos} {b : ℕ} (hp : N p = 0) (hb : b ≠ 0) :
    Extends N (Function.update N p b) (· = p) := by
  refine ⟨fun q hq => Function.update_of_ne (fun he : q = p => hq (he ▸ hp)) _ _, fun q => ?_⟩
  by_cases hq : q = p
  · rw [hq, Function.update_self]
    exact iff_of_true hb (.inr rfl)
  · rw [Function.update_of_ne hq]
    exact ⟨.inl, fun h => h.resolve_right hq⟩

/-- What is added by one and then another. -/
theorem Extends.trans {N' N'' : Pos → ℕ} {new new' : Pos → Prop} (h : Extends N N' new)
    (h' : Extends N' N'' new') : Extends N N'' fun p => new p ∨ new' p := by
  refine ⟨fun p hp => ?_, fun p => ?_⟩
  · rw [h'.keeps p (by rwa [h.keeps p hp]), h.keeps p hp]
  · rw [h'.ne_zero_iff, h.ne_zero_iff, or_assoc]

/-- Only holes can be new. -/
theorem Extends.congr {N' : Pos → ℕ} {new new' : Pos → Prop} (h : Extends N N' new)
    (hnew : ∀ p, N p = 0 → (new p ↔ new' p)) : Extends N N' new' := by
  refine ⟨h.keeps, fun p => ?_⟩
  rw [h.ne_zero_iff]
  by_cases hp : N p = 0
  · rw [hnew p hp]
  · exact iff_of_true (.inl hp) (.inl hp)

open Classical in
/-- Blocks can be added at any positions. -/
theorem exists_extends (N : Pos → ℕ) (new : Pos → Prop) : ∃ N', Extends N N' new := by
  refine ⟨fun p => if N p ≠ 0 then N p else if new p then 1 else 0, fun p hp => if_pos hp, ?_⟩
  intro p
  by_cases hp : N p = 0 <;> by_cases hnew : new p <;> simp [hp, hnew]

/-- The positions of `n` blocks that are inserted above a root at level `lo`. -/
def Inserted (ino lo n : ℕ) (p : Pos) : Prop :=
  p.ino = ino ∧ p.index = 0 ∧ lo < p.level ∧ p.level ≤ lo + n

/-- The positions on the way from level `ℓ` to an offset. -/
def OnPath (ino off ℓ : ℕ) (p : Pos) : Prop :=
  p.ino = ino ∧ p.level ≤ ℓ ∧ p.index = off / 128 ^ p.level

/-- How many of the positions on the way from level `ℓ` to an offset are holes. -/
def holes (N : Pos → ℕ) (ino off : ℕ) : ℕ → ℕ
  | 0 => if N ⟨ino, 0, off / 128 ^ 0⟩ = 0 then 1 else 0
  | ℓ + 1 => holes N ino off ℓ + if N ⟨ino, ℓ + 1, off / 128 ^ (ℓ + 1)⟩ = 0 then 1 else 0

/-- The holes below a position do not depend on it. -/
theorem holes_update {ino off ℓ : ℕ} {p : Pos} (b : ℕ) (hp : ℓ < p.level) :
    holes (Function.update N p b) ino off ℓ = holes N ino off ℓ := by
  have hne {j k : ℕ} (hj : j ≤ ℓ) : (⟨ino, j, k⟩ : Pos) ≠ p := by
    rintro rfl
    exact absurd hp (by simpa using hj)
  induction ℓ with
  | zero => rw [holes, holes, Function.update_of_ne (hne le_rfl)]
  | succ ℓ ih =>
    rw [holes, holes, Function.update_of_ne (hne le_rfl),
      ih (Nat.lt_of_succ_lt hp) fun hj => hne (Nat.le_succ_of_le hj)]

/-! ## Growing a tree -/

/-- What a write that runs out of blocks leaves on the disk: every block of every file, with files
no shorter than before. Blocks that were taken and not linked stay in limbo. -/
def LeftFull (nIb nblocks : ℕ) (F : FileMap) (D : Disk) : Prop :=
  (D 0).freeList = 0 ∧ ∃ F' N heads limbo, Rep nIb nblocks D F' N heads limbo ∧
    F'.block = F.block ∧ ∀ j, F.size j ≤ F'.size j

/-- The panics of a write: out of blocks, or a panic of the store below. -/
def WritePanics (A : BlockArray below bino nblocks fails) (nIb : ℕ) (F : FileMap)
    (e : String) (s : σ) : Prop :=
  (e = fullMsg ∧ A.inv s ∧ LeftFull nIb nblocks F (A.view s)) ∨ fails e s

/-- The same, where a panic for lack of free blocks says that they were too few. -/
def PanicsWhen (A : BlockArray below bino nblocks fails) (nIb : ℕ) (F : FileMap) (few : Prop)
    (e : String) (s : σ) : Prop :=
  (e = fullMsg ∧ few ∧ A.inv s ∧ LeftFull nIb nblocks F (A.view s)) ∨ fails e s

/-- A panic under a condition is one under a weaker condition. -/
theorem PanicsWhen.mono {A : BlockArray below bino nblocks fails} {few few' : Prop} {e : String}
    {s : σ} (h : PanicsWhen A nIb F few e s) (hfew : few → few') : PanicsWhen A nIb F few' e s :=
  h.imp_left fun ⟨he, hf, hrest⟩ => ⟨he, hfew hf, hrest⟩

/-- It is one of the panics of `treedisk_write`. -/
theorem PanicsWhen.writePanics {A : BlockArray below bino nblocks fails} {few : Prop} {e : String}
    {s : σ} (h : PanicsWhen A nIb F few e s) : WritePanics A nIb F e s :=
  h.imp_left fun ⟨he, _, hrest⟩ => ⟨he, hrest⟩

/-- A disk that still stores `F` is fit to be left by a panic. -/
theorem Rep.leftFull (h : Rep nIb nblocks D F N heads limbo) (hz : (D 0).freeList = 0) :
    LeftFull nIb nblocks F D :=
  ⟨hz, F, N, heads, limbo, h, rfl, fun _ => le_refl _⟩

/-- The state of `growLevels`: the disk still stores the old files, and with the inode block of the
snapshot it stores the same blocks in trees with `lv` levels, at the positions `N`, and inodes with
sizes `sz`. There are `k` free blocks. -/
structure Growing (nIb nblocks : ℕ) (F : FileMap) (ino : ℕ) (D : Disk) (sn : Snapshot)
    (lv sz : ℕ → ℕ) (limbo : ℕ → Prop) (N : Pos → ℕ) (k : ℕ) : Prop where
  superblock : sn.superblock = D 0
  inodeBlockno : sn.inodeBlockno = 1 + ino / 64
  inode : sn.inode = ino % 64
  old : ∃ N heads limbo, Rep nIb nblocks D F N heads limbo
  new : ∃ heads, Stored nIb nblocks (Function.update D (1 + ino / 64) sn.inodeblock) lv N heads
    limbo F.block ∧ freeCount (Function.update D (1 + ino / 64) sn.inodeblock) heads = k
  size : ∀ j, j < 64 * nIb →
    nblocksOf (Function.update D (1 + ino / 64) sn.inodeblock) j = sz j

/-- There is nothing above the root of a tree. -/
theorem Forest.hole_above (h : Forest nIb D lv N) {ino ℓ k : ℕ} (hℓ : lv ino < ℓ) :
    N ⟨ino, ℓ, k⟩ = 0 := by
  by_contra hne
  have := (h.inside _ hne).2
  simp only at this
  omega

/-- One block is inserted above the root. -/
theorem inserted_one {ino lo : ℕ} {p : Pos} : Inserted ino lo 1 p ↔ p = ⟨ino, lo + 1, 0⟩ := by
  obtain ⟨j, ℓ, k⟩ := p
  simp only [Inserted, Pos.mk.injEq]
  omega

/-- An empty free list has no blocks. -/
theorem Growing.count_eq_zero {ino k : ℕ} {sn : Snapshot} {sz : ℕ → ℕ}
    (h : Growing nIb nblocks F ino D sn lv sz limbo N k) (hz : (D 0).freeList = 0) : k = 0 := by
  obtain ⟨heads, hnew, hk⟩ := h.new
  have hfree := hnew.layout.free
  rw [FreeListOk, Function.update_of_ne (by omega), hz] at hfree
  rw [← hk, hfree.freeCount_eq_zero]

/-- One round of `growLevels`: an allocated block `b` is written as the new root. -/
theorem Growing.step {ino k : ℕ} {sn : Snapshot} {sz : ℕ → ℕ}
    (h : Growing nIb nblocks F ino D sn lv sz limbo N k) (hi : ino < 64 * nIb)
    (hn : nblocks ≤ 2 ^ 32) (hne : (D 0).freeList ≠ 0) :
    (popFree D).1 < nblocks ∧
    Extends N (Function.update N ⟨ino, lv ino + 1, 0⟩ (popFree D).1) (Inserted ino (lv ino) 1) ∧
    ∃ k', k = k' + 1 ∧ Growing nIb nblocks F ino
      (Function.update (popFree D).2 (popFree D).1 (nullBlock.setWord 0 sn.root))
      (({ sn with superblock := (popFree D).2 0 } : Snapshot).setRoot (popFree D).1)
      (Function.update lv ino (lv ino + 1)) sz limbo
      (Function.update N ⟨ino, lv ino + 1, 0⟩ (popFree D).1) k' := by
  obtain ⟨N₀, heads₀, limbo₀, hold⟩ := h.old
  obtain ⟨heads₁, hnew, hk⟩ := h.new
  have hle := inodeblock_le hi
  obtain ⟨heads₀', hp₀, hmem₀, hold'⟩ := hold.pop hne
  have hb := hold.stored.layout.free_range _ hmem₀
  have hfl : 1 + ino / 64 ≠ (D 0).freeList := by
    have := hold.stored.layout.head_gt (hold.stored.layout.free.head_mem hne)
    omega
  set b := (popFree D).1 with hbdef
  set D₁ := (popFree D).2 with hD₁
  set P := 1 + ino / 64 with hP
  have hbP : b ≠ P := by omega
  have hcomm := popFree_update sn.inodeblock (by omega) hfl
  rw [← hbdef, ← hD₁] at hcomm
  have hne' : (Function.update D P sn.inodeblock 0).freeList ≠ 0 := by
    rw [Function.update_of_ne (by omega)]
    exact hne
  obtain ⟨heads₁', hp₁, hmem₁, hnew'⟩ := hnew.pop hne'
  rw [hcomm] at hp₁ hmem₁ hnew'
  simp only at hp₁ hmem₁ hnew'
  have hroot : rootOf (Function.update D₁ P sn.inodeblock) ino = sn.root := by
    rw [rootOf, Snapshot.root, ← hP, Function.update_self, h.inode]
  have hgrow := hnew'.grow (Or.inr rfl) (by omega) hi
  rw [hroot, hnew.layout.limbo_cancel hmem₁] at hgrow
  -- the disk with the new inode block, in the two orders of its updates
  have hdisk : setRootOf (Function.update (Function.update D₁ P sn.inodeblock) b
        (nullBlock.setWord 0 sn.root)) ino b
      = Function.update (Function.update D₁ b (nullBlock.setWord 0 sn.root)) P
          (sn.inodeblock.setWord (2 * sn.inode) b) := by
    rw [setRootOf, ← hP, Function.update_of_ne (Ne.symm hbP), Function.update_self,
      Function.update_comm hbP.symm, Function.update_idem, h.inode]
  rw [hdisk] at hgrow
  have h0b : (Function.update D₁ b (nullBlock.setWord 0 sn.root)) 0 = D₁ 0 :=
    Function.update_of_ne (by omega) _ _
  have hhole : N ⟨ino, lv ino + 1, 0⟩ = 0 := hnew.layout.forest.hole_above (Nat.lt_succ_self _)
  have hadded := Extends.update hhole (by omega : b ≠ 0)
  have hcount := hp₁.freeCount_eq fun x hx => (hnew.layout.free_range x hx).2
  rw [hk] at hcount
  refine ⟨hb.2, hadded.congr fun p _ => inserted_one.symm, _, hcount, ?_, h.inodeBlockno, h.inode,
    ?_, ?_, ?_⟩
  · rw [h0b]
    rfl
  · exact ⟨N₀, heads₀', _, hold'.update_limbo _ (Or.inr rfl)⟩
  · refine ⟨heads₁', hgrow, freeCount_congr fun y hy => ?_⟩
    have hyP : y ≠ P := by
      have := hgrow.layout.head_gt hy
      omega
    have hyb : y ≠ b := fun he => hp₁.not_mem (.inl (he ▸ hy))
    rw [Function.update_of_ne hyP, Function.update_of_ne hyP, Function.update_of_ne hyb]
  · intro j hj
    have hjle := inodeblock_le hj
    have hjb : 1 + j / 64 ≠ b := by omega
    rw [← h.size j hj, nblocksOf, nblocksOf]
    by_cases hjP : 1 + j / 64 = P
    · rw [hjP, Function.update_self, Function.update_self]
      exact Block.word_setWord_ne _ _ (by omega)
    · rw [Function.update_of_ne hjP, Function.update_of_ne hjP, Function.update_of_ne hjb,
        hp₀.inodeblock hold.stored.layout (by omega) hjle]

/-- The loop that inserts `n` indirect blocks. -/
theorem growLevels_spec (A : BlockArray below bino nblocks fails) {ino : ℕ} {sz : ℕ → ℕ}
    (hi : ino < 64 * nIb) (hn : nblocks ≤ 2 ^ 32) :
    ∀ (n : ℕ) (s : σ) (sn : Snapshot) (lv : ℕ → ℕ) (N : Pos → ℕ) (k : ℕ), A.inv s →
      Growing nIb nblocks F ino (A.view s) sn lv sz limbo N k →
      wp (growLevels ⟨below, bino⟩ n sn)
        (fun sn' s' => A.inv s' ∧ ∃ N' k', k = k' + n ∧
          Extends N N' (Inserted ino (lv ino) n) ∧
          Growing nIb nblocks F ino (A.view s') sn' (Function.update lv ino (lv ino + n)) sz limbo
            N' k')
        (PanicsWhen A nIb F (k < n)) s := by
  intro n
  induction n with
  | zero =>
    intro s sn lv N k hinv h
    rw [growLevels, wp_pure, Nat.add_zero, Function.update_eq_self]
    refine ⟨hinv, N, k, rfl, (Extends.refl N).congr fun p _ => ⟨False.elim, ?_⟩, h⟩
    rintro ⟨-, -, hlt, hle⟩
    omega
  | succ n ih =>
    intro s sn lv N k hinv h
    obtain ⟨N₀, heads, limbo', hold⟩ := h.old
    rw [growLevels]
    refine wp_call (treediskAllocBlock_spec A hinv h.superblock hold.stored.layout.free
      fun b hb => (hold.stored.layout.free_range b hb).2) ?_ ?_
    · rintro e s' (⟨rfl, hz, rfl⟩ | he)
      · have hk := h.count_eq_zero hz
        exact Or.inl ⟨rfl, by omega, hinv, hold.leftFull hz⟩
      · exact Or.inr he
    rintro ⟨b, sn1⟩ s1 ⟨hne, hinv1, hv1, rfl, rfl⟩
    obtain ⟨hb, hadded, k', rfl, hstep⟩ := h.step hi hn hne
    refine wp_call (writeOrPanic_spec A _ _ hinv1 hb) (fun e s' he => Or.inr he) ?_
    rintro - s2 ⟨hinv2, hv2⟩
    have hroot : ({ sn with superblock := A.view s1 0 } : Snapshot).root = sn.root := rfl
    rw [← hv1, ← hroot, ← hv2] at hstep
    have hrec := ih s2 _ _ _ _ hinv2 hstep
    rw [Function.update_self, Function.update_idem,
      show lv ino + 1 + n = lv ino + (n + 1) by omega] at hrec
    refine wp_mono hrec ?_ fun e s' he => he.mono fun hlt => by omega
    rintro sn' s' ⟨hinv', N', k'', rfl, hadded', hgrowing⟩
    refine ⟨hinv', N', k'', rfl, (hadded.trans hadded').congr fun p _ => ?_, hgrowing⟩
    simp only [Inserted]
    omega

/-! ## Walking to the data block -/

/-- The state of `writeWalk`: with `B` at the parent block `P` the disk stores `F`, and the parent
block on the disk is `B` or has just been linked and not been written yet. -/
structure Walking (nIb nblocks : ℕ) (F : FileMap) (D : Disk) (P : ℕ) (B : Block) (N : Pos → ℕ)
    (heads : List ℕ) (limbo : ℕ → Prop) : Prop where
  rep : Rep nIb nblocks (Function.update D P B) F N heads limbo
  sync : D P = B ∨ (B = nullBlock ∧ ((D 0).freeList = 0 → D P = nullBlock))

/-- Where the parent's copy has a reference, the disk has it too. -/
theorem Walking.rep_of_ref {P idx : ℕ} {B : Block} (h : Walking nIb nblocks F D P B N heads limbo)
    (hw : B.word idx ≠ 0) : Rep nIb nblocks D F N heads limbo := by
  have hr := h.rep
  rcases h.sync with hs | ⟨rfl, -⟩
  · rwa [← hs, Function.update_eq_self] at hr
  · rw [Block.word_nullBlock] at hw
    exact absurd rfl hw

/-- Once the free list is empty, the disk stores the files as it is. -/
theorem Walking.rep_of_full {P : ℕ} {B : Block} (h : Walking nIb nblocks F D P B N heads limbo)
    (hz : (D 0).freeList = 0) : Rep nIb nblocks D F N heads limbo := by
  have hDP : D P = B := by
    rcases h.sync with hs | ⟨hB, hs⟩
    · exact hs
    · rw [hs hz, hB]
  have hr := h.rep
  rwa [← hDP, Function.update_eq_self] at hr

/-- The step of `writeWalk` at a hole: a popped block is linked with contents `x`. -/
theorem Walking.attach {p : Pos} {P idx : ℕ} {B : Block}
    (h : Walking nIb nblocks F D P B N heads limbo)
    (hs : Slot nIb (fun j => levels (F.size j)) N p P idx) (hhole : N p = 0)
    (hn : nblocks ≤ 2 ^ 32) (hne : (D 0).freeList ≠ 0) :
    nIb < (popFree D).1 ∧ (popFree D).1 < nblocks ∧ (popFree D).1 ≠ P ∧ ∃ heads',
      freeCount D heads = freeCount
        (Function.update (popFree D).2 P (B.setWord idx (popFree D).1)) heads' + 1 ∧
      ∀ x, (1 ≤ p.level → x = nullBlock) → Rep nIb nblocks
        (Function.update (Function.update (popFree D).2 P (B.setWord idx (popFree D).1))
          (popFree D).1 x)
        ⟨F.size, if p.level = 0 then FileMap.setBlock F.block p.ino p.index x else F.block⟩
        (Function.update N p (popFree D).1) heads' limbo := by
  obtain ⟨hP0, -, hPl, hPh, -⟩ := hs.block_ne h.rep.stored.layout
  have h0 : Function.update D P B 0 = D 0 := Function.update_of_ne (Ne.symm hP0) _ _
  have hfl : P ≠ (D 0).freeList := by
    intro he
    have hmem := h.rep.stored.layout.free.head_mem (by rw [h0]; exact hne)
    rw [h0, ← he] at hmem
    exact hPh hmem
  have hcomm := popFree_update B hP0 hfl
  obtain ⟨heads', hp, hmem, hpop⟩ := h.rep.pop (by rw [h0]; exact hne)
  rw [hcomm] at hp hmem hpop
  simp only at hp hmem hpop
  have hr := h.rep.stored.layout.free_range _ hmem
  have hlim : ¬ limbo (popFree D).1 := fun hl => h.rep.stored.layout.limbo_not_free _ hl hmem
  obtain ⟨-, -, hPl', hPh', -⟩ := hs.block_ne hpop.stored.layout
  have hbP : (popFree D).1 ≠ P := fun he => hPl' (Or.inr he.symm)
  have hcount := hp.freeCount_eq fun x hx => (h.rep.stored.layout.free_range x hx).2
  have hoffP {D : Disk} {heads : List ℕ} (B B' : Block) (hP : P ∉ heads) :
      freeCount (Function.update D P B) heads = freeCount (Function.update D P B') heads := by
    refine freeCount_congr fun x hx => ?_
    have hxP : x ≠ P := fun he => hP (he ▸ hx)
    rw [Function.update_of_ne hxP, Function.update_of_ne hxP]
  rw [hoffP B (D P) hPh, Function.update_eq_self,
    hoffP B (B.setWord idx (popFree D).1) hPh'] at hcount
  refine ⟨hr.1, hr.2, hbP, heads', hcount, fun x hx => ?_⟩
  have hatt := hpop.stored.attach hs hhole (Or.inr rfl) (by omega) hx
  rw [Function.update_self, Function.update_idem,
    h.rep.stored.layout.limbo_cancel hmem] at hatt
  refine ⟨hatt, fun j hj => ?_⟩
  rw [nblocksOf_update x hr.1 hj, ← h.rep.size j hj]
  have hjle := inodeblock_le hj
  have hsame : (popFree D).2 (1 + j / 64) = D (1 + j / 64) ∨ 1 + j / 64 = P := by
    by_cases hjP : 1 + j / 64 = P
    · exact Or.inr hjP
    · have := hp.inodeblock h.rep.stored.layout (x := 1 + j / 64) (by omega) hjle
      rw [Function.update_of_ne hjP, Function.update_of_ne hjP] at this
      exact Or.inl this
  rw [nblocksOf, nblocksOf]
  by_cases hjP : 1 + j / 64 = P
  · rw [hjP, Function.update_self, Function.update_self]
    cases hs with
    | root hi => exact Block.word_setWord_ne _ _ (by omega)
    | node hℓ hne' =>
      have := (h.rep.stored.layout.node_range _ hne').1
      omega
  · rw [Function.update_of_ne hjP, Function.update_of_ne hjP, hsame.resolve_right hjP]

/-- Allocation in the walk: when it panics, the disk stores the files as it is. -/
theorem Walking.alloc_spec (A : BlockArray below bino nblocks fails) {s : σ} {sn : Snapshot}
    {p : Pos} {P idx : ℕ} {B : Block} {F₀ : FileMap} (hinv : A.inv s)
    (h : Walking nIb nblocks F (A.view s) P B N heads limbo)
    (hsn : sn.superblock = A.view s 0)
    (hs : Slot nIb (fun j => levels (F.size j)) N p P idx)
    (hblock : F.block = F₀.block) (hsize : ∀ j, F₀.size j ≤ F.size j) :
    wp (treediskAllocBlock ⟨below, bino⟩ sn)
      (fun r s' => (A.view s 0).freeList ≠ 0 ∧ A.inv s' ∧ A.view s' = (popFree (A.view s)).2 ∧
        r.1 = (popFree (A.view s)).1 ∧ r.2 = { sn with superblock := A.view s' 0 })
      (PanicsWhen A nIb F₀ (freeCount (A.view s) heads = 0)) s := by
  obtain ⟨hP0, -, -, hPh, -⟩ := hs.block_ne h.rep.stored.layout
  -- the parent block is not part of the free list, so the disk has the same free list
  have hsame : ∀ x ∈ heads, A.view s x = Function.update (A.view s) P B x := fun x hx =>
    (Function.update_of_ne (fun he : x = P => hPh (he ▸ hx)) _ _).symm
  have hsuper : (A.view s 0).freeList = (Function.update (A.view s) P B 0).freeList := by
    rw [Function.update_of_ne (Ne.symm hP0)]
  have hlay := h.rep.stored.layout
  refine wp_mono (treediskAllocBlock_spec A hinv hsn
    (hlay.free.congr hsuper hsame) fun b hb =>
      (hlay.free_range b ((onFreeList_congr hsame b).1 hb)).2) (fun _ _ h => h) ?_
  rintro e s' (⟨rfl, hz, rfl⟩ | he)
  · have hrep := h.rep_of_full hz
    have hfree := hrep.stored.layout.free
    rw [FreeListOk, hz] at hfree
    exact Or.inl ⟨rfl, hfree.freeCount_eq_zero, hinv, hz, F, N, heads, limbo, hrep, hblock, hsize⟩
  · exact Or.inr he

/-- Overwriting a data block. -/
theorem Rep.overwrite (h : Rep nIb nblocks D F N heads limbo) {ino off : ℕ} (x : Block)
    (hne : N ⟨ino, 0, off⟩ ≠ 0) :
    Rep nIb nblocks (Function.update D (N ⟨ino, 0, off⟩) x)
      ⟨F.size, FileMap.setBlock F.block ino off x⟩ N heads limbo := by
  refine ⟨h.stored.overwrite x hne, fun j hj => ?_⟩
  rw [nblocksOf_update x (h.stored.layout.node_range _ hne).1 hj]
  exact h.size j hj

/-- The slot of a position on the way to an offset, in the block of the position above. -/
theorem Slot.under {ino off ℓ : ℕ} (hℓ : ℓ < lv ino)
    (hne : N ⟨ino, ℓ + 1, off / 128 ^ (ℓ + 1)⟩ ≠ 0) :
    Slot nIb lv N ⟨ino, ℓ, off / 128 ^ ℓ⟩ (N ⟨ino, ℓ + 1, off / 128 ^ (ℓ + 1)⟩)
      (off / 128 ^ ℓ % 128) := by
  rw [div_pow_succ] at hne ⊢
  exact Slot.node hℓ hne

/-- What `writeWalk` promises: it returns a block number such that writing `x` there completes the
write of `x`. -/
def WalkDone (nIb nblocks : ℕ) (F : FileMap) (ino off : ℕ) (limbo : ℕ → Prop) (D : Disk)
    (b : ℕ) (N : Pos → ℕ) : Prop :=
  b < nblocks ∧ ∃ heads, ∀ x, Rep nIb nblocks (Function.update D b x)
    ⟨F.size, FileMap.setBlock F.block ino off x⟩ N heads limbo

/-- From level 0 the way is the data block alone. -/
theorem onPath_zero {ino off : ℕ} {p : Pos} : OnPath ino off 0 p ↔ p = ⟨ino, 0, off⟩ := by
  obtain ⟨j, ℓ, k⟩ := p
  simp only [OnPath, Pos.mk.injEq, Nat.le_zero]
  constructor
  · rintro ⟨rfl, rfl, rfl⟩
    simp
  · rintro ⟨rfl, rfl, rfl⟩
    simp

/-- The way from a level is its block there, and the way from the level below. -/
theorem onPath_succ {ino off ℓ : ℕ} {p : Pos} :
    OnPath ino off (ℓ + 1) p ↔ p = ⟨ino, ℓ + 1, off / 128 ^ (ℓ + 1)⟩ ∨ OnPath ino off ℓ p := by
  obtain ⟨j, m, k⟩ := p
  simp only [OnPath, Pos.mk.injEq, Nat.le_succ_iff]
  constructor
  · rintro ⟨rfl, hm | rfl, rfl⟩
    · exact .inr ⟨rfl, hm, rfl⟩
    · exact .inl ⟨rfl, rfl, rfl⟩
  · rintro (⟨rfl, rfl, rfl⟩ | ⟨rfl, hm, rfl⟩)
    · exact ⟨rfl, .inr rfl, rfl⟩
    · exact ⟨rfl, .inl hm, rfl⟩

/-- `writeWalk` from a slot on the way to the offset. -/
theorem writeWalk_spec (A : BlockArray below bino nblocks fails) {ino off : ℕ} {F₀ F : FileMap}
    (hoff : off < 2 ^ 32) (hn : nblocks ≤ 2 ^ 32) (hblock : F.block = F₀.block)
    (hsize : ∀ j, F₀.size j ≤ F.size j) :
    ∀ (ℓ : ℕ) (s : σ) (sn : Snapshot) (P : ℕ) (B : Block) (idx : ℕ) (N : Pos → ℕ)
      (heads : List ℕ), A.inv s → sn.superblock = A.view s 0 → P < nblocks →
      Walking nIb nblocks F (A.view s) P B N heads limbo →
      Slot nIb (fun j => levels (F.size j)) N ⟨ino, ℓ, off / 128 ^ ℓ⟩ P idx →
      ℓ ≤ levels (F.size ino) →
      wp (writeWalk ⟨below, bino⟩ 7 off ℓ sn P B idx)
        (fun b s' => A.inv s' ∧ ∃ N', WalkDone nIb nblocks F ino off limbo (A.view s') b N' ∧
          Extends N N' (OnPath ino off ℓ))
        (PanicsWhen A nIb F₀ (freeCount (A.view s) heads < holes N ino off ℓ)) s := by
  intro ℓ
  induction ℓ with
  | zero =>
    intro s sn P B idx N heads hinv hsn hP h hs hℓ
    have hword : B.word idx = N ⟨ino, 0, off / 128 ^ 0⟩ := by
      rw [← hs.word h.rep.stored.layout.forest, Function.update_self]
    rw [holes]
    rw [Nat.pow_zero, Nat.div_one] at hs hword ⊢
    rw [writeWalk]
    by_cases hz : B.word idx = 0
    · have hhole : N ⟨ino, 0, off⟩ = 0 := by rw [← hword, hz]
      rw [if_pos hz]
      refine wp_call (h.alloc_spec A hinv hsn hs hblock hsize)
        (fun e s' he => he.mono fun h0 => ?_) ?_
      · rw [h0, if_pos hhole]
        exact Nat.one_pos
      rintro ⟨b, sn1⟩ s1 ⟨hne, hinv1, hv1, rfl, -⟩
      obtain ⟨hb0, hb, -, heads', -, hrep⟩ := h.attach hs hhole hn hne
      refine wp_call (writeOrPanic_spec A _ _ hinv1 hP) (fun e s' he => Or.inr he) ?_
      rintro - s2 ⟨hinv2, hv2⟩
      rw [wp_pure]
      refine ⟨hinv2, Function.update N ⟨ino, 0, off⟩ (popFree (A.view s)).1,
        ⟨hb, heads', fun x => ?_⟩, (Extends.update hhole (by omega)).congr fun p _ =>
          onPath_zero.symm⟩
      rw [hv2, hv1]
      exact hrep x (by simp)
    · have hrep := h.rep_of_ref hz
      rw [if_neg hz]
      simp only [wp_pure]
      rw [hword] at hz ⊢
      refine ⟨hinv, N, ⟨(hrep.stored.layout.node_range _ hz).2, heads,
        fun x => hrep.overwrite x hz⟩, (Extends.refl N).congr fun p hp => ?_⟩
      rw [onPath_zero, false_iff]
      rintro rfl
      exact hz hp
  | succ ℓ ih =>
    intro s sn P B idx N heads hinv hsn hP h hs hℓ
    have hword : B.word idx = N ⟨ino, ℓ + 1, off / 128 ^ (ℓ + 1)⟩ := by
      rw [← hs.word h.rep.stored.layout.forest, Function.update_self]
    rw [writeWalk, holes]
    by_cases hz : B.word idx = 0
    · have hhole : N ⟨ino, ℓ + 1, off / 128 ^ (ℓ + 1)⟩ = 0 := by rw [← hword, hz]
      rw [if_pos hz, if_pos hhole]
      refine wp_call (h.alloc_spec A hinv hsn hs hblock hsize)
        (fun e s' he => he.mono fun h0 => by omega) ?_
      rintro ⟨b, sn1⟩ s1 ⟨hne, hinv1, hv1, rfl, rfl⟩
      obtain ⟨hb0, hb, hbP, heads', hcount, hrep⟩ := h.attach hs hhole hn hne
      have hP0 := (hs.block_ne h.rep.stored.layout).1
      refine wp_call (writeOrPanic_spec A _ _ hinv1 hP) (fun e s' he => Or.inr he) ?_
      rintro - s2 ⟨hinv2, hv2⟩
      have hs2 : A.view s1 0 = A.view s2 0 := by
        rw [hv2, Function.update_of_ne (Ne.symm hP0)]
      rw [← hv1, ← hv2] at hcount
      dsimp only
      rw [logShiftR_eq hoff]
      set b := (popFree (A.view s)).1 with hbdef
      set N' := Function.update N ⟨ino, ℓ + 1, off / 128 ^ (ℓ + 1)⟩ b with hN'
      have hNb : N' ⟨ino, ℓ + 1, off / 128 ^ (ℓ + 1)⟩ = b := Function.update_self _ _ _
      have hslot : Slot nIb (fun j => levels (F.size j)) N' ⟨ino, ℓ, off / 128 ^ ℓ⟩ b
          (off / 128 ^ ℓ % 128) := by
        have hslot : Slot nIb (fun j => levels (F.size j)) N' ⟨ino, ℓ, off / 128 ^ ℓ⟩
            (N' ⟨ino, ℓ + 1, off / 128 ^ (ℓ + 1)⟩) (off / 128 ^ ℓ % 128) :=
          Slot.under hℓ (by rw [hNb]; omega)
        rwa [hNb] at hslot
      have hholes : holes N' ino off ℓ = holes N ino off ℓ := holes_update b (Nat.lt_succ_self ℓ)
      have hrec := ih s2 { sn with superblock := A.view s1 0 } b nullBlock _ N' heads' hinv2 hs2 hb
        ⟨?_, Or.inr ⟨rfl, ?_⟩⟩ hslot (by omega)
      · refine wp_mono hrec ?_ fun e s' he => he.mono fun hlt => by omega
        rintro b' s' ⟨hinv', N'', hdone, hadded⟩
        have hnew := (Extends.update hhole (by omega : b ≠ 0)).trans hadded
        exact ⟨hinv', N'', hdone, hnew.congr fun p _ => onPath_succ.symm⟩
      · rw [hv2, hv1]
        exact hrep nullBlock fun _ => rfl
      · intro hlast
        rw [hv2, Function.update_of_ne hbP, hv1]
        rw [← hs2, hv1] at hlast
        exact popFree_last hne hlast
    · have hrep := h.rep_of_ref hz
      rw [hword] at hz
      have hb := (hrep.stored.layout.node_range _ hz).2
      rw [if_neg (by rw [hword]; exact hz), hword, if_neg hz, Nat.add_zero]
      refine wp_call (A.read_spec s _ hinv hb) (fun e s' he => Or.inr he) ?_
      rintro ⟨r, tib⟩ s1 ⟨h0, rfl, hinv1, hv1⟩
      simp only at h0 ⊢
      rw [if_neg (by omega), logShiftR_eq hoff, ← hv1]
      refine wp_mono (ih s1 sn _ _ _ N heads hinv1 (by rw [hv1]; exact hsn) hb
        ⟨?_, Or.inl rfl⟩ (Slot.under hℓ hz) (by omega)) ?_ fun _ _ he => he
      · rw [hv1, Function.update_eq_self]
        exact hrep
      · rintro b s' ⟨hinv', N', hdone, hadded⟩
        refine ⟨hinv', N', hdone, hadded.congr fun p hp => ?_⟩
        rw [onPath_succ, iff_or_self]
        rintro rfl
        exact absurd hp hz

/-! ## The whole write -/

/-- The end of `treedisk_write`, from an inode block on the disk that covers the offset: the walk
and the write of the data. -/
theorem writeWalk_data_spec (A : BlockArray below bino nblocks fails) {s : σ} {sn : Snapshot}
    {ino off : ℕ} {F₀ F : FileMap} (hoff : off < 2 ^ 32) (hn : nblocks ≤ 2 ^ 32)
    (hnIb : nIb < nblocks) (hi : ino < 64 * nIb) (hblock : F.block = F₀.block)
    (hsize : ∀ j, F₀.size j ≤ F.size j) (hcover : off < F.size ino) (hinv : A.inv s)
    (hrep : Rep nIb nblocks (A.view s) F N heads limbo)
    (hsn : sn = ⟨A.view s 0, A.view s (1 + ino / 64), 1 + ino / 64, ino % 64⟩) (blk : Block) :
    wp (do
        let b ← writeWalk ⟨below, bino⟩ 7 off (levels (F.size ino)) sn sn.inodeBlockno
          sn.inodeblock (2 * sn.inode)
        writeOrPanic below bino b blk "treedisk_write: data block"
        return (0 : ℤ))
      (fun r s' => r = 0 ∧ A.inv s' ∧ ∃ N' heads', Rep nIb nblocks (A.view s')
        ⟨F.size, FileMap.setBlock F.block ino off blk⟩ N' heads' limbo ∧
          Extends N N' (OnPath ino off (levels (F.size ino))))
      (PanicsWhen A nIb F₀
        (freeCount (A.view s) heads < holes N ino off (levels (F.size ino)))) s := by
  have hle := inodeblock_le hi
  have hslot : Slot nIb (fun j => levels (F.size j)) N
      ⟨ino, levels (F.size ino), off / 128 ^ levels (F.size ino)⟩ (1 + ino / 64)
      (2 * (ino % 64)) := by
    rw [div_levels hcover]
    exact .root hi
  subst hsn
  have hP : 1 + ino / 64 < nblocks := by omega
  have hwalk : Walking nIb nblocks F (A.view s) (1 + ino / 64) (A.view s (1 + ino / 64)) N heads
      limbo := by
    refine ⟨?_, Or.inl rfl⟩
    rw [Function.update_eq_self]
    exact hrep
  refine wp_seq (writeWalk_spec A hoff hn hblock hsize _ s _ _ _ _ N heads hinv rfl hP hwalk hslot
    (le_refl _)) ?_
  rintro b s1 ⟨hinv1, N', ⟨hb, heads', hdone⟩, hadded⟩
  refine wp_call (writeOrPanic_spec A _ _ hinv1 hb) (fun e s' he => Or.inr he) ?_
  rintro - s2 ⟨hinv2, hv2⟩
  rw [wp_pure]
  refine ⟨rfl, hinv2, N', heads', ?_, hadded⟩
  rw [hv2]
  exact hdone blk

/-- The size of an inode is set in the snapshot; no block has been inserted yet. -/
theorem Rep.growing (h : Rep nIb nblocks D F N heads limbo) {ino n : ℕ} (hi : ino < 64 * nIb)
    (hn : n < 2 ^ 32) :
    Growing nIb nblocks F ino D
      ((⟨D 0, D (1 + ino / 64), 1 + ino / 64, ino % 64⟩ : Snapshot).setNblocks n)
      (fun j => levels (F.size j)) (Function.update F.size ino n) limbo N (freeCount D heads) := by
  have hle := inodeblock_le hi
  refine ⟨rfl, rfl, rfl, ⟨N, heads, limbo, h⟩, ⟨heads, ⟨?_, ?_⟩, freeCount_congr fun x hx => ?_⟩,
    ?_⟩
  · exact h.stored.layout.setNblocksOf n hi
  · intro j o
    rw [← h.stored.content j o]
    unfold leafBlock
    split
    · rfl
    · rename_i hne
      have := (h.stored.layout.node_range _ hne).1
      exact Function.update_of_ne (by omega) _ _
  · have := h.stored.layout.head_gt hx
    exact Function.update_of_ne (by omega) _ _
  · intro j hj
    have : nblocksOf (setNblocksOf D ino _) j = _ := nblocksOf_setNblocksOf hn j
    rw [setNblocksOf] at this
    simp only [Snapshot.setNblocks, this]
    split
    · rename_i hji
      rw [hji, Function.update_self]
    · rename_i hji
      rw [Function.update_of_ne hji]
      exact h.size j hj

/-- The positions that a write adds: the blocks inserted above the root, and those on the way to the
offset. -/
def Added (ino off lo n : ℕ) (p : Pos) : Prop := Inserted ino lo n p ∨ OnPath ino off (lo + n) p

/-- The blocks that a write needs are more than there are. -/
def TooFew (N : Pos → ℕ) (k ino off lo n : ℕ) : Prop :=
  ∃ N', Extends N N' (Inserted ino lo n) ∧ k < n + holes N' ino off (lo + n)

/-- `treedisk_write` returns 0 with the block written, or panics. -/
theorem treediskWrite_nodes_spec (A : BlockArray below bino nblocks fails) {s : σ} (hinv : A.inv s)
    (hrep : Rep nIb nblocks (A.view s) F N heads limbo) (hnIb : nIb < nblocks)
    (hn : nblocks ≤ 2 ^ 32) {ino off : ℕ} (hi : ino < 64 * nIb) (hoff : off + 1 < 2 ^ 32)
    (blk : Block) :
    wp (treediskWrite 7 ⟨below, bino⟩ ino off blk)
      (fun r s' => r = 0 ∧ A.inv s' ∧
        ∃ N' heads', Rep nIb nblocks (A.view s') (F.write ino off blk) N' heads' limbo ∧
          Extends N N' (Added ino off (levels (F.size ino))
            (levels (max (F.size ino) (off + 1)) - levels (F.size ino))))
      (PanicsWhen A nIb F (TooFew N (freeCount (A.view s) heads) ino off (levels (F.size ino))
        (levels (max (F.size ino) (off + 1)) - levels (F.size ino)))) s := by
  have hle := inodeblock_le hi
  have hsize : (A.view s (1 + ino / 64)).inodeNblocks (ino % 64) = F.size ino := hrep.size ino hi
  have hlt : F.size ino < 2 ^ 32 := by
    rw [← hrep.size ino hi]
    exact nblocksOf_lt _ _
  unfold treediskWrite
  refine wp_call (treediskGetSnapshot_spec A hinv hrep.stored.layout.super hnIb ino)
    (fun e s' he => Or.inr he) ?_
  rintro r s1 ⟨hinv1, hv1, rfl⟩
  rw [if_pos hi]
  set sn : Snapshot := ⟨A.view s 0, A.view s (1 + ino / 64), 1 + ino / 64, ino % 64⟩ with hsn
  have hsn0 : sn.nblocks = F.size ino := hsize
  dsimp only
  rw [hsn0]
  by_cases hgrow : F.size ino ≤ off
  · -- the file grows: set the size, insert the missing levels, write the inode block
    set G : FileMap := ⟨Function.update F.size ino (off + 1), F.block⟩ with hG
    have hGino : G.size ino = off + 1 := Function.update_self _ _ _
    have hGle : ∀ j, F.size j ≤ G.size j := by
      intro j
      by_cases hj : j = ino
      · rw [hj, hGino]
        omega
      · exact le_of_eq (Function.update_of_ne hj _ _).symm
    have hGF : F.write ino off blk = ⟨G.size, FileMap.setBlock G.block ino off blk⟩ := by
      rw [FileMap.write, max_eq_right (by omega)]
    have hidx : 2 * (ino % 64) + 1 < 128 := by omega
    have hsn1 : (sn.setNblocks (off + 1)).nblocks = off + 1 :=
      Block.word_setWord_self _ hidx hoff
    have hlv : levels (F.size ino) ≤ levels (off + 1) := levels_mono (by omega)
    rw [max_eq_right (by omega : F.size ino ≤ off + 1)]
    simp only [decide_eq_true hgrow, if_true, Nat.mod_eq_of_lt hoff, hsn1, Bool.true_or,
      if_neg (Nat.succ_ne_zero off), nlevelsOf_eq hlt, levelsFor_eq (by omega : off < 2 ^ 32),
      max_eq_right hlv]
    have hstart := hrep.growing hi hoff
    rw [← hsn, ← hv1] at hstart
    have hlo := Nat.add_sub_cancel' hlv
    set lo := levels (F.size ino)
    set n := levels (off + 1) - lo
    refine wp_call (growLevels_spec A hi hn _ s1 _ _ _ _ hinv1 hstart)
      (fun e s' he => he.mono fun hfew => ?_) ?_
    · obtain ⟨N₁, hadded₁⟩ := exists_extends N (Inserted ino lo n)
      rw [← hv1]
      exact ⟨N₁, hadded₁, by omega⟩
    rintro sn2 s2 ⟨hinv2, N₁, k₁, hk, hadded₁, hg⟩
    have hP : sn2.inodeBlockno < nblocks := by
      rw [hg.inodeBlockno]
      omega
    refine wp_call (writeOrPanic_spec A _ _ hinv2 hP) (fun e s' he => Or.inr he) ?_
    rintro - s3 ⟨hinv3, hv3⟩
    obtain ⟨heads₁, hnew, hk₁⟩ := hg.new
    have hlvG : Function.update (fun j => levels (F.size j)) ino (lo + n)
        = fun j => levels (G.size j) := by
      funext j
      by_cases hj : j = ino
      · rw [hj, Function.update_self, hGino, hlo]
      · rw [Function.update_of_ne hj, hG]
        simp only [Function.update_of_ne hj]
    rw [hlvG] at hnew
    rw [hg.inodeBlockno] at hv3
    rw [← hv3] at hk₁ hnew
    have hrepG : Rep nIb nblocks (A.view s3) G N₁ heads₁ limbo := by
      refine ⟨hnew, ?_⟩
      rw [hv3]
      exact hg.size
    have hsn2 : sn2 = ⟨A.view s3 0, A.view s3 (1 + ino / 64), 1 + ino / 64, ino % 64⟩ := by
      rw [hv3, Function.update_self, Function.update_of_ne (by omega), ← hg.superblock,
        ← hg.inodeBlockno, ← hg.inode]
    have hcover : off < G.size ino := by omega
    have hGblock : G.block = F.block := rfl
    have hdata := writeWalk_data_spec A (by omega) hn hnIb hi hGblock hGle hcover hinv3 hrepG
      hsn2 blk
    rw [hGino, hk₁] at hdata
    rw [hGF]
    refine wp_mono hdata ?_ fun e s' he => he.mono fun hfew => ?_
    · rintro r' s' ⟨rfl, hinv', N', heads', hrep', hadded'⟩
      refine ⟨rfl, hinv', N', heads', hrep', ?_⟩
      rw [← hlo] at hadded'
      exact hadded₁.trans hadded'
    · refine ⟨N₁, hadded₁, ?_⟩
      rw [hlo, ← hv1, hk]
      omega
  · have hcover : off < F.size ino := by omega
    have hGF : F.write ino off blk = ⟨F.size, FileMap.setBlock F.block ino off blk⟩ := by
      rw [FileMap.write, max_eq_left (by omega), Function.update_eq_self]
    rw [max_eq_left (by omega : off + 1 ≤ F.size ino)]
    simp only [decide_eq_false hgrow, Bool.false_eq_true, if_false, Bool.false_or, hsn0,
      if_neg (by omega : F.size ino ≠ 0), Nat.sub_self, max_self, nlevelsOf_eq hlt, growLevels,
      pure_bind, gt_iff_lt, lt_self_iff_false, decide_false]
    rw [← hv1] at hrep hsn
    have hdata := writeWalk_data_spec A (by omega) hn hnIb hi rfl (fun _ => le_refl _) hcover
      hinv1 hrep hsn blk
    have hnone : Extends N N (Inserted ino (levels (F.size ino)) 0) := by
      refine (Extends.refl N).congr fun p _ => ⟨False.elim, ?_⟩
      rintro ⟨-, -, hlt, hle⟩
      omega
    rw [hGF]
    refine wp_mono hdata ?_ fun e s' he => he.mono fun hfew => ?_
    · rintro r' s' ⟨rfl, hinv', N', heads', hrep', hadded'⟩
      exact ⟨rfl, hinv', N', heads', hrep', hnone.trans hadded'⟩
    · refine ⟨N, hnone, ?_⟩
      rw [← hv1, Nat.zero_add]
      exact hfew

/-- `treedisk_write` returns 0 with the block written, or panics. -/
theorem treediskWrite_spec (A : BlockArray below bino nblocks fails) {s : σ} (hinv : A.inv s)
    (hrep : Rep nIb nblocks (A.view s) F N heads limbo) (hnIb : nIb < nblocks)
    (hn : nblocks ≤ 2 ^ 32) {ino off : ℕ} (hi : ino < 64 * nIb) (hoff : off + 1 < 2 ^ 32)
    (blk : Block) :
    wp (treediskWrite 7 ⟨below, bino⟩ ino off blk)
      (fun r s' => r = 0 ∧ A.inv s' ∧
        ∃ N' heads', Rep nIb nblocks (A.view s') (F.write ino off blk) N' heads' limbo)
      (WritePanics A nIb F) s := by
  refine wp_mono (treediskWrite_nodes_spec A hinv hrep hnIb hn hi hoff blk) ?_
    fun _ _ he => he.writePanics
  rintro r s' ⟨hr, hinv', N', heads', hrep', -⟩
  exact ⟨hr, hinv', N', heads', hrep'⟩

end Egos.File
