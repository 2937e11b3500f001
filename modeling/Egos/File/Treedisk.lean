import Egos.File.Inode

/-!
# The tree file system

Translation of `library/file/file.c`. A treedisk lives in one inode of the store below it: block 0
is the superblock, blocks `1 .. n_inodeblocks` hold the inodes, and every other block is a data
block, an indirect block or on the free list.

`log_rpb` is a static variable of `file.c` that `treedisk_init` sets once; it is passed explicitly.
The buffers of `struct treedisk_snapshot` are values here, and a C pointer into one of them
(`snapshot->inode`, `parent_no`) is the index of the word it points to.
-/

namespace Egos.File

variable {σ : Type}

/-! ## The records of `file.h` -/

namespace Block

/-- `superblock.n_inodeblocks`. -/
def nInodeblocks (b : Block) : ℕ := b.word 0

/-- `superblock.free_list`. -/
def freeList (b : Block) : ℕ := b.word 1

/-- `inodeblock.inodes[i].root`. -/
def inodeRoot (b : Block) (i : ℕ) : ℕ := b.word (2 * i)

/-- `inodeblock.inodes[i].nblocks`. -/
def inodeNblocks (b : Block) (i : ℕ) : ℕ := b.word (2 * i + 1)

end Block

/-- `struct treedisk_snapshot`; `inode` is the index of the inode in its inode block. -/
structure Snapshot where
  superblock : Block
  inodeblock : Block
  inodeBlockno : ℕ
  inode : ℕ

namespace Snapshot

/-- `snapshot->inode->root`. -/
def root (sn : Snapshot) : ℕ := sn.inodeblock.inodeRoot sn.inode

/-- `snapshot->inode->nblocks`. -/
def nblocks (sn : Snapshot) : ℕ := sn.inodeblock.inodeNblocks sn.inode

/-- `snapshot->inode->root = b`. -/
def setRoot (sn : Snapshot) (b : ℕ) : Snapshot :=
  { sn with inodeblock := sn.inodeblock.setWord (2 * sn.inode) b }

/-- `snapshot->inode->nblocks = n`. -/
def setNblocks (sn : Snapshot) (n : ℕ) : Snapshot :=
  { sn with inodeblock := sn.inodeblock.setWord (2 * sn.inode + 1) n }

end Snapshot

/-- `struct treedisk_state`. The `ninodes` field of the source is never read. -/
structure TreediskState (σ : Type) where
  below : InodeStore σ
  belowIno : ℕ

/-! ## Levels of the tree -/

/-- `log_shift_r`: a shift by the width of `block_no` or more gives 0. -/
def logShiftR (x nbits : ℕ) : ℕ := if nbits ≥ 32 then 0 else x >>> nbits

/-- The loop `while (log_shift_r(x, n * log_rpb) != 0) n++`, run for at most `fuel` rounds. -/
def countLevels (logRpb x : ℕ) : ℕ → ℕ → ℕ
  | 0, n => n
  | fuel + 1, n => if logShiftR x (n * logRpb) ≠ 0 then countLevels logRpb x fuel (n + 1) else n

/-- The number of levels of a tree whose largest offset is `x`. With `log_rpb ≥ 1` the shift reaches
the width of `block_no` within 32 rounds, so the loop ends by its own condition. -/
def levelsFor (logRpb x : ℕ) : ℕ := countLevels logRpb x 32 0

/-- `if (nblocks > 0) while (log_shift_r(nblocks - 1, nlevels * log_rpb) != 0) nlevels++`. -/
def nlevelsOf (logRpb nblocks : ℕ) : ℕ :=
  if nblocks > 0 then levelsFor logRpb (nblocks - 1) else 0

/-! ## Snapshots and allocation -/

/-- `treedisk_get_snapshot`; `none` is the result `-1`. -/
def treediskGetSnapshot (ts : TreediskState σ) (inodeNo : ℕ) : StoreM σ (Option Snapshot) := do
  let (r, superblock) ← ts.below.read ts.belowIno 0
  if r < 0 then return none
  if inodeNo ≥ superblock.nInodeblocks * inodesPerBlock then return none
  let inodeBlockno := 1 + inodeNo / inodesPerBlock
  let (r, inodeblock) ← ts.below.read ts.belowIno inodeBlockno
  if r < 0 then return none
  return some ⟨superblock, inodeblock, inodeBlockno, inodeNo % inodesPerBlock⟩

/-- The scan `for (i = REFS_PER_BLOCK; --i > 0;) if (refs[i] != 0) break;`, from index `i` down. -/
def scanRefs (b : Block) : ℕ → ℕ
  | 0 => 0
  | i + 1 => if b.word (i + 1) ≠ 0 then i + 1 else scanRefs b i

/-- The pattern `if ((*ts->below->write)(..., off, block) < 0) panic(msg)`. -/
def writeOrPanic (below : InodeStore σ) (belowIno off : ℕ) (block : Block) (msg : String) :
    StoreM σ Unit := do
  if (← below.write belowIno off block) < 0 then throw msg

/-- `treedisk_alloc_block`. The result of the read is not checked by the source. -/
def treediskAllocBlock (ts : TreediskState σ) (sn : Snapshot) : StoreM σ (ℕ × Snapshot) := do
  let b := sn.superblock.freeList
  if b = 0 then throw "treedisk_alloc_block: inode store is full\n"
  else
    let (_, freelistblock) ← ts.below.read ts.belowIno b
    let i := scanRefs freelistblock (refsPerBlock - 1)
    if i = 0 then
      -- no reference left: hand out the free-list block itself and move on to the next one
      let superblock := sn.superblock.setWord 1 (freelistblock.word 0)
      writeOrPanic ts.below ts.belowIno 0 superblock "treedisk_alloc_block: superblock"
      return (b, { sn with superblock })
    else
      writeOrPanic ts.below ts.belowIno b (freelistblock.setWord i 0)
        "treedisk_alloc_block: freelistblock"
      return (freelistblock.word i, sn)

/-! ## Reading -/

/-- `treedisk_getsize`: the unsigned field is returned as an `int`. -/
def treediskGetsize (ts : TreediskState σ) (ino : ℕ) : StoreM σ ℤ := do
  match ← treediskGetSnapshot ts ino with
  | none => return -1
  | some sn => return (if sn.nblocks < 2 ^ 31 then (sn.nblocks : ℤ) else sn.nblocks - 2 ^ 32)

/-- `treedisk_setsize`. -/
def treediskSetsize (_ : TreediskState σ) (_ino _nblocks : ℕ) : StoreM σ ℤ := return -1

/-- The walk of `treedisk_read` from block `b` with `nlevels` levels left. -/
def readWalk (ts : TreediskState σ) (logRpb offset : ℕ) : ℕ → ℕ → StoreM σ (ℤ × Block)
  | nlevels, b => do
    if b = 0 then return (0, nullBlock)
    let (result, block) ← ts.below.read ts.belowIno b
    if result < 0 then return (result, block)
    match nlevels with
    | 0 => return (0, block)
    | nlevels + 1 =>
      readWalk ts logRpb offset nlevels
        (block.word (logShiftR offset (nlevels * logRpb) % refsPerBlock))

/-- `treedisk_read` where the caller's buffer holds `block` before. -/
def treediskReadInto (logRpb : ℕ) (ts : TreediskState σ) (ino offset : ℕ) (block : Block) :
    StoreM σ (ℤ × Block) := do
  match ← treediskGetSnapshot ts ino with
  | none => return (-1, block)
  | some sn =>
    if offset ≥ sn.nblocks then return (-1, block)
    readWalk ts logRpb offset (nlevelsOf logRpb sn.nblocks) sn.root

/-- `treedisk_read` as an operation of a store, where a buffer that is not written is null bytes. -/
def treediskRead (logRpb : ℕ) (ts : TreediskState σ) (ino offset : ℕ) : StoreM σ (ℤ × Block) :=
  treediskReadInto logRpb ts ino offset nullBlock

/-! ## Writing -/

/-- The loop of `treedisk_write` that inserts `n` indirect blocks above the root. -/
def growLevels (ts : TreediskState σ) : ℕ → Snapshot → StoreM σ Snapshot
  | 0, sn => return sn
  | n + 1, sn => do
    let (indir, sn) ← treediskAllocBlock ts sn
    let tib := nullBlock.setWord 0 sn.root
    let sn := sn.setRoot indir
    writeOrPanic ts.below ts.belowIno indir tib "treedisk_write: indirect block"
    growLevels ts n sn

/-- The walk of `treedisk_write`: `parent_no` is word `idx` of `parentBlock`, which is to be written
back at `parentOff`. The result is the number of the data block. -/
def writeWalk (ts : TreediskState σ) (logRpb offset : ℕ) :
    ℕ → Snapshot → ℕ → Block → ℕ → StoreM σ ℕ
  | nlevels, sn, parentOff, parentBlock, idx => do
    if parentBlock.word idx = 0 then
      let (b, sn) ← treediskAllocBlock ts sn
      writeOrPanic ts.below ts.belowIno parentOff (parentBlock.setWord idx b)
        "treedisk_write: parent"
      match nlevels with
      | 0 => return b
      | nlevels + 1 =>
        writeWalk ts logRpb offset nlevels sn b nullBlock
          (logShiftR offset (nlevels * logRpb) % refsPerBlock)
    else
      let b := parentBlock.word idx
      match nlevels with
      | 0 => return b
      | nlevels + 1 =>
        let (r, tib) ← ts.below.read ts.belowIno b
        if r < 0 then throw "treedisk_write"
        else
          writeWalk ts logRpb offset nlevels sn b tib
            (logShiftR offset (nlevels * logRpb) % refsPerBlock)

/-- `treedisk_write`. `offset + 1` is computed in 32 bits. -/
def treediskWrite (logRpb : ℕ) (ts : TreediskState σ) (ino offset : ℕ) (block : Block) :
    StoreM σ ℤ := do
  match ← treediskGetSnapshot ts ino with
  | none => return -1
  | some sn =>
    let nlevels := nlevelsOf logRpb sn.nblocks
    let grows := decide (offset ≥ sn.nblocks)
    let sn := if grows then sn.setNblocks ((offset + 1) % 2 ^ 32) else sn
    let nlevelsAfter := if grows then levelsFor logRpb offset else nlevels
    -- `nlevels` is brought up to `nlevels_after`: by fiat for a size of 0, else block by block
    let missing := if sn.nblocks = 0 then 0 else nlevelsAfter - nlevels
    let nlevels := if sn.nblocks = 0 then nlevelsAfter else max nlevels nlevelsAfter
    let sn ← growLevels ts missing sn
    if grows || decide (missing > 0) then
      writeOrPanic ts.below ts.belowIno sn.inodeBlockno sn.inodeblock "treedisk_write: inode block"
    let b ← writeWalk ts logRpb offset nlevels sn sn.inodeBlockno sn.inodeblock (2 * sn.inode)
    writeOrPanic ts.below ts.belowIno b block "treedisk_write: data block"
    return 0

/-! ## Opening and creating -/

/-- The loop `do { log_rpb++; } while (((REFS_PER_BLOCK - 1) >> log_rpb) != 0)`, for at most `fuel`
rounds. -/
def logRpbLoop : ℕ → ℕ → ℕ
  | 0, n => n
  | fuel + 1, n => if (refsPerBlock - 1) >>> (n + 1) ≠ 0 then logRpbLoop fuel (n + 1) else n + 1

/-- `treedisk_init`: the new value of the static `log_rpb`, and the state of the opened store. -/
def treediskInit (logRpb : ℕ) (below : InodeStore σ) (belowIno : ℕ) : ℕ × TreediskState σ :=
  (if logRpb = 0 then logRpbLoop 32 0 else logRpb, ⟨below, belowIno⟩)

/-- The store interface that `treedisk_init` returns. -/
def treediskStore (logRpb : ℕ) (ts : TreediskState σ) : InodeStore σ where
  getsize := treediskGetsize ts
  setsize := treediskSetsize ts
  read := treediskRead logRpb ts
  write := treediskWrite logRpb ts

/-- The loop `for (i = 1; i < REFS_PER_BLOCK && next_free < nblocks; i++)` of `setup_freelist`, with
`room` indices left. Returns the data, `i` and `next_free`. -/
def fillRefs (nblocks : ℕ) : ℕ → ℕ → ℕ → Block → Block × ℕ × ℕ
  | 0, i, nextFree, data => (data, i, nextFree)
  | room + 1, i, nextFree, data =>
    if nextFree < nblocks then
      fillRefs nblocks room (i + 1) (nextFree + 1) (data.setWord i nextFree)
    else (data, i, nextFree)

/-- The loop `for (; i < REFS_PER_BLOCK; i++) freelist_data[i] = 0;`, with `room` indices left. -/
def clearRefs : ℕ → ℕ → Block → Block
  | 0, _, data => data
  | room + 1, i, data => clearRefs room (i + 1) (data.setWord i 0)

/-- The outer loop of `setup_freelist`; each round takes at least one block, so `fuel` rounds are
enough once `fuel ≥ nblocks - next_free`. -/
def setupFreelistLoop (below : InodeStore σ) (belowIno nblocks : ℕ) :
    ℕ → ℕ → ℕ → Block → StoreM σ ℕ
  | 0, _, freelistBlock, _ => return freelistBlock
  | fuel + 1, nextFree, freelistBlock, data => do
    if nextFree < nblocks then
      let data := data.setWord 0 freelistBlock
      let freelistBlock := nextFree
      let (data, i, nextFree) := fillRefs nblocks (refsPerBlock - 1) 1 (nextFree + 1) data
      let data := clearRefs (refsPerBlock - i) i data
      writeOrPanic below belowIno freelistBlock data "treedisk_setup_freelist"
      setupFreelistLoop below belowIno nblocks fuel nextFree freelistBlock data
    else return freelistBlock

/-- `setup_freelist`. The local array of the source is uninitialised; every round of the loop writes
all of its words. -/
def setupFreelist (below : InodeStore σ) (belowIno nextFree nblocks : ℕ) : StoreM σ ℕ :=
  setupFreelistLoop below belowIno nblocks (nblocks - nextFree) nextFree 0 nullBlock

/-- The loop of `treedisk_create` that clears `n` inode blocks from block `i` on; `false` when a
write reports an error. -/
def clearInodeblocks (below : InodeStore σ) (belowIno : ℕ) : ℕ → ℕ → StoreM σ Bool
  | 0, _ => return true
  | n + 1, i => do
    if (← below.write belowIno i nullBlock) < 0 then return false
    clearInodeblocks below belowIno n (i + 1)

/-- `treedisk_create`. The sum in `n_inodeblocks` is a `size_t`, so it does not wrap. -/
def treediskCreate (below : InodeStore σ) (belowIno ninodes : ℕ) : StoreM σ ℤ := do
  let nInodeblocks := (ninodes + inodesPerBlock - 1) / inodesPerBlock
  let nblocks := ((← below.getsize belowIno) % 2 ^ 32).toNat
  if nblocks < nInodeblocks + 2 then return -1
  let (r, superblock) ← below.read belowIno 0
  if r < 0 then return -1
  if superblock.nInodeblocks = 0 then
    let freeList ← setupFreelist below belowIno (nInodeblocks + 1) nblocks
    let superblock := (nullBlock.setWord 0 nInodeblocks).setWord 1 freeList
    if (← below.write belowIno 0 superblock) < 0 then return -1
    if ← clearInodeblocks below belowIno nInodeblocks 1 then return 0 else return -1
  else return 0

end Egos.File
