import Egos.Common.Wp
import Egos.File.Block

/-!
# Inode stores

`inode_store_t` (`inode.h`) is a record of four methods over an internal state. A method can stop
the program (`panic` in `file.c`, `FATAL` elsewhere), so it runs in `StoreM`, which keeps the state
a panic stops in. Block numbers, inode numbers and sizes are unsigned 32-bit; results are `int`.
-/

namespace Egos.File

/-- Code over a store state `σ` that can panic with a message. -/
abbrev StoreM (σ : Type) : Type → Type := EStateM String σ

/-- `inode_store_t`. A method takes the inode number first; `read` returns its result and the
contents of the caller's buffer. -/
structure InodeStore (σ : Type) where
  getsize : ℕ → StoreM σ ℤ
  setsize : ℕ → ℕ → StoreM σ ℤ
  read : ℕ → ℕ → StoreM σ (ℤ × Block)
  write : ℕ → ℕ → Block → StoreM σ ℤ

/-- Inode `ino` of `store` behaves as an array of `nblocks` blocks: `view` is the array, `inv` holds
whenever the store is used, and a call with an index below `nblocks` reads or updates the array and
does not report an error. `fails` are the panics the store may end in; nothing is assumed of a call
with an index past the end. -/
structure BlockArray {σ : Type} (store : InodeStore σ) (ino nblocks : ℕ)
    (fails : String → σ → Prop) where
  inv : σ → Prop
  view : σ → ℕ → Block
  getsize_spec : ∀ s, inv s → wp (store.getsize ino)
    (fun r s' => r % 2 ^ 32 = nblocks ∧ inv s' ∧ view s' = view s) fails s
  read_spec : ∀ s off, inv s → off < nblocks → wp (store.read ino off)
    (fun r s' => 0 ≤ r.1 ∧ r.2 = view s off ∧ inv s' ∧ view s' = view s) fails s
  write_spec : ∀ s off b, inv s → off < nblocks → wp (store.write ino off b)
    (fun r s' => 0 ≤ r ∧ inv s' ∧ view s' = Function.update (view s) off b) fails s

/-- Inode `ino` of `store` is a block array whose calls always return. -/
abbrev TotalBlockArray {σ : Type} (store : InodeStore σ) (ino nblocks : ℕ) : Type :=
  BlockArray store ino nblocks (fun _ _ => False)

/-- The store that is an array of blocks: the `ramdisk` of `tools/mkfs.c` with `nblocks` blocks. -/
def arrayStore (nblocks : ℕ) : InodeStore (ℕ → Block) where
  getsize _ := pure nblocks
  setsize _ _ := throw "setsize"
  read _ off := fun s => .ok (0, s off) s
  write _ off b := fun s => .ok 0 (Function.update s off b)

/-- The array store behaves as a block array of its size, at every inode number. -/
def arrayStoreArray (ino nblocks : ℕ) (hn : nblocks < 2 ^ 32) :
    TotalBlockArray (arrayStore nblocks) ino nblocks where
  inv _ := True
  view s := s
  getsize_spec s _ := by
    have : ((nblocks : ℤ)) % 2 ^ 32 = nblocks := Int.emod_eq_of_lt (by omega) (by omega)
    simpa [arrayStore] using this
  read_spec s off _ _ := by simp [arrayStore, wp]
  write_spec s off b _ _ := by simp [arrayStore, wp]

end Egos.File
