import Egos.Library.LoadApp

/-!
# The loader as a sequence of operations

What `load_app` does is fixed by the executable and the arguments: it maps pages, one after the
other, and writes to the page that it mapped last. Here these operations are listed, and `load_app`
is shown to perform them in turn. Where the operations are not done at one go, as when the reader of
the executable waits for another process, it is the list that is still done in its order.
-/

namespace Egos.Library

open Egos.Earth

/-- What the loader does to the memory of a process: it maps a page, or writes `n` bytes at offset
`off` of the last page. -/
inductive LoadOp
  | map (page : ℕ)
  | write (off n : ℕ) (bytes : ℕ → UInt8)

/-- An operation, with the last page at `base`. It returns where the last page is then. -/
def LoadOp.run (t : Translation) (pid : ℤ) (base : ℕ) : LoadOp → MmuM ℕ
  | .map page => mapNext t pid page
  | .write off n bytes => do
    modify fun s => { s with mem := s.mem.blit (base + off) n bytes }
    pure base

/-- Operations one after the other. -/
def runOps (t : Translation) (pid : ℤ) (base : ℕ) (ops : List LoadOp) : MmuM ℕ :=
  ops.foldlM (LoadOp.run t pid) base

/-! ## The operations of `load_app` -/

/-- Block `b` of the segment, on a new page if it is the first one there. -/
def blockOps (reader : Reader) (blockOffset b : ℕ) : List LoadOp :=
  (if 512 * b % 4096 = 0 then [.map (0x40027 + pagesFor b)] else []) ++
    [.write (512 * b % 4096) 512 (reader (((blockOffset + b : ℕ) : ℤ).bmod (2 ^ 32)))]

/-- The rest of the last page of the segment. -/
def clearOps (size : ℕ) : List LoadOp :=
  if size % 4096 ≠ 0 then [.write (size % 4096) (4096 - size % 4096) fun _ => 0] else []

/-- A page of zeros. -/
def zeroOps (page : ℕ) : List LoadOp := [.map page, .write 0 4096 fun _ => 0]

/-- The bytes of an integer. -/
def leBytes (w j : ℕ) : UInt8 := UInt8.ofNat (w / 256 ^ j)

/-- The address of argument `i`, behind `argc` and the pointers. -/
def argAddr (i : ℕ) : ℕ := appsArg + 132 + 32 * i

/-- The pointer to argument `i`. -/
def pointerOp (i : ℕ) : LoadOp := .write (4 + 8 * i) 8 (leBytes (argAddr i))

/-- The page with the arguments. -/
def argOps (argc : ℕ) (argv : Option (ℕ → UInt8)) : List LoadOp :=
  [.map 0x400FB, .write 0 4 (leBytes argc)] ++
    (argv.elim [] fun args => [.write 132 (argc * 32) args]) ++
    (List.range' 0 argc).map pointerOp

/-- The operations of `load_app`. -/
def appOps (reader : Reader) (argc : ℕ) (argv : Option (ℕ → UInt8)) (ph : ProgramHeader) :
    List LoadOp :=
  (List.range' 0 (blocksFor ph.pFilesz)).flatMap (blockOps reader (ph.pOffset / 512)) ++
    clearOps ph.pFilesz ++
    (List.range' (0x40027 + pagesFor (blocksFor ph.pFilesz))
      (4 - pagesFor (blocksFor ph.pFilesz))).flatMap zeroOps ++
    argOps argc argv ++ [.map 0x400FC]

section program

variable {t : Translation} {pid : ℤ} {reader : Reader} {ph : ProgramHeader} {argc base : ℕ}

/-- Some operations, and then others. -/
theorem runOps_append (ops ops' : List LoadOp) :
    runOps t pid base (ops ++ ops')
      = (do let base ← runOps t pid base ops; runOps t pid base ops') :=
  List.foldlM_append

/-- One operation, and then the others. -/
theorem runOps_cons (op : LoadOp) (ops : List LoadOp) :
    runOps t pid base (op :: ops) = (do let base ← op.run t pid base; runOps t pid base ops) :=
  List.foldlM_cons

theorem runOps_nil : runOps t pid base [] = pure base := rfl

/-- The operation that maps a page. -/
theorem runOps_map (page : ℕ) : runOps t pid base [.map page] = mapNext t pid page := by
  rw [runOps_cons]
  exact bind_pure _

/-- Writing keeps the last page. -/
theorem runOps_write {off n : ℕ} {bytes : ℕ → UInt8} (ops : List LoadOp) :
    runOps t pid base (.write off n bytes :: ops) = (do
      modify fun s => { s with mem := s.mem.blit (base + off) n bytes }
      runOps t pid base ops) := by
  rw [runOps_cons, LoadOp.run, bind_assoc]
  rfl

/-- The loop over the blocks of the segment, as operations. -/
theorem loadAppBlocks_eq (blockOffset : ℕ) (n b base : ℕ) :
    loadAppBlocks t pid reader n (blockOffset + b) (512 * b) (0x40027 + pagesFor b) base = (do
      let base ← runOps t pid base ((List.range' b n).flatMap (blockOps reader blockOffset))
      pure (0x40027 + pagesFor (b + n), base)) := by
  induction n generalizing b base with
  | zero => rfl
  | succ n ih =>
    have hread : ∀ base, (do
        modify (reader.read (blockOffset + b) (base + 512 * b % 4096))
        loadAppBlocks t pid reader n (blockOffset + b + 1) (512 * b + blockSize)
          (0x40027 + pagesFor (b + 1)) base) = (do
        let base ← runOps t pid base (.write (512 * b % 4096) 512
          (reader (((blockOffset + b : ℕ) : ℤ).bmod (2 ^ 32))) ::
            (List.range' (b + 1) n).flatMap (blockOps reader blockOffset))
        pure (0x40027 + pagesFor (b + (n + 1)), base)) := by
      intro base
      rw [runOps_write, bind_assoc, Nat.add_comm n 1, ← Nat.add_assoc b 1 n, ← ih (b + 1) base]
      rfl
    rw [loadAppBlocks, loadAppPage, List.range'_succ, List.flatMap_cons, blockOps]
    by_cases hfull : 512 * b % 4096 = 0
    · have hpages : 0x40027 + pagesFor b + 1 = 0x40027 + pagesFor (b + 1) := by
        unfold pagesFor
        omega
      rw [if_pos hfull, if_pos hfull, bind_assoc, List.append_assoc, List.singleton_append,
        List.singleton_append, runOps_cons, bind_assoc]
      refine congrArg (mapNext t pid (0x40027 + pagesFor b) >>= ·) (funext fun base => ?_)
      rw [pure_bind, hpages]
      exact hread base
    · have hpages : pagesFor b = pagesFor (b + 1) := by
        unfold pagesFor
        omega
      rw [if_neg hfull, if_neg hfull, pure_bind, List.nil_append, List.singleton_append, hpages]
      exact hread base

/-- The loop over the pages of zeros, as operations. -/
theorem loadAppZeros_eq (n page : ℕ) : loadAppZeros t pid n page = (do
    let _ ← runOps t pid base ((List.range' page n).flatMap zeroOps)
    pure ()) := by
  induction n generalizing page base with
  | zero => rfl
  | succ n ih =>
    rw [loadAppZeros, List.range'_succ, List.flatMap_cons, zeroOps, List.cons_append,
      List.singleton_append, runOps_cons, bind_assoc]
    refine congrArg (mapNext t pid page >>= ·) (funext fun base => ?_)
    rw [runOps_write, bind_assoc, ← ih]
    rfl

/-- The loop over the pointers to the arguments, as operations. -/
theorem loadAppArgv_eq (n i : ℕ) : (do loadAppArgv (base + 4) n i; pure base : MmuM ℕ)
    = runOps t pid base ((List.range' i n).map pointerOp) := by
  induction n generalizing i with
  | zero => rfl
  | succ n ih =>
    have hptr : appsArg + 4 + 8 * cmdNargs + i * cmdArgLen = argAddr i := by
      change appsArg + 4 + 8 * 16 + i * 32 = appsArg + 132 + 32 * i
      omega
    rw [loadAppArgv, List.range'_succ, List.map_cons, pointerOp, runOps_write, bind_assoc, ← ih,
      hptr, Nat.add_assoc base 4]
    rfl

/-- Clearing the rest of the last page, as an operation. -/
theorem runOps_clearOps (size : ℕ) : runOps t pid base (clearOps size) = (do
    modify fun s =>
      if size % pageSize ≠ 0 then
        { s with mem := s.mem.memset (base + size % pageSize) 0 (pageSize - size % pageSize) }
      else s
    pure base) := by
  by_cases hpart : size % 4096 ≠ 0
  · rw [clearOps, if_pos hpart, runOps_write]
    refine congrArg (· >>= fun _ => pure base) (congrArg modify (funext fun s => ?_))
    exact (if_pos hpart).symm
  · rw [clearOps, if_neg hpart]
    have hid : (fun s : Mmu => if size % pageSize ≠ 0 then
        { s with mem := s.mem.memset (base + size % pageSize) 0 (pageSize - size % pageSize) }
        else s) = fun s => s := funext fun s => if_neg hpart
    rw [hid]
    rfl

/-- The argument page, as operations. -/
theorem runOps_argOps (argv : Option (ℕ → UInt8)) : runOps t pid base (argOps argc argv) = (do
    let base ← mapNext t pid (appsArg >>> 12)
    modify fun s => { s with mem := s.mem.writeLE base 4 argc }
    modify fun s =>
      match argv with
      | some args => { s with
          mem := s.mem.blit (base + 4 + 8 * cmdNargs) (argc * cmdArgLen) args }
      | none => s
    loadAppArgv (base + 4) argc 0
    pure base) := by
  rw [argOps, List.append_assoc, List.cons_append, List.singleton_append, runOps_cons]
  refine congrArg (mapNext t pid 0x400FB >>= ·) (funext fun base => ?_)
  rw [runOps_write, runOps_append]
  simp only [← loadAppArgv_eq]
  cases argv with
  | none => rfl
  | some args => rfl

/-- `load_app` performs its operations. -/
theorem loadApp_eq (argv : Option (ℕ → UInt8)) : loadApp t pid reader argc argv ph = (do
    let _ ← runOps t pid 0 (appOps reader argc argv ph)
    pure ()) := by
  have hblocks : loadAppBlocks t pid reader (blocksFor ph.pFilesz) (ph.pOffset / blockSize) 0
      (appsEntry >>> 12) 0 = (do
      let base ← runOps t pid 0 ((List.range' 0 (blocksFor ph.pFilesz)).flatMap
        (blockOps reader (ph.pOffset / 512)))
      pure (0x40027 + pagesFor (blocksFor ph.pFilesz), base)) := by
    have hloop := @loadAppBlocks_eq t pid reader (ph.pOffset / 512)
      (blocksFor ph.pFilesz) 0 0
    rwa [Nat.zero_add] at hloop
  have hend : (appsEntry + appsSize) >>> 12 - (0x40027 + pagesFor (blocksFor ph.pFilesz))
      = 4 - pagesFor (blocksFor ph.pFilesz) := by
    have hend : (appsEntry + appsSize) >>> 12 = 0x4002B := by decide
    rw [hend]
    omega
  unfold loadApp appOps
  rw [hblocks, bind_assoc, runOps_append, runOps_append, runOps_append, runOps_append]
  simp only [bind_assoc, pure_bind, runOps_clearOps, runOps_argOps, runOps_map, hend]
  refine bind_congr fun base => bind_congr fun _ => ?_
  rw [@loadAppZeros_eq t pid base]
  simp only [bind_assoc, pure_bind]
  rfl

/-- `elf_load` of a program performs the operations of its segment. -/
theorem elfLoad_eq_runOps (argv : Option (ℕ → UInt8)) (himage : AppImage reader ph) :
    elfLoad t pid reader argc argv = (do
      let _ ← runOps t pid 0 (appOps reader argc argv ph)
      pure ()) := by
  rw [elfLoad_eq_loadApp himage, loadApp_eq]

end program

end Egos.Library
