import Egos.Apps.Directory
import Egos.Earth.Disk

/-!
# Read errors

A request to read a block goes through five layers: `mmc_bread`, `disk_read` of `dev_disk.c`, the
store of `disk.c`, `treedisk_read` and the file server; a directory lookup adds the directory
server. The first of them knows whether a read has failed, and the second one does not pass it on:
`file_read` returns 0 whatever happens to the reads of a request that is not turned down. One that
is turned down leaves the request itself in the buffer for the block, and the directory server looks
for the name in it.
-/

namespace Egos.Apps

open Egos.Grass Egos.File Egos.Earth

variable {σ α : Type}

/-! ## The servers in place of the kernel -/

/-- Run the program of a client, where a request is answered by the server that it is sent to. -/
def answered (serve : Msg → StoreM σ Msg) : App α → StoreM σ α
  | .ret a => pure a
  | .stop e => throw e.text
  | .op (.send _ _ _) k => answered serve (k ())
  | .op (.recv (.reply server req)) k => do
    let reply ← serve req
    answered serve (k (server, reply))
  | .op _ _ => throw "no call of a client"

/-- `reply->block` before the block is read: the fields `ino` and `offset` of the request, and then
the first bytes of its own block, which `file_read` does not set. -/
def unreadBlock (ino offset : ℕ) (rest : Block) : Block := (rest.setWord 0 ino).setWord 1 offset

/-- The file server, for one request. -/
def serveFile (f : ReadFailures) (rest : Block) (req : Msg) : StoreM Sdc Msg := do
  let fs := treediskInit 0 (fsDisk f) 0
  let r ← treediskReadInto fs.1 fs.2 req.fileArgs.1 req.fileArgs.2
    (unreadBlock req.fileArgs.1 req.fileArgs.2 rest)
  match fileReply (fun _ _ => .ok r) req with
  | .ok reply => return reply
  | .error e => throw e.text

/-- The directory server, for one request. -/
def serveDir (f : ReadFailures) (rest : Block) (req : Msg) : StoreM Sdc Msg := do
  let ino ← answered (serveFile f rest) (dirDoLookup req.dirArgs.1 req.dirArgs.2)
  return dirReply ino

/-- `file_read` on an SD card. -/
def fileReadRun (f : ReadFailures) (rest : Block) (fileIno offset : ℤ) : StoreM Sdc (ℤ × Block) :=
  answered (serveFile f rest) (fileRead fileIno offset)

/-- `dir_lookup` on an SD card. -/
def dirLookupRun (f : ReadFailures) (rest : Block) (dirIno : ℤ) (name : List UInt8) :
    StoreM Sdc ℤ :=
  answered (serveDir f rest) (dirLookup dirIno name)

/-- An `int` as an inode number or offset of a request. -/
def unsigned (a : ℤ) : ℕ := (a % 2 ^ 32).toNat

/-- `treedisk_read` in the file server. -/
def serverRead (f : ReadFailures) (rest : Block) (ino offset : ℕ) : StoreM Sdc (ℤ × Block) :=
  treediskReadInto 7 ⟨fsDisk f, 0⟩ ino offset (unreadBlock ino offset rest)

/-- `GPID_FILE` replies with what it has read. -/
theorem serveFile_eq (f : ReadFailures) (rest : Block) (req : Msg) :
    serveFile f rest req = do
      let r ← serverRead f rest req.fileArgs.1 req.fileArgs.2
      return .fileReply (if r.1 = 0 then fileOk else fileError) r.2 := rfl

/-- A program that is answered, part by part. -/
theorem answered_bind {β : Type} (serve : Msg → StoreM σ Msg) (x : App α) (k : α → App β) :
    answered serve (x >>= k) = answered serve x >>= fun a => answered serve (k a) := by
  induction x with
  | ret a => rfl
  | stop e => rfl
  | op o k' ih =>
    cases o with
    | send _ _ _ => exact ih ()
    | recv topic =>
      cases topic with
      | reply server req =>
        change (serve req >>= fun m => answered serve (k' (server, m) >>= k)) = _
        simp only [ih]
        exact (bind_assoc _ _ _).symm
      | _ => rfl
    | _ => rfl

/-- What `file_read` makes of the reply. -/
theorem fileResult_reply (r : ℤ × Block) :
    (Msg.fileReply (if r.1 = 0 then fileOk else fileError) r.2).fileResult
      = (if r.1 = 0 then 0 else -1, r.2) := by
  by_cases h : r.1 = 0 <;> simp [Msg.fileResult, h, fileOk, fileError]

/-- `file_read` that is answered. -/
theorem answered_fileRead (serve : Msg → StoreM σ Msg) (fileIno offset : ℤ) :
    answered serve (fileRead fileIno offset)
      = Msg.fileResult <$> serve (fileReadRequest fileIno offset) := by
  change (serve (fileReadRequest fileIno offset) >>= fun m =>
    answered serve (if gpidFile ≠ gpidFile then .stop .fileRead else pure m.fileResult)) = _
  simp only [ne_eq, not_true, if_false]
  rfl

/-- `dir_lookup` that is answered. -/
theorem answered_dirLookup (serve : Msg → StoreM σ Msg) (dirIno : ℤ) (name : List UInt8) :
    answered serve (dirLookup dirIno name)
      = Msg.dirResult <$> serve (dirLookupRequest dirIno name) := by
  change (serve (dirLookupRequest dirIno name) >>= fun m =>
    answered serve (if gpidDir ≠ gpidDir then .stop .dirLookup else pure m.dirResult)) = _
  simp only [ne_eq, not_true, if_false]
  rfl

/-- `file_read` gives the block that the server has, and whether its result is 0. -/
theorem fileReadRun_eq (f : ReadFailures) (rest : Block) (fileIno offset : ℤ) :
    fileReadRun f rest fileIno offset = (fun r => (if r.1 = 0 then 0 else -1, r.2)) <$>
      serverRead f rest (unsigned fileIno) (unsigned offset) := by
  rw [fileReadRun, answered_fileRead, serveFile_eq]
  simp only [map_eq_pure_bind, bind_assoc, pure_bind, fileResult_reply]
  rfl

/-- `dir_lookup` gives what is found in that block. -/
theorem dirLookupRun_eq (f : ReadFailures) (rest : Block) (dirIno : ℤ) (name : List UInt8) :
    dirLookupRun f rest dirIno name = (fun r => dirScan r.2 name) <$>
      serverRead f rest (unsigned dirIno) 0 := by
  rw [dirLookupRun, answered_dirLookup, serveDir, dirDoLookup, answered_bind, answered_fileRead,
    serveFile_eq]
  simp only [map_eq_pure_bind, bind_assoc, pure_bind, fileResult_reply]
  change (serverRead f rest (unsigned dirIno) 0 >>= fun r =>
    pure (dirReply (dirScan r.2 name)).dirResult) = _
  simp only [dirResult_dirReply]

/-- A run that maps the result of another one. -/
theorem map_ok_iff {β : Type} {m : StoreM σ α} {g : α → β} {s s' : σ} {b : β} :
    (g <$> m) s = .ok b s' ↔ ∃ a, m s = .ok a s' ∧ g a = b := by
  have hmap : (g <$> m) s = EStateM.map g m s := rfl
  rw [hmap, EStateM.map]
  cases m s <;> simp [and_comm]

/-! ## What the servers read -/

end Egos.Apps
