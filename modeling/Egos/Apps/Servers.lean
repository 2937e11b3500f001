import Egos.Common.Interaction
import Egos.File.Block
import Egos.Grass.Process
import Egos.Library.Elf

/-!
# The servers and the shell

Translation of `library/servers/servers.c` and of the four programs of `apps/system`. A program is a
tree of the calls it makes of the kernel; the body of a main loop ends at its loop head, a `Point`,
from which it goes on with the next round. What a round takes from outside is its `Choice`.

Every `sys_send` and `sys_recv` has a `Topic`, which says what the source uses it for. No program
looks at the topic of a message. The value that `sys_send` returns is not looked at by any caller
either, so the model has none.
-/

namespace Egos.Apps

open Egos.Grass Egos.Library
open Egos.File (Block nullBlock)

/-! ## Messages -/

/-- `char argv[CMD_NARGS][CMD_ARG_LEN]`. -/
abbrev Argv : Type := ℕ → ℕ → UInt8

/-- `argv[i][j] = c`. -/
def Argv.set (argv : Argv) (i j : ℕ) (c : UInt8) : Argv :=
  Function.update argv i (Function.update (argv i) j c)

/-- The bytes of a string up to its null. -/
def cString (s : ℕ → UInt8) : List UInt8 := ((List.range cmdArgLen).map s).takeWhile (· ≠ 0)

/-! The values of the enumerations in `servers.h`. A message is read as whatever struct its receiver
expects, so they stay numbers. -/

/-- `PROC_SPAWN`: start a program. -/
abbrev procSpawn : ℤ := 0
/-- `PROC_EXIT`: the sender has ended. -/
abbrev procExit : ℤ := 1
/-- `PROC_KILLALL`: end all user processes. -/
abbrev procKillall : ℤ := 2
/-- `CMD_OK`: the program has been started. -/
abbrev cmdOk : ℤ := 0
/-- `CMD_ERROR`: the program could not be started. -/
abbrev cmdError : ℤ := 1
/-- `FILE_READ`: read a block of a file. -/
abbrev fileReadType : ℤ := 1
/-- `FILE_OK`: the block is in the reply. -/
abbrev fileOk : ℤ := 0
/-- `FILE_ERROR`: the block could not be read. -/
abbrev fileError : ℤ := 1
/-- `DIR_LOOKUP`: look a name up in a directory. -/
abbrev dirLookupType : ℤ := 1
/-- `DIR_OK`: the inode is in the reply. -/
abbrev dirOk : ℤ := 0
/-- `DIR_ERROR`: there is no such name. -/
abbrev dirError : ℤ := 1

/-- The messages. `proc` is `struct proc_request`, whose first field `struct proc_reply` shares. -/
inductive Msg
  | text (s : String)
  | proc (type : ℤ) (argc : ℕ) (argv : Argv)
  | fileRequest (type : ℤ) (ino offset : ℕ)
  | fileReply (status : ℤ) (block : Block)
  | dirRequest (type ino : ℤ) (name : List UInt8)
  | dirReply (status ino : ℤ)

namespace Msg

/-- The first four bytes as an `int`; both texts start with `Fini`. -/
def word : Msg → ℤ
  | text _ => 0x696e6946
  | proc type _ _ => type
  | fileRequest type _ _ => type
  | fileReply status _ => status
  | dirRequest type _ _ => type
  | dirReply status _ => status

/-- `reply->type = type` in the buffer that holds a request. -/
def setType (type : ℤ) : Msg → Msg
  | proc _ argc argv => proc type argc argv
  | m => m

/-- `req->argv[req->argc - 1][0]`; without arguments it lies before the array, where `stray` is. -/
def lastArg (stray : UInt8) : Msg → UInt8
  | proc _ argc argv => if argc = 0 then stray else argv (argc - 1) 0
  | _ => stray

/-- `req->argv[0]`. -/
def command : Msg → List UInt8
  | proc _ _ argv => cString (argv 0)
  | _ => []

/-- `req->ino` and `req->offset` of a file request. -/
def fileArgs : Msg → ℕ × ℕ
  | fileRequest _ ino offset => (ino, offset)
  | _ => (0, 0)

/-- `req->ino` and `req->name` of a directory request. -/
def dirArgs : Msg → ℤ × List UInt8
  | dirRequest _ ino name => (ino, name)
  | _ => (0, [])

/-- What `file_read` takes from the reply: its result and the block. -/
def fileResult : Msg → ℤ × Block
  | fileReply status block => (if status = fileOk then 0 else -1, block)
  | _ => (-1, nullBlock)

/-- What `dir_lookup` takes from the reply. -/
def dirResult : Msg → ℤ
  | dirReply status ino => if status = dirOk then ino else -1
  | _ => -1

end Msg

/-! ## Calls of the kernel -/

/-- What a message is for. -/
inductive Topic
  /-- a server is ready -/
  | boot
  /-- a request to `GPID_FILE` or `GPID_DIR` -/
  | request
  /-- the reply of a server to a request -/
  | reply (server : ℤ) (req : Msg)
  /-- a request to `GPID_PROCESS` -/
  | command
  /-- whether a command could be started -/
  | status
  /-- the command the shell waits for has ended -/
  | termination

/-- The programs that `GPID_PROCESS` loads. -/
inductive Image
  | file
  | dir
  | shell
  | user
deriving DecidableEq

/-- What a program asks of the kernel. `elfLoad` puts a program into the memory of a process that is
being set up, and `spin` is `while (1);`. -/
inductive SysOp
  | send (topic : Topic) (receiver : ℤ) (msg : Msg)
  | recv (topic : Topic)
  | procAlloc
  | procSetReady (pid : ℤ)
  | procFree (pid : ℤ)
  | elfLoad (pid : ℤ) (image : Image)
  | spin

/-- The results; that of `recv` is the sender and the message. -/
abbrev SysOp.Res : SysOp → Type
  | send _ _ _ => Unit
  | recv _ => ℤ × Msg
  | procAlloc => ℤ
  | procSetReady _ => Unit
  | procFree _ => Unit
  | elfLoad _ _ => Unit
  | spin => Empty

/-- The errors that end in `FATAL`. -/
inductive Fatal
  | dirLookup
  | fileRead
  | procRequest (type : ℤ)
  | fileRequest (type : ℤ)
  | dirRequest (type : ℤ)
  | elfVaddr (addr : ℕ)
  | store (text : String)

/-- What is printed. -/
def Fatal.text : Fatal → String
  | dirLookup => "dir_lookup: an error occurred"
  | fileRead => "file_read: an error occurred"
  | procRequest type => "sys_proc: invalid request " ++ toString type
  | fileRequest type => "sys_file: request" ++ toString type ++ " not implemented"
  | dirRequest type => "sys_dir: request" ++ toString type ++ " not implemented"
  | elfVaddr addr => "elf_load: Invalid p_vaddr: 0x" ++ hex8 addr
  | store text => text

/-- A program of the system. -/
abbrev App : Type → Type := Prog SysOp.Res Fatal

/-- `grass->sys_send`, with the topic of the message. -/
def sysSend (topic : Topic) (receiver : ℤ) (msg : Msg) : App Unit :=
  Prog.call (SysOp.send topic receiver msg)

/-- `grass->sys_recv`, with the topic of the message that is waited for. -/
def sysRecv (topic : Topic) : App (ℤ × Msg) := Prog.call (SysOp.recv topic)

/-- `grass->proc_alloc`. -/
def procAlloc : App ℤ := Prog.call SysOp.procAlloc

/-- `grass->proc_set_ready`. -/
def procSetReady (pid : ℤ) : App Unit := Prog.call (SysOp.procSetReady pid)

/-- `grass->proc_free`. -/
def procFree (pid : ℤ) : App Unit := Prog.call (SysOp.procFree pid)

/-- `elf_load`, with what it reads of the executable. -/
def elfLoad (pid : ℤ) (image : Image) : App Unit := Prog.call (SysOp.elfLoad pid image)

/-- `while (1)`. -/
def spin {α : Type} : App α := .op .spin nofun

/-! ## `servers.c` -/

/-- The request that `dir_lookup` makes. -/
def dirLookupRequest (dirIno : ℤ) (name : List UInt8) : Msg := .dirRequest dirLookupType dirIno name

/-- `dir_lookup` -/
def dirLookup (dirIno : ℤ) (name : List UInt8) : App ℤ := do
  let req := dirLookupRequest dirIno name
  sysSend .request gpidDir req
  let (sender, reply) ← sysRecv (.reply gpidDir req)
  if sender ≠ gpidDir then .stop .dirLookup
  else return reply.dirResult

/-- The request that `file_read` makes; its fields are unsigned. -/
def fileReadRequest (fileIno offset : ℤ) : Msg :=
  .fileRequest fileReadType (fileIno % 2 ^ 32).toNat (offset % 2 ^ 32).toNat

/-- `file_read` -/
def fileRead (fileIno offset : ℤ) : App (ℤ × Block) := do
  let req := fileReadRequest fileIno offset
  sysSend .request gpidFile req
  let (sender, reply) ← sysRecv (.reply gpidFile req)
  if sender ≠ gpidFile then .stop .fileRead
  else return reply.fileResult

/-- `exit`, which sends `PROC_EXIT`; the other fields of the request are not set and not read. -/
def exit {α : Type} : App α := do
  sysSend .command gpidProcess (.proc procExit 0 fun _ _ => 0)
  spin

/-! ## `sys_file.c` -/

/-- `fs->read`: its result and the block, or the message it panics with. -/
abbrev FsRead : Type := ℕ → ℕ → Except String (ℤ × Block)

/-- The reply to a request, if the file system does not panic. -/
def fileReply (fs : FsRead) (req : Msg) : Except Fatal Msg :=
  match fs req.fileArgs.1 req.fileArgs.2 with
  | .ok (r, block) => .ok (.fileReply (if r = 0 then fileOk else fileError) block)
  | .error text => .error (.store text)

/-- One round of the loop of `sys_file`. -/
def fileServe (fs : FsRead) : App Unit := do
  let (sender, req) ← sysRecv .request
  if req.word = fileReadType then
    match fileReply fs req with
    | .ok reply => sysSend (.reply gpidFile req) sender reply
    | .error e => .stop e
  else .stop (.fileRequest req.word)

/-! ## `sys_dir.c` -/

/-- `strlen` -/
def strlen (s : List UInt8) : ℕ := (s.takeWhile (· ≠ 0)).length

/-- `isspace` -/
def isSpace (c : UInt8) : Bool := c = 32 || (9 ≤ c && c ≤ 13)

/-- The value of the digits at the start of a string, after those with value `n`. -/
def digits : List UInt8 → ℕ → ℕ
  | [], n => n
  | c :: cs, n => if 48 ≤ c && c ≤ 57 then digits cs (10 * n + (c.toNat - 48)) else n

/-- The number at the start of a string: white space, a sign and digits. -/
def leadingNumber (s : List UInt8) : ℤ :=
  let s := s.dropWhile isSpace
  if s.head? = some 45 then -(digits s.tail 0)
  else if s.head? = some 43 then digits s.tail 0
  else digits s 0

/-- A number as an `int`. `strtol` keeps it within the bounds of a `long`, of 64 bits here, and the
conversion takes the low 32 bits. -/
def asInt (v : ℤ) : ℤ := (max (-2 ^ 63) (min v (2 ^ 63 - 1))).bmod (2 ^ 32)

/-- `atoi`, which is `(int)strtol(s, NULL, 10)`. -/
def atoi (s : List UInt8) : ℤ := asInt (leadingNumber s)

/-- The condition in the loop of `dir_do_lookup`: `name` stands at `i` as a word of its own. -/
def dirMatch (buf name : List UInt8) (i : ℕ) : Bool :=
  (buf.drop i).take name.length = name && buf.getD (i + name.length) 0 = 32 &&
    (i = 0 || buf.getD (i - 1) 0 = 32)

/-- The loop of `dir_do_lookup` from `i` on, with `n` rounds to go. -/
def dirLoop (buf name : List UInt8) : ℕ → ℕ → ℤ
  | 0, _ => -1
  | n + 1, i =>
    if dirMatch buf name i then atoi (buf.drop (i + name.length)) else dirLoop buf name n (i + 1)

/-- What `dir_do_lookup` finds in the block it has read; the bound of its loop is unsigned. -/
def dirScan (block : Block) (name : List UInt8) : ℤ :=
  let buf := List.ofFn block
  dirLoop buf name ((strlen buf + 2 ^ 64 - name.length) % 2 ^ 64) 0

/-- `dir_do_lookup` -/
def dirDoLookup (dirIno : ℤ) (name : List UInt8) : App ℤ := do
  let (_, buf) ← fileRead dirIno 0
  return dirScan buf name

/-- The reply to a request for which `dir_do_lookup` returned `ino`. -/
def dirReply (ino : ℤ) : Msg := .dirReply (if ino = -1 then dirError else dirOk) ino

/-- `dir_lookup` returns what the directory server has found. -/
theorem dirResult_dirReply (ino : ℤ) : (dirReply ino).dirResult = ino := by
  by_cases h : ino = -1 <;> simp [dirReply, Msg.dirResult, h, dirOk, dirError]

/-- One round of the loop of `sys_dir`. -/
def dirServe : App Unit := do
  let (sender, req) ← sysRecv .request
  if req.word = dirLookupType then do
    let ino ← dirDoLookup req.dirArgs.1 req.dirArgs.2
    sysSend (.reply gpidDir req) sender (dirReply ino)
  else .stop (.dirRequest req.word)

/-! ## `sys_proc.c` -/

/-- The bytes of a block as a buffer. -/
def blockBuf (block : Block) : Memory := fun j => if h : j < 512 then block ⟨j, h⟩ else 0

section elf

variable (reader : ℤ → App Block)

/-- Read `n` blocks from `blockOffset` on. -/
def elfReadBlocks : ℕ → ℕ → App Unit
  | 0, _ => pure ()
  | n + 1, blockOffset => do
    let _ ← reader ((blockOffset : ℤ).bmod (2 ^ 32))
    elfReadBlocks n (blockOffset + 1)

/-- One round of the loop of `elf_load`. -/
@[irreducible] def elfReadSegment (buf : Memory) (i : ℕ) : App Unit :=
  if (programHeader buf i).pMemsz = 0 then pure ()
  else if (programHeader buf i).pVaddr = Earth.grassEntry ∨
      (programHeader buf i).pVaddr = appsEntry then
    elfReadBlocks reader (blocksFor (programHeader buf i).pFilesz)
      ((programHeader buf i).pOffset / Library.blockSize)
  else .stop (.elfVaddr (programHeader buf 0).pVaddr)

/-- The loop of `elf_load` from program header `i` on, with `n` to go. -/
def elfReadSegments (buf : Memory) : ℕ → ℕ → App Unit
  | 0, _ => pure ()
  | n + 1, i => do
    elfReadSegment reader buf i
    elfReadSegments buf n (i + 1)

/-- The calls of the reader in `elf_load`; what it does to memory is in `Egos.Library.elfLoad`. -/
def elfRead : App Unit := do
  let block ← reader 0
  elfReadSegments reader (blockBuf block) (ePhnum (blockBuf block)) 0

end elf

/-- `"bin/"` -/
def binDir : List UInt8 := [98, 105, 110, 47]

/-- `app_spawn`: the new `app_pid`, or nothing when it returns `-1`. -/
def appSpawn (req : Msg) : App (Option ℤ) := do
  let binIno ← dirLookup 0 binDir
  let appIno ← dirLookup binIno req.command
  if appIno < 0 then return none
  else do
    let appPid ← procAlloc
    elfRead fun off => Prod.snd <$> fileRead appIno off
    elfLoad appPid .user
    procSetReady appPid
    return some appPid

/-- `sys_spawn`; the program is read from the disk without the help of another process. -/
def sysSpawn (image : Image) : App Unit := do
  let pid ← procAlloc
  elfLoad pid image
  procSetReady pid

/-- The loop heads of the programs, with the variables that live across rounds: `app_pid` and
`shell_waiting` of `sys_proc`. -/
inductive Point
  | process (appPid : ℤ) (shellWaiting : Bool)
  | file
  | dir
  | shell
  | user

/-- `'&'` -/
abbrev ampersand : UInt8 := 38

/-- One round of the loop of `sys_proc`. The reply is written over the request. -/
def procServe (appPid : ℤ) (shellWaiting : Bool) (stray : UInt8) : App Point := do
  let (sender, req) ← sysRecv .command
  if req.word = procSpawn then do
    let spawned ← appSpawn req
    let reply := req.setType (if spawned = none then cmdError else cmdOk)
    sysSend .status gpidShell reply
    return .process (spawned.getD appPid) (reply.lastArg stray ≠ ampersand)
  else if req.word = procExit then do
    procFree sender
    if shellWaiting ∧ appPid = sender then
      sysSend .termination gpidShell req
      return .process appPid shellWaiting
    else return .process appPid shellWaiting
  else if req.word = procKillall then do
    procFree (-1)
    return .process appPid shellWaiting
  else .stop (.procRequest req.word)

/-- `main` of `sys_proc` up to its loop. `shell_waiting` is not initialised. -/
def procMain (shellWaiting : Bool) : App Point := do
  sysSpawn .file
  let _ ← sysRecv .boot
  sysSpawn .dir
  let _ ← sysRecv .boot
  sysSpawn .shell
  return .process 0 shellWaiting

/-! ## `sys_shell.c` -/

/-- The loop of `parse_request` over the rest of the line, and the assignment of `argc` after it. -/
def parseLoop : List UInt8 → ℕ → ℕ → Argv → Option (ℕ × Argv)
  | [], idx, nargs, argv => some (if idx ≠ 0 then nargs + 1 else nargs, argv)
  | c :: cs, idx, nargs, argv =>
    if c ≠ 32 then
      if idx + 1 ≥ cmdArgLen then none else parseLoop cs (idx + 1) nargs (argv.set nargs idx c)
    else if idx ≠ 0 then
      if nargs + 1 ≥ cmdNargs then none else parseLoop cs 0 (nargs + 1) (argv.set nargs idx 0)
    else parseLoop cs idx nargs argv

/-- `parse_request`: `argc` and `argv`, or nothing when it returns `-1`. -/
def parseRequest (line : List UInt8) : Option (ℕ × Argv) := parseLoop line 0 0 fun _ _ => 0

/-- `"killall"` -/
def killall : List UInt8 := [107, 105, 108, 108, 97, 108, 108]

/-- One round of the loop of `sys_shell`, for the line in `buf`. -/
def shellCommand (line : List UInt8) (stray : UInt8) : App Unit :=
  if line = killall then sysSend .command gpidProcess (.proc procKillall 0 fun _ _ => 0)
  else match parseRequest line with
    | none => pure ()
    | some (argc, argv) => do
      let req := Msg.proc procSpawn argc argv
      sysSend .command gpidProcess req
      let (_, reply) ← sysRecv .status
      if reply.word ≠ cmdOk then pure ()
      else if req.lastArg stray ≠ ampersand then do
        let _ ← sysRecv .termination
        pure ()
      else pure ()

/-! ## The programs -/

/-- A call of a user process. -/
inductive UserCall
  | dirLookup (dirIno : ℤ) (name : List UInt8)
  | fileRead (fileIno offset : ℤ)
  | exit

/-- What a program takes from outside in a round of its loop: the line that was typed, the next call
that a user process makes, and the byte that stands before an array. -/
structure Choice where
  line : List UInt8
  call : UserCall
  stray : UInt8

/-- The file system, and what is in a variable that is not initialised. -/
structure Env where
  fs : FsRead
  shellWaiting : Bool

/-- The body of the loop at a loop head. -/
def main (env : Env) (choice : Choice) : Point → App Point
  | .process appPid shellWaiting => procServe appPid shellWaiting choice.stray
  | .file => do
    fileServe env.fs
    return .file
  | .dir => do
    dirServe
    return .dir
  | .shell => do
    shellCommand choice.line choice.stray
    return .shell
  | .user =>
    match choice.call with
    | .dirLookup dirIno name => do
      let _ ← dirLookup dirIno name
      return .user
    | .fileRead fileIno offset => do
      let _ ← fileRead fileIno offset
      return .user
    | .exit => exit

/-- `"cd"` -/
def cd : List UInt8 := [99, 100]

/-- A program from its start. The servers tell `GPID_PROCESS` that they are ready, and the first
command of the shell is `cd`. -/
def start : Image → App Point
  | .file => do
    sysSend .boot gpidProcess (.text "Finish GPID_FILE initialization")
    return .file
  | .dir => do
    sysSend .boot gpidProcess (.text "Finish GPID_DIR initialization")
    return .dir
  | .shell => do
    shellCommand cd 0
    return .shell
  | .user => return .user

end Egos.Apps
