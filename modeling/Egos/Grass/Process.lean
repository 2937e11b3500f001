import Mathlib.Algebra.Order.Ring.Int
import Mathlib.Data.Fintype.Basic
import Mathlib.Data.List.FinRange
import Mathlib.Logic.Function.Basic
import Egos.Common.Reach

/-!
# Processes and system calls of the kernel

The process table (`process.h`, `process.c`), the system-call area (`syscall.h`) and the state of
the kernel. Memory is private to a process except that `earth->mmu_switch(pid)` decides whose is
visible, so the pointer `sc` to the system-call area at `SYSCALL_ARG` is modelled by one area for
each pid and the pid that was last given to `mmu_switch`.

The state also has a history variable: the `log` of what the kernel does for its processes. Nothing
reads it.
-/

namespace Egos.Grass

/-- The statuses of a process. -/
inductive ProcStatus
  | unused
  | loading
  | ready
  | running
  | runnable
  | waitToSend
  | waitToRecv
deriving DecidableEq, Repr

/-- `struct process`, without the saved context. -/
@[ext]
structure Process where
  pid : ℤ
  status : ProcStatus
  receiverPid : ℤ
deriving DecidableEq, Repr

/-- `MAX_NPROCESS` -/
abbrev maxNprocess : ℕ := 16

instance : NeZero maxNprocess := ⟨by decide⟩

/-! The pids of `enum grass_servers`. -/

/-- `GPID_PROCESS` -/
abbrev gpidProcess : ℤ := 1

/-- `GPID_FILE` -/
abbrev gpidFile : ℤ := 2

/-- `GPID_DIR` -/
abbrev gpidDir : ℤ := 3

/-- `GPID_SHELL` -/
abbrev gpidShell : ℤ := 4

/-- `GPID_USER_START` -/
abbrev gpidUserStart : ℤ := 5

/-- `enum syscall_type`. The area is memory of its process, so the field can hold any other number
as well. -/
inductive SyscallType
  | unused
  | recv
  | send
  | ncalls
  | other (type : ℤ)
deriving DecidableEq, Repr

/-- `struct sys_msg`, over any type of contents. -/
structure SysMsg (M : Type) where
  sender : ℤ
  receiver : ℤ
  content : M
deriving DecidableEq

/-- `struct syscall` -/
structure Syscall (M : Type) where
  type : SyscallType
  msg : SysMsg M
  retval : ℤ

/-- A system call as its process makes it. -/
inductive Call (M : Type)
  | send (receiver : ℤ) (content : M)
  | recv

/-- What the kernel does for its processes. -/
inductive Event (M : Type)
  /-- process `pid` enters `proc_syscall` -/
  | trap (pid : ℤ) (call : Call M)
  /-- a message is copied from the area of `src` to that of `dst` -/
  | copy (src dst : ℤ) (msg : SysMsg M)
  /-- `proc_yield` selects the slot `idx`, which has status `status` -/
  | select (idx : Fin maxNprocess) (status : ProcStatus)
  /-- the kernel returns to process `pid`, whose area has the given result and message -/
  | run (pid : ℤ) (retval : ℤ) (msg : SysMsg M)

/-- The state of the kernel. -/
structure Kernel (M : Type) where
  procSet : Fin maxNprocess → Process
  procCurrIdx : Fin maxNprocess
  procNprocs : ℤ
  mmuPid : ℤ
  area : ℤ → Syscall M
  log : List (Event M)

variable {M : Type}

namespace Kernel

/-- `curr_pid` -/
def currPid (k : Kernel M) : ℤ := (k.procSet k.procCurrIdx).pid

/-- `curr_status` -/
def currStatus (k : Kernel M) : ProcStatus := (k.procSet k.procCurrIdx).status

/-- `earth->mmu_switch` -/
def mmuSwitch (k : Kernel M) (pid : ℤ) : Kernel M := { k with mmuPid := pid }

/-- `*sc`: the system-call area that is visible. -/
def sc (k : Kernel M) : Syscall M := k.area k.mmuPid

/-- Change the system-call area that is visible. -/
def setSc (k : Kernel M) (sc : Syscall M) : Kernel M :=
  { k with area := Function.update k.area k.mmuPid sc }

/-- Change the slot of the current process. -/
def setCurr (k : Kernel M) (p : Process) : Kernel M :=
  { k with procSet := Function.update k.procSet k.procCurrIdx p }

/-- Add to the history. -/
def note (k : Kernel M) (e : Event M) : Kernel M := { k with log := e :: k.log }

end Kernel

/-! ## `process.c` -/

/-- `proc_set_status` -/
def procSetStatus (k : Kernel M) (pid : ℤ) (status : ProcStatus) : Kernel M :=
  { k with procSet := fun i =>
      if (k.procSet i).pid = pid then { k.procSet i with status } else k.procSet i }

/-- `proc_set_ready` -/
def procSetReady (k : Kernel M) (pid : ℤ) : Kernel M := procSetStatus k pid .ready

/-- `proc_set_running` -/
def procSetRunning (k : Kernel M) (pid : ℤ) : Kernel M := procSetStatus k pid .running

/-- `proc_set_runnable` -/
def procSetRunnable (k : Kernel M) (pid : ℤ) : Kernel M := procSetStatus k pid .runnable

/-- `proc_alloc`: the new pid, or `FATAL` when no slot is free. -/
def procAlloc (k : Kernel M) : Except String (ℤ × Kernel M) :=
  match (List.finRange maxNprocess).find? fun i => (k.procSet i).status = .unused with
  | some i =>
    let pid := k.procNprocs + 1
    .ok (pid, { k with
      procNprocs := pid
      procSet := Function.update k.procSet i { k.procSet i with pid, status := .loading } })
  | none => .error ("proc_alloc: reach the limit of " ++ toString maxNprocess ++ " processes")

/-- `proc_free`. The memory that `earth->mmu_free` takes back is not part of this state. -/
def procFree (k : Kernel M) (pid : ℤ) : Kernel M :=
  if pid ≠ -1 then procSetStatus k pid .unused
  else { k with procSet := fun i =>
      if (k.procSet i).pid ≥ gpidUserStart ∧ (k.procSet i).status ≠ .unused then
        { k.procSet i with status := .unused }
      else k.procSet i }

end Egos.Grass
