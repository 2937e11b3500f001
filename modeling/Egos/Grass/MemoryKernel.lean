import Egos.Common.AddressSpaces
import Egos.Grass.ContextSwitch
import Egos.Grass.Kernel
import Egos.Grass.SyscallArea
import Egos.Library.Elf

/-!
# The kernel on a memory system

`kernel.c`, `process.c` and `syscall.c` once more, with the system-call areas and the contexts where
they are: in the memory of the processes, which the kernel reaches through `earth->mmu_switch` and
ordinary loads and stores at `SYSCALL_ARG` and on the stacks of the processes. The memory system is
a parameter. `Egos.Grass.Kernel` has one area for each pid instead, and no contexts; that every run
here is a run there is shown in `Egos.Grass.MemoryRefinement`.

The registers are those of the process that runs, as they are when it calls `ctx_start` on its way
into the kernel and when that call returns. What the code of the kernel leaves in the registers that
`CTX_RESTORE` does not load is arbitrary.
-/

namespace Egos.Grass

open Library (appsArg appsEntry)
open Riscv (Reg)

/-- The state of the kernel, the memory and the registers. The fields `sp` and `mepc` of the slots
of `proc_set` are kept beside the others. -/
structure MemKernel (σ : Type) where
  procSet : Fin maxNprocess → Process
  sp : Fin maxNprocess → BitVec 64
  mepc : Fin maxNprocess → BitVec 64
  procCurrIdx : Fin maxNprocess
  procNprocs : ℤ
  memory : σ
  hart : Context

/-- How a handler ends: it returns to `ctx_entry`, or it enters a new process by `mret`. -/
inductive Leave (σ : Type)
  | returns (k : MemKernel σ)
  | enters (k : MemKernel σ)

/-- The kernel when the handler ends. -/
def Leave.kernel {σ : Type} : Leave σ → MemKernel σ
  | returns k => k
  | enters k => k

namespace MemKernel

variable {σ Op : Type} (A : AddressSpaces σ ℤ Op) (k : MemKernel σ)

/-- `curr_pid` -/
def currPid : ℤ := (k.procSet k.procCurrIdx).pid

/-- `curr_status` -/
def currStatus : ProcStatus := (k.procSet k.procCurrIdx).status

/-- `earth->mmu_switch` -/
def mmuSwitch (pid : ℤ) : MemKernel σ := { k with memory := A.switch pid k.memory }

/-- Read an `int`. -/
def readInt (a : ℕ) : ℤ := Grass.readInt (A.load k.memory) a

/-- Write `n` bytes. -/
def writeBytes (a n : ℕ) (f : ℕ → UInt8) : MemKernel σ :=
  { k with memory := A.storeBytes k.memory a n f }

/-- Write an `int`. -/
def writeInt (a : ℕ) (v : ℤ) : MemKernel σ := k.writeBytes A a 4 (intBytes v)

/-- Change the slot of the current process. -/
def setCurr (p : Process) : MemKernel σ :=
  { k with procSet := Function.update k.procSet k.procCurrIdx p }

/-! ## `process.c` -/

/-- `proc_set_status` -/
def procSetStatus (pid : ℤ) (status : ProcStatus) : MemKernel σ :=
  { k with procSet := fun i =>
      if (k.procSet i).pid = pid then { k.procSet i with status } else k.procSet i }

/-- `proc_set_ready` -/
def procSetReady (pid : ℤ) : MemKernel σ := k.procSetStatus pid .ready

/-- `proc_set_running` -/
def procSetRunning (pid : ℤ) : MemKernel σ := k.procSetStatus pid .running

/-- `proc_set_runnable` -/
def procSetRunnable (pid : ℤ) : MemKernel σ := k.procSetStatus pid .runnable

/-- `proc_alloc` -/
def procAlloc : Except String (ℤ × MemKernel σ) :=
  match (List.finRange maxNprocess).find? fun i => (k.procSet i).status = .unused with
  | some i =>
    let pid := k.procNprocs + 1
    .ok (pid, { k with
      procNprocs := pid
      procSet := Function.update k.procSet i { k.procSet i with pid, status := .loading } })
  | none => .error ("proc_alloc: reach the limit of " ++ toString maxNprocess ++ " processes")

/-- One round of the loop of `proc_free`. -/
def freeUser (i : Fin maxNprocess) : MemKernel σ :=
  if (k.procSet i).pid ≥ gpidUserStart ∧ (k.procSet i).status ≠ .unused then
    { k with
      memory := A.free (k.procSet i).pid k.memory
      procSet := Function.update k.procSet i { k.procSet i with status := .unused } }
  else k

/-- `proc_free` -/
def procFree (pid : ℤ) : MemKernel σ :=
  if pid ≠ -1 then { k with memory := A.free pid k.memory }.procSetStatus pid .unused
  else (List.finRange maxNprocess).foldl (fun k i => k.freeUser A i) k

/-! ## `kernel.c` -/

/-- The search of `proc_yield`. -/
def nextIdx : Option (Fin maxNprocess) :=
  ((List.range maxNprocess).map fun i => k.procCurrIdx + Fin.ofNat maxNprocess (i + 1)).find?
    fun j => (k.procSet j).status.canRun

/-- `proc_yield` -/
def procYield : Except String (Leave σ) :=
  match k.nextIdx with
  | none => .error "proc_yield: no runnable process"
  | some next =>
    let k := if k.currStatus = .running then k.procSetRunnable k.currPid else k
    let k := { k with procCurrIdx := next }
    let k := k.mmuSwitch A k.currPid
    if k.currStatus = .ready then .ok (.enters (k.procSetRunning k.currPid))
    else .ok (.returns (k.procSetRunning k.currPid))

/-- The two `memcpy` of a message by way of the kernel stack. -/
def copyMsg (src dst : ℤ) : MemKernel σ :=
  let k := k.mmuSwitch A src
  let tmp := fun j => A.load k.memory (syscallArg + 4 + j)
  (k.mmuSwitch A dst).writeBytes A (syscallArg + 4) sysMsgSize tmp

/-- `proc_send` -/
def procSend : Except String (Leave σ) :=
  let k := k.writeInt A (syscallArg + 4) k.currPid
  let receiver := k.readInt A (syscallArg + 8)
  match (List.finRange maxNprocess).find? fun i => (k.procSet i).pid = receiver with
  | some i =>
    if (k.procSet i).status ≠ .waitToRecv then
      (k.setCurr { k.procSet k.procCurrIdx with
        status := .waitToSend, receiverPid := receiver }).procYield A
    else ((k.copyMsg A k.currPid receiver).procSetRunnable receiver).procYield A
  | none => .ok (.returns (k.writeInt A (syscallArg + 1036) (-1)))

/-- The loop of `proc_recv`. -/
def findSender : ℤ :=
  (List.finRange maxNprocess).foldl (fun sender i =>
    if (k.procSet i).status = .waitToSend ∧ (k.procSet i).receiverPid = k.currPid then
      (k.procSet i).pid
    else sender) (-1)

/-- `proc_recv` -/
def procRecv : Except String (Leave σ) :=
  let sender := k.findSender
  if sender = -1 then
    (k.setCurr { k.procSet k.procCurrIdx with status := .waitToRecv }).procYield A
  else ((k.copyMsg A sender k.currPid).procSetRunnable sender).procYield A

/-- The `switch` of `proc_syscall`. -/
def dispatch (type : ℤ) : Except String (Leave σ) :=
  match SyscallType.ofInt type with
  | .recv => k.procRecv A
  | .send => k.procSend A
  | .unused => .error "proc_syscall: got unknown syscall type=0"
  | .ncalls => .error "proc_syscall: got unknown syscall type=3"
  | .other type => .error ("proc_syscall: got unknown syscall type=" ++ toString type)

/-- `proc_syscall` -/
def procSyscall : Except String (Leave σ) :=
  let type := k.readInt A syscallArg
  let k := k.writeInt A (syscallArg + 1036) 0
  let k := k.writeInt A syscallArg 0
  k.dispatch A type

/-- `ctx_start` up to the call of `ctx_entry`: the frame goes to the stack of the process. -/
def ctxStart : MemKernel σ :=
  let sp := k.hart.reg .sp - 112
  { k with
    memory := A.storeBytes k.memory (sp.toNat + 8) 104 (frame k.hart.reg)
    sp := Function.update k.sp k.procCurrIdx sp }

/-- The end of `proc_yield` for a process that was `PROC_READY`; `left` is what the kernel leaves in
the registers. -/
def enterApp (left : Reg → BitVec 64) : MemKernel σ :=
  { k with hart :=
    { reg := Function.update (Function.update left .a0 (BitVec.ofNat 64 appsArg)) .a1
        (BitVec.ofNat 64 (appsArg + 4))
      mepc := BitVec.ofNat 64 appsEntry } }

/-- The end of `ctx_entry` for a process that returns from its call of `ctx_start`. The context of
the kernel, which `ctx_switch` saves on the stack of the kernel, is never used again. -/
def ctxSwitch (left : Reg → BitVec 64) : MemKernel σ :=
  { k with hart :=
    { reg := ctxRestored (A.load k.memory) (k.sp k.procCurrIdx) left
      mepc := k.mepc k.procCurrIdx } }

/-- Control goes to the current process. -/
def resume (left : Reg → BitVec 64) : Leave σ → MemKernel σ
  | .returns k => k.ctxSwitch A left
  | .enters k => k.enterApp left

/-- `ctx_entry` keeps `mepc` in the slot of the process. -/
def saveMepc : MemKernel σ :=
  { k with mepc := Function.update k.mepc k.procCurrIdx k.hart.mepc }

/-- `ctx_entry` -/
def ctxEntry (kernelEntry : MemKernel σ → Except String (Leave σ)) (left : Reg → BitVec 64) :
    Except String (MemKernel σ) :=
  (kernelEntry k.saveMepc).map (resume A left)

/-- `excp_entry` increments `mepc`. -/
def skipEcall : MemKernel σ := { k with hart := { k.hart with mepc := k.hart.mepc + 4 } }

/-- The current user process is taken down and the shell becomes runnable. -/
def killCurr : MemKernel σ := (k.procFree A k.currPid).procSetRunnable gpidShell

/-- `excp_entry`. The last disjunct of the source is the constant itself, not a comparison. -/
def excpEntry (id : ℕ) (left : Reg → BitVec 64) : Except String (MemKernel σ) :=
  if id = excpIdEcallU ∨ id = excpIdEcallS ∨ excpIdEcallM ≠ 0 then
    (k.skipEcall.ctxStart A).ctxEntry A (procSyscall A) left
  else if k.currPid ≥ gpidUserStart then
    ((k.killCurr A).skipEcall.ctxStart A).ctxEntry A (procYield A) left
  else .error ("excp_entry: kernel got exception " ++ toString id)

/-- `intr_entry` -/
def intrEntry (id : ℕ) (ttyRecvIntr : Bool) (left : Reg → BitVec 64) :
    Except String (MemKernel σ) :=
  if id = intrIdTimer ∧ k.currPid < gpidShell then .ok k
  else if ttyRecvIntr ∧ k.currPid ≥ gpidUserStart then
    ((k.killCurr A).ctxStart A).ctxEntry A (procYield A) left
  else if id = intrIdSoft then (k.ctxStart A).ctxEntry A (procSyscall A) left
  else if id = intrIdTimer then (k.ctxStart A).ctxEntry A (procYield A) left
  else .error ("intr_entry: got unknown interrupt " ++ toString id)

/-! ## `syscall.c` -/

/-- `sys_send` of a nonnegative `size`, up to the `ecall`. -/
def putSend (receiver : ℤ) (msg : ℕ → UInt8) (size : ℕ) : MemKernel σ :=
  let k := k.writeInt A syscallArg SyscallType.send.toInt
  let k := k.writeInt A (syscallArg + 8) receiver
  k.writeBytes A (syscallArg + 12) size msg

/-- `sys_send`; a message that is too long is not sent. -/
def sysSend (receiver : ℤ) (msg : ℕ → UInt8) (size : ℕ) (left : Reg → BitVec 64) :
    Except String (MemKernel σ) :=
  if size > syscallMsgLen then .ok k
  else (k.putSend A receiver msg size).excpEntry A excpIdEcallU left

/-- `sys_recv` up to the `ecall`. -/
def putRecv : MemKernel σ := k.writeInt A syscallArg SyscallType.recv.toInt

/-- `sys_recv` of a nonnegative `size`, up to the copy to its buffer. -/
def sysRecv (size : ℕ) (left : Reg → BitVec 64) : Except String (MemKernel σ) :=
  if size > syscallMsgLen then .ok k else (k.putRecv A).excpEntry A excpIdEcallU left

end MemKernel

/-! ## Runs -/

/-- The kernel with its memory, and the process that `GPID_PROCESS` is loading. -/
structure MemMachine (σ : Type) where
  kernel : MemKernel σ
  allocated : Option ℤ

/-- What can happen next: as for `Egos.Grass.Action`, and the current process stores to its memory,
computes or, in `GPID_PROCESS`, builds up the memory of the process it is loading. -/
inductive MemAction (Op : Type)
  | send (receiver : ℤ) (msg : ℕ → UInt8) (size : ℕ) (left : Reg → BitVec 64)
  | recv (size : ℕ) (left : Reg → BitVec 64)
  | intr (id : ℕ) (ttyRecvIntr : Bool) (left : Reg → BitVec 64)
  | alloc
  | setReady (pid : ℤ)
  | free (pid : ℤ)
  | store (a : ℕ) (byte : UInt8)
  | compute (hart : Context)
  | perform (op : Op)

variable {σ Op : Type} (A : AddressSpaces σ ℤ Op)

/-- One step. `GPID_PROCESS` loads one process at a time: it calls `proc_alloc` and `proc_free` when
it is loading none. -/
def memStep (m : MemMachine σ) : MemAction Op → Option (MemMachine σ)
  | .send receiver msg size left =>
    (m.kernel.sysSend A receiver msg size left).toOption.map fun k => { m with kernel := k }
  | .recv size left => (m.kernel.sysRecv A size left).toOption.map fun k => { m with kernel := k }
  | .intr id ttyRecvIntr left =>
    (m.kernel.intrEntry A id ttyRecvIntr left).toOption.map fun k => { m with kernel := k }
  | .alloc =>
    if m.kernel.currPid = gpidProcess ∧ m.allocated = none ∧
        m.kernel.procNprocs + 1 < 2 ^ 31 then
      m.kernel.procAlloc.toOption.map fun r => ⟨r.2, some r.1⟩
    else none
  | .setReady pid =>
    if m.kernel.currPid = gpidProcess ∧ m.allocated = some pid then
      some ⟨m.kernel.procSetReady pid, none⟩
    else none
  | .free pid =>
    if m.kernel.currPid = gpidProcess ∧ m.allocated = none ∧
        (pid ≥ gpidUserStart ∨ pid = -1) then
      some { m with kernel := m.kernel.procFree A pid }
    else none
  | .store a byte =>
    some { m with kernel := { m.kernel with memory := A.store m.kernel.memory a byte } }
  | .compute hart => some { m with kernel := { m.kernel with hart } }
  | .perform op =>
    if m.kernel.currPid = gpidProcess ∧ m.allocated = some (A.owner op) then
      (A.perform m.kernel.memory op).map fun s =>
        { m with kernel := { m.kernel with memory := s } }
    else none

/-- A process maps its system-call area. -/
def HasArea {A : AddressSpaces σ ℤ Op} (M : PrivateMemories A) (s : σ) (pid : ℤ) : Prop :=
  ∀ j, j < syscallSize → M.Maps s pid (syscallArg + j)

/-- The page of the system-call area, which also has the arguments and the lower part of the
stack. -/
def areaPage : ℕ := syscallArg / 4096

/-- The system-call area lies in one page. -/
theorem area_page {j : ℕ} (hj : j < syscallSize) : (syscallArg + j) / 4096 = areaPage := by
  have harg : syscallArg = 1074770944 := rfl
  have hsize : syscallSize = 1040 := rfl
  rw [areaPage, harg]
  omega

/-- An address of the system-call area. -/
def InArea (a : ℕ) : Prop := syscallArg ≤ a ∧ a < syscallArg + syscallSize

/-- There is room for a frame on the stack of the process that is visible, outside its system-call
area. -/
structure HasFrame {A : AddressSpaces σ ℤ Op} (M : PrivateMemories A) (k : MemKernel σ) :
    Prop where
  fits : 112 ≤ (k.hart.reg .sp).toNat
  maps : ∀ j, j < 104 →
    M.Maps k.memory (A.curr k.memory) ((k.hart.reg .sp - 112).toNat + 8 + j)
  out : ∀ j, j < 104 → ¬ InArea ((k.hart.reg .sp - 112).toNat + 8 + j)

/-- What processes and the loader keep to: stores go to memory that the process maps and, but for
`sys_send` and `sys_recv`, not to its system-call area; a process has room for a frame when it traps
and a system-call area when it is set ready. -/
def MemOk {A : AddressSpaces σ ℤ Op} (M : PrivateMemories A) (m : MemMachine σ) :
    MemAction Op → Prop
  | .store a _ => M.Maps m.kernel.memory (A.curr m.kernel.memory) a ∧ ¬ InArea a
  | .perform op => M.Ok m.kernel.memory op
  | .setReady pid => HasArea M m.kernel.memory pid
  | .send _ _ _ _ | .recv _ _ | .intr _ _ _ => HasFrame M m.kernel
  | _ => True

/-- The machine when `main` of `grass.c` jumps to the entry of `GPID_PROCESS`. -/
def bootMem (s : σ) (hart : Context) : MemMachine σ where
  kernel :=
    { procSet := fun i => if i = 0 then ⟨1, .running, 0⟩ else ⟨0, .unused, 0⟩
      sp := fun _ => 0
      mepc := fun _ => 0
      procCurrIdx := 0
      procNprocs := 1
      memory := s
      hart }
  allocated := none

end Egos.Grass
