import Egos.Grass.Process

/-!
# The kernel

The handlers of `kernel.c`, the calls of `syscall.c` that lead to them, and the runs of the kernel.
`FATAL` ends a run, so a handler returns its message in `Except`.
-/

namespace Egos.Grass

variable {M : Type}

/-! ## `kernel.c` -/

/-- The statuses from which `proc_yield` takes a process. -/
def ProcStatus.canRun : ProcStatus → Bool
  | .ready | .running | .runnable => true
  | _ => false

/-- The search of `proc_yield`: the slots after the current one, in cyclic order. -/
def nextIdx (k : Kernel M) : Option (Fin maxNprocess) :=
  ((List.range maxNprocess).map fun i => k.procCurrIdx + Fin.ofNat maxNprocess (i + 1)).find?
    fun j => (k.procSet j).status.canRun

/-- `proc_yield`. A process that is `PROC_READY` is entered by `mret` at its entry point and any
other returns to where it was; both become `PROC_RUNNING`. -/
def procYield (k : Kernel M) : Except String (Kernel M) :=
  match nextIdx k with
  | none => .error "proc_yield: no runnable process"
  | some next =>
    let status := (k.procSet next).status
    let k := if k.currStatus = .running then procSetRunnable k k.currPid else k
    let k := ({ k with procCurrIdx := next }).note (.select next status)
    let k := k.mmuSwitch k.currPid
    .ok (procSetRunning k k.currPid)

/-- The two `memcpy` by way of the kernel stack, from the area of `src` to that of `dst`. -/
def copyMsg (k : Kernel M) (src dst : ℤ) : Kernel M :=
  let k := k.mmuSwitch src
  let tmp := k.sc.msg
  let k := k.mmuSwitch dst
  (k.setSc { k.sc with msg := tmp }).note (.copy src dst tmp)

/-- `proc_send` -/
def procSend (k : Kernel M) : Except String (Kernel M) :=
  let k := k.setSc { k.sc with msg := { k.sc.msg with sender := k.currPid } }
  let receiver := k.sc.msg.receiver
  match (List.finRange maxNprocess).find? fun i => (k.procSet i).pid = receiver with
  | some i =>
    if (k.procSet i).status ≠ .waitToRecv then
      procYield (k.setCurr { k.procSet k.procCurrIdx with
        status := .waitToSend, receiverPid := receiver })
    else procYield (procSetRunnable (copyMsg k k.currPid receiver) receiver)
  | none => .ok (k.setSc { k.sc with retval := -1 })

/-- The loop of `proc_recv`: the last slot that waits to send to the current process. -/
def findSender (k : Kernel M) : ℤ :=
  (List.finRange maxNprocess).foldl (fun sender i =>
    if (k.procSet i).status = .waitToSend ∧ (k.procSet i).receiverPid = k.currPid then
      (k.procSet i).pid
    else sender) (-1)

/-- `proc_recv` -/
def procRecv (k : Kernel M) : Except String (Kernel M) :=
  let sender := findSender k
  if sender = -1 then
    procYield (k.setCurr { k.procSet k.procCurrIdx with status := .waitToRecv })
  else procYield (procSetRunnable (copyMsg k sender k.currPid) sender)

/-- `proc_syscall` -/
def procSyscall (k : Kernel M) : Except String (Kernel M) :=
  let type := k.sc.type
  let msg := k.sc.msg
  let k := k.setSc { k.sc with retval := 0, type := .unused }
  match type with
  | .recv => procRecv (k.note (.trap k.currPid .recv))
  | .send => procSend (k.note (.trap k.currPid (.send msg.receiver msg.content)))
  | .unused => .error "proc_syscall: got unknown syscall type=0"
  | .ncalls => .error "proc_syscall: got unknown syscall type=3"
  | .other type => .error ("proc_syscall: got unknown syscall type=" ++ toString type)

/-- `ctx_entry`: run the handler, then return to the process in `proc_curr_idx`. -/
def ctxEntry (kernelEntry : Kernel M → Except String (Kernel M)) (k : Kernel M) :
    Except String (Kernel M) := do
  let k ← kernelEntry k
  return k.note (.run k.currPid k.sc.retval k.sc.msg)

/-- The path that takes the current user process down and gives control back to the shell. -/
def killCurr (k : Kernel M) : Except String (Kernel M) :=
  ctxEntry procYield (procSetRunnable (procFree k k.currPid) gpidShell)

/-- `EXCP_ID_ECALL_U` -/
abbrev excpIdEcallU : ℕ := 8

/-- `EXCP_ID_ECALL_S` -/
abbrev excpIdEcallS : ℕ := 9

/-- `EXCP_ID_ECALL_M` -/
abbrev excpIdEcallM : ℕ := 11

/-- `excp_entry`. The last disjunct of the source is the constant itself, not a comparison. -/
def excpEntry (k : Kernel M) (id : ℕ) : Except String (Kernel M) :=
  if id = excpIdEcallU ∨ id = excpIdEcallS ∨ excpIdEcallM ≠ 0 then ctxEntry procSyscall k
  else if k.currPid ≥ gpidUserStart then killCurr k
  else .error ("excp_entry: kernel got exception " ++ toString id)

/-- `INTR_ID_SOFT` -/
abbrev intrIdSoft : ℕ := 3

/-- `INTR_ID_TIMER` -/
abbrev intrIdTimer : ℕ := 7

/-- `intr_entry`; `ttyRecvIntr` is the result of `earth->tty_recv_intr`, which sees Ctrl+C. -/
def intrEntry (k : Kernel M) (id : ℕ) (ttyRecvIntr : Bool) : Except String (Kernel M) :=
  if id = intrIdTimer ∧ k.currPid < gpidShell then .ok k
  else if ttyRecvIntr ∧ k.currPid ≥ gpidUserStart then killCurr k
  else if id = intrIdSoft then ctxEntry procSyscall k
  else if id = intrIdTimer then ctxEntry procYield k
  else .error ("intr_entry: got unknown interrupt " ++ toString id)

/-! ## `syscall.c` -/

/-- `sys_invoke`. The number of the exception depends on the privilege level of the process, but
`excp_entry` does not look at it. -/
def sysInvoke (k : Kernel M) : Except String (Kernel M) := excpEntry k excpIdEcallU

/-- `sys_send` up to the `ecall`; `content` is the content field after the `memcpy`. -/
def sysSend (k : Kernel M) (receiver : ℤ) (content : M) : Except String (Kernel M) :=
  sysInvoke (k.setSc { k.sc with type := .send, msg := { k.sc.msg with receiver, content } })

/-- `sys_recv` up to the `ecall`. -/
def sysRecv (k : Kernel M) : Except String (Kernel M) :=
  sysInvoke (k.setSc { k.sc with type := .recv })

/-! ## Runs of the kernel -/

/-- The kernel when `main` of `grass.c` jumps to the entry of `GPID_PROCESS`. The table is in
zeroed memory; `area` is what the processes' system-call areas hold. -/
def boot (area : ℤ → Syscall M) : Kernel M where
  procSet i := if i = 0 then ⟨1, .running, 0⟩ else ⟨0, .unused, 0⟩
  procCurrIdx := 0
  procNprocs := 1
  mmuPid := gpidProcess
  area := area
  log := []

/-- The kernel and what `GPID_PROCESS` remembers between its calls: the pid that `proc_alloc`
returned last, until it is set ready. -/
structure Machine (M : Type) where
  kernel : Kernel M
  allocated : Option ℤ

/-- What can happen next. The current process makes a system call, an interrupt arrives, or
`GPID_PROCESS` calls one of the functions of the process table. -/
inductive Action (M : Type)
  | send (receiver : ℤ) (content : M)
  | recv
  | intr (id : ℕ) (ttyRecvIntr : Bool)
  | alloc
  | setReady (pid : ℤ)
  | free (pid : ℤ)

/-- One step of the machine. `GPID_PROCESS` calls `proc_set_ready` on the pid just allocated,
`proc_free` on user pids or `-1`, and `proc_alloc` fewer than `2 ^ 31` times; `none` also stands for
a `FATAL`. -/
def step (m : Machine M) : Action M → Option (Machine M)
  | .send receiver content =>
    (sysSend m.kernel receiver content).toOption.map fun k => { m with kernel := k }
  | .recv => (sysRecv m.kernel).toOption.map fun k => { m with kernel := k }
  | .intr id ttyRecvIntr =>
    (intrEntry m.kernel id ttyRecvIntr).toOption.map fun k => { m with kernel := k }
  | .alloc =>
    if m.kernel.currPid = gpidProcess ∧ m.kernel.procNprocs + 1 < 2 ^ 31 then
      (procAlloc m.kernel).toOption.map fun r => ⟨r.2, some r.1⟩
    else none
  | .setReady pid =>
    if m.kernel.currPid = gpidProcess ∧ m.allocated = some pid then
      some ⟨procSetReady m.kernel pid, none⟩
    else none
  | .free pid =>
    if m.kernel.currPid = gpidProcess ∧ (pid ≥ gpidUserStart ∨ pid = -1) then
      some { m with kernel := procFree m.kernel pid }
    else none

/-- A call that did not end in a `FATAL`. -/
theorem eq_ok_of_toOption {α : Type} {e : Except String α} {x : α} (h : e.toOption = some x) :
    e = .ok x := by
  cases e with
  | error msg => cases h
  | ok y => exact congrArg Except.ok (Option.some.inj h)

/-- The machine after boot. -/
def bootMachine (area : ℤ → Syscall M) : Machine M := ⟨boot area, none⟩

end Egos.Grass
