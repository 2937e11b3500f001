import Egos.Earth.TrapEntry
import Egos.Grass.RoundRobin

/-!
# Privilege levels in page-table mode

The kernel together with `mstatus`, the register `tp` and the privilege level of the running
process. A trap goes through `trap_entry_vm`, the handlers and `timer_reset`, and ends in one of two
`mret`: the one in `proc_yield` that enters a new process, or the one at the end of `trap_entry_vm`.
What a process leaves in its registers, and what `CTX_RESTORE` finds on a stack, is arbitrary; `tp`
is not among the registers that are saved and restored.

Privilege levels are the numbers of the architecture: 0 for user and 1 for supervisor. The
interrupt-enable bits of `mstatus` are left out.
-/

namespace Egos.Grass

open Riscv

variable {M : Type}

/-! ## `mstatus` -/

/-- `mstatus.MPP` -/
def mpp (mstatus : BitVec 64) : BitVec 2 := mstatus.extractLsb' 11 2

/-- `mstatus.MPRV` -/
def mprv (mstatus : BitVec 64) : Bool := mstatus.getLsbD 17

/-- Write `mstatus.MPP`. -/
def setMpp (mstatus : BitVec 64) (level : BitVec 2) : BitVec 64 :=
  (mstatus &&& ~~~ ((3 : BitVec 64) <<< 11)) ||| (level.setWidth 64 <<< 11)

/-- The hart at the first instruction of the trap entry: the hardware has put the privilege level of
the interrupted code into `mstatus.MPP`. -/
def takeTrap (h : Hart) (level : BitVec 2) : Hart :=
  h.setCsr .mstatus (setMpp (h.csr .mstatus) level)

/-- `timer_reset`: `mstatus.MPRV` is cleared while the timer registers are written. -/
def timerReset (h : Hart) : Hart :=
  let h := h.setCsr .mstatus (h.csr .mstatus &&& ~~~ ((1 : BitVec 64) <<< 17))
  h.setCsr .mstatus (h.csr .mstatus ||| ((1 : BitVec 64) <<< 17))

/-- The end of `proc_yield` for a process that is `PROC_READY`, up to `mret`. -/
def enterApp (h : Hart) (currPid : ℤ) : Hart :=
  let mstatus := h.csr .mstatus
  let pp : BitVec 64 := if currPid < gpidUserStart then 1 else 0
  let h := h.setCsr .mstatus (h.csr .mstatus |||
    ((mstatus &&& ~~~ ((3 : BitVec 64) <<< 11)) ||| (pp <<< 11)))
  h.setCsr .mstatus (h.csr .mstatus &&& ~~~ ((1 : BitVec 64) <<< 17))

/-- The end of `trap_entry_vm` up to `mret`, on the stack of some process. -/
def resumeApp (h : Hart) (restored : Reg → BitVec 64) : Hart :=
  run Earth.trapLeave { h with reg := fun r => if r = .tp then h.reg .tp else restored r }

/-! ## Runs -/

/-- An `mret`: the process it gives control to, and `mstatus` when it is executed. -/
structure Mret where
  pid : ℤ
  mpp : BitVec 2
  mprv : Bool
deriving DecidableEq

/-- The kernel, the registers, the privilege level of the running process, and the history of
`mret`. -/
structure Cpu (M : Type) where
  machine : Machine M
  hart : Hart
  level : BitVec 2
  mrets : List Mret

/-- A step of the machine, with the registers at the trap and those restored at its end. -/
structure CpuAction (M : Type) where
  action : Action M
  regs : Reg → BitVec 64
  restored : Reg → BitVec 64

/-- System calls and interrupts are traps; `GPID_PROCESS` calls the functions of the process table
directly. -/
def Action.traps : Action M → Bool
  | .send _ _ | .recv | .intr _ _ => true
  | _ => false

/-- The timer interrupts a kernel process, and `intr_entry` returns at once. -/
def returnsAtOnce (k : Kernel M) : Action M → Bool
  | .intr id _ => decide (id = intrIdTimer ∧ k.currPid < gpidShell)
  | _ => false

/-- What the handlers do to the hart, from `trap_entry_vm` to the `mret` that gives control to the
current process of `m'`. -/
def handleTrap (c : Cpu M) (a : CpuAction M) (m' : Machine M) : Hart :=
  let h := run Earth.trapEnter (takeTrap { c.hart with reg := a.regs } c.level)
  match yieldCall c.machine a.action with
  | some k =>
    let h := timerReset h
    if (k.procSet m'.kernel.procCurrIdx).status = .ready then enterApp h m'.kernel.currPid
    else resumeApp h a.restored
  | none =>
    resumeApp (if returnsAtOnce c.machine.kernel a.action then timerReset h else h) a.restored

/-- `mret`: the privilege level comes from `mstatus.MPP`, which becomes 0. `mstatus.MPRV` stays as
it is, as in version 1.10 of the privileged architecture. -/
def mret (c : Cpu M) (h : Hart) (m' : Machine M) : Cpu M where
  machine := m'
  hart := h.setCsr .mstatus (setMpp (h.csr .mstatus) 0)
  level := mpp (h.csr .mstatus)
  mrets := ⟨m'.kernel.currPid, mpp (h.csr .mstatus), mprv (h.csr .mstatus)⟩ :: c.mrets

/-- One step. -/
def cpuStep (c : Cpu M) (a : CpuAction M) : Option (Cpu M) :=
  (step c.machine a.action).map fun m' =>
    if a.action.traps then mret c (handleTrap c a m') m' else { c with machine := m' }

/-- The state after boot: `main` of `earth.c` enters the grass layer at supervisor level, which
jumps to `GPID_PROCESS`. -/
def bootCpu (area : ℤ → Syscall M) (hart : Hart) : Cpu M where
  machine := bootMachine area
  hart
  level := 1
  mrets := []

/-! ## Bits -/

/-- The bits of supervisor mode. -/
theorem mpp_eq_one {x : BitVec 64} (h₁ : x[11] = true) (h₂ : x[12] = false) : mpp x = 1 := by
  apply BitVec.eq_of_getLsbD_eq
  intro i hi
  rw [mpp, BitVec.getLsbD_extractLsb']
  interval_cases i
  · simp [h₁]
  · simp [h₂]

/-- Between `trap_entry_vm` and `mret`, in a trap from supervisor level: `mstatus.MPP` is 1, and so
is its copy in `tp`. -/
structure InTrap (h : Hart) : Prop where
  lower : (h.csr .mstatus)[11] = true
  upper : (h.csr .mstatus)[12] = false
  tp : h.reg .tp = 0x800

/-- The hart when `handle_trap` is called, after a trap from supervisor mode. -/
theorem inTrap_trapEnter (h : Hart) : InTrap (run Earth.trapEnter (takeTrap h 1)) := by
  refine ⟨?_, ?_, ?_⟩
  · rw [Earth.trapEnter_mstatus]
    simp [takeTrap, setMpp]
  · rw [Earth.trapEnter_mstatus]
    simp [takeTrap, setMpp]
  · rw [Earth.trapEnter_tp]
    have h1 : (setMpp (h.csr .mstatus) 1) &&& 0x1800 = 0x800 := by
      rw [setMpp, BitVec.and_or_distrib_right, BitVec.and_assoc]
      have hmask : (~~~ ((3 : BitVec 64) <<< 11)) &&& 0x1800 = 0#64 := by decide
      rw [hmask, BitVec.and_zero]
      decide
    exact h1

/-- `timer_reset` leaves `mstatus`. -/
theorem InTrap.timerReset {h : Hart} (hin : InTrap h) : InTrap (timerReset h) := by
  refine ⟨?_, ?_, hin.tp⟩
  · simp [Grass.timerReset, hin.lower]
  · simp [Grass.timerReset, hin.upper]

/-- A new process is entered at supervisor level, whatever its pid: `csrs` cannot clear
`mstatus.MPP`. -/
theorem InTrap.enterApp {h : Hart} (hin : InTrap h) (currPid : ℤ) :
    mpp ((enterApp h currPid).csr .mstatus) = 1 ∧
      mprv ((enterApp h currPid).csr .mstatus) = false := by
  constructor
  · refine mpp_eq_one ?_ ?_
    · simp [Grass.enterApp, hin.lower]
    · simp only [Grass.enterApp]
      split <;> simp [hin.upper]
  · simp [mprv, Grass.enterApp]

/-- A process is resumed at supervisor level. -/
theorem InTrap.resumeApp {h : Hart} (hin : InTrap h) (restored : Reg → BitVec 64) :
    mpp ((resumeApp h restored).csr .mstatus) = 1 ∧
      mprv ((resumeApp h restored).csr .mstatus) = false := by
  rw [Grass.resumeApp, Earth.trapLeave_mstatus]
  simp only [if_true, hin.tp]
  constructor
  · refine mpp_eq_one ?_ ?_
    · simp
    · simp
  · simp [mprv]

/-! ## Every process runs at supervisor level -/

/-- A trap from supervisor mode goes back to it. -/
theorem handleTrap_level {c : Cpu M} (hlevel : c.level = 1) (a : CpuAction M) (m' : Machine M) :
    mpp ((handleTrap c a m').csr .mstatus) = 1 ∧
      mprv ((handleTrap c a m').csr .mstatus) = false := by
  have hin := inTrap_trapEnter { c.hart with reg := a.regs }
  simp only [handleTrap, hlevel]
  cases yieldCall c.machine a.action with
  | some k =>
    dsimp only
    split
    · exact hin.timerReset.enterApp _
    · exact hin.timerReset.resumeApp _
  | none =>
    dsimp only
    split
    · exact hin.timerReset.resumeApp _
    · exact hin.resumeApp _

/-- Processes run at supervisor level, and every `mret` so far led there. -/
structure AtSupervisor (c : Cpu M) : Prop where
  level : c.level = 1
  mrets : ∀ e ∈ c.mrets, e.mpp = 1 ∧ e.mprv = false

/-- Every step keeps to supervisor mode. -/
theorem AtSupervisor.step {c c' : Cpu M} (h : AtSupervisor c) {a : CpuAction M}
    (hstep : cpuStep c a = some c') : AtSupervisor c' := by
  obtain ⟨m', -, rfl⟩ := Option.map_eq_some_iff.1 hstep
  split
  · have hmret := handleTrap_level h.level a m'
    refine ⟨hmret.1, fun e he => ?_⟩
    rcases List.mem_cons.1 he with rfl | he
    · exact hmret
    · exact h.mrets e he
  · exact ⟨h.level, h.mrets⟩

/-- So does every run. -/
theorem atSupervisor_of_reach {area : ℤ → Syscall M} {hart : Hart} {c : Cpu M}
    (h : Reach cpuStep (fun _ _ => True) (bootCpu area hart) c) : AtSupervisor c :=
  h.invariant ⟨rfl, fun _ he => absurd he List.not_mem_nil⟩ fun _ _ _ hc _ hstep => hc.step hstep

/-- The privilege level that a process is meant to run at. -/
def levelOf (pid : ℤ) : BitVec 2 := if pid ≥ gpidUserStart then 0 else 1

/-- In every run after boot in page-table mode, all `mret` are executed with `mstatus.MPRV` cleared
and with the privilege level of their process in `mstatus.MPP` exactly if none of them leads to a
user process. -/
theorem mret_levels_iff (area : ℤ → Syscall M) (hart : Hart) {c : Cpu M}
    (hreach : Reach cpuStep (fun _ _ => True) (bootCpu area hart) c) :
    (∀ e ∈ c.mrets, e.mprv = false ∧ e.mpp = levelOf e.pid) ↔
      ∀ e ∈ c.mrets, e.pid < gpidUserStart := by
  have hsupervisor := (atSupervisor_of_reach hreach).mrets
  constructor
  · intro h e he
    by_contra hge
    have hlevel := (h e he).2
    rw [(hsupervisor e he).1, levelOf, if_pos (not_lt.1 hge)] at hlevel
    exact absurd hlevel (by decide)
  · intro h e he
    obtain ⟨hmpp, hmprv⟩ := hsupervisor e he
    refine ⟨hmprv, ?_⟩
    rw [hmpp, levelOf, if_neg (not_le.2 (h e he))]

/-- A hart with 0 everywhere. -/
def zeroHart : Hart := ⟨fun _ => 0, fun _ => 0, fun _ => 0⟩

/-- Steps at which all registers are 0. -/
def zeroRegs (as : List (Action Unit)) : List (CpuAction Unit) :=
  as.map fun a => ⟨a, fun _ => 0, fun _ => 0⟩

/-- `GPID_PROCESS` starts four processes, each of which waits for a message at once, up to the last,
which is the first user process. -/
def firstUserProcess : List (Action Unit) :=
  [.alloc, .setReady 2, .alloc, .setReady 3, .alloc, .setReady 4, .alloc, .setReady 5,
    .recv, .recv, .recv, .recv]

/-- As long as only servers run, they run at their level. -/
theorem mret_levels_servers :
    ∃ c, runActions cpuStep (bootCpu (fun _ => ⟨.unused, ⟨0, 0, ()⟩, 0⟩) zeroHart)
        (zeroRegs (firstUserProcess.take 11)) = some c ∧
      c.mrets.map Mret.pid = [4, 3, 2] ∧
      ∀ e ∈ c.mrets, e.mprv = false ∧ e.mpp = levelOf e.pid := by
  obtain ⟨c, hrun, hpids⟩ := Option.map_eq_some_iff.1 (by decide +kernel :
    (runActions cpuStep (bootCpu (fun _ => ⟨.unused, ⟨0, 0, ()⟩, 0⟩) zeroHart)
      (zeroRegs (firstUserProcess.take 11))).map (fun c => c.mrets.map Mret.pid) = some [4, 3, 2])
  refine ⟨c, hrun, hpids, (mret_levels_iff _ _ (Reach.of_runActions_true _ hrun)).2 fun e he => ?_⟩
  have hservers : ∀ pid ∈ c.mrets.map Mret.pid, pid < gpidUserStart := by
    rw [hpids]
    decide
  exact hservers _ (List.mem_map_of_mem he)

/-- The first user process is entered at supervisor level. -/
theorem mret_levels_user :
    ∃ c, Reach cpuStep (fun _ _ => True)
        (bootCpu (fun _ => (⟨.unused, ⟨0, 0, ()⟩, 0⟩ : Syscall Unit)) zeroHart) c ∧
      ⟨5, 1, false⟩ ∈ c.mrets ∧ levelOf 5 = 0 := by
  obtain ⟨c, hrun, hmrets⟩ := Option.map_eq_some_iff.1 (by decide +kernel :
    (runActions cpuStep (bootCpu (fun _ => ⟨.unused, ⟨0, 0, ()⟩, 0⟩) zeroHart)
      (zeroRegs firstUserProcess)).map Cpu.mrets
        = some [⟨5, 1, false⟩, ⟨4, 1, false⟩, ⟨3, 1, false⟩, ⟨2, 1, false⟩])
  refine ⟨c, Reach.of_runActions_true _ hrun, ?_, rfl⟩
  rw [hmrets]
  exact List.mem_cons_self

end Egos.Grass
