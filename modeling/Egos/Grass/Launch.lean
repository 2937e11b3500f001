import Egos.Grass.KeptMemory

/-!
# The start of a program

A process that `GPID_PROCESS` has set ready waits until the scheduler takes it. Other processes may
run before it does. When `proc_yield` takes it, it enters the process by `mret` at `APPS_ENTRY`, and
then its memory is what it was when the process was set ready.
-/

namespace Egos.Grass

open Riscv (Reg)
open Library

variable {σ Op : Type} {A : AddressSpaces σ ℤ Op} {M : PrivateMemories A}
  {k k₁ k₂ : MemKernel σ} {l : Leave σ} {x x' : MemMachine σ} {m m' : Machine Content}
  {p : ℤ} {i : Fin maxNprocess} {W : Memory} {left : Reg → BitVec 64}

/-! ## A process that waits to be entered -/

/-- Slot `i` has a process that is ready, and it is not the current one. -/
structure Idle (k : MemKernel σ) (i : Fin maxNprocess) : Prop where
  status : (k.procSet i).status = .ready
  other : k.procCurrIdx ≠ i
  unique : ∀ j, (k.procSet j).pid = (k.procSet i).pid → j = i

/-- A change that does not concern slot `i`. -/
structure LeavesSlot (k k₁ : MemKernel σ) (i : Fin maxNprocess) : Prop where
  slot : k₁.procSet i = k.procSet i
  pid : ∀ j, (k₁.procSet j).pid = (k.procSet j).pid
  curr : k₁.procCurrIdx = k.procCurrIdx

/-- What leaves the table and the current slot leaves every slot. -/
theorem LeavesSlot.of_eq (hset : k₁.procSet = k.procSet) (hcurr : k₁.procCurrIdx = k.procCurrIdx) :
    LeavesSlot k k₁ i := ⟨by rw [hset], fun j => by rw [hset], hcurr⟩

/-- Two steps that leave a slot, one after the other. -/
theorem LeavesSlot.trans (h : LeavesSlot k k₁ i) (h' : LeavesSlot k₁ k₂ i) : LeavesSlot k k₂ i :=
  ⟨h'.slot.trans h.slot, fun j => (h'.pid j).trans (h.pid j), h'.curr.trans h.curr⟩

/-- An idle process is idle as long as its slot is left. -/
theorem Idle.of_leaves (h : Idle k i) (hl : LeavesSlot k k₁ i) : Idle k₁ i := by
  refine ⟨hl.slot ▸ h.status, hl.curr ▸ h.other, fun j hj => h.unique j ?_⟩
  rw [← hl.pid j, hj, hl.pid i]

/-- Setting the status of another process leaves the slot. -/
theorem leavesSlot_procSetStatus {pid : ℤ} (hpid : (k.procSet i).pid ≠ pid) (status : ProcStatus) :
    LeavesSlot k (k.procSetStatus pid status) i := by
  refine ⟨if_neg hpid, fun j => ?_, rfl⟩
  unfold MemKernel.procSetStatus
  dsimp only
  split <;> rfl

/-- An idle process is not the current one. -/
theorem Idle.currPid_ne (h : Idle k i) : (k.procSet i).pid ≠ k.currPid := fun he =>
  h.other (h.unique _ he.symm)

/-- Writing to the current slot leaves that of an idle process. -/
theorem Idle.setCurr (h : Idle k i) {q : Process} (hpid : q.pid = k.currPid) :
    LeavesSlot k (k.setCurr q) i := by
  refine ⟨Function.update_of_ne h.other.symm _ _, fun j => ?_, rfl⟩
  unfold MemKernel.setCurr
  dsimp only
  by_cases hj : j = k.procCurrIdx
  · rw [hj, Function.update_self, hpid]
    rfl
  · rw [Function.update_of_ne hj]

/-- A handler has passed over slot `i`, or it enters the process there. -/
structure Passed (k : MemKernel σ) (i : Fin maxNprocess) (l : Leave σ) : Prop where
  slot : l.kernel.procCurrIdx ≠ i → l.kernel.procSet i = k.procSet i
  pid : ∀ j, (l.kernel.procSet j).pid = (k.procSet j).pid
  enters : l.kernel.procCurrIdx = i → ∃ k₁, l = .enters k₁

/-- What leaves the slot may come before the handler. -/
theorem Passed.of_leaves (h : Passed k₁ i l) (hl : LeavesSlot k k₁ i) : Passed k i l :=
  ⟨fun hne => (h.slot hne).trans hl.slot, fun j => (h.pid j).trans (hl.pid j), h.enters⟩

/-- `proc_yield` enters the idle process or leaves its slot. -/
theorem Idle.procYield (h : Idle k i) (hl : k.procYield A = .ok l) : Passed k i l := by
  unfold MemKernel.procYield at hl
  cases hnext : k.nextIdx with
  | none =>
    rw [hnext] at hl
    cases hl
  | some next =>
    rw [hnext] at hl
    have hpre : LeavesSlot k
        (if k.currStatus = .running then k.procSetRunnable k.currPid else k) i := by
      split
      · exact leavesSlot_procSetStatus h.currPid_ne _
      · exact .of_eq rfl rfl
    revert hl hpre
    generalize (if k.currStatus = .running then k.procSetRunnable k.currPid else k) = k₁
    intro hl hpre
    have h₁ := h.of_leaves hpre
    dsimp only at hl
    generalize hk₂ : ({ k₁ with procCurrIdx := next } : MemKernel σ).mmuSwitch A
      ({ k₁ with procCurrIdx := next } : MemKernel σ).currPid = k₂ at hl
    have hset : k₂.procSet = k₁.procSet := by
      rw [← hk₂]
      rfl
    have hcurr : k₂.procCurrIdx = next := by
      rw [← hk₂]
      rfl
    have hpid : ∀ j, ((k₂.procSetRunning k₂.currPid).procSet j).pid = (k.procSet j).pid := by
      intro j
      rw [← hpre.pid j, ← hset]
      unfold MemKernel.procSetRunning MemKernel.procSetStatus
      dsimp only
      split <;> rfl
    have hslot : next ≠ i → (k₂.procSetRunning k₂.currPid).procSet i = k.procSet i := by
      intro hne
      rw [← hpre.slot, ← hset]
      refine if_neg fun he => hne (h₁.unique next ?_)
      rw [← hset, he, MemKernel.currPid, hcurr]
    split at hl
    · cases hl
      exact ⟨fun hne => hslot (hcurr ▸ hne), hpid, fun _ => ⟨_, rfl⟩⟩
    · rename_i hready
      cases hl
      refine ⟨fun hne => hslot (hcurr ▸ hne), hpid, fun he => absurd ?_ hready⟩
      have he : next = i := hcurr.symm.trans he
      rw [MemKernel.currStatus, hcurr, hset, he]
      exact h₁.status

/-- So does `proc_send`. -/
theorem Idle.procSend (h : Idle k i) (hl : k.procSend A = .ok l) : Passed k i l := by
  unfold MemKernel.procSend at hl
  have hwrite : LeavesSlot k (k.writeInt A (syscallArg + 4) k.currPid) i := .of_eq rfl rfl
  revert hl hwrite
  generalize k.writeInt A (syscallArg + 4) k.currPid = k₁
  intro hl hwrite
  have h₁ := h.of_leaves hwrite
  dsimp only at hl
  split at hl
  · rename_i j hj
    have hreceiver : (k₁.procSet j).pid = k₁.readInt A (syscallArg + 8) := by
      simpa using List.find?_some hj
    split at hl
    · have hset := h₁.setCurr (q := { k₁.procSet k₁.procCurrIdx with
        status := .waitToSend, receiverPid := k₁.readInt A (syscallArg + 8) }) rfl
      exact ((h₁.of_leaves hset).procYield hl).of_leaves (hwrite.trans hset)
    · rename_i hwait
      -- the receiver waits, and the process in slot `i` does not
      have hne : (k₁.procSet i).pid ≠ k₁.readInt A (syscallArg + 8) := by
        intro he
        apply hwait
        rw [h₁.unique j (hreceiver.trans he.symm), h₁.status]
        decide
      have hcopy : LeavesSlot k₁ (k₁.copyMsg A k₁.currPid (k₁.readInt A (syscallArg + 8))) i :=
        .of_eq rfl rfl
      have hset : LeavesSlot k₁ ((k₁.copyMsg A k₁.currPid
          (k₁.readInt A (syscallArg + 8))).procSetRunnable (k₁.readInt A (syscallArg + 8))) i :=
        hcopy.trans (leavesSlot_procSetStatus (by rw [hcopy.slot]; exact hne) _)
      exact ((h₁.of_leaves hset).procYield hl).of_leaves (hwrite.trans hset)
  · cases hl
    refine ⟨fun _ => hwrite.slot, fun j => hwrite.pid j, fun he => absurd he ?_⟩
    exact h₁.other

/-- So does `proc_recv`. -/
theorem Idle.procRecv (h : Idle k i) (hl : k.procRecv A = .ok l) : Passed k i l := by
  unfold MemKernel.procRecv at hl
  dsimp only at hl
  split at hl
  · have hset := h.setCurr (q := { k.procSet k.procCurrIdx with status := .waitToRecv }) rfl
    exact ((h.of_leaves hset).procYield hl).of_leaves hset
  · rename_i hsome
    -- the sender waits, and the process in slot `i` does not
    have hne : (k.procSet i).pid ≠ k.findSender := by
      intro he
      rcases foldl_last (fun i => (k.procSet i).status = .waitToSend ∧
        (k.procSet i).receiverPid = k.currPid) (fun i => (k.procSet i).pid)
        (List.finRange maxNprocess) (-1) with ⟨hfind, -⟩ | ⟨j, -, hj, hfind⟩
      · exact hsome hfind
      · have hji := h.unique j (hfind.symm.trans he.symm)
        rw [hji, h.status] at hj
        cases hj.1
    have hcopy : LeavesSlot k (k.copyMsg A k.findSender k.currPid) i := .of_eq rfl rfl
    have hset : LeavesSlot k
        ((k.copyMsg A k.findSender k.currPid).procSetRunnable k.findSender) i :=
      hcopy.trans (leavesSlot_procSetStatus (by rw [hcopy.slot]; exact hne) _)
    exact ((h.of_leaves hset).procYield hl).of_leaves hset

/-- So does the dispatch on the type of the system call. -/
theorem Idle.dispatch {type : ℤ} (h : Idle k i) (hl : k.dispatch A type = .ok l) :
    Passed k i l := by
  unfold MemKernel.dispatch at hl
  split at hl
  · exact h.procRecv hl
  · exact h.procSend hl
  all_goals cases hl

/-- A write to memory leaves every slot. -/
theorem leavesSlot_writeInt (k : MemKernel σ) (i : Fin maxNprocess) (a : ℕ) (v : ℤ) :
    LeavesSlot k (k.writeInt A a v) i := .of_eq rfl rfl

/-- So does `proc_syscall`. -/
theorem Idle.procSyscall (h : Idle k i) (hl : k.procSyscall A = .ok l) : Passed k i l := by
  have heq : k.procSyscall A = ((k.writeInt A (syscallArg + 1036) 0).writeInt A syscallArg
      0).dispatch A (k.readInt A syscallArg) := rfl
  rw [heq] at hl
  have hwrite := (leavesSlot_writeInt (A := A) k i (syscallArg + 1036) 0).trans
    (leavesSlot_writeInt (A := A) _ i syscallArg 0)
  exact ((h.of_leaves hwrite).dispatch hl).of_leaves hwrite

/-- The hart is at the entry of a program, with the addresses of `argc` and `argv`. -/
structure AtEntry (c : Context) : Prop where
  mepc : c.mepc = BitVec.ofNat 64 appsEntry
  a0 : c.reg .a0 = BitVec.ofNat 64 appsArg
  a1 : c.reg .a1 = BitVec.ofNat 64 (appsArg + 4)

/-- A process that is entered starts at `APPS_ENTRY`. -/
theorem atEntry_enterApp (k : MemKernel σ) (left : Reg → BitVec 64) :
    AtEntry (k.enterApp left).hart := by
  have hne : Reg.a0 ≠ Reg.a1 := by decide
  unfold MemKernel.enterApp
  refine ⟨rfl, ?_, ?_⟩
  · dsimp only
    rw [Function.update_of_ne hne, Function.update_self]
  · dsimp only
    rw [Function.update_self]

/-- A trap passes over slot `i`, or it enters the process there. -/
structure TrapPassed (k : MemKernel σ) (i : Fin maxNprocess) (k' : MemKernel σ) : Prop where
  slot : k'.procCurrIdx ≠ i → k'.procSet i = k.procSet i
  pid : ∀ j, (k'.procSet j).pid = (k.procSet j).pid
  enters : k'.procCurrIdx = i → AtEntry k'.hart

/-- A trap enters the idle process or leaves its slot, if its handler does. -/
theorem Idle.ctxEntry {e : MemKernel σ → Except String (Leave σ)} {k' : MemKernel σ}
    (h : Idle k i) (he : ∀ {k l}, Idle k i → e k = .ok l → Passed k i l)
    (hk : LeavesSlot k k₁ i) (hk' : (k₁.ctxStart A).ctxEntry A e left = .ok k') :
    TrapPassed k i k' := by
  unfold MemKernel.ctxEntry at hk'
  cases hl : e (k₁.ctxStart A).saveMepc with
  | error msg =>
    rw [hl] at hk'
    cases hk'
  | ok l =>
    rw [hl] at hk'
    cases hk'
    have hsave : LeavesSlot k (k₁.ctxStart A).saveMepc i := hk.trans (.of_eq rfl rfl)
    have hpassed := (he (h.of_leaves hsave) hl).of_leaves hsave
    cases l with
    | returns k₂ =>
      refine ⟨hpassed.slot, hpassed.pid, fun hi => ?_⟩
      obtain ⟨k₃, hk₃⟩ := hpassed.enters hi
      cases hk₃
    | enters k₂ => exact ⟨hpassed.slot, hpassed.pid, fun _ => atEntry_enterApp k₂ left⟩

/-- So does the `ecall` of a system call. -/
theorem Idle.sysInvoke {k' : MemKernel σ} (h : Idle k i) (hk : LeavesSlot k k₁ i)
    (hk' : k₁.excpEntry A excpIdEcallU left = .ok k') : TrapPassed k i k' := by
  unfold MemKernel.excpEntry at hk'
  rw [if_pos (Or.inl rfl)] at hk'
  have hskip : LeavesSlot k k₁.skipEcall i := hk.trans (.of_eq rfl rfl)
  exact h.ctxEntry Idle.procSyscall hskip hk'

/-- Killing the current process makes the shell runnable. -/
theorem Idle.killCurr (h : Idle k i) (hshell : (k.procSet i).pid ≠ gpidShell)
    (huser : k.currPid ≥ gpidUserStart) : LeavesSlot k (k.killCurr A) i := by
  have hall : k.currPid ≠ -1 := by
    intro he
    rw [he] at huser
    exact absurd huser (by decide)
  have hfree : LeavesSlot k (k.procFree A k.currPid) i := by
    unfold MemKernel.procFree
    rw [if_pos hall]
    have hmem : LeavesSlot k { k with memory := A.free k.currPid k.memory } i := .of_eq rfl rfl
    exact hmem.trans (leavesSlot_procSetStatus (by rw [hmem.slot]; exact h.currPid_ne) _)
  exact hfree.trans (leavesSlot_procSetStatus (by rw [hfree.slot]; exact hshell) _)

/-- A trap of another process, which is no user process if it is the shell that waits. -/
theorem Idle.memStep {a : MemAction Op} (h : Idle x.kernel i)
    (hshell : (x.kernel.procSet i).pid = gpidShell → x.kernel.currPid < gpidUserStart)
    (htrap : Traps x a)
    (hstep : memStep A x a = some x') : TrapPassed x.kernel i x'.kernel := by
  cases a with
  | send receiver msg size left =>
    obtain ⟨k', hk', rfl⟩ := Option.map_eq_some_iff.1 hstep
    have hk' := eq_ok_of_toOption hk'
    rw [MemKernel.sysSend, if_neg (not_lt.2 htrap)] at hk'
    have hput : LeavesSlot x.kernel (x.kernel.putSend A receiver msg size) i := .of_eq rfl rfl
    exact h.sysInvoke hput hk'
  | recv size left =>
    obtain ⟨k', hk', rfl⟩ := Option.map_eq_some_iff.1 hstep
    have hk' := eq_ok_of_toOption hk'
    rw [MemKernel.sysRecv, if_neg (not_lt.2 htrap)] at hk'
    exact h.sysInvoke (leavesSlot_writeInt _ _ _ _) hk'
  | intr id b left =>
    obtain ⟨k', hk', rfl⟩ := Option.map_eq_some_iff.1 hstep
    have hk' := eq_ok_of_toOption hk'
    rw [MemKernel.intrEntry, if_neg htrap] at hk'
    split at hk'
    · rename_i hkill
      have hother : (x.kernel.procSet i).pid ≠ gpidShell := fun he =>
        absurd hkill.2 (not_le.2 (hshell he))
      exact h.ctxEntry Idle.procYield (h.killCurr hother hkill.2) hk'
    split at hk'
    · exact h.ctxEntry Idle.procSyscall (.of_eq rfl rfl) hk'
    split at hk'
    · exact h.ctxEntry Idle.procYield (.of_eq rfl rfl) hk'
    · cases hk'
  | alloc | setReady | free | store | compute | perform => exact absurd htrap (by simp [Traps])

/-! ## From `proc_set_ready` to the entry -/

/-- The process in slot `i` has not run yet: it is ready, or it has just been entered. Outside its
system-call area, it has the memory `W`. -/
structure Launching (M : PrivateMemories A) (x : MemMachine σ) (p : ℤ) (i : Fin maxNprocess)
    (W : Memory) : Prop where
  pid : (x.kernel.procSet i).pid = p
  view : ∀ a, ¬ InArea a → M.view x.kernel.memory p a = W a
  ready : x.kernel.procCurrIdx ≠ i → (x.kernel.procSet i).status = .ready
  entered : x.kernel.procCurrIdx = i → AtEntry x.kernel.hart

/-- A step of another process. -/
theorem Launching.step {a : MemAction Op} (h : Launching M x p i W) (hp : x.kernel.currPid ≠ p)
    (hfollows : Follows M x m) (hmatch : Matched M x a x' m) (hstep : memStep A x a = some x')
    (hstart : HasStarted x p) (hlive : Live x'.kernel.procSet p) : Launching M x' p i W := by
  have hbefore := hfollows.live_matched hmatch hstart hlive
  have hvisible : p ≠ A.curr x.kernel.memory := fun he =>
    hp (hfollows.curr.symm.trans he.symm)
  have hidx : x.kernel.procCurrIdx ≠ i := by
    rintro rfl
    exact hp h.pid
  have hview : ∀ a, ¬ InArea a → M.view x'.kernel.memory p a = W a := fun b hb => by
    rw [hmatch.keeps.view p (hmatch.keeps.seen p hbefore hlive) b hb,
      memoriesAfter_view_of_ne a hvisible]
    exact h.view b hb
  by_cases htrap : Traps x a
  · have hidle : Idle x.kernel i := ⟨h.ready hidx, hidx, fun j hj =>
      hfollows.slot_inj (hj.trans h.pid) h.pid hbefore⟩
    -- a kill would make the shell runnable, but no user process runs before it
    have hshell : (x.kernel.procSet i).pid = gpidShell → x.kernel.currPid < gpidUserStart := by
      rw [← hfollows.sim.currPid, ← hfollows.sim.procSet]
      refine fun he => hfollows.order.shell i he (Or.inr ?_)
      rw [hfollows.sim.procSet]
      exact h.ready hidx
    have hpassed := hidle.memStep hshell htrap hstep
    refine ⟨(hpassed.pid i).trans h.pid, hview, fun hi => ?_, hpassed.enters⟩
    rw [hpassed.slot hi]
    exact h.ready hidx
  · have hquiet := memStep_no_trap htrap hstep (hfollows.started h.pid hbefore)
      (h.pid.symm ▸ hstart.2)
    obtain ⟨m', h'⟩ := hmatch.follows
    rcases hquiet.slot with hslot | hslot
    · refine ⟨hslot ▸ h.pid, hview, fun _ => ?_, fun hi => absurd (hquiet.curr.symm.trans hi) hidx⟩
      rw [hslot]
      exact h.ready hidx
    · -- a process that has been freed is not live
      have hpid : (x'.kernel.procSet i).pid = p := by rw [hslot, ← h.pid]
      have hstatus := h'.started hpid hlive
      rw [hslot] at hstatus
      cases hstatus

/-- `proc_set_ready` of the process that has been loaded. -/
theorem launching_of_setReady (hfollows : Follows M x m)
    (hstep : memStep A x (.setReady p) = some x') (hi : (x'.kernel.procSet i).pid = p) :
    Launching M x' p i (M.view x.kernel.memory p) := by
  rw [memStep] at hstep
  split at hstep
  · rename_i hguard
    cases hstep
    have hpid : (x.kernel.procSet i).pid = p := by
      by_contra hne
      rw [MemKernel.procSetReady, MemKernel.procSetStatus] at hi
      exact hne ((congrArg Process.pid (if_neg hne)).symm.trans hi)
    have hslot : ((x.kernel.procSetReady p).procSet i).status = .ready :=
      congrArg Process.status (if_pos hpid)
    refine ⟨hi, fun _ _ => rfl, fun _ => hslot, fun hcurr => ?_⟩
    -- `GPID_PROCESS` runs, and it has started
    have hcurr : x.kernel.procCurrIdx = i := hcurr
    have hloading := hfollows.loads.allocated i
    rw [hfollows.sim.procSet, hfollows.allocated, hpid] at hloading
    have hrunning := hfollows.currStatus
    rw [MemKernel.currStatus, hcurr] at hrunning
    have := hloading hguard.2
    rw [hrunning] at this
    cases this
  · cases hstep

/-- The process is at the entry of its program and its memory is `W`, but for its system-call
area. -/
structure EnteredWith (M : PrivateMemories A) (x : MemMachine σ) (p : ℤ) (W : Memory) : Prop where
  entry : AtEntry x.kernel.hart
  memory : ∀ a, ¬ InArea a → M.view x.kernel.memory p a = W a

/-- A process that is set ready and runs, after any steps of others, has just been entered. -/
theorem enteredWith_of_run {s : σ} {hart : Context} {x₁ x₂ : MemMachine σ}
    (hb : BootsOn M s) (hreach : Reach (memStep A) (MemOk M) (bootMem s hart) x)
    (hok : MemOk M x (.setReady p)) (hstep : memStep A x (.setReady p) = some x₁)
    (hrun : Reach (memStep A) (fun y b => MemOk M y b ∧ y.kernel.currPid ≠ p) x₁ x₂)
    (hback : x₂.kernel.currPid = p) : EnteredWith M x₂ p (M.view x.kernel.memory p) := by
  obtain ⟨m, hfollows, hmatch⟩ := exists_matched hb hreach hok hstep
  have hstarted : HasStarted x₁ p := by
    obtain ⟨m₁, h₁⟩ := hmatch.follows
    rw [h₁.hasStarted_iff]
    exact hfollows.started_of_setReady h₁ hstep
  -- along the run, if the process has not been freed, it has not run yet
  have hinv := hrun.invariant (P := fun y => Reach (memStep A) (MemOk M) (bootMem s hart) y ∧
    HasStarted y p ∧ (Live y.kernel.procSet p →
      ∃ i, Launching M y p i (M.view x.kernel.memory p)))
    ⟨hreach.step hok hstep, hstarted, fun hlive => ?_⟩ ?_
  · obtain ⟨hreach₂, -, hlaunching⟩ := hinv
    obtain ⟨area, m₂, -, h₂, -⟩ := exists_run_on_areas hb
      (hreach₂.mono fun _ _ hok => ⟨hok, False.elim⟩) fun _ => syscallAt fun _ => 0
    have hlive : Live x₂.kernel.procSet p := hback ▸ h₂.live_curr
    obtain ⟨i, hi⟩ := hlaunching hlive
    exact ⟨hi.entered (h₂.slot_inj hback hi.pid hlive), hi.view⟩
  · obtain ⟨i, hi, -⟩ := hlive
    exact ⟨i, launching_of_setReady hfollows hstep hi⟩
  · rintro y b y' ⟨hreachy, hstarted, hlaunching⟩ ⟨hoky, hother⟩ hnext
    obtain ⟨m, hfollows, hmatch⟩ := exists_matched hb hreachy hoky hnext
    refine ⟨hreachy.step hoky hnext, hfollows.hasStarted_matched hmatch hstarted, fun hlive => ?_⟩
    obtain ⟨i, hi⟩ := hlaunching (hfollows.live_matched hmatch hstarted hlive)
    exact ⟨i, hi.step hother hfollows hmatch hnext hstarted hlive⟩

end Egos.Grass
