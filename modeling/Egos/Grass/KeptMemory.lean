import Egos.Grass.Contexts
import Egos.Library.PageLoader

/-!
# Memory that the kernel does not touch

Whatever a system call or an interrupt does, the kernel acts on memory by switching processes, by
stores to what is visible, and by freeing processes. What these keep is kept by every step. So a pid
that has not been given out has no memory, and the pages of a process that is being loaded stay.
-/

namespace Egos.Grass

open Riscv (Reg)
open Earth Library

variable {σ Op : Type} {A : AddressSpaces σ ℤ Op} {M : PrivateMemories A}
  {k : MemKernel σ} {l : Leave σ} {x x' : MemMachine σ} {m m' : Machine Content}
  {left : Reg → BitVec 64}

/-- What the kernel does to memory keeps `P`, if it frees only the processes in `safe`. -/
structure KeptByKernel (A : AddressSpaces σ ℤ Op) (safe : ℤ → Prop) (P : σ → Prop) : Prop where
  switch : ∀ {s p}, P s → P (A.switch p s)
  store : ∀ {s a b}, P s → P (A.store s a b)
  free : ∀ {s p}, safe p → P s → P (A.free p s)

namespace KeptByKernel

variable {safe : ℤ → Prop} {P : σ → Prop} (h : KeptByKernel A safe P)

include h

/-- Stores of several bytes keep `P`. -/
theorem storeBytes {s : σ} (hs : P s) (a n : ℕ) (f : ℕ → UInt8) : P (A.storeBytes s a n f) := by
  induction n with
  | zero => exact hs
  | succ n ih => exact h.store ih

/-- So does a write of the kernel to what is visible. -/
theorem writeBytes (hk : P k.memory) (a n : ℕ) (f : ℕ → UInt8) : P (k.writeBytes A a n f).memory :=
  h.storeBytes hk a n f

/-- So does a write of one `int`. -/
theorem writeInt (hk : P k.memory) (a : ℕ) (v : ℤ) : P (k.writeInt A a v).memory :=
  h.writeBytes hk a 4 _

/-- `proc_yield` switches once at most. -/
theorem procYield (hk : P k.memory) (hl : k.procYield A = .ok l) : P l.kernel.memory := by
  unfold MemKernel.procYield at hl
  cases hnext : k.nextIdx with
  | none =>
    rw [hnext] at hl
    cases hl
  | some next =>
    rw [hnext] at hl
    have hpre : P (if k.currStatus = .running then k.procSetRunnable k.currPid else k).memory := by
      split
      · exact hk
      · exact hk
    revert hl hpre
    generalize (if k.currStatus = .running then k.procSetRunnable k.currPid else k) = k₁
    intro hl hpre
    dsimp only at hl
    split at hl
    · cases hl
      exact h.switch hpre
    · cases hl
      exact h.switch hpre

/-- The copy of a message switches to the sender, to the receiver and writes. -/
theorem copyMsg (hk : P k.memory) (src dst : ℤ) : P (k.copyMsg A src dst).memory :=
  h.storeBytes (h.switch (h.switch hk)) _ _ _

/-- `proc_send` writes to the area, and copies the message if the receiver waits for it. -/
theorem procSend (hk : P k.memory) (hl : k.procSend A = .ok l) : P l.kernel.memory := by
  unfold MemKernel.procSend at hl
  have hwrite := h.writeInt hk (syscallArg + 4) k.currPid
  revert hl hwrite
  generalize k.writeInt A (syscallArg + 4) k.currPid = k₁
  intro hl hwrite
  dsimp only at hl
  split at hl
  · split at hl
    · exact h.procYield (show P (k₁.setCurr _).memory from hwrite) hl
    · exact h.procYield (show P ((k₁.copyMsg A _ _).procSetRunnable _).memory from
        h.copyMsg hwrite _ _) hl
  · cases hl
    exact h.writeInt hwrite _ _

/-- `proc_recv` copies a message and yields, or only yields. -/
theorem procRecv (hk : P k.memory) (hl : k.procRecv A = .ok l) : P l.kernel.memory := by
  unfold MemKernel.procRecv at hl
  dsimp only at hl
  split at hl
  · exact h.procYield (show P (k.setCurr _).memory from hk) hl
  · exact h.procYield (show P ((k.copyMsg A _ _).procSetRunnable _).memory from
      h.copyMsg hk _ _) hl

/-- The system call is one of the two, or the end of the kernel. -/
theorem dispatch {type : ℤ} (hk : P k.memory) (hl : k.dispatch A type = .ok l) :
    P l.kernel.memory := by
  unfold MemKernel.dispatch at hl
  split at hl
  · exact h.procRecv hk hl
  · exact h.procSend hk hl
  all_goals cases hl

/-- `proc_syscall` writes to the area before it dispatches. -/
theorem procSyscall (hk : P k.memory) (hl : k.procSyscall A = .ok l) : P l.kernel.memory := by
  have heq : k.procSyscall A = ((k.writeInt A (syscallArg + 1036) 0).writeInt A syscallArg
      0).dispatch A (k.readInt A syscallArg) := rfl
  rw [heq] at hl
  exact h.dispatch (h.writeInt (h.writeInt hk _ _) _ _) hl

/-- A trap keeps `P` if its handler does: the frame is stored to what is visible. -/
theorem ctxEntry {e : MemKernel σ → Except String (Leave σ)} {k' : MemKernel σ}
    (he : ∀ {k l}, P k.memory → e k = .ok l → P l.kernel.memory) (hk : P k.memory)
    (hk' : (k.ctxStart A).ctxEntry A e left = .ok k') : P k'.memory := by
  unfold MemKernel.ctxEntry at hk'
  cases hl : e (k.ctxStart A).saveMepc with
  | error msg =>
    rw [hl] at hk'
    cases hk'
  | ok l =>
    rw [hl] at hk'
    cases hk'
    have hstart : P (k.ctxStart A).saveMepc.memory := h.storeBytes hk _ _ _
    have hmem : (MemKernel.resume A left l).memory = l.kernel.memory := by
      cases l <;> rfl
    rw [hmem]
    exact he hstart hl

/-- Freeing one process keeps `P` if it is safe to free. -/
theorem procFree_one {pid : ℤ} (hk : P k.memory) (hpid : pid ≠ -1) (hsafe : safe pid) :
    P (k.procFree A pid).memory := by
  unfold MemKernel.procFree
  rw [if_pos hpid]
  exact h.free hsafe hk

/-- One round of the loop of `proc_free` keeps `P` if all processes are safe to free. -/
theorem freeUser (hsafe : ∀ p, safe p) (hk : P k.memory) (j : Fin maxNprocess) :
    P (k.freeUser A j).memory := by
  unfold MemKernel.freeUser
  split
  · exact h.free (hsafe _) hk
  · exact hk

/-- The loop of `proc_free`, by induction on the slots that are left. -/
theorem freeUsers (hsafe : ∀ p, safe p) (l : List (Fin maxNprocess)) (hk : P k.memory) :
    P (l.foldl (fun k i => k.freeUser A i) k).memory := by
  induction l generalizing k with
  | nil => exact hk
  | cons j l ih => exact ih (h.freeUser hsafe hk j)

/-- `proc_free` keeps `P`, for one process and for all of them. -/
theorem procFree (hsafe : ∀ p, safe p) (hk : P k.memory) (pid : ℤ) :
    P (k.procFree A pid).memory := by
  by_cases hpid : pid = -1
  · unfold MemKernel.procFree
    rw [if_neg (not_not.2 hpid)]
    exact h.freeUsers hsafe _ hk
  · exact h.procFree_one hk hpid (hsafe pid)

/-- The `ecall` of a system call keeps `P`. -/
theorem sysInvoke {k' : MemKernel σ} (hk : P k.memory)
    (hk' : k.excpEntry A excpIdEcallU left = .ok k') : P k'.memory := by
  unfold MemKernel.excpEntry at hk'
  rw [if_pos (Or.inl rfl)] at hk'
  exact h.ctxEntry h.procSyscall (show P k.skipEcall.memory from hk) hk'

/-- An interrupt frees at most the current process. -/
theorem intrEntry {id : ℕ} {b : Bool} {k' : MemKernel σ} (hcurr : safe k.currPid) (hk : P k.memory)
    (hk' : k.intrEntry A id b left = .ok k') : P k'.memory := by
  unfold MemKernel.intrEntry at hk'
  split at hk'
  · cases hk'
    exact hk
  split at hk'
  · rename_i hkill
    have hne : k.currPid ≠ -1 := by
      intro he
      rw [he] at hkill
      exact absurd hkill.2 (by decide)
    exact h.ctxEntry h.procYield (show P (k.killCurr A).memory from h.procFree_one hk hne hcurr) hk'
  split at hk'
  · exact h.ctxEntry h.procSyscall hk hk'
  split at hk'
  · exact h.ctxEntry h.procYield hk hk'
  · cases hk'

/-- Every step but those of the loader. -/
theorem memStep {a : MemAction Op} (hx : P x.kernel.memory) (hcurr : safe x.kernel.currPid)
    (hfree : ∀ pid, a = .free pid → ∀ p, safe p) (ha : ∀ op, a ≠ .perform op)
    (hstep : memStep A x a = some x') : P x'.kernel.memory := by
  cases a with
  | send receiver msg size left =>
    obtain ⟨k', hk', rfl⟩ := Option.map_eq_some_iff.1 hstep
    have hk' := eq_ok_of_toOption hk'
    unfold MemKernel.sysSend at hk'
    split at hk'
    · cases hk'
      exact hx
    · have hput : P (x.kernel.putSend A receiver msg size).memory :=
        h.writeBytes (h.writeInt (h.writeInt hx _ _) _ _) _ _ _
      exact h.sysInvoke hput hk'
  | recv size left =>
    obtain ⟨k', hk', rfl⟩ := Option.map_eq_some_iff.1 hstep
    have hk' := eq_ok_of_toOption hk'
    unfold MemKernel.sysRecv at hk'
    split at hk'
    · cases hk'
      exact hx
    · exact h.sysInvoke (show P (x.kernel.putRecv A).memory from h.writeInt hx _ _) hk'
  | intr id b left =>
    obtain ⟨k', hk', rfl⟩ := Option.map_eq_some_iff.1 hstep
    exact h.intrEntry hcurr hx (eq_ok_of_toOption hk')
  | alloc =>
    rw [Grass.memStep] at hstep
    split at hstep
    · obtain ⟨r, hr, rfl⟩ := Option.map_eq_some_iff.1 hstep
      have hr := eq_ok_of_toOption hr
      unfold MemKernel.procAlloc at hr
      split at hr
      · cases hr
        exact hx
      · cases hr
    · cases hstep
  | setReady pid =>
    rw [Grass.memStep] at hstep
    split at hstep
    · cases hstep
      exact hx
    · cases hstep
  | free pid =>
    rw [Grass.memStep] at hstep
    split at hstep
    · cases hstep
      exact h.procFree (hfree pid rfl) hx pid
    · cases hstep
  | store a byte =>
    cases hstep
    exact h.store hx
  | compute hart =>
    cases hstep
    exact hx
  | perform op => exact absurd rfl (ha op)

end KeptByKernel

/-- Pids are not given out again: `proc_nprocs` does not decrease. -/
theorem step_procNprocs {a : Action Content} (hs : Scheduled m.kernel)
    (hstep : step m a = some m') : m.kernel.procNprocs ≤ m'.kernel.procNprocs := by
  cases step_outcome hs hstep with
  | send ho | softSend ho => exact ho.procNprocs.ge
  | recv ho | softRecv ho => exact ho.procNprocs.ge
  | ignored _ => exact le_rfl
  | @killed _ next _ _ => exact (yieldTo_procNprocs (killed m.kernel) next).ge
  | @preempted _ next _ _ => exact (yieldTo_procNprocs m.kernel next).ge
  | alloc _ _ _ => exact (Int.lt_succ _).le
  | setReady _ _ => exact le_rfl
  | free _ _ => rw [procFree_eq]

/-- The same, on memory. -/
theorem Follows.procNprocs_le {a : MemAction Op} (h : Follows M x m) (hmatch : Matched M x a x' m) :
    x.kernel.procNprocs ≤ x'.kernel.procNprocs := by
  rw [← h.sim.procNprocs]
  cases hmatch with
  | stutter h' _ => rw [← h'.sim.procNprocs]
  | step hstep h' _ _ =>
    rw [← h'.sim.procNprocs]
    exact step_procNprocs h.machine.scheduled hstep

variable {t : Translation} (L : PageLoader t M)

/-- Pids that have not been given out have no memory. -/
theorem untouched_of_reach {s : σ} {hart : Context} (hb : BootsOn M s)
    (hnew : ∀ q, gpidProcess < q → L.Untouched s q)
    (h : Reach (memStep A) (MemOk M) (bootMem s hart) x) :
    ∀ q, x.kernel.procNprocs < q → L.Untouched x.kernel.memory q := by
  have hinv : Reach (memStep A) (MemOk M) (bootMem s hart) x ∧
      ∀ q, x.kernel.procNprocs < q → L.Untouched x.kernel.memory q := by
    apply h.invariant (P := fun y => Reach (memStep A) (MemOk M) (bootMem s hart) y ∧
      ∀ q, y.kernel.procNprocs < q → L.Untouched y.kernel.memory q)
    · exact ⟨.init, hnew⟩
    · rintro y a y' ⟨hreach, hy⟩ hok hstep
      refine ⟨hreach.step hok hstep, fun q hq => ?_⟩
      obtain ⟨m, hfollows, hmatch⟩ := exists_matched hb hreach hok hstep
      have hle := hfollows.procNprocs_le hmatch
      have hold := hy q (by omega)
      have hkept : KeptByKernel A (fun _ => True) fun s => L.Untouched s q :=
        ⟨L.untouched_switch, L.untouched_store, fun _ => L.untouched_free⟩
      by_cases hop : ∃ op, a = .perform op
      · obtain ⟨op, rfl⟩ := hop
        rw [memStep] at hstep
        split at hstep
        · rename_i hguard
          obtain ⟨s', hs', rfl⟩ := Option.map_eq_some_iff.1 hstep
          -- the process that is being loaded has the last pid that was given out
          have hlast : A.owner op = m.kernel.procNprocs :=
            hfollows.stay.last _ (hfollows.allocated.trans hguard.2)
          refine L.untouched_perform hfollows.sim.inv hok hs' ?_ hold
          rw [hlast, hfollows.sim.procNprocs]
          omega
        · cases hstep
      · exact hkept.memStep hold trivial (fun _ _ _ => trivial) (fun op he => hop ⟨op, he⟩) hstep
  exact hinv.2

end Egos.Grass
