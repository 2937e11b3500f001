import Egos.Grass.MemoryRuns

/-!
# Contexts

A process that traps calls `ctx_start`. The call returns when the process is scheduled again, by the
`ret` at the end of `ctx_switch`. To the process this is a call like any other: it comes back to its
caller with the registers that a function has to preserve, with `mepc`, and with the memory that it
had, whatever other processes have done in the meantime. What may have changed is the system-call
area, and the frame itself.
-/

namespace Egos.Grass

open Riscv (Reg)

variable {σ Op : Type} {A : AddressSpaces σ ℤ Op} {M : PrivateMemories A}
  {k k₁ k₂ : MemKernel σ} {l : Leave σ} {x x' : MemMachine σ} {m m' : Machine Content}
  {p : ℤ} {i : Fin maxNprocess} {c : Context} {W : Memory} {left : Reg → BitVec 64}

/-! ## What handlers do to the table -/

/-- A change of the table that makes no process ready and leaves the pids and the contexts. -/
structure KeepsContexts (k k₁ : MemKernel σ) : Prop where
  sp : k₁.sp = k.sp
  mepc : k₁.mepc = k.mepc
  pid : ∀ j, (k₁.procSet j).pid = (k.procSet j).pid
  ready : ∀ j, (k₁.procSet j).status = .ready → (k.procSet j).status = .ready

namespace KeepsContexts

/-- Two changes that make no process ready, one after the other. -/
theorem trans (h : KeepsContexts k k₁) (h' : KeepsContexts k₁ k₂) : KeepsContexts k k₂ :=
  ⟨h'.sp.trans h.sp, h'.mepc.trans h.mepc, fun j => (h'.pid j).trans (h.pid j),
    fun j hj => h.ready j (h'.ready j hj)⟩

/-- The table is not touched. -/
theorem of_eq (hsp : k₁.sp = k.sp) (hmepc : k₁.mepc = k.mepc) (hset : k₁.procSet = k.procSet) :
    KeepsContexts k k₁ := by
  refine ⟨hsp, hmepc, fun j => ?_, fun j hj => ?_⟩
  · rw [hset]
  · rwa [hset] at hj

/-- Only the saved contexts and the table of the first state count. -/
theorem congr (h : KeepsContexts k₁ k₂) (hsp : k₁.sp = k.sp) (hmepc : k₁.mepc = k.mepc)
    (hset : k₁.procSet = k.procSet) : KeepsContexts k k₂ :=
  (of_eq hsp hmepc hset).trans h

/-- Setting a status other than ready. -/
theorem procSetStatus (k : MemKernel σ) (pid : ℤ) {status : ProcStatus} (hs : status ≠ .ready) :
    KeepsContexts k (k.procSetStatus pid status) := by
  refine ⟨rfl, rfl, fun j => ?_, fun j hj => ?_⟩
  · unfold MemKernel.procSetStatus
    dsimp only
    split <;> rfl
  · unfold MemKernel.procSetStatus at hj
    dsimp only at hj
    split at hj
    · exact absurd hj hs
    · exact hj

/-- One slot gets another status. -/
theorem of_slot {j : Fin maxNprocess} {q : Process} (hsp : k₁.sp = k.sp)
    (hmepc : k₁.mepc = k.mepc) (hset : k₁.procSet = Function.update k.procSet j q)
    (hpid : q.pid = (k.procSet j).pid) (hs : q.status ≠ .ready) : KeepsContexts k k₁ := by
  refine ⟨hsp, hmepc, fun j' => ?_, fun j' hj => ?_⟩
  · rw [hset]
    by_cases hij : j' = j
    · rw [hij, Function.update_self, hpid]
    · rw [Function.update_of_ne hij]
  · rw [hset] at hj
    by_cases hij : j' = j
    · rw [hij, Function.update_self] at hj
      exact absurd hj hs
    · rwa [Function.update_of_ne hij] at hj

/-- Writing to the current slot. -/
theorem setCurr (k : MemKernel σ) {q : Process} (hpid : q.pid = k.currPid)
    (hs : q.status ≠ .ready) : KeepsContexts k (k.setCurr q) :=
  .of_slot rfl rfl rfl hpid hs

/-- One round of the loop of `proc_free` makes no process ready. -/
theorem freeUser (k : MemKernel σ) (j : Fin maxNprocess) :
    KeepsContexts k (k.freeUser A j) := by
  unfold MemKernel.freeUser
  split
  · exact .of_slot rfl rfl rfl rfl (by simp)
  · exact .of_eq rfl rfl rfl

/-- The loop of `proc_free` makes no process ready. -/
theorem freeUsers (l : List (Fin maxNprocess)) (k : MemKernel σ) :
    KeepsContexts k (l.foldl (fun k i => k.freeUser A i) k) := by
  induction l generalizing k with
  | nil => exact .of_eq rfl rfl rfl
  | cons j l ih => exact (freeUser k j).trans (ih _)

/-- `proc_free` makes no process ready. -/
theorem procFree (k : MemKernel σ) (pid : ℤ) : KeepsContexts k (k.procFree A pid) := by
  unfold MemKernel.procFree
  split
  · have hunused : ProcStatus.unused ≠ .ready := by decide
    exact (procSetStatus _ pid hunused).congr rfl rfl rfl
  · exact freeUsers _ k

/-- Killing the current process makes no process ready. -/
theorem killCurr (k : MemKernel σ) : KeepsContexts k (k.killCurr A) :=
  (procFree k _).trans (procSetStatus _ gpidShell (by simp))

end KeepsContexts

/-- The loop of `proc_free` leaves the hart and the current slot. -/
theorem freeUsers_fixed (l : List (Fin maxNprocess)) (k : MemKernel σ) :
    (l.foldl (fun k i => k.freeUser A i) k).procCurrIdx = k.procCurrIdx ∧
      (l.foldl (fun k i => k.freeUser A i) k).hart = k.hart := by
  induction l generalizing k with
  | nil => exact ⟨rfl, rfl⟩
  | cons j l ih =>
    rw [List.foldl_cons, (ih _).1, (ih _).2, MemKernel.freeUser]
    split <;> exact ⟨rfl, rfl⟩

/-- `proc_free` leaves the hart and the current slot. -/
theorem procFree_fixed (k : MemKernel σ) (pid : ℤ) :
    (k.procFree A pid).procCurrIdx = k.procCurrIdx ∧ (k.procFree A pid).hart = k.hart := by
  unfold MemKernel.procFree
  split
  · exact ⟨rfl, rfl⟩
  · exact freeUsers_fixed _ k

/-- A handler has run: a process that is entered was ready. -/
structure Handled (k : MemKernel σ) (l : Leave σ) : Prop where
  keeps : KeepsContexts k l.kernel
  enters : ∀ k₁, l = .enters k₁ → (k.procSet k₁.procCurrIdx).status = .ready

/-- What is done before the handler does not matter if it keeps the contexts. -/
theorem Handled.of_keeps (h : Handled k₁ l) (hk : KeepsContexts k k₁) : Handled k l :=
  ⟨hk.trans h.keeps, fun k₂ hl => hk.ready _ (h.enters k₂ hl)⟩

/-- `proc_yield` enters a process only if it was ready. -/
theorem handled_procYield (h : k.procYield A = .ok l) : Handled k l := by
  unfold MemKernel.procYield at h
  cases hnext : k.nextIdx with
  | none =>
    rw [hnext] at h
    cases h
  | some next =>
    rw [hnext] at h
    have hpre : KeepsContexts k
        (if k.currStatus = .running then k.procSetRunnable k.currPid else k) := by
      split
      · exact .procSetStatus k _ (by simp)
      · exact .of_eq rfl rfl rfl
    revert h hpre
    generalize (if k.currStatus = .running then k.procSetRunnable k.currPid else k) = k₁
    intro h hpre
    dsimp only at h
    have hrun : ∀ k₂ : MemKernel σ, KeepsContexts k₂ (k₂.procSetRunning k₂.currPid) :=
      fun k₂ => .procSetStatus k₂ _ (by simp)
    have hmove := hpre.trans ((hrun (({ k₁ with procCurrIdx := next } : MemKernel σ).mmuSwitch A
      ({ k₁ with procCurrIdx := next } : MemKernel σ).currPid)).congr rfl rfl rfl)
    split at h
    · rename_i hready
      cases h
      refine ⟨hmove, fun k₂ hk₂ => ?_⟩
      cases hk₂
      exact hpre.ready next hready
    · cases h
      exact ⟨hmove, fun k₂ hk₂ => by cases hk₂⟩

/-- `proc_send` enters a process only through `proc_yield`. -/
theorem handled_procSend (h : k.procSend A = .ok l) : Handled k l := by
  unfold MemKernel.procSend at h
  have hwrite : KeepsContexts k (k.writeInt A (syscallArg + 4) k.currPid) := .of_eq rfl rfl rfl
  revert h hwrite
  generalize k.writeInt A (syscallArg + 4) k.currPid = k₁
  intro h hwrite
  dsimp only at h
  split at h
  · split at h
    · exact (handled_procYield h).of_keeps (hwrite.trans (.setCurr k₁ rfl (by simp)))
    · refine (handled_procYield h).of_keeps (hwrite.trans ?_)
      exact (KeepsContexts.procSetStatus _ _ (by decide)).congr rfl rfl rfl
  · cases h
    exact ⟨hwrite.trans (.of_eq rfl rfl rfl), fun k₂ hk₂ => by cases hk₂⟩

/-- `proc_recv` enters a process only through `proc_yield`. -/
theorem handled_procRecv (h : k.procRecv A = .ok l) : Handled k l := by
  unfold MemKernel.procRecv at h
  dsimp only at h
  split at h
  · exact (handled_procYield h).of_keeps (.setCurr k rfl (by simp))
  · refine (handled_procYield h).of_keeps ?_
    exact (KeepsContexts.procSetStatus _ _ (by decide)).congr rfl rfl rfl

/-- So does the dispatch on the type of the system call. -/
theorem handled_dispatch {type : ℤ} (h : k.dispatch A type = .ok l) : Handled k l := by
  unfold MemKernel.dispatch at h
  split at h
  · exact handled_procRecv h
  · exact handled_procSend h
  all_goals cases h

/-- So does `proc_syscall`, which writes to the area first. -/
theorem handled_procSyscall (h : k.procSyscall A = .ok l) : Handled k l := by
  have heq : k.procSyscall A = ((k.writeInt A (syscallArg + 1036) 0).writeInt A syscallArg
      0).dispatch A (k.readInt A syscallArg) := rfl
  rw [heq] at h
  exact (handled_dispatch h).of_keeps (.of_eq rfl rfl rfl)

/-! ## Traps -/

/-- The actions that call `ctx_start`. -/
def Traps (x : MemMachine σ) : MemAction Op → Prop
  | .send _ _ size _ | .recv size _ => size ≤ syscallMsgLen
  | .intr id _ _ => ¬ (id = intrIdTimer ∧ x.kernel.currPid < gpidShell)
  | _ => False

/-- The context of a process that traps: system calls return behind the `ecall`. -/
def trapContext (x : MemMachine σ) : MemAction Op → Context
  | .send _ _ _ _ | .recv _ _ => { x.kernel.hart with mepc := x.kernel.hart.mepc + 4 }
  | _ => x.kernel.hart

/-- What a trap does to the table when the process has the context `c`. -/
structure Trapped (k : MemKernel σ) (c : Context) (l : Leave σ) : Prop where
  sp : l.kernel.sp = Function.update k.sp k.procCurrIdx (c.reg .sp - 112)
  mepc : l.kernel.mepc = Function.update k.mepc k.procCurrIdx c.mepc
  pid : ∀ j, (l.kernel.procSet j).pid = (k.procSet j).pid
  ready : ∀ j, (l.kernel.procSet j).status = .ready → (k.procSet j).status = .ready
  enters : ∀ k₁, l = .enters k₁ → (k.procSet k₁.procCurrIdx).status = .ready

/-- `ctx_start` and `ctx_entry`, when the handler is entered from `k` by way of `k₁`. -/
theorem trapped_ctxEntry {e : MemKernel σ → Except String (Leave σ)} {k' : MemKernel σ}
    (he : ∀ {k l}, e k = .ok l → Handled k l) (hk : KeepsContexts k k₁)
    (hidx : k₁.procCurrIdx = k.procCurrIdx)
    (h : (k₁.ctxStart A).ctxEntry A e left = .ok k') :
    ∃ l, k' = MemKernel.resume A left l ∧ Trapped k k₁.hart l := by
  unfold MemKernel.ctxEntry at h
  cases hl : e (k₁.ctxStart A).saveMepc with
  | error msg =>
    rw [hl] at h
    cases h
  | ok l =>
    rw [hl] at h
    cases h
    obtain ⟨hkeeps, henters⟩ := he hl
    refine ⟨l, rfl, ?_, ?_, fun j => (hkeeps.pid j).trans (hk.pid j),
      fun j hj => hk.ready j (hkeeps.ready j hj), fun k₂ hk₂ => hk.ready _ (henters k₂ hk₂)⟩
    · rw [hkeeps.sp, ← hk.sp, ← hidx]
      rfl
    · rw [hkeeps.mepc, ← hk.mepc, ← hidx]
      rfl

/-- A write to memory leaves the table, the hart and the current slot. -/
theorem writeBytes_fixed (k : MemKernel σ) (a n : ℕ) (f : ℕ → UInt8) :
    KeepsContexts k (k.writeBytes A a n f) ∧
      (k.writeBytes A a n f).procCurrIdx = k.procCurrIdx ∧
      (k.writeBytes A a n f).hart = k.hart :=
  ⟨.of_eq rfl rfl rfl, rfl, rfl⟩

/-- Filling the area leaves the table, the hart and the current slot. -/
theorem putSend_fixed (k : MemKernel σ) (receiver : ℤ) (msg : ℕ → UInt8) (size : ℕ) :
    KeepsContexts k (k.putSend A receiver msg size) ∧
      (k.putSend A receiver msg size).procCurrIdx = k.procCurrIdx ∧
      (k.putSend A receiver msg size).hart = k.hart := by
  unfold MemKernel.putSend MemKernel.writeInt
  obtain ⟨h₁, hidx₁, hhart₁⟩ := writeBytes_fixed (A := A) k syscallArg 4
    (intBytes SyscallType.send.toInt)
  obtain ⟨h₂, hidx₂, hhart₂⟩ := writeBytes_fixed (A := A) (k.writeBytes A syscallArg 4
    (intBytes SyscallType.send.toInt)) (syscallArg + 8) 4 (intBytes receiver)
  obtain ⟨h₃, hidx₃, hhart₃⟩ := writeBytes_fixed (A := A) ((k.writeBytes A syscallArg 4
    (intBytes SyscallType.send.toInt)).writeBytes A (syscallArg + 8) 4 (intBytes receiver))
    (syscallArg + 12) size msg
  exact ⟨h₁.trans (h₂.trans h₃), hidx₃.trans (hidx₂.trans hidx₁),
    hhart₃.trans (hhart₂.trans hhart₁)⟩

/-- Every trap, whatever its handler. -/
theorem memStep_traps {a : MemAction Op} (htrap : Traps x a) (h : memStep A x a = some x') :
    ∃ left l, x'.kernel = MemKernel.resume A left l ∧ Trapped x.kernel (trapContext x a) l := by
  have hsyscall : ∀ {k₁ k' : MemKernel σ} {left}, KeepsContexts x.kernel k₁ →
      k₁.procCurrIdx = x.kernel.procCurrIdx → k₁.hart = x.kernel.hart →
      k₁.excpEntry A excpIdEcallU left = .ok k' → ∃ l, k' = MemKernel.resume A left l ∧
        Trapped x.kernel { x.kernel.hart with mepc := x.kernel.hart.mepc + 4 } l := by
    intro k₁ k' left hk hidx hhart h
    unfold MemKernel.excpEntry at h
    rw [if_pos (Or.inl rfl)] at h
    rw [← hhart]
    have hskip : KeepsContexts x.kernel k₁.skipEcall := hk.trans (.of_eq rfl rfl rfl)
    exact trapped_ctxEntry handled_procSyscall hskip hidx h
  cases a with
  | send receiver msg size left =>
    obtain ⟨k', hk', rfl⟩ := Option.map_eq_some_iff.1 h
    have hk' := eq_ok_of_toOption hk'
    rw [MemKernel.sysSend, if_neg (not_lt.2 htrap)] at hk'
    obtain ⟨hkeeps, hidx, hhart⟩ := putSend_fixed (A := A) x.kernel receiver msg size
    exact ⟨left, hsyscall hkeeps hidx hhart hk'⟩
  | recv size left =>
    obtain ⟨k', hk', rfl⟩ := Option.map_eq_some_iff.1 h
    have hk' := eq_ok_of_toOption hk'
    rw [MemKernel.sysRecv, if_neg (not_lt.2 htrap)] at hk'
    obtain ⟨hkeeps, hidx, hhart⟩ := writeBytes_fixed (A := A) x.kernel syscallArg 4
      (intBytes SyscallType.recv.toInt)
    exact ⟨left, hsyscall hkeeps hidx hhart hk'⟩
  | intr id ttyRecvIntr left =>
    obtain ⟨k', hk', rfl⟩ := Option.map_eq_some_iff.1 h
    have hk' := eq_ok_of_toOption hk'
    rw [MemKernel.intrEntry, if_neg htrap] at hk'
    refine ⟨left, ?_⟩
    split at hk'
    · obtain ⟨hidx, hhart⟩ := procFree_fixed (A := A) x.kernel x.kernel.currPid
      have hkill := trapped_ctxEntry handled_procYield (.killCurr x.kernel) hidx hk'
      rwa [show (x.kernel.killCurr A).hart = x.kernel.hart from hhart] at hkill
    · split at hk'
      · exact trapped_ctxEntry handled_procSyscall (.of_eq rfl rfl rfl) rfl hk'
      · split at hk'
        · exact trapped_ctxEntry handled_procYield (.of_eq rfl rfl rfl) rfl hk'
        · cases hk'
  | alloc | setReady | free | store | compute | perform => exact absurd htrap (by simp [Traps])

/-! ## A process that waits to be resumed -/

/-- The slot of a process that has called `ctx_start` with the context `c`. -/
structure Waits (k : MemKernel σ) (p : ℤ) (i : Fin maxNprocess) (c : Context) : Prop where
  pid : (k.procSet i).pid = p
  status : (k.procSet i).status ≠ .ready
  sp : k.sp i = c.reg .sp - 112
  mepc : k.mepc i = c.mepc

/-- The process that traps. -/
theorem Trapped.waits_curr (h : Trapped k c l) (hs : k.currStatus ≠ .ready) :
    Waits l.kernel k.currPid k.procCurrIdx c := by
  refine ⟨h.pid _, fun hr => hs (h.ready _ hr), ?_, ?_⟩
  · rw [h.sp, Function.update_self]
  · rw [h.mepc, Function.update_self]

/-- Another process. -/
theorem Trapped.waits {c' : Context} (h : Trapped k c' l) (hi : i ≠ k.procCurrIdx)
    (hw : Waits k p i c) : Waits l.kernel p i c := by
  refine ⟨(h.pid i).trans hw.pid, fun hr => hw.status (h.ready i hr), ?_, ?_⟩
  · rw [h.sp, Function.update_of_ne hi, hw.sp]
  · rw [h.mepc, Function.update_of_ne hi, hw.mepc]

/-- What runs next does not matter to a process that waits. -/
theorem Waits.resume (h : Waits l.kernel p i c) (left : Reg → BitVec 64) :
    Waits (MemKernel.resume A left l) p i c := by
  cases l with
  | returns k => exact ⟨h.pid, h.status, h.sp, h.mepc⟩
  | enters k => exact ⟨h.pid, h.status, h.sp, h.mepc⟩

/-- A slot is as before, or has been freed. -/
def SameOrFree (q q' : Process) : Prop := q' = q ∨ q' = { q with status := .unused }

/-- A slot that has been freed stays so. -/
theorem SameOrFree.trans {q q₁ q₂ : Process} (h : SameOrFree q q₁) (h' : SameOrFree q₁ q₂) :
    SameOrFree q q₂ := by
  rcases h with rfl | rfl
  · exact h'
  · rcases h' with rfl | rfl
    · exact Or.inr rfl
    · exact Or.inr rfl

/-- One round of the loop of `proc_free` leaves a slot or frees it. -/
theorem freeUser_slot (k : MemKernel σ) (j i : Fin maxNprocess) :
    SameOrFree (k.procSet i) ((k.freeUser A j).procSet i) := by
  unfold MemKernel.freeUser
  split
  · dsimp only
    by_cases hij : i = j
    · rw [hij, Function.update_self]
      exact Or.inr rfl
    · rw [Function.update_of_ne hij]
      exact Or.inl rfl
  · exact Or.inl rfl

/-- The loop of `proc_free` leaves a slot or frees it. -/
theorem freeUsers_slot (l : List (Fin maxNprocess)) (k : MemKernel σ) (i : Fin maxNprocess) :
    SameOrFree (k.procSet i) ((l.foldl (fun k i => k.freeUser A i) k).procSet i) := by
  induction l generalizing k with
  | nil => exact Or.inl rfl
  | cons j l ih => exact (freeUser_slot k j i).trans (ih _)

/-- `proc_free` leaves a slot or frees it. -/
theorem procFree_slot (k : MemKernel σ) (pid : ℤ) (i : Fin maxNprocess) :
    SameOrFree (k.procSet i) ((k.procFree A pid).procSet i) := by
  unfold MemKernel.procFree
  split
  · unfold MemKernel.procSetStatus
    dsimp only
    split
    · exact Or.inr rfl
    · exact Or.inl rfl
  · exact freeUsers_slot _ k i

/-- A step in which no process is resumed or entered, and slot `i` is left alone or freed. -/
structure Quiet (k k₁ : MemKernel σ) (i : Fin maxNprocess) : Prop where
  curr : k₁.procCurrIdx = k.procCurrIdx
  sp : k₁.sp = k.sp
  mepc : k₁.mepc = k.mepc
  slot : SameOrFree (k.procSet i) (k₁.procSet i)

/-- A process that waits is not disturbed by a step that resumes no process. -/
theorem Waits.of_quiet (h : Waits k p i c) (hq : Quiet k k₁ i) : Waits k₁ p i c := by
  refine ⟨?_, ?_, hq.sp ▸ h.sp, hq.mepc ▸ h.mepc⟩
  · rcases hq.slot with hs | hs
    · rw [hs, h.pid]
    · rw [hs]
      exact h.pid
  · rcases hq.slot with hs | hs
    · rw [hs]
      exact h.status
    · rw [hs]
      exact ProcStatus.noConfusion

/-- Without a trap the current process stays the current one, and contexts are left alone. -/
theorem memStep_no_trap {a : MemAction Op} (htrap : ¬ Traps x a) (h : memStep A x a = some x')
    (hstart : (x.kernel.procSet i).status.started = true)
    (hp : x.allocated ≠ some (x.kernel.procSet i).pid) : Quiet x.kernel x'.kernel i := by
  have hsame : Quiet x.kernel x.kernel i := ⟨rfl, rfl, rfl, Or.inl rfl⟩
  cases a with
  | send receiver msg size left =>
    rw [memStep, MemKernel.sysSend, if_pos (not_le.1 htrap)] at h
    cases h
    exact hsame
  | recv size left =>
    rw [memStep, MemKernel.sysRecv, if_pos (not_le.1 htrap)] at h
    cases h
    exact hsame
  | intr id ttyRecvIntr left =>
    rw [memStep, MemKernel.intrEntry, if_pos (not_not.1 htrap)] at h
    cases h
    exact hsame
  | alloc =>
    rw [memStep] at h
    split at h
    · obtain ⟨r, hr, rfl⟩ := Option.map_eq_some_iff.1 h
      have hr := eq_ok_of_toOption hr
      unfold MemKernel.procAlloc at hr
      split at hr
      · rename_i j hj
        cases hr
        have hunused : (x.kernel.procSet j).status = .unused := by simpa using List.find?_some hj
        have hij : i ≠ j := by
          rintro rfl
          rw [hunused] at hstart
          cases hstart
        exact ⟨rfl, rfl, rfl, Or.inl (Function.update_of_ne hij _ _)⟩
      · cases hr
    · cases h
  | setReady pid =>
    rw [memStep] at h
    split at h
    · rename_i hguard
      cases h
      have hne : (x.kernel.procSet i).pid ≠ pid := by
        rintro rfl
        exact hp hguard.2
      exact ⟨rfl, rfl, rfl, Or.inl (if_neg hne)⟩
    · cases h
  | free pid =>
    rw [memStep] at h
    split at h
    · cases h
      have hkeeps := KeepsContexts.procFree (A := A) x.kernel pid
      exact ⟨(procFree_fixed x.kernel pid).1, hkeeps.sp, hkeeps.mepc, procFree_slot x.kernel pid i⟩
    · cases h
  | store a byte =>
    cases h
    exact ⟨rfl, rfl, rfl, Or.inl rfl⟩
  | compute hart =>
    cases h
    exact ⟨rfl, rfl, rfl, Or.inl rfl⟩
  | perform op =>
    rw [memStep] at h
    split at h
    · obtain ⟨s, -, rfl⟩ := Option.map_eq_some_iff.1 h
      exact ⟨rfl, rfl, rfl, Or.inl rfl⟩
    · cases h

/-- Two contexts are the same to the code that called `ctx_start`. -/
structure SameContext (c c' : Context) : Prop where
  sp : c'.reg .sp = c.reg .sp
  reg : ∀ r ∈ ctxRegs, c'.reg r = c.reg r
  mepc : c'.mepc = c.mepc

/-- A memory has the frame of a context, outside the system-call area. -/
structure HoldsFrame (c : Context) (W : Memory) : Prop where
  fits : 112 ≤ (c.reg .sp).toNat
  out : ∀ j, j < 104 → ¬ InArea ((c.reg .sp - 112).toNat + 8 + j)
  bytes : ∀ j, j < 104 → W ((c.reg .sp - 112).toNat + 8 + j) = frame c.reg j

/-- The process has called `ctx_start` with the context `c`. Outside its system-call area, it has
the memory `W`. -/
structure Suspended (M : PrivateMemories A) (x : MemMachine σ) (p : ℤ) (i : Fin maxNprocess)
    (c : Context) (W : Memory) : Prop where
  waits : Waits x.kernel p i c
  view : ∀ a, ¬ InArea a → M.view x.kernel.memory p a = W a
  maps : ∀ j, j < 104 → M.Maps x.kernel.memory p ((c.reg .sp - 112).toNat + 8 + j)

/-- The process is suspended, or has returned from `ctx_start`. -/
structure Pending (M : PrivateMemories A) (x : MemMachine σ) (p : ℤ) (i : Fin maxNprocess)
    (c : Context) (W : Memory) : Prop where
  suspended : Suspended M x p i c W
  back : x.kernel.currPid = p → SameContext c x.kernel.hart

/-- `ctx_switch` gives the process its context. -/
theorem Suspended.sameContext (h : Suspended M x p i c W) (hW : HoldsFrame c W)
    (hx : x.kernel = MemKernel.resume A left (.returns k)) (hcurr : x.kernel.procCurrIdx = i)
    (hinv : M.Inv x.kernel.memory) (hmmu : A.curr x.kernel.memory = p) :
    SameContext c x.kernel.hart := by
  have hmem : x.kernel.memory = k.memory := by rw [hx]; rfl
  have hidx : k.procCurrIdx = i := by rw [← hcurr, hx]; rfl
  have hsp : k.sp i = c.reg .sp - 112 := by rw [← h.waits.sp, hx]; rfl
  have hmepc : k.mepc i = c.mepc := by rw [← h.waits.mepc, hx]; rfl
  have hhart : x.kernel.hart
      = ⟨ctxRestored (A.load k.memory) (c.reg .sp - 112) left, c.mepc⟩ := by
    rw [hx, ← hsp, ← hmepc, ← hidx]
    rfl
  have hfits := hW.fits
  have hload : ∀ j, j < 104 →
      A.load k.memory ((c.reg .sp - 112).toNat + 8 + j) = frame c.reg j := by
    intro j hj
    have hmaps := h.maps j hj
    have hview := h.view _ (hW.out j hj)
    rw [← hW.bytes j hj, ← hview, ← hmem]
    rw [← hmmu] at hmaps ⊢
    exact M.load_eq hinv hmaps
  rw [hhart]
  refine ⟨?_, fun r hr => ?_, rfl⟩
  · exact ctxRestored_sp.trans (BitVec.sub_add_cancel _ _)
  · refine ctxRestored_frame ?_ hload hr
    bv_omega

/-! ## One step -/

/-- After a step that is matched, some machine on areas is followed. -/
theorem Matched.follows {a : MemAction Op} (h : Matched M x a x' m) : ∃ m', Follows M x' m' := by
  cases h with
  | stutter h _ => exact ⟨_, h⟩
  | step _ h _ _ => exact ⟨_, h⟩

/-- A step that is matched keeps the memories that are not touched. -/
theorem Matched.keeps {a : MemAction Op} (h : Matched M x a x' m) : Keeps M x a x' := by
  cases h with
  | stutter _ h => exact h
  | step _ _ h _ => exact h

/-- The current process is the one whose memory is visible. -/
theorem Follows.curr (h : Follows M x m) : A.curr x.kernel.memory = x.kernel.currPid := by
  rw [← h.sim.mmuPid, h.handles.mmu, h.sim.currPid]

/-- The current process is running. -/
theorem Follows.currStatus (h : Follows M x m) : x.kernel.currStatus = .running := by
  rw [← h.sim.currStatus]
  exact h.machine.scheduled.running

/-- The current process has started. -/
theorem Follows.live_curr (h : Follows M x m) : Live x.kernel.procSet x.kernel.currPid := by
  rw [← h.sim.procSet, ← h.sim.currPid]
  exact h.handles.curr

/-- A process has one slot. -/
theorem Follows.slot_inj (h : Follows M x m) {j : Fin maxNprocess}
    (hi : (x.kernel.procSet i).pid = p) (hj : (x.kernel.procSet j).pid = p)
    (hlive : Live x.kernel.procSet p) : i = j := by
  have ht := h.machine.scheduled.table
  rw [← h.sim.procSet] at hi hj hlive
  obtain ⟨n, hn, hstart⟩ := hlive
  have hne : (m.kernel.procSet n).pid ≠ 0 :=
    ht.pid_ne_zero fun hun => by rw [hun] at hstart; cases hstart
  exact (ht.pid_inj n i hne (hn.trans hi.symm)).symm.trans
    (ht.pid_inj n j hne (hn.trans hj.symm))

/-- The slot of a process that has started has the status of one that has. -/
theorem Follows.started (h : Follows M x m) (hi : (x.kernel.procSet i).pid = p)
    (hlive : Live x.kernel.procSet p) : (x.kernel.procSet i).status.started = true := by
  have hlive' := hlive
  obtain ⟨n, hn, hstart⟩ := hlive'
  rwa [h.slot_inj hi hn hlive]

/-- The process has been set ready at some time. -/
def HasStarted (x : MemMachine σ) (p : ℤ) : Prop :=
  p ≤ x.kernel.procNprocs ∧ x.allocated ≠ some p

/-- A process was set ready at some time unless the machine on areas has not started it. -/
theorem Follows.hasStarted_iff (h : Follows M x m) : HasStarted x p ↔ ¬ NotStarted m p := by
  rw [NotStarted, not_or, not_lt, h.sim.procNprocs, h.allocated]
  rfl

/-- A process that has started was set ready at some time. -/
theorem Follows.hasStarted_of_live (h : Follows M x m) (hlive : Live x.kernel.procSet p) :
    HasStarted x p := by
  rw [← h.sim.procSet] at hlive
  rw [h.hasStarted_iff]
  exact fun hp => h.loads.ne_of_live h.machine.scheduled.table hlive hp rfl

/-- A process that was set ready once has been so ever after. -/
theorem Follows.hasStarted_matched {a : MemAction Op} (h : Follows M x m)
    (hmatch : Matched M x a x' m) (hp : HasStarted x p) : HasStarted x' p := by
  rw [h.hasStarted_iff] at hp
  cases hmatch with
  | stutter h' _ => exact h'.hasStarted_iff.2 hp
  | step hstep h' _ _ =>
    rw [h'.hasStarted_iff]
    exact fun hp' => hp (hp'.of_step h.machine.scheduled h.loads h.stay hstep)

/-- A process that was set ready once is not started again after it has ended. -/
theorem Follows.live_matched {a : MemAction Op} (h : Follows M x m)
    (hmatch : Matched M x a x' m) (hp : HasStarted x p) (hlive : Live x'.kernel.procSet p) :
    Live x.kernel.procSet p := by
  rw [h.hasStarted_iff] at hp
  rw [← h.sim.procSet]
  cases hmatch with
  | stutter h' _ =>
    rw [← h'.sim.procSet] at hlive
    exact hlive
  | step hstep h' _ _ =>
    rw [← h'.sim.procSet] at hlive
    exact live_of_step h hstep hp hlive

/-- The memory of a process that is not visible stays as it is. -/
theorem memoriesAfter_view_of_ne (a : MemAction Op) (hp : p ≠ A.curr x.kernel.memory) :
    (memoriesAfter M x a).view p = M.view x.kernel.memory p := by
  have hblit : ∀ a n f, ((Memories.at M x.kernel.memory).blit (A.curr x.kernel.memory) a n f).view p
      = M.view x.kernel.memory p := fun a n f => Function.update_of_ne hp _ _
  cases a with
  | send | recv | intr =>
    rw [memoriesAfter]
    split
    · first | exact hblit _ _ _ | rfl
    · first | exact hblit _ _ _ | rfl
  | store => exact hblit _ _ _
  | alloc | setReady | free | compute | perform => rfl

/-- A trap saves the frame in the memory of the process, and does no more. -/
theorem memoriesAfter_of_traps {a : MemAction Op} (htrap : Traps x a) :
    (memoriesAfter M x a).view = (Sim.saved A (.at M x.kernel.memory) x.kernel).view := by
  cases a with
  | send | recv => exact congrArg Memories.view (if_pos htrap)
  | intr =>
    rw [memoriesAfter, if_neg htrap]
    rfl
  | store | alloc | setReady | free | compute | perform => exact absurd htrap (by simp [Traps])

/-- `ecall` changes only the `mepc` of the context. -/
theorem trapContext_reg (x : MemMachine σ) (a : MemAction Op) :
    (trapContext x a).reg = x.kernel.hart.reg := by
  cases a <;> rfl

/-- A trap that makes the process the current one is its return from `ctx_start`. -/
theorem Suspended.back {c' : Context} (h : Suspended M x' p i c W) (hW : HoldsFrame c W)
    (hx' : x'.kernel = MemKernel.resume A left l) (htrapped : Trapped x.kernel c' l)
    (hstatus : (x.kernel.procSet i).status ≠ .ready) (h' : Follows M x' m')
    (hback : x'.kernel.currPid = p) : SameContext c x'.kernel.hart := by
  have hidx : x'.kernel.procCurrIdx = i :=
    h'.slot_inj hback h.waits.pid (hback ▸ h'.live_curr)
  cases l with
  | returns k => exact h.sameContext hW hx' hidx h'.sim.inv (h'.curr.trans hback)
  | enters k =>
    have hk : k.procCurrIdx = i := by rw [← hidx, hx']; rfl
    exact absurd (hk ▸ htrapped.enters k rfl) hstatus

/-- A step of another process. -/
theorem Pending.step {a : MemAction Op} (h : Pending M x p i c W) (hW : HoldsFrame c W)
    (hfollows : Follows M x m) (hmatch : Matched M x a x' m) (hstep : memStep A x a = some x')
    (hne : x.kernel.currPid ≠ p) (hp : HasStarted x p) (hlive : Live x'.kernel.procSet p) :
    Pending M x' p i c W := by
  have hbefore := hfollows.live_matched hmatch hp hlive
  have hsus := h.suspended
  have hvisible : p ≠ A.curr x.kernel.memory := fun he => hne (hfollows.curr.symm.trans he.symm)
  have hidx : i ≠ x.kernel.procCurrIdx := by
    rintro rfl
    exact hne hsus.waits.pid
  have hview : ∀ a, ¬ InArea a → M.view x'.kernel.memory p a = W a := fun b hb => by
    rw [hmatch.keeps.view p (hmatch.keeps.seen p hbefore hlive) b hb,
      memoriesAfter_view_of_ne a hvisible]
    exact hsus.view b hb
  have hmaps := fun j hj =>
    hmatch.keeps.maps p (hmatch.keeps.seen p hbefore hlive) _ (hsus.maps j hj)
  obtain ⟨m', h'⟩ := hmatch.follows
  by_cases htrap : Traps x a
  · obtain ⟨left, l, hx', htrapped⟩ := memStep_traps htrap hstep
    have hsus' : Suspended M x' p i c W :=
      ⟨hx' ▸ (htrapped.waits hidx hsus.waits).resume left, hview, hmaps⟩
    exact ⟨hsus', hsus'.back hW hx' htrapped hsus.waits.status h'⟩
  · have hquiet := memStep_no_trap htrap hstep (hfollows.started hsus.waits.pid hbefore)
      (hsus.waits.pid.symm ▸ hp.2)
    have hwaits := hsus.waits.of_quiet hquiet
    refine ⟨⟨hwaits, hview, hmaps⟩, fun hback => ?_⟩
    exact absurd ((h'.slot_inj hwaits.pid hback hlive).trans hquiet.curr) hidx

/-- The trap itself. -/
theorem pending_of_trap {a : MemAction Op} (htrap : Traps x a) (hframe : HasFrame M x.kernel)
    (hfollows : Follows M x m) (hmatch : Matched M x a x' m) (hstep : memStep A x a = some x')
    (hlive : Live x'.kernel.procSet x.kernel.currPid)
    (hW : HoldsFrame (trapContext x a)
      ((Sim.saved A (.at M x.kernel.memory) x.kernel).view x.kernel.currPid)) :
    Pending M x' x.kernel.currPid x.kernel.procCurrIdx (trapContext x a)
      ((Sim.saved A (.at M x.kernel.memory) x.kernel).view x.kernel.currPid) := by
  have hstatus : x.kernel.currStatus ≠ .ready := by
    rw [hfollows.currStatus]
    decide
  obtain ⟨m', h'⟩ := hmatch.follows
  have hseen := hmatch.keeps.seen _ hfollows.live_curr hlive
  obtain ⟨left, l, hx', htrapped⟩ := memStep_traps htrap hstep
  have hsus : Suspended M x' x.kernel.currPid x.kernel.procCurrIdx (trapContext x a)
      ((Sim.saved A (.at M x.kernel.memory) x.kernel).view x.kernel.currPid) := by
    refine ⟨hx' ▸ (htrapped.waits_curr hstatus).resume left, fun b hb => ?_, fun j hj => ?_⟩
    · rw [hmatch.keeps.view _ hseen b hb, memoriesAfter_of_traps htrap]
    · refine hmatch.keeps.maps _ hseen _ ?_
      rw [trapContext_reg, ← hfollows.curr]
      exact hframe.maps j hj
  exact ⟨hsus, hsus.back hW hx' htrapped hstatus h'⟩

/-! ## Runs -/

/-- The process that trapped in `x` is back: `ctx_start` has returned. -/
structure Returned (M : PrivateMemories A) (x : MemMachine σ) (a : MemAction Op)
    (x' : MemMachine σ) : Prop where
  context : SameContext (trapContext x a) x'.kernel.hart
  memory : ∀ b, ¬ InArea b → ¬ ((x.kernel.hart.reg .sp).toNat - 104 ≤ b ∧
      b < (x.kernel.hart.reg .sp).toNat) →
    M.view x'.kernel.memory x.kernel.currPid b = M.view x.kernel.memory x.kernel.currPid b

/-- A process that traps and runs again, after any steps of others, has returned from
`ctx_start`. -/
theorem returned_of_run {a : MemAction Op} {s : σ} {hart : Context} {x₁ x₂ : MemMachine σ}
    (hb : BootsOn M s) (hreach : Reach (memStep A) (MemOk M) (bootMem s hart) x)
    (hok : MemOk M x a) (htrap : Traps x a) (hstep : memStep A x a = some x₁)
    (hrun : Reach (memStep A) (fun y b => MemOk M y b ∧ y.kernel.currPid ≠ x.kernel.currPid) x₁ x₂)
    (hback : x₂.kernel.currPid = x.kernel.currPid) : Returned M x a x₂ := by
  have hframe : HasFrame M x.kernel := by
    cases a with
    | send | recv | intr => exact hok
    | store | alloc | setReady | free | compute | perform => exact absurd htrap (by simp [Traps])
  obtain ⟨m, hfollows, hmatch⟩ := exists_matched hb hreach hok hstep
  have hfits := hframe.fits
  have hbase : (x.kernel.hart.reg .sp - 112).toNat = (x.kernel.hart.reg .sp).toNat - 112 := by
    bv_omega
  have hsaved : ∀ b, (Sim.saved A (.at M x.kernel.memory) x.kernel).view x.kernel.currPid b
      = (M.view x.kernel.memory x.kernel.currPid).blit
        ((x.kernel.hart.reg .sp - 112).toNat + 8) 104 (frame x.kernel.hart.reg) b := by
    intro b
    rw [Sim.saved, hfollows.curr, Memories.blit_view, Function.update_self]
    rfl
  have hW : HoldsFrame (trapContext x a)
      ((Sim.saved A (.at M x.kernel.memory) x.kernel).view x.kernel.currPid) := by
    refine ⟨?_, ?_, ?_⟩ <;> rw [trapContext_reg]
    · exact hfits
    · exact hframe.out
    · intro j hj
      rw [hsaved, Memory.blit, if_pos (by omega), Nat.add_sub_cancel_left]
  -- along the run the process has started, and if it has not been freed it waits for its return
  have hinv := hrun.invariant (P := fun y => Reach (memStep A) (MemOk M) (bootMem s hart) y ∧
    HasStarted y x.kernel.currPid ∧ (Live y.kernel.procSet x.kernel.currPid →
      Pending M y x.kernel.currPid x.kernel.procCurrIdx (trapContext x a)
        ((Sim.saved A (.at M x.kernel.memory) x.kernel).view x.kernel.currPid)))
    ⟨hreach.step hok hstep, hfollows.hasStarted_matched hmatch
      (hfollows.hasStarted_of_live hfollows.live_curr),
      fun hlive => pending_of_trap htrap hframe hfollows hmatch hstep hlive hW⟩ ?_
  · obtain ⟨hreach₂, -, hpending⟩ := hinv
    have hlive : Live x₂.kernel.procSet x.kernel.currPid := by
      obtain ⟨area, m₂, -, h₂, -⟩ := exists_run_on_areas hb
        (hreach₂.mono fun _ _ hok => ⟨hok, False.elim⟩) fun _ => syscallAt fun _ => 0
      exact hback ▸ h₂.live_curr
    have hp := hpending hlive
    refine ⟨hp.back hback, fun b hb hout => ?_⟩
    rw [hp.suspended.view b hb, hsaved, Memory.blit, if_neg (by omega)]
  · rintro y b y' ⟨hreachy, hstarted, hpending⟩ ⟨hoky, hne⟩ hnext
    obtain ⟨m, hfollows, hmatch⟩ := exists_matched hb hreachy hoky hnext
    refine ⟨hreachy.step hoky hnext, hfollows.hasStarted_matched hmatch hstarted, fun hlive => ?_⟩
    have hbefore := hfollows.live_matched hmatch hstarted hlive
    exact (hpending hbefore).step hW hfollows hmatch hnext hne hstarted hlive

end Egos.Grass
