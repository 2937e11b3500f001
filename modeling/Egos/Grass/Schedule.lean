import Egos.Grass.Outcomes

/-!
# The scheduler keeps the process table

In every state in which the kernel returns to a process, that process is the one marked as running,
its memory is the visible one, pids are distinct, and `proc_yield` has only ever selected processes
that can run. One lemma for each outcome, then the invariant of the machine by induction on runs.
-/

namespace Egos.Grass

variable {M : Type} {k k' : Kernel M} {m m' : Machine M}

/-! ## Outcomes -/

/-- The log does not matter to the schedule. -/
theorem Scheduled.note (h : Scheduled k) (e : Event M) : Scheduled (k.note e) :=
  ⟨h.table.congr rfl (fun _ => rfl) h.table.pid_zero, h.running, h.only, h.mmu⟩

/-- `proc_yield` has only selected processes that can run. -/
def SelectsRunnable (k : Kernel M) : Prop :=
  ∀ idx status, .select idx status ∈ k.log → status.canRun = true

/-- The end of a handler that yields. -/
theorem Scheduled.returnTo_yieldTo (h : TableOk k ∧ OnlyCurrRuns k) {next : Fin maxNprocess}
    (hnext : nextIdx k = some next) : Scheduled (returnTo (Egos.Grass.yieldTo k next)) :=
  (Scheduled.yieldTo h.1 h.2 (nextIdx_canRun hnext)).note _

/-- `proc_yield` selects a process that can run. -/
theorem SelectsRunnable.returnTo_yieldTo (h : SelectsRunnable k) {next : Fin maxNprocess}
    (hnext : nextIdx k = some next) : SelectsRunnable (returnTo (yieldTo k next)) := by
  intro idx status hmem
  rcases List.mem_cons.1 hmem with he | hmem
  · cases he
  rcases List.mem_cons.1 hmem with he | hmem
  · cases he
    exact nextIdx_canRun hnext
  · exact h idx status hmem

/-- Events that are not selections do not matter. -/
theorem SelectsRunnable.congr (h : SelectsRunnable k)
    (hlog : ∀ idx status, .select idx status ∈ k'.log → .select idx status ∈ k.log) :
    SelectsRunnable k' := fun idx status hmem => h idx status (hlog idx status hmem)

/-- `sys_send` keeps the schedule. -/
theorem SendOutcome.scheduled {r : ℤ} {c : M} (h : Scheduled k) (ho : SendOutcome k r c k') :
    Scheduled k' := by
  cases ho with
  | missing _ =>
    have hm : Scheduled (sendMissing k r c) :=
      ⟨h.table.congr rfl (fun _ => rfl) h.table.pid_zero, h.running, h.only, h.mmu⟩
    exact hm.note _
  | blocked _ _ hnext => exact .returnTo_yieldTo h.sendBlocked hnext
  | delivered _ hw hnext => exact .returnTo_yieldTo (h.sendDelivered hw) hnext

/-- `sys_recv` keeps the schedule. -/
theorem RecvOutcome.scheduled (h : Scheduled k) (ho : RecvOutcome k k') : Scheduled k' := by
  cases ho with
  | blocked _ hnext => exact .returnTo_yieldTo h.recvBlocked hnext
  | taken hw _ hnext => exact .returnTo_yieldTo (h.recvTaken hw) hnext

/-- `sys_send` runs only processes that can run. -/
theorem SendOutcome.selectsRunnable {r : ℤ} {c : M} (h : SelectsRunnable k)
    (ho : SendOutcome k r c k') : SelectsRunnable k' := by
  cases ho with
  | missing _ => exact h.congr fun idx status hmem => by simpa [returnTo, Kernel.note,
      sendMissing, sendTrapped] using hmem
  | blocked _ _ hnext =>
    refine SelectsRunnable.returnTo_yieldTo (h.congr fun idx status hmem => ?_) hnext
    simpa [sendBlocked, Kernel.setCurr, sendTrapped] using hmem
  | delivered _ _ hnext =>
    refine SelectsRunnable.returnTo_yieldTo (h.congr fun idx status hmem => ?_) hnext
    simpa [sendDelivered, Kernel.setSlot, copyMsg, Kernel.note, Kernel.setSc, Kernel.mmuSwitch,
      sendTrapped] using hmem

/-- `sys_recv` runs only processes that can run. -/
theorem RecvOutcome.selectsRunnable (h : SelectsRunnable k) (ho : RecvOutcome k k') :
    SelectsRunnable k' := by
  cases ho with
  | blocked _ hnext =>
    refine SelectsRunnable.returnTo_yieldTo (h.congr fun idx status hmem => ?_) hnext
    simpa [recvBlocked, Kernel.setCurr, recvTrapped] using hmem
  | taken _ _ hnext =>
    refine SelectsRunnable.returnTo_yieldTo (h.congr fun idx status hmem => ?_) hnext
    simpa [recvTaken, Kernel.setSlot, copyMsg, Kernel.note, Kernel.setSc, Kernel.mmuSwitch,
      recvTrapped] using hmem

/-! ## Calls of `GPID_PROCESS` -/

/-- A change of statuses of other processes, to ones that are not running. -/
theorem Scheduled.congr (h : Scheduled k) (hn : k'.procNprocs = k.procNprocs)
    (hidx : k'.procCurrIdx = k.procCurrIdx) (hmmu : k'.mmuPid = k.mmuPid)
    (hpid : ∀ i, (k'.procSet i).pid = (k.procSet i).pid)
    (hcurr : (k'.procSet k.procCurrIdx).status = (k.procSet k.procCurrIdx).status)
    (hrun : ∀ i, (k'.procSet i).status = .running → (k.procSet i).status = .running)
    (hzero : ∀ i, (k.procSet i).pid = 0 → (k'.procSet i).status = .unused) : Scheduled k' := by
  refine ⟨h.table.congr hn hpid hzero, ?_, ?_, ?_⟩
  · rw [Kernel.currStatus, hidx, hcurr]
    exact h.running
  · intro i hi
    rw [hidx]
    exact h.only i (hrun i hi)
  · rw [hmmu, Kernel.currPid, hidx, hpid]
    exact h.mmu

/-- Setting the status of a process other than the current one. -/
theorem Scheduled.procSetStatus (h : Scheduled k) {pid : ℤ} {status : ProcStatus}
    (hpid : pid ≠ k.currPid) (h0 : pid ≠ 0) (hstatus : status ≠ .running) :
    Scheduled (procSetStatus k pid status) := by
  refine h.congr rfl rfl rfl (fun i => ?_) ?_ (fun i hi => ?_) (fun i hi => ?_)
  · simp only [Egos.Grass.procSetStatus]
    split <;> rfl
  · simp only [Egos.Grass.procSetStatus]
    rw [if_neg fun he => hpid he.symm]
  · simp only [Egos.Grass.procSetStatus] at hi
    split at hi
    · exact absurd hi hstatus
    · exact hi
  · simp only [Egos.Grass.procSetStatus]
    rw [if_neg fun he => h0 (he.symm.trans hi)]
    exact h.table.pid_zero i hi

/-- `proc_free` of user processes by `GPID_PROCESS` keeps the schedule. -/
theorem Scheduled.procFree (h : Scheduled k) {pid : ℤ} (hcurr : k.currPid = gpidProcess)
    (hpid : pid ≥ gpidUserStart ∨ pid = -1) : Scheduled (procFree k pid) := by
  rw [Egos.Grass.procFree]
  split
  · rename_i hne
    have hge : (5 : ℤ) ≤ pid := hpid.resolve_right hne
    refine h.procSetStatus ?_ (by omega) (by decide)
    rw [hcurr, gpidProcess]
    omega
  · refine h.congr rfl rfl rfl (fun i => ?_) ?_ (fun i hi => ?_) (fun i hi => ?_)
    · dsimp only
      split <;> rfl
    · dsimp only
      rw [if_neg]
      rw [show (k.procSet k.procCurrIdx).pid = _ from hcurr]
      exact fun hc => absurd hc.1 (by decide)
    · dsimp only at hi
      split at hi
      · cases hi
      · exact hi
    · dsimp only
      split
      · rfl
      · exact h.table.pid_zero i hi

/-- The table after `proc_alloc`. -/
theorem allocated_procSet (k : Kernel M) (i j : Fin maxNprocess) :
    (allocated k i).procSet j
      = if j = i then ⟨k.procNprocs + 1, .loading, (k.procSet j).receiverPid⟩
        else k.procSet j := by
  by_cases hj : j = i
  · subst hj
    rw [if_pos rfl]
    exact Function.update_self _ _ _
  · rw [if_neg hj]
    exact Function.update_of_ne hj _ _

/-- A new process gets a pid that no slot has. -/
theorem Scheduled.allocated (h : Scheduled k) {i : Fin maxNprocess}
    (hi : (k.procSet i).status = .unused) : Scheduled (allocated k i) := by
  have hidx : k.procCurrIdx ≠ i := fun he => h.curr_used (he ▸ hi)
  have hlt : ∀ j, (k.procSet j).pid ≠ k.procNprocs + 1 := fun j => by
    have := h.table.pid_range j
    omega
  have hpos : 0 ≤ k.procNprocs := (h.table.pid_range i).1.trans (h.table.pid_range i).2
  refine ⟨⟨?_, ?_, ?_⟩, ?_, ?_, ?_⟩
  · intro a b
    rw [allocated_procSet, allocated_procSet]
    split <;> split
    · rename_i ha hb
      exact fun _ _ => ha.trans hb.symm
    · exact fun _ he => absurd he.symm (hlt b)
    · exact fun _ he => absurd he (hlt a)
    · exact h.table.pid_inj a b
  · intro j
    have := h.table.pid_range j
    rw [allocated_procSet]
    change _ ∧ _ ≤ k.procNprocs + 1
    split
    · exact ⟨by simp only; omega, le_refl _⟩
    · omega
  · intro j
    rw [allocated_procSet]
    split
    · simp only
      omega
    · exact h.table.pid_zero j
  · rw [Kernel.currStatus]
    change ((Egos.Grass.allocated k i).procSet k.procCurrIdx).status = _
    rw [allocated_procSet, if_neg hidx]
    exact h.running
  · intro j hj
    rw [allocated_procSet] at hj
    split at hj
    · cases hj
    · exact h.only j hj
  · change k.mmuPid = ((Egos.Grass.allocated k i).procSet k.procCurrIdx).pid
    rw [allocated_procSet, if_neg hidx]
    exact h.mmu

/-! ## The machine -/

/-- The invariant of the machine. -/
structure MachineOk (m : Machine M) : Prop where
  scheduled : Scheduled m.kernel
  selects : SelectsRunnable m.kernel
  allocated : ∀ p, m.allocated = some p → 1 < p

/-- The invariant holds when the kernel boots. -/
theorem machineOk_boot (area : ℤ → Syscall M) : MachineOk (bootMachine area) := by
  have hpid : ∀ i, ((boot area).procSet i).pid = if i = 0 then 1 else 0 := by
    intro i
    simp only [boot]
    split <;> rfl
  have hstatus : ∀ i, ((boot area).procSet i).status = if i = 0 then .running else .unused := by
    intro i
    simp only [boot]
    split <;> rfl
  refine ⟨⟨⟨?_, ?_, ?_⟩, ?_, ?_, rfl⟩, ?_, ?_⟩
  · intro i j
    simp only [bootMachine, hpid]
    split <;> split <;> simp_all
  · intro i
    simp only [bootMachine, hpid]
    split <;> simp [boot]
  · intro i
    simp only [bootMachine, hpid, hstatus]
    split <;> simp
  · exact hstatus 0
  · intro i
    simp only [bootMachine, hstatus]
    split
    · exact fun _ => ‹i = 0›
    · exact fun h => by cases h
  · intro idx status hmem
    cases hmem
  · intro p hp
    cases hp

/-- Every step keeps the invariant. -/
theorem MachineOk.step {a : Action M} (h : MachineOk m) (hstep : step m a = some m') :
    MachineOk m' := by
  have hs := h.scheduled
  cases step_outcome hs hstep with
  | send ho | softSend ho => exact ⟨ho.scheduled hs, ho.selectsRunnable h.selects, h.allocated⟩
  | recv ho | softRecv ho => exact ⟨ho.scheduled hs, ho.selectsRunnable h.selects, h.allocated⟩
  | ignored _ => exact h
  | killed _ hnext =>
    exact ⟨.returnTo_yieldTo hs.killed hnext,
      SelectsRunnable.returnTo_yieldTo (k := killed m.kernel) h.selects hnext, h.allocated⟩
  | preempted _ hnext =>
    exact ⟨.returnTo_yieldTo ⟨hs.table, hs.only⟩ hnext, h.selects.returnTo_yieldTo hnext,
      h.allocated⟩
  | alloc hcurr _ hi =>
    refine ⟨hs.allocated hi, h.selects, ?_⟩
    rintro p ⟨⟩
    have := (hs.table.pid_range m.kernel.procCurrIdx).2
    rw [show (m.kernel.procSet m.kernel.procCurrIdx).pid = 1 from hcurr] at this
    omega
  | setReady hcurr halloc =>
    have hp := h.allocated _ halloc
    refine ⟨hs.procSetStatus ?_ (by omega) (by decide), h.selects, by simp⟩
    rw [hcurr, gpidProcess]
    omega
  | free hcurr hpid =>
    refine ⟨hs.procFree hcurr hpid, h.selects.congr fun idx status hmem => ?_, h.allocated⟩
    simp only [procFree, procSetStatus] at hmem
    split at hmem <;> exact hmem

/-- Over every run of system calls with any receivers, interrupts with and without Ctrl+C, and
calls of `GPID_PROCESS`: when the kernel returns to a process, the current slot and no other is
running, nonzero pids are distinct, the memory is that of the current process, and `proc_yield` has
never selected a slot that was unused or loading. -/
theorem process_table_invariant {area : ℤ → Syscall M}
    (h : Reach step (fun _ _ => True) (bootMachine area) m) :
    (∀ i, (m.kernel.procSet i).status = .running ↔ i = m.kernel.procCurrIdx) ∧
    (∀ i j, (m.kernel.procSet i).pid ≠ 0 → (m.kernel.procSet i).pid = (m.kernel.procSet j).pid →
      i = j) ∧
    m.kernel.mmuPid = m.kernel.currPid ∧
    ∀ idx status, .select idx status ∈ m.kernel.log → status ≠ .unused ∧ status ≠ .loading := by
  have hok := h.invariant (machineOk_boot area) fun _ _ _ hm _ hstep => hm.step hstep
  have hs := hok.scheduled
  refine ⟨fun i => ⟨hs.only i, ?_⟩, hs.table.pid_inj, hs.mmu, fun idx status hmem =>
    ProcStatus.canRun_ne_unused (hok.selects idx status hmem)⟩
  rintro rfl
  exact hs.running

/-- System-call areas that hold nothing. -/
def nullArea : ℤ → Syscall Unit := fun _ => ⟨.unused, ⟨0, 0, ()⟩, 0⟩

/-- The servers and a client with pid 5 are started and the servers wait for messages. The client
sends a request to `GPID_FILE`, which answers before the client has called `sys_recv`; then the
client runs and is killed by Ctrl+C. -/
def clientKilled : List (Action Unit) :=
  [.alloc, .setReady 2, .alloc, .setReady 3, .alloc, .setReady 4, .alloc, .setReady 5,
    .recv, .recv, .recv, .recv, .send gpidFile (), .send 5 (), .intr intrIdTimer true]

/-- The run with a kill gives control to the shell, which is then the process that runs. -/
theorem process_table_invariant_killed :
    ∃ m : Machine Unit, runActions step (bootMachine nullArea) clientKilled = some m ∧
      m.kernel.procCurrIdx = 3 ∧ (m.kernel.procSet 3).status = .running := by
  have hrun : (runActions step (bootMachine nullArea) clientKilled).any
      (fun m => m.kernel.procCurrIdx = 3) = true := by decide +kernel
  obtain ⟨m, hm, hidx⟩ := (Option.any_eq_true _ _).1 hrun
  have hidx : m.kernel.procCurrIdx = 3 := by simpa using hidx
  exact ⟨m, hm, hidx,
    ((process_table_invariant (.of_runActions_true _ hm)).1 3).2 hidx.symm⟩

end Egos.Grass
