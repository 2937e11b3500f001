import Egos.Grass.Kernel

/-!
# The process table

What every handler keeps of the process table: nonzero pids are distinct, those of freed slots
included, and an unused pid is on unused slots only. With distinct pids, the functions that search
the table by pid change one slot, and `proc_yield` is the move `yieldTo` to the slot it selects.
-/

namespace Egos.Grass

variable {M : Type} {k k' : Kernel M}

/-! ## The invariant -/

/-- The pids of the process table. -/
structure TableOk (k : Kernel M) : Prop where
  pid_inj : ∀ i j, (k.procSet i).pid ≠ 0 → (k.procSet i).pid = (k.procSet j).pid → i = j
  pid_range : ∀ i, 0 ≤ (k.procSet i).pid ∧ (k.procSet i).pid ≤ k.procNprocs
  pid_zero : ∀ i, (k.procSet i).pid = 0 → (k.procSet i).status = .unused

/-- No process but the current one is marked as running. -/
def OnlyCurrRuns (k : Kernel M) : Prop :=
  ∀ i, (k.procSet i).status = .running → i = k.procCurrIdx

/-- What holds when the kernel returns to a process. -/
structure Scheduled (k : Kernel M) : Prop where
  table : TableOk k
  running : k.currStatus = .running
  only : OnlyCurrRuns k
  mmu : k.mmuPid = k.currPid

/-- A change of statuses and waits that leaves no slot with pid 0 in use keeps the table. -/
theorem TableOk.congr (h : TableOk k) (hn : k'.procNprocs = k.procNprocs)
    (hpid : ∀ i, (k'.procSet i).pid = (k.procSet i).pid)
    (hzero : ∀ i, (k.procSet i).pid = 0 → (k'.procSet i).status = .unused) : TableOk k' := by
  refine ⟨?_, ?_, ?_⟩
  · intro i j
    rw [hpid i, hpid j]
    exact h.pid_inj i j
  · intro i
    rw [hpid i, hn]
    exact h.pid_range i
  · intro i
    rw [hpid i]
    exact hzero i

/-- A slot in use has a pid. -/
theorem TableOk.pid_ne_zero (h : TableOk k) {i : Fin maxNprocess}
    (hi : (k.procSet i).status ≠ .unused) : (k.procSet i).pid ≠ 0 :=
  fun hz => hi (h.pid_zero i hz)

/-- No other slot has the pid of a slot in use. -/
theorem TableOk.pid_ne (h : TableOk k) {i j : Fin maxNprocess} (hij : i ≠ j)
    (hj : (k.procSet j).status ≠ .unused) : (k.procSet i).pid ≠ (k.procSet j).pid :=
  fun he => hij (h.pid_inj j i (h.pid_ne_zero hj) he.symm).symm

/-- A process that can run has been loaded. -/
theorem ProcStatus.canRun_ne_unused {s : ProcStatus} (h : s.canRun = true) :
    s ≠ .unused ∧ s ≠ .loading := by
  cases s <;> simp_all [ProcStatus.canRun]

/-! ## One slot at a time -/

/-- The kernel with the status of one slot replaced. -/
def Kernel.setSlot (k : Kernel M) (i : Fin maxNprocess) (status : ProcStatus) : Kernel M :=
  { k with procSet := Function.update k.procSet i { k.procSet i with status } }

/-- Setting the status by pid changes the one slot that has it. -/
theorem procSetStatus_eq (h : TableOk k) {i : Fin maxNprocess} (hi : (k.procSet i).pid ≠ 0)
    (status : ProcStatus) : procSetStatus k (k.procSet i).pid status = k.setSlot i status := by
  have hfun : (fun j => if (k.procSet j).pid = (k.procSet i).pid then
      { k.procSet j with status } else k.procSet j)
      = Function.update k.procSet i { k.procSet i with status } := by
    funext j
    by_cases hj : j = i
    · rw [hj, Function.update_self, if_pos rfl]
    · rw [Function.update_of_ne hj, if_neg]
      exact fun he => hj (h.pid_inj i j hi he.symm).symm
  rw [procSetStatus, Kernel.setSlot, hfun]

section setSlot

variable (k : Kernel M) (i j : Fin maxNprocess) (status : ProcStatus)

/-- The table after a status is set. -/
theorem Kernel.setSlot_procSet : (k.setSlot i status).procSet j
    = if j = i then { k.procSet j with status } else k.procSet j := by
  rw [Kernel.setSlot]
  by_cases hj : j = i
  · subst hj
    rw [if_pos rfl]
    exact Function.update_self _ _ _
  · rw [if_neg hj]
    exact Function.update_of_ne hj _ _

/-- Setting a status leaves the pids. -/
@[simp] theorem Kernel.setSlot_pid :
    ((k.setSlot i status).procSet j).pid = (k.procSet j).pid := by
  rw [Kernel.setSlot_procSet]
  split <;> rfl

/-- The statuses after one is set. -/
@[simp] theorem Kernel.setSlot_status : ((k.setSlot i status).procSet j).status
    = if j = i then status else (k.procSet j).status := by
  rw [Kernel.setSlot_procSet]
  split <;> rfl

/-- Setting a status leaves the receivers. -/
@[simp] theorem Kernel.setSlot_receiverPid :
    ((k.setSlot i status).procSet j).receiverPid = (k.procSet j).receiverPid := by
  rw [Kernel.setSlot_procSet]
  split <;> rfl

end setSlot

/-- Setting a status keeps the table in order. -/
theorem TableOk.setSlot (h : TableOk k) {i : Fin maxNprocess} {status : ProcStatus}
    (hi : (k.procSet i).pid ≠ 0) : TableOk (k.setSlot i status) := by
  refine h.congr rfl (fun j => k.setSlot_pid i j status) (fun j hj => ?_)
  rw [k.setSlot_status, if_neg fun he : j = i => hi (he ▸ hj)]
  exact h.pid_zero j hj

/-! ## Freed slots -/

/-- The slots that `proc_free` frees. -/
def Freed (k : Kernel M) (pid : ℤ) (j : Fin maxNprocess) : Prop :=
  if pid = -1 then (k.procSet j).pid ≥ gpidUserStart else (k.procSet j).pid = pid

instance (k : Kernel M) (pid : ℤ) (j : Fin maxNprocess) : Decidable (Freed k pid j) :=
  inferInstanceAs (Decidable (if pid = -1 then (k.procSet j).pid ≥ gpidUserStart
    else (k.procSet j).pid = pid))

/-- `proc_free` marks the slots it frees and changes nothing else. -/
theorem procFree_eq (k : Kernel M) (pid : ℤ) :
    procFree k pid = { k with
      procSet := fun j =>
        if Freed k pid j then { k.procSet j with status := .unused } else k.procSet j } := by
  by_cases hpid : pid = -1
  · rw [procFree, if_neg (not_not.2 hpid)]
    congr 1
    funext j
    simp only [Freed, hpid, if_true]
    by_cases hj : (k.procSet j).status = .unused
    · rw [if_neg fun hc => hc.2 hj]
      split
      · rw [← hj]
      · rfl
    · simp only [ne_eq, hj, not_false_eq_true, and_true]
  · rw [procFree, if_pos hpid, procSetStatus]
    simp only [Freed, hpid, if_false]

/-- The table after `proc_free`. -/
theorem procFree_procSet (k : Kernel M) (pid : ℤ) (j : Fin maxNprocess) :
    (procFree k pid).procSet j
      = if Freed k pid j then { k.procSet j with status := .unused } else k.procSet j := by
  rw [procFree_eq]

/-! ## Yielding -/

/-- The current process can be scheduled away: its slot, if it is still running, can be run again
later. -/
def preempt (k : Kernel M) : Kernel M :=
  if k.currStatus = .running then k.setSlot k.procCurrIdx .runnable else k

/-- The move of `proc_yield` to slot `next`. -/
def yieldTo (k : Kernel M) (next : Fin maxNprocess) : Kernel M :=
  { (preempt k).setSlot next .running with
    procCurrIdx := next
    mmuPid := (k.procSet next).pid
    log := .select next (k.procSet next).status :: k.log }

/-- The process that is selected can run. -/
theorem nextIdx_canRun {next : Fin maxNprocess} (h : nextIdx k = some next) :
    (k.procSet next).status.canRun = true := by
  have := List.find?_some h
  simpa using this

/-- Preempting the current process is not logged. -/
theorem preempt_log (k : Kernel M) : (preempt k).log = k.log := by
  unfold preempt
  split <;> rfl

/-- It leaves the pids. -/
theorem preempt_pid (k : Kernel M) (j : Fin maxNprocess) :
    ((preempt k).procSet j).pid = (k.procSet j).pid := by
  unfold preempt
  split <;> simp

/-- It keeps the table in order. -/
theorem TableOk.preempt (h : TableOk k) : TableOk (preempt k) := by
  unfold Egos.Grass.preempt
  split
  · rename_i hrun
    refine h.setSlot (h.pid_ne_zero ?_)
    rw [show (k.procSet k.procCurrIdx).status = .running from hrun]
    decide
  · exact h

/-- `proc_yield` moves to the slot that its search finds. -/
theorem procYield_eq (h : TableOk k) :
    procYield k = match nextIdx k with
      | none => .error "proc_yield: no runnable process"
      | some next => .ok (yieldTo k next) := by
  unfold procYield
  cases hnext : nextIdx k with
  | none => rfl
  | some next =>
    have hpid : (k.procSet next).pid ≠ 0 :=
      h.pid_ne_zero (ProcStatus.canRun_ne_unused (nextIdx_canRun hnext)).1
    have hpre : (if k.currStatus = .running then procSetRunnable k k.currPid else k)
        = preempt k := by
      unfold preempt
      split
      · rename_i hrun
        refine procSetStatus_eq h (h.pid_ne_zero ?_) _
        rw [show (k.procSet k.procCurrIdx).status = .running from hrun]
        decide
      · rfl
    simp only [hpre]
    set k₁ : Kernel M := (({ preempt k with procCurrIdx := next }).note
      (.select next (k.procSet next).status)).mmuSwitch ((preempt k).procSet next).pid with hk₁
    have htable : TableOk k₁ := h.preempt.congr rfl (fun _ => rfl) h.preempt.pid_zero
    have hpid₁ : (k₁.procSet next).pid ≠ 0 := by
      rw [show (k₁.procSet next).pid = _ from preempt_pid k next]
      exact hpid
    have hrun : procSetRunning k₁ (k₁.procSet next).pid = k₁.setSlot next .running :=
      procSetStatus_eq htable hpid₁ _
    have hyield : k₁.setSlot next .running = yieldTo k next := by
      rw [hk₁, preempt_pid, yieldTo, ← preempt_log k]
      rfl
    exact congrArg Except.ok (hrun.trans hyield)

section yieldTo

variable (k : Kernel M) (next j : Fin maxNprocess)

/-- `proc_yield` leaves the pids. -/
@[simp] theorem yieldTo_pid : ((yieldTo k next).procSet j).pid = (k.procSet j).pid :=
  ((preempt k).setSlot_pid next j .running).trans (preempt_pid k j)

/-- The process that is selected runs, and the current one is runnable if it was running. -/
@[simp] theorem yieldTo_status : ((yieldTo k next).procSet j).status
    = if j = next then .running
      else if j = k.procCurrIdx ∧ k.currStatus = .running then .runnable
      else (k.procSet j).status := by
  refine ((preempt k).setSlot_status next j .running).trans ?_
  refine if_congr Iff.rfl rfl ?_
  unfold preempt
  by_cases hrun : k.currStatus = .running
  · rw [if_pos hrun, k.setSlot_status]
    simp [hrun]
  · rw [if_neg hrun, if_neg fun hc => hrun hc.2]

/-- `proc_yield` leaves the receivers. -/
@[simp] theorem yieldTo_receiverPid :
    ((yieldTo k next).procSet j).receiverPid = (k.procSet j).receiverPid := by
  refine ((preempt k).setSlot_receiverPid next j .running).trans ?_
  unfold preempt
  split <;> simp

/-- It gives out no pid. -/
@[simp] theorem yieldTo_procNprocs : (yieldTo k next).procNprocs = k.procNprocs := by
  unfold yieldTo preempt
  split <;> rfl

/-- It leaves the areas. -/
@[simp] theorem yieldTo_area : (yieldTo k next).area = k.area := by
  unfold yieldTo preempt
  split <;> rfl

end yieldTo

/-- After a move to a slot that can run, the kernel can return to it. -/
theorem Scheduled.yieldTo (h : TableOk k) (honly : OnlyCurrRuns k) {next : Fin maxNprocess}
    (hnext : (k.procSet next).status.canRun = true) : Scheduled (yieldTo k next) := by
  refine ⟨?_, ?_, ?_, ?_⟩
  · refine h.congr (yieldTo_procNprocs k next) (fun j => yieldTo_pid k next j) fun j hj => ?_
    have hunused := h.pid_zero j hj
    rw [yieldTo_status, if_neg, if_neg]
    · exact hunused
    · rintro ⟨rfl, hrun⟩
      exact absurd (hrun.symm.trans hunused) (by decide)
    · rintro rfl
      exact (ProcStatus.canRun_ne_unused hnext).1 hunused
  · exact (yieldTo_status k next next).trans (if_pos rfl)
  · intro j hj
    change j = next
    by_contra hne
    rw [yieldTo_status, if_neg hne] at hj
    split at hj
    · cases hj
    · rename_i hc
      have hcurr := honly j hj
      exact hc ⟨hcurr, by rw [Kernel.currStatus, ← hcurr]; exact hj⟩
  · exact (yieldTo_pid k next next).symm

end Egos.Grass
